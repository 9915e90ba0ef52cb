import Mathlib.Data.List.Range

/-!
# Arrays of the prelude

An array is a list; `add` puts an element behind it.  `elemAt` is the native access, which throws
(`none`) outside the array, and `upTo` the numbers that `for (int i in lo .. hi)` goes through: none
if `hi` is less than `lo`.  `take` and `skip` are the loops of the prelude, and so are `map`, `where` and
`takeWhile`, which say beside their result on which elements they have called the function they are
given.
-/

namespace Leviathan.Prelude

open List

variable {α β : Type}

/-- `at`. -/
def elemAt (xs : List α) (i : Int) : Option α :=
  if i < 0 then none else xs[i.toNat]?

/-- `lo .. hi`. -/
def upTo (lo hi : Int) : List Int :=
  (List.range (hi - lo + 1).toNat).map fun (n : Nat) => lo + n

/-- `for (int i in is) r = r.add(f(i))`. -/
def addEach (f : Int → Option β) (is : List Int) (r : List β) : Option (List β) :=
  is.foldlM (fun r i => (f i).map fun x => r ++ [x]) r

/-- `Array.take`. -/
def take (k : Int) (xs : List α) : Option (List α) :=
  let m : Int := if k < xs.length then k else xs.length
  addEach (elemAt xs) (upTo 0 (m - 1)) []

/-- `Array.skip`. -/
def skip (k : Int) (xs : List α) : Option (List α) :=
  addEach (elemAt xs) (upTo k (xs.length - 1)) []

/-- A result, and the calls that it took. -/
structure Called (α β : Type) where
  result : List β
  calls : List α

/-- `Array.map`. -/
def map (fn : α → β) (xs : List α) : Called α β :=
  xs.foldl (fun r x => ⟨r.result ++ [fn x], r.calls ++ [x]⟩) ⟨[], []⟩

/-- `Array.where`. -/
def where_ (pred : α → Bool) (xs : List α) : Called α α :=
  xs.foldl (fun r x => ⟨if pred x then r.result ++ [x] else r.result, r.calls ++ [x]⟩) ⟨[], []⟩

/-- The loop of `Array.takeWhile`, which returns at the first element that fails. -/
def takeWhileLoop (pred : α → Bool) : List α → Called α α → Called α α
  | [], r => r
  | x :: xs, r =>
    if !pred x then ⟨r.result, r.calls ++ [x]⟩
    else takeWhileLoop pred xs ⟨r.result ++ [x], r.calls ++ [x]⟩

/-- `Array.takeWhile`. -/
def takeWhile (pred : α → Bool) (xs : List α) : Called α α := takeWhileLoop pred xs ⟨[], []⟩

/-! ### What the loops return -/

theorem elemAt_natCast (xs : List α) (n : Nat) : elemAt xs n = xs[n]? := by
  rw [elemAt, if_neg (by omega), Int.toNat_natCast]

theorem upTo_natCast (lo n : Nat) :
    upTo lo (n - 1 : Int) = (List.range' lo (n - lo)).map Nat.cast := by
  have hcount : ((n : Int) - 1 - lo + 1).toNat = n - lo := by omega
  rw [upTo, hcount, range'_eq_map_range, map_map]
  refine map_congr_left fun k _ => ?_
  rw [Function.comp_apply, Int.natCast_add]

/-- A loop over a range whose body finds the elements of a list, one after the other. -/
theorem addEach_range' {f : Int → Option β} {ys : List β} :
    ∀ {lo : Nat} (r : List β), (∀ k (hk : k < ys.length), f (lo + k : Nat) = some ys[k]) →
      addEach f ((List.range' lo ys.length).map Nat.cast) r = some (r ++ ys) := by
  induction ys with
  | nil => exact fun r _ => by rw [append_nil]; rfl
  | cons y ys ih =>
    intro lo r h
    have hfirst : f (lo : Nat) = some y := h 0 (Nat.succ_pos _)
    have hrest : ∀ k (hk : k < ys.length), f (lo + 1 + k : Nat) = some ys[k] := fun k hk => by
      rw [Nat.add_right_comm, Nat.add_assoc]
      exact h (k + 1) (Nat.succ_lt_succ hk)
    rw [length_cons, range'_succ, map_cons, addEach, foldlM_cons, hfirst,
      append_cons]
    exact ih _ hrest

theorem addEach_upTo {f : Int → Option β} {lo n : Nat} {ys : List β} (hlength : ys.length = n - lo)
    (h : ∀ k (hk : k < ys.length), f (lo + k : Nat) = some ys[k]) :
    addEach f (upTo lo (n - 1 : Int)) [] = some ys := by
  rw [upTo_natCast, ← hlength]
  exact addEach_range' [] h

theorem take_natCast (k : Nat) (xs : List α) : take k xs = some (xs.take k) := by
  have hm : (if (k : Int) < xs.length then (k : Int) else xs.length) = (min k xs.length : Nat) := by
    split <;> omega
  rw [take, hm]
  refine @addEach_upTo _ _ 0 _ _ (by rw [length_take, Nat.sub_zero]) fun i hi => ?_
  rw [elemAt_natCast, Nat.zero_add, getElem_take, getElem?_eq_getElem]

theorem skip_natCast (k : Nat) (xs : List α) : skip k xs = some (xs.drop k) := by
  refine addEach_upTo length_drop fun i hi => ?_
  rw [elemAt_natCast, getElem_drop, getElem?_eq_getElem]

theorem map_eq (fn : α → β) (xs : List α) : map fn xs = ⟨xs.map fn, xs⟩ := by
  have hloop : ∀ r : Called α β, xs.foldl (fun r x => ⟨r.result ++ [fn x], r.calls ++ [x]⟩) r =
      (⟨r.result ++ xs.map fn, r.calls ++ xs⟩ : Called α β) := by
    induction xs with
    | nil => simp
    | cons x xs ih => simp [ih]
  exact hloop _

theorem where_eq (pred : α → Bool) (xs : List α) : where_ pred xs = ⟨xs.filter pred, xs⟩ := by
  have hloop : ∀ r : Called α α, xs.foldl (fun r x =>
      ⟨if pred x then r.result ++ [x] else r.result, r.calls ++ [x]⟩) r =
      (⟨r.result ++ xs.filter pred, r.calls ++ xs⟩ : Called α α) := by
    induction xs with
    | nil => simp
    | cons x xs ih =>
      intro r
      cases hx : pred x <;> simp [ih, hx]
  exact hloop _

theorem result_takeWhile (pred : α → Bool) (xs : List α) :
    (takeWhile pred xs).result = xs.takeWhile pred := by
  have hloop : ∀ r, (takeWhileLoop pred xs r).result = r.result ++ xs.takeWhile pred := by
    induction xs with
    | nil => exact fun r => (append_nil _).symm
    | cons x xs ih =>
      intro r
      cases hx : pred x <;> simp [takeWhileLoop, ih, hx]
  exact hloop _

/-- Behind elements that pass there is one call more. -/
theorem calls_takeWhile {pred : α → Bool} {xs ys : List α} {x : α}
    (hpass : ∀ a ∈ xs, pred a = true) : xs ++ [x] <+: (takeWhile pred (xs ++ x :: ys)).calls := by
  have hgrows : ∀ (zs : List α) r, r.calls <+: (takeWhileLoop pred zs r).calls := by
    intro zs
    induction zs with
    | nil => exact fun r => prefix_refl _
    | cons z zs ih =>
      intro r
      rw [takeWhileLoop]
      split
      · exact prefix_append _ _
      · exact (prefix_append _ _).trans (ih ⟨r.result ++ [z], r.calls ++ [z]⟩)
  have hloop : ∀ r, r.calls ++ (xs ++ [x]) <+: (takeWhileLoop pred (xs ++ x :: ys) r).calls := by
    induction xs with
    | nil =>
      intro r
      rw [nil_append, nil_append, takeWhileLoop]
      split
      · exact prefix_refl _
      · exact hgrows ys ⟨r.result ++ [x], r.calls ++ [x]⟩
    | cons z xs ih =>
      intro r
      have hz := hpass z mem_cons_self
      have hrest := ih (fun a ha => hpass a (mem_cons_of_mem z ha))
        ⟨r.result ++ [z], r.calls ++ [z]⟩
      rw [cons_append, cons_append, takeWhileLoop, hz, append_cons]
      exact hrest
  exact hloop ⟨[], []⟩

end Leviathan.Prelude
