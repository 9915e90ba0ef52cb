import Leviathan.Prelude.Sort

/-!
# `orderBy` and `thenBy`

An `OrderedArray` carries a run id with every element.  `thenBy` tags the elements with their run
ids, sorts the pairs by the run id first and by the key within a run, and numbers the runs again: the
counter goes up where the old run ends or the key differs.  `orderBy` starts with one run.

What a chain of keys leaves is the stable sort of the array by the keys in their order, and the run
ids rank it: two elements have one run id exactly if they tie on every key.  That ranking is the
invariant that the chain keeps.
-/

namespace Leviathan.Prelude

open StableSort List

variable {α : Type}

/-- A key, and the `<` of its values. -/
structure Key (α : Type) where
  K : Type
  lt : K → K → Bool
  key : α → K

/-- `OrderedArray`. -/
structure OrderedArray (α : Type) where
  items : List α
  runId : List Int

namespace Key

/-- The comparison of two tagged elements. -/
def comparePairs (k : Key α) (p q : Int × α) : Int :=
  if p.1 < q.1 then -1
  else if q.1 < p.1 then 1
  else compareKeys k.lt k.key p.2 q.2

/-- Two neighbours of the sorted pairs stay in one run. -/
def sameRun (k : Key α) (prev cur : Int × α) : Bool :=
  let sameOldRun := prev.1 == cur.1
  let tiedOnKey := !k.lt (k.key prev.2) (k.key cur.2) && !k.lt (k.key cur.2) (k.key prev.2)
  sameOldRun && tiedOnKey

/-- A turn of the loop that numbers the runs. -/
def number (k : Key α) (sorted : List (Int × α)) (state : Int × List Int) (i : Int) :
    Option (Int × List Int) := do
  let counter ←
    if i > 0 then do
      let prev ← elemAt sorted (i - 1)
      let cur ← elemAt sorted i
      pure (if k.sameRun prev cur then state.1 else state.1 + 1)
    else pure state.1
  return (counter, state.2 ++ [counter])

end Key

/-- The pairs that `thenBy` sorts. -/
def OrderedArray.tagged (o : OrderedArray α) : Option (List (Int × α)) :=
  addEach (fun i => do return (← elemAt o.runId i, ← elemAt o.items i))
    (upTo 0 (o.items.length - 1)) []

/-- `thenBy`. -/
def OrderedArray.thenBy (o : OrderedArray α) (k : Key α) : Option (OrderedArray α) := do
  let tagged ← o.tagged
  let sorted ← sort k.comparePairs tagged
  let newItems := sorted.map Prod.snd
  let (_, newRunId) ← (upTo 0 (sorted.length - 1)).foldlM (k.number sorted) (0, [])
  return ⟨newItems, newRunId⟩

/-- `orderBy`. -/
def orderBy (xs : List α) (k : Key α) : Option (OrderedArray α) := do
  let allRun0 ← addEach (fun _ => some (0 : Int)) (upTo 0 (xs.length - 1)) []
  (OrderedArray.mk xs allRun0).thenBy k

/-- `xs.orderBy(k).thenBy(k₁)...thenBy(kₙ)`. -/
def orderByChain (xs : List α) (k : Key α) (ks : List (Key α)) : Option (OrderedArray α) := do
  ks.foldlM OrderedArray.thenBy (← orderBy xs k)

/-! ### The order of a chain of keys -/

/-- `b` does not come before `a`. -/
def Key.le (k : Key α) (a b : α) : Bool := !k.lt (k.key b) (k.key a)

/-- The order of the keys, the first one first. -/
def lexLe : List (Key α) → α → α → Bool
  | [] => fun _ _ => true
  | k :: ks => lex k.le (lexLe ks)

theorem notAfter_compareKeys {k : Key α} {xs : List α} (h : Orders k.le xs) :
    ∀ a ∈ xs, ∀ b ∈ xs, notAfter (compareKeys k.lt k.key) a b = k.le a b := by
  intro a ha b hb
  have htotal := h.total a ha b hb
  unfold Key.le at htotal
  unfold notAfter compareKeys Key.le
  cases hab : k.lt (k.key a) (k.key b) <;> cases hba : k.lt (k.key b) (k.key a) <;> simp_all

/-! ### The numbers of the runs -/

/-- The numbers behind that of `prev`. -/
def numbersAfter {β : Type} (same : β → β → Bool) (counter : Int) (prev : β) : List β → List Int
  | [] => []
  | cur :: rest =>
    let next := if same prev cur then counter else counter + 1
    next :: numbersAfter same next cur rest

/-- The numbers of the runs, from `0` up. -/
def numbers {β : Type} (same : β → β → Bool) : List β → List Int
  | [] => []
  | first :: rest => 0 :: numbersAfter same 0 first rest

section Numbers

variable {β : Type} {same le : β → β → Bool}

theorem length_numbersAfter (counter : Int) (prev : β) (rest : List β) :
    (numbersAfter same counter prev rest).length = rest.length := by
  induction rest generalizing counter prev with
  | nil => rfl
  | cons cur rest ih => rw [numbersAfter, length_cons, ih, length_cons]

theorem length_numbers (l : List β) : (numbers same l).length = l.length := by
  cases l with
  | nil => rfl
  | cons first rest => rw [numbers, length_cons, length_numbersAfter, length_cons]

/-- A numbered member stands before another one. -/
structure Before (le : β → β → Bool) (x y : Int × β) : Prop where
  number : x.1 ≤ y.1
  order : le x.2 y.2 = true
  same : x.1 = y.1 ↔ le y.2 x.2 = true

/-- Ordered members are numbered in their order, those that tie alike. -/
theorem pairwise_numbersAfter {counter : Int} {prev : β} {rest : List β}
    (ho : Orders le (prev :: rest)) (hsorted : (prev :: rest).Pairwise fun a b => le a b = true)
    (hsame : ∀ a ∈ prev :: rest, ∀ b ∈ prev :: rest, le a b = true → same a b = le b a) :
    ((counter :: numbersAfter same counter prev rest).zip (prev :: rest)).Pairwise (Before le) := by
  induction rest generalizing counter prev with
  | nil => exact pairwise_singleton _ _
  | cons cur rest ih =>
    have hsub : ∀ a ∈ cur :: rest, a ∈ prev :: cur :: rest := fun a ha => mem_cons_of_mem _ ha
    have hrest := @ih (if same prev cur then counter else counter + 1) cur (ho.mono hsub)
      hsorted.tail fun a ha b hb => hsame a (hsub a ha) b (hsub b hb)
    have hprev : prev ∈ prev :: cur :: rest := mem_cons_self
    have hcur := hsub cur mem_cons_self
    have hle := rel_of_pairwise_cons hsorted mem_cons_self
    have hrun := hsame prev hprev cur hcur hle
    have hnext : Before le (counter, prev)
        (if same prev cur then counter else counter + 1, cur) := by
      refine ⟨?_, hle, ?_⟩
      · dsimp only
        split <;> omega
      · dsimp only
        rw [← hrun]
        split
        · next h => exact iff_of_true rfl h
        · next h => exact iff_of_false (by omega) h
    rw [numbersAfter, zip_cons_cons]
    refine List.pairwise_cons.mpr ⟨fun y hy => ?_, hrest⟩
    rw [zip_cons_cons] at hy hrest
    rcases List.mem_cons.mp hy with rfl | hy'
    · exact hnext
    · have hbefore := rel_of_pairwise_cons hrest hy'
      have hy₂ := hsub y.2 (mem_cons_of_mem _ (of_mem_zip hy').2)
      refine ⟨Int.le_trans hnext.number hbefore.number,
        ho.trans _ hprev _ hcur _ hy₂ hle hbefore.order, ?_⟩
      have h₁ := hnext.number
      have h₂ := hbefore.number
      dsimp only at h₁ h₂ ⊢
      constructor
      · intro heq
        have hback := hnext.same.mp (by dsimp only; omega)
        have hback' := hbefore.same.mp (by dsimp only; omega)
        exact ho.trans _ hy₂ _ hcur _ hprev hback' hback
      · intro hback
        have hcp := ho.trans _ hcur _ hy₂ _ hprev hbefore.order hback
        have hyc := ho.trans _ hy₂ _ hprev _ hcur hback hle
        exact (hnext.same.mpr hcp).trans (hbefore.same.mpr hyc)

theorem pairwise_numbers {l : List β} (ho : Orders le l)
    (hsorted : l.Pairwise fun a b => le a b = true)
    (hsame : ∀ a ∈ l, ∀ b ∈ l, le a b = true → same a b = le b a) :
    ((numbers same l).zip l).Pairwise (Before le) := by
  cases l with
  | nil => exact .nil
  | cons first rest => exact pairwise_numbersAfter ho hsorted hsame

/-- The numbers rank the members. -/
theorem rank_of_pairwise {l : List (Int × β)} (ho : Orders le (l.map Prod.snd))
    (h : l.Pairwise (Before le)) : ∀ x ∈ l, ∀ y ∈ l, x.1 ≤ y.1 ↔ le x.2 y.2 = true := by
  have hforward : l.Pairwise fun x y => x.1 ≤ y.1 ↔ le x.2 y.2 = true :=
    h.imp fun hxy => iff_of_true hxy.number hxy.order
  have hback : l.Pairwise fun x y => y.1 ≤ x.1 ↔ le y.2 x.2 = true := by
    refine h.imp fun hxy => ?_
    rw [← hxy.same]
    have := hxy.number
    omega
  refine List.Pairwise.forall_of_forall_of_flip (fun x hx => ?_) hforward hback
  exact iff_of_true (Int.le_refl _) (ho.refl (mem_map_of_mem hx))

end Numbers

end Leviathan.Prelude
