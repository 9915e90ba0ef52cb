import Leviathan.Lib.StableSort
import Leviathan.Prelude.Arrays

/-!
# `Array.sort`

`sort` splits an array in the middle with `take` and `skip`, sorts the halves and merges them: while
both halves have elements left the lesser of the two first ones goes out, the left one if the
comparison returns nothing positive; then the rest of the left half and the rest of the right one.
An index into a half stands for the elements from there on.

For a comparison that orders the elements of the array, `sort` returns their stable sort.
-/

namespace Leviathan.Prelude

open StableSort List

variable {α : Type}

/-- The three loops of the merge, with what is left of the halves and the result so far. -/
def mergeHalves (cmp : α → α → Int) : List α → List α → List α → List α
  | a :: as, b :: bs, r =>
    if cmp a b ≤ 0 then mergeHalves cmp as (b :: bs) (r ++ [a])
    else mergeHalves cmp (a :: as) bs (r ++ [b])
  | as, bs, r => bs.foldl (fun r b => r ++ [b]) (as.foldl (fun r a => r ++ [a]) r)
termination_by as bs => as.length + bs.length

/-- `sort`. -/
def sort (cmp : α → α → Int) (xs : List α) : Option (List α) :=
  if _h : xs.length ≤ 1 then some xs
  else
    match _hl : take (xs.length / 2 : Nat) xs, _hr : skip (xs.length / 2 : Nat) xs with
    | some l, some r => do
      let left ← sort cmp l
      let right ← sort cmp r
      return mergeHalves cmp left right []
    | _, _ => none
termination_by xs.length
decreasing_by
  · obtain rfl := Option.some.inj ((take_natCast _ xs).symm.trans _hl)
    rw [length_take]
    omega
  · obtain rfl := Option.some.inj ((skip_natCast _ xs).symm.trans _hr)
    rw [length_drop]
    omega

/-- The comparison that `sortBy` makes of a key. -/
def compareKeys {κ : Type} (lt : κ → κ → Bool) (key : α → κ) (a b : α) : Int :=
  if lt (key a) (key b) then -1 else if lt (key b) (key a) then 1 else 0

/-- `sortBy`. -/
def sortBy {κ : Type} (lt : κ → κ → Bool) (key : α → κ) (xs : List α) : Option (List α) :=
  sort (compareKeys lt key) xs

/-- The order that a comparison stands for. -/
def notAfter (cmp : α → α → Int) (a b : α) : Bool := decide (cmp a b ≤ 0)

/-! ### The merge -/

theorem foldl_add (xs r : List α) : xs.foldl (fun r x => r ++ [x]) r = r ++ xs := by
  induction xs generalizing r with
  | nil => exact (append_nil r).symm
  | cons x xs ih => rw [foldl_cons, ih, append_assoc, singleton_append]

theorem mergeHalves_eq (cmp : α → α → Int) (as bs r : List α) :
    mergeHalves cmp as bs r = r ++ as.merge bs (notAfter cmp) := by
  fun_induction mergeHalves cmp as bs r with
  | case1 a as b bs r hle ih =>
    rw [ih, cons_merge_cons_pos _ _ _ (decide_eq_true hle), append_assoc,
      singleton_append]
  | case2 a as b bs r hgt ih =>
    rw [ih, cons_merge_cons_neg _ _ _ (by rwa [notAfter, decide_eq_true_iff]),
      append_assoc, singleton_append]
  | case3 as bs r hends =>
    rw [foldl_add, foldl_add, append_assoc]
    cases as with
    | nil => rw [nil_merge, nil_append]
    | cons a as =>
      cases bs with
      | nil => rw [merge_right, append_nil]
      | cons b bs => exact (hends a as b bs rfl rfl).elim

/-! ### The sort -/

theorem sort_of_length {cmp : α → α → Int} {xs : List α} (h : xs.length ≤ 1) :
    sort cmp xs = some xs := by
  rw [sort, dif_pos h]

theorem sort_of_halves {cmp : α → α → Int} {xs left right : List α} (h : ¬xs.length ≤ 1)
    (hl : sort cmp (xs.take (xs.length / 2)) = some left)
    (hr : sort cmp (xs.drop (xs.length / 2)) = some right) :
    sort cmp xs = some (left.merge right (notAfter cmp)) := by
  rw [sort, dif_neg h]
  split
  · next l r hl' hr' =>
      obtain rfl := Option.some.inj ((take_natCast _ xs).symm.trans hl')
      obtain rfl := Option.some.inj ((skip_natCast _ xs).symm.trans hr')
      rw [hl, hr]
      exact congrArg some (mergeHalves_eq cmp left right [])
  · next hno => exact (hno _ _ (take_natCast _ xs) (skip_natCast _ xs)).elim

/-- **`sort` returns the stable sort** by every comparison that orders the elements. -/
theorem sort_isStableSort {cmp : α → α → Int} :
    ∀ {n : Nat} {xs : List α}, xs.length ≤ n → Orders (notAfter cmp) xs →
      ∃ ys, sort cmp xs = some ys ∧ IsStableSort (notAfter cmp) xs ys := by
  intro n
  induction n with
  | zero => exact fun {xs} h _ => ⟨xs, sort_of_length (by omega), .refl_of_length (by omega)⟩
  | succ n ih =>
    intro xs hn ho
    by_cases h : xs.length ≤ 1
    · exact ⟨xs, sort_of_length h, .refl_of_length h⟩
    · obtain ⟨left, hl, hleft⟩ := @ih (xs.take (xs.length / 2))
        (by rw [length_take]; omega) (ho.mono fun a ha => mem_of_mem_take ha)
      obtain ⟨right, hr, hright⟩ := @ih (xs.drop (xs.length / 2))
        (by rw [length_drop]; omega) (ho.mono fun a ha => mem_of_mem_drop ha)
      refine ⟨_, sort_of_halves h hl hr, ?_⟩
      have hmerge := IsStableSort.merge
        (by rwa [take_append_drop]) hleft hright
      rwa [take_append_drop] at hmerge

end Leviathan.Prelude
