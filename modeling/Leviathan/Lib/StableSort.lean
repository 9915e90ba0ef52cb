import Mathlib.Data.List.Perm.Basic
import Mathlib.Data.List.Chain

/-!
# Stable sorts

A list `ys` is the stable sort of `xs` by a total preorder if it is a rearrangement of `xs`, in
order, in which the members that tie with a given one stand in the order they have in `xs`.  Merging
the stable sorts of two lists gives the stable sort of the two in a row, and sorting again by a
finer order gives the stable sort by the finer one.

Nothing is asked of the order outside the list that is sorted: a comparison may do as it likes on
values that do not occur.
-/

namespace Leviathan.StableSort

open List

variable {α β : Type}

/-- `le` orders the members of `xs`: any two compare, and the order is transitive. -/
structure Orders (le : α → α → Bool) (xs : List α) : Prop where
  total : ∀ a ∈ xs, ∀ b ∈ xs, le a b = true ∨ le b a = true
  trans : ∀ a ∈ xs, ∀ b ∈ xs, ∀ c ∈ xs, le a b = true → le b c = true → le a c = true

/-- Neither comes before the other. -/
def tied (le : α → α → Bool) (a x : α) : Bool := le a x && le x a

/-- `ys` is the stable sort of `xs`. -/
structure IsStableSort (le : α → α → Bool) (xs ys : List α) : Prop where
  perm : ys.Perm xs
  sorted : ys.Pairwise fun a b => le a b = true
  ties : ∀ a ∈ xs, ys.filter (tied le a) = xs.filter (tied le a)

variable {le : α → α → Bool}
variable {a : α}

@[simp] theorem tied_iff {x : α} : tied le a x = true ↔ le a x = true ∧ le x a = true := by
  rw [tied, Bool.and_eq_true]

/-- The order by `le`, and by `le'` where that ties. -/
def lex (le le' : α → α → Bool) (a b : α) : Bool := le a b && (!le b a || le' a b)

variable {le' : α → α → Bool}

theorem lex_iff {b : α} :
    lex le le' a b = true ↔ le a b = true ∧ (le b a = true → le' a b = true) := by
  cases h : le a b <;> cases h' : le b a <;> simp [lex, h, h']

theorem lex_true_left (le : α → α → Bool) : lex (fun _ _ => true) le = le := by
  funext a b
  simp [lex]

theorem lex_true_right (le : α → α → Bool) : lex le (fun _ _ => true) = le := by
  funext a b
  simp [lex]

theorem lex_assoc (le₁ le₂ le₃ : α → α → Bool) :
    lex (lex le₁ le₂) le₃ = lex le₁ (lex le₂ le₃) := by
  funext a b
  cases h : le₁ a b <;> cases h' : le₁ b a <;> simp [lex, h, h']

theorem tied_of_tied_lex {b : α} (h : tied (lex le le') a b = true) : tied le a b = true := by
  obtain ⟨hab, hba⟩ := tied_iff.mp h
  exact tied_iff.mpr ⟨(lex_iff.mp hab).1, (lex_iff.mp hba).1⟩

variable {xs ys : List α}

namespace Orders

theorem refl (h : Orders le xs) (ha : a ∈ xs) : le a a = true :=
  (h.total a ha a ha).elim id id

theorem mono (h : Orders le xs) (hsub : ∀ a ∈ ys, a ∈ xs) : Orders le ys where
  total := fun a ha b hb => h.total a (hsub a ha) b (hsub b hb)
  trans := fun a ha b hb c hc => h.trans a (hsub a ha) b (hsub b hb) c (hsub c hc)

/-- The order of the images. -/
theorem map {f : β → α} {xs : List β} (h : Orders le (xs.map f)) :
    Orders (fun a b => le (f a) (f b)) xs where
  total := fun _ ha _ hb => h.total _ (mem_map_of_mem ha) _ (mem_map_of_mem hb)
  trans := fun _ ha _ hb _ hc =>
    h.trans _ (mem_map_of_mem ha) _ (mem_map_of_mem hb) _ (mem_map_of_mem hc)

/-- Only the comparisons of members count. -/
theorem congr (h : Orders le xs) (hle : ∀ a ∈ xs, ∀ b ∈ xs, le' a b = le a b) : Orders le' xs where
  total := fun a ha b hb => by
    rw [hle a ha b hb, hle b hb a ha]
    exact h.total a ha b hb
  trans := fun a ha b hb c hc => by
    rw [hle a ha b hb, hle b hb c hc, hle a ha c hc]
    exact h.trans a ha b hb c hc

/-- The members that the first order ties are told apart by the second. -/
theorem lex (h : Orders le xs) (h' : Orders le' xs) :
    Orders (lex le le') xs where
  total := fun a ha b hb => by
    have h₁ := h.total a ha b hb
    have h₂ := h'.total a ha b hb
    simp only [lex_iff]
    tauto
  trans := fun a ha b hb c hc => by
    have hac := h.trans a ha b hb c hc
    have hba := h.trans b hb c hc a ha
    have hcb := h.trans c hc a ha b hb
    have hac' := h'.trans a ha b hb c hc
    simp only [lex_iff]
    tauto

end Orders

/-! ### Merging -/

/-- The merge of two lists in order is in order. -/
theorem pairwise_merge_of_orders (h : Orders le (xs ++ ys))
    (hx : xs.Pairwise fun a b => le a b = true) (hy : ys.Pairwise fun a b => le a b = true) :
    (xs.merge ys le).Pairwise fun a b => le a b = true := by
  let le' : {a // a ∈ xs ++ ys} → {a // a ∈ xs ++ ys} → Bool := fun a b => le a.1 b.1
  let xs' := xs.attachWith (· ∈ xs ++ ys) fun a ha => mem_append_left _ ha
  let ys' := ys.attachWith (· ∈ xs ++ ys) fun a ha => mem_append_right _ ha
  have hxs : xs'.map Subtype.val = xs := attachWith_map_subtype_val _
  have hys : ys'.map Subtype.val = ys := attachWith_map_subtype_val _
  have hmerge : xs.merge ys le = (xs'.merge ys' le').map Subtype.val := by
    rw [map_merge (s := le) fun a _ b _ => rfl, hxs, hys]
  rw [hmerge, pairwise_map]
  refine pairwise_merge (fun a b c => h.trans a.1 a.2 b.1 b.2 c.1 c.2) (fun a b => ?_) _ _ ?_ ?_
  · rw [Bool.or_eq_true]
    exact h.total a.1 a.2 b.1 b.2
  · rwa [← hxs, pairwise_map] at hx
  · rwa [← hys, pairwise_map] at hy

/-- Of the members that tie with a given one, the merge has those of the first list first. -/
theorem filter_merge (h : Orders le (a :: (xs ++ ys))) (hx : xs.Pairwise fun a b => le a b = true) :
    (xs.merge ys le).filter (tied le a) = xs.filter (tied le a) ++ ys.filter (tied le a) := by
  induction xs generalizing ys with
  | nil => rw [nil_merge, filter_nil, nil_append]
  | cons x xs ihx =>
    induction ys with
    | nil => rw [merge_right, filter_nil, append_nil]
    | cons y ys ihy =>
      rw [cons_merge_cons]
      split
      · have hrest : Orders le (a :: (xs ++ y :: ys)) :=
          h.mono fun b hb => by simp only [mem_cons, mem_append] at hb ⊢; tauto
        rw [filter_cons, ihx hrest hx.tail]
        split
        · next htied => rw [filter_cons_of_pos htied, cons_append]
        · next htied => rw [filter_cons_of_neg htied]
      · next hxy =>
          have hrest : Orders le (a :: (x :: xs ++ ys)) :=
            h.mono fun b hb => by simp only [mem_cons, mem_append] at hb ⊢; tauto
          rw [filter_cons, ihy hrest]
          split
          · next hy =>
              have hnone : (x :: xs).filter (tied le a) = [] := by
                refine List.filter_eq_nil_iff.mpr fun z hz htied => hxy ?_
                have hmem : ∀ {w}, w ∈ x :: xs → w ∈ a :: (x :: xs ++ y :: ys) := fun hw =>
                  mem_cons_of_mem _ (mem_append_left _ hw)
                have ha : a ∈ a :: (x :: xs ++ y :: ys) := mem_cons_self
                have hyin : y ∈ a :: (x :: xs ++ y :: ys) :=
                  mem_cons_of_mem _ (mem_append_right _ mem_cons_self)
                have hxin := hmem mem_cons_self
                have hxz : le x z = true := by
                  rcases List.mem_cons.mp hz with rfl | hz'
                  · exact h.refl hxin
                  · exact rel_of_pairwise_cons hx hz'
                have hza := (tied_iff.mp htied).2
                have hay := (tied_iff.mp hy).1
                have hxa := h.trans x hxin z (hmem hz) a ha hxz hza
                exact h.trans x hxin a ha y hyin hxa hay
              rw [hnone, nil_append, nil_append, filter_cons_of_pos hy]
          · next hy => rw [filter_cons_of_neg hy]

namespace IsStableSort

theorem refl_of_length (h : xs.length ≤ 1) : IsStableSort le xs xs where
  perm := .refl _
  sorted := by
    match xs, h with
    | [], _ => exact .nil
    | [x], _ => exact pairwise_singleton _ x
  ties := fun _ _ => rfl

theorem mem_iff (h : IsStableSort le xs ys) : a ∈ ys ↔ a ∈ xs :=
  h.perm.mem_iff

/-- A class that holds no member of the list is empty on both sides. -/
theorem filter_tied {zs : List α} (hz : Orders le zs) (hsub : ∀ a ∈ xs, a ∈ zs)
    (h : IsStableSort le xs ys) (ha : a ∈ zs) :
    ys.filter (tied le a) = xs.filter (tied le a) := by
  by_cases hex : ∃ b ∈ xs, tied le a b = true
  · obtain ⟨b, hb, htied⟩ := hex
    have hsame : ∀ c ∈ xs, tied le a c = tied le b c := by
      intro c hc
      rw [Bool.eq_iff_iff, tied_iff, tied_iff]
      obtain ⟨hab, hba⟩ := tied_iff.mp htied
      have hb' := hsub b hb
      have hc' := hsub c hc
      constructor
      · rintro ⟨hac, hca⟩
        exact ⟨hz.trans b hb' a ha c hc' hba hac, hz.trans c hc' a ha b hb' hca hab⟩
      · rintro ⟨hbc, hcb⟩
        exact ⟨hz.trans a ha b hb' c hc' hab hbc, hz.trans c hc' b hb' a ha hcb hba⟩
    rw [filter_congr fun c hc => hsame c (h.mem_iff.mp hc), filter_congr hsame, h.ties b hb]
  · have hno : ∀ b ∈ xs, ¬tied le a b = true := fun b hb htied => hex ⟨b, hb, htied⟩
    rw [List.filter_eq_nil_iff.mpr hno,
      List.filter_eq_nil_iff.mpr fun b hb => hno b (h.mem_iff.mp hb)]

/-- **The merge of two stable sorts** is the stable sort of the two lists in a row. -/
theorem merge {xs' ys' : List α} (ho : Orders le (xs ++ ys)) (hx : IsStableSort le xs xs')
    (hy : IsStableSort le ys ys') : IsStableSort le (xs ++ ys) (xs'.merge ys' le) where
  perm := (merge_perm_append le).trans (hx.perm.append hy.perm)
  sorted := by
    refine pairwise_merge_of_orders (ho.mono fun a ha => ?_) hx.sorted hy.sorted
    exact (hx.perm.append hy.perm).mem_iff.mp ha
  ties := by
    intro a ha
    have hsub : Orders le (a :: (xs' ++ ys')) := by
      refine ho.mono fun b hb => ?_
      rcases List.mem_cons.mp hb with rfl | hb
      · exact ha
      · exact (hx.perm.append hy.perm).mem_iff.mp hb
    rw [filter_merge hsub hx.sorted, filter_append,
      hx.filter_tied ho (fun b hb => mem_append_left _ hb) ha,
      hy.filter_tied ho (fun b hb => mem_append_right _ hb) ha]

/-- The images of a stable sort by the order of the images. -/
theorem map {f : β → α} {xs ys : List β}
    (h : IsStableSort (fun a b => le (f a) (f b)) xs ys) :
    IsStableSort le (xs.map f) (ys.map f) where
  perm := h.perm.map f
  sorted := List.pairwise_map.mpr h.sorted
  ties := by
    intro a ha
    obtain ⟨b, hb, rfl⟩ := List.mem_map.mp ha
    rw [filter_map, filter_map]
    exact congrArg (List.map f) (h.ties b hb)

/-- Only the comparisons of members count. -/
theorem congr (h : IsStableSort le xs ys) (hle : ∀ a ∈ xs, ∀ b ∈ xs, le' a b = le a b) :
    IsStableSort le' xs ys where
  perm := h.perm
  sorted := by
    refine h.sorted.imp_of_mem fun {a b} ha hb hab => ?_
    rw [hle a (h.mem_iff.mp ha) b (h.mem_iff.mp hb)]
    exact hab
  ties := by
    intro a ha
    have htied : ∀ b ∈ xs, tied le' a b = tied le a b := fun b hb => by
      rw [tied, tied, hle a ha b hb, hle b hb a ha]
    rw [filter_congr fun b hb => htied b (h.mem_iff.mp hb), filter_congr htied, h.ties a ha]

/-- **Sorting again by a finer order.** -/
theorem refine {fine : α → α → Bool} {zs : List α} (h : IsStableSort le xs ys)
    (hfine : ∀ a ∈ xs, ∀ b ∈ xs, tied fine a b = true → tied le a b = true)
    (h' : IsStableSort fine ys zs) : IsStableSort fine xs zs where
  perm := h'.perm.trans h.perm
  sorted := h'.sorted
  ties := by
    intro a ha
    -- a class of the finer order lies within the class of the coarser one
    have hwithin : ∀ us : List α, (∀ b ∈ us, b ∈ xs) →
        us.filter (tied fine a) = (us.filter (tied le a)).filter (tied fine a) := by
      intro us hus
      rw [filter_filter]
      refine filter_congr fun b hb => ?_
      rw [Bool.eq_iff_iff, Bool.and_eq_true]
      exact ⟨fun ht => ⟨ht, hfine a ha b (hus b hb) ht⟩, And.left⟩
    rw [h'.ties a (h.mem_iff.mpr ha), hwithin ys fun b hb => h.mem_iff.mp hb, h.ties a ha,
      ← hwithin xs fun b hb => hb]

end IsStableSort

end Leviathan.StableSort
