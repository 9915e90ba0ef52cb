import Mathlib

/-!
# Stores with reference counts

A store has blocks at addresses, and a block holds references to blocks in its slots.  The
owners of an address are the slots and the handles that refer to it.  In a `Balanced` store
a counted block has as many owners as its count says, a block that is not counted (it is
`single`) has at most one, and nothing refers to a freed block.

Which references of a block count as slots is a parameter `out`, by address: a proof takes a
slot out of the account while an operation is about to overwrite it.
-/

namespace Leviathan.Owners

open List

/-- A block with its reference count. -/
structure Block (β : Type*) where
  rc : Nat
  body : β
  deriving DecidableEq

/-- Blocks by address; a freed block leaves its place empty. -/
abbrev Store (β : Type*) := List (Option (Block β))

variable {β : Type*}

namespace Store

/-- The block at an address, unless it was freed. -/
def cell (h : Store β) (x : Nat) : Option (Block β) := (h[x]?).join

/-- Replace the block at an address. -/
def put (h : Store β) (x : Nat) (c : Block β) : Store β := h.set x (some c)

/-- Free the block at an address. -/
def free (h : Store β) (x : Nat) : Store β := h.set x none

/-- Add a block; its address is the length of the store. -/
def alloc (h : Store β) (c : Block β) : Store β := h ++ [some c]

variable {h : Store β} {x y : Nat} {c d : Block β}

@[simp] theorem length_put : (h.put x c).length = h.length := length_set ..

@[simp] theorem length_free : (h.free x).length = h.length := length_set ..

@[simp] theorem length_alloc : (h.alloc c).length = h.length + 1 := by
  simp [alloc]

theorem lt_of_cell (hx : h.cell x = some c) : x < h.length := by
  by_contra hge
  rw [cell, getElem?_eq_none (by omega)] at hx
  cases hx

theorem cell_eq_none (hge : h.length ≤ x) : h.cell x = none := by
  rw [cell, getElem?_eq_none hge]
  rfl

theorem cell_put (hx : x < h.length) : (h.put x c).cell y = if y = x then some c else h.cell y := by
  unfold cell put
  by_cases hyx : y = x
  · subst hyx
    rw [getElem?_set_self hx, if_pos rfl]
    rfl
  · rw [getElem?_set_ne (fun h => hyx h.symm), if_neg hyx]

theorem cell_free : (h.free x).cell y = if y = x then none else h.cell y := by
  unfold cell free
  by_cases hyx : y = x
  · subst hyx
    rw [getElem?_set, if_pos rfl, if_pos rfl]
    split <;> rfl
  · rw [getElem?_set_ne (fun h => hyx h.symm), if_neg hyx]

theorem cell_alloc :
    (h.alloc c).cell y = if y = h.length then some c else h.cell y := by
  unfold cell alloc
  by_cases hy : y < h.length
  · rw [getElem?_append_left hy, if_neg (by omega)]
  · by_cases heq : y = h.length
    · subst heq
      simp
    · rw [getElem?_eq_none (by simp; omega), getElem?_eq_none (by omega), if_neg heq]

theorem put_self (hx : h.cell x = some c) : h.put x c = h := by
  have hlt := lt_of_cell hx
  have hat : h[x]? = some (some c) := by
    rw [cell, getElem?_eq_getElem hlt] at hx
    rw [getElem?_eq_getElem hlt]
    exact congrArg some hx
  rw [put]
  apply ext_getElem?
  intro i
  by_cases hi : i = x
  · subst hi
    rw [getElem?_set_self hlt, hat]
  · rw [getElem?_set_ne (fun h => hi h.symm)]

end Store

/-- Blocks were freed and counts changed, and nothing else. -/
structure Shrinks (h h' : Store β) : Prop where
  length : h'.length = h.length
  old : ∀ x c', h'.cell x = some c' → ∃ c, h.cell x = some c ∧ c'.body = c.body

namespace Shrinks

variable {h h' h'' : Store β} {x : Nat} {c : Block β}

theorem refl (h : Store β) : Shrinks h h := ⟨rfl, fun _ c hc => ⟨c, hc, rfl⟩⟩

theorem trans (h₁ : Shrinks h h') (h₂ : Shrinks h' h'') : Shrinks h h'' := by
  refine ⟨h₂.length.trans h₁.length, fun x c hc => ?_⟩
  obtain ⟨d, hd, hcd⟩ := h₂.old x c hc
  obtain ⟨e, he, hde⟩ := h₁.old x d hd
  exact ⟨e, he, hcd.trans hde⟩

theorem put_rc (hx : h.cell x = some c) (n : Nat) : Shrinks h (h.put x ⟨n, c.body⟩) := by
  refine ⟨Store.length_put, fun y d hd => ?_⟩
  rw [Store.cell_put (Store.lt_of_cell hx)] at hd
  split at hd
  · next hyx =>
      subst hyx
      cases hd
      exact ⟨c, hx, rfl⟩
  · exact ⟨d, hd, rfl⟩

theorem free (h : Store β) (x : Nat) : Shrinks h (h.free x) := by
  refine ⟨Store.length_free, fun y d hd => ?_⟩
  rw [Store.cell_free] at hd
  split at hd
  · cases hd
  · exact ⟨d, hd, rfl⟩

end Shrinks

/-- How many blocks there are outside of `D`. -/
def liveCount (h : Store β) (D : List Nat) : Nat :=
  ((Finset.range h.length).filter fun x => (h.cell x).isSome ∧ x ∉ D).card

theorem liveCount_le_length (h : Store β) (D : List Nat) : liveCount h D ≤ h.length := by
  rw [liveCount]
  exact le_trans (Finset.card_filter_le _ _) (le_of_eq (Finset.card_range _))

theorem liveCount_shrinks {h h' : Store β} (hs : Shrinks h h') (D : List Nat) :
    liveCount h' D ≤ liveCount h D := by
  refine Finset.card_le_card fun x hx => ?_
  obtain ⟨hmem, hsome, hD⟩ := Finset.mem_filter.mp hx
  obtain ⟨c, hc⟩ := Option.isSome_iff_exists.mp hsome
  obtain ⟨d, hd, _⟩ := hs.old x c hc
  rw [hs.length] at hmem
  exact Finset.mem_filter.mpr ⟨hmem, by rw [hd]; rfl, hD⟩

theorem liveCount_cons_lt {h : Store β} {x : Nat} {c : Block β} (hx : h.cell x = some c)
    {D : List Nat} (hD : x ∉ D) : liveCount h (x :: D) < liveCount h D := by
  refine Finset.card_lt_card (Finset.ssubset_iff_of_subset ?_ |>.mpr ⟨x, ?_, ?_⟩)
  · intro y hy
    obtain ⟨hmem, hsome, hy⟩ := Finset.mem_filter.mp hy
    exact Finset.mem_filter.mpr ⟨hmem, hsome, fun h => hy (mem_cons_of_mem x h)⟩
  · exact Finset.mem_filter.mpr
      ⟨Finset.mem_range.mpr (Store.lt_of_cell hx), by rw [hx]; rfl, hD⟩
  · intro hmem
    exact (Finset.mem_filter.mp hmem).2.2 mem_cons_self

/-- Blocks were added and counts changed, and nothing else. -/
structure Grows (h h' : Store β) : Prop where
  length : h.length ≤ h'.length
  kept : ∀ x c, h.cell x = some c → ∃ c', h'.cell x = some c' ∧ c'.body = c.body
  old : ∀ x c', x < h.length → h'.cell x = some c' → ∃ c, h.cell x = some c ∧ c'.body = c.body

namespace Grows

variable {h h' h'' : Store β} {x : Nat} {c : Block β}

theorem refl (h : Store β) : Grows h h :=
  ⟨le_refl _, fun _ c hc => ⟨c, hc, rfl⟩, fun _ c _ hc => ⟨c, hc, rfl⟩⟩

theorem trans (h₁ : Grows h h') (h₂ : Grows h' h'') : Grows h h'' := by
  refine ⟨le_trans h₁.length h₂.length, fun x c hc => ?_, fun x c hlt hc => ?_⟩
  · obtain ⟨d, hd, hdc⟩ := h₁.kept x c hc
    obtain ⟨e, he, hed⟩ := h₂.kept x d hd
    exact ⟨e, he, hed.trans hdc⟩
  · obtain ⟨d, hd, hcd⟩ := h₂.old x c (lt_of_lt_of_le hlt h₁.length) hc
    obtain ⟨e, he, hde⟩ := h₁.old x d hlt hd
    exact ⟨e, he, hcd.trans hde⟩

theorem put_rc (hx : h.cell x = some c) (n : Nat) : Grows h (h.put x ⟨n, c.body⟩) := by
  have hcell := fun y => Store.cell_put (c := (⟨n, c.body⟩ : Block β)) (y := y)
    (Store.lt_of_cell hx)
  refine ⟨le_of_eq Store.length_put.symm, fun y d hd => ?_, fun y d _ hd => ?_⟩
  · rw [hcell]
    by_cases hyx : y = x
    · subst hyx
      rw [hx] at hd
      cases hd
      exact ⟨_, if_pos rfl, rfl⟩
    · exact ⟨d, by rw [if_neg hyx, hd], rfl⟩
  · exact (Shrinks.put_rc hx n).old y d hd

theorem alloc (h : Store β) (c : Block β) : Grows h (h.alloc c) := by
  refine ⟨by rw [Store.length_alloc]; omega, fun y d hd => ?_, fun y d hlt hd => ?_⟩
  · have hlt := Store.lt_of_cell hd
    exact ⟨d, by rw [Store.cell_alloc, if_neg (by omega), hd], rfl⟩
  · rw [Store.cell_alloc, if_neg (by omega)] at hd
    exact ⟨d, hd, rfl⟩

/-- A block that was added may be overwritten. -/
theorem put_fresh (hg : Grows h h') (hx : h.length ≤ x) (hx' : x < h'.length) (c : Block β) :
    Grows h (h'.put x c) := by
  have hcell := fun y (hy : y < h.length) => Store.cell_put (c := c) (y := y) hx'
  refine ⟨by rw [Store.length_put]; exact hg.length, fun y d hd => ?_, fun y d hlt hd => ?_⟩
  · have hlt := Store.lt_of_cell hd
    rw [hcell y hlt, if_neg (by omega)]
    exact hg.kept y d hd
  · rw [hcell y hlt, if_neg (by omega)] at hd
    exact hg.old y d hlt hd

end Grows

/-! ### Owners -/

section Owners

variable (out : Nat → β → List Nat)

/-- How many slots of the block at `x` refer to `y`. -/
def held (y x : Nat) : Option (Block β) → Nat
  | none => 0
  | some c => (out x c.body).count y

/-- How many handles and slots refer to `y`. -/
def owners (h : Store β) (O : List Nat) (y : Nat) : Nat :=
  O.count y + ∑ x ∈ Finset.range h.length, held out y x (h.cell x)

variable {out} {out' : Nat → β → List Nat} {h h' : Store β} {O O' : List Nat} {x y : Nat}

theorem owners_append (A : List Nat) : owners out h (A ++ O) y = A.count y + owners out h O y := by
  rw [owners, owners, count_append, Nat.add_assoc]

theorem owners_perm (hperm : O.Perm O') : owners out h O y = owners out h O' y := by
  rw [owners, owners, hperm.count_eq]

/-- A change at one address changes the owners by what its slots refer to. -/
theorem owners_change (out out' : Nat → β → List Nat) {h h' : Store β} (O : List Nat) (y : Nat)
    (hx : x < h.length) (hlen : h'.length = h.length)
    (hcell : ∀ z, z ≠ x → h'.cell z = h.cell z) (hout : ∀ z, z ≠ x → out' z = out z) :
    owners out' h' O y + held out y x (h.cell x) =
      owners out h O y + held out' y x (h'.cell x) := by
  have hmem : x ∈ Finset.range h.length := Finset.mem_range.mpr hx
  have hrest : ∑ z ∈ (Finset.range h.length).erase x, held out' y z (h'.cell z) =
      ∑ z ∈ (Finset.range h.length).erase x, held out y z (h.cell z) := by
    refine Finset.sum_congr rfl fun z hz => ?_
    have hzx := Finset.ne_of_mem_erase hz
    rw [hcell z hzx]
    unfold held
    rw [hout z hzx]
  have hold := Finset.add_sum_erase (Finset.range h.length) (fun z => held out y z (h.cell z)) hmem
  have hnew := Finset.add_sum_erase (Finset.range h.length)
    (fun z => held out' y z (h'.cell z)) hmem
  rw [owners, owners, hlen]
  omega

theorem owners_alloc (c : Block β) :
    owners out (h.alloc c) O y = owners out h (out h.length c.body ++ O) y := by
  have hsum : ∑ z ∈ Finset.range h.length, held out y z ((h.alloc c).cell z) =
      ∑ z ∈ Finset.range h.length, held out y z (h.cell z) := by
    refine Finset.sum_congr rfl fun z hz => ?_
    rw [Store.cell_alloc, if_neg (by have := Finset.mem_range.mp hz; omega)]
  rw [owners_append, owners, owners, Store.length_alloc, Finset.sum_range_succ, hsum,
    Store.cell_alloc, if_pos rfl, held]
  omega

/-- A slot that refers to `y` makes it owned. -/
theorem owners_pos_of_slot {c : Block β} (hx : h.cell x = some c) (hy : y ∈ out x c.body) :
    0 < owners out h O y := by
  have hle := Finset.single_le_sum (f := fun z => held out y z (h.cell z))
    (fun z _ => Nat.zero_le _) (Finset.mem_range.mpr (Store.lt_of_cell hx))
  have hheld : held out y x (h.cell x) = (out x c.body).count y := by rw [hx, held]
  have hpos := List.count_pos_iff.mpr hy
  rw [owners]
  omega

theorem owners_pos_of_mem (out : Nat → β → List Nat) (h : Store β) (hy : y ∈ O) :
    0 < owners out h O y := by
  have hpos := List.count_pos_iff.mpr hy
  rw [owners]
  omega

/-- Slots at an address without a block do not count. -/
theorem owners_congr_of_none (hx : h.cell x = none) (hout : ∀ z, z ≠ x → out' z = out z)
    (O : List Nat) (y : Nat) : owners out' h O y = owners out h O y := by
  rw [owners, owners]
  refine congrArg _ (Finset.sum_congr rfl fun z _ => ?_)
  by_cases hzx : z = x
  · rw [hzx, hx]
    rfl
  · unfold held
    rw [hout z hzx]

theorem owners_shrinks (out : Nat → β → List Nat) (hs : Shrinks h h') (O : List Nat) (y : Nat) :
    owners out h' O y ≤ owners out h O y := by
  have hsum : ∑ z ∈ Finset.range h.length, held out y z (h'.cell z) ≤
      ∑ z ∈ Finset.range h.length, held out y z (h.cell z) := by
    refine Finset.sum_le_sum fun z _ => ?_
    cases hz : h'.cell z with
    | none => exact Nat.zero_le _
    | some c =>
      obtain ⟨d, hd, hcd⟩ := hs.old z c hz
      rw [hd, held, held, hcd]
  rw [owners, owners, hs.length]
  omega

end Owners

/-! ### Balance -/

/-- Every counted block has its count of owners, every other block at most one owner, and
nothing refers to a freed block. -/
structure Balanced (single : β → Prop) (out : Nat → β → List Nat) (h : Store β)
    (O : List Nat) : Prop where
  counted : ∀ x c, h.cell x = some c → ¬ single c.body → c.rc = owners out h O x
  alone : ∀ x c, h.cell x = some c → single c.body → c.rc = 0 ∧ owners out h O x ≤ 1
  live : ∀ x, 0 < owners out h O x → ∃ c, h.cell x = some c

namespace Balanced

variable {single : β → Prop} {out out' : Nat → β → List Nat} {h h' : Store β}
variable {O O' A R : List Nat} {x : Nat} {c : Block β} {b : β}

/-- Only the number of owners of each address matters. -/
theorem of_owners (hb : Balanced single out h O)
    (heq : ∀ y, owners out' h O' y = owners out h O y) : Balanced single out' h O' := by
  refine ⟨?_, ?_, ?_⟩
  · intro y d hy hd
    rw [heq]
    exact hb.counted y d hy hd
  · intro y d hy hd
    rw [heq]
    exact hb.alone y d hy hd
  · intro y hy
    rw [heq] at hy
    exact hb.live y hy

theorem perm (hb : Balanced single out h O) (hperm : O.Perm O') : Balanced single out h O' :=
  hb.of_owners fun _ => (owners_perm hperm).symm

/-- A handle refers to a block. -/
theorem live_of_mem (hb : Balanced single out h O) (hx : x ∈ O) : ∃ c, h.cell x = some c :=
  hb.live x (owners_pos_of_mem out h hx)

/-- A slot refers to a block. -/
theorem live_of_slot (hb : Balanced single out h O) (hx : h.cell x = some c) {y : Nat}
    (hy : y ∈ out x c.body) : ∃ d, h.cell y = some d :=
  hb.live y (owners_pos_of_slot hx hy)

/-- **Slots change hands.**  A block gets a new body: the handles `A` go into its slots and
the handles `R` come out. -/
theorem exchange (hb : Balanced single out h (A ++ O)) (hx : h.cell x = some c)
    (hsingle : single b ↔ single c.body) (hout : ∀ z, z ≠ x → out' z = out z)
    (hperm : (out x c.body ++ A).Perm (out' x b ++ R)) :
    Balanced single out' (h.put x ⟨c.rc, b⟩) (R ++ O) := by
  have hlt := Store.lt_of_cell hx
  have hcell : ∀ z, (h.put x ⟨c.rc, b⟩).cell z = if z = x then some ⟨c.rc, b⟩ else h.cell z :=
    fun z => Store.cell_put hlt
  have howners : ∀ y, owners out' (h.put x ⟨c.rc, b⟩) (R ++ O) y = owners out h (A ++ O) y := by
    intro y
    have hchange := owners_change out out' O y hlt (Store.length_put (c := ⟨c.rc, b⟩))
      (fun z hz => by rw [hcell, if_neg hz]) hout
    rw [hcell, if_pos rfl, hx, held, held] at hchange
    have hcount := hperm.count_eq y
    rw [count_append, count_append] at hcount
    rw [owners_append, owners_append]
    simp only at hchange
    omega
  refine ⟨?_, ?_, ?_⟩
  · intro y d hy hd
    rw [howners]
    rw [hcell] at hy
    split at hy
    · next hyx =>
        subst hyx
        cases hy
        exact hb.counted y c hx (fun hs => hd (hsingle.mpr hs))
    · exact hb.counted y d hy hd
  · intro y d hy hd
    rw [howners]
    rw [hcell] at hy
    split at hy
    · next hyx =>
        subst hyx
        cases hy
        exact hb.alone y c hx (hsingle.mp hd)
    · exact hb.alone y d hy hd
  · intro y hy
    rw [howners] at hy
    obtain ⟨d, hd⟩ := hb.live y hy
    rw [hcell]
    by_cases hyx : y = x
    · exact ⟨_, if_pos hyx⟩
    · exact ⟨d, by rw [if_neg hyx, hd]⟩

theorem owners_reaccount (hx : h.cell x = some c) (hout : ∀ z, z ≠ x → out' z = out z)
    (hperm : (out x c.body ++ A).Perm (out' x c.body ++ R)) (y : Nat) :
    owners out' h (R ++ O) y = owners out h (A ++ O) y := by
  have hchange := owners_change out out' O y (Store.lt_of_cell hx) rfl (fun _ _ => rfl) hout
  rw [hx, held, held] at hchange
  have hcount := hperm.count_eq y
  rw [count_append, count_append] at hcount
  rw [owners_append, owners_append]
  omega

/-- The account of the slots of one block may change, without a change of the store. -/
theorem reaccount (hb : Balanced single out h (A ++ O)) (hx : h.cell x = some c)
    (hout : ∀ z, z ≠ x → out' z = out z)
    (hperm : (out x c.body ++ A).Perm (out' x c.body ++ R)) :
    Balanced single out' h (R ++ O) :=
  hb.of_owners (owners_reaccount hx hout hperm)

/-- The count of one block changes. -/
theorem owners_put_rc (hx : h.cell x = some c) (n y : Nat) :
    owners out (h.put x ⟨n, c.body⟩) O y = owners out h O y := by
  have hlt := Store.lt_of_cell hx
  have hchange := owners_change out out O y hlt (Store.length_put (c := ⟨n, c.body⟩))
    (fun z hz => by rw [Store.cell_put hlt, if_neg hz]) (fun _ _ => rfl)
  rw [Store.cell_put hlt, if_pos rfl, hx, held, held] at hchange
  simp only at hchange
  omega

theorem put_rc (hb : Balanced single out h O) (hx : h.cell x = some c) (hc : ¬ single c.body)
    {n : Nat} (hn : n = owners out h O' x)
    (hother : ∀ y, y ≠ x → owners out h O' y = owners out h O y) :
    Balanced single out (h.put x ⟨n, c.body⟩) O' := by
  have hlt := Store.lt_of_cell hx
  refine ⟨?_, ?_, ?_⟩
  · intro y d hy hd
    rw [owners_put_rc hx]
    rw [Store.cell_put hlt] at hy
    split at hy
    · next hyx =>
        subst hyx
        cases hy
        exact hn
    · next hyx =>
        rw [hother y hyx]
        exact hb.counted y d hy hd
  · intro y d hy hd
    rw [owners_put_rc hx]
    rw [Store.cell_put hlt] at hy
    split at hy
    · cases hy
      exact absurd hd hc
    · next hyx =>
        rw [hother y hyx]
        exact hb.alone y d hy hd
  · intro y hy
    rw [owners_put_rc hx] at hy
    rw [Store.cell_put hlt]
    by_cases hyx : y = x
    · exact ⟨_, if_pos hyx⟩
    · rw [hother y hyx] at hy
      obtain ⟨d, hd⟩ := hb.live y hy
      exact ⟨d, by rw [if_neg hyx, hd]⟩

theorem owners_cons (a y : Nat) :
    owners out h (a :: O) y = owners out h O y + if a = y then 1 else 0 := by
  rw [owners, owners, count_cons]
  simp only [beq_iff_eq]
  omega

/-- **A handle more.** -/
theorem retain (hb : Balanced single out h O) (hx : h.cell x = some c) (hc : ¬ single c.body) :
    Balanced single out (h.put x ⟨c.rc + 1, c.body⟩) (x :: O) := by
  refine hb.put_rc hx hc ?_ fun y hy => ?_
  · rw [owners_cons, if_pos rfl, hb.counted x c hx hc]
  · rw [owners_cons, if_neg (fun h => hy h.symm), Nat.add_zero]

section
variable (hb : Balanced single out h (x :: O)) (hx : h.cell x = some c)
include hb hx

/-- The count of an owned block is positive. -/
theorem rc_pos (hc : ¬ single c.body) : 0 < c.rc := by
  rw [hb.counted x c hx hc]
  exact owners_pos_of_mem out h mem_cons_self

/-- **A handle less.** -/
theorem release (hc : ¬ single c.body) : Balanced single out (h.put x ⟨c.rc - 1, c.body⟩) O := by
  refine hb.put_rc hx hc ?_ fun y hy => ?_
  · rw [hb.counted x c hx hc, owners_cons, if_pos rfl, Nat.add_sub_cancel]
  · rw [owners_cons, if_neg (fun h => hy h.symm), Nat.add_zero]

/-- The handle of a block that is not counted may be forgotten. -/
theorem forget (hc : single c.body) : Balanced single out h O := by
  have hle : ∀ y, owners out h O y ≤ owners out h (x :: O) y := by
    intro y
    rw [owners_cons]
    omega
  refine ⟨?_, ?_, ?_⟩
  · intro y d hy hd
    rw [hb.counted y d hy hd, owners_cons, if_neg, Nat.add_zero]
    intro hxy
    subst hxy
    rw [hx] at hy
    cases hy
    exact hd hc
  · intro y d hy hd
    obtain ⟨hrc, hone⟩ := hb.alone y d hy hd
    exact ⟨hrc, le_trans (hle y) hone⟩
  · intro y hy
    exact hb.live y (lt_of_lt_of_le hy (hle y))

/-- A block that is owned by one handle alone has no other owner. -/
theorem owners_eq_zero (hc : single c.body) : owners out h O x = 0 := by
  have hone := (hb.alone x c hx hc).2
  rw [owners_cons, if_pos rfl] at hone
  omega

end

/-- **A block nobody owns is freed**; what its slots held was taken out of the account. -/
theorem free (hb : Balanced single out h O) (hzero : owners out h O x = 0)
    (hnone : ∀ c, h.cell x = some c → out x c.body = []) : Balanced single out (h.free x) O := by
  by_cases hlt : x < h.length
  · have howners : ∀ y, owners out (h.free x) O y = owners out h O y := by
      intro y
      have hchange := owners_change out out O y hlt Store.length_free
        (fun z hz => by rw [Store.cell_free, if_neg hz]) (fun _ _ => rfl)
      rw [Store.cell_free, if_pos rfl] at hchange
      have hheld : held out y x (h.cell x) = 0 := by
        cases hc : h.cell x with
        | none => rfl
        | some c => rw [held, hnone c hc, count_nil]
      rw [hheld, held] at hchange
      omega
    refine ⟨?_, ?_, ?_⟩
    · intro y d hy hd
      rw [howners]
      rw [Store.cell_free] at hy
      split at hy
      · cases hy
      · exact hb.counted y d hy hd
    · intro y d hy hd
      rw [howners]
      rw [Store.cell_free] at hy
      split at hy
      · cases hy
      · exact hb.alone y d hy hd
    · intro y hy
      rw [howners] at hy
      rw [Store.cell_free, if_neg]
      · exact hb.live y hy
      · intro hyx
        subst hyx
        omega
  · have hsame : h.free x = h := set_eq_of_length_le (by omega)
    rw [hsame]
    exact hb

/-- **A block with one owner is taken apart**: its slots become handles. -/
theorem dismantle (hb : Balanced single out h (x :: O)) (hx : h.cell x = some c)
    (hc : ¬ single c.body) (hrc : c.rc = 1) :
    Balanced single out (h.free x) (out x c.body ++ O) := by
  have hlt := Store.lt_of_cell hx
  have hzero : owners out h O x = 0 := by
    have hone := hb.counted x c hx hc
    rw [owners_cons, if_pos rfl] at hone
    omega
  let hidden : Nat → β → List Nat := fun z b => if z = x then [] else out z b
  have hother : ∀ z, z ≠ x → hidden z = out z := fun z hz => funext fun b => if_neg hz
  have hself : ∀ b, hidden x b = [] := fun b => if_pos rfl
  have hput : (h.put x ⟨0, c.body⟩).cell x = some ⟨0, c.body⟩ := by
    rw [Store.cell_put hlt, if_pos rfl]
  have hreleased : Balanced single out (h.put x ⟨0, c.body⟩) ([] ++ O) := by
    have hfirst := hb.release hx hc
    rwa [hrc] at hfirst
  have hperm : (out x c.body ++ []).Perm (hidden x c.body ++ out x c.body) := by
    rw [hself, append_nil, nil_append]
  have hmoved := hreleased.reaccount hput hother hperm
  have hzero' : owners hidden (h.put x ⟨0, c.body⟩) (out x c.body ++ O) x = 0 := by
    rw [owners_reaccount hput hother hperm, nil_append, owners_put_rc hx]
    exact hzero
  have hfreed := hmoved.free hzero' fun d _ => hself d.body
  have hsame : (h.put x ⟨0, c.body⟩).free x = h.free x := set_set ..
  rw [hsame] at hfreed
  have hgone : (h.free x).cell x = none := by rw [Store.cell_free, if_pos rfl]
  exact hfreed.of_owners fun y =>
    owners_congr_of_none hgone (fun z hz => (hother z hz).symm) (out x c.body ++ O) y

/-- **A new block** takes the references in its slots, and its count is the number of its
handles. -/
theorem alloc {n : Nat} (hb : Balanced single out h (out h.length c.body ++ O))
    (hcounted : ¬ single c.body → c.rc = n) (halone : single c.body → c.rc = 0 ∧ n ≤ 1) :
    Balanced single out (h.alloc c) (List.replicate n h.length ++ O) := by
  have hfresh : owners out h (out h.length c.body ++ O) h.length = 0 := by
    by_contra hpos
    obtain ⟨d, hd⟩ := hb.live h.length (by omega)
    exact absurd (Store.lt_of_cell hd) (by omega)
  have hself : owners out (h.alloc c) (List.replicate n h.length ++ O) h.length = n := by
    rw [owners_append, count_replicate_self, owners_alloc, hfresh, Nat.add_zero]
  have hother : ∀ y, y ≠ h.length → owners out (h.alloc c) (List.replicate n h.length ++ O) y =
      owners out h (out h.length c.body ++ O) y := by
    intro y hy
    rw [owners_append, owners_alloc, count_replicate, if_neg, Nat.zero_add]
    simpa using fun h => hy h.symm
  refine ⟨?_, ?_, ?_⟩
  · intro y d hy hd
    rw [Store.cell_alloc] at hy
    split at hy
    · next hyx =>
        subst hyx
        cases hy
        rw [hself, hcounted hd]
    · next hyx =>
        rw [hother y hyx]
        exact hb.counted y d hy hd
  · intro y d hy hd
    rw [Store.cell_alloc] at hy
    split at hy
    · next hyx =>
        subst hyx
        cases hy
        rw [hself]
        exact halone hd
    · next hyx =>
        rw [hother y hyx]
        exact hb.alone y d hy hd
  · intro y hy
    rw [Store.cell_alloc]
    by_cases hyx : y = h.length
    · exact ⟨c, if_pos hyx⟩
    · rw [hother y hyx] at hy
      rw [if_neg hyx]
      exact hb.live y hy

end Balanced

end Leviathan.Owners
