import Mathlib

/-!
# Hash tables with linear probing

A table is an array of slots, a power of two of them in practice.  The probe sequence of
a key starts at its hash and walks the array once around; a key is entered at the first
empty slot of its sequence and looked up until an empty slot.  When three quarters of the
slots would be full, the entries move to an array twice as large.

`Holds t R` says that the table `t` stores exactly the pairs of the relation `R`.  Under
it a lookup answers `R` (`get_iff`), and entering a new key adds one pair, with or without
a move (`put_holds`).
-/

namespace Leviathan.ProbeTable

variable {κ υ : Type*}

/-- An array of `cap` slots, `n` of them full. -/
structure Table (κ υ : Type*) where
  cap : Nat
  slots : Nat → Option (κ × υ)
  n : Nat

namespace Table

/-- A table without entries. -/
def empty (cap : Nat) : Table κ υ := ⟨cap, fun _ => none, 0⟩

variable (hash : κ → Nat)

/-- The slot that `k` probes in round `i`. -/
def probe (t : Table κ υ) (k : κ) (i : Nat) : Nat := (hash k + i) % t.cap

/-- Look `k` up in the next `rounds` slots of its sequence. -/
def getFrom [DecidableEq κ] (t : Table κ υ) (k : κ) : Nat → Nat → Option υ
  | 0, _ => none
  | rounds + 1, i =>
    match t.slots (t.probe hash k i) with
    | none => none
    | some (k', v) => if k' = k then some v else getFrom t k rounds (i + 1)

/-- Look `k` up. -/
def get [DecidableEq κ] (t : Table κ υ) (k : κ) : Option υ := t.getFrom hash k t.cap 0

/-- Write `k` to the first empty one of the next `rounds` slots of its sequence. -/
def placeFrom (t : Table κ υ) (k : κ) (v : υ) : Nat → Nat → Table κ υ
  | 0, _ => t
  | rounds + 1, i =>
    match t.slots (t.probe hash k i) with
    | none =>
      { t with slots := Function.update t.slots (t.probe hash k i) (some (k, v)), n := t.n + 1 }
    | some _ => placeFrom t k v rounds (i + 1)

/-- Enter `k` without a look at the load. -/
def place (t : Table κ υ) (k : κ) (v : υ) : Table κ υ := t.placeFrom hash k v t.cap 0

/-- The entries of the first `i` slots in an array twice as large. -/
def rehash (t : Table κ υ) : Nat → Table κ υ
  | 0 => empty (2 * t.cap)
  | i + 1 =>
    match t.slots i with
    | some (k, v) => (rehash t i).place hash k v
    | none => rehash t i

/-- Enter `k`, and move first when the table would be three quarters full. -/
def put (t : Table κ υ) (k : κ) (v : υ) : Table κ υ :=
  let t := if t.cap * 3 ≤ (t.n + 1) * 4 then t.rehash hash t.cap else t
  t.place hash k v

/-- The table stores exactly the pairs of `R`: each at one slot, where the lookup of its
key arrives, and with room left. -/
structure Holds (t : Table κ υ) (R : κ → υ → Prop) : Prop where
  cap : 2 ≤ t.cap
  load : t.n * 4 < t.cap * 3
  count : ((Finset.range t.cap).filter fun i => (t.slots i).isSome).card = t.n
  stored : ∀ i k v, t.slots i = some (k, v) → i < t.cap ∧ R k v
  once : ∀ i j k v w, t.slots i = some (k, v) → t.slots j = some (k, w) → i = j
  found : ∀ k v, R k v → ∃ i, i < t.cap ∧ t.slots (t.probe hash k i) = some (k, v) ∧
    ∀ j, j < i → ∃ k' w, t.slots (t.probe hash k j) = some (k', w) ∧ k' ≠ k

variable {hash} {t : Table κ υ} {R : κ → υ → Prop} {k : κ} {v : υ}

theorem holds_empty {cap : Nat} (hcap : 2 ≤ cap) :
    (empty cap : Table κ υ).Holds hash fun _ _ => False where
  cap := hcap
  load := by
    show 0 * 4 < cap * 3
    omega
  count := by simp [empty]
  stored := by
    intro i k v h
    cases h
  once := by
    intro i j k v w h
    cases h
  found := by
    intro k v h
    cases h

theorem probe_lt (t : Table κ υ) (hcap : 0 < t.cap) (k : κ) (i : Nat) :
    t.probe hash k i < t.cap :=
  Nat.mod_lt _ hcap

/-- A probe sequence visits every slot. -/
theorem exists_probe (t : Table κ υ) {s : Nat} (hs : s < t.cap) (k : κ) :
    ∃ i, i < t.cap ∧ t.probe hash k i = s := by
  have hcap : 0 < t.cap := by omega
  have hmod := Nat.mod_lt (hash k) hcap
  have hsplit := Nat.mod_add_div (hash k) t.cap
  refine ⟨(s + (t.cap - hash k % t.cap)) % t.cap, Nat.mod_lt _ hcap, ?_⟩
  unfold probe
  rw [Nat.add_mod_mod]
  have hsum : hash k + (s + (t.cap - hash k % t.cap)) =
      s + t.cap * (hash k / t.cap + 1) := by
    rw [Nat.mul_add, Nat.mul_one]
    omega
  rw [hsum, Nat.add_mul_mod_self_left]
  exact Nat.mod_eq_of_lt hs

/-- Past entries of other keys a lookup arrives at the entry of its key. -/
theorem getFrom_of_path [DecidableEq κ] {i : Nat} (hv : t.slots (t.probe hash k i) = some (k, v)) :
    ∀ (rounds start : Nat), start ≤ i → i < start + rounds →
      (∀ j, start ≤ j → j < i → ∃ k' w, t.slots (t.probe hash k j) = some (k', w) ∧ k' ≠ k) →
      t.getFrom hash k rounds start = some v := by
  intro rounds
  induction rounds with
  | zero =>
    intro start hle hlt
    omega
  | succ rounds ih =>
    intro start hle hlt hpath
    unfold getFrom
    by_cases heq : start = i
    · rw [heq, hv]
      exact if_pos rfl
    · obtain ⟨k', w, hslot, hne⟩ := hpath start le_rfl (by omega)
      rw [hslot]
      dsimp only
      rw [if_neg hne]
      exact ih (start + 1) (by omega) (by omega) fun j hj => hpath j (by omega)

/-- What a lookup finds is in the table. -/
theorem exists_slot_of_getFrom [DecidableEq κ] :
    ∀ (rounds start : Nat), t.getFrom hash k rounds start = some v →
      ∃ i, t.slots i = some (k, v) := by
  intro rounds
  induction rounds with
  | zero =>
    intro start h
    cases h
  | succ rounds ih =>
    intro start h
    unfold getFrom at h
    split at h
    · cases h
    · next k' w hslot =>
        by_cases hk : k' = k
        · rw [if_pos hk] at h
          cases h
          exact ⟨_, hk ▸ hslot⟩
        · rw [if_neg hk] at h
          exact ih (start + 1) h

/-- **A lookup answers the relation.** -/
theorem Holds.get_iff [DecidableEq κ] (h : t.Holds hash R) : t.get hash k = some v ↔ R k v := by
  constructor
  · intro hget
    obtain ⟨i, hi⟩ := exists_slot_of_getFrom _ _ hget
    exact (h.stored i k v hi).2
  · intro hR
    obtain ⟨i, hi, hslot, hpath⟩ := h.found k v hR
    exact getFrom_of_path hslot t.cap 0 (by omega) (by omega) fun j _ hj => hpath j hj

theorem Holds.get_eq_none [DecidableEq κ] (h : t.Holds hash R) (hnew : ∀ v, ¬ R k v) :
    t.get hash k = none := by
  cases hget : t.get hash k with
  | none => rfl
  | some v => exact absurd (h.get_iff.mp hget) (hnew v)

/-- There is an empty slot. -/
theorem Holds.exists_empty (h : t.Holds hash R) : ∃ s, s < t.cap ∧ t.slots s = none := by
  by_contra hfull
  push Not at hfull
  have hall : ((Finset.range t.cap).filter fun i => (t.slots i).isSome) = Finset.range t.cap := by
    refine Finset.filter_true_of_mem ?_
    intro i hi
    exact Option.isSome_iff_ne_none.mpr (hfull i (Finset.mem_range.mp hi))
  have hcount := h.count
  rw [hall, Finset.card_range] at hcount
  have hload := h.load
  have hcap := h.cap
  omega

/-- Past full slots an entry goes to the first empty one. -/
theorem placeFrom_of_path {i : Nat} (hv : t.slots (t.probe hash k i) = none) :
    ∀ (rounds start : Nat), start ≤ i → i < start + rounds →
      (∀ j, start ≤ j → j < i → t.slots (t.probe hash k j) ≠ none) →
      t.placeFrom hash k v rounds start =
        { t with
          slots := Function.update t.slots (t.probe hash k i) (some (k, v)), n := t.n + 1 } := by
  intro rounds
  induction rounds with
  | zero =>
    intro start hle hlt
    omega
  | succ rounds ih =>
    intro start hle hlt hpath
    unfold placeFrom
    by_cases heq : start = i
    · rw [heq, hv]
    · obtain ⟨e, he⟩ := Option.ne_none_iff_exists'.mp (hpath start le_rfl (by omega))
      rw [he]
      exact ih (start + 1) (by omega) (by omega) fun j hj => hpath j (by omega)

section
variable (h : t.Holds hash R)
include h

/-- The first empty slot of a probe sequence. -/
theorem Holds.first_empty (k : κ) :
    ∃ i, i < t.cap ∧ t.slots (t.probe hash k i) = none ∧
      ∀ j, j < i → t.slots (t.probe hash k j) ≠ none := by
  classical
  obtain ⟨s, hs, hempty⟩ := h.exists_empty
  obtain ⟨i, hi, hprobe⟩ : ∃ i, i < t.cap ∧ t.probe hash k i = s := t.exists_probe hs k
  have hex : ∃ i, t.slots (t.probe hash k i) = none := ⟨i, by rw [hprobe]; exact hempty⟩
  refine ⟨Nat.find hex, ?_, Nat.find_spec hex, fun j hj => Nat.find_min hex hj⟩
  have hle : Nat.find hex ≤ i := Nat.find_min' hex (by rw [hprobe]; exact hempty)
  omega

/-- A new key is entered at an empty slot. -/
theorem Holds.place_eq (k : κ) (v : υ) :
    ∃ i, i < t.cap ∧ t.slots (t.probe hash k i) = none ∧
      (∀ j, j < i → t.slots (t.probe hash k j) ≠ none) ∧
      t.place hash k v =
        { t with
          slots := Function.update t.slots (t.probe hash k i) (some (k, v)), n := t.n + 1 } := by
  obtain ⟨i, hi, hempty, hfull⟩ := h.first_empty k
  exact ⟨i, hi, hempty, hfull, placeFrom_of_path hempty t.cap 0 (by omega) (by omega)
    fun j _ hj => hfull j hj⟩

theorem Holds.place_n (k : κ) (v : υ) : (t.place hash k v).n = t.n + 1 := by
  obtain ⟨_, _, _, _, heq⟩ := h.place_eq k v
  rw [heq]

theorem Holds.place_cap (k : κ) (v : υ) : (t.place hash k v).cap = t.cap := by
  obtain ⟨_, _, _, _, heq⟩ := h.place_eq k v
  rw [heq]

/-- **Entering a new key adds its pair.** -/
theorem Holds.place (hnew : ∀ w, ¬ R k w) (hload : (t.n + 1) * 4 < t.cap * 3) :
    (t.place hash k v).Holds hash fun k' w => R k' w ∨ (k' = k ∧ w = v) := by
  obtain ⟨i, hi, hempty, hfull, heq⟩ := h.place_eq k v
  rw [heq]
  have hcap : 0 < t.cap := by omega
  have hlt : t.probe hash k i < t.cap := t.probe_lt hcap k i
  -- a full slot is not the one written
  have hkept : ∀ s e, t.slots s = some e →
      Function.update t.slots (t.probe hash k i) (some (k, v)) s = some e := by
    intro s e hs
    rw [Function.update_of_ne ?_, hs]
    intro hsame
    rw [hsame, hempty] at hs
    cases hs
  refine ⟨h.cap, hload, ?_, ?_, ?_, ?_⟩
  · show ((Finset.range t.cap).filter fun s =>
      (Function.update t.slots (t.probe hash k i) (some (k, v)) s).isSome).card = t.n + 1
    have hset : ((Finset.range t.cap).filter fun s =>
        (Function.update t.slots (t.probe hash k i) (some (k, v)) s).isSome) =
        insert (t.probe hash k i) ((Finset.range t.cap).filter fun s => (t.slots s).isSome) := by
      ext s
      by_cases hs : s = t.probe hash k i
      · subst hs
        simp [hlt]
      · simp [hs]
    rw [hset, Finset.card_insert_of_notMem (by simp [hempty]), h.count]
  · intro s k' w hs
    dsimp only at hs
    by_cases hsame : s = t.probe hash k i
    · subst hsame
      rw [Function.update_self] at hs
      cases hs
      exact ⟨hlt, .inr ⟨rfl, rfl⟩⟩
    · rw [Function.update_of_ne hsame] at hs
      obtain ⟨hlt', hR⟩ := h.stored s k' w hs
      exact ⟨hlt', .inl hR⟩
  · -- the new key is nowhere else
    have habsent : ∀ s w, t.slots s ≠ some (k, w) := by
      intro s w hs
      exact hnew w (h.stored s k w hs).2
    intro s s' k' w w' hs hs'
    dsimp only at hs hs'
    by_cases hsame : s = t.probe hash k i
    · by_cases hsame' : s' = t.probe hash k i
      · rw [hsame, hsame']
      · rw [hsame, Function.update_self] at hs
        rw [Function.update_of_ne hsame'] at hs'
        cases hs
        exact absurd hs' (habsent s' w')
    · rw [Function.update_of_ne hsame] at hs
      by_cases hsame' : s' = t.probe hash k i
      · rw [hsame', Function.update_self] at hs'
        cases hs'
        exact absurd hs (habsent s w)
      · rw [Function.update_of_ne hsame'] at hs'
        exact h.once s s' k' w w' hs hs'
  · intro k' w hR
    rcases hR with hR | ⟨rfl, rfl⟩
    · obtain ⟨i', hi', hslot, hpath⟩ := h.found k' w hR
      refine ⟨i', hi', hkept _ _ hslot, ?_⟩
      intro j hj
      obtain ⟨k'', w', hslot', hne⟩ := hpath j hj
      exact ⟨k'', w', hkept _ _ hslot', hne⟩
    · refine ⟨i, hi, Function.update_self .., ?_⟩
      intro j hj
      obtain ⟨e, he⟩ := Option.ne_none_iff_exists'.mp (hfull j hj)
      refine ⟨e.1, e.2, hkept _ _ he, ?_⟩
      intro hk
      exact hnew e.2 (hk ▸ (h.stored _ e.1 e.2 he).2)

/-- The entries of the first slots, in the larger array; it never fills up. -/
theorem Holds.rehash : ∀ i, i ≤ t.cap →
    (t.rehash hash i).Holds hash (fun k v => ∃ j, j < i ∧ t.slots j = some (k, v)) ∧
      (t.rehash hash i).cap = 2 * t.cap ∧
      (t.rehash hash i).n = ((Finset.range i).filter fun j => (t.slots j).isSome).card := by
  have hcap := h.cap
  intro i
  induction i with
  | zero =>
    intro _
    refine ⟨?_, rfl, rfl⟩
    have hempty : (empty (2 * t.cap) : Table κ υ).Holds hash fun _ _ => False :=
      holds_empty (by omega)
    have hR : (fun (k : κ) (v : υ) => ∃ j, j < 0 ∧ t.slots j = some (k, v)) =
        fun _ _ => False := by
      funext k v
      simp
    rw [hR]
    exact hempty
  | succ i ih =>
    intro hi
    obtain ⟨hmoved, hcap', hn⟩ := ih (by omega)
    have hcard : ((Finset.range (i + 1)).filter fun j => (t.slots j).isSome).card =
        ((Finset.range i).filter fun j => (t.slots j).isSome).card +
          if (t.slots i).isSome then 1 else 0 := by
      rw [Finset.range_add_one, Finset.filter_insert]
      split
      · rw [Finset.card_insert_of_notMem (by simp)]
      · rw [Nat.add_zero]
    rw [hcard]
    unfold Table.rehash
    cases hslot : t.slots i with
    | none =>
      refine ⟨?_, hcap', by simpa using hn⟩
      have hR : (fun (k : κ) (v : υ) => ∃ j, j < i + 1 ∧ t.slots j = some (k, v)) =
          fun k v => ∃ j, j < i ∧ t.slots j = some (k, v) := by
        funext k v
        refine propext ⟨?_, ?_⟩
        · intro hex
          obtain ⟨j, hj, hjs⟩ := hex
          refine ⟨j, ?_, hjs⟩
          by_contra hge
          obtain rfl : j = i := by omega
          rw [hslot] at hjs
          cases hjs
        · intro hex
          obtain ⟨j, hj, hjs⟩ := hex
          exact ⟨j, by omega, hjs⟩
      rw [hR]
      exact hmoved
    | some e =>
      obtain ⟨k, v⟩ := e
      dsimp only
      have hle : ((Finset.range i).filter fun j => (t.slots j).isSome).card ≤ t.n := by
        rw [← h.count]
        refine Finset.card_le_card (Finset.filter_subset_filter _ ?_)
        intro j hj
        rw [Finset.mem_range] at hj ⊢
        omega
      have hload := h.load
      have hplaced := hmoved.place (k := k) (v := v) (by
        intro w hex
        obtain ⟨j, hj, hjs⟩ := hex
        have heq := h.once i j k v w hslot hjs
        omega) (by rw [hcap', hn]; omega)
      refine ⟨?_, (hmoved.place_cap k v).trans hcap', ?_⟩
      · have hR : (fun (k' : κ) (w : υ) => ∃ j, j < i + 1 ∧ t.slots j = some (k', w)) =
            fun k' w => (∃ j, j < i ∧ t.slots j = some (k', w)) ∨ (k' = k ∧ w = v) := by
          funext k' w
          refine propext ⟨?_, ?_⟩
          · intro hex
            obtain ⟨j, hj, hjs⟩ := hex
            by_cases hji : j = i
            · rw [hji, hslot] at hjs
              cases hjs
              exact .inr ⟨rfl, rfl⟩
            · exact .inl ⟨j, by omega, hjs⟩
          · intro hor
            rcases hor with ⟨j, hj, hjs⟩ | ⟨rfl, rfl⟩
            · exact ⟨j, by omega, hjs⟩
            · exact ⟨i, by omega, hslot⟩
        rw [hR]
        exact hplaced
      · rw [hmoved.place_n, hn]
        simp

/-- **Entering a new key adds its pair**, whether or not the table moves. -/
theorem Holds.put (hnew : ∀ w, ¬ R k w) :
    (t.put hash k v).Holds hash fun k' w => R k' w ∨ (k' = k ∧ w = v) := by
  unfold Table.put
  by_cases hfull : t.cap * 3 ≤ (t.n + 1) * 4
  · rw [if_pos hfull]
    obtain ⟨hmoved, hcap, hn⟩ := h.rehash t.cap le_rfl
    have hR : (fun (k : κ) (v : υ) => ∃ j, j < t.cap ∧ t.slots j = some (k, v)) = R := by
      funext k' w
      refine propext ⟨?_, ?_⟩
      · intro hex
        obtain ⟨j, _, hjs⟩ := hex
        exact (h.stored j k' w hjs).2
      · intro hR
        obtain ⟨j, hj, hslot, _⟩ := h.found k' w hR
        exact ⟨_, t.probe_lt (by omega) k' j, hslot⟩
    rw [hR] at hmoved
    rw [h.count] at hn
    have hload := h.load
    have hcap2 := h.cap
    exact hmoved.place hnew (by rw [hcap, hn]; omega)
  · rw [if_neg hfull]
    exact h.place hnew (by omega)

end

end Table

end Leviathan.ProbeTable
