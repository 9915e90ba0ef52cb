import Mathlib

/-!
# Fallible computations

Code that can fail is written in `Except`.  A bind succeeds exactly when its
first part does and its second part does on that result; with this one lemma a
successful computation is taken apart step by step, and `ok_bind` and
`error_bind` run one forward.
-/

namespace Leviathan

open List

variable {ε : Type*} {α β : Type}

@[simp] theorem ok_bind (a : α) (g : α → Except ε β) : (Except.ok a >>= g) = g a := rfl

@[simp] theorem error_bind (e : ε) (g : α → Except ε β) :
    ((Except.error e : Except ε α) >>= g) = Except.error e := rfl

/-- A bind that succeeds, taken apart. -/
theorem bind_eq_ok {x : Except ε α} {g : α → Except ε β} {b : β} :
    (x >>= g) = .ok b ↔ ∃ a, x = .ok a ∧ g a = .ok b := by
  cases x with
  | error e => simp
  | ok a => simp

/-- A bind that fails, taken apart. -/
theorem bind_eq_error {x : Except ε α} {g : α → Except ε β} {e : ε} :
    (x >>= g) = .error e ↔ x = .error e ∨ ∃ a, x = .ok a ∧ g a = .error e := by
  cases x with
  | error e' => simp
  | ok a => simp

variable {f : α → Except ε β} {as : List α} {bs : List β}

/-- Each result of a successful `mapM` is the result of some element. -/
theorem exists_of_mem_mapM (h : as.mapM f = .ok bs) {b : β} (hb : b ∈ bs) :
    ∃ a ∈ as, f a = .ok b := by
  induction as generalizing bs with
  | nil =>
    obtain rfl : [] = bs := Except.ok.inj h
    cases hb
  | cons a as ih =>
    rw [mapM_cons] at h
    obtain ⟨b', hb', h⟩ := bind_eq_ok.mp h
    obtain ⟨bs', hbs', h⟩ := bind_eq_ok.mp h
    obtain rfl : b' :: bs' = bs := Except.ok.inj h
    rcases List.mem_cons.mp hb with rfl | hb
    · exact ⟨a, mem_cons_self, hb'⟩
    · obtain ⟨a', ha', hfa'⟩ := ih hbs' hb
      exact ⟨a', mem_cons_of_mem a ha', hfa'⟩

/-- Each element of a successful `mapM` has its result among the results. -/
theorem exists_mem_mapM (h : as.mapM f = .ok bs) {a : α} (ha : a ∈ as) : ∃ b ∈ bs, f a = .ok b := by
  induction as generalizing bs with
  | nil => cases ha
  | cons a' as ih =>
    rw [mapM_cons] at h
    obtain ⟨b', hb', h⟩ := bind_eq_ok.mp h
    obtain ⟨bs', hbs', h⟩ := bind_eq_ok.mp h
    obtain rfl : b' :: bs' = bs := Except.ok.inj h
    rcases List.mem_cons.mp ha with rfl | ha
    · exact ⟨b', mem_cons_self, hb'⟩
    · obtain ⟨b, hb, hfb⟩ := ih hbs' ha
      exact ⟨b, mem_cons_of_mem b' hb, hfb⟩

/-- A `mapM` fails with the error of one of its elements. -/
theorem exists_of_mapM_error {e : ε} (h : as.mapM f = .error e) : ∃ a ∈ as, f a = .error e := by
  induction as with
  | nil => cases h
  | cons a as ih =>
    rw [mapM_cons] at h
    rcases bind_eq_error.mp h with ha | ⟨b, -, h⟩
    · exact ⟨a, mem_cons_self, ha⟩
    · rcases bind_eq_error.mp h with has | ⟨bs, -, h⟩
      · obtain ⟨a', ha', hfa'⟩ := ih has
        exact ⟨a', mem_cons_of_mem a ha', hfa'⟩
      · cases h

/-- A `mapM` succeeds if every element does. -/
theorem exists_mapM (h : ∀ a ∈ as, ∃ b, f a = .ok b) : ∃ bs, as.mapM f = .ok bs := by
  induction as with
  | nil => exact ⟨[], rfl⟩
  | cons a as ih =>
    obtain ⟨b, hb⟩ := h a mem_cons_self
    obtain ⟨bs, hbs⟩ := ih fun a' ha' => h a' (mem_cons_of_mem a ha')
    refine ⟨b :: bs, ?_⟩
    rw [mapM_cons, hb, ok_bind, hbs, ok_bind]
    rfl

/-- A `mapM` that succeeds on a list succeeds on every part of it. -/
theorem mapM_sublist {as' : List α} (hsub : as'.Sublist as) (h : as.mapM f = .ok bs) :
    ∃ bs', as'.mapM f = .ok bs' ∧ bs'.Sublist bs := by
  induction hsub generalizing bs with
  | slnil => exact ⟨bs, h, List.Sublist.refl bs⟩
  | cons a _ ih =>
    rw [mapM_cons] at h
    obtain ⟨b, -, h⟩ := bind_eq_ok.mp h
    obtain ⟨bs₁, hbs₁, h⟩ := bind_eq_ok.mp h
    obtain rfl : b :: bs₁ = bs := Except.ok.inj h
    obtain ⟨bs', hbs', hsub'⟩ := ih hbs₁
    exact ⟨bs', hbs', hsub'.cons b⟩
  | cons_cons a _ ih =>
    rw [mapM_cons] at h
    obtain ⟨b, hb, h⟩ := bind_eq_ok.mp h
    obtain ⟨bs₁, hbs₁, h⟩ := bind_eq_ok.mp h
    obtain rfl : b :: bs₁ = bs := Except.ok.inj h
    obtain ⟨bs', hbs', hsub'⟩ := ih hbs₁
    refine ⟨b :: bs', ?_, hsub'.cons_cons b⟩
    rw [mapM_cons, hb, ok_bind, hbs', ok_bind]
    rfl

end Leviathan
