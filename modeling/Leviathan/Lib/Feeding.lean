import Mathlib

/-!
# Decoders that are fed in fragments

A decoder keeps a state and the bytes that it has not used yet.  Fed a fragment, it
appends it and takes steps as long as one is possible; a step uses up some bytes and puts
something out.  `drive` is that loop and `Takes` says what it does.

`Patient` is the one condition under which the cuts cannot be seen: a step that is taken
now could as well be taken when more bytes are there.  It is asked of whole runs, not of
single steps, since a decoder may take as much as it finds.
-/

namespace Leviathan.Feeding

variable {B S O : Type}

/-- One step: the new state, the bytes left and what is put out, or none. -/
abbrev Stepper (B S O : Type) := S → List B → Option (S × List B × List O)

/-- The loop, for at most `n` steps. -/
def drive (step : Stepper B S O) : Nat → S → List B → S × List B × List O
  | 0, s, b => (s, b, [])
  | n + 1, s, b =>
    match step s b with
    | none => (s, b, [])
    | some (s₁, b₁, o) =>
      let rest := drive step n s₁ b₁
      (rest.1, rest.2.1, o ++ rest.2.2)

/-- From `s` with the bytes `b`, the decoder stops in `s'` with `r` left, having put out
`o`. -/
inductive Takes (step : Stepper B S O) : S → List B → S → List B → List O → Prop
  | stop {s : S} {b : List B} (h : step s b = none) : Takes step s b s b []
  | step {s s₁ s' : S} {b b₁ r : List B} {o o' : List O} (h : step s b = some (s₁, b₁, o))
      (hrest : Takes step s₁ b₁ s' r o') : Takes step s b s' r (o ++ o')

/-- A step does not depend on the bytes that have not arrived. -/
def Patient (step : Stepper B S O) : Prop :=
  ∀ {s s₁ s' : S} {b b₁ c r : List B} {o o' : List O}, step s b = some (s₁, b₁, o) →
    Takes step s₁ (b₁ ++ c) s' r o' → Takes step s (b ++ c) s' r (o ++ o')

variable {step : Stepper B S O}

/-- It is enough that more bytes do not change a step. -/
theorem patient_of_extends (h : ∀ {s s₁ : S} {b b₁ : List B} {o : List O} (c : List B),
    step s b = some (s₁, b₁, o) → step s (b ++ c) = some (s₁, b₁ ++ c, o)) : Patient step := by
  intro s s₁ s' b b₁ c r o o' hstep hrest
  exact .step (h c hstep) hrest

theorem Takes.drive {measure : S → List B → Nat}
    (hdec : ∀ s b s₁ b₁ o, step s b = some (s₁, b₁, o) → measure s₁ b₁ < measure s b)
    {n : Nat} {s : S} {b : List B} (hn : measure s b ≤ n) :
    Takes step s b (drive step (n + 1) s b).1 (drive step (n + 1) s b).2.1
      (drive step (n + 1) s b).2.2 := by
  induction n generalizing s b with
  | zero =>
    cases h : step s b with
    | none =>
      simp only [Feeding.drive, h]
      exact .stop h
    | some next =>
      obtain ⟨s₁, b₁, o⟩ := next
      have := hdec s b s₁ b₁ o h
      omega
  | succ n ih =>
    cases h : step s b with
    | none =>
      rw [Feeding.drive, h]
      exact .stop h
    | some next =>
      obtain ⟨s₁, b₁, o⟩ := next
      have hless := hdec s b s₁ b₁ o h
      rw [Feeding.drive, h]
      exact .step h (ih (by omega))

theorem Takes.unique {s s₁ s₂ : S} {b r₁ r₂ : List B} {o₁ o₂ : List O}
    (h₁ : Takes step s b s₁ r₁ o₁) (h₂ : Takes step s b s₂ r₂ o₂) :
    s₁ = s₂ ∧ r₁ = r₂ ∧ o₁ = o₂ := by
  induction h₁ generalizing s₂ r₂ o₂ with
  | stop h =>
    cases h₂ with
    | stop _ => exact ⟨rfl, rfl, rfl⟩
    | step h' _ => rw [h] at h'; cases h'
  | step h _ ih =>
    cases h₂ with
    | stop h' => rw [h] at h'; cases h'
    | step h' hrest =>
      rw [h] at h'
      cases h'
      obtain ⟨rfl, rfl, rfl⟩ := ih hrest
      exact ⟨rfl, rfl, rfl⟩

theorem Takes.stopped {s s' : S} {b r : List B} {o : List O} (h : Takes step s b s' r o) :
    step s' r = none := by
  induction h with
  | stop h => exact h
  | step _ _ ih => exact ih

/-- The bytes may arrive in two parts. -/
theorem Takes.append (hpatient : Patient step) {s s₁ s₂ : S} {b r₁ c r₂ : List B}
    {o₁ o₂ : List O} (h₁ : Takes step s b s₁ r₁ o₁) (h₂ : Takes step s₁ (r₁ ++ c) s₂ r₂ o₂) :
    Takes step s (b ++ c) s₂ r₂ (o₁ ++ o₂) := by
  induction h₁ with
  | stop _ => exact h₂
  | step h _ ih =>
    rw [List.append_assoc]
    exact hpatient h (ih h₂)

/-- The decoder is fed the fragments one after the other and puts out `os`, one list for
each. -/
inductive Fed (step : Stepper B S O) : S → List B → List (List B) → S → List B →
    List (List O) → Prop
  | nil {s : S} {b : List B} : Fed step s b [] s b []
  | cons {s s₁ s' : S} {b f r₁ r : List B} {fs : List (List B)} {o : List O}
      {os : List (List O)} (h : Takes step s (b ++ f) s₁ r₁ o) (hrest : Fed step s₁ r₁ fs s' r os) :
      Fed step s b (f :: fs) s' r (o :: os)

/-- The cuts between the fragments cannot be seen. -/
theorem Fed.takes (hpatient : Patient step) {s s' : S} {b r : List B} {fs : List (List B)}
    {os : List (List O)} (h : Fed step s b fs s' r os) (hstopped : step s b = none) :
    Takes step s (b ++ fs.flatten) s' r os.flatten := by
  induction h with
  | nil =>
    rw [List.flatten_nil, List.flatten_nil, List.append_nil]
    exact .stop hstopped
  | @cons s s₁ s' b f r₁ r fs o os hfirst _ ih =>
    rw [List.flatten_cons, List.flatten_cons, ← List.append_assoc]
    exact hfirst.append hpatient (ih hfirst.stopped)

end Leviathan.Feeding
