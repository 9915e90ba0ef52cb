import Mathlib

/-!
# Runs of a labelled machine

A machine takes one labelled step at a time, and a step may be refused.  A run is a
list of labels taken one after the other.

`Steps P s l` says that every step of the run of `l` from `s` satisfies `P`, which
sees the state before the step, the label and the state after it.  A property that a
step keeps holds all along a run (`Steps.of_invariant`), and two step properties that
agree under an invariant agree on every run (`steps_iff_steps`).

Where a property relates steps that lie far apart, the run is an `Execution`: its states
and its labels by number.
-/

namespace Leviathan.Runs

variable {σ α : Type*} (step : σ → α → Option σ)

/-- The state after a list of steps, if none of them is refused. -/
def run : σ → List α → Option σ
  | s, [] => some s
  | s, a :: l =>
    match step s a with
    | some s' => run s' l
    | none => none

@[simp] theorem run_nil (s : σ) : run step s [] = some s := rfl

theorem run_cons (s : σ) (a : α) (l : List α) :
    run step s (a :: l) = (step s a).bind fun s' => run step s' l := by
  rw [run]
  cases step s a with
  | none => rfl
  | some s' => rfl

theorem run_append (s : σ) (l l' : List α) :
    run step s (l ++ l') = (run step s l).bind fun s' => run step s' l' := by
  induction l generalizing s with
  | nil => rfl
  | cons a l ih =>
    rw [List.cons_append, run_cons, run_cons]
    cases step s a with
    | none => rfl
    | some s' => exact ih s'

/-- Every step of the run of `l` from `s` satisfies `P`; the run ends where a step is
refused. -/
def Steps (P : σ → α → σ → Prop) : σ → List α → Prop
  | _, [] => True
  | s, a :: l => ∀ s', step s a = some s' → P s a s' ∧ Steps P s' l

variable {step}

/-- **An invariant holds all along a run.** -/
theorem run_invariant {I : σ → Prop} (hstep : ∀ s a s', I s → step s a = some s' → I s') :
    ∀ {s : σ} {l : List α} {s' : σ}, I s → run step s l = some s' → I s' := by
  intro s l
  induction l generalizing s with
  | nil =>
    intro s' hs h
    cases h
    exact hs
  | cons a l ih =>
    intro s' hs h
    rw [run_cons] at h
    cases hstepped : step s a with
    | none =>
      rw [hstepped] at h
      cases h
    | some t =>
      rw [hstepped] at h
      exact ih (hstep s a t hs hstepped) h

/-- An invariant that is kept by the steps that satisfy `P` holds all along a run of such
steps. -/
theorem run_invariant_of_steps {I : σ → Prop} {P : σ → α → σ → Prop}
    (hstep : ∀ s a s', I s → P s a s' → step s a = some s' → I s') :
    ∀ {s : σ} {l : List α} {s' : σ}, I s → Steps step P s l → run step s l = some s' → I s' := by
  intro s l
  induction l generalizing s with
  | nil =>
    intro s' hs _ h
    cases h
    exact hs
  | cons a l ih =>
    intro s' hs hsteps h
    rw [run_cons] at h
    cases hstepped : step s a with
    | none =>
      rw [hstepped] at h
      cases h
    | some t =>
      rw [hstepped] at h
      obtain ⟨hp, hl⟩ := hsteps t hstepped
      exact ih (hstep s a t hs hp hstepped) hl h

/-- **Two step properties that agree under an invariant agree on every run.** -/
theorem steps_iff_steps {I : σ → Prop} {P Q : σ → α → σ → Prop}
    (hstep : ∀ s a s', I s → step s a = some s' → I s' ∧ (P s a s' ↔ Q s a s')) :
    ∀ {s : σ} (l : List α), I s → (Steps step P s l ↔ Steps step Q s l) := by
  intro s l
  induction l generalizing s with
  | nil =>
    intro _
    exact Iff.rfl
  | cons a l ih =>
    intro hs
    constructor
    · intro h s' hstepped
      obtain ⟨hs', hpq⟩ := hstep s a s' hs hstepped
      obtain ⟨hp, hl⟩ := h s' hstepped
      exact ⟨hpq.mp hp, (ih hs').mp hl⟩
    · intro h s' hstepped
      obtain ⟨hs', hpq⟩ := hstep s a s' hs hstepped
      obtain ⟨hq, hl⟩ := h s' hstepped
      exact ⟨hpq.mpr hq, (ih hs').mpr hl⟩

/-! ### Machines that refuse nothing -/

/-- **Two total machines.**  They go through the same states exactly if, from each of these states,
they take the same step. -/
theorem foldl_eq_iff {f g : σ → α → σ} {s : σ} {l : List α} :
    (∀ done, done <+: l → done.foldl f s = done.foldl g s) ↔
      ∀ done a, done ++ [a] <+: l → f (done.foldl g s) a = g (done.foldl g s) a := by
  constructor
  · intro h done a hprefix
    have hnext := h (done ++ [a]) hprefix
    rw [List.foldl_append, List.foldl_append,
      h done ((List.prefix_append done [a]).trans hprefix)] at hnext
    exact hnext
  · intro h done
    induction done using List.reverseRecOn with
    | nil =>
      intro _
      rfl
    | append_singleton done a ih =>
      intro hprefix
      rw [List.foldl_append, List.foldl_append,
        ih ((List.prefix_append done [a]).trans hprefix)]
      exact h done a hprefix

/-! ### Executions -/

/-- A run with its states and labels numbered. -/
structure Execution (step : σ → α → Option σ) (start : σ) where
  state : Nat → σ
  action : Nat → α
  length : Nat
  first : state 0 = start
  steps : ∀ i, i < length → step (state i) (action i) = some (state (i + 1))

namespace Execution

variable {start : σ}

/-- **An invariant holds at every state of an execution.** -/
theorem invariant (e : Execution step start) {I : σ → Prop} (hstart : I start)
    (hstep : ∀ s a s', I s → step s a = some s' → I s') : ∀ i, i ≤ e.length → I (e.state i) := by
  intro i
  induction i with
  | zero =>
    intro _
    rw [e.first]
    exact hstart
  | succ i ih =>
    intro hi
    exact hstep _ _ _ (ih (by omega)) (e.steps i (by omega))

/-- The execution of a list of labels. -/
def ofRun [Inhabited α] (l : List α) (h : (run step start l).isSome) : Execution step start where
  state i := (run step start (l.take i)).getD start
  action i := l.getD i default
  length := l.length
  first := rfl
  steps i hi := by
    obtain ⟨s, hs⟩ := Option.isSome_iff_exists.mp h
    have hsplit : ∀ j, (run step start (l.take j)).isSome := by
      intro j
      rw [← List.take_append_drop j l, run_append] at hs
      obtain ⟨m, hm, _⟩ := Option.bind_eq_some_iff.mp hs
      rw [hm]
      rfl
    have htake : l.take (i + 1) = l.take i ++ [l.getD i default] := by
      rw [List.take_add_one, List.getElem?_eq_getElem hi, List.getD_eq_getElem _ _ hi]
      rfl
    obtain ⟨m, hm⟩ := Option.isSome_iff_exists.mp (hsplit i)
    have hnext := hsplit (i + 1)
    rw [htake, run_append, hm] at hnext ⊢
    obtain ⟨m', hm'⟩ := Option.isSome_iff_exists.mp hnext
    have hone : step m (l.getD i default) = some m' := by
      change run step m [l.getD i default] = some m' at hm'
      rw [run_cons] at hm'
      obtain ⟨m'', hstepped, heq⟩ := Option.bind_eq_some_iff.mp hm'
      rw [hstepped, ← heq]
      rfl
    rw [hm']
    exact hone

end Execution

end Leviathan.Runs
