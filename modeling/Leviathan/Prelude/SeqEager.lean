import Leviathan.Prelude.SeqRuns

/-!
# Pipelines

A pipeline behind `asSeq()` goes through the elements that the array methods return, whatever the
driver: `toArray()` returns them, and calls of `next()` give them out one by one, with any number of
calls of `hasNext()` before each.  The state behind a call of `next()` does not depend on that
number, and the calls that the stages have made are part of the state.
-/

namespace Leviathan.Prelude

variable {α β : Type}

/-! ### The drivers -/

theorem settles_ask_of_again {it : Iterator β} {b : Bool} {st st' : it.State}
    (hfirst : Settles (fun n => it.hasNext n st) (b, st'))
    (hagain : Settles (fun n => it.hasNext n st') (b, st')) (k : Nat) :
    Settles (fun n => ask it n (k + 1) st) st' := by
  have hrest : Settles (fun n => ask it n k st') st' := by
    induction k with
    | zero => exact .pure st'
    | succ k ih => exact hagain.bind ih
  exact hfirst.bind hrest

section Drivers

variable {it : Iterator β} {R : it.State → List β → Prop} (h : Answers it R)

include h

theorem settles_toArrayLoop {rest : List β} : ∀ {st : it.State} (r : List β), R st rest →
    ∃ st', Settles (fun n => toArrayLoop it n st r) (r ++ rest, st') ∧ R st' [] := by
  induction rest with
  | nil =>
    intro st r hrel
    obtain ⟨st', he⟩ := h.ends hrel
    rw [List.append_nil]
    exact ⟨st', .succ (he.hasNext.bind (.pure _)) fun _ => rfl, he.related⟩
  | cons v rest ih =>
    intro st r hrel
    obtain ⟨st₁, st₂, hy⟩ := h.yields hrel
    obtain ⟨st', hloop, hend⟩ := ih (r ++ [v]) hy.rest
    rw [List.append_assoc, List.singleton_append] at hloop
    exact ⟨st', .succ (hy.hasNext.bind (hy.asked.bind hloop)) fun _ => rfl, hend⟩

/-- Asking once leaves what is left, and asking again is no different. -/
theorem settles_ask {st : it.State} {rest : List β} (hrel : R st rest) :
    ∃ st', R st' rest ∧ ∀ k, Settles (fun n => ask it n (k + 1) st) st' := by
  cases rest with
  | nil =>
    obtain ⟨st', he⟩ := h.ends hrel
    exact ⟨st', he.related, settles_ask_of_again he.hasNext he.again⟩
  | cons v rest =>
    obtain ⟨st₁, st', hy⟩ := h.yields hrel
    exact ⟨st₁, hy.related, settles_ask_of_again hy.hasNext hy.again⟩

/-- However often `hasNext` is called, `next` leaves one state. -/
theorem settles_drive {rest : List β} : ∀ {m : Nat} {st : it.State} (r : List β), R st rest →
    m ≤ rest.length → ∃ st', R st' (rest.drop m) ∧ ∀ ks : List Nat, ks.length = m →
      Settles (fun n => drive it n ks st r) (r ++ rest.take m, st') := by
  intro m
  induction m generalizing rest with
  | zero =>
    intro st r hrel _
    refine ⟨st, hrel, fun ks hks => ?_⟩
    obtain rfl := List.eq_nil_of_length_eq_zero hks
    rw [List.take_zero, List.append_nil]
    exact .pure _
  | succ m ih =>
    intro st r hrel hm
    cases rest with
    | nil => exact absurd hm (Nat.not_succ_le_zero m)
    | cons v rest =>
      obtain ⟨st₁, st₂, hy⟩ := h.yields hrel
      obtain ⟨st', hleft, hdrive⟩ := ih (r ++ [v]) hy.rest (Nat.le_of_succ_le_succ hm)
      refine ⟨st', hleft, fun ks hks => ?_⟩
      cases ks with
      | nil => cases hks
      | cons k ks =>
        have hrest := hdrive ks (Nat.succ.inj hks)
        rw [List.append_assoc, List.singleton_append] at hrest
        cases k with
        | zero => exact (Settles.pure st).bind (hy.next.bind hrest)
        | succ k =>
          have hask := settles_ask_of_again hy.hasNext hy.again k
          exact hask.bind (hy.asked.bind hrest)

end Drivers

/-! ### The calls -/

/-- The calls of a stage: one at most for an element that it has pulled, and none that the array
method would not make. -/
structure Reaches {γ : Type} (c : Calls γ) (input eager : List γ) : Prop where
  pulled : c.pulled <+: input
  once : c.calls <+: c.pulled
  reached : c.calls <+: eager

namespace Pipeline

/-- The calls that the stages of a pipeline have made. -/
def Within (xs : List α) {δ : Type} : (p : Pipeline α δ) → (p.iterator xs).State → Prop
  | nil, _ => True
  | map p fn, st => (∃ input, p.eager xs = some input ∧
      Reaches (MapState.toCalls st) input (Prelude.map fn input).calls) ∧ p.Within xs (MapState.src st)
  | where_ p pred, st => (∃ input, p.eager xs = some input ∧
      Reaches (FilterState.toCalls st) input (Prelude.where_ pred input).calls) ∧
        p.Within xs (FilterState.src st)
  | take p _, st => p.Within xs (TakeState.src st)
  | takeWhile p pred, st => (∃ input, p.eager xs = some input ∧
      Reaches (FilterState.toCalls (TakeWhileState.toFilterState st)) input
        (Prelude.takeWhile pred input).calls) ∧
        p.Within xs (FilterState.src (TakeWhileState.toFilterState st))
  | skip p _, st => p.Within xs (SkipState.src st)

end Pipeline

theorem Pulled.reaches {input rest : List α} {c : Calls α} (h : Pulled input c rest) :
    Reaches c input input where
  pulled := ⟨rest, h.split⟩
  once := ⟨[], by rw [h.calls, List.append_nil]⟩
  reached := by
    rw [h.calls]
    exact ⟨rest, h.split⟩

/-- A pipeline goes through what the array methods return. -/
structure Serves (xs : List α) {δ : Type} (p : Pipeline α δ) (ys : List δ)
    (R : (p.iterator xs).State → List δ → Prop) : Prop where
  eager : p.eager xs = some ys
  answers : Answers (p.iterator xs) R
  start : R (p.iterator xs).start ys
  within : ∀ {st rest}, R st rest → p.Within xs st

/-- **Every pipeline** does. -/
theorem exists_serves (xs : List α) {δ : Type} (p : Pipeline α δ) : ∃ ys R, Serves xs p ys R := by
  induction p with
  | nil =>
    exact ⟨xs, _, rfl, answers_arrayIterator xs, ⟨0, rfl, rfl⟩, fun _ => trivial⟩
  | map p fn ih =>
    obtain ⟨ys, R, hs⟩ := ih
    refine ⟨ys.map fn, _, ?_, @answers_mapIterator _ _ _ _ ys hs.answers fn,
      ⟨ys, hs.start, ⟨rfl, rfl⟩, rfl⟩, ?_⟩
    · rw [Pipeline.eager, hs.eager]
      exact congrArg (fun c => some c.result) (map_eq fn ys)
    · rintro st rest ⟨rest₀, hrel, hpulled, -⟩
      refine ⟨⟨ys, hs.eager, ?_⟩, hs.within hrel⟩
      rw [map_eq]
      exact hpulled.reaches
  | where_ p pred ih =>
    obtain ⟨ys, R, hs⟩ := ih
    refine ⟨ys.filter pred, _, ?_, @answers_filterIterator _ _ _ ys hs.answers pred,
      .inr ⟨rfl, ys, hs.start, ⟨rfl, rfl⟩, rfl⟩, ?_⟩
    · rw [Pipeline.eager, hs.eager]
      exact congrArg (fun c => some c.result) (where_eq pred ys)
    · rintro st rest (⟨-, rest₀, hrel, hpulled, -⟩ | ⟨-, rest₀, hrel, hpulled, -⟩) <;>
      · refine ⟨⟨ys, hs.eager, ?_⟩, hs.within hrel⟩
        rw [where_eq]
        exact hpulled.reaches
  | take p n ih =>
    obtain ⟨ys, R, hs⟩ := ih
    refine ⟨ys.take n, _, ?_, answers_takeIterator hs.answers n, ⟨ys, hs.start, rfl⟩, ?_⟩
    · rw [Pipeline.eager, hs.eager]
      exact take_natCast n ys
    · rintro st rest ⟨rest₀, hrel, -⟩
      exact hs.within hrel
  | takeWhile p pred ih =>
    obtain ⟨ys, R, hs⟩ := ih
    refine ⟨ys.takeWhile pred, _, ?_, @answers_takeWhileIterator _ _ _ ys hs.answers pred,
      .inr ⟨rfl, ys, hs.start, ⟨⟨rfl, rfl⟩, List.nil_prefix⟩, nofun, rfl⟩, ?_⟩
    · rw [Pipeline.eager, hs.eager]
      exact congrArg some (result_takeWhile pred ys)
    · rintro st rest (⟨-, rest₀, hrel, htaken, -⟩ | ⟨-, rest₀, hrel, htaken, -⟩) <;>
      · have hreaches := htaken.toPulled.reaches
        exact ⟨⟨ys, hs.eager, hreaches.pulled, hreaches.once, htaken.reached⟩, hs.within hrel⟩
  | skip p n ih =>
    obtain ⟨ys, R, hs⟩ := ih
    refine ⟨ys.drop n, _, ?_, answers_skipIterator hs.answers n, ⟨ys, hs.start, rfl⟩, ?_⟩
    · rw [Pipeline.eager, hs.eager]
      exact skip_natCast n ys
    · rintro st rest ⟨rest₀, hrel, -⟩
      exact hs.within hrel

/-- **Lazy sequences equal eager ones.**  `toArray()` behind a pipeline returns what the array
methods return.  Driven by hand, with any number of calls of `hasNext()` before each call of
`next()`, the pipeline gives out the same elements and ends in the same state as without any, and
asking once more or many times more does not differ.  At each point a stage has called its function
once at most for an element that it has pulled, and only where the array method would. -/
theorem lazy_eq_eager (xs : List α) {δ : Type} (p : Pipeline α δ) :
    ∃ ys, p.eager xs = some ys ∧
      (∃ st, Settles (toArray (p.iterator xs)) (ys, st) ∧ p.Within xs st) ∧
      ∀ m ≤ ys.length, ∃ st, p.Within xs st ∧
        (∀ ks : List Nat, ks.length = m → Settles (fun n =>
          drive (p.iterator xs) n ks (p.iterator xs).start []) (ys.take m, st)) ∧
        ∃ asked, p.Within xs asked ∧
          ∀ k, Settles (fun n => ask (p.iterator xs) n (k + 1) st) asked := by
  obtain ⟨ys, R, hs⟩ := exists_serves xs p
  refine ⟨ys, hs.eager, ?_, fun m hm => ?_⟩
  · obtain ⟨st, hloop, hend⟩ := settles_toArrayLoop hs.answers [] hs.start
    exact ⟨st, hloop, hs.within hend⟩
  · obtain ⟨st, hleft, hdrive⟩ := settles_drive hs.answers [] hs.start hm
    obtain ⟨asked, hasked, hask⟩ := settles_ask hs.answers hleft
    exact ⟨st, hs.within hleft, hdrive, asked, hs.within hasked, hask⟩

end Leviathan.Prelude
