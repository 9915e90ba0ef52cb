import Leviathan.Prelude.Seq

/-!
# Lazy sequences are eager ones

`Answers it R` says that an iterator goes through the elements that `R` gives for its states:
`hasNext` says whether there is one, changes nothing that a second `hasNext` would see, and leaves
what `next` does as it is.  Every combinator answers if its source does, so that a pipeline does,
with the elements that the array methods return.

`Within` is about the calls: what a stage has called its function on is the beginning of what it has
pulled, and the beginning of what the array method would have called it on.
-/

namespace Leviathan.Prelude

open List

variable {α β : Type}

/-! ### The protocol -/

/-- There is no element left. -/
structure Ended (it : Iterator β) (R : it.State → List β → Prop) (s s' : it.State) : Prop where
  hasNext : Settles (fun n => it.hasNext n s) (false, s')
  related : R s' []
  again : Settles (fun n => it.hasNext n s') (false, s')

/-- The next element is `v`; `s₁` is the state behind `hasNext`, and `s'` that behind `next`. -/
structure Yields (it : Iterator β) (R : it.State → List β → Prop) (s : it.State) (v : β)
    (rest : List β) (s₁ s' : it.State) : Prop where
  hasNext : Settles (fun n => it.hasNext n s) (true, s₁)
  related : R s₁ (v :: rest)
  again : Settles (fun n => it.hasNext n s₁) (true, s₁)
  next : Settles (fun n => it.next n s) (v, s')
  asked : Settles (fun n => it.next n s₁) (v, s')
  rest : R s' rest

/-- The iterator goes through the elements of `R`. -/
structure Answers (it : Iterator β) (R : it.State → List β → Prop) : Prop where
  ends : ∀ {s}, R s [] → ∃ s', Ended it R s s'
  yields : ∀ {s v rest}, R s (v :: rest) → ∃ s₁ s', Yields it R s v rest s₁ s'

/-- A stage has called its function on the elements that it has pulled, and pulled the beginning of
its input. -/
structure Pulled (input : List α) (c : Calls α) (rest : List α) : Prop where
  split : c.pulled ++ rest = input
  calls : c.calls = c.pulled

theorem Pulled.pull {input rest : List α} {c : Calls α} {v : α} (h : Pulled input c (v :: rest)) :
    Pulled input ⟨c.pulled ++ [v], c.calls ++ [v]⟩ rest where
  split := by rw [← h.split, append_assoc, singleton_append]
  calls := congrArg (· ++ [v]) h.calls

/-! ### The array -/

theorem answers_arrayIterator (a : List α) :
    Answers (arrayIterator a) fun i rest => ∃ k : Nat, i = (k : Int) ∧ rest = a.drop k where
  ends := by
    rintro i ⟨k, rfl, hrest⟩
    have hend := List.drop_eq_nil_iff.mp hrest.symm
    have hasNext : Settles (fun n => (arrayIterator a).hasNext n (k : Int)) (false, (k : Int)) :=
      .of_forall fun n => by simp [arrayIterator, hend]
    exact ⟨_, hasNext, ⟨k, rfl, hrest⟩, hasNext⟩
  yields := by
    rintro i v rest ⟨k, rfl, hrest⟩
    have hlt : k < a.length := by
      by_contra hle
      rw [drop_eq_nil_of_le (Nat.le_of_not_lt hle)] at hrest
      cases hrest
    rw [drop_eq_getElem_cons hlt] at hrest
    obtain ⟨rfl, rfl⟩ := List.cons.inj hrest
    have hasNext : Settles (fun n => (arrayIterator a).hasNext n (k : Int)) (true, (k : Int)) :=
      .of_forall fun n => by simp [arrayIterator, hlt]
    have next : Settles (fun n => (arrayIterator a).next n (k : Int)) (a[k], ((k + 1 : Nat) : Int)) :=
      .of_forall fun n => by
        simp only [arrayIterator, elemAt_natCast, getElem?_eq_getElem hlt]
        rfl
    exact ⟨_, _, hasNext, ⟨k, rfl, (drop_eq_getElem_cons hlt).symm⟩, hasNext, next, next,
      k + 1, rfl, rfl⟩

/-! ### `map` -/

section Stages

variable {s : Iterator α} {R : s.State → List α → Prop} {input : List α}

theorem answers_mapIterator (h : Answers s R) (fn : α → β) :
    Answers (mapIterator s fn) fun st rest => ∃ rest₀, R st.src rest₀ ∧
      Pulled input st.toCalls rest₀ ∧ rest = rest₀.map fn where
  ends := by
    rintro st ⟨rest₀, hrel, hpulled, hrest⟩
    obtain rfl := List.map_eq_nil_iff.mp hrest.symm
    obtain ⟨src, he⟩ := h.ends hrel
    exact ⟨{ st with src }, he.hasNext.bind (.pure _), ⟨[], he.related, hpulled, rfl⟩,
      he.again.bind (.pure _)⟩
  yields := by
    rintro st v rest ⟨rest₀, hrel, hpulled, hrest⟩
    obtain ⟨u, us, rfl, rfl, rfl⟩ := List.map_eq_cons_iff.mp hrest.symm
    obtain ⟨src₁, src', hy⟩ := h.yields hrel
    exact ⟨{ st with src := src₁ }, ⟨⟨st.pulled ++ [u], st.calls ++ [u]⟩, src'⟩,
      hy.hasNext.bind (.pure _), ⟨_, hy.related, hpulled, rfl⟩, hy.again.bind (.pure _),
      hy.next.bind (.pure _), hy.asked.bind (.pure _), us, hy.rest, hpulled.pull, rfl⟩

/-! ### Iterators that are primed -/

/-- An iterator that fetches its next element ahead answers if fetching once is as good as fetching
twice, and `next` gives out what was fetched. -/
theorem answers_of_prime {σ : Type} {start : σ} {prime : Nat → σ → Option σ} {has : σ → Bool}
    {val : σ → Option β} {clear : σ → σ} {R Primed : σ → List β → Prop}
    (hprime : ∀ {st rest}, R st rest → ∃ st', Settles (fun n => prime n st) st' ∧ Primed st' rest)
    (hprimed : ∀ {st rest}, Primed st rest → R st rest ∧ ∀ n, prime n st = some st)
    (hends : ∀ {st}, Primed st [] → has st = false)
    (hyields : ∀ {st v rest}, Primed st (v :: rest) →
      has st = true ∧ val st = some v ∧ R (clear st) rest) :
    Answers ⟨σ, start, fun n st => do
        let st ← prime n st
        return (has st, st), fun n st => do
        let st ← prime n st
        return (← val st, clear st)⟩ R where
  ends := by
    intro st h
    obtain ⟨st', hst', hp⟩ := hprime h
    have hhas : some (has st', st') = some (false, st') := by rw [hends hp]
    exact ⟨st', hst'.bind (.of_forall fun _ => hhas), (hprimed hp).1,
      (Settles.of_forall (hprimed hp).2).bind (.of_forall fun _ => hhas)⟩
  yields := by
    intro st v rest h
    obtain ⟨st', hst', hp⟩ := hprime h
    obtain ⟨hhas, hval, hrest⟩ := hyields hp
    have hhas' : some (has st', st') = some (true, st') := by rw [hhas]
    have hval' : (do return (← val st', clear st')) = some (v, clear st') := by rw [hval]; rfl
    have hprimed' := Settles.of_forall (hprimed hp).2
    exact ⟨st', clear st', hst'.bind (.of_forall fun _ => hhas'), (hprimed hp).1,
      hprimed'.bind (.of_forall fun _ => hhas'), hst'.bind (.of_forall fun _ => hval'),
      hprimed'.bind (.of_forall fun _ => hval'), hrest⟩

/-! ### `where` -/

/-- What is left for a filter that has fetched its next element. -/
structure FilterPrimed (R : s.State → List α → Prop) (pred : α → Bool) (input : List α)
    (st : FilterState s.State α) (rest : List α) : Prop where
  primed : st.primed = true
  rest : ∃ rest₀, R st.src rest₀ ∧ Pulled input st.toCalls rest₀ ∧
    ((st.has = true ∧ ∃ v, st.val = some v ∧ rest = v :: rest₀.filter pred) ∨
      st.has = false ∧ rest = [])

/-- What is left for a filter. -/
def FilterRel (R : s.State → List α → Prop) (pred : α → Bool) (input : List α)
    (st : FilterState s.State α) (rest : List α) : Prop :=
  FilterPrimed R pred input st rest ∨ st.primed = false ∧
    ∃ rest₀, R st.src rest₀ ∧ Pulled input st.toCalls rest₀ ∧ rest = rest₀.filter pred

theorem settles_filterLoop (h : Answers s R) {pred : α → Bool} {rest₀ : List α} :
    ∀ {st : FilterState s.State α}, st.primed = true → st.has = false → R st.src rest₀ →
      Pulled input st.toCalls rest₀ → ∃ st', Settles (fun n => filterLoop s pred n st) st' ∧
        FilterPrimed R pred input st' (rest₀.filter pred) := by
  induction rest₀ with
  | nil =>
    intro st hprimed hhas hrel hpulled
    obtain ⟨src, he⟩ := h.ends hrel
    refine ⟨{ st with src }, ?_, hprimed, [], he.related, hpulled, .inr ⟨hhas, rfl⟩⟩
    exact .succ (he.hasNext.bind (.pure _)) fun _ => rfl
  | cons u us ih =>
    intro st hprimed hhas hrel hpulled
    obtain ⟨src₁, src', hy⟩ := h.yields hrel
    cases hu : pred u with
    | true =>
      refine ⟨⟨⟨st.pulled ++ [u], st.calls ++ [u]⟩, src', st.primed, true, some u⟩, ?_, hprimed,
        us, hy.rest, hpulled.pull, .inl ⟨rfl, u, rfl, filter_cons_of_pos hu⟩⟩
      refine .succ (hy.hasNext.bind (hy.asked.bind ?_)) fun _ => rfl
      exact .of_forall fun _ => if_pos hu
    | false =>
      obtain ⟨st', hst', hrest⟩ :=
        @ih ⟨⟨st.pulled ++ [u], st.calls ++ [u]⟩, src', st.primed, st.has, st.val⟩
          hprimed hhas hy.rest hpulled.pull
      rw [filter_cons_of_neg (Bool.eq_false_iff.mp hu)]
      refine ⟨st', .succ (hy.hasNext.bind (hy.asked.bind ?_)) fun _ => rfl, hrest⟩
      refine .shift 0 hst' fun _ => ?_
      exact if_neg (Bool.eq_false_iff.mp hu)

theorem answers_filterIterator (h : Answers s R) (pred : α → Bool) :
    Answers (filterIterator s pred) (FilterRel R pred input) := by
  have hstays : ∀ {st rest}, FilterPrimed R pred input st rest →
      ∀ n, filterPrime s pred n st = some st := fun hp _ => if_pos hp.primed
  refine @answers_of_prime _ _ _ _ _ _ _ _ (FilterPrimed R pred input) ?_
    (fun hp => ⟨.inl hp, hstays hp⟩) ?_ ?_
  · rintro st rest (hp | ⟨hprimed, rest₀, hrel, hpulled, rfl⟩)
    · exact ⟨st, .of_forall (hstays hp), hp⟩
    · obtain ⟨st', hst', hrest⟩ := @settles_filterLoop _ _ _ _ h pred _
        { st with primed := true, has := false } rfl rfl hrel hpulled
      refine ⟨st', .shift 0 hst' fun _ => ?_, hrest⟩
      exact if_neg (Bool.eq_false_iff.mp hprimed)
  · rintro st ⟨-, rest₀, -, -, ⟨-, v, -, hrest⟩ | ⟨hhas, -⟩⟩
    · cases hrest
    · exact hhas
  · rintro st v rest ⟨-, rest₀, hrel, hpulled, ⟨hhas, v', hval, hrest⟩ | ⟨-, hrest⟩⟩
    · obtain ⟨rfl, rfl⟩ := List.cons.inj hrest
      exact ⟨hhas, hval, .inr ⟨rfl, rest₀, hrel, hpulled, rfl⟩⟩
    · cases hrest

/-! ### `take` -/

theorem answers_takeIterator (h : Answers s R) (k : Int) :
    Answers (takeIterator s k) fun st rest => ∃ rest₀, R st.src rest₀ ∧
      rest = rest₀.take st.remaining.toNat where
  ends := by
    rintro st ⟨rest₀, hrel, hrest⟩
    by_cases hpos : st.remaining > 0
    · have hnil : rest₀ = [] := by
        rcases List.take_eq_nil_iff.mp hrest.symm with hzero | hnil
        · omega
        · exact hnil
      subst hnil
      obtain ⟨src, he⟩ := h.ends hrel
      refine ⟨{ st with src }, ?_, ⟨[], he.related, List.take_nil.symm⟩, ?_⟩
      · exact .shift 0 (he.hasNext.bind (.pure _)) fun _ => if_pos hpos
      · exact .shift 0 (he.again.bind (.pure _)) fun _ => if_pos hpos
    · have hasNext : Settles (fun n => (takeIterator s k).hasNext n st) (false, st) :=
        .of_forall fun _ => if_neg hpos
      exact ⟨st, hasNext, ⟨rest₀, hrel, hrest⟩, hasNext⟩
  yields := by
    rintro st v rest ⟨rest₀, hrel, hrest⟩
    have hpos : st.remaining > 0 := by
      by_contra hle
      have hzero : st.remaining.toNat = 0 := by omega
      rw [hzero, take_zero] at hrest
      cases hrest
    have hsucc : st.remaining.toNat = (st.remaining - 1).toNat + 1 := by omega
    cases rest₀ with
    | nil => cases hrest.trans take_nil
    | cons u us =>
      have hsplit := hrest
      rw [hsucc, take_succ_cons] at hsplit
      obtain ⟨rfl, rfl⟩ := List.cons.inj hsplit
      obtain ⟨src₁, src', hy⟩ := h.yields hrel
      refine ⟨{ st with src := src₁ }, ⟨src', st.remaining - 1⟩, ?_, ⟨_, hy.related, hrest⟩, ?_,
        hy.next.bind (.pure _), hy.asked.bind (.pure _), us, hy.rest, rfl⟩
      · exact .shift 0 (hy.hasNext.bind (.pure _)) fun _ => if_pos hpos
      · exact .shift 0 (hy.again.bind (.pure _)) fun _ => if_pos hpos

/-! ### `skip` -/

theorem settles_skipLoop (h : Answers s R) {toSkip : Int} {rest₀ : List α} :
    ∀ {k : Int} {src : s.State}, R src rest₀ → ∃ src',
      Settles (fun n => skipLoop s toSkip n k src) src' ∧ R src' (rest₀.drop (toSkip - k).toNat) := by
  induction rest₀ with
  | nil =>
    intro k src hrel
    by_cases hk : k < toSkip
    · obtain ⟨src', he⟩ := h.ends hrel
      refine ⟨src', .succ (he.hasNext.bind (.pure _)) fun _ => if_pos hk, ?_⟩
      rw [drop_nil]
      exact he.related
    · refine ⟨src, .succ (.pure src) fun _ => if_neg hk, ?_⟩
      rw [drop_nil]
      exact hrel
  | cons u us ih =>
    intro k src hrel
    by_cases hk : k < toSkip
    · obtain ⟨src₁, src₂, hy⟩ := h.yields hrel
      obtain ⟨src', hloop, hrest⟩ := ih (k := k + 1) hy.rest
      refine ⟨src', .succ (hy.hasNext.bind (hy.asked.bind hloop)) fun _ => if_pos hk, ?_⟩
      have hsucc : (toSkip - k).toNat = (toSkip - (k + 1)).toNat + 1 := by omega
      rw [hsucc, drop_succ_cons]
      exact hrest
    · refine ⟨src, .succ (.pure src) fun _ => if_neg hk, ?_⟩
      have hzero : (toSkip - k).toNat = 0 := by omega
      rw [hzero, drop_zero]
      exact hrel

/-- What is left for a stage that skips. -/
def SkipRel (R : s.State → List α → Prop) (k : Int) (st : SkipState s.State) (rest : List α) : Prop :=
  ∃ rest₀, R st.src rest₀ ∧ rest = if st.skipped then rest₀ else rest₀.drop k.toNat

theorem settles_doSkip (h : Answers s R) {k : Int} {st : SkipState s.State} {rest : List α}
    (hrel : SkipRel R k st rest) : ∃ src, Settles (fun n => doSkip s k n st) ⟨src, true⟩ ∧
      R src rest := by
  obtain ⟨rest₀, hrel, rfl⟩ := hrel
  obtain ⟨src, skipped⟩ := st
  cases skipped with
  | true => exact ⟨src, .of_forall fun _ => rfl, hrel⟩
  | false =>
    obtain ⟨src', hloop, hrest⟩ := @settles_skipLoop _ _ _ h k _ 0 _ hrel
    rw [Int.sub_zero] at hrest
    exact ⟨src', hloop.bind (.pure _), hrest⟩

theorem answers_skipIterator (h : Answers s R) (k : Int) :
    Answers (skipIterator s k) (SkipRel R k) where
  ends := by
    intro st hrel
    obtain ⟨src, hskip, hrest⟩ := settles_doSkip h hrel
    obtain ⟨src', he⟩ := h.ends hrest
    have hskipped : Settles (fun n => doSkip s k n ⟨src', true⟩) ⟨src', true⟩ :=
      .of_forall fun _ => rfl
    exact ⟨⟨src', true⟩, hskip.bind (he.hasNext.bind (.pure _)), ⟨[], he.related, rfl⟩,
      hskipped.bind (he.again.bind (.pure _))⟩
  yields := by
    intro st v rest hrel
    obtain ⟨src, hskip, hrest⟩ := settles_doSkip h hrel
    obtain ⟨src₁, src', hy⟩ := h.yields hrest
    have hskipped : Settles (fun n => doSkip s k n ⟨src₁, true⟩) ⟨src₁, true⟩ :=
      .of_forall fun _ => rfl
    exact ⟨⟨src₁, true⟩, ⟨src', true⟩, hskip.bind (hy.hasNext.bind (.pure _)),
      ⟨_, hy.related, rfl⟩, hskipped.bind (hy.again.bind (.pure _)),
      hskip.bind (hy.next.bind (.pure _)), hskipped.bind (hy.asked.bind (.pure _)),
      rest, hy.rest, rfl⟩

/-! ### `takeWhile` -/

/-- What a stage that takes while its function holds has pulled and called it on. -/
structure Taken (pred : α → Bool) (input : List α) (c : Calls α) (rest : List α) : Prop extends
    Pulled input c rest where
  reached : c.calls <+: (takeWhile pred input).calls

/-- Up to here the function has held. -/
theorem Taken.pull {pred : α → Bool} {rest : List α} {c : Calls α} {v : α}
    (h : Taken pred input c (v :: rest)) (hpass : ∀ a ∈ c.pulled, pred a = true) :
    Taken pred input ⟨c.pulled ++ [v], c.calls ++ [v]⟩ rest where
  toPulled := h.toPulled.pull
  reached := by
    rw [← h.split, h.calls]
    exact calls_takeWhile hpass

/-- What is left for a stage that has fetched its next element. -/
structure TakeWhilePrimed (R : s.State → List α → Prop) (pred : α → Bool) (input : List α)
    (st : TakeWhileState s.State α) (rest : List α) : Prop where
  primed : (st.primed || st.done) = true
  rest : ∃ rest₀, R st.src rest₀ ∧ Taken pred input st.toCalls rest₀ ∧
    ((st.has = true ∧ st.done = false ∧ (∀ a ∈ st.pulled, pred a = true) ∧
        ∃ v, st.val = some v ∧ rest = v :: rest₀.takeWhile pred) ∨
      st.has = false ∧ rest = [])

/-- What is left for a stage that takes while its function holds. -/
def TakeWhileRel (R : s.State → List α → Prop) (pred : α → Bool) (input : List α)
    (st : TakeWhileState s.State α) (rest : List α) : Prop :=
  TakeWhilePrimed R pred input st rest ∨ (st.primed || st.done) = false ∧
    ∃ rest₀, R st.src rest₀ ∧ Taken pred input st.toCalls rest₀ ∧
      (∀ a ∈ st.pulled, pred a = true) ∧ rest = rest₀.takeWhile pred

theorem settles_takeWhilePrime (h : Answers s R) {pred : α → Bool} {rest₀ : List α}
    {st : TakeWhileState s.State α} (hprimed : (st.primed || st.done) = false)
    (hrel : R st.src rest₀) (htaken : Taken pred input st.toCalls rest₀)
    (hpass : ∀ a ∈ st.pulled, pred a = true) :
    ∃ st', Settles (fun n => takeWhilePrime s pred n st) st' ∧
      TakeWhilePrimed R pred input st' (rest₀.takeWhile pred) := by
  have hdone : st.done = false := (Bool.or_eq_false_iff.mp hprimed).2
  have hfresh : ¬(st.primed || st.done) = true := Bool.eq_false_iff.mp hprimed
  cases rest₀ with
  | nil =>
    obtain ⟨src, he⟩ := h.ends hrel
    refine ⟨⟨⟨st.toCalls, src, true, false, st.val⟩, true⟩, ?_, rfl, [], he.related, htaken,
      .inr ⟨rfl, rfl⟩⟩
    exact .shift 0 (he.hasNext.bind (.pure _)) fun _ => if_neg hfresh
  | cons u us =>
    obtain ⟨src₁, src', hy⟩ := h.yields hrel
    cases hu : pred u with
    | true =>
      refine ⟨⟨⟨⟨st.pulled ++ [u], st.calls ++ [u]⟩, src', true, true, some u⟩, st.done⟩, ?_, rfl,
        us, hy.rest, htaken.pull hpass, .inl ⟨rfl, hdone, ?_, u, rfl, ?_⟩⟩
      · refine .shift 0 (hy.hasNext.bind (hy.asked.bind ?_)) fun _ => if_neg hfresh
        exact .of_forall fun _ => if_pos hu
      · intro a ha
        rcases List.mem_append.mp ha with ha | ha
        · exact hpass a ha
        · rwa [List.mem_singleton.mp ha]
      · exact takeWhile_cons_of_pos hu
    | false =>
      have hfails : ¬pred u = true := Bool.eq_false_iff.mp hu
      refine ⟨⟨⟨⟨st.pulled ++ [u], st.calls ++ [u]⟩, src', true, false, st.val⟩, true⟩, ?_, rfl,
        us, hy.rest, htaken.pull hpass, .inr ⟨rfl, takeWhile_cons_of_neg hfails⟩⟩
      refine .shift 0 (hy.hasNext.bind (hy.asked.bind ?_)) fun _ => if_neg hfresh
      exact .of_forall fun _ => if_neg hfails

theorem answers_takeWhileIterator (h : Answers s R) (pred : α → Bool) :
    Answers (takeWhileIterator s pred) (TakeWhileRel R pred input) := by
  have hstays : ∀ {st rest}, TakeWhilePrimed R pred input st rest →
      ∀ n, takeWhilePrime s pred n st = some st := fun hp _ => if_pos hp.primed
  refine @answers_of_prime _ _ _ _ _ _ _ _ (TakeWhilePrimed R pred input) ?_
    (fun hp => ⟨.inl hp, hstays hp⟩) ?_ ?_
  · rintro st rest (hp | ⟨hprimed, rest₀, hrel, htaken, hpass, rfl⟩)
    · exact ⟨st, .of_forall (hstays hp), hp⟩
    · exact settles_takeWhilePrime h hprimed hrel htaken hpass
  · rintro st ⟨-, rest₀, -, -, ⟨-, -, -, v, -, hrest⟩ | ⟨hhas, -⟩⟩
    · cases hrest
    · exact hhas
  · rintro st v rest ⟨-, rest₀, hrel, htaken, ⟨hhas, hdone, hpass, v', hval, hrest⟩ | ⟨-, hrest⟩⟩
    · obtain ⟨rfl, rfl⟩ := List.cons.inj hrest
      exact ⟨hhas, hval, .inr ⟨hdone, rest₀, hrel, htaken, hpass, rfl⟩⟩
    · cases hrest

end Stages

end Leviathan.Prelude
