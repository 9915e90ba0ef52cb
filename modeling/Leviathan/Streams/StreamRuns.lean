import Leviathan.Lib.Runs
import Leviathan.Streams.StreamBuffer

/-!
# Runs of a stream buffer

`Delivers` says of a history what a stream promises: every value goes to one consumer, at most
once and in the order of the pushes, none to a subscriber after the close, none is passed over,
and a `hasNext` is answered once and truly.  `Inv` is what one step keeps, when the step is
`Allowed`.
-/

namespace Leviathan.Streams

open List

variable {T : Type}

/-! ## What a history promises -/

def Entry.pushed : Entry T → List T
  | .accepted v => [v]
  | _ => []

def Entry.delivered : Entry T → List T
  | .toHandler _ v | .pulled v | .iterated v => [v]
  | _ => []

/-- What an entry says about the last `hasNext`: it was true, or it is used up. -/
def Entry.grant : Entry T → Option Bool
  | .returned _ v => some v
  | .iterated _ | .nextFailed _ => some false
  | _ => none

/-- The values that were pushed, in their order. -/
def pushes : List (Entry T) → List T
  | [] => []
  | x :: before => pushes before ++ x.pushed

/-- The values that were delivered, in their order. -/
def deliveries : List (Entry T) → List T
  | [] => []
  | x :: before => deliveries before ++ x.delivered

/-- The last `hasNext` was true, and there was no `next` behind it. -/
def granted : List (Entry T) → Bool
  | [] => false
  | x :: before => x.grant.getD (granted before)

/-- The value is the first one that is not delivered. -/
def NextInOrder (before : List (Entry T)) (v : T) : Prop :=
  ∃ rest, pushes before = deliveries before ++ v :: rest

/-- What an entry promises, given the entries before it. -/
def Promise (before : List (Entry T)) : Entry T → Prop
  | .toHandler cb v =>
    NextInOrder before v ∧ .subscribed cb ∈ before ∧ .claimed ∉ before ∧ .closed ∉ before
  | .pulled v => NextInOrder before v ∧ (∀ cb, .subscribed cb ∉ before) ∧ .claimed ∉ before
  | .iterated v => NextInOrder before v ∧ (∀ cb, .subscribed cb ∉ before) ∧ .claimed ∈ before
  | .resolved p v =>
    .asked p ∈ before ∧ (∀ v', .resolved p v' ∉ before) ∧
      (v = true ↔ deliveries before ≠ pushes before) ∧ (v = false → .closed ∈ before)
  | .nextFailed _ => granted before = false
  | .drained => deliveries before = pushes before
  | .closed => (∃ cb, .subscribed cb ∈ before) → deliveries before = pushes before
  | _ => True

/-- **What a stream promises.** -/
structure Delivers (log : List (Entry T)) : Prop where
  entries : History.Past Promise log
  parked : ∀ p, .asked p ∈ log → (∃ v, .resolved p v ∈ log) ∨
    (.closed ∉ log ∧ deliveries log = pushes log)
  subscriber : .drained ∈ log → deliveries log = pushes log

/-- What keeps the promises: the subscriber has no backlog when a value is pushed, nor when the
loop of `setHandler` is running and the stream is closed or the callback throws; and there is one
`hasNext` at a time, and no `next` before it has returned. -/
def Allowed (w : World T) : Event T → Prop
  | .push _ => w.buf.hasHandler = true → w.buf.items = []
  | .close => w.draining ≠ none → w.buf.items = []
  | .drainThrow => w.buf.items = []
  | .hasNext | .next => w.buf.waiters = [] ∧ w.answered = []
  | _ => True

/-! ## The invariant -/

/-- What every step keeps. -/
structure Inv (w : World T) : Prop where
  kept : pushes w.log = deliveries w.log ++ w.buf.items
  entries : History.Past Promise w.log
  closed_iff : w.buf.closed = true ↔ .closed ∈ w.log
  claimed_iff : w.buf.claimed = true ↔ .claimed ∈ w.log
  held : w.buf.hasHandler = true →
    .subscribed w.buf.handler ∈ w.log ∧ w.buf.claimed = false ∧ w.buf.closed = false
  taken : ∀ cb, .subscribed cb ∈ w.log → w.buf.hasHandler = true ∨ w.buf.closed = true
  subscriber : ∀ cb, .subscribed cb ∈ w.log →
    w.buf.items = [] ∨ (w.draining = some w.buf.handler ∧ w.buf.hasHandler = true)
  draining : ∀ cb, w.draining = some cb → .subscribed cb ∈ w.log
  drained : .drained ∈ w.log → w.draining = none ∧ ∃ cb, .subscribed cb ∈ w.log
  parked : ∀ p ∈ w.buf.waiters, .asked p ∈ w.log ∧ ∀ v, .resolved p v ∉ w.log
  distinct : w.buf.waiters.Nodup
  waiting : w.buf.waiters ≠ [] →
    w.buf.items = [] ∧ w.buf.closed = false ∧ w.buf.claimed = true
  asked : ∀ p, .asked p ∈ w.log → p < w.promises ∧ (p ∈ w.buf.waiters ∨ ∃ v, .resolved p v ∈ w.log)
  single : w.buf.waiters.length + w.answered.length ≤ 1
  grants : (∃ p, (p, true) ∈ w.answered) ∨ granted w.log = true →
    w.buf.items ≠ [] ∧ w.buf.claimed = true

theorem Inv.delivers {w : World T} (h : Inv w) : Delivers w.log := by
  refine ⟨h.entries, fun p hp => ?_, fun hd => ?_⟩
  · obtain ⟨_, hparked | hresolved⟩ := h.asked p hp
    · have hne : w.buf.waiters ≠ [] := ne_nil_of_mem hparked
      obtain ⟨hitems, hopen, _⟩ := h.waiting hne
      refine .inr ⟨fun hclosed => ?_, ?_⟩
      · rw [h.closed_iff.mpr hclosed] at hopen
        cases hopen
      · rw [h.kept, hitems, append_nil]
    · exact .inl hresolved
  · obtain ⟨hnone, cb, hcb⟩ := h.drained hd
    obtain hitems | ⟨hsome, _⟩ := h.subscriber cb hcb
    · rw [h.kept, hitems, append_nil]
    · rw [hnone] at hsome
      cases hsome

theorem inv_start : Inv ({} : World T) where
  kept := rfl
  entries := trivial
  closed_iff := ⟨fun h => (nomatch h), fun h => (nomatch h)⟩
  claimed_iff := ⟨fun h => (nomatch h), fun h => (nomatch h)⟩
  held := fun h => (nomatch h)
  taken := fun _ h => (nomatch h)
  subscriber := fun _ _ => .inl rfl
  draining := fun _ h => (nomatch h)
  drained := fun h => (nomatch h)
  parked := fun _ h => (nomatch h)
  distinct := nodup_nil
  waiting := fun h => absurd rfl h
  asked := fun _ h => (nomatch h)
  single := Nat.zero_le 1
  grants := fun h => by
    obtain ⟨_, h⟩ | h := h
    · exact absurd h not_mem_nil
    · cases h

/-! ## Notes in the history -/

variable {v : Bool} {rest : List T} {y : Entry T} {p : Nat} {w' : World T}

section Notes

variable {w : World T} {log : List (Entry T)} {x : Entry T}

@[simp] theorem pushes_cons (x : Entry T) (log : List (Entry T)) :
    pushes (x :: log) = pushes log ++ x.pushed := rfl

@[simp] theorem deliveries_cons (x : Entry T) (log : List (Entry T)) :
    deliveries (x :: log) = deliveries log ++ x.delivered := rfl

theorem nextInOrder_of_kept {v : T} (h : pushes log = deliveries log ++ v :: rest) :
    NextInOrder log v := ⟨rest, h⟩

theorem mem_note (hy : y ≠ x) : y ∈ x :: log ↔ y ∈ log := by
  rw [mem_cons]
  exact ⟨fun hin => hin.resolve_left hy, .inr⟩

/-- A note of no value leaves the backlog. -/
theorem Inv.kept_note (h : Inv w) (hpushed : x.pushed = []) (hdelivered : x.delivered = []) :
    pushes (x :: w.log) = deliveries (x :: w.log) ++ w.buf.items := by
  rw [pushes_cons, deliveries_cons, hpushed, hdelivered, append_nil, append_nil, h.kept]

/-- The parked promises are open behind a note that answers none. -/
theorem Inv.parked_note (h : Inv w) (hx : ∀ p v, .resolved p v ≠ x) (p : Nat)
    (hp : p ∈ w.buf.waiters) : .asked p ∈ x :: w.log ∧ ∀ v, .resolved p v ∉ x :: w.log := by
  obtain ⟨hasked, hopen⟩ := h.parked p hp
  exact ⟨mem_cons_of_mem _ hasked, fun v hv => hopen v ((mem_note (hx p v)).mp hv)⟩

/-- What was asked for is parked or answered behind a note that asks for nothing. -/
theorem Inv.asked_note (h : Inv w) (hx : ∀ p, .asked p ≠ x) (p : Nat)
    (hp : .asked p ∈ x :: w.log) :
    p < w.promises ∧ (p ∈ w.buf.waiters ∨ ∃ v, .resolved p v ∈ x :: w.log) := by
  obtain ⟨hlt, hstate⟩ := h.asked p ((mem_note (hx p)).mp hp)
  exact ⟨hlt, hstate.imp_right (Exists.imp fun _ => mem_cons_of_mem _)⟩

/-- Nobody has subscribed while the end is free and the stream is open, or values are left. -/
theorem Inv.not_subscribed (h : Inv w) (hfree : w.buf.hasHandler = false)
    (hitems : w.buf.items ≠ []) (cb : Nat) : .subscribed cb ∉ w.log := by
  intro hcb
  obtain hempty | ⟨_, hheld⟩ := h.subscriber cb hcb
  · exact hitems hempty
  · rw [hfree] at hheld
    cases hheld

theorem Inv.not_claimed (h : Inv w) (hclaimed : w.buf.claimed = false) : .claimed ∉ w.log := by
  intro hmem
  rw [h.claimed_iff.mpr hmem] at hclaimed
  cases hclaimed

theorem Inv.not_closed (h : Inv w) (hclosed : w.buf.closed = false) : .closed ∉ w.log := by
  intro hmem
  rw [h.closed_iff.mpr hmem] at hclosed
  cases hclosed

/-- An entry that tells nothing about who consumes, nor about a `hasNext`. -/
def Entry.Silent : Entry T → Prop
  | .subscribed _ | .drained | .claimed | .asked _ | .resolved _ _ | .closed => False
  | _ => True

/-- Silent entries do not change what the others tell. -/
theorem mem_silent {xs : List (Entry T)} (hxs : ∀ x ∈ xs, x.Silent) (hy : ¬y.Silent) :
    y ∈ xs ++ log ↔ y ∈ log := by
  rw [mem_append]
  exact ⟨fun h => h.resolve_left fun hmem => hy (hxs y hmem), .inr⟩

/-- **Values are pushed or delivered**, or a `hasNext` returns: only the backlog, the answers and
the history change. -/
theorem Inv.silent (h : Inv w) (xs : List (Entry T)) (hxs : ∀ x ∈ xs, x.Silent) (items : List T)
    (answered : List (Nat × Bool)) (hentries : History.Past Promise (xs ++ w.log))
    (hkept : pushes (xs ++ w.log) = deliveries (xs ++ w.log) ++ items)
    (hless : w.buf.items = [] → items = [])
    (hsingle : answered.length ≤ w.answered.length)
    (hgrants : (∃ p, (p, true) ∈ answered) ∨ granted (xs ++ w.log) = true →
      items ≠ [] ∧ w.buf.claimed = true) :
    Inv { w with
      buf := { w.buf with items := items }, answered := answered, log := xs ++ w.log } where
  kept := hkept
  entries := hentries
  closed_iff := h.closed_iff.trans (mem_silent hxs id).symm
  claimed_iff := h.claimed_iff.trans (mem_silent hxs id).symm
  held := fun hheld => by
    obtain ⟨hsub, hrest⟩ := h.held hheld
    exact ⟨(mem_silent hxs id).mpr hsub, hrest⟩
  taken := fun cb hcb => h.taken cb ((mem_silent hxs id).mp hcb)
  subscriber := fun cb hcb => (h.subscriber cb ((mem_silent hxs id).mp hcb)).imp_left hless
  draining := fun cb hcb => (mem_silent hxs id).mpr (h.draining cb hcb)
  drained := fun hd => by
    obtain ⟨hnone, cb, hcb⟩ := h.drained ((mem_silent hxs id).mp hd)
    exact ⟨hnone, cb, (mem_silent hxs id).mpr hcb⟩
  parked := fun p hp => by
    obtain ⟨hasked, hopen⟩ := h.parked p hp
    exact ⟨(mem_silent hxs id).mpr hasked, fun v hv => hopen v ((mem_silent hxs id).mp hv)⟩
  distinct := h.distinct
  waiting := fun hne => (h.waiting hne).imp_left hless
  asked := fun p hp => by
    obtain ⟨hlt, hstate⟩ := h.asked p ((mem_silent hxs id).mp hp)
    exact ⟨hlt, hstate.imp_right fun ⟨v, hv⟩ => ⟨v, (mem_silent hxs id).mpr hv⟩⟩
  single := by
    have hsingle' := h.single
    show w.buf.waiters.length + answered.length ≤ 1
    omega
  grants := hgrants

/-- A call that throws changes nothing. -/
theorem Inv.raised (h : Inv w) {x : Entry T} (hx : x.Silent) (hpushed : x.pushed = [])
    (hdelivered : x.delivered = []) (hgrant : granted (x :: w.log) = true → granted w.log = true)
    (hpromise : Promise w.log x) : Inv (w.note x) := by
  refine h.silent [x] (fun y hy => ?_) w.buf.items w.answered ⟨hpromise, h.entries⟩ ?_ id
    (Nat.le_refl _) fun hg => h.grants (hg.imp_right hgrant)
  · rw [List.mem_singleton.mp hy]
    exact hx
  · exact h.kept_note hpushed hdelivered

/-- The first value of the backlog goes to a consumer. -/
theorem Inv.deliver (h : Inv w) {x : Entry T} {v : T} (hx : x.Silent)
    (hitems : w.buf.items = v :: rest) (hpushed : x.pushed = []) (hdelivered : x.delivered = [v])
    (hpromise : NextInOrder w.log v → Promise w.log x)
    (hgrants : (∃ p, (p, true) ∈ w.answered) ∨ granted (x :: w.log) = true → False) :
    Inv ({ w with buf := { w.buf with items := rest } }.note x) := by
  have horder : NextInOrder w.log v := nextInOrder_of_kept (by rw [h.kept, hitems])
  refine h.silent [x] (fun y hy => ?_) rest w.answered ⟨hpromise horder, h.entries⟩ ?_
    (fun hempty => ?_) (Nat.le_refl _) fun hg => (hgrants hg).elim
  · rw [List.mem_singleton.mp hy]
    exact hx
  · show pushes w.log ++ x.pushed = deliveries w.log ++ x.delivered ++ rest
    rw [hpushed, hdelivered, append_nil, h.kept, hitems, append_assoc]
    rfl
  · rw [hitems] at hempty
    cases hempty

/-! ## The steps -/

/-- A subscriber and a true `hasNext` exclude each other. -/
theorem Inv.no_grant (h : Inv w) (hheld : w.buf.claimed = false) :
    ¬((∃ p, (p, true) ∈ w.answered) ∨ granted w.log = true) := by
  intro hg
  rw [(h.grants hg).2] at hheld
  cases hheld

/-- The answers of some promises, in the history. -/
def answers (ps : List Nat) (v : Bool) : List (Entry T) :=
  (ps.map fun p => Entry.resolved p v).reverse

theorem mem_answers {ps : List Nat} (hy : ∀ p v', y ≠ .resolved p v') :
    y ∈ answers ps v ++ log ↔ y ∈ log := by
  rw [mem_append]
  refine ⟨fun h => h.resolve_left fun hmem => ?_, .inr⟩
  obtain ⟨p, _, hp⟩ := List.mem_map.mp (List.mem_reverse.mp hmem)
  exact hy p v hp.symm

theorem resolved_mem_answers {ps : List Nat} {v' : Bool} :
    Entry.resolved p v' ∈ answers ps v ++ log ↔ (p ∈ ps ∧ v' = v) ∨ Entry.resolved p v' ∈ log := by
  simp only [answers, mem_append, mem_reverse, mem_map, Entry.resolved.injEq]
  constructor
  · intro h
    exact h.imp_left fun ⟨q, hq, hqp, hv⟩ => ⟨hqp ▸ hq, hv.symm⟩
  · intro h
    exact h.imp_left fun ⟨hq, hv⟩ => ⟨p, hq, rfl, hv.symm⟩

theorem answers_cons (p : Nat) (ps : List Nat) (v : Bool) :
    (answers (p :: ps) v : List (Entry T)) ++ log = answers ps v ++ .resolved p v :: log := by
  rw [answers, answers, map_cons, reverse_cons, append_assoc]
  rfl

theorem answers_silent (ps : List Nat) (v : Bool) (log : List (Entry T)) :
    pushes (answers ps v ++ log) = pushes log ∧
      deliveries (answers ps v ++ log) = deliveries log ∧
      granted (answers ps v ++ log) = granted log := by
  induction ps generalizing log with
  | nil => exact ⟨rfl, rfl, rfl⟩
  | cons p ps ih =>
    rw [answers_cons]
    obtain ⟨hpushes, hdeliveries, hgranted⟩ := ih (.resolved p v :: log)
    exact ⟨hpushes.trans (append_nil _), hdeliveries.trans (append_nil _), hgranted⟩

/-- **Parked promises are answered.** -/
theorem past_answers (hentries : History.Past Promise log) (ps : List Nat) (hnodup : ps.Nodup)
    (hparked : ∀ p ∈ ps, .asked p ∈ log ∧ ∀ v', .resolved p v' ∉ log)
    (htrue : v = true ↔ deliveries log ≠ pushes log) (hfalse : v = false → .closed ∈ log) :
    History.Past Promise (answers ps v ++ log) := by
  induction ps generalizing log with
  | nil => exact hentries
  | cons p ps ih =>
    obtain ⟨hasked, hopen⟩ := hparked p mem_cons_self
    obtain ⟨hnew, hnodup'⟩ := List.nodup_cons.mp hnodup
    rw [answers_cons]
    refine ih ⟨⟨hasked, hopen, htrue, hfalse⟩, hentries⟩ hnodup' (fun q hq => ?_) ?_ fun hv => ?_
    · obtain ⟨hasked', hopen'⟩ := hparked q (mem_cons_of_mem p hq)
      refine ⟨mem_cons_of_mem _ hasked', fun v' hv' => ?_⟩
      obtain hv' | hv' := List.mem_cons.mp hv'
      · rw [Entry.resolved.injEq] at hv'
        rw [hv'.1] at hq
        exact hnew hq
      · exact hopen' v' hv'
    · rw [htrue]
      show _ ↔ deliveries log ++ [] ≠ pushes log ++ []
      rw [append_nil, append_nil]
    · exact mem_cons_of_mem _ (hfalse hv)

theorem resolve_wake (w : World T) (ps : List Nat) (v : Bool) :
    w.resolve (ps.map fun p => (p, v)) =
      { w with answered := w.answered ++ ps.map fun p => (p, v), log := answers ps v ++ w.log } := by
  rw [World.resolve, answers, map_map]
  rfl

theorem Inv.push (h : Inv w) {v : T} (hallowed : Allowed w (.push v))
    (hstep : w.step (.push v) = some w') : Inv w' := by
  rw [World.step, StreamBuffer.push] at hstep
  by_cases hclosed : w.buf.closed = true
  · rw [if_pos hclosed] at hstep
    cases hstep
    exact h.raised trivial rfl rfl id trivial
  · rw [if_neg hclosed] at hstep
    rw [Bool.not_eq_true] at hclosed
    by_cases hheld : w.buf.hasHandler = true
    · -- the value goes to the subscriber at once
      rw [if_pos hheld] at hstep
      cases hstep
      obtain ⟨hsub, hclaimed, _⟩ := h.held hheld
      have hitems := hallowed hheld
      have hkept := h.kept
      rw [hitems, append_nil] at hkept
      refine h.silent [.toHandler w.buf.handler v, .accepted v] (fun y hy => ?_) w.buf.items
        w.answered ⟨⟨⟨[], ?_⟩, ?_, ?_, ?_⟩, trivial, h.entries⟩ ?_ id (Nat.le_refl _)
        fun hg => (h.no_grant hclaimed hg).elim
      · obtain hy | hy := List.mem_pair.mp hy
        · rw [hy]
          trivial
        · rw [hy]
          trivial
      · show pushes w.log ++ [v] = (deliveries w.log ++ []) ++ [v]
        rw [hkept, append_nil]
      · exact mem_cons_of_mem _ hsub
      · intro hmem
        exact h.not_claimed hclaimed ((List.mem_cons.mp hmem).resolve_left (by simp))
      · intro hmem
        exact h.not_closed hclosed ((List.mem_cons.mp hmem).resolve_left (by simp))
      · show (pushes w.log ++ [v]) ++ [] = ((deliveries w.log ++ []) ++ [v]) ++ w.buf.items
        rw [hkept, hitems, append_nil]
        simp only [append_nil]
    · -- the value waits in the buffer, and a parked `hasNext` is answered
      rw [if_neg hheld] at hstep
      have hw' : w' = (({ w with
          buf := { w.buf with items := w.buf.items ++ [v], waiters := [] } } : World T).note
            (.accepted v)).resolve (w.buf.waiters.map fun p => (p, true)) := by
        cases hstep
        rfl
      rw [hw', resolve_wake]
      have hfree : ∀ cb, .subscribed cb ∉ w.log := fun cb hcb => by
        obtain hcb | hcb := h.taken cb hcb
        · exact hheld hcb
        · rw [hclosed] at hcb
          cases hcb
      have hmem : ∀ {y : Entry T}, (∀ p v', y ≠ .resolved p v') → y ≠ .accepted v →
          (y ∈ answers w.buf.waiters true ++ .accepted v :: w.log ↔ y ∈ w.log) := by
        intro y hy hne
        rw [mem_answers hy, mem_note hne]
      obtain ⟨hpushes, hdeliveries, hgranted⟩ :=
        answers_silent w.buf.waiters true (.accepted v :: w.log)
      have hentries : History.Past Promise (.accepted v :: w.log) := ⟨trivial, h.entries⟩
      have hdiff : deliveries (.accepted v :: w.log) ≠ pushes (.accepted v :: w.log) := by
        intro heq
        have hlength := congrArg List.length heq
        rw [pushes_cons, deliveries_cons, h.kept] at hlength
        simp only [Entry.pushed, Entry.delivered, length_append, length_nil,
          length_singleton] at hlength
        omega
      exact {
        kept := by
          rw [World.note, hpushes, hdeliveries, pushes_cons, deliveries_cons, h.kept]
          simp [Entry.pushed, Entry.delivered]
        entries := past_answers hentries _ h.distinct
          (h.parked_note (by simp)) ⟨fun _ => hdiff, fun _ => rfl⟩ (fun hfalse => by cases hfalse)
        closed_iff := h.closed_iff.trans (hmem (by simp) (by simp)).symm
        claimed_iff := h.claimed_iff.trans (hmem (by simp) (by simp)).symm
        held := fun hheld' => (hheld hheld').elim
        taken := fun cb hcb => (hfree cb ((hmem (by simp) (by simp)).mp hcb)).elim
        subscriber := fun cb hcb => (hfree cb ((hmem (by simp) (by simp)).mp hcb)).elim
        draining := fun cb hcb => (hfree cb (h.draining cb hcb)).elim
        drained := fun hd => by
          obtain ⟨_, cb, hcb⟩ := h.drained ((hmem (by simp) (by simp)).mp hd)
          exact (hfree cb hcb).elim
        parked := fun p hp => absurd hp not_mem_nil
        distinct := nodup_nil
        waiting := fun hne => absurd rfl hne
        asked := fun p hp => by
          obtain ⟨hlt, hstate⟩ := h.asked p ((hmem (by simp) (by simp)).mp hp)
          refine ⟨hlt, .inr ?_⟩
          obtain hparked | ⟨v', hv'⟩ := hstate
          · exact ⟨true, resolved_mem_answers.mpr (.inl ⟨hparked, rfl⟩)⟩
          · exact ⟨v', resolved_mem_answers.mpr (.inr (mem_cons_of_mem _ hv'))⟩
        single := by
          have hsingle := h.single
          show 0 + (w.answered ++ w.buf.waiters.map fun p => (p, true)).length ≤ 1
          rw [length_append, length_map]
          omega
        grants := fun hg => by
          refine ⟨fun hnil => absurd (List.append_eq_nil_iff.mp hnil).2 (cons_ne_nil _ _), ?_⟩
          show w.buf.claimed = true
          obtain ⟨p, hp⟩ | hg := hg
          · obtain hp | hp := List.mem_append.mp hp
            · exact (h.grants (.inl ⟨p, hp⟩)).2
            · obtain ⟨q, hq, _⟩ := List.mem_map.mp hp
              exact (h.waiting (ne_nil_of_mem hq)).2.2
          · exact (h.grants (.inr (hgranted.symm.trans hg))).2 }

/-- The loop of `setHandler` goes on, or ends. -/
theorem Inv.drainStep (h : Inv w) {cb : Nat} (hcb : w.draining = some cb) : Inv (w.drainStep cb) := by
  have hsub := h.draining cb hcb
  rw [World.drainStep, StreamBuffer.drain]
  cases hitems : w.buf.items with
  | nil =>
    have hkept := h.kept
    rw [hitems, append_nil] at hkept
    exact {
      kept := h.kept_note rfl rfl
      entries := ⟨hkept.symm, h.entries⟩
      closed_iff := h.closed_iff.trans (mem_note (by simp)).symm
      claimed_iff := h.claimed_iff.trans (mem_note (by simp)).symm
      held := fun hheld => (h.held hheld).imp_left (mem_cons_of_mem _)
      taken := fun cb hcb => h.taken cb ((mem_note (by simp)).mp hcb)
      subscriber := fun _ _ => .inl hitems
      draining := fun _ h => (nomatch h)
      drained := fun _ => ⟨rfl, cb, mem_cons_of_mem _ hsub⟩
      parked := h.parked_note (by simp)
      distinct := h.distinct
      waiting := h.waiting
      asked := h.asked_note (by simp)
      single := h.single
      grants := h.grants }
  | cons v rest =>
    obtain hnil | ⟨hdraining, hheld⟩ := h.subscriber cb hsub
    · rw [hitems] at hnil
      cases hnil
    obtain ⟨_, hclaimed, hclosed⟩ := h.held hheld
    have hdeliver := h.deliver (x := .toHandler cb v) trivial hitems rfl rfl
      (fun horder => ⟨horder, hsub, h.not_claimed hclaimed, h.not_closed hclosed⟩)
      (h.no_grant hclaimed)
    have hsame : ({ w with buf := { w.buf with items := rest }, draining := some cb } : World T) =
        { w with buf := { w.buf with items := rest } } := by
      rw [← hcb]
    show Inv (World.note { w with buf := { w.buf with items := rest }, draining := some cb } _)
    rw [hsame]
    exact hdeliver

theorem Inv.subscribe (h : Inv w) {cb : Nat} (hstep : w.step (.subscribe cb) = some w') :
    Inv w' := by
  rw [World.step, StreamBuffer.setHandler] at hstep
  split_ifs at hstep with hclosed hheld hclaimed
  · cases hstep
    exact h.raised trivial rfl rfl id trivial
  · cases hstep
    exact h.raised trivial rfl rfl id trivial
  · cases hstep
    exact h.raised trivial rfl rfl id trivial
  rw [Bool.not_eq_true] at hclaimed hclosed
  have hfree : ∀ cb, .subscribed cb ∉ w.log := fun cb hcb => by
    obtain hcb | hcb := h.taken cb hcb
    · exact hheld hcb
    · rw [hclosed] at hcb
      cases hcb
  have hcb : Entry.subscribed cb ∈ Entry.subscribed cb :: w.log := mem_cons_self
  have htaken : Inv (World.note { w with
      buf := { w.buf with handler := cb, hasHandler := true }, draining := some cb }
      (.subscribed cb)) := {
    kept := h.kept_note rfl rfl
    entries := ⟨trivial, h.entries⟩
    closed_iff := h.closed_iff.trans (mem_note (by simp)).symm
    claimed_iff := h.claimed_iff.trans (mem_note (by simp)).symm
    held := fun _ => ⟨hcb, hclaimed, hclosed⟩
    taken := fun _ _ => .inl rfl
    subscriber := fun _ _ => .inr ⟨rfl, rfl⟩
    draining := fun cb' hcb' => by
      rw [← Option.some.inj hcb']
      exact hcb
    drained := fun hd => by
      obtain ⟨_, cb', hcb'⟩ := h.drained ((mem_note (by simp)).mp hd)
      exact (hfree cb' hcb').elim
    parked := h.parked_note (by simp)
    distinct := h.distinct
    waiting := h.waiting
    asked := h.asked_note (by simp)
    single := h.single
    grants := h.grants }
  have hdrain := htaken.drainStep rfl
  cases hstep
  exact hdrain

theorem Inv.drainThrow (h : Inv w) (hallowed : Allowed w .drainThrow)
    (hstep : w.step .drainThrow = some w') : Inv w' := by
  rw [World.step] at hstep
  split at hstep
  · cases hstep
  · cases hstep
    exact { h with
      subscriber := fun _ _ => .inl hallowed
      draining := fun _ h => (nomatch h)
      drained := fun hd => ⟨rfl, (h.drained hd).2⟩ }

/-- A synchronous read takes the first value. -/
theorem Inv.pulled (h : Inv w) {v : T} (hheld : w.buf.hasHandler = false)
    (hclaimed : w.buf.claimed = false) (hitems : w.buf.items = v :: rest) :
    Inv ({ w with buf := { w.buf with items := rest } }.note (.pulled v)) :=
  h.deliver trivial hitems rfl rfl
    (fun horder => ⟨horder, h.not_subscribed hheld (hitems ▸ cons_ne_nil _ _),
      h.not_claimed hclaimed⟩) (h.no_grant hclaimed)

theorem Inv.pull (h : Inv w) (hstep : w.step .pull = some w') : Inv w' := by
  rw [World.step, StreamBuffer.pull] at hstep
  split_ifs at hstep with hheld hclaimed hclosed
  · cases hstep
    exact h.raised trivial rfl rfl id trivial
  · cases hstep
    exact h.raised trivial rfl rfl id trivial
  · cases hstep
    exact h.raised trivial rfl rfl id trivial
  rw [Bool.not_eq_true] at hclaimed hheld
  cases hitems : w.buf.items with
  | nil =>
    rw [hitems] at hstep
    cases hstep
    exact h.raised trivial rfl rfl id trivial
  | cons v rest =>
    rw [hitems] at hstep
    cases hstep
    exact h.pulled hheld hclaimed hitems

theorem Inv.pullOrNone (h : Inv w) (hstep : w.step .pullOrNone = some w') : Inv w' := by
  rw [World.step, StreamBuffer.pullOrNone] at hstep
  split_ifs at hstep with hheld hclaimed
  · cases hstep
    exact h.raised trivial rfl rfl id trivial
  · cases hstep
    exact h.raised trivial rfl rfl id trivial
  rw [Bool.not_eq_true] at hclaimed hheld
  cases hitems : w.buf.items with
  | nil =>
    rw [hitems] at hstep
    cases hstep
    exact h
  | cons v rest =>
    rw [hitems] at hstep
    cases hstep
    exact h.pulled hheld hclaimed hitems

theorem Inv.next (h : Inv w) (hallowed : Allowed w .next) (hstep : w.step .next = some w') :
    Inv w' := by
  rw [World.step] at hstep
  by_cases hclaimed : w.buf.claimed = true
  · rw [if_pos hclaimed, StreamBuffer.pullRaw] at hstep
    have hfree : w.buf.hasHandler = false := by
      cases hheld : w.buf.hasHandler with
      | false => rfl
      | true =>
        rw [(h.held hheld).2.1] at hclaimed
        cases hclaimed
    cases hitems : w.buf.items with
    | nil =>
      have hgranted : granted w.log = false := by
        cases hg : granted w.log with
        | false => rfl
        | true => exact absurd hitems (h.grants (.inr hg)).1
      have hfailed : ∀ text, Inv (w.note (.nextFailed text)) := fun text =>
        h.raised trivial rfl rfl (fun hg => (nomatch hg)) hgranted
      rw [hitems] at hstep
      cases hclosed : w.buf.closed with
      | true =>
        rw [hclosed] at hstep
        cases hstep
        exact hfailed _
      | false =>
        rw [hclosed] at hstep
        cases hstep
        exact hfailed _
    | cons v rest =>
      rw [hitems] at hstep
      cases hstep
      refine h.deliver trivial hitems rfl rfl
        (fun horder => ⟨horder, h.not_subscribed hfree (hitems ▸ cons_ne_nil _ _),
          h.claimed_iff.mp hclaimed⟩) fun hg => ?_
      obtain ⟨p, hp⟩ | hg := hg
      · rw [hallowed.2] at hp
        exact absurd hp not_mem_nil
      · cases hg
  · rw [if_neg hclaimed] at hstep
    cases hstep

theorem Inv.iterator (h : Inv w) (hstep : w.step .iterator = some w') : Inv w' := by
  rw [World.step, StreamBuffer.claimIterator] at hstep
  split_ifs at hstep with hheld hclaimed
  · cases hstep
    exact h.raised trivial rfl rfl id trivial
  · cases hstep
    exact h.raised trivial rfl rfl id trivial
  cases hstep
  exact {
    kept := h.kept_note rfl rfl
    entries := ⟨trivial, h.entries⟩
    closed_iff := h.closed_iff.trans (mem_note (by simp)).symm
    claimed_iff := ⟨fun _ => mem_cons_self, fun _ => rfl⟩
    held := fun hheld' => absurd hheld' hheld
    taken := fun cb hcb => h.taken cb ((mem_note (by simp)).mp hcb)
    subscriber := fun cb hcb => h.subscriber cb ((mem_note (by simp)).mp hcb)
    draining := fun cb hcb => mem_cons_of_mem _ (h.draining cb hcb)
    drained := fun hd => by
      obtain ⟨hnone, cb, hcb⟩ := h.drained ((mem_note (by simp)).mp hd)
      exact ⟨hnone, cb, mem_cons_of_mem _ hcb⟩
    parked := h.parked_note (by simp)
    distinct := h.distinct
    waiting := fun hne => absurd (h.waiting hne).2.2 hclaimed
    asked := h.asked_note (by simp)
    single := h.single
    grants := fun hg => absurd (h.grants hg).2 hclaimed }

theorem mem_of_lookup {l : List (Nat × Bool)} (h : l.lookup p = some v) : (p, v) ∈ l := by
  obtain ⟨l₁, l₂, hl, _⟩ := List.lookup_eq_some_iff.mp h
  rw [hl]
  exact mem_append_right _ mem_cons_self

theorem Inv.resume (h : Inv w) (hstep : w.step (.resume p) = some w') : Inv w' := by
  rw [World.step] at hstep
  cases hlookup : w.answered.lookup p with
  | none =>
    rw [hlookup] at hstep
    cases hstep
  | some v =>
    rw [hlookup] at hstep
    cases hstep
    have hmem : (p, v) ∈ w.answered := mem_of_lookup hlookup
    refine h.silent [.returned p v] (fun y hy => ?_) w.buf.items _
      ⟨trivial, h.entries⟩ ?_ id (length_filter_le _ _) fun hg => h.grants ?_
    · rw [List.mem_singleton.mp hy]
      trivial
    · exact h.kept_note rfl rfl
    · obtain ⟨q, hq⟩ | hg := hg
      · exact .inl ⟨q, mem_of_mem_filter hq⟩
      · have hv : v = true := hg
        rw [hv] at hmem
        exact .inl ⟨p, hmem⟩

/-- What is answered was asked. -/
theorem Inv.resolved_asked (h : Inv w) (hp : .resolved p v ∈ w.log) : .asked p ∈ w.log := by
  obtain ⟨later, before, hlog⟩ := append_of_mem hp
  have hbefore := (h.entries.entry hlog).1
  rw [hlog]
  exact mem_append_right _ (mem_cons_of_mem _ hbefore)

/-- A new promise is asked for. -/
theorem Inv.asked_cons (h : Inv w) (hp : Entry.asked p ∈ .asked w.promises :: w.log) :
    p = w.promises ∨ (p < w.promises ∧ (p ∈ w.buf.waiters ∨ ∃ v, .resolved p v ∈ w.log)) := by
  obtain hp | hp := List.mem_cons.mp hp
  · rw [Entry.asked.injEq] at hp
    exact .inl hp
  · exact .inr (h.asked p hp)

/-- A `hasNext` that is answered at once. -/
theorem Inv.answered (h : Inv w) (hwaiters : w.buf.waiters = []) (hanswered : w.answered = [])
    (hclaimed : w.buf.claimed = true) (htrue : v = true ↔ w.buf.items ≠ [])
    (hfalse : v = false → w.buf.closed = true) :
    Inv (World.resolve (World.note { w with promises := w.promises + 1 } (.asked w.promises))
      [(w.promises, v)]) := by
  have hnew : ∀ v', .resolved w.promises v' ∉ w.log := fun v' hv' =>
    Nat.lt_irrefl _ (h.asked _ (h.resolved_asked hv')).1
  have hmem : ∀ {y : Entry T}, (∀ p, y ≠ .asked p) → (∀ p v', y ≠ .resolved p v') →
      (y ∈ .resolved w.promises v :: .asked w.promises :: w.log ↔ y ∈ w.log) := by
    intro y hy hy'
    rw [mem_cons, mem_cons]
    exact ⟨fun hin => (hin.resolve_left (hy' _ _)).resolve_left (hy _), fun hin => .inr (.inr hin)⟩
  have hbacklog : v = true ↔
      deliveries (.asked w.promises :: w.log) ≠ pushes (.asked w.promises :: w.log) := by
    rw [htrue]
    show _ ↔ deliveries w.log ++ [] ≠ pushes w.log ++ []
    rw [append_nil, append_nil, h.kept, ne_eq, ne_eq, self_eq_append_right]
  have hresolved : ∀ {p v'}, Entry.resolved p v' ∈ w.log →
      Entry.resolved p v' ∈ .resolved w.promises v :: .asked w.promises :: w.log :=
    fun hin => mem_cons_of_mem _ (mem_cons_of_mem _ hin)
  exact {
    kept := by
      show ((pushes w.log ++ []) ++ []) = ((deliveries w.log ++ []) ++ []) ++ w.buf.items
      simp only [append_nil]
      exact h.kept
    entries := by
      refine ⟨⟨mem_cons_self, fun v' hv' => ?_, hbacklog, fun hv => ?_⟩, trivial, h.entries⟩
      · exact hnew v' ((List.mem_cons.mp hv').resolve_left (by simp))
      · exact mem_cons_of_mem _ (h.closed_iff.mp (hfalse hv))
    closed_iff := h.closed_iff.trans (hmem (by simp) (by simp)).symm
    claimed_iff := h.claimed_iff.trans (hmem (by simp) (by simp)).symm
    held := fun hheld => (h.held hheld).imp_left (hmem (by simp) (by simp)).mpr
    taken := fun cb hcb => h.taken cb ((hmem (by simp) (by simp)).mp hcb)
    subscriber := fun cb hcb => h.subscriber cb ((hmem (by simp) (by simp)).mp hcb)
    draining := fun cb hcb => (hmem (by simp) (by simp)).mpr (h.draining cb hcb)
    drained := fun hd => by
      obtain ⟨hnone, cb, hcb⟩ := h.drained ((hmem (by simp) (by simp)).mp hd)
      exact ⟨hnone, cb, (hmem (by simp) (by simp)).mpr hcb⟩
    parked := fun p hp => by
      have hp' : p ∈ w.buf.waiters := hp
      rw [hwaiters] at hp'
      exact absurd hp' not_mem_nil
    distinct := h.distinct
    waiting := fun hne => absurd hwaiters hne
    asked := fun p hp => by
      obtain hp | ⟨hlt, hstate⟩ := h.asked_cons ((List.mem_cons.mp hp).resolve_left (by simp))
      · rw [hp]
        exact ⟨Nat.lt_succ_self _, .inr ⟨v, mem_cons_self⟩⟩
      · exact ⟨Nat.lt_succ_of_lt hlt, hstate.imp_right fun ⟨v', hv'⟩ => ⟨v', hresolved hv'⟩⟩
    single := by
      show w.buf.waiters.length + (w.answered ++ [(w.promises, v)]).length ≤ 1
      rw [hwaiters, hanswered]
      exact Nat.le_refl 1
    grants := fun hg => by
      refine ⟨?_, hclaimed⟩
      obtain ⟨p, hp⟩ | hg := hg
      · have hp' : (p, true) ∈ w.answered ++ [(w.promises, v)] := hp
        rw [hanswered, nil_append, mem_singleton, Prod.mk.injEq] at hp'
        exact htrue.mp hp'.2.symm
      · exact (h.grants (.inr hg)).1 }

/-- A `hasNext` that is parked. -/
theorem Inv.park (h : Inv w) (hwaiters : w.buf.waiters = []) (hanswered : w.answered = [])
    (hclaimed : w.buf.claimed = true) (hitems : w.buf.items = []) (hclosed : w.buf.closed = false) :
    Inv { World.note { w with promises := w.promises + 1 } (.asked w.promises) with
      buf := { w.buf with waiters := w.buf.waiters ++ [w.promises] } } := by
  have hnew : ∀ v', .resolved w.promises v' ∉ w.log := fun v' hv' =>
    Nat.lt_irrefl _ (h.asked _ (h.resolved_asked hv')).1
  have hone : w.buf.waiters ++ [w.promises] = [w.promises] := by rw [hwaiters, nil_append]
  rw [hone]
  exact {
    kept := h.kept_note rfl rfl
    entries := ⟨trivial, h.entries⟩
    closed_iff := h.closed_iff.trans (mem_note (by simp)).symm
    claimed_iff := h.claimed_iff.trans (mem_note (by simp)).symm
    held := fun hheld => (h.held hheld).imp_left (mem_note (by simp)).mpr
    taken := fun cb hcb => h.taken cb ((mem_note (by simp)).mp hcb)
    subscriber := fun cb hcb => h.subscriber cb ((mem_note (by simp)).mp hcb)
    draining := fun cb hcb => (mem_note (by simp)).mpr (h.draining cb hcb)
    drained := fun hd => by
      obtain ⟨hnone, cb, hcb⟩ := h.drained ((mem_note (by simp)).mp hd)
      exact ⟨hnone, cb, (mem_note (by simp)).mpr hcb⟩
    parked := fun p hp => by
      rw [List.mem_singleton.mp hp]
      exact ⟨mem_cons_self, fun v' hv' => hnew v' ((mem_note (by simp)).mp hv')⟩
    distinct := nodup_singleton _
    waiting := fun _ => ⟨hitems, hclosed, hclaimed⟩
    asked := fun p hp => by
      obtain hp | ⟨hlt, hstate⟩ := h.asked_cons hp
      · rw [hp]
        exact ⟨Nat.lt_succ_self _, .inl mem_cons_self⟩
      · refine ⟨Nat.lt_succ_of_lt hlt, .inr ?_⟩
        obtain hparked | ⟨v', hv'⟩ := hstate
        · rw [hwaiters] at hparked
          exact absurd hparked not_mem_nil
        · exact ⟨v', (mem_note (by simp)).mpr hv'⟩
    single := by
      show 1 + w.answered.length ≤ 1
      rw [hanswered]
      exact Nat.le_refl 1
    grants := h.grants }

theorem Inv.hasNext (h : Inv w) (hallowed : Allowed w .hasNext)
    (hstep : w.step .hasNext = some w') : Inv w' := by
  obtain ⟨hwaiters, hanswered⟩ := hallowed
  rw [World.step] at hstep
  by_cases hclaimed : w.buf.claimed = true
  swap
  · rw [if_neg hclaimed] at hstep
    cases hstep
  rw [if_pos hclaimed] at hstep
  have hnote : (World.note { w with promises := w.promises + 1 } (.asked w.promises)).buf = w.buf := rfl
  simp only [hnote, StreamBuffer.waitForData] at hstep
  by_cases hitems : w.buf.items ≠ []
  · rw [if_pos hitems] at hstep
    cases hstep
    exact h.answered hwaiters hanswered hclaimed ⟨fun _ => hitems, fun _ => rfl⟩ fun hv => (nomatch hv)
  rw [if_neg hitems] at hstep
  rw [not_not] at hitems
  by_cases hclosed : w.buf.closed = true
  · rw [if_pos hclosed] at hstep
    cases hstep
    exact h.answered hwaiters hanswered hclaimed
      ⟨fun hv => (nomatch hv), fun hne => absurd hitems hne⟩ fun _ => hclosed
  · rw [if_neg hclosed] at hstep
    cases hstep
    exact h.park hwaiters hanswered hclaimed hitems (Bool.not_eq_true _ ▸ hclosed)

theorem Inv.close (h : Inv w) (hallowed : Allowed w .close) (hstep : w.step .close = some w') :
    Inv w' := by
  have hw' : w' = (({ w with
      buf := { w.buf with closed := true, hasHandler := false, waiters := [] } } : World T).note
        .closed).resolve (w.buf.waiters.map fun p => (p, false)) := by
    cases hstep
    rfl
  rw [hw', resolve_wake]
  have hmem : ∀ {y : Entry T}, (∀ p v', y ≠ .resolved p v') → y ≠ .closed →
      (y ∈ answers w.buf.waiters false ++ .closed :: w.log ↔ y ∈ w.log) := by
    intro y hy hne
    rw [mem_answers hy, mem_note hne]
  obtain ⟨hpushes, hdeliveries, hgranted⟩ := answers_silent w.buf.waiters false (.closed :: w.log)
  have hnobacklog : ∀ cb, .subscribed cb ∈ w.log → w.buf.items = [] := fun cb hcb => by
    obtain hitems | ⟨hdraining, _⟩ := h.subscriber cb hcb
    · exact hitems
    · refine hallowed fun hnone => ?_
      rw [hnone] at hdraining
      cases hdraining
  have hentries : History.Past Promise (.closed :: w.log) := by
    refine ⟨fun hsub => ?_, h.entries⟩
    obtain ⟨cb, hcb⟩ := hsub
    rw [h.kept, hnobacklog cb hcb, append_nil]
  have hitems : w.buf.waiters ≠ [] → deliveries (.closed :: w.log) = pushes (.closed :: w.log) := by
    intro hne
    show deliveries w.log ++ [] = pushes w.log ++ []
    rw [append_nil, append_nil, h.kept, (h.waiting hne).1, append_nil]
  exact {
    kept := by
      rw [World.note, hpushes, hdeliveries]
      exact h.kept_note rfl rfl
    entries := by
      by_cases hne : w.buf.waiters = []
      · rw [hne]
        exact hentries
      · exact past_answers hentries _ h.distinct (h.parked_note (by simp))
          ⟨fun hv => (nomatch hv), fun hd => absurd (hitems hne) hd⟩ fun _ => mem_cons_self
    closed_iff := ⟨fun _ => (mem_answers (by simp)).mpr mem_cons_self, fun _ => rfl⟩
    claimed_iff := h.claimed_iff.trans (hmem (by simp) (by simp)).symm
    held := fun hheld => (nomatch hheld)
    taken := fun _ _ => .inr rfl
    subscriber := fun cb hcb => .inl (hnobacklog cb ((hmem (by simp) (by simp)).mp hcb))
    draining := fun cb hcb => (hmem (by simp) (by simp)).mpr (h.draining cb hcb)
    drained := fun hd => by
      obtain ⟨hnone, cb, hcb⟩ := h.drained ((hmem (by simp) (by simp)).mp hd)
      exact ⟨hnone, cb, (hmem (by simp) (by simp)).mpr hcb⟩
    parked := fun p hp => absurd hp not_mem_nil
    distinct := nodup_nil
    waiting := fun hne => absurd rfl hne
    asked := fun p hp => by
      obtain ⟨hlt, hstate⟩ := h.asked p ((hmem (by simp) (by simp)).mp hp)
      refine ⟨hlt, .inr ?_⟩
      obtain hparked | ⟨v', hv'⟩ := hstate
      · exact ⟨false, resolved_mem_answers.mpr (.inl ⟨hparked, rfl⟩)⟩
      · exact ⟨v', resolved_mem_answers.mpr (.inr (mem_cons_of_mem _ hv'))⟩
    single := by
      have hsingle := h.single
      show 0 + (w.answered ++ w.buf.waiters.map fun p => (p, false)).length ≤ 1
      rw [length_append, length_map]
      omega
    grants := fun hg => by
      refine h.grants (hg.imp (fun ⟨p, hp⟩ => ?_) fun hg => hgranted.symm.trans hg)
      obtain hp | hp := List.mem_append.mp hp
      · exact ⟨p, hp⟩
      · obtain ⟨q, _, hq⟩ := List.mem_map.mp hp
        cases hq }

/-- **An allowed step keeps the invariant.** -/
theorem inv_step {e : Event T} (h : Inv w) (hallowed : Allowed w e) (hstep : w.step e = some w') :
    Inv w' := by
  cases e with
  | push v => exact h.push hallowed hstep
  | subscribe cb => exact h.subscribe hstep
  | drainReturn =>
    rw [World.step] at hstep
    cases hdraining : w.draining with
    | none =>
      rw [hdraining] at hstep
      cases hstep
    | some cb =>
      rw [hdraining] at hstep
      cases hstep
      exact h.drainStep hdraining
  | drainThrow => exact h.drainThrow hallowed hstep
  | pull => exact h.pull hstep
  | pullOrNone => exact h.pullOrNone hstep
  | iterator => exact h.iterator hstep
  | hasNext => exact h.hasNext hallowed hstep
  | resume p => exact h.resume hstep
  | next => exact h.next hallowed hstep
  | close => exact h.close hallowed hstep

end Notes

/-- **Every run of allowed steps keeps the promises of a stream.** -/
theorem stream_delivers (events : List (Event T)) (w : World T)
    (hallowed : Runs.Steps World.step (fun w e _ => Allowed w e) {} events)
    (hrun : Runs.run World.step {} events = some w) : Delivers w.log := by
  have hstep : ∀ (s : World T) (e : Event T) (s' : World T), Inv s → Allowed s e →
      World.step s e = some s' → Inv s' := fun _ _ _ h ha hs => inv_step h ha hs
  exact (Runs.run_invariant_of_steps hstep inv_start hallowed hrun).delivers

/-- A value waits for its subscriber, and another one comes after it. -/
theorem stream_delivers_two :
    ∃ w, Runs.run World.step ({} : World Nat)
      [.push 1, .subscribe 0, .drainReturn, .push 2] = some w ∧ Delivers w.log := by
  refine ⟨_, rfl, stream_delivers [.push 1, .subscribe 0, .drainReturn, .push 2] _ ?_ rfl⟩
  intro w₁ h₁
  refine ⟨fun h => (nomatch h), fun w₂ h₂ => ?_⟩
  cases h₁
  refine ⟨trivial, fun w₃ h₃ => ?_⟩
  cases h₂
  refine ⟨trivial, fun w₄ h₄ => ?_⟩
  cases h₃
  exact ⟨fun _ => rfl, trivial⟩

/-- **What a callback can do.**  A push from inside the callback, with a backlog left, overtakes
the backlog; and a close from inside it does not stop the delivery. -/
theorem stream_reentrant :
    (∃ w, Runs.run World.step ({} : World Nat)
      [.push 1, .push 2, .subscribe 0, .push 3, .drainReturn] = some w ∧ ¬Delivers w.log) ∧
    ∃ w, Runs.run World.step ({} : World Nat)
      [.push 1, .push 2, .subscribe 0, .close, .drainReturn] = some w ∧ ¬Delivers w.log := by
  refine ⟨⟨_, rfl, fun h => ?_⟩, ⟨_, rfl, fun h => ?_⟩⟩
  · obtain ⟨⟨rest, hrest⟩, _⟩ := h.entries.2.1
    have hsecond := congrArg (fun l => l[1]?) hrest
    cases hsecond
  · exact h.entries.1.2.2.2 (mem_cons_self)

end Leviathan.Streams
