import Leviathan.Runtime.TaskChange

/-!
# The carrier loop

`lv_sched_run` dispatches the runnable tasks, then polls the parked ones, then gives the
event loop a turn, and when none of these has anything to do it wakes every parked task or
ends.  A task that comes back with a throw pending ends it at once.

The loop is a machine whose control point says where `lv_sched_run` stands.  Each step of
it is at most one entry of the scheduler (`step_op`), so the invariant of the
scheduler carries over, together with what the control point says of the lists
(`Carrier.Sound`).

`Evolves` lists what a step can do to a live task, with what the task sees of it: a park
that begins, a park that returns, a mark, a wake.  Every live task evolves in one of these
ways (`evolves`), and this is all the protocol of parking and cancelling rests on.
-/

namespace Leviathan.Runtime

open Leviathan.LinkedQueue Leviathan.Runs

variable {κ : Type}

/-- Where `lv_sched_run` stands: not called, about to pop the run queue, inside a task, behind
`switch_to`, about to poll, about to call the loop hook, past a loop hook that had no work,
and the two ways it returns. -/
inductive Control
  | outside
  | dispatching
  | running
  | gate
  | scanning
  | stepping
  | idle
  | quiescent
  | thrown
  deriving DecidableEq, Repr

/-- The scheduler of a thread with its carrier loop. -/
structure Carrier (κ : Type) where
  sched : Sched κ
  control : Control

/-- A step of the carrier: `lv_sched_run` is called, the running task calls an entry, or the
loop goes on.  The throw probe, the poll hook and the loop hook answer from outside; a loop
hook that had work may have spawned callbacks. -/
inductive CarrierStep (κ : Type)
  | schedRun
  | call (op : Op κ)
  | dispatch
  | gate (throwing : Bool)
  | poll (poll : κ → Bool)
  | loopStep (batch : Option Nat)
  | drain

instance : Inhabited (CarrierStep κ) := ⟨.drain⟩

/-- The entries a task calls. -/
def Op.ofTask : Op κ → Bool
  | .spawn => true
  | .spawnRegistered => true
  | .yield => true
  | .parkOn _ => true
  | .parkAny2 _ _ => true
  | .parkJoin _ => true
  | .cancel _ _ => true
  | .shield _ => true
  | .returns => true
  | _ => false

namespace Carrier

/-- A thread whose scheduler has not run yet. -/
def init : Carrier κ := ⟨Sched.init, .outside⟩

/-- `lv_sched_run`, one step. -/
def step (c : Carrier κ) : CarrierStep κ → Option (Carrier κ)
  | .schedRun =>
    if c.control = .outside ∨ c.control = .quiescent ∨ c.control = .thrown then
      (c.sched.step .schedRun).map fun s => ⟨s, .dispatching⟩
    else none
  | .call op =>
    if c.control = .running ∧ op.ofTask = true then
      (c.sched.step op).map fun s => ⟨s, if s.current = none then .gate else .running⟩
    else none
  | .dispatch =>
    if c.control = .dispatching then
      if c.sched.runqHead = none then some ⟨c.sched, .scanning⟩
      else (c.sched.step .dispatch).map fun s => ⟨s, .running⟩
    else none
  | .gate throwing =>
    if c.control = .gate then some ⟨c.sched, if throwing then .thrown else .dispatching⟩
    else none
  | .poll poll =>
    if c.control = .scanning then
      (c.sched.pollParked poll).map fun r =>
        ⟨r.1, if r.2 then .dispatching else .stepping⟩
    else none
  | .loopStep batch =>
    if c.control = .stepping then
      match batch with
      | none => some ⟨c.sched, .idle⟩
      | some n => some ⟨c.sched.loopBatch n, .dispatching⟩
    else none
  | .drain =>
    if c.control = .idle then
      if c.sched.parkedHead = none then some ⟨c.sched, .quiescent⟩
      else c.sched.drainWakeAll.map fun s => ⟨s, .dispatching⟩
    else none

/-- The entry of the scheduler a step of the carrier makes, if any. -/
def op (c : Carrier κ) : CarrierStep κ → Option (Op κ)
  | .schedRun => some .schedRun
  | .call op => some op
  | .dispatch => if c.sched.runqHead = none then none else some .dispatch
  | .gate _ => none
  | .poll poll => some (.poll poll)
  | .loopStep batch => batch.map .loop
  | .drain => if c.sched.parkedHead = none then none else some .drain

/-- What a park returns in this step: the id of the task, the reason and the index. -/
def returned (c : Carrier κ) : CarrierStep κ → Option (Nat × WakeReason × Option Nat)
  | .call (.parkOn key) =>
    c.sched.current.bind fun t =>
      (c.sched.taskParkOn t key).2.map fun r => (c.sched.idOf t, r, none)
  | .call (.parkAny2 a b) =>
    c.sched.current.bind fun t =>
      (c.sched.taskParkAny2 t a b).2.map fun r => (c.sched.idOf t, r, none)
  | .call (.parkJoin ids) =>
    c.sched.current.bind fun t =>
      (c.sched.taskParkJoin t ids).2.map fun r => (c.sched.idOf t, r, none)
  | .dispatch =>
    match c.sched.runqPop with
    | (some t, s) => (s.switchTo t).2.map fun r => (c.sched.idOf t, r.1, r.2)
    | (none, _) => none
  | _ => none

/-- The park this step begins: the id of the running task and what it waits for. -/
def begun (c : Carrier κ) : CarrierStep κ → Option (Nat × ParkKeys κ)
  | .call (.parkOn key) => c.sched.current.map fun t => (c.sched.idOf t, .on key)
  | .call (.parkAny2 a b) => c.sched.current.map fun t => (c.sched.idOf t, .any2 a b)
  | .call (.parkJoin ids) => c.sched.current.map fun t => (c.sched.idOf t, .join ids)
  | _ => none

/-- What the control point says of the lists. -/
structure Sound (c : Carrier κ) : Prop where
  good : c.sched.Good
  running : c.control = .running ↔ c.sched.current ≠ none
  empty : c.control = .scanning ∨ c.control = .stepping ∨ c.control = .idle ∨
    c.control = .quiescent → c.sched.runqHead = none
  ended : c.control = .quiescent → c.sched.parkedHead = none

theorem sound_init : (init : Carrier κ).Sound where
  good := Sched.good_init
  running := by
    constructor
    · intro h
      cases h
    · intro h
      exact absurd rfl h
  empty _ := rfl
  ended _ := rfl

/-- Outside every task the scheduler's own context runs. -/
theorem Sound.current_none {c : Carrier κ} (h : c.Sound) (hne : c.control ≠ .running) :
    c.sched.current = none := by
  by_contra hsome
  exact hne (h.running.mpr hsome)

/-- What a step of the carrier finds and does. -/
inductive Stepped (c : Carrier κ) : CarrierStep κ → Carrier κ → Prop
  | schedRun {s : Sched κ}
      (control : c.control = .outside ∨ c.control = .quiescent ∨ c.control = .thrown)
      (step : c.sched.step .schedRun = some s) : Stepped c .schedRun ⟨s, .dispatching⟩
  | call {entry : Op κ} {s : Sched κ} (control : c.control = .running)
      (ofTask : entry.ofTask = true) (step : c.sched.step entry = some s) :
      Stepped c (.call entry) ⟨s, if s.current = none then .gate else .running⟩
  | search (control : c.control = .dispatching) (head : c.sched.runqHead = none) :
      Stepped c .dispatch ⟨c.sched, .scanning⟩
  | dispatch {s : Sched κ} (control : c.control = .dispatching) (head : c.sched.runqHead ≠ none)
      (step : c.sched.step .dispatch = some s) : Stepped c .dispatch ⟨s, .running⟩
  | gate {throwing : Bool} (control : c.control = .gate) :
      Stepped c (.gate throwing) ⟨c.sched, if throwing then .thrown else .dispatching⟩
  | poll {poll : κ → Bool} {r : Sched κ × Bool} (control : c.control = .scanning)
      (step : c.sched.pollParked poll = some r) :
      Stepped c (.poll poll) ⟨r.1, if r.2 then .dispatching else .stepping⟩
  | noWork (control : c.control = .stepping) : Stepped c (.loopStep none) ⟨c.sched, .idle⟩
  | batch {n : Nat} (control : c.control = .stepping) :
      Stepped c (.loopStep (some n)) ⟨c.sched.loopBatch n, .dispatching⟩
  | quiesce (control : c.control = .idle) (head : c.sched.parkedHead = none) :
      Stepped c .drain ⟨c.sched, .quiescent⟩
  | drain {s : Sched κ} (control : c.control = .idle) (head : c.sched.parkedHead ≠ none)
      (step : c.sched.drainWakeAll = some s) : Stepped c .drain ⟨s, .dispatching⟩

theorem step_cases {c c' : Carrier κ} {a : CarrierStep κ} (hstep : c.step a = some c') :
    Stepped c a c' := by
  unfold step at hstep
  cases a with
  | schedRun =>
    obtain ⟨hc, hstep⟩ := Option.ite_none_right_eq_some.mp hstep
    obtain ⟨s, hs, rfl⟩ := Option.map_eq_some_iff.mp hstep
    exact .schedRun hc hs
  | call op =>
    obtain ⟨hc, hstep⟩ := Option.ite_none_right_eq_some.mp hstep
    obtain ⟨s, hs, rfl⟩ := Option.map_eq_some_iff.mp hstep
    exact .call hc.1 hc.2 hs
  | dispatch =>
    obtain ⟨hc, hstep⟩ := Option.ite_none_right_eq_some.mp hstep
    split at hstep
    · next hhead =>
        cases hstep
        exact .search hc hhead
    · next hhead =>
        obtain ⟨s, hs, rfl⟩ := Option.map_eq_some_iff.mp hstep
        exact .dispatch hc hhead hs
  | gate throwing =>
    obtain ⟨hc, hstep⟩ := Option.ite_none_right_eq_some.mp hstep
    cases hstep
    exact .gate hc
  | poll poll =>
    obtain ⟨hc, hstep⟩ := Option.ite_none_right_eq_some.mp hstep
    obtain ⟨r, hr, rfl⟩ := Option.map_eq_some_iff.mp hstep
    exact .poll hc hr
  | loopStep batch =>
    obtain ⟨hc, hstep⟩ := Option.ite_none_right_eq_some.mp hstep
    cases batch with
    | none =>
      cases hstep
      exact .noWork hc
    | some n =>
      cases hstep
      exact .batch hc
  | drain =>
    obtain ⟨hc, hstep⟩ := Option.ite_none_right_eq_some.mp hstep
    split at hstep
    · next hhead =>
        cases hstep
        exact .quiesce hc hhead
    · next hhead =>
        obtain ⟨s, hs, rfl⟩ := Option.map_eq_some_iff.mp hstep
        exact .drain hc hhead hs

/-- A step of the carrier is at most one entry of the scheduler. -/
theorem step_op {c c' : Carrier κ} {a : CarrierStep κ} (h : c.Sound) (hstep : c.step a = some c') :
    match c.op a with
    | some op => c.sched.step op = some c'.sched
    | none => c'.sched = c.sched := by
  cases step_cases hstep with
  | schedRun _ hs => exact hs
  | call _ _ hs => exact hs
  | search _ hhead =>
    unfold op
    dsimp only
    rw [if_pos hhead]
  | dispatch _ hhead hs =>
    unfold op
    dsimp only
    rw [if_neg hhead]
    exact hs
  | gate _ => rfl
  | @poll poll r hc hr =>
    show c.sched.asScheduler ((c.sched.pollParked poll).map Prod.fst) = some r.1
    unfold Sched.asScheduler
    rw [if_pos (h.current_none (by rw [hc]; decide)), hr]
    rfl
  | noWork _ => rfl
  | @batch n hc =>
    show c.sched.asScheduler (some (c.sched.loopBatch n)) = _
    unfold Sched.asScheduler
    rw [if_pos (h.current_none (by rw [hc]; decide))]
  | quiesce _ hhead =>
    unfold op
    dsimp only
    rw [if_pos hhead]
  | @drain s hc hhead hs =>
    unfold op
    dsimp only
    rw [if_neg hhead]
    show c.sched.asScheduler c.sched.drainWakeAll = some s
    unfold Sched.asScheduler
    rw [if_pos (h.current_none (by rw [hc]; decide)), hs]

/-- Dispatching pops the first runnable task and switches to it. -/
theorem step_dispatch {s : Sched κ} {t : Nat} (hcurrent : s.current = none)
    (hhead : s.runqHead = some t) : s.step .dispatch = some (s.runqPop.2.switchTo t).1 := by
  have hpair : s.runqPop = (some t, s.runqPop.2) := by rw [Sched.runqPop_eq hhead]
  show s.asScheduler _ = _
  unfold Sched.asScheduler
  rw [if_pos hcurrent, hpair]

/-- A control point outside every task and past no search of the queues asks for nothing
but the invariant of the scheduler. -/
theorem sound_of_current_none {s : Sched κ} {control : Control} (hgood : s.Good)
    (hcurrent : s.current = none) (hcontrol : control ≠ .running)
    (hempty : control = .scanning ∨ control = .stepping ∨ control = .idle ∨
      control = .quiescent → s.runqHead = none)
    (hended : control = .quiescent → s.parkedHead = none) : Sound ⟨s, control⟩ where
  good := hgood
  running := by
    constructor
    · intro h
      exact absurd h hcontrol
    · intro h
      exact absurd hcurrent h
  empty := hempty
  ended := hended

/-- Every step of the carrier keeps its invariant. -/
theorem step_sound {c c' : Carrier κ} {a : CarrierStep κ} (h : c.Sound)
    (hstep : c.step a = some c') : c'.Sound := by
  obtain ⟨runq, parked, pool, hinv⟩ := h.good
  have hop := step_op h hstep
  have hgood : c'.sched.Good := by
    cases hc : c.op a with
    | none =>
      rw [hc] at hop
      exact hop ▸ h.good
    | some op =>
      rw [hc] at hop
      exact (Sched.step_good hinv op).2 _ hop
  cases step_cases hstep with
  | @schedRun s hc hs =>
    have hcurrent := h.current_none (by
      intro hr
      rw [hr] at hc
      revert hc
      decide)
    have hs' : c.sched.schedRun = s := by
      have hs'' : c.sched.asScheduler (some c.sched.schedRun) = some s := hs
      unfold Sched.asScheduler at hs''
      rw [if_pos hcurrent] at hs''
      exact Option.some.inj hs''
    refine sound_of_current_none hgood ?_ (by decide) (by simp) (by simp)
    obtain ⟨_, _, _, _, _, _, hsame, _⟩ := hinv.taskSpawn
    rw [← hs']
    exact hsame.trans hcurrent
  | @call _ s _ _ _ =>
    dsimp only at hgood ⊢
    by_cases hcurrent : s.current = none
    · rw [if_pos hcurrent]
      exact sound_of_current_none hgood hcurrent (by decide) (by simp) (by simp)
    · rw [if_neg hcurrent]
      exact ⟨hgood, ⟨fun _ => hcurrent, fun _ => rfl⟩, by simp, by simp⟩
  | search hc hhead =>
    exact sound_of_current_none hgood (h.current_none (by rw [hc]; decide)) (by decide)
      (fun _ => hhead) (by simp)
  | dispatch hc hhead hs =>
    refine ⟨hgood, ⟨fun _ => ?_, fun _ => rfl⟩, by simp, by simp⟩
    obtain ⟨t, ht⟩ := Option.ne_none_iff_exists'.mp hhead
    rw [step_dispatch (h.current_none (by rw [hc]; decide)) ht] at hs
    cases hs
    show (c.sched.runqPop.2.switchTo t).1.current ≠ none
    rcases c.sched.runqPop.2.switchTo_fst t with heq | heq
    · rw [heq]
      exact Option.some_ne_none t
    · rw [heq]
      exact Option.some_ne_none t
  | @gate throwing hc =>
    have hcurrent := h.current_none (by rw [hc]; decide)
    cases throwing with
    | true => exact sound_of_current_none hgood hcurrent (by decide) (by simp) (by simp)
    | false => exact sound_of_current_none hgood hcurrent (by decide) (by simp) (by simp)
  | @poll poll _ hc hr =>
    obtain ⟨s, hpoll, hpolled, hchange⟩ := hinv.pollParked poll
    obtain rfl := Option.some.inj (hpoll.symm.trans hr)
    have hcurrent' : s.current = none :=
      hchange.current.trans (h.current_none (by rw [hc]; decide))
    by_cases hany : parked.any (c.sched.settled poll) = true
    · simp only [hany, if_true]
      exact sound_of_current_none hgood hcurrent' (by decide) (by simp) (by simp)
    · -- nothing was woken, so the run queue is as empty as before
      simp only [hany]
      refine sound_of_current_none hgood hcurrent' (by decide) ?_ (by simp)
      intro _
      have hrunq : runq.head? = none :=
        hinv.laid.runq_queue.head_eq.symm.trans (h.empty (.inl hc))
      have hfilter : parked.filter (c.sched.settled poll) = [] := by
        rw [List.filter_eq_nil_iff]
        intro r hr hset
        exact hany (List.any_eq_true.mpr ⟨r, hr, hset⟩)
      have hhead := hpolled.laid.runq_queue.head_eq
      rw [hfilter, List.append_nil] at hhead
      exact hhead.trans hrunq
  | noWork hc =>
    exact sound_of_current_none hgood (h.current_none (by rw [hc]; decide)) (by decide)
      (fun _ => h.empty (.inr (.inl hc))) (by simp)
  | @batch n hc =>
    refine sound_of_current_none hgood ?_ (by decide) (by simp) (by simp)
    exact (Sched.loopBatch_current n c.sched).trans (h.current_none (by rw [hc]; decide))
  | quiesce hc hhead =>
    exact sound_of_current_none hgood (h.current_none (by rw [hc]; decide)) (by decide)
      (fun _ => h.empty (.inr (.inr (.inl hc)))) (fun _ => hhead)
  | drain hc _ hs =>
    obtain ⟨s, hdrain, _, hdrained⟩ := hinv.drainWakeAll
    obtain rfl := Option.some.inj (hdrain.symm.trans hs)
    exact sound_of_current_none hgood (hdrained.current.trans (h.current_none (by rw [hc]; decide)))
      (by decide) (by simp) (by simp)

/-! ### What a step can do to a task -/

/-- The step neither begins a park of the task `id` nor returns from one. -/
def Silent (c : Carrier κ) (a : CarrierStep κ) (id : Nat) : Prop :=
  (∀ keys, c.begun a ≠ some (id, keys)) ∧ ∀ r, c.returned a ≠ some (id, r)

/-- The index `lv_task_park_any2` passes on. -/
def wokeIndex (k : LvTask κ) : Option Nat :=
  if k.frame = .parkingAny2 ∧ k.wakeReason = .settled then some k.wokeIx else none

/-- What a step can make of the live task `t`. -/
inductive Evolves (c : Carrier κ) (a : CarrierStep κ) (t : Nat) : LvTask κ → Prop
  | same (silent : c.Silent a (c.sched.idOf t)) : Evolves c a t (c.sched.task t)
  | starts (silent : c.Silent a (c.sched.idOf t)) (state : (c.sched.task t).state = .runnable)
      (frame : (c.sched.task t).frame = .start ∨ (c.sched.task t).frame = .yielding) :
      Evolves c a t { c.sched.task t with state := .running }
  | yields (silent : c.Silent a (c.sched.idOf t)) (state : (c.sched.task t).state = .running) :
      Evolves c a t { c.sched.task t with state := .runnable, frame := .yielding }
  | shields (silent : c.Silent a (c.sched.idOf t)) (state : (c.sched.task t).state = .running)
      (shield : Nat) : Evolves c a t { c.sched.task t with shield := shield }
  | marks (silent : c.Silent a (c.sched.idOf t)) (poll : κ → Bool)
      (request : a = .call (.cancel (c.sched.idOf t) poll))
      (unmarked : (c.sched.task t).cancelled = false) (wokeIx : Nat)
      (noted : (c.sched.task t).state ≠ .parked → wokeIx = (c.sched.task t).wokeIx) :
      Evolves c a t { c.sched.task t with cancelled := true, wokeIx := wokeIx }
  | cancels (silent : c.Silent a (c.sched.idOf t)) (poll : κ → Bool)
      (request : a = .call (.cancel (c.sched.idOf t) poll))
      (unmarked : (c.sched.task t).cancelled = false) (state : (c.sched.task t).state = .parked)
      (shield : (c.sched.task t).shield = 0) :
      Evolves c a t (Sched.woken { c.sched.task t with cancelled := true } .cancelled)
  | settles (silent : c.Silent a (c.sched.idOf t)) (poll : κ → Bool) (polled : a = .poll poll)
      (state : (c.sched.task t).state = .parked) (settled : c.sched.settled poll t = true) :
      Evolves c a t (c.sched.settledTask poll t)
  | drains (silent : c.Silent a (c.sched.idOf t)) (drained : a = .drain)
      (idle : c.control = .idle) (state : (c.sched.task t).state = .parked) :
      Evolves c a t (Sched.woken (c.sched.task t) .drained)
  | resumes (state : (c.sched.task t).state = .runnable)
      (frame : (c.sched.task t).frame = .parking ∨ (c.sched.task t).frame = .parkingAny2)
      (begun : c.begun a = none)
      (returned : c.returned a =
        some (c.sched.idOf t, (c.sched.task t).wakeReason, wokeIndex (c.sched.task t))) :
      Evolves c a t { (c.sched.task t).parkKeysClear with
        state := .running
        cancelled := (c.sched.task t).cancelled &&
          (c.sched.task t).wakeReason ≠ WakeReason.cancelled }
  | refuses (keys : ParkKeys κ) (state : (c.sched.task t).state = .running)
      (marked : (c.sched.task t).cancelled = true) (shield : (c.sched.task t).shield = 0)
      (begun : c.begun a = some (c.sched.idOf t, keys))
      (returned : c.returned a = some (c.sched.idOf t, .cancelled, none)) :
      Evolves c a t { (c.sched.task t).parkKeysClear with cancelled := false }
  | joins (ids : List Nat) (state : (c.sched.task t).state = .running)
      (done : c.sched.joinAllDone ids = true)
      (begun : c.begun a = some (c.sched.idOf t, .join ids))
      (returned : c.returned a = some (c.sched.idOf t, .settled, none)) :
      Evolves c a t (c.sched.task t)
  | parks (keys : ParkKeys κ) (state : (c.sched.task t).state = .running)
      (masked : ¬ ((c.sched.task t).cancelled = true ∧ (c.sched.task t).shield = 0))
      (begun : c.begun a = some (c.sched.idOf t, keys)) (returned : c.returned a = none) :
      Evolves c a t { (c.sched.task t).withKeys keys with
        wakeReason := .settled, wokeIx := 0, state := .parked, frame := keys.frame }

variable {c c' : Carrier κ} {a : CarrierStep κ} {t : Nat}

/-- A step that begins no park and returns from none. -/
theorem silent_of_none {id : Nat} (hbegun : c.begun a = none) (hreturned : c.returned a = none) :
    c.Silent a id := by
  refine ⟨?_, ?_⟩
  · intro keys hb
    rw [hbegun] at hb
    cases hb
  · intro r hr
    rw [hreturned] at hr
    cases hr

/-- Only the running task begins a park. -/
theorem begun_current {id : Nat} {keys : ParkKeys κ} (h : c.begun a = some (id, keys)) :
    ∃ r, c.sched.current = some r ∧ c.sched.idOf r = id := by
  unfold begun at h
  split at h
  · obtain ⟨r, hr, heq⟩ := Option.map_eq_some_iff.mp h
    exact ⟨r, hr, congrArg Prod.fst heq⟩
  · obtain ⟨r, hr, heq⟩ := Option.map_eq_some_iff.mp h
    exact ⟨r, hr, congrArg Prod.fst heq⟩
  · obtain ⟨r, hr, heq⟩ := Option.map_eq_some_iff.mp h
    exact ⟨r, hr, congrArg Prod.fst heq⟩
  · cases h

/-- Only the running task, and the one a dispatch takes, return from a park. -/
theorem returned_actor {id : Nat} {r : WakeReason × Option Nat} (h : c.returned a = some (id, r)) :
    (∃ q, c.sched.current = some q ∧ c.sched.idOf q = id) ∨
      (a = .dispatch ∧ ∃ q, c.sched.runqHead = some q ∧ c.sched.idOf q = id) := by
  unfold returned at h
  split at h
  · obtain ⟨q, hq, h⟩ := Option.bind_eq_some_iff.mp h
    obtain ⟨_, _, heq⟩ := Option.map_eq_some_iff.mp h
    exact .inl ⟨q, hq, congrArg Prod.fst heq⟩
  · obtain ⟨q, hq, h⟩ := Option.bind_eq_some_iff.mp h
    obtain ⟨_, _, heq⟩ := Option.map_eq_some_iff.mp h
    exact .inl ⟨q, hq, congrArg Prod.fst heq⟩
  · obtain ⟨q, hq, h⟩ := Option.bind_eq_some_iff.mp h
    obtain ⟨_, _, heq⟩ := Option.map_eq_some_iff.mp h
    exact .inl ⟨q, hq, congrArg Prod.fst heq⟩
  · right
    refine ⟨rfl, ?_⟩
    cases hhead : c.sched.runqHead with
    | none =>
      unfold Sched.runqPop at h
      rw [hhead] at h
      cases h
    | some q =>
      rw [Sched.runqPop_eq hhead] at h
      obtain ⟨_, _, heq⟩ := Option.map_eq_some_iff.mp h
      exact ⟨q, rfl, congrArg Prod.fst heq⟩
  · cases h

/-- A task that neither runs nor is dispatched sees no park of its own. -/
theorem silent_of_ne (h : c.Sound) (hlive : c.sched.Live t) (hrun : c.sched.current ≠ some t)
    (hdispatch : a = .dispatch → c.sched.runqHead ≠ some t) : c.Silent a (c.sched.idOf t) := by
  obtain ⟨runq, parked, pool, hinv⟩ := h.good
  have hcurrent : ∀ q, c.sched.current = some q → c.sched.idOf q ≠ c.sched.idOf t := by
    intro q hq heq
    exact hrun (hinv.live_inj (hinv.live_current hq) hlive heq ▸ hq)
  refine ⟨?_, ?_⟩
  · intro keys hb
    obtain ⟨q, hq, heq⟩ := begun_current hb
    exact hcurrent q hq heq
  · intro r hr
    rcases returned_actor hr with ⟨q, hq, heq⟩ | ⟨ha, q, hq, heq⟩
    · exact hcurrent q hq heq
    · have hqlive : c.sched.Live q := by
        rw [hinv.live_iff]
        have hmem : q ∈ runq := by
          have hhead := hinv.laid.runq_queue.head_eq
          rw [hq] at hhead
          exact List.mem_of_head? hhead.symm
        simp [hmem]
      exact hdispatch ha (hinv.live_inj hqlive hlive heq ▸ hq)

/-- The running task's own park: refused, not needed, or begun. -/
theorem evolves_park (keys : ParkKeys κ) (hstate : (c.sched.task t).state = .running)
    (hbegun : c.begun a = some (c.sched.idOf t, keys))
    (hreturned : c.returned a = ((c.sched.modify t fun k => k.withKeys keys).parkCommon t
      keys.frame).2.map fun r => (c.sched.idOf t, r, none)) :
    Evolves c a t ((c.sched.task t).parked keys) := by
  have hcancelled : ((c.sched.task t).withKeys keys).cancelled = (c.sched.task t).cancelled := by
    cases keys <;> rfl
  have hshield : ((c.sched.task t).withKeys keys).shield = (c.sched.task t).shield := by
    cases keys <;> rfl
  unfold Sched.parkCommon at hreturned
  rw [Sched.modify_task_self] at hreturned
  dsimp only at hreturned
  rw [hcancelled, hshield] at hreturned
  unfold LvTask.parked
  by_cases hpending : (c.sched.task t).cancelled = true ∧ (c.sched.task t).shield = 0
  · rw [if_pos hpending] at hreturned ⊢
    exact .refuses keys hstate hpending.1 hpending.2 hbegun hreturned
  · rw [if_neg hpending] at hreturned ⊢
    exact .parks keys hstate hpending hbegun hreturned

/-- A cancel request that reaches `t`. -/
theorem evolves_cancel {poll : κ → Bool}
    (ha : a = .call (.cancel (c.sched.idOf t) poll)) :
    Evolves c a t (c.sched.cancelledTask poll t) := by
  have hsilent : c.Silent a (c.sched.idOf t) := by
    subst ha
    exact silent_of_none rfl rfl
  unfold Sched.cancelledTask
  dsimp only
  by_cases hmarked : (c.sched.task t).cancelled = true
  · rw [if_pos hmarked]
    exact .same hsilent
  · rw [if_neg hmarked]
    have hunmarked : (c.sched.task t).cancelled = false := Bool.eq_false_iff.mpr hmarked
    by_cases hwaits : (c.sched.task t).state = .parked ∧ (c.sched.task t).shield = 0
    · rw [if_pos hwaits]
      split
      · rcases (c.sched.modify t fun k => { k with cancelled := true }).parkKeysSettled_eq poll t
          with heq | ⟨ix, heq⟩
        · rw [heq, Sched.modify_task_self]
          exact .marks hsilent poll ha hunmarked _ fun _ => rfl
        · rw [heq]
          dsimp only
          rw [Sched.modify_task_self, Sched.modify_task_self]
          exact .marks hsilent poll ha hunmarked ix fun hne => absurd hwaits.1 hne
      · exact .cancels hsilent poll ha hunmarked hwaits.1 hwaits.2
    · rw [if_neg hwaits]
      exact .marks hsilent poll ha hunmarked _ fun _ => rfl

/-- **Every live task evolves in one of these ways** in every step but its end. -/
theorem evolves (h : c.Sound) (hstep : c.step a = some c') (hlive : c.sched.Live t)
    (hends : ¬ (a = .call .returns ∧ c.sched.current = some t)) :
    Evolves c a t (c'.sched.task t) := by
  obtain ⟨runq, parked, pool, hinv⟩ := h.good
  have hop := step_op h hstep
  -- the task as the entry leaves it
  have hafter : ∀ op, c.op a = some op → c'.sched.task t = c.sched.after t op := by
    intro op hc
    rw [hc] at hop
    exact Sched.step_task hinv hop hlive
  have hsame : c.op a = none → c'.sched.task t = c.sched.task t := by
    intro hc
    rw [hc] at hop
    rw [hop]
  cases a with
  | schedRun =>
    rw [hafter _ rfl]
    exact .same (silent_of_none rfl rfl)
  | gate throwing =>
    rw [hsame rfl]
    exact .same (silent_of_none rfl rfl)
  | loopStep batch =>
    have htask : c'.sched.task t = c.sched.task t := by
      cases batch with
      | none => exact hsame rfl
      | some n => exact hafter _ rfl
    rw [htask]
    exact .same (silent_of_none rfl rfl)
  | poll poll =>
    have hsilent : c.Silent (.poll poll) (c.sched.idOf t) := silent_of_none rfl rfl
    rw [hafter _ rfl]
    unfold Sched.after
    dsimp only
    split
    · next hwoke => exact .settles hsilent poll rfl hwoke.1 hwoke.2
    · exact .same hsilent
  | drain =>
    have hsilent : c.Silent .drain (c.sched.idOf t) := silent_of_none rfl rfl
    have hidle : c.control = .idle := by
      cases step_cases hstep with
      | quiesce hc _ => exact hc
      | drain hc _ _ => exact hc
    by_cases hhead : c.sched.parkedHead = none
    · rw [hsame (by unfold op; rw [if_pos hhead])]
      exact .same hsilent
    · rw [hafter .drain (by unfold op; rw [if_neg hhead])]
      unfold Sched.after
      dsimp only
      split
      · next hparked => exact .drains hsilent rfl hidle hparked
      · exact .same hsilent
  | dispatch =>
    by_cases hhead : c.sched.runqHead = none
    · rw [hsame (by unfold op; rw [if_pos hhead])]
      refine .same (silent_of_none rfl ?_)
      unfold returned Sched.runqPop
      rw [hhead]
    · rw [hafter .dispatch (by unfold op; rw [if_neg hhead])]
      have hcurrent : c.sched.current = none := by
        refine h.current_none ?_
        intro hrun
        unfold step at hstep
        dsimp only at hstep
        rw [hrun] at hstep
        cases hstep
      unfold Sched.after
      dsimp only
      split
      · next hhead' =>
          have hstate : (c.sched.task t).state = .runnable := by
            refine hinv.runnable t ?_
            have hhd := hinv.laid.runq_queue.head_eq
            rw [hhead'] at hhd
            exact List.mem_of_head? hhd.symm
          have hreturned : c.returned .dispatch =
              (c.sched.runqPop.2.switchTo t).2.map fun r => (c.sched.idOf t, r.1, r.2) := by
            unfold returned
            rw [Sched.runqPop_eq hhead']
          have hentered : (c.sched.runqPop.2.enter t).task t =
              { c.sched.task t with state := .running } := by
            rw [Sched.enter_task, Sched.modify_task_self, Sched.runqPop_eq hhead']
          unfold Sched.switchTo at hreturned
          dsimp only at hreturned
          rw [hentered] at hreturned
          dsimp only at hreturned
          unfold LvTask.resumed
          cases hf : (c.sched.task t).frame with
          | start =>
            rw [hf] at hreturned
            have hev := Evolves.starts (a := .dispatch) (silent_of_none rfl hreturned) hstate
              (.inl hf)
            dsimp only at hev
            rw [hf] at hev
            exact hev
          | yielding =>
            rw [hf] at hreturned
            have hev := Evolves.starts (a := .dispatch) (silent_of_none rfl hreturned) hstate
              (.inr hf)
            dsimp only at hev
            rw [hf] at hev
            exact hev
          | parking =>
            rw [hf] at hreturned
            refine .resumes hstate (.inl hf) rfl ?_
            unfold wokeIndex
            rw [hreturned, hf]
            rfl
          | parkingAny2 =>
            rw [hf] at hreturned
            refine .resumes hstate (.inr hf) rfl ?_
            unfold wokeIndex
            rw [hreturned, hf]
            simp
      · next hhead' =>
          refine .same (silent_of_ne h hlive ?_ fun _ => hhead')
          rw [hcurrent]
          exact Option.some_ne_none t |>.symm
  | call op =>
    have htask : op.ofTask = true := by
      cases step_cases hstep with
      | call _ ht _ => exact ht
    rw [hafter op rfl]
    by_cases hrun : c.sched.current = some t
    · have hstate := hinv.running t hrun
      unfold Sched.after
      cases op with
      | schedRun => cases htask
      | dispatch => cases htask
      | poll poll => cases htask
      | loop n => cases htask
      | drain => cases htask
      | spawn => exact .same (silent_of_none rfl rfl)
      | spawnRegistered => exact .same (silent_of_none rfl rfl)
      | returns => exact absurd ⟨rfl, hrun⟩ hends
      | yield =>
        dsimp only
        rw [if_pos hrun]
        exact .yields (silent_of_none rfl rfl) hstate
      | shield delta =>
        dsimp only
        rw [if_pos hrun]
        exact .shields (silent_of_none rfl rfl) hstate _
      | cancel id poll =>
        dsimp only
        split
        · next hfind =>
            obtain rfl := (hinv.regFind_some hfind).2
            exact evolves_cancel rfl
        · exact .same (silent_of_none rfl rfl)
      | parkOn key =>
        dsimp only
        rw [if_pos hrun]
        refine evolves_park (.on key) hstate ?_ ?_
        · unfold begun
          rw [hrun]
          rfl
        · unfold returned
          rw [hrun]
          rfl
      | parkAny2 x y =>
        dsimp only
        rw [if_pos hrun]
        refine evolves_park (.any2 x y) hstate ?_ ?_
        · unfold begun
          rw [hrun]
          rfl
        · unfold returned
          rw [hrun]
          rfl
      | parkJoin ids =>
        dsimp only
        have hbegun : c.begun (.call (.parkJoin ids)) =
            some (c.sched.idOf t, .join ids) := by
          unfold begun
          rw [hrun]
          rfl
        have hreturned : c.returned (.call (.parkJoin ids)) =
            (c.sched.taskParkJoin t ids).2.map fun r => (c.sched.idOf t, r, none) := by
          unfold returned
          rw [hrun]
          rfl
        by_cases hdone : ids.length = 0 ∨ c.sched.joinAllDone ids = true
        · rw [if_neg fun hand => hand.2 hdone]
          unfold Sched.taskParkJoin at hreturned
          rw [if_pos hdone] at hreturned
          refine .joins ids hstate ?_ hbegun hreturned
          rcases hdone with hnil | hall
          · rw [List.length_eq_zero_iff.mp hnil]
            rfl
          · exact hall
        · rw [if_pos ⟨hrun, hdone⟩]
          unfold Sched.taskParkJoin at hreturned
          rw [if_neg hdone] at hreturned
          exact evolves_park (.join ids) hstate hbegun hreturned
    · have hsilent : c.Silent (.call op) (c.sched.idOf t) :=
        silent_of_ne h hlive hrun fun ha => by cases ha
      unfold Sched.after
      cases op with
      | schedRun => cases htask
      | dispatch => cases htask
      | poll poll => cases htask
      | loop n => cases htask
      | drain => cases htask
      | spawn => exact .same hsilent
      | spawnRegistered => exact .same hsilent
      | cancel id poll =>
        dsimp only
        split
        · next hfind =>
            obtain rfl := (hinv.regFind_some hfind).2
            exact evolves_cancel rfl
        · exact .same hsilent
      | parkJoin ids =>
        dsimp only
        rw [if_neg fun hand => hrun hand.1]
        exact .same hsilent
      | _ =>
        dsimp only
        rw [if_neg hrun]
        exact .same hsilent

/-- A task keeps its id. -/
theorem Evolves.id {k : LvTask κ} (h : Evolves c a t k) : k.id = c.sched.idOf t := by
  cases h with
  | settles _ poll _ _ _ =>
    obtain ⟨ix, heq⟩ := c.sched.settledTask_eq poll t
    rw [heq]
    rfl
  | parks keys _ _ _ _ => exact (c.sched.task t).withKeys_id keys
  | _ => rfl

/-- The mark of a task was there before and has not been delivered, or a request has just
set it. -/
theorem Evolves.marked {k : LvTask κ} (h : Evolves c a t k) (hmark : k.cancelled = true) :
    ((c.sched.task t).cancelled = true ∧
        ∀ ix, c.returned a ≠ some (c.sched.idOf t, .cancelled, ix)) ∨
      ((c.sched.task t).cancelled = false ∧
        ∃ poll, a = .call (.cancel (c.sched.idOf t) poll)) := by
  cases h with
  | same silent => exact .inl ⟨hmark, fun ix => silent.2 _⟩
  | starts silent => exact .inl ⟨hmark, fun ix => silent.2 _⟩
  | yields silent => exact .inl ⟨hmark, fun ix => silent.2 _⟩
  | shields silent => exact .inl ⟨hmark, fun ix => silent.2 _⟩
  | drains silent => exact .inl ⟨hmark, fun ix => silent.2 _⟩
  | marks silent poll request unmarked => exact .inr ⟨unmarked, poll, request⟩
  | cancels silent poll request unmarked => exact .inr ⟨unmarked, poll, request⟩
  | settles silent poll _ _ _ =>
    obtain ⟨ix, heq⟩ := c.sched.settledTask_eq poll t
    rw [heq] at hmark
    exact .inl ⟨hmark, fun ix => silent.2 _⟩
  | resumes state frame begun returned =>
    simp only [Bool.and_eq_true, decide_eq_true_eq] at hmark
    refine .inl ⟨hmark.1, ?_⟩
    intro ix heq
    rw [returned] at heq
    exact hmark.2 (congrArg (fun r => r.2.1) (Option.some.inj heq))
  | refuses => cases hmark
  | joins ids state done begun returned =>
    refine .inl ⟨hmark, ?_⟩
    intro ix heq
    rw [returned] at heq
    cases heq
  | parks keys state masked begun returned =>
    refine .inl ⟨((c.sched.task t).withKeys_cancelled keys).symm.trans hmark, ?_⟩
    intro ix heq
    rw [returned] at heq
    cases heq

/-- A mark stays until it is delivered. -/
theorem Evolves.keeps_mark {k : LvTask κ} (h : Evolves c a t k)
    (hmark : (c.sched.task t).cancelled = true)
    (hkept : ∀ ix, c.returned a ≠ some (c.sched.idOf t, .cancelled, ix)) :
    k.cancelled = true := by
  cases h with
  | settles _ poll _ _ _ =>
    obtain ⟨ix, heq⟩ := c.sched.settledTask_eq poll t
    rw [heq]
    exact hmark
  | resumes state frame begun returned =>
    have hne : (c.sched.task t).wakeReason ≠ .cancelled := by
      intro heq
      rw [heq] at returned
      exact hkept _ returned
    simp [hmark, hne]
  | refuses keys state marked shield begun returned => exact absurd returned (hkept none)
  | parks keys _ _ _ _ => exact ((c.sched.task t).withKeys_cancelled keys).trans hmark
  | _ => first | exact hmark | rfl

/-! ### Who is live -/

theorem step_grows (h : c.Sound) (hstep : c.step a = some c') : Sched.Grows c.sched c'.sched := by
  obtain ⟨runq, parked, pool, hinv⟩ := h.good
  have hop := step_op h hstep
  cases hc : c.op a with
  | none =>
    rw [hc] at hop
    rw [hop]
    exact hinv.grows_of_keeps (.refl _)
  | some op =>
    rw [hc] at hop
    exact Sched.step_grows hinv hop

/-- A live task stays live until it ends. -/
theorem stays_live (h : c.Sound) (hstep : c.step a = some c') (hlive : c.sched.Live t)
    (hends : ¬ (a = .call .returns ∧ c.sched.current = some t)) : c'.sched.Live t := by
  obtain ⟨runq, parked, pool, hinv⟩ := h.good
  have hop := step_op h hstep
  cases hc : c.op a with
  | none =>
    rw [hc] at hop
    rw [hop]
    exact hlive
  | some op =>
    rw [hc] at hop
    refine Sched.live_step hinv hop hlive ?_
    by_contra hboth
    push Not at hboth
    obtain ⟨rfl, hcurrent⟩ := hboth
    refine hends ⟨?_, hcurrent⟩
    -- only the task's own entry ends it
    cases a with
    | call op =>
      have heq : op = .returns := Option.some.inj hc
      rw [heq]
    | schedRun => cases hc
    | gate _ => cases hc
    | poll _ => cases hc
    | dispatch =>
      unfold Carrier.op at hc
      dsimp only at hc
      split at hc
      · cases hc
      · cases hc
    | drain =>
      unfold Carrier.op at hc
      dsimp only at hc
      split at hc
      · cases hc
      · cases hc
    | loopStep batch =>
      cases batch with
      | none => cases hc
      | some n => cases hc

/-- A task that ends is not live, and its id is among the finished ones. -/
theorem ends (h : c.Sound) (hstep : c.step (.call .returns) = some c')
    (hcurrent : c.sched.current = some t) :
    ¬ c'.sched.Live t ∧ c.sched.idOf t ∈ c'.sched.finished := by
  obtain ⟨runq, parked, pool, hinv⟩ := h.good
  have hop : c.sched.step .returns = some c'.sched := step_op h hstep
  constructor
  · intro hlive
    refine hlive.2 ?_
    rw [Sched.step_task hinv hop (hinv.live_current hcurrent)]
    unfold Sched.after
    dsimp only
    rw [if_pos hcurrent]
  · obtain ⟨q, hq, heq⟩ := Option.map_eq_some_iff.mp hop
    obtain rfl : t = q := Option.some.inj (hcurrent.symm.trans hq)
    obtain ⟨k, _, _, hret⟩ := c.sched.taskReturns_eq t
    rw [← heq, hret]
    exact List.mem_append_right _ (List.mem_singleton.mpr rfl)

/-- A live task was live before or is newborn. -/
theorem live_before (h : c.Sound) (hstep : c.step a = some c') (hlive : c'.sched.Live t) :
    c.sched.Live t ∨ Sched.Newborn (c'.sched.task t) := by
  obtain ⟨runq, parked, pool, hinv⟩ := h.good
  have hop := step_op h hstep
  cases hc : c.op a with
  | none =>
    rw [hc] at hop
    rw [hop] at hlive
    exact .inl hlive
  | some op =>
    rw [hc] at hop
    rcases Sched.step_live hinv hop hlive with hold | ⟨_, hnew⟩
    · exact .inl hold
    · exact .inr hnew

/-- Past a loop hook without work is where it had none. -/
theorem loopStep_of_idle (hstep : c.step a = some c') (hidle : c'.control = .idle) :
    a = .loopStep none := by
  cases step_cases hstep with
  | noWork _ => rfl
  | call _ _ _ =>
    dsimp only at hidle
    split at hidle
    · cases hidle
    · cases hidle
  | @gate throwing _ =>
    cases throwing with
    | true => cases hidle
    | false => cases hidle
  | poll _ _ =>
    dsimp only at hidle
    split at hidle
    · cases hidle
    · cases hidle
  | _ => cases hidle

end Carrier

end Leviathan.Runtime
