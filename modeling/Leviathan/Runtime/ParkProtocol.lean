import Leviathan.Runtime.Carrier

/-!
# Parking and cancelling, over whole runs

A task that parks gets exactly one answer: its keys are settled, the loop has run dry, or
it is cancelled.  `Protocol` says what holds of every run of the carrier loop: to which
park a return belongs, what made it return, when a mark is set, kept and delivered, and
what has finished once a join is settled.

The proof carries one invariant along the run, task by task.  `Waiting` is the record of
a park that has begun and not returned: since when, on which keys, and, if the task is
already woken, by which step.  `Story` adds where the mark of a task comes from.

A run that ends because a task came back with a throw pending leaves the other parks
open; their tasks stay where they are.
-/

namespace Leviathan.Runtime

open Leviathan.Runs

variable {κ : Type}

/-! ### The keys of a task -/

variable {k' : LvTask κ}

namespace LvTask

/-- The task holds these keys and no others. -/
def Holds (k : LvTask κ) : ParkKeys κ → Prop
  | .on key => k.parkedOn = some key ∧ k.parkedOn2 = none ∧ k.joinIds = none
  | .any2 a b => k.parkedOn = some a ∧ k.parkedOn2 = some b ∧ k.joinIds = none
  | .join ids => k.parkedOn = none ∧ k.parkedOn2 = none ∧ k.joinIds = some ids

/-- The task holds no keys. -/
def NoKeys (k : LvTask κ) : Prop :=
  k.parkedOn = none ∧ k.parkedOn2 = none ∧ k.joinIds = none

/-- The task is inside a park: on the parked list, or woken and not yet resumed. -/
def Waits (k : LvTask κ) : Prop :=
  k.state = .parked ∨ (k.state = .runnable ∧ (k.frame = .parking ∨ k.frame = .parkingAny2))

variable {k : LvTask κ}

theorem holds_withKeys (h : k.NoKeys) (keys : ParkKeys κ) : (k.withKeys keys).Holds keys := by
  obtain ⟨h1, h2, h3⟩ := h
  cases keys with
  | on key => exact ⟨rfl, h2, h3⟩
  | any2 a b => exact ⟨rfl, rfl, h3⟩
  | join ids => exact ⟨h1, h2, rfl⟩

/-- Keys depend on their fields only. -/
theorem Holds.congr {keys : ParkKeys κ} (h : k.Holds keys) (h1 : k'.parkedOn = k.parkedOn)
    (h2 : k'.parkedOn2 = k.parkedOn2) (h3 : k'.joinIds = k.joinIds) : k'.Holds keys := by
  unfold Holds
  rw [h1, h2, h3]
  exact h

theorem not_waits_running (h : k.state = .running) : ¬ k.Waits := by
  unfold Waits
  rw [h]
  intro hw
  rcases hw with hw | ⟨hw, _⟩
  · cases hw
  · cases hw

end LvTask

variable {poll : κ → Bool}

namespace Sched

/-- What settles a park on these keys, and the index it reports: for two keys the first
one when both are settled. -/
def KeysSettled (s : Sched κ) (poll : κ → Bool) : ParkKeys κ → Option Nat → Prop
  | .on key, ix => poll key = true ∧ ix = none
  | .any2 a b, ix =>
    (poll a = true ∧ ix = some 0) ∨ (poll a = false ∧ poll b = true ∧ ix = some 1)
  | .join ids, ix => s.joinAllDone ids = true ∧ ix = none

/-- The index a woken task reports. -/
theorem wokeIndex_woken (k : LvTask κ) :
    Carrier.wokeIndex (woken k .settled) =
      if k.frame = .parkingAny2 then some k.wokeIx else none := by
  unfold Carrier.wokeIndex woken
  simp

/-- A poll that wakes a task has found its keys settled, in the order they were given. -/
theorem keysSettled_of_settled {s : Sched κ} {t : Nat} {keys : ParkKeys κ}
    (hholds : (s.task t).Holds keys) (hframe : (s.task t).frame = keys.frame)
    (hsettled : s.settled poll t = true) :
    s.KeysSettled poll keys (Carrier.wokeIndex (s.settledTask poll t)) := by
  unfold settled parkKeysSettled at hsettled
  unfold settledTask parkKeysSettled
  rw [wokeIndex_woken]
  dsimp only at hsettled ⊢
  cases keys with
  | on key =>
    obtain ⟨h1, h2, h3⟩ := hholds
    simp only [h1, h2, h3, Option.any_some, Option.any_none] at hsettled ⊢
    by_cases hkey : poll key = true
    · rw [if_pos hkey]
      refine ⟨hkey, ?_⟩
      rw [modify_task_self]
      simp [hframe, ParkKeys.frame]
    · rw [if_neg hkey] at hsettled
      simp at hsettled
  | any2 a b =>
    obtain ⟨h1, h2, h3⟩ := hholds
    simp only [h1, h2, h3, Option.any_some] at hsettled ⊢
    by_cases ha : poll a = true
    · rw [if_pos ha]
      left
      refine ⟨ha, ?_⟩
      rw [modify_task_self]
      simp [hframe, ParkKeys.frame]
    · rw [if_neg ha] at hsettled ⊢
      by_cases hb : poll b = true
      · rw [if_pos hb]
        right
        refine ⟨Bool.eq_false_iff.mpr ha, hb, ?_⟩
        rw [modify_task_self]
        simp [hframe, ParkKeys.frame]
      · rw [if_neg hb] at hsettled
        simp at hsettled
  | join ids =>
    obtain ⟨_, _, h3⟩ := hholds
    simp only [h3] at hsettled ⊢
    refine ⟨hsettled, ?_⟩
    simp [hframe, ParkKeys.frame]

/-- **A settled join means that the joined tasks have finished**, as far as they are ids
that `lv_task_spawn_registered` has returned. -/
theorem Invariant.finished_of_joinAllDone {s : Sched κ} {runq parked pool : List Nat}
    (h : s.Invariant runq parked pool) {ids : List Nat} (hdone : s.joinAllDone ids = true)
    {i : Nat} (hi : i ∈ ids) (hpos : 0 < i) (henrolled : i ∈ s.enrolled) : i ∈ s.finished := by
  have hnone : s.regFind i = none := by
    unfold joinAllDone at hdone
    rw [List.all_eq_true] at hdone
    exact Option.isNone_iff_eq_none.mp (hdone i hi)
  rcases h.live_or_finished hpos (h.enrolment.enrolled_le i henrolled) with ⟨r, hr, hid⟩ | hin
  · -- a live enrolled task would be found
    have hmem : (i, r) ∈ s.reg :=
      (h.enrolment.mem_reg i r).mpr ⟨h.live_iff.mp hr, hid ▸ henrolled, hid⟩
    unfold regFind at hnone
    rw [Option.map_eq_none_iff, List.find?_eq_none] at hnone
    exact absurd (decide_eq_true rfl) (hnone (i, r) hmem)
  · exact hin

end Sched

/-! ### Runs -/

/-- A run of the carrier loop of one thread. -/
abbrev CarrierRun (κ : Type) := Execution Carrier.step (Carrier.init : Carrier κ)

namespace CarrierRun

variable (e : CarrierRun κ)

/-- The scheduler before step `i`. -/
def sched (i : Nat) : Sched κ := (e.state i).sched

/-- The task `id` parks at step `i`. -/
def Begins (i id : Nat) (keys : ParkKeys κ) : Prop :=
  i < e.length ∧ (e.state i).begun (e.action i) = some (id, keys)

/-- A park of the task `id` returns at step `i`. -/
def Returns (i id : Nat) (reason : WakeReason) (ix : Option Nat) : Prop :=
  i < e.length ∧ (e.state i).returned (e.action i) = some (id, reason, ix)

/-- The return at `r` is that of the park begun at `b`: the task has begun none since. -/
def Answers (b r id : Nat) (reason : WakeReason) (ix : Option Nat) : Prop :=
  b ≤ r ∧ e.Returns r id reason ix ∧ ∀ m, b < m → m ≤ r → ∀ keys, ¬ e.Begins m id keys

/-- A cancel request sets the mark of the live task `id` at step `i`. -/
def Marks (i id : Nat) : Prop :=
  i < e.length ∧ (∃ poll, e.action i = .call (.cancel id poll)) ∧
    ∃ t, (e.sched i).Live t ∧ (e.sched i).idOf t = id ∧ ((e.sched i).task t).cancelled = false

/-- The step between `b` and `i` that woke the task `k`, according to its reason. -/
def Woken (i b : Nat) (keys : ParkKeys κ) (k : LvTask κ) : Prop :=
  ∃ j, b < j ∧ j < i ∧
    match k.wakeReason with
    | .settled =>
      ∃ poll, e.action j = .poll poll ∧
        (e.sched j).KeysSettled poll keys (Carrier.wokeIndex k)
    | .drained => e.action j = .drain ∧ (e.state j).control = .idle
    | .cancelled =>
      e.Marks j k.id ∧ ∃ t, (e.sched j).Live t ∧ (e.sched j).idOf t = k.id ∧
        ((e.sched j).task t).state = .parked ∧ ((e.sched j).task t).shield = 0

/-- The task `k` has been inside the park begun at `b` ever since. -/
structure Waiting (i b : Nat) (keys : ParkKeys κ) (k : LvTask κ) : Prop where
  before : b < i
  begins : e.Begins b k.id keys
  unanswered : ∀ r, (e.state b).returned (e.action b) ≠ some (k.id, r)
  silent : ∀ m, b < m → m < i → (e.state m).Silent (e.action m) k.id
  holds : k.Holds keys
  frame : k.frame = keys.frame
  place : k.state = .parked ∨ k.state = .runnable
  woken : k.state = .runnable → e.Woken i b keys k

/-- What is known of the live task `k` before step `i`. -/
structure Story (i : Nat) (k : LvTask κ) : Prop where
  idle : ¬ k.Waits → k.NoKeys
  waits : k.Waits → ∃ b keys, e.Waiting i b keys k
  marked : k.cancelled = true → ∃ j, j < i ∧ e.Marks j k.id ∧
    ∀ m, j < m → m < i → ∀ ix, ¬ e.Returns m k.id .cancelled ix

variable {e} {i b t : Nat} {keys : ParkKeys κ} {k : LvTask κ}

theorem Waiting.waits (h : e.Waiting i b keys k) : k.Waits := by
  rcases h.place with hp | hr
  · exact .inl hp
  · refine .inr ⟨hr, ?_⟩
    rw [h.frame]
    cases keys with
    | on key => exact .inl rfl
    | any2 x y => exact .inr rfl
    | join ids => exact .inl rfl

theorem Waiting.not_running (h : e.Waiting i b keys k) : k.state ≠ .running := by
  intro hr
  exact LvTask.not_waits_running hr h.waits

/-- The waking step stays the same while the task is woken. -/
theorem Woken.later (h : e.Woken i b keys k) (hreason : k'.wakeReason = k.wakeReason)
    (hid : k'.id = k.id) (hindex : Carrier.wokeIndex k' = Carrier.wokeIndex k) :
    e.Woken (i + 1) b keys k' := by
  obtain ⟨j, hbj, hji, hcause⟩ := h
  refine ⟨j, hbj, by omega, ?_⟩
  rw [hreason, hid, hindex]
  exact hcause

/-- A silent step prolongs the park. -/
theorem Waiting.later (h : e.Waiting i b keys k) (hid : k'.id = k.id)
    (hsilent : (e.state i).Silent (e.action i) k.id) (hholds : k'.Holds keys)
    (hframe : k'.frame = k.frame) (hplace : k'.state = .parked ∨ k'.state = .runnable)
    (hwoken : k'.state = .runnable → e.Woken (i + 1) b keys k') : e.Waiting (i + 1) b keys k' where
  before := by
    have hb := h.before
    omega
  begins := by
    rw [hid]
    exact h.begins
  unanswered := by
    rw [hid]
    exact h.unanswered
  silent := by
    rw [hid]
    intro m hbm hmi
    by_cases heq : m = i
    · rw [heq]
      exact hsilent
    · exact h.silent m hbm (by omega)
  holds := hholds
  frame := hframe.trans h.frame
  place := hplace
  woken := hwoken

/-- **One step of a park**: it goes on, or it returns in this step. -/
theorem Waiting.step (hi : i < e.length) (hlive : (e.sched i).Live t)
    (h : e.Waiting i b keys ((e.sched i).task t)) (hev : (e.state i).Evolves (e.action i) t k') :
    e.Waiting (i + 1) b keys k' ∨
      (k'.state = .running ∧ k'.NoKeys ∧ e.Answers b i ((e.sched i).idOf t)
        ((e.sched i).task t).wakeReason (Carrier.wokeIndex ((e.sched i).task t))) := by
  have hbi := h.before
  have hkeyframe : ((e.sched i).task t).frame ≠ .start ∧
      ((e.sched i).task t).frame ≠ .yielding := by
    rw [h.frame]
    cases keys <;> exact ⟨Frame.noConfusion, Frame.noConfusion⟩
  cases hev with
  | same silent =>
    left
    exact h.later rfl silent h.holds rfl h.place fun hr => (h.woken hr).later rfl rfl rfl
  | starts silent state frame =>
    rcases frame with hf | hf
    · exact absurd hf hkeyframe.1
    · exact absurd hf hkeyframe.2
  | yields silent state => exact absurd state h.not_running
  | shields silent state => exact absurd state h.not_running
  | marks silent poll request unmarked wokeIx noted =>
    left
    refine h.later rfl silent (h.holds.congr rfl rfl rfl) rfl h.place ?_
    intro hr
    -- a woken task keeps its index
    refine (h.woken hr).later rfl rfl ?_
    have hne : ((e.sched i).task t).state ≠ .parked := by
      rw [show ((e.sched i).task t).state = .runnable from hr]
      decide
    unfold Carrier.wokeIndex
    dsimp only
    rw [noted hne]
    rfl
  | cancels silent poll request unmarked state shield =>
    left
    refine h.later rfl silent (h.holds.congr rfl rfl rfl) rfl (.inr rfl) ?_
    intro _
    exact ⟨i, hbi, by omega, ⟨hi, ⟨poll, request⟩, t, hlive, rfl, unmarked⟩, t, hlive, rfl, state,
      shield⟩
  | settles silent poll polled state settled =>
    left
    have hkeys : (e.state i).sched.KeysSettled poll keys
        (Carrier.wokeIndex ((e.state i).sched.settledTask poll t)) :=
      Sched.keysSettled_of_settled h.holds h.frame settled
    obtain ⟨ix, heq⟩ := (e.state i).sched.settledTask_eq poll t
    rw [heq] at hkeys ⊢
    refine h.later rfl silent (h.holds.congr rfl rfl rfl) rfl (.inr rfl) ?_
    intro _
    exact ⟨i, hbi, by omega, poll, polled, hkeys⟩
  | drains silent drained idle state =>
    left
    refine h.later rfl silent (h.holds.congr rfl rfl rfl) rfl (.inr rfl) ?_
    intro _
    exact ⟨i, hbi, by omega, drained, idle⟩
  | resumes state frame begun returned =>
    right
    refine ⟨rfl, ⟨rfl, rfl, rfl⟩, by omega, ⟨hi, returned⟩, ?_⟩
    intro m hbm hmi keys' hm
    by_cases heq : m = i
    · rw [heq] at hm
      have hbegun := hm.2
      rw [begun] at hbegun
      cases hbegun
    · exact (h.silent m hbm (by omega)).1 keys' hm.2
  | refuses keys' state => exact absurd state h.not_running
  | joins ids state => exact absurd state h.not_running
  | parks keys' state => exact absurd state h.not_running

/-- The running task's park has begun and not returned. -/
theorem waiting_of_parks (hi : i < e.length) (hidle : ((e.sched i).task t).NoKeys)
    (hbegun : (e.state i).begun (e.action i) = some ((e.sched i).idOf t, keys))
    (hreturned : (e.state i).returned (e.action i) = none) :
    e.Waiting (i + 1) i keys { ((e.sched i).task t).withKeys keys with
      wakeReason := .settled, wokeIx := 0, state := .parked, frame := keys.frame } where
  before := by omega
  begins := by
    refine ⟨hi, ?_⟩
    dsimp only
    rw [LvTask.withKeys_id]
    exact hbegun
  unanswered := by
    intro r hr
    rw [hreturned] at hr
    cases hr
  silent := by
    intro m hbm hmi
    omega
  holds := (LvTask.holds_withKeys hidle keys).congr rfl rfl rfl
  frame := rfl
  place := .inl rfl
  woken := by
    intro hr
    cases hr

/-- **One step of a story.** -/
theorem Story.step (hi : i < e.length) (hlive : (e.sched i).Live t)
    (h : e.Story i ((e.sched i).task t)) (hev : (e.state i).Evolves (e.action i) t k') :
    e.Story (i + 1) k' := by
  -- the mark first: it is an old one, or this step has set it
  have hmarked : k'.cancelled = true → ∃ j, j < i + 1 ∧ e.Marks j k'.id ∧
      ∀ m, j < m → m < i + 1 → ∀ ix, ¬ e.Returns m k'.id .cancelled ix := by
    intro hmark
    rw [hev.id]
    rcases hev.marked hmark with ⟨hold, hkept⟩ | ⟨hnew, poll, ha⟩
    · obtain ⟨j, hji, hj, hclear⟩ := h.marked hold
      refine ⟨j, by omega, hj, ?_⟩
      intro m hjm hmi ix hret
      by_cases heq : m = i
      · rw [heq] at hret
        exact hkept ix hret.2
      · exact hclear m hjm (by omega) ix hret
    · refine ⟨i, by omega, ⟨hi, ⟨poll, ha⟩, t, hlive, rfl, hnew⟩, ?_⟩
      intro m him hmi
      omega
  by_cases hw : ((e.sched i).task t).Waits
  · obtain ⟨b, keys, hwait⟩ := h.waits hw
    rcases hwait.step hi hlive hev with hlater | ⟨hrun, hnone, _⟩
    · exact ⟨fun hn => absurd hlater.waits hn, fun _ => ⟨b, keys, hlater⟩, hmarked⟩
    · exact ⟨fun _ => hnone, fun hw' => absurd hw' (LvTask.not_waits_running hrun), hmarked⟩
  · have hnone := h.idle hw
    cases hev with
    | same silent => exact ⟨fun _ => hnone, fun hw' => absurd hw' hw, hmarked⟩
    | starts silent state frame =>
      exact ⟨fun _ => hnone, fun hw' => absurd hw' (LvTask.not_waits_running rfl), hmarked⟩
    | yields silent state =>
      refine ⟨fun _ => hnone, ?_, hmarked⟩
      intro hw'
      rcases hw' with hs | ⟨_, hf | hf⟩
      · cases hs
      · cases hf
      · cases hf
    | shields silent state shield =>
      exact ⟨fun _ => hnone, fun hw' => absurd hw' (LvTask.not_waits_running state), hmarked⟩
    | marks silent poll request unmarked wokeIx noted =>
      exact ⟨fun _ => hnone, fun hw' => absurd hw' hw, hmarked⟩
    | cancels silent poll request unmarked state shield => exact absurd (.inl state) hw
    | settles silent poll polled state settled => exact absurd (.inl state) hw
    | drains silent drained idle state => exact absurd (.inl state) hw
    | resumes state frame begun returned => exact absurd (.inr ⟨state, frame⟩) hw
    | refuses keys state marked shield begun returned =>
      exact ⟨fun _ => ⟨rfl, rfl, rfl⟩, fun hw' => absurd hw' (LvTask.not_waits_running state),
        hmarked⟩
    | joins ids state done begun returned =>
      exact ⟨fun _ => hnone, fun hw' => absurd hw' hw, hmarked⟩
    | parks keys state masked begun returned =>
      exact ⟨fun hn => absurd (.inl rfl) hn,
        fun _ => ⟨i, keys, waiting_of_parks hi hnone begun returned⟩, hmarked⟩

/-- A newborn task has no story yet. -/
theorem story_newborn (h : Sched.Newborn k) : e.Story i k := by
  obtain ⟨id, registered, rfl⟩ := h
  refine ⟨fun _ => ⟨rfl, rfl, rfl⟩, ?_, ?_⟩
  · intro hw
    rcases hw with hs | ⟨_, hf | hf⟩
    · cases hs
    · cases hf
    · cases hf
  · intro hm
    cases hm

theorem sound (e : CarrierRun κ) (i : Nat) (hi : i ≤ e.length) : (e.state i).Sound :=
  e.invariant Carrier.sound_init (fun _ _ _ => Carrier.step_sound) i hi

/-- **The story of every live task**, all along the run. -/
theorem story (e : CarrierRun κ) : ∀ i, i ≤ e.length → ∀ t, (e.sched i).Live t →
    e.Story i ((e.sched i).task t) := by
  intro i
  induction i with
  | zero =>
    intro _ t hlive
    have hnone : t < 0 := by
      have hlt := hlive.1
      unfold sched at hlt
      rw [e.first] at hlt
      exact hlt
    omega
  | succ i ih =>
    intro hi t hlive
    have hsound := e.sound i (by omega)
    have hstep := e.steps i (by omega)
    rcases Carrier.live_before hsound hstep hlive with hold | hnew
    · refine (ih (by omega) t hold).step (by omega) hold
        (Carrier.evolves hsound hstep hold ?_)
      intro hand
      rw [hand.1] at hstep
      exact (Carrier.ends hsound hstep hand.2).1 hlive
    · exact story_newborn hnew

/-! ### Which park a return answers -/

variable {r id : Nat} {reason : WakeReason} {ix : Option Nat}

/-- Only a live task parks. -/
theorem Begins.task (h : e.Begins b id keys) :
    ∃ t, (e.sched b).Live t ∧ (e.sched b).idOf t = id ∧ (e.sched b).current = some t := by
  obtain ⟨_, _, _, hinv⟩ := (e.sound b h.1.le).good
  obtain ⟨t, hcurrent, hid⟩ := Carrier.begun_current h.2
  exact ⟨t, hinv.live_current hcurrent, hid, hcurrent⟩

/-- Only a live task returns from a park. -/
theorem Returns.task (h : e.Returns r id reason ix) :
    ∃ t, (e.sched r).Live t ∧ (e.sched r).idOf t = id := by
  obtain ⟨runq, _, _, hinv⟩ := (e.sound r h.1.le).good
  rcases Carrier.returned_actor h.2 with ⟨t, hcurrent, hid⟩ | ⟨_, t, hhead, hid⟩
  · exact ⟨t, hinv.live_current hcurrent, hid⟩
  · refine ⟨t, ?_, hid⟩
    unfold sched
    rw [hinv.live_iff]
    have hmem : t ∈ runq := by
      have hq := hinv.laid.runq_queue.head_eq
      rw [hhead] at hq
      exact List.mem_of_head? hq.symm
    simp [hmem]

/-- What a live task makes of a step, unless it ends there. -/
theorem evolves_at (e : CarrierRun κ) (hi : i < e.length) (hlive : (e.sched i).Live t)
    (hends : ¬ (e.action i = .call .returns ∧ (e.sched i).current = some t)) :
    (e.state i).Evolves (e.action i) t ((e.sched (i + 1)).task t) :=
  Carrier.evolves (e.sound i hi.le) (e.steps i hi) hlive hends

/-- **A return ends a wait, or comes at the entry of a park**: because a mark is pending, or
because there is nothing to join. -/
theorem Returns.cases (h : e.Returns r id reason ix) :
    ∃ t, (e.sched r).Live t ∧ (e.sched r).idOf t = id ∧
      ((∃ b keys, e.Waiting r b keys ((e.sched r).task t) ∧
          ((e.sched r).task t).state = .runnable ∧
          reason = ((e.sched r).task t).wakeReason ∧
          ix = Carrier.wokeIndex ((e.sched r).task t) ∧ ∀ keys, ¬ e.Begins r id keys) ∨
        (∃ keys, e.Begins r id keys ∧ reason = .cancelled ∧ ix = none ∧
          ((e.sched r).task t).cancelled = true ∧ ((e.sched r).task t).shield = 0 ∧
          ((e.sched r).task t).state = .running) ∨
        (∃ ids, e.Begins r id (.join ids) ∧ reason = .settled ∧ ix = none ∧
          (e.sched r).joinAllDone ids = true)) := by
  obtain ⟨t, hlive, hid⟩ := h.task
  obtain ⟨hr, hret⟩ := h
  have hends : ¬ (e.action r = .call .returns ∧ (e.sched r).current = some t) := by
    intro hand
    rw [hand.1] at hret
    cases hret
  have hev := e.evolves_at hr hlive hends
  have hstory := e.story r hr.le t hlive
  subst hid
  refine ⟨t, hlive, rfl, ?_⟩
  -- a silent step would not have returned
  have hnot : ¬ (e.state r).Silent (e.action r) ((e.sched r).idOf t) := by
    intro hsilent
    exact hsilent.2 _ hret
  generalize (e.sched (r + 1)).task t = k' at hev
  cases hev with
  | same silent => exact absurd silent hnot
  | starts silent => exact absurd silent hnot
  | yields silent => exact absurd silent hnot
  | shields silent => exact absurd silent hnot
  | marks silent => exact absurd silent hnot
  | cancels silent => exact absurd silent hnot
  | settles silent => exact absurd silent hnot
  | drains silent => exact absurd silent hnot
  | resumes state frame begun returned =>
    left
    obtain ⟨b, keys, hwait⟩ := hstory.waits (.inr ⟨state, frame⟩)
    rw [returned] at hret
    cases hret
    refine ⟨b, keys, hwait, state, rfl, rfl, ?_⟩
    intro keys' hb
    have hbegun := hb.2
    rw [begun] at hbegun
    cases hbegun
  | refuses keys state marked shield begun returned =>
    right
    left
    rw [returned] at hret
    cases hret
    exact ⟨keys, ⟨hr, begun⟩, rfl, rfl, marked, shield, state⟩
  | joins ids state done begun returned =>
    right
    right
    rw [returned] at hret
    cases hret
    exact ⟨ids, ⟨hr, begun⟩, rfl, rfl, done⟩
  | parks keys state masked begun returned =>
    rw [returned] at hret
    cases hret

theorem Begins.keys_unique {keys' : ParkKeys κ} (h : e.Begins b id keys)
    (h' : e.Begins b id keys') : keys = keys' := by
  have heq := h.2.symm.trans h'.2
  exact congrArg Prod.snd (Option.some.inj heq)

/-- **What made a park return.** -/
theorem Answers.cases (hb : e.Begins b id keys) (h : e.Answers b r id reason ix) :
    ∃ t, (e.sched r).Live t ∧ (e.sched r).idOf t = id ∧
      ((e.Waiting r b keys ((e.sched r).task t) ∧
          e.Woken r b keys ((e.sched r).task t) ∧
          reason = ((e.sched r).task t).wakeReason ∧
          ix = Carrier.wokeIndex ((e.sched r).task t)) ∨
        (r = b ∧ reason = .cancelled ∧ ix = none ∧ ((e.sched r).task t).cancelled = true ∧
          ((e.sched r).task t).shield = 0 ∧ ((e.sched r).task t).state = .running) ∨
        (r = b ∧ reason = .settled ∧ ix = none ∧ ∃ ids, keys = .join ids ∧
          (e.sched r).joinAllDone ids = true)) := by
  obtain ⟨hbr, hret, hlast⟩ := h
  -- a park that begins at the return is this one
  have hsame : ∀ keys', e.Begins r id keys' → r = b := by
    intro keys' hr
    by_contra hne
    exact hlast r (by omega) le_rfl keys' hr
  obtain ⟨t, hlive, hid, hcase⟩ := hret.cases
  refine ⟨t, hlive, hid, ?_⟩
  rcases hcase with ⟨b', keys', hwait, hrun, hreason, hix, hnone⟩ | hcase | hcase
  · left
    subst hid
    have hne : b ≠ r := by
      intro heq
      exact hnone keys (heq ▸ hb)
    have heq : b' = b := by
      by_contra hneq
      by_cases hlt : b' < b
      · exact (hwait.silent b hlt (by omega)).1 keys hb.2
      · have hb'r := hwait.before
        exact hlast b' (by omega) (by omega) keys' hwait.begins
    subst heq
    obtain rfl := hwait.begins.keys_unique hb
    exact ⟨hwait, hwait.woken hrun, hreason, hix⟩
  · right
    left
    obtain ⟨keys', hr, hreason, hix, hmark, hshield, hstate⟩ := hcase
    exact ⟨hsame keys' hr, hreason, hix, hmark, hshield, hstate⟩
  · right
    right
    obtain ⟨ids, hr, hreason, hix, hdone⟩ := hcase
    have heq := hsame _ hr
    subst heq
    exact ⟨rfl, hreason, hix, ids, hb.keys_unique hr, hdone⟩

/-- A return belongs to a park. -/
theorem Returns.answers (h : e.Returns r id reason ix) :
    ∃ b keys, e.Begins b id keys ∧ e.Answers b r id reason ix := by
  have hself : ∀ keys, e.Begins r id keys → ∃ b keys, e.Begins b id keys ∧
      e.Answers b r id reason ix := by
    intro keys hb
    refine ⟨r, keys, hb, le_rfl, h, ?_⟩
    intro m hrm hmr
    omega
  obtain ⟨t, _, hid, hcase⟩ := h.cases
  rcases hcase with ⟨b, keys, hwait, _, _, _, hnone⟩ | ⟨keys, hb, _⟩ | ⟨ids, hb, _⟩
  · subst hid
    refine ⟨b, keys, hwait.begins, hwait.before.le, h, ?_⟩
    intro m hbm hmr keys' hm
    by_cases heq : m = r
    · exact hnone keys' (heq ▸ hm)
    · exact (hwait.silent m hbm (by omega)).1 keys' hm.2
  · exact hself keys hb
  · exact hself _ hb

/-- **A park returns at most once.** -/
theorem Answers.unique {r' : Nat} {reason' : WakeReason} {ix' : Option Nat}
    (hb : e.Begins b id keys) (h : e.Answers b r id reason ix)
    (h' : e.Answers b r' id reason' ix') : r = r' := by
  -- an answer that comes later finds the task waiting since `b`
  have hlate : ∀ {r₁ r₂ : Nat} {w₁ w₂ : WakeReason} {x₁ x₂ : Option Nat},
      e.Answers b r₁ id w₁ x₁ → e.Answers b r₂ id w₂ x₂ → ¬ r₁ < r₂ := by
    intro r₁ r₂ w₁ w₂ x₁ x₂ h₁ h₂ hlt
    obtain ⟨t, _, hid, hcase⟩ := h₂.cases hb
    subst hid
    rcases hcase with ⟨hwait, _⟩ | ⟨heq, _⟩ | ⟨heq, _⟩
    · by_cases hbeq : r₁ = b
      · exact hwait.unanswered _ (hbeq ▸ h₁.2.1.2)
      · have hle := h₁.1
        exact (hwait.silent r₁ (by omega) hlt).2 _ h₁.2.1.2
    · have hle := h₁.1
      omega
    · have hle := h₁.1
      omega
  have h1 := hlate h h'
  have h2 := hlate h' h
  omega

/-- A task does not end in a park. -/
theorem Begins.not_ends (h : e.Begins b id keys) : e.action b ≠ .call .returns := by
  intro heq
  have hbegun := h.2
  rw [heq] at hbegun
  cases hbegun

/-- **A park that has begun has returned, or its task is still inside it.** -/
theorem answered_or_waiting (e : CarrierRun κ) {id b : Nat} {keys : ParkKeys κ}
    (hb : e.Begins b id keys) : ∀ i, b < i → i ≤ e.length →
    (∃ r reason ix, r < i ∧ e.Answers b r id reason ix) ∨
      ∃ t, (e.sched i).Live t ∧ (e.sched i).idOf t = id ∧
        e.Waiting i b keys ((e.sched i).task t) := by
  intro i
  induction i with
  | zero =>
    intro hlt
    omega
  | succ i ih =>
    intro hbi hi
    have hsound := e.sound i (by omega)
    have hstep := e.steps i (by omega)
    by_cases heq : b = i
    · -- the step at which the park begins
      subst heq
      obtain ⟨t, hlive, rfl, hcurrent⟩ := hb.task
      have hends : ¬ (e.action b = .call .returns ∧ (e.sched b).current = some t) :=
        fun hand => hb.not_ends hand.1
      have hlive' := Carrier.stays_live hsound hstep hlive hends
      have hev := e.evolves_at hb.1 hlive hends
      have hid : (e.sched (b + 1)).idOf t = (e.sched b).idOf t := hev.id
      have hstory := e.story b hb.1.le t hlive
      have hself : ∀ {reason : WakeReason} {ix : Option Nat},
          (e.state b).returned (e.action b) = some ((e.sched b).idOf t, reason, ix) →
          ∃ r reason ix, r < b + 1 ∧ e.Answers b r ((e.sched b).idOf t) reason ix := by
        intro reason ix hret
        refine ⟨b, reason, ix, by omega, le_rfl, ⟨hb.1, hret⟩, ?_⟩
        intro m hbm hmb
        omega
      have hnot : ¬ (e.state b).Silent (e.action b) ((e.sched b).idOf t) := by
        intro hsilent
        exact hsilent.1 keys hb.2
      have hrunning : ((e.sched b).task t).state = .running := by
        obtain ⟨_, _, _, hinv⟩ := hsound.good
        exact hinv.running t hcurrent
      generalize hk : (e.sched (b + 1)).task t = k' at hev
      cases hev with
      | same silent => exact absurd silent hnot
      | starts silent => exact absurd silent hnot
      | yields silent => exact absurd silent hnot
      | shields silent => exact absurd silent hnot
      | marks silent => exact absurd silent hnot
      | cancels silent => exact absurd silent hnot
      | settles silent => exact absurd silent hnot
      | drains silent => exact absurd silent hnot
      | resumes state frame begun returned =>
        have hbegun := hb.2
        rw [begun] at hbegun
        cases hbegun
      | refuses keys' state marked shield begun returned => exact .inl (hself returned)
      | joins ids state done begun returned => exact .inl (hself returned)
      | parks keys' state masked begun returned =>
        right
        obtain rfl := hb.keys_unique ⟨hb.1, begun⟩
        refine ⟨t, hlive', hid, ?_⟩
        rw [hk]
        exact waiting_of_parks hb.1 (hstory.idle (LvTask.not_waits_running hrunning)) begun
          returned
    · rcases ih (by omega) (by omega) with ⟨r, reason, ix, hri, hans⟩ | ⟨t, hlive, rfl, hwait⟩
      · exact .inl ⟨r, reason, ix, by omega, hans⟩
      · have hends : ¬ (e.action i = .call .returns ∧ (e.sched i).current = some t) := by
          -- a waiting task does not run
          intro hand
          obtain ⟨_, _, _, hinv⟩ := hsound.good
          exact hwait.not_running (hinv.running t hand.2)
        have hlive' := Carrier.stays_live hsound hstep hlive hends
        have hev := e.evolves_at (by omega) hlive hends
        rcases hwait.step (by omega) hlive hev with hlater | ⟨_, _, hans⟩
        · exact .inr ⟨t, hlive', hev.id, hlater⟩
        · exact .inl ⟨i, _, _, by omega, hans⟩

/-- When `lv_sched_run` returns because nothing is left to do, no task is live. -/
theorem not_live_of_quiescent (hi : i ≤ e.length) (hquiet : (e.state i).control = .quiescent) :
    ¬ (e.sched i).Live t := by
  have hsound := e.sound i hi
  obtain ⟨runq, parked, _, hinv⟩ := hsound.good
  have hcurrent := hsound.current_none (by rw [hquiet]; decide)
  have hrunq := hsound.empty (.inr (.inr (.inr hquiet)))
  have hparked := hsound.ended hquiet
  rw [hinv.laid.runq_queue.head_eq, List.head?_eq_none_iff] at hrunq
  rw [hinv.laid.parked_queue.head_eq, List.head?_eq_none_iff] at hparked
  unfold sched
  rw [hinv.live_iff, hcurrent, hrunq, hparked]
  simp

/-- While the loop is idle every live task is parked. -/
theorem parked_of_idle (hi : i ≤ e.length) (hidle : (e.state i).control = .idle)
    (hlive : (e.sched i).Live t) : ((e.sched i).task t).state = .parked := by
  have hsound := e.sound i hi
  obtain ⟨runq, parked, _, hinv⟩ := hsound.good
  have hcurrent := hsound.current_none (by rw [hidle]; decide)
  have hrunq := hsound.empty (.inr (.inr (.inl hidle)))
  rw [hinv.laid.runq_queue.head_eq, List.head?_eq_none_iff] at hrunq
  unfold sched at hlive
  rw [hinv.live_iff, hcurrent, hrunq] at hlive
  exact hinv.parked_state t (by simpa using hlive)

/-- An id that `lv_task_spawn_registered` has returned is positive. -/
theorem enrolled_pos (e : CarrierRun κ) : ∀ i, i ≤ e.length → ∀ id ∈ (e.sched i).enrolled,
    0 < id := by
  intro i
  induction i with
  | zero =>
    intro _ id hid
    unfold sched at hid
    rw [e.first] at hid
    cases hid
  | succ i ih =>
    intro hi id hid
    have hgrows := Carrier.step_grows (e.sound i (by omega)) (e.steps i (by omega))
    rcases hgrows.enrols id hid with hold | hnew
    · exact ih (by omega) id hold
    · omega

/-- The books only grow. -/
theorem books_mono (e : CarrierRun κ) {i : Nat} : ∀ {j : Nat}, i ≤ j → j ≤ e.length →
    (∀ id ∈ (e.sched i).finished, id ∈ (e.sched j).finished) ∧
      ∀ id ∈ (e.sched i).enrolled, id ∈ (e.sched j).enrolled := by
  intro j hij
  induction j, hij using Nat.le_induction with
  | base =>
    intro _
    exact ⟨fun id hid => hid, fun id hid => hid⟩
  | succ j hij ih =>
    intro hj
    obtain ⟨hfinished, henrolled⟩ := ih (by omega)
    have hgrows := Carrier.step_grows (e.sound j (by omega)) (e.steps j (by omega))
    exact ⟨fun id hid => hgrows.finished id (hfinished id hid),
      fun id hid => hgrows.enrolled id (henrolled id hid)⟩

/-- A task found by a cancel request carries the mark afterwards. -/
theorem marked_after (hi : i < e.length) (ha : e.action i = .call (.cancel id poll))
    (hfind : (e.sched i).regFind id = some t) :
    (e.sched (i + 1)).Live t ∧ (e.sched (i + 1)).idOf t = id ∧
      ((e.sched (i + 1)).task t).cancelled = true := by
  have hsound := e.sound i hi.le
  have hstep := e.steps i hi
  obtain ⟨_, _, _, hinv⟩ := hsound.good
  obtain ⟨hmem, hid⟩ := hinv.regFind_some hfind
  have hlive : (e.sched i).Live t := hinv.live_iff.mpr hmem
  have hends : ¬ (e.action i = .call .returns ∧ (e.sched i).current = some t) := by
    intro hand
    rw [ha] at hand
    cases hand.1
  have hlive' := Carrier.stays_live hsound hstep hlive hends
  have hev := e.evolves_at hi hlive hends
  refine ⟨hlive', hev.id.trans hid, ?_⟩
  have hop := Carrier.step_op hsound hstep
  rw [ha] at hop
  have htask := Sched.step_task hinv hop hlive
  unfold sched at hfind ⊢
  rw [htask]
  unfold Sched.after
  dsimp only
  rw [if_pos hfind]
  exact (e.state i).sched.cancelledTask_cancelled poll t

/-- **A mark is not lost**: until it is delivered the task carries it or has finished. -/
theorem mark_kept {j : Nat} (hj : j < e.length) (ha : e.action j = .call (.cancel id poll))
    (hfind : (e.sched j).regFind id ≠ none) :
    ∀ {i : Nat}, j < i → i ≤ e.length →
      (∀ m, j < m → m < i → ∀ ix, ¬ e.Returns m id .cancelled ix) →
      id ∈ (e.sched i).finished ∨ ∃ t, (e.sched i).Live t ∧ (e.sched i).idOf t = id ∧
        ((e.sched i).task t).cancelled = true := by
  intro i hji
  induction i, hji using Nat.le_induction with
  | base =>
    intro _ _
    obtain ⟨t, ht⟩ := Option.ne_none_iff_exists'.mp hfind
    exact .inr ⟨t, marked_after hj ha ht⟩
  | succ i hji ih =>
    intro hi hclear
    have hsound := e.sound i (by omega)
    have hstep := e.steps i (by omega)
    rcases ih (by omega) (fun m hjm hmi => hclear m hjm (by omega)) with hdone | ⟨t, hlive, hid, hmark⟩
    · exact .inl ((Carrier.step_grows hsound hstep).finished id hdone)
    · by_cases hends : e.action i = .call .returns ∧ (e.sched i).current = some t
      · left
        rw [hends.1] at hstep
        rw [← hid]
        exact (Carrier.ends hsound hstep hends.2).2
      · right
        have hev := e.evolves_at (by omega) hlive hends
        refine ⟨t, Carrier.stays_live hsound hstep hlive hends, hev.id.trans hid, ?_⟩
        refine hev.keeps_mark hmark ?_
        intro ix hret
        refine hclear i hji (by omega) ix ⟨by omega, ?_⟩
        rw [← hid]
        exact hret

/-- **A pending mark is delivered at the next park that no shield masks**, unless there is
nothing to join. -/
theorem Begins.delivers (h : e.Begins b id keys) (hlive : (e.sched b).Live t)
    (hid : (e.sched b).idOf t = id) (hmark : ((e.sched b).task t).cancelled = true)
    (hshield : ((e.sched b).task t).shield = 0) :
    e.Returns b id .cancelled none ∨
      ∃ ids, keys = .join ids ∧ (e.sched b).joinAllDone ids = true ∧
        e.Returns b id .settled none := by
  have hev := e.evolves_at h.1 hlive fun hand => h.not_ends hand.1
  subst hid
  have hnot : ¬ (e.state b).Silent (e.action b) ((e.sched b).idOf t) := by
    intro hsilent
    exact hsilent.1 keys h.2
  generalize (e.sched (b + 1)).task t = k' at hev
  cases hev with
  | same silent => exact absurd silent hnot
  | starts silent => exact absurd silent hnot
  | yields silent => exact absurd silent hnot
  | shields silent => exact absurd silent hnot
  | marks silent => exact absurd silent hnot
  | cancels silent => exact absurd silent hnot
  | settles silent => exact absurd silent hnot
  | drains silent => exact absurd silent hnot
  | resumes state frame begun returned =>
    have hbegun := h.2
    rw [begun] at hbegun
    cases hbegun
  | refuses keys' state marked shield begun returned => exact .inl ⟨h.1, returned⟩
  | joins ids state done begun returned =>
    exact .inr ⟨ids, h.keys_unique ⟨h.1, begun⟩, done, h.1, returned⟩
  | parks keys' state masked begun returned => exact absurd ⟨hmark, hshield⟩ masked

/-! ### The protocol -/

/-- **The protocol of parking and cancelling**, over one run. -/
structure Protocol (e : CarrierRun κ) : Prop where
  /-- Every return is that of a park. -/
  answers : ∀ r id reason ix, e.Returns r id reason ix →
    ∃ b keys, e.Begins b id keys ∧ e.Answers b r id reason ix
  /-- A park returns at most once. -/
  once : ∀ b id keys, e.Begins b id keys → ∀ r r' reason reason' ix ix',
    e.Answers b r id reason ix → e.Answers b r' id reason' ix' → r = r'
  /-- It has returned when `lv_sched_run` returns with nothing left to do. -/
  returned : (e.state e.length).control = .quiescent → ∀ b id keys, e.Begins b id keys →
    ∃ r reason ix, e.Answers b r id reason ix
  /-- CANCELLED: a request has set the mark, which no other park has consumed, and at the
  delivery no shield masks it.  The delivery is at the request if that finds the task
  parked, else at the entry of the park. -/
  cancelled : ∀ b id keys r ix, e.Begins b id keys → e.Answers b r id .cancelled ix →
    ∃ j d t, e.Marks j id ∧ j ≤ d ∧ b ≤ d ∧ d ≤ r ∧
      (e.sched d).Live t ∧ (e.sched d).idOf t = id ∧ ((e.sched d).task t).shield = 0 ∧
      ((d = j ∧ ((e.sched d).task t).state = .parked) ∨
        (d = r ∧ r = b ∧ ((e.sched d).task t).cancelled = true)) ∧
      ∀ m, j < m → m < r → ∀ ix, ¬ e.Returns m id .cancelled ix
  /-- SETTLED: a poll has found a key settled, and reports the first such key; a join that
  has nothing to wait for returns at once. -/
  settled : ∀ b id keys r ix, e.Begins b id keys → e.Answers b r id .settled ix →
    (∃ j poll, b < j ∧ j < r ∧ e.action j = .poll poll ∧
      (e.sched j).KeysSettled poll keys ix) ∨
    (r = b ∧ ix = none ∧ ∃ ids, keys = .join ids ∧ (e.sched b).joinAllDone ids = true)
  /-- DRAINED: the loop had no work and every live task was parked. -/
  drained : ∀ b id keys r ix, e.Begins b id keys → e.Answers b r id .drained ix →
    ∃ j, b ≤ j ∧ j + 1 < r ∧ e.action j = .loopStep none ∧ e.action (j + 1) = .drain ∧
      ∀ t, (e.sched (j + 1)).Live t → ((e.sched (j + 1)).task t).state = .parked
  /-- Between two deliveries to a task there is a request that sets its mark again. -/
  deliveredOnce : ∀ r r' id ix ix', r < r' → e.Returns r id .cancelled ix →
    e.Returns r' id .cancelled ix' → ∃ j, r < j ∧ j < r' ∧ e.Marks j id
  /-- After a request that finds its task, and until the delivery, the task carries the
  mark or has finished. -/
  kept : ∀ j id poll, j < e.length → e.action j = .call (.cancel id poll) →
    (e.sched j).regFind id ≠ none → ∀ i, j < i → i ≤ e.length →
    (∀ m, j < m → m < i → ∀ ix, ¬ e.Returns m id .cancelled ix) →
    id ∈ (e.sched i).finished ∨ ∃ t, (e.sched i).Live t ∧ (e.sched i).idOf t = id ∧
      ((e.sched i).task t).cancelled = true
  /-- A mark that is pending at a park without a shield is delivered there, unless there is
  nothing to join. -/
  delivered : ∀ b id keys t, e.Begins b id keys → (e.sched b).Live t →
    (e.sched b).idOf t = id → ((e.sched b).task t).cancelled = true →
    ((e.sched b).task t).shield = 0 → e.Returns b id .cancelled none ∨
      ∃ ids, keys = .join ids ∧ (e.sched b).joinAllDone ids = true ∧
        e.Returns b id .settled none
  /-- A settled join comes after the end of every joined task. -/
  joined : ∀ b id ids r ix, e.Begins b id (.join ids) → e.Answers b r id .settled ix →
    ∀ i ∈ ids, i ∈ (e.sched b).enrolled → i ∈ (e.sched r).finished

/-- No park returns at a cancel request. -/
theorem Marks.not_returns (h : e.Marks i id) {id' : Nat} : ¬ e.Returns i id' reason ix := by
  intro hret
  obtain ⟨_, ⟨poll, ha⟩, _⟩ := h
  have hr := hret.2
  rw [ha] at hr
  cases hr

theorem cancelled_cause (hb : e.Begins b id keys) (h : e.Answers b r id .cancelled ix) :
    ∃ j d t, e.Marks j id ∧ j ≤ d ∧ b ≤ d ∧ d ≤ r ∧
      (e.sched d).Live t ∧ (e.sched d).idOf t = id ∧ ((e.sched d).task t).shield = 0 ∧
      ((d = j ∧ ((e.sched d).task t).state = .parked) ∨
        (d = r ∧ r = b ∧ ((e.sched d).task t).cancelled = true)) ∧
      ∀ m, j < m → m < r → ∀ ix, ¬ e.Returns m id .cancelled ix := by
  obtain ⟨t, hlive, hid, hcase⟩ := h.cases hb
  rcases hcase with ⟨hwait, hwoken, hreason, _⟩ | ⟨hrb, _, _, hmark, hshield, _⟩ | ⟨_, hreason, _⟩
  · -- woken by a request while parked
    subst hid
    obtain ⟨j, hbj, hjr, hcause⟩ := hwoken
    rw [← hreason] at hcause
    obtain ⟨hmarks, q, hq, hqid, hparked, hshield⟩ := hcause
    refine ⟨j, j, q, hmarks, le_rfl, hbj.le, hjr.le, hq, hqid, hshield, .inl ⟨rfl, hparked⟩, ?_⟩
    intro m hjm hmr ix hret
    exact (hwait.silent m (by omega) hmr).2 _ hret.2
  · -- refused at the entry: the mark is older
    obtain ⟨j, hjr, hmarks, hclear⟩ := (e.story r h.2.1.1.le t hlive).marked hmark
    subst hid
    exact ⟨j, r, t, hmarks, hjr.le, h.1, le_rfl, hlive, rfl, hshield, .inr ⟨rfl, hrb, hmark⟩,
      hclear⟩
  · cases hreason

theorem settled_cause (hb : e.Begins b id keys) (h : e.Answers b r id .settled ix) :
    (∃ j poll, b < j ∧ j < r ∧ e.action j = .poll poll ∧
      (e.sched j).KeysSettled poll keys ix) ∨
    (r = b ∧ ix = none ∧ ∃ ids, keys = .join ids ∧ (e.sched b).joinAllDone ids = true) := by
  obtain ⟨t, hlive, hid, hcase⟩ := h.cases hb
  rcases hcase with ⟨_, hwoken, hreason, hix⟩ | ⟨_, hreason, _⟩ | ⟨hrb, _, hix, ids, hkeys, hdone⟩
  · left
    obtain ⟨j, hbj, hjr, hcause⟩ := hwoken
    rw [← hreason] at hcause
    obtain ⟨poll, ha, hkeys⟩ := hcause
    rw [← hix] at hkeys
    exact ⟨j, poll, hbj, hjr, ha, hkeys⟩
  · cases hreason
  · right
    rw [hrb] at hdone
    exact ⟨hrb, hix, ids, hkeys, hdone⟩

theorem drained_cause (hb : e.Begins b id keys) (h : e.Answers b r id .drained ix) :
    ∃ j, b ≤ j ∧ j + 1 < r ∧ e.action j = .loopStep none ∧ e.action (j + 1) = .drain ∧
      ∀ t, (e.sched (j + 1)).Live t → ((e.sched (j + 1)).task t).state = .parked := by
  have hr := h.2.1.1
  obtain ⟨t, hlive, hid, hcase⟩ := h.cases hb
  rcases hcase with ⟨_, hwoken, hreason, _⟩ | ⟨_, hreason, _⟩ | ⟨_, hreason, _⟩
  · obtain ⟨j, hbj, hjr, hcause⟩ := hwoken
    rw [← hreason] at hcause
    obtain ⟨ha, hidle⟩ := hcause
    obtain ⟨j, rfl⟩ : ∃ i, j = i + 1 := ⟨j - 1, by omega⟩
    refine ⟨j, by omega, hjr, ?_, ha, ?_⟩
    · exact Carrier.loopStep_of_idle (e.steps j (by omega)) hidle
    · intro q hq
      exact parked_of_idle (by omega) hidle hq
  · cases hreason
  · cases hreason

/-- **Every run of the carrier loop follows the protocol.** -/
theorem park_protocol (e : CarrierRun κ) : e.Protocol where
  answers _ _ _ _ h := h.answers
  once _ _ _ hb _ _ _ _ _ _ h h' := h.unique hb h'
  returned hquiet b id keys hb := by
    rcases e.answered_or_waiting hb e.length hb.1 le_rfl with ⟨r, reason, ix, _, h⟩ | ⟨t, hlive, _⟩
    · exact ⟨r, reason, ix, h⟩
    · exact absurd hlive (not_live_of_quiescent le_rfl hquiet)
  cancelled _ _ _ _ _ hb h := cancelled_cause hb h
  settled _ _ _ _ _ hb h := settled_cause hb h
  drained _ _ _ _ _ hb h := drained_cause hb h
  deliveredOnce r r' id ix ix' hlt h h' := by
    obtain ⟨b, keys, hb, hans⟩ := h'.answers
    obtain ⟨j, d, _, hmarks, hjd, _, hdr, _, _, _, _, hclear⟩ := cancelled_cause hb hans
    have hne : j ≠ r := by
      intro heq
      exact hmarks.not_returns (heq ▸ h)
    have hne' : j ≠ r' := by
      intro heq
      exact hmarks.not_returns (heq ▸ h')
    refine ⟨j, ?_, by omega, hmarks⟩
    by_contra hle
    exact hclear r (by omega) hlt ix h
  kept _ _ _ hj ha hfind _ hji hi hclear := mark_kept hj ha hfind hji hi hclear
  delivered _ _ _ _ hb hlive hid hmark hshield := hb.delivers hlive hid hmark hshield
  joined b id ids r ix hb h i hi henrolled := by
    have hr := h.2.1.1
    have hpos := e.enrolled_pos b hb.1.le i henrolled
    rcases settled_cause hb h with ⟨j, poll, hbj, hjr, _, hdone, _⟩ | ⟨hrb, _, ids', hkeys, hdone⟩
    · obtain ⟨_, _, _, hinv⟩ := (e.sound j (by omega)).good
      have hat := (e.books_mono hbj.le (by omega)).2 i henrolled
      exact (e.books_mono hjr.le hr.le).1 i (hinv.finished_of_joinAllDone hdone hi hpos hat)
    · obtain ⟨_, _, _, hinv⟩ := (e.sound b hb.1.le).good
      cases hkeys
      rw [hrb]
      exact hinv.finished_of_joinAllDone hdone hi hpos henrolled

/-- A task parks; another one returns with a throw pending. -/
def throwingRun : List (CarrierStep Nat) :=
  [.schedRun, .dispatch, .call .spawn, .call (.parkOn 7), .gate false, .dispatch, .call .returns,
    .gate true]

/-- **The throw gate leaves a park open**: `lv_sched_run` has returned, and the park has
not. -/
theorem park_open_after_throw : ∃ e : CarrierRun Nat,
    (e.state e.length).control = .thrown ∧ e.Begins 3 1 (.on 7) ∧
      ∀ r reason ix, ¬ e.Answers 3 r 1 reason ix := by
  refine ⟨.ofRun throwingRun rfl, rfl, ⟨by decide, rfl⟩, ?_⟩
  intro r reason ix h
  obtain ⟨hle, ⟨hlt, hret⟩, _⟩ := h
  have hlen : r < 8 := hlt
  interval_cases r
  · cases hret
  · cases hret
  · cases hret
  · cases hret
  · cases hret

end CarrierRun

end Leviathan.Runtime
