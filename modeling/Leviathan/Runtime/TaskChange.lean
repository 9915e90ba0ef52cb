import Leviathan.Runtime.TaskInvariant

/-!
# What an entry makes of a task

`after s t op` is the task `t` once the entry `op` has run.  It is the one place where the
entries are taken apart task by task (`step_task`): a park, a yield or a shield changes the
running task, a dispatch the first runnable one, a cancellation the task of that id, a poll
the settled tasks and a drain all parked ones.  Every other live task is as it was.

A live task stays live until its function returns (`live_step`), and a task that becomes
live is new, under an id above all others (`step_live`).
-/

namespace Leviathan.Runtime

open Leviathan.LinkedQueue Leviathan.Runs List

variable {κ : Type}

/-- What a park waits for. -/
inductive ParkKeys (κ : Type)
  | on (key : κ)
  | any2 (a b : κ)
  | join (ids : List Nat)

/-- Where a park on these keys resumes. -/
def ParkKeys.frame : ParkKeys κ → Frame
  | .on _ => .parking
  | .any2 _ _ => .parkingAny2
  | .join _ => .parking

namespace LvTask

/-- The task with the keys of a park set. -/
def withKeys (k : LvTask κ) : ParkKeys κ → LvTask κ
  | .on key => { k with parkedOn := some key }
  | .any2 a b => { k with parkedOn := some a, parkedOn2 := some b }
  | .join ids => { k with joinIds := some ids }

theorem withKeys_id (k : LvTask κ) (keys : ParkKeys κ) : (k.withKeys keys).id = k.id := by
  cases keys <;> rfl

theorem withKeys_cancelled (k : LvTask κ) (keys : ParkKeys κ) :
    (k.withKeys keys).cancelled = k.cancelled := by
  cases keys <;> rfl

/-- The task after `park_common`. -/
def parked (k : LvTask κ) (keys : ParkKeys κ) : LvTask κ :=
  if k.cancelled = true ∧ k.shield = 0 then { k.parkKeysClear with cancelled := false }
  else { k.withKeys keys with
    wakeReason := .settled, wokeIx := 0, state := .parked, frame := keys.frame }

/-- The task after it has been switched to. -/
def resumed (k : LvTask κ) : LvTask κ :=
  match k.frame with
  | .start => { k with state := .running }
  | .yielding => { k with state := .running }
  | _ => { k.parkKeysClear with
      state := .running, cancelled := k.cancelled && k.wakeReason ≠ WakeReason.cancelled }

end LvTask

namespace Sched

variable {s s' : Sched κ} {runq parked pool : List Nat} {t : Nat}

/-- The task of a successful cancel request. -/
def cancelledTask (s : Sched κ) (poll : κ → Bool) (t : Nat) : LvTask κ :=
  let k := s.task t
  let marked := s.modify t fun k => { k with cancelled := true }
  if k.cancelled = true then k
  else if k.state = .parked ∧ k.shield = 0 then
    if s.settled poll t then (marked.parkKeysSettled poll t).2.task t
    else woken { k with cancelled := true } .cancelled
  else { k with cancelled := true }

/-- The task `t` after an entry. -/
def after (s : Sched κ) (t : Nat) (op : Op κ) : LvTask κ :=
  let k := s.task t
  match op with
  | .schedRun => k
  | .spawn => k
  | .spawnRegistered => k
  | .loop _ => k
  | .dispatch => if s.runqHead = some t then k.resumed else k
  | .yield => if s.current = some t then { k with state := .runnable, frame := .yielding } else k
  | .parkOn key => if s.current = some t then k.parked (.on key) else k
  | .parkAny2 a b => if s.current = some t then k.parked (.any2 a b) else k
  | .parkJoin ids =>
    if s.current = some t ∧ ¬ (ids.length = 0 ∨ s.joinAllDone ids = true) then
      k.parked (.join ids)
    else k
  | .cancel id poll => if s.regFind id = some t then s.cancelledTask poll t else k
  | .shield delta =>
    if s.current = some t then { k with shield := ((k.shield + delta) % 65536).toNat } else k
  | .returns => if s.current = some t then { k with registered := false, state := .pooled } else k
  | .poll poll =>
    if k.state = .parked ∧ s.settled poll t = true then s.settledTask poll t else k
  | .drain => if k.state = .parked then woken k .drained else k

/-- A task that is spawned and not finished. -/
def Live (s : Sched κ) (t : Nat) : Prop := t < s.nMapped ∧ (s.task t).state ≠ .pooled

section
variable (h : s.Invariant runq parked pool)
include h

/-- The live tasks are those that run, are runnable or are parked. -/
theorem Invariant.live_iff : s.Live t ↔ t ∈ s.current.toList ++ runq ++ parked := by
  have hmem := h.placed.mem_iff (a := t)
  rw [mem_range, mem_append] at hmem
  constructor
  · intro hlive
    rcases hmem.mpr hlive.1 with hin | hin
    · exact hin
    · exact absurd (h.pooled t hin).1 hlive.2
  · intro hin
    refine ⟨hmem.mp (.inl hin), ?_⟩
    rcases List.mem_append.mp hin with hin | hin
    · rcases List.mem_append.mp hin with hin | hin
      · rw [h.running t (Option.mem_toList.mp hin)]
        decide
      · rw [h.runnable t hin]
        decide
    · rw [h.parked_state t hin]
      decide

theorem Invariant.live_current (hc : s.current = some t) : s.Live t := by
  rw [h.live_iff, hc]
  simp

/-- Two live tasks of one id are one task. -/
theorem Invariant.live_inj {r : Nat} (ht : s.Live t) (hr : s.Live r) (hid : s.idOf t = s.idOf r) :
    t = r :=
  inj_on_of_nodup_map h.enrolment.ids (h.live_iff.mp ht) (h.live_iff.mp hr) hid

theorem Invariant.mem_parked_iff (ht : s.Live t) : t ∈ parked ↔ (s.task t).state = .parked := by
  constructor
  · exact h.parked_state t
  · exact h.mem_parked (h.live_iff.mp ht)

end

/-! ### The entries, task by task -/

/-- The mark plays no part in whether a key is settled. -/
theorem settled_marked (s : Sched κ) (poll : κ → Bool) (t : Nat) :
    ((s.modify t fun k => { k with cancelled := true }).parkKeysSettled poll t).1 =
      s.settled poll t := by
  unfold settled parkKeysSettled
  rw [modify_task_self]
  dsimp only
  cases (s.task t).joinIds with
  | some ids => rfl
  | none =>
    dsimp only
    split
    · rfl
    · split <;> rfl

/-- The noted index is the only field `park_keys_settled` writes. -/
theorem parkKeysSettled_task_of_ne (s : Sched κ) (poll : κ → Bool) {r : Nat} (hr : r ≠ t) :
    (s.parkKeysSettled poll t).2.task r = s.task r := by
  rcases s.parkKeysSettled_eq poll t with heq | ⟨ix, heq⟩
  · rw [heq]
  · rw [heq]
    dsimp only
    rw [modify_task_of_ne s _ hr]

/-- A task woken by a poll differs from before in its state, its reason and its index. -/
theorem settledTask_eq (s : Sched κ) (poll : κ → Bool) (t : Nat) :
    ∃ ix, s.settledTask poll t =
      { s.task t with wakeReason := .settled, state := .runnable, wokeIx := ix } := by
  unfold settledTask
  rcases s.parkKeysSettled_eq poll t with heq | ⟨ix, heq⟩
  · rw [heq]
    exact ⟨(s.task t).wokeIx, rfl⟩
  · rw [heq]
    refine ⟨ix, ?_⟩
    dsimp only
    rw [modify_task_self]
    rfl

/-- A cancel request leaves its task marked. -/
theorem cancelledTask_cancelled (s : Sched κ) (poll : κ → Bool) (t : Nat) :
    (s.cancelledTask poll t).cancelled = true := by
  unfold cancelledTask
  dsimp only
  by_cases hmarked : (s.task t).cancelled = true
  · rw [if_pos hmarked]
    exact hmarked
  · rw [if_neg hmarked]
    split
    · split
      · rcases (s.modify t fun k => { k with cancelled := true }).parkKeysSettled_eq poll t
          with heq | ⟨ix, heq⟩
        · rw [heq]
          dsimp only
          rw [modify_task_self]
        · rw [heq]
          dsimp only
          rw [modify_task_self, modify_task_self]
      · rfl
    · rfl

theorem taskYield_task (s : Sched κ) (t r : Nat) :
    (s.taskYield t).task r =
      if r = t then { s.task r with state := .runnable, frame := .yielding } else s.task r := by
  show ((s.modify t _).runqAppend t).task r = _
  rw [runqAppend_task]
  by_cases hr : r = t
  · rw [if_pos hr, hr, modify_task_self]
  · rw [if_neg hr, modify_task_of_ne s _ hr]

theorem parkCommon_task (s : Sched κ) (t r : Nat) (keys : ParkKeys κ) :
    ((s.modify t fun k => k.withKeys keys).parkCommon t keys.frame).1.task r =
      if r = t then (s.task r).parked keys else s.task r := by
  have hcancelled : ((s.task t).withKeys keys).cancelled = (s.task t).cancelled := by
    cases keys <;> rfl
  have hshield : ((s.task t).withKeys keys).shield = (s.task t).shield := by
    cases keys <;> rfl
  have hclear : ((s.task t).withKeys keys).parkKeysClear = (s.task t).parkKeysClear := by
    cases keys <;> rfl
  unfold parkCommon LvTask.parked
  rw [modify_task_self]
  dsimp only
  rw [hcancelled, hshield]
  by_cases hpending : (s.task t).cancelled = true ∧ (s.task t).shield = 0
  · rw [if_pos hpending]
    by_cases hr : r = t
    · subst hr
      rw [if_pos rfl, if_pos hpending]
      dsimp only
      rw [modify_task_self, modify_task_self, hclear]
    · rw [if_neg hr]
      dsimp only
      rw [modify_task_of_ne _ _ hr, modify_task_of_ne _ _ hr]
  · rw [if_neg hpending]
    dsimp only
    rw [parkedAppend_task]
    by_cases hr : r = t
    · subst hr
      rw [if_pos rfl, if_neg hpending, modify_task_self, modify_task_self]
    · rw [if_neg hr, modify_task_of_ne _ _ hr, modify_task_of_ne _ _ hr]

theorem switchTo_task (s : Sched κ) (t r : Nat) :
    (s.switchTo t).1.task r = if r = t then (s.task r).resumed else s.task r := by
  have henter : (s.enter t).task t = { s.task t with state := .running } := by
    rw [enter_task, modify_task_self]
  have hother : ∀ r, r ≠ t → (s.enter t).task r = s.task r := by
    intro r hr
    rw [enter_task, modify_task_of_ne s _ hr]
  unfold switchTo LvTask.resumed
  dsimp only
  rw [henter]
  dsimp only
  by_cases hr : r = t
  · subst hr
    rw [if_pos rfl]
    cases hframe : (s.task r).frame with
    | start => simpa only [hframe] using henter
    | yielding => simpa only [hframe] using henter
    | parking =>
      unfold parkReturns
      dsimp only
      rw [modify_task_self, henter]
      rfl
    | parkingAny2 =>
      unfold parkReturns
      dsimp only
      rw [modify_task_self, henter]
      rfl
  · rw [if_neg hr]
    split
    · exact hother r hr
    · exact hother r hr
    · unfold parkReturns
      dsimp only
      rw [modify_task_of_ne _ _ hr, hother r hr]
    · unfold parkReturns
      dsimp only
      rw [modify_task_of_ne _ _ hr, hother r hr]

section
variable (h : s.Invariant runq parked pool)
include h

/-- What a cancel request makes of every task. -/
theorem Invariant.taskCancel_task {poll : κ → Bool} {id : Nat} {r : Sched κ × Nat}
    (hcancel : s.taskCancel poll id = some r) (q : Nat) :
    r.1.task q = if s.regFind id = some q then s.cancelledTask poll q else s.task q := by
  unfold Sched.taskCancel at hcancel
  cases hfind : s.regFind id with
  | none =>
    rw [hfind] at hcancel
    cases hcancel
    rw [if_neg (by simp)]
  | some t =>
    obtain ⟨hlive, _⟩ := h.regFind_some hfind
    rw [hfind] at hcancel
    dsimp only at hcancel
    rw [modify_task_self] at hcancel
    unfold cancelledTask
    by_cases hq : q = t
    · subst hq
      rw [if_pos rfl]
      dsimp only
      by_cases hmarked : (s.task q).cancelled = true
      · rw [if_pos hmarked] at hcancel ⊢
        cases hcancel
        rfl
      · rw [if_neg hmarked] at hcancel ⊢
        have hmark : (s.modify q fun k => { k with cancelled := true }).Invariant runq parked
            pool := h.modify rfl rfl rfl
        by_cases hwaits : (s.task q).state = .parked ∧ (s.task q).shield = 0
        · rw [if_pos hwaits] at hcancel ⊢
          rw [settled_marked] at hcancel
          by_cases hsettled : s.settled poll q = true
          · rw [if_pos hsettled] at hcancel ⊢
            cases hcancel
            rfl
          · rw [if_neg hsettled] at hcancel ⊢
            have hunsettled : (s.modify q fun k => { k with cancelled := true }).settled poll q
                = false := (s.settled_marked poll q).trans (Bool.eq_false_iff.mpr hsettled)
            have hsame := parkKeysSettled_of_false hunsettled
            rw [hsame] at hcancel
            have hmem : q ∈ parked := h.mem_parked hlive hwaits.1
            obtain ⟨pre, post, rfl⟩ := append_of_mem hmem
            have hlen := hmark.parked_length
            rw [length_append] at hlen
            rw [hmark.laid.parkedRemove (by omega)] at hcancel
            cases hcancel
            dsimp only
            rw [wake_task_self, removed_task, modify_task_self]
        · rw [if_neg hwaits] at hcancel ⊢
          cases hcancel
          dsimp only
          rw [modify_task_self]
    · rw [if_neg (by simp [Ne.symm hq])]
      by_cases hmarked : (s.task t).cancelled = true
      · rw [if_pos hmarked] at hcancel
        cases hcancel
        rfl
      · rw [if_neg hmarked] at hcancel
        by_cases hwaits : (s.task t).state = .parked ∧ (s.task t).shield = 0
        · rw [if_pos hwaits] at hcancel
          split at hcancel
          · cases hcancel
            dsimp only
            rw [parkKeysSettled_task_of_ne _ _ hq, modify_task_of_ne s _ hq]
          · have hkeys : ((s.modify t fun k => { k with cancelled := true }).parkKeysSettled
                poll t).2.Invariant runq parked pool :=
              Invariant.parkKeysSettled (h.modify rfl rfl rfl) poll t
            have hmem : t ∈ parked := h.mem_parked hlive hwaits.1
            obtain ⟨pre, post, rfl⟩ := append_of_mem hmem
            have hlen := hkeys.parked_length
            rw [length_append] at hlen
            rw [hkeys.laid.parkedRemove (by omega)] at hcancel
            cases hcancel
            dsimp only
            rw [wake_task_of_ne _ _ hq, removed_task, parkKeysSettled_task_of_ne _ _ hq,
              modify_task_of_ne s _ hq]
        · rw [if_neg hwaits] at hcancel
          cases hcancel
          dsimp only
          rw [modify_task_of_ne s _ hq]

/-- Spawning changes no live task. -/
theorem Invariant.taskSpawn_task (hlive : s.Live t) : s.taskSpawn.task t = s.task t := by
  obtain ⟨_, _, _, _, _, _, _, _, _, _, _, hsame⟩ := h.taskSpawn
  exact hsame t (h.live_iff.mp hlive)

/-- Putting the new task on the registry changes no task that was live before. -/
theorem Invariant.taskSpawnRegistered_task (hlive : s.Live t) :
    s.taskSpawnRegistered.task t = s.task t := by
  obtain ⟨r, _, _, htail, _, _, _, _, _, _, hout, hsame⟩ := h.taskSpawn
  have hmem := h.live_iff.mp hlive
  have hne : t ≠ r := by
    intro heq
    exact hout (heq ▸ hmem)
  unfold Sched.taskSpawnRegistered
  dsimp only
  rw [htail]
  show (s.taskSpawn.regAdd r).task t = s.task t
  rw [regAdd_task, modify_task_of_ne _ _ hne]
  exact hsame t hmem

/-- Spawning changes where no live task stands. -/
theorem Invariant.taskSpawn_live (hlive : s.Live t) : s.taskSpawn.Live t := by
  obtain ⟨_, _, hspawn, _, _, _, hcurrent, _⟩ := h.taskSpawn
  rw [hspawn.live_iff, hcurrent]
  have hmem := h.live_iff.mp hlive
  simp only [mem_append] at hmem ⊢
  tauto

end

theorem Invariant.loopBatch_task (n : Nat) :
    ∀ {s : Sched κ} {runq pool : List Nat}, s.Invariant runq parked pool → s.Live t →
      (s.loopBatch n).task t = s.task t ∧ (s.loopBatch n).Live t := by
  induction n with
  | zero =>
    intro s runq pool _ hlive
    exact ⟨rfl, hlive⟩
  | succ n ih =>
    intro s runq pool h hlive
    obtain ⟨_, _, hspawn, _⟩ := h.taskSpawn
    obtain ⟨htask, hlive'⟩ := ih hspawn (h.taskSpawn_live hlive)
    exact ⟨htask.trans (h.taskSpawn_task hlive), hlive'⟩

/-- **What an entry makes of a live task.** -/
theorem step_task {op : Op κ} (h : s.Invariant runq parked pool) (hstep : s.step op = some s')
    (hlive : s.Live t) : s'.task t = s.after t op := by
  -- the running task's entries and the scheduler's
  have htask : ∀ {f : Nat → Sched κ}, s.asTask f = some s' →
      ∃ r, s.current = some r ∧ f r = s' := by
    intro f hf
    obtain ⟨r, hr, hfr⟩ := Option.map_eq_some_iff.mp hf
    exact ⟨r, hr, hfr⟩
  have hsched : ∀ {o : Option (Sched κ)}, s.asScheduler o = some s' →
      s.current = none ∧ o = some s' := by
    intro o ho
    unfold asScheduler at ho
    split at ho
    · next hc => exact ⟨hc, ho⟩
    · cases ho
  have hiff : ∀ r, s.current = some r → (t = r ↔ s.current = some t) := by
    intro r hr
    rw [hr]
    constructor
    · intro heq
      rw [heq]
    · intro heq
      exact (Option.some.inj heq).symm
  cases op with
  | schedRun =>
    obtain ⟨_, ho⟩ := hsched hstep
    cases ho
    exact h.taskSpawn_task hlive
  | spawn =>
    cases hstep
    exact h.taskSpawn_task hlive
  | spawnRegistered =>
    cases hstep
    exact h.taskSpawnRegistered_task hlive
  | loop n =>
    obtain ⟨_, ho⟩ := hsched hstep
    cases ho
    exact (Invariant.loopBatch_task n h hlive).1
  | dispatch =>
    obtain ⟨_, ho⟩ := hsched hstep
    unfold after
    dsimp only
    cases hhead : s.runqHead with
    | none =>
      unfold runqPop at ho
      rw [hhead] at ho
      cases ho
    | some r =>
      rw [runqPop_eq hhead] at ho
      cases ho
      rw [switchTo_task]
      by_cases hr : t = r
      · rw [if_pos hr, if_pos (congrArg some hr.symm)]
      · rw [if_neg hr, if_neg fun heq => hr (Option.some.inj heq).symm]
  | yield =>
    obtain ⟨r, hr, rfl⟩ := htask hstep
    unfold after
    rw [taskYield_task]
    simp only [hiff r hr]
  | parkOn key =>
    obtain ⟨r, hr, rfl⟩ := htask hstep
    unfold after
    refine (parkCommon_task s r t (.on key)).trans ?_
    simp only [hiff r hr]
  | parkAny2 a b =>
    obtain ⟨r, hr, rfl⟩ := htask hstep
    unfold after
    refine (parkCommon_task s r t (.any2 a b)).trans ?_
    simp only [hiff r hr]
  | parkJoin ids =>
    obtain ⟨r, hr, rfl⟩ := htask hstep
    unfold after
    dsimp only
    by_cases hdone : ids.length = 0 ∨ s.joinAllDone ids = true
    · rw [if_neg fun hand => hand.2 hdone]
      unfold taskParkJoin
      rw [if_pos hdone]
    · have hpark : (s.taskParkJoin r ids).1 =
          ((s.modify r fun k => k.withKeys (.join ids)).parkCommon r
            (ParkKeys.join ids : ParkKeys κ).frame).1 := by
        unfold taskParkJoin
        rw [if_neg hdone]
        rfl
      rw [hpark, parkCommon_task]
      simp only [hiff r hr, hdone, not_false_eq_true, and_true]
  | cancel id poll =>
    obtain ⟨r, hr, rfl⟩ := Option.map_eq_some_iff.mp hstep
    exact h.taskCancel_task hr t
  | shield delta =>
    cases hstep
    unfold after taskShield
    dsimp only
    cases hc : s.current with
    | none => rw [if_neg (by simp)]
    | some r =>
      dsimp only
      by_cases hr : t = r
      · subst hr
        rw [modify_task_self, if_pos rfl]
      · rw [modify_task_of_ne s _ hr, if_neg (by simp [Ne.symm hr])]
  | returns =>
    obtain ⟨r, hr, rfl⟩ := htask hstep
    unfold after
    dsimp only
    by_cases heq : t = r
    · subst heq
      rw [if_pos hr, taskReturns_task]
    · rw [if_neg fun hc => heq ((hiff r hr).mpr hc)]
      obtain ⟨k, _, _, hret⟩ := s.taskReturns_eq r
      rw [hret]
      exact Function.update_of_ne heq _ _
  | poll poll =>
    obtain ⟨_, ho⟩ := hsched hstep
    obtain ⟨s₁, hpoll, _, hpolled⟩ := h.pollParked poll
    rw [hpoll] at ho
    cases ho
    unfold after
    dsimp only
    have hmem := h.mem_parked_iff hlive
    by_cases hwoke : (s.task t).state = .parked ∧ s.settled poll t = true
    · rw [if_pos hwoke]
      exact hpolled.woke t (hmem.mpr hwoke.1) hwoke.2
    · rw [if_neg hwoke]
      refine hpolled.slept t ?_
      intro hin
      exact Bool.eq_false_iff.mpr fun hset => hwoke ⟨hmem.mp hin, hset⟩
  | drain =>
    obtain ⟨_, ho⟩ := hsched hstep
    obtain ⟨s₁, hdrain, _, hdrained⟩ := h.drainWakeAll
    rw [hdrain] at ho
    cases ho
    unfold after
    dsimp only
    have hmem := h.mem_parked_iff hlive
    by_cases hparked : (s.task t).state = .parked
    · rw [if_pos hparked]
      exact hdrained.woke t (hmem.mpr hparked)
    · rw [if_neg hparked]
      exact hdrained.slept t fun hin => hparked (hmem.mp hin)

/-! ### Who is live -/

theorem keeps_parkCommon (s : Sched κ) (t : Nat) (frame : Frame) :
    Keeps s (s.parkCommon t frame).1 := by
  unfold parkCommon
  dsimp only
  split
  · dsimp only
    exact keeps_modify s t rfl rfl
  · have hk := (keeps_modify s t (f := fun k => { k with
      wakeReason := .settled, wokeIx := 0, state := .parked, frame := frame }) rfl rfl).trans
      (keeps_parkedAppend _ t)
    exact ⟨hk.reg, hk.nSpawned, hk.nMapped, hk.nLive, hk.nPooled, hk.enrolled, hk.finished, hk.id,
      hk.registered⟩

theorem keeps_parkKeysSettled (s : Sched κ) (poll : κ → Bool) (t : Nat) :
    Keeps s (s.parkKeysSettled poll t).2 := by
  rcases s.parkKeysSettled_eq poll t with heq | ⟨ix, heq⟩
  · rw [heq]
    exact .refl s
  · rw [heq]
    dsimp only
    exact keeps_modify s t rfl rfl

theorem Invariant.keeps_taskCancel (h : s.Invariant runq parked pool) {poll : κ → Bool} {id : Nat}
    {r : Sched κ × Nat} (hcancel : s.taskCancel poll id = some r) : Keeps s r.1 := by
  unfold Sched.taskCancel at hcancel
  split at hcancel
  · cases hcancel
    exact .refl s
  · next t hfind =>
      obtain ⟨hlive, _⟩ := h.regFind_some hfind
      have hmark : Keeps s (s.modify t fun k => { k with cancelled := true }) :=
        keeps_modify s t rfl rfl
      have hinv : (s.modify t fun k => { k with cancelled := true }).Invariant runq parked pool :=
        h.modify rfl rfl rfl
      split at hcancel
      · cases hcancel
        exact .refl s
      · dsimp only at hcancel
        split at hcancel
        · next hwaits =>
            have hkeys := hmark.trans (keeps_parkKeysSettled _ poll t)
            have hkinv := hinv.parkKeysSettled poll t
            split at hcancel
            · cases hcancel
              exact hkeys
            · have hmem : t ∈ parked := hinv.mem_parked hlive hwaits.1
              obtain ⟨pre, post, rfl⟩ := append_of_mem hmem
              have hlen := hkinv.parked_length
              rw [length_append] at hlen
              rw [hkinv.laid.parkedRemove (by omega)] at hcancel
              cases hcancel
              exact (hkeys.trans (keeps_removed _ _ t)).trans (keeps_wake _ t .cancelled)
        · cases hcancel
          exact hmark

/-- The entries other than spawning and the end of a task leave the books alone. -/
theorem step_keeps {op : Op κ} (h : s.Invariant runq parked pool) (hstep : s.step op = some s')
    (hop : match op with
      | .schedRun => False
      | .spawn => False
      | .spawnRegistered => False
      | .loop _ => False
      | .returns => False
      | _ => True) : Keeps s s' := by
  have hsched : ∀ {o : Option (Sched κ)}, s.asScheduler o = some s' → o = some s' := by
    intro o ho
    unfold asScheduler at ho
    split at ho
    · exact ho
    · cases ho
  cases op with
  | schedRun => exact hop.elim
  | spawn => exact hop.elim
  | spawnRegistered => exact hop.elim
  | loop n => exact hop.elim
  | returns => exact hop.elim
  | dispatch =>
    have ho := hsched hstep
    cases hhead : s.runqHead with
    | none =>
      unfold runqPop at ho
      rw [hhead] at ho
      cases ho
    | some r =>
      have hpair : s.runqPop = (some r, s.runqPop.2) := by rw [runqPop_eq hhead]
      rw [hpair] at ho
      cases ho
      have hpop : Keeps s s.runqPop.2 := by
        rw [runqPop_eq hhead]
        exact ⟨rfl, rfl, rfl, rfl, rfl, rfl, rfl, fun _ => rfl, fun _ => rfl⟩
      have henter : Keeps s (s.runqPop.2.enter r) :=
        let hk := hpop.trans (keeps_modify s.runqPop.2 r
          (f := fun k => { k with state := .running }) rfl rfl)
        ⟨hk.reg, hk.nSpawned, hk.nMapped, hk.nLive, hk.nPooled, hk.enrolled, hk.finished, hk.id,
          hk.registered⟩
      rcases s.runqPop.2.switchTo_fst r with heq | heq
      · rw [heq]
        exact henter
      · rw [heq]
        exact henter.trans (keeps_modify _ r rfl rfl)
  | yield =>
    obtain ⟨r, _, rfl⟩ := Option.map_eq_some_iff.mp hstep
    have hk := (keeps_modify s r (f := fun k => { k with state := .runnable, frame := .yielding })
      rfl rfl).trans (keeps_runqAppend _ r)
    exact ⟨hk.reg, hk.nSpawned, hk.nMapped, hk.nLive, hk.nPooled, hk.enrolled, hk.finished, hk.id,
      hk.registered⟩
  | parkOn key =>
    obtain ⟨r, _, rfl⟩ := Option.map_eq_some_iff.mp hstep
    exact (keeps_modify s r rfl rfl).trans (keeps_parkCommon _ r _)
  | parkAny2 a b =>
    obtain ⟨r, _, rfl⟩ := Option.map_eq_some_iff.mp hstep
    exact (keeps_modify s r rfl rfl).trans (keeps_parkCommon _ r _)
  | parkJoin ids =>
    obtain ⟨r, _, rfl⟩ := Option.map_eq_some_iff.mp hstep
    unfold taskParkJoin
    split
    · exact .refl s
    · exact (keeps_modify s r rfl rfl).trans (keeps_parkCommon _ r _)
  | cancel id poll =>
    obtain ⟨r, hr, rfl⟩ := Option.map_eq_some_iff.mp hstep
    exact h.keeps_taskCancel hr
  | shield delta =>
    cases hstep
    unfold taskShield
    split
    · exact .refl s
    · exact keeps_modify s _ rfl rfl
  | poll poll =>
    have ho := hsched hstep
    obtain ⟨s₁, hpoll, _, hpolled⟩ := h.pollParked poll
    rw [hpoll] at ho
    cases ho
    exact hpolled.keeps
  | drain =>
    have ho := hsched hstep
    obtain ⟨s₁, hdrain, _, hdrained⟩ := h.drainWakeAll
    rw [hdrain] at ho
    cases ho
    exact hdrained.keeps

/-- A task just spawned. -/
def Newborn (k : LvTask κ) : Prop :=
  ∃ id registered, k = { LvTask.fresh id with registered := registered }

/-- What an entry adds to the books: more task structures and ids, more finished tasks; an
id enrolled is new, and the tasks of the new ids are newborn. -/
structure Grows (s s' : Sched κ) : Prop where
  nMapped : s.nMapped ≤ s'.nMapped
  nSpawned : s.nSpawned ≤ s'.nSpawned
  finished : ∀ i ∈ s.finished, i ∈ s'.finished
  enrolled : ∀ i ∈ s.enrolled, i ∈ s'.enrolled
  enrols : ∀ i ∈ s'.enrolled, i ∈ s.enrolled ∨ s.nSpawned < i
  newborn : ∀ r, s'.Live r → s.nSpawned < s'.idOf r → Newborn (s'.task r)

theorem Invariant.grows_of_keeps {runq' parked' pool' : List Nat}
    (h' : s'.Invariant runq' parked' pool') (hk : Keeps s s') : Grows s s' where
  nMapped := hk.nMapped.ge
  nSpawned := hk.nSpawned.ge
  finished i hi := hk.finished ▸ hi
  enrolled i hi := hk.enrolled ▸ hi
  enrols i hi := .inl (hk.enrolled ▸ hi)
  newborn r hr hlt := by
    have hle := h'.enrolment.id_le (h'.live_iff.mp hr)
    rw [hk.nSpawned] at hle
    omega

theorem takeStack_nMapped (s : Sched κ) : s.nMapped ≤ s.takeStack.2.nMapped := by
  unfold takeStack
  split
  · exact le_rfl
  · exact Nat.le_succ _

theorem Invariant.grows_taskSpawn (h : s.Invariant runq parked pool) : Grows s s.taskSpawn := by
  obtain ⟨t, pool', hspawn, _, hn, hself, hcurrent, henrolled, hfinished, _, hout, hsame⟩ :=
    h.taskSpawn
  refine ⟨?_, by omega, ?_, ?_, ?_, ?_⟩
  · rw [taskSpawn_eq]
    exact s.takeStack_nMapped
  · intro i hi
    rw [hfinished]
    exact hi
  · intro i hi
    rw [henrolled]
    exact hi
  · intro i hi
    rw [henrolled] at hi
    exact .inl hi
  · intro r hr hlt
    have hmem := hspawn.live_iff.mp hr
    rw [hcurrent] at hmem
    have hor : r = t ∨ r ∈ s.current.toList ++ runq ++ parked := by
      simp only [mem_append, mem_singleton] at hmem ⊢
      tauto
    rcases hor with rfl | hold
    · rw [hself]
      exact ⟨_, false, rfl⟩
    · have hle := h.enrolment.id_le hold
      have hid : s.taskSpawn.idOf r = s.idOf r := congrArg LvTask.id (hsame r hold)
      omega

theorem Invariant.grows_taskSpawnRegistered (h : s.Invariant runq parked pool) :
    Grows s s.taskSpawnRegistered := by
  have hgrows := h.grows_taskSpawn
  obtain ⟨t, pool', hspawn, htail, _, hself, _⟩ := h.taskSpawn
  have heq : s.taskSpawnRegistered = { s.taskSpawn.regAdd t with
      enrolled := s.taskSpawn.enrolled ++ [(s.taskSpawn.task t).id] } := by
    unfold Sched.taskSpawnRegistered
    dsimp only
    rw [htail]
  rw [heq]
  refine ⟨hgrows.nMapped, hgrows.nSpawned, hgrows.finished, ?_, ?_, ?_⟩
  · intro i hi
    exact mem_append_left _ (hgrows.enrolled i hi)
  · intro i hi
    rcases List.mem_append.mp hi with hi | hi
    · exact hgrows.enrols i hi
    · right
      rw [hself] at hi
      have hnew : i = s.nSpawned + 1 := List.mem_singleton.mp hi
      omega
  · intro r hr hlt
    have hid : s.nSpawned < s.taskSpawn.idOf r := by
      refine lt_of_lt_of_eq hlt ?_
      exact regAdd_id s.taskSpawn t r
    have hlive : s.taskSpawn.Live r := by
      refine ⟨hr.1, ?_⟩
      rw [← regAdd_state s.taskSpawn t r]
      exact hr.2
    obtain ⟨id, registered, hk⟩ := hgrows.newborn r hlive hid
    show Newborn ((s.taskSpawn.regAdd t).task r)
    rw [regAdd_task]
    by_cases hrt : r = t
    · subst hrt
      rw [modify_task_self, hk]
      exact ⟨id, true, rfl⟩
    · rw [modify_task_of_ne _ _ hrt, hk]
      exact ⟨id, registered, rfl⟩

/-- A live task keeps its id. -/
theorem after_id (s : Sched κ) (t : Nat) (op : Op κ) : (s.after t op).id = (s.task t).id := by
  have hparked : ∀ keys, ((s.task t).parked keys).id = (s.task t).id := by
    intro keys
    unfold LvTask.parked
    split
    · rfl
    · cases keys <;> rfl
  have hresumed : (s.task t).resumed.id = (s.task t).id := by
    unfold LvTask.resumed
    split <;> rfl
  have hnoted : ∀ poll, ((s.parkKeysSettled poll t).2.task t).id = (s.task t).id := by
    intro poll
    exact (keeps_parkKeysSettled s poll t).id t
  have hcancelled : ∀ poll, (s.cancelledTask poll t).id = (s.task t).id := by
    intro poll
    unfold cancelledTask
    dsimp only
    split
    · rfl
    · split
      · split
        · rw [(keeps_parkKeysSettled _ poll t).id, modify_task_self]
        · rfl
      · rfl
  unfold after
  cases op with
  | schedRun => rfl
  | spawn => rfl
  | spawnRegistered => rfl
  | loop n => rfl
  | dispatch =>
    dsimp only
    split
    · exact hresumed
    · rfl
  | yield =>
    dsimp only
    split <;> rfl
  | parkOn key =>
    dsimp only
    split
    · exact hparked _
    · rfl
  | parkAny2 a b =>
    dsimp only
    split
    · exact hparked _
    · rfl
  | parkJoin ids =>
    dsimp only
    split
    · exact hparked _
    · rfl
  | cancel id poll =>
    dsimp only
    split
    · exact hcancelled poll
    · rfl
  | shield delta =>
    dsimp only
    split <;> rfl
  | returns =>
    dsimp only
    split <;> rfl
  | poll poll =>
    dsimp only
    split
    · exact hnoted poll
    · rfl
  | drain =>
    dsimp only
    split <;> rfl

section
variable (h : s.Invariant runq parked pool)
include h

/-- The id of a live task is not one of a finished task. -/
theorem Invariant.not_finished (hlive : s.Live t) : s.idOf t ∉ s.finished := by
  intro hmem
  have hnodup := h.enrolment.nodup
  rw [nodup_append] at hnodup
  exact hnodup.2.2 _ (mem_map_of_mem (h.live_iff.mp hlive)) _ hmem rfl

/-- An id handed out is that of a live task or of a finished one. -/
theorem Invariant.live_or_finished {i : Nat} (hpos : 0 < i) (hle : i ≤ s.nSpawned) :
    (∃ r, s.Live r ∧ s.idOf r = i) ∨ i ∈ s.finished := by
  have hmem : i ∈ List.range' 1 s.nSpawned := by
    rw [mem_range'_1]
    omega
  rcases List.mem_append.mp (h.enrolment.once.mem_iff.mpr hmem) with hin | hin
  · obtain ⟨r, hr, hid⟩ := List.mem_map.mp hin
    exact .inl ⟨r, h.live_iff.mpr hr, hid⟩
  · exact .inr hin

theorem Invariant.id_pos (hlive : s.Live t) : 0 < s.idOf t := by
  have hmem := h.enrolment.once.mem_iff.mp
    (mem_append_left _ (mem_map_of_mem (h.live_iff.mp hlive)))
  rw [mem_range'_1] at hmem
  omega

/-- If live tasks stay live under their ids until they finish, then a live task with an old
id was live before. -/
theorem Invariant.live_before {runq' parked' pool' : List Nat}
    (h' : s'.Invariant runq' parked' pool') (hfinished : ∀ i ∈ s.finished, i ∈ s'.finished)
    (hforward : ∀ r, s.Live r → s'.idOf r = s.idOf r ∧ (s'.Live r ∨ s'.idOf r ∈ s'.finished))
    (hlive : s'.Live t) (hold : s'.idOf t ≤ s.nSpawned) : s.Live t := by
  have hnot := h'.not_finished hlive
  rcases h.live_or_finished (h'.id_pos hlive) hold with ⟨r, hr, hid⟩ | hin
  · obtain ⟨hsame, hor⟩ := hforward r hr
    have heq : s'.idOf t = s'.idOf r := hid.symm.trans hsame.symm
    rcases hor with hr' | hin
    · exact h'.live_inj hlive hr' heq ▸ hr
    · exact absurd (heq ▸ hin) hnot
  · exact absurd (hfinished _ hin) hnot

end

theorem Invariant.grows_loopBatch (n : Nat) :
    ∀ {s : Sched κ} {runq pool : List Nat}, s.Invariant runq parked pool →
      Grows s (s.loopBatch n) := by
  induction n with
  | zero =>
    intro s runq pool h
    exact h.grows_of_keeps (.refl s)
  | succ n ih =>
    intro s runq pool h
    obtain ⟨t, pool', hspawn, _⟩ := h.taskSpawn
    have hfirst := h.grows_taskSpawn
    have hrest := ih hspawn
    obtain ⟨_, _, hinv⟩ := Invariant.loopBatch n hspawn
    refine ⟨hfirst.nMapped.trans hrest.nMapped, hfirst.nSpawned.trans hrest.nSpawned,
      fun i hi => hrest.finished i (hfirst.finished i hi),
      fun i hi => hrest.enrolled i (hfirst.enrolled i hi), ?_, ?_⟩
    · intro i hi
      rcases hrest.enrols i hi with hi | hi
      · exact hfirst.enrols i hi
      · exact .inr (hfirst.nSpawned.trans_lt hi)
    intro r hr hlt
    by_cases hnew : s.taskSpawn.nSpawned < (s.taskSpawn.loopBatch n).idOf r
    · exact hrest.newborn r hr hnew
    · -- spawned first, and left alone by the spawns after it
      have hforward : ∀ q, s.taskSpawn.Live q →
          (s.taskSpawn.loopBatch n).idOf q = s.taskSpawn.idOf q ∧
            ((s.taskSpawn.loopBatch n).Live q ∨
              (s.taskSpawn.loopBatch n).idOf q ∈ (s.taskSpawn.loopBatch n).finished) := by
        intro q hq
        obtain ⟨htask, hlive⟩ := Invariant.loopBatch_task n hspawn hq
        exact ⟨congrArg LvTask.id htask, .inl hlive⟩
      have hlive := hspawn.live_before hinv hrest.finished hforward hr (Nat.le_of_not_lt hnew)
      have htask := (Invariant.loopBatch_task n hspawn hlive).1
      have hid : (s.taskSpawn.loopBatch n).idOf r = s.taskSpawn.idOf r :=
        congrArg LvTask.id htask
      show Newborn ((s.taskSpawn.loopBatch n).task r)
      rw [htask]
      exact hfirst.newborn r hlive (hid ▸ hlt)

/-- **What an entry adds to the books.** -/
theorem step_grows {op : Op κ} (h : s.Invariant runq parked pool) (hstep : s.step op = some s') :
    Grows s s' := by
  obtain ⟨_, _, _, hinv⟩ := (step_good h op).2 s' hstep
  have hsched : ∀ {o : Option (Sched κ)}, s.asScheduler o = some s' → o = some s' := by
    intro o ho
    unfold asScheduler at ho
    split at ho
    · exact ho
    · cases ho
  cases op with
  | schedRun =>
    have ho := hsched hstep
    cases ho
    have hg := h.grows_taskSpawn
    exact ⟨hg.nMapped, hg.nSpawned, hg.finished, hg.enrolled, hg.enrols, hg.newborn⟩
  | spawn =>
    cases hstep
    exact h.grows_taskSpawn
  | spawnRegistered =>
    cases hstep
    exact h.grows_taskSpawnRegistered
  | loop n =>
    have ho := hsched hstep
    cases ho
    exact Invariant.grows_loopBatch n h
  | returns =>
    obtain ⟨t, hc, rfl⟩ := Option.map_eq_some_iff.mp hstep
    obtain ⟨k, _, _, heq⟩ := s.taskReturns_eq t
    have hspawned : (s.taskReturns t).nSpawned = s.nSpawned := by rw [heq]
    refine ⟨?_, hspawned.ge, ?_, ?_, ?_, ?_⟩
    · rw [heq]
    · intro i hi
      rw [heq]
      exact mem_append_left _ hi
    · intro i hi
      rw [heq]
      exact hi
    · intro i hi
      rw [heq] at hi
      exact .inl hi
    · intro r hr hlt
      have hle := hinv.enrolment.id_le (hinv.live_iff.mp hr)
      omega
  | dispatch => exact hinv.grows_of_keeps (step_keeps h hstep trivial)
  | yield => exact hinv.grows_of_keeps (step_keeps h hstep trivial)
  | parkOn key => exact hinv.grows_of_keeps (step_keeps h hstep trivial)
  | parkAny2 a b => exact hinv.grows_of_keeps (step_keeps h hstep trivial)
  | parkJoin ids => exact hinv.grows_of_keeps (step_keeps h hstep trivial)
  | cancel id poll => exact hinv.grows_of_keeps (step_keeps h hstep trivial)
  | shield delta => exact hinv.grows_of_keeps (step_keeps h hstep trivial)
  | poll poll => exact hinv.grows_of_keeps (step_keeps h hstep trivial)
  | drain => exact hinv.grows_of_keeps (step_keeps h hstep trivial)

/-- An entry puts a live task on the pool only at its end. -/
theorem after_pooled {op : Op κ} (hlive : (s.task t).state ≠ .pooled)
    (hop : op ≠ .returns ∨ s.current ≠ some t) : (s.after t op).state ≠ .pooled := by
  have hparked : ∀ keys, ((s.task t).parked keys).state ≠ .pooled := by
    intro keys
    unfold LvTask.parked
    split
    · exact hlive
    · exact fun hc => TaskState.noConfusion hc
  have hresumed : (s.task t).resumed.state ≠ .pooled := by
    unfold LvTask.resumed
    split <;> exact fun hc => TaskState.noConfusion hc
  have hcancelled : ∀ poll, (s.cancelledTask poll t).state ≠ .pooled := by
    intro poll
    unfold cancelledTask
    dsimp only
    split
    · exact hlive
    · split
      · split
        · rcases (s.modify t fun k => { k with cancelled := true }).parkKeysSettled_eq poll t
            with heq | ⟨ix, heq⟩
          · rw [heq, modify_task_self]
            exact hlive
          · rw [heq, modify_task_self, modify_task_self]
            exact hlive
        · exact fun hc => TaskState.noConfusion hc
      · exact hlive
  unfold after
  cases op with
  | schedRun => exact hlive
  | spawn => exact hlive
  | spawnRegistered => exact hlive
  | loop n => exact hlive
  | dispatch =>
    dsimp only
    split
    · exact hresumed
    · exact hlive
  | yield =>
    dsimp only
    split
    · exact fun hc => TaskState.noConfusion hc
    · exact hlive
  | parkOn key =>
    dsimp only
    split
    · exact hparked _
    · exact hlive
  | parkAny2 a b =>
    dsimp only
    split
    · exact hparked _
    · exact hlive
  | parkJoin ids =>
    dsimp only
    split
    · exact hparked _
    · exact hlive
  | cancel id poll =>
    dsimp only
    split
    · exact hcancelled poll
    · exact hlive
  | shield delta =>
    dsimp only
    split
    · exact hlive
    · exact hlive
  | returns =>
    dsimp only
    rw [if_neg (hop.resolve_left fun hne => hne rfl)]
    exact hlive
  | poll poll =>
    dsimp only
    split
    · exact fun hc => TaskState.noConfusion hc
    · exact hlive
  | drain =>
    dsimp only
    split
    · exact fun hc => TaskState.noConfusion hc
    · exact hlive

/-- **A live task stays live** until its function returns. -/
theorem live_step {op : Op κ} (h : s.Invariant runq parked pool) (hstep : s.step op = some s')
    (hlive : s.Live t) (hop : op ≠ .returns ∨ s.current ≠ some t) : s'.Live t := by
  refine ⟨hlive.1.trans_le (step_grows h hstep).nMapped, ?_⟩
  rw [step_task h hstep hlive]
  exact after_pooled hlive.2 hop

/-- **A task that becomes live is newborn.** -/
theorem step_live {op : Op κ} (h : s.Invariant runq parked pool) (hstep : s.step op = some s')
    (hlive : s'.Live t) : s.Live t ∨ (s.nSpawned < s'.idOf t ∧ Newborn (s'.task t)) := by
  obtain ⟨_, _, _, hinv⟩ := (step_good h op).2 s' hstep
  have hgrows := step_grows h hstep
  by_cases hnew : s.nSpawned < s'.idOf t
  · exact .inr ⟨hnew, hgrows.newborn t hlive hnew⟩
  · refine .inl (h.live_before hinv hgrows.finished ?_ hlive (Nat.le_of_not_lt hnew))
    intro r hr
    have hid : s'.idOf r = s.idOf r := by
      unfold idOf
      rw [step_task h hstep hr, after_id]
    refine ⟨hid, ?_⟩
    by_cases hend : op = .returns ∧ s.current = some r
    · right
      obtain ⟨rfl, hc⟩ := hend
      obtain ⟨q, hq, rfl⟩ := Option.map_eq_some_iff.mp hstep
      obtain rfl : r = q := Option.some.inj (hc.symm.trans hq)
      obtain ⟨k, _, _, heq⟩ := s.taskReturns_eq r
      rw [hid, heq]
      exact mem_append_right _ (List.mem_singleton.mpr rfl)
    · left
      refine live_step h hstep hr ?_
      tauto

end Sched

end Leviathan.Runtime
