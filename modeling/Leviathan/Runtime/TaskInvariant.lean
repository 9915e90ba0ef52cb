import Leviathan.Runtime.TaskLists

/-!
# What every state of the scheduler has

`Enrolment` says how the registry and the ids agree with the live tasks, and
`Invariant` puts this together with the lists, the place and the state field of every task
and the counters.

Every entry of the scheduler keeps the invariant (`step_invariant`), and is refused only
where the code asserts that it is called in the other context (`step_isSome_iff`).  So the
invariant holds after any sequence of entries (`scheduler_invariant`).
-/

namespace Leviathan.Runtime

open Leviathan.LinkedQueue Leviathan.Runs List

variable {κ : Type}

namespace Sched

variable {s s' : Sched κ} {runq parked pool live : List Nat} {t : Nat}

/-- The id of a task. -/
def idOf (s : Sched κ) (t : Nat) : Nat := (s.task t).id

/-- The registry holds exactly the live tasks that were spawned registered, each under its
own id, and every id handed out so far is that of one task, live or finished. -/
structure Enrolment (s : Sched κ) (live : List Nat) : Prop where
  reg_ids : (s.reg.map Prod.fst).Nodup
  mem_reg : ∀ i r, (i, r) ∈ s.reg ↔ r ∈ live ∧ s.idOf r ∈ s.enrolled ∧ s.idOf r = i
  registered : ∀ r ∈ live, (s.task r).registered = true ↔ s.idOf r ∈ s.enrolled
  once : (live.map s.idOf ++ s.finished).Perm (List.range' 1 s.nSpawned)
  enrolled_le : ∀ i ∈ s.enrolled, i ≤ s.nSpawned
  enrolled_nodup : s.enrolled.Nodup

theorem Enrolment.nodup (h : s.Enrolment live) : (live.map s.idOf ++ s.finished).Nodup :=
  h.once.nodup_iff.mpr nodup_range'

theorem Enrolment.ids (h : s.Enrolment live) : (live.map s.idOf).Nodup :=
  (List.nodup_append.mp h.nodup).1

theorem Enrolment.id_le (h : s.Enrolment live) (hlive : t ∈ live) : s.idOf t ≤ s.nSpawned := by
  have hmem := h.once.mem_iff.mp (mem_append_left _ (mem_map_of_mem hlive))
  rw [mem_range'_1] at hmem
  omega

/-- **The invariant of the scheduler.**  Every task structure stands in exactly one place,
which its state field names: it runs, or is on the run queue, the parked list or the
pool. -/
structure Invariant (s : Sched κ) (runq parked pool : List Nat) : Prop where
  laid : s.Laid runq parked pool
  placed : (s.current.toList ++ runq ++ parked ++ pool).Perm (List.range s.nMapped)
  running : ∀ r, s.current = some r → (s.task r).state = .running
  runnable : ∀ r ∈ runq, (s.task r).state = .runnable
  parked_state : ∀ r ∈ parked, (s.task r).state = .parked
  pooled : ∀ r ∈ pool, (s.task r).state = .pooled ∧ s.idOf r ∈ s.finished
  live_count : s.nLive = (s.current.toList ++ runq ++ parked).length
  parked_count : s.nParked = parked.length
  pooled_count : s.nPooled = pool.length
  enrolment : s.Enrolment (s.current.toList ++ runq ++ parked)

theorem Invariant.nodup (h : s.Invariant runq parked pool) :
    (s.current.toList ++ runq ++ parked ++ pool).Nodup :=
  h.placed.nodup_iff.mpr nodup_range

/-- The invariant holds before any task. -/
theorem invariant_init : (init : Sched κ).Invariant [] [] [] where
  laid := ⟨queue_nil _, queue_nil _, rfl, nodup_nil⟩
  placed := .refl _
  running r hr := by cases hr
  runnable r hr := by cases hr
  parked_state r hr := by cases hr
  pooled r hr := by cases hr
  live_count := rfl
  parked_count := rfl
  pooled_count := rfl
  enrolment :=
    { reg_ids := nodup_nil
      mem_reg := by
        intro i r
        constructor
        · intro h
          cases h
        · intro h
          cases h.1
      registered := by
        intro r hr
        cases hr
      once := .refl _
      enrolled_le := by
        intro i hi
        cases hi
      enrolled_nodup := nodup_nil }

/-! ### Moving tasks between the lists -/

/-- The books see which tasks are live and what they are called, not where they stand. -/
theorem Enrolment.moves {live' : List Nat} (h : s.Enrolment live) (hk : Keeps s s')
    (hperm : live'.Perm live) : s'.Enrolment live' := by
  have hid : s'.idOf = s.idOf := funext hk.id
  refine ⟨?_, ?_, ?_, ?_, ?_, ?_⟩
  · rw [hk.reg]
    exact h.reg_ids
  · intro i r
    rw [hk.reg, h.mem_reg, hperm.mem_iff, hid, hk.enrolled]
  · intro r hr
    rw [hk.registered, hid, hk.enrolled]
    exact h.registered r (hperm.mem_iff.mp hr)
  · rw [hid, hk.nSpawned, hk.finished]
    exact ((hperm.map s.idOf).append_right s.finished).trans h.once
  · rw [hk.enrolled, hk.nSpawned]
    exact h.enrolled_le
  · rw [hk.enrolled]
    exact h.enrolled_nodup

/-- **Moving live tasks** between the processor, the run queue and the parked list. -/
theorem Invariant.moves {runq' parked' : List Nat} (h : s.Invariant runq parked pool)
    (hk : Keeps s s') (hlaid : s'.Laid runq' parked' pool)
    (hperm : (s'.current.toList ++ runq' ++ parked').Perm (s.current.toList ++ runq ++ parked))
    (hrunning : ∀ r, s'.current = some r → (s'.task r).state = .running)
    (hrunnable : ∀ r ∈ runq', (s'.task r).state = .runnable)
    (hparked : ∀ r ∈ parked', (s'.task r).state = .parked)
    (hpool : ∀ r ∈ pool, (s'.task r).state = (s.task r).state)
    (hcount : s'.nParked = parked'.length) : s'.Invariant runq' parked' pool where
  laid := hlaid
  placed := by
    rw [hk.nMapped]
    exact (hperm.append_right pool).trans h.placed
  running := hrunning
  runnable := hrunnable
  parked_state := hparked
  pooled r hr := by
    have hid : s'.idOf r = s.idOf r := hk.id r
    rw [hpool r hr, hk.finished, hid]
    exact h.pooled r hr
  live_count := by
    rw [hk.nLive, h.live_count, hperm.length_eq]
  parked_count := hcount
  pooled_count := by
    rw [hk.nPooled]
    exact h.pooled_count
  enrolment := h.enrolment.moves hk hperm

/-- The running task is on no list. -/
theorem Invariant.current_not_mem (h : s.Invariant runq parked pool) (hc : s.current = some t) :
    t ∉ runq ++ parked ++ pool := by
  have hnodup := h.nodup
  rw [hc, append_assoc, append_assoc] at hnodup
  have hcons : (t :: (runq ++ (parked ++ pool))).Nodup := hnodup
  rw [append_assoc]
  exact (List.nodup_cons.mp hcons).1

theorem Invariant.ne_current (h : s.Invariant runq parked pool) (hc : s.current = some t)
    {r : Nat} (hr : r ∈ runq ∨ r ∈ parked ∨ r ∈ pool) : r ≠ t := by
  intro heq
  subst heq
  refine h.current_not_mem hc ?_
  rw [mem_append, mem_append]
  tauto

theorem Invariant.taskYield (h : s.Invariant runq parked pool) (hc : s.current = some t) :
    (s.taskYield t).Invariant (runq ++ [t]) parked pool := by
  have hout := h.current_not_mem hc
  have htask : ∀ r, r ≠ t → (s.taskYield t).task r = s.task r := by
    intro r hr
    show ((s.modify t _).runqAppend t).task r = s.task r
    rw [runqAppend_task, modify_task_of_ne s _ hr]
  have hself : ((s.taskYield t).task t).state = .runnable := by
    show (((s.modify t _).runqAppend t).task t).state = _
    rw [runqAppend_task, modify_task_self]
  have hk : Keeps s (s.taskYield t) :=
    let hk := (keeps_modify s t (f := fun k => { k with state := .runnable, frame := .yielding })
      rfl rfl).trans (keeps_runqAppend _ t)
    ⟨hk.reg, hk.nSpawned, hk.nMapped, hk.nLive, hk.nPooled, hk.enrolled, hk.finished, hk.id,
      hk.registered⟩
  have hlaid := (h.laid.modify t fun k => { k with state := .runnable, frame := .yielding
    }).runqAppend hout
  refine h.moves hk ⟨hlaid.runq_queue, hlaid.parked_queue, hlaid.pool_chain, hlaid.nodup⟩ ?_ ?_
    ?_ ?_ ?_ ?_
  · show ([] ++ (runq ++ [t]) ++ parked).Perm (s.current.toList ++ runq ++ parked)
    rw [hc, perm_iff_count]
    intro a
    simp only [count_append, Option.toList_some, count_nil]
    omega
  · intro r hr
    cases hr
  · intro r hr
    rcases List.mem_append.mp hr with hr | hr
    · rw [htask r (h.ne_current hc (.inl hr))]
      exact h.runnable r hr
    · obtain rfl := List.mem_singleton.mp hr
      exact hself
  · intro r hr
    rw [htask r (h.ne_current hc (.inr (.inl hr)))]
    exact h.parked_state r hr
  · intro r hr
    rw [htask r (h.ne_current hc (.inr (.inr hr)))]
  · show (Sched.runqAppend _ t).nParked = _
    rw [runqAppend_nParked]
    exact h.parked_count

/-- Writing fields of a task other than its state, its id and its registration. -/
theorem Invariant.modify (h : s.Invariant runq parked pool) {f : LvTask κ → LvTask κ}
    (hid : (f (s.task t)).id = (s.task t).id)
    (hregistered : (f (s.task t)).registered = (s.task t).registered)
    (hstate : (f (s.task t)).state = (s.task t).state) :
    (s.modify t f).Invariant runq parked pool := by
  have hsame : ∀ r, ((s.modify t f).task r).state = (s.task r).state := by
    intro r
    by_cases hr : r = t
    · subst hr
      rw [modify_task_self, hstate]
    · rw [modify_task_of_ne s f hr]
  refine h.moves (keeps_modify s t hid hregistered) (h.laid.modify t f) (.refl _) ?_ ?_ ?_ ?_
    h.parked_count
  · intro r hr
    rw [hsame]
    exact h.running r hr
  · intro r hr
    rw [hsame]
    exact h.runnable r hr
  · intro r hr
    rw [hsame]
    exact h.parked_state r hr
  · intro r _
    exact hsame r

/-- `park_common` either returns at once or puts the task on the parked list. -/
theorem Invariant.parkCommon (h : s.Invariant runq parked pool) (hc : s.current = some t)
    (frame : Frame) : ∃ parked', (s.parkCommon t frame).1.Invariant runq parked' pool := by
  unfold Sched.parkCommon
  dsimp only
  split
  · refine ⟨parked, ?_⟩
    dsimp only
    exact h.modify rfl rfl rfl
  · refine ⟨parked ++ [t], ?_⟩
    have hout := h.current_not_mem hc
    have hk := (keeps_modify s t (f := fun k => { k with
      wakeReason := .settled, wokeIx := 0, state := .parked, frame := frame }) rfl rfl).trans
      (keeps_parkedAppend _ t)
    have hlaid := (h.laid.modify t fun k => { k with
      wakeReason := .settled, wokeIx := 0, state := .parked, frame := frame }).parkedAppend hout
    have htask : ∀ r, r ≠ t → (Sched.parkedAppend (s.modify t fun k => { k with
        wakeReason := .settled, wokeIx := 0, state := .parked, frame := frame }) t).task r =
        s.task r := by
      intro r hr
      rw [parkedAppend_task, modify_task_of_ne s _ hr]
    refine h.moves ⟨hk.reg, hk.nSpawned, hk.nMapped, hk.nLive, hk.nPooled, hk.enrolled,
      hk.finished, hk.id, hk.registered⟩
      ⟨hlaid.runq_queue, hlaid.parked_queue, hlaid.pool_chain, hlaid.nodup⟩ ?_ ?_ ?_ ?_ ?_ ?_
    · show ([] ++ runq ++ (parked ++ [t])).Perm (s.current.toList ++ runq ++ parked)
      rw [hc, perm_iff_count]
      intro a
      simp only [count_append, Option.toList_some, count_nil]
      omega
    · intro r hr
      cases hr
    · intro r hr
      dsimp only
      rw [htask r (h.ne_current hc (.inl hr))]
      exact h.runnable r hr
    · intro r hr
      dsimp only
      rcases List.mem_append.mp hr with hr | hr
      · rw [htask r (h.ne_current hc (.inr (.inl hr)))]
        exact h.parked_state r hr
      · obtain rfl := List.mem_singleton.mp hr
        rw [parkedAppend_task, modify_task_self]
    · intro r hr
      dsimp only
      rw [htask r (h.ne_current hc (.inr (.inr hr)))]
    · dsimp only
      rw [parkedAppend_nParked, length_append]
      show s.nParked + 1 = _
      rw [h.parked_count]
      rfl

theorem enter_task (s : Sched κ) (t : Nat) :
    (s.enter t).task = (s.modify t fun k => { k with state := .running }).task := rfl

/-- Popping the first runnable task and switching to it. -/
theorem Invariant.enter (h : s.Invariant (t :: runq) parked pool) (hc : s.current = none) :
    (s.runqPop.2.enter t).Invariant runq parked pool := by
  have hhead : s.runqHead = some t := h.laid.runq_queue.head_eq
  have hpop := (runqPop_laid h.laid).2
  have htasks : s.runqPop.2.task = s.task := by rw [runqPop_eq hhead]
  have hparked : s.runqPop.2.nParked = s.nParked := by rw [runqPop_eq hhead]
  have hk : Keeps s s.runqPop.2 := by
    rw [runqPop_eq hhead]
    exact ⟨rfl, rfl, rfl, rfl, rfl, rfl, rfl, fun _ => rfl, fun _ => rfl⟩
  have hk' := hk.trans (keeps_modify s.runqPop.2 t (f := fun k => { k with state := .running })
    rfl rfl)
  have hnodup : (t :: (runq ++ parked ++ pool)).Nodup := by
    have hn := h.laid.nodup
    rw [cons_append, cons_append] at hn
    exact hn
  have hstate : ∀ r, r ∈ runq ++ parked ++ pool →
      ((s.runqPop.2.enter t).task r).state = (s.task r).state := by
    intro r hr
    have hne : r ≠ t := by
      intro heq
      exact (List.nodup_cons.mp hnodup).1 (heq ▸ hr)
    rw [enter_task, modify_task_of_ne _ _ hne, htasks]
  refine h.moves ⟨hk'.reg, hk'.nSpawned, hk'.nMapped, hk'.nLive, hk'.nPooled, hk'.enrolled,
    hk'.finished, hk'.id, hk'.registered⟩
    ⟨hpop.runq_queue, hpop.parked_queue, hpop.pool_chain, hpop.nodup⟩ ?_ ?_ ?_ ?_ ?_
    (hparked.trans h.parked_count)
  · show ([t] ++ runq ++ parked).Perm (s.current.toList ++ (t :: runq) ++ parked)
    rw [hc]
    exact .refl _
  · intro r hr
    obtain rfl : t = r := Option.some.inj hr
    rw [enter_task, modify_task_self]
  · intro r hr
    rw [hstate r (by simp [hr])]
    exact h.runnable r (mem_cons_of_mem t hr)
  · intro r hr
    rw [hstate r (by simp [hr])]
    exact h.parked_state r hr
  · intro r hr
    exact hstate r (by simp [hr])

/-- `switch_to` is `enter`, with the end of the park for a task that was parked. -/
theorem switchTo_fst (s : Sched κ) (t : Nat) :
    (s.switchTo t).1 = s.enter t ∨ (s.switchTo t).1 = (s.enter t).parkReturns t := by
  unfold switchTo
  dsimp only
  split
  · exact .inl rfl
  · exact .inl rfl
  · exact .inr rfl
  · exact .inr rfl

theorem Invariant.switchTo (h : s.Invariant (t :: runq) parked pool) (hc : s.current = none) :
    (s.runqPop.2.switchTo t).1.Invariant runq parked pool := by
  have henter := h.enter hc
  rcases s.runqPop.2.switchTo_fst t with heq | heq
  · rw [heq]
    exact henter
  · rw [heq]
    exact henter.modify rfl rfl rfl

section
variable (h : s.Invariant runq parked pool)
include h

theorem Invariant.taskShield (delta : Int) : (s.taskShield delta).Invariant runq parked pool := by
  unfold Sched.taskShield
  split
  · exact h
  · next t hc => exact h.modify rfl rfl rfl

/-- The parked list is no longer than the number of task structures. -/
theorem Invariant.parked_length : parked.length ≤ s.nMapped := by
  have hlen := h.placed.length_eq
  rw [length_range] at hlen
  simp only [length_append] at hlen
  omega

theorem Invariant.pollParked (poll : κ → Bool) :
    ∃ s', s.pollParked poll = some (s', parked.any (s.settled poll)) ∧
      s'.Invariant (runq ++ parked.filter (s.settled poll))
        (parked.filter fun r => !s.settled poll r) pool ∧ Polled poll s s' parked := by
  have hlaid : s.Laid runq ([] ++ parked) pool := h.laid
  obtain ⟨s', hloop, hlaid', hpolled⟩ := pollParkedLoop_spec poll parked false hlaid
    (Nat.lt_succ_of_le h.parked_length)
  rw [nil_append] at hlaid'
  have hhead : s.parkedHead = parked.head? := h.laid.parked_queue.head_eq
  refine ⟨s', ?_, ?_, hpolled⟩
  · unfold Sched.pollParked
    rw [hhead]
    exact hloop
  · have hstay : ∀ r, r ∉ parked → s'.task r = s.task r :=
      fun r hr => hpolled.slept r fun hmem => absurd hmem hr
    refine h.moves hpolled.keeps hlaid' ?_ ?_ ?_ ?_ ?_ ?_
    · rw [hpolled.current]
      have hsplit := filter_append_perm (s.settled poll) parked
      rw [append_assoc, append_assoc, append_assoc]
      exact (hsplit.append_left runq).append_left _
    · intro r hr
      rw [hpolled.current] at hr
      rw [hstay r fun hmem => h.ne_current hr (.inr (.inl hmem)) rfl]
      exact h.running r hr
    · intro r hr
      rcases List.mem_append.mp hr with hr | hr
      · rw [hstay r (h.laid.runq_parked hr)]
        exact h.runnable r hr
      · obtain ⟨hmem, hset⟩ := List.mem_filter.mp hr
        rw [hpolled.woke r hmem hset]
        rfl
    · intro r hr
      obtain ⟨hmem, hset⟩ := List.mem_filter.mp hr
      rw [hpolled.slept r fun _ => by simpa using hset]
      exact h.parked_state r hmem
    · intro r hr
      rw [hstay r fun hmem => h.laid.parked_pool hmem hr]
    · rw [hpolled.nParked, h.parked_count]
      have hlen := (filter_append_perm (s.settled poll) parked).length_eq
      rw [length_append] at hlen
      omega

theorem Invariant.drainWakeAll :
    ∃ s', s.drainWakeAll = some s' ∧ s'.Invariant (runq ++ parked) [] pool ∧
      Drained s s' parked := by
  have hhead : s.parkedHead = parked.head? := h.laid.parked_queue.head_eq
  have hlaid : (s.withParked parked.head? parked.getLast?).Laid runq parked pool :=
    ⟨h.laid.runq_queue, ⟨hhead ▸ h.laid.parked_queue.segment, rfl⟩, h.laid.pool_chain,
      h.laid.nodup⟩
  obtain ⟨s₁, hloop, hlaid', hdrained⟩ := drainWakeAllLoop_spec parked hlaid
    (Nat.lt_succ_of_le h.parked_length)
  have hk := hdrained.keeps
  refine ⟨{ s₁ with parkedHead := none, parkedTail := none, nParked := 0 }, ?_, ?_,
    ⟨hk.reg, hk.nSpawned, hk.nMapped, hk.nLive, hk.nPooled, hk.enrolled, hk.finished, hk.id,
      hk.registered⟩, hdrained.current, hdrained.woke, hdrained.slept⟩
  · unfold Sched.drainWakeAll
    rw [hhead, hloop]
    rfl
  · refine h.moves ⟨hk.reg, hk.nSpawned, hk.nMapped, hk.nLive, hk.nPooled, hk.enrolled,
      hk.finished, hk.id, hk.registered⟩
      ⟨hlaid'.runq_queue, hlaid'.parked_queue, hlaid'.pool_chain, hlaid'.nodup⟩ ?_ ?_ ?_ ?_ ?_ rfl
    · show (s₁.current.toList ++ (runq ++ parked) ++ []).Perm _
      rw [hdrained.current, append_nil, append_assoc]
    · intro r hr
      have hr' : s.current = some r := hdrained.current.symm.trans hr
      refine (congrArg LvTask.state (hdrained.slept r ?_)).trans (h.running r hr')
      intro hmem
      exact h.ne_current hr' (.inr (.inl hmem)) rfl
    · intro r hr
      rcases List.mem_append.mp hr with hr | hr
      · exact (congrArg LvTask.state (hdrained.slept r (h.laid.runq_parked hr))).trans
          (h.runnable r hr)
      · exact congrArg LvTask.state (hdrained.woke r hr)
    · intro r hr
      cases hr
    · intro r hr
      exact congrArg LvTask.state (hdrained.slept r fun hmem => h.laid.parked_pool hmem hr)

end

/-! ### Cancelling -/

/-- What `reg_find` finds is a live task of that id. -/
theorem Invariant.regFind_some (h : s.Invariant runq parked pool) {id : Nat}
    (hfind : s.regFind id = some t) :
    t ∈ s.current.toList ++ runq ++ parked ∧ s.idOf t = id := by
  unfold regFind at hfind
  obtain ⟨e, he, rfl⟩ := Option.map_eq_some_iff.mp hfind
  have hid : e.1 = id := by simpa using find?_some he
  obtain ⟨hlive, _, hidOf⟩ := (h.enrolment.mem_reg e.1 e.2).mp (mem_of_find?_eq_some he)
  exact ⟨hlive, hidOf.trans hid⟩

/-- A task whose state says parked is on the parked list. -/
theorem Invariant.mem_parked (h : s.Invariant runq parked pool)
    (hlive : t ∈ s.current.toList ++ runq ++ parked) (hstate : (s.task t).state = .parked) :
    t ∈ parked := by
  rcases List.mem_append.mp hlive with hlive | hlive
  · exfalso
    rcases List.mem_append.mp hlive with hlive | hlive
    · rw [h.running t (Option.mem_toList.mp hlive)] at hstate
      cases hstate
    · rw [h.runnable t hlive] at hstate
      cases hstate
  · exact hlive

/-- Noting the index of a settled key. -/
theorem Invariant.parkKeysSettled (h : s.Invariant runq parked pool) (poll : κ → Bool) (t : Nat) :
    (s.parkKeysSettled poll t).2.Invariant runq parked pool := by
  rcases s.parkKeysSettled_eq poll t with heq | ⟨ix, heq⟩
  · rw [heq]
    exact h
  · rw [heq]
    dsimp only
    exact h.modify rfl rfl rfl

/-- Taking a parked task off the list and waking it. -/
theorem Invariant.removed_wake {pre post : List Nat} (h : s.Invariant runq (pre ++ t :: post) pool)
    (reason : WakeReason) :
    ((s.removed pre.getLast? t).wake t reason).Invariant (runq ++ [t]) (pre ++ post) pool := by
  have hparked : t ∈ pre ++ t :: post := by simp
  have hout := h.laid.not_mem_of_unlinked
  have htask : ∀ r, r ≠ t → ((s.removed pre.getLast? t).wake t reason).task r = s.task r := by
    intro r hr
    rw [wake_task_of_ne _ _ hr, removed_task]
  have hne : ∀ r, r ∈ runq ∨ r ∈ pre ++ post ∨ r ∈ pool → r ≠ t := by
    intro r hr heq
    subst heq
    refine hout ?_
    rw [mem_append, mem_append]
    tauto
  have hcurrent : ∀ r, s.current = some r → r ≠ t := by
    intro r hr heq
    exact h.ne_current hr (.inr (.inl hparked)) heq.symm
  refine h.moves ((keeps_removed s _ t).trans (keeps_wake _ t reason))
    (h.laid.removed_wake reason) ?_ ?_ ?_ ?_ ?_ ?_
  · rw [wake_current, removed_current, perm_iff_count]
    intro a
    simp only [count_append, count_cons, count_nil]
    omega
  · intro r hr
    rw [wake_current, removed_current] at hr
    rw [htask r (hcurrent r hr)]
    exact h.running r hr
  · intro r hr
    rcases List.mem_append.mp hr with hr | hr
    · rw [htask r (hne r (.inl hr))]
      exact h.runnable r hr
    · obtain rfl := List.mem_singleton.mp hr
      rw [wake_task_self]
      rfl
  · intro r hr
    rw [htask r (hne r (.inr (.inl hr)))]
    refine h.parked_state r ?_
    rcases List.mem_append.mp hr with hr | hr
    · exact mem_append_left _ hr
    · exact mem_append_right _ (mem_cons_of_mem t hr)
  · intro r hr
    rw [htask r (hne r (.inr (.inr hr)))]
  · rw [wake_nParked, removed_nParked, h.parked_count]
    simp only [length_append, length_cons]
    push_cast
    omega

/-- **`lv_task_cancel`** always returns, and keeps the invariant. -/
theorem Invariant.taskCancel (h : s.Invariant runq parked pool) (poll : κ → Bool) (id : Nat) :
    ∃ r, s.taskCancel poll id = some r ∧ ∃ runq' parked', r.1.Invariant runq' parked' pool := by
  unfold Sched.taskCancel
  split
  · exact ⟨_, rfl, runq, parked, h⟩
  · next t hfind =>
      obtain ⟨hlive, _⟩ := h.regFind_some hfind
      split
      · exact ⟨_, rfl, runq, parked, h⟩
      · have hmark : (s.modify t fun k => { k with cancelled := true }).Invariant runq parked pool :=
          h.modify rfl rfl rfl
        dsimp only
        split
        · next hwaits =>
            have hkeys := hmark.parkKeysSettled poll t
            split
            · exact ⟨_, rfl, runq, parked, hkeys⟩
            · -- no key is settled: the task is on the parked list, and is found there
              have hmem : t ∈ parked := hmark.mem_parked hlive hwaits.1
              obtain ⟨pre, post, rfl⟩ := append_of_mem hmem
              have hlen := hkeys.parked_length
              rw [length_append] at hlen
              rw [hkeys.laid.parkedRemove (by omega)]
              exact ⟨_, rfl, runq ++ [t], pre ++ post, hkeys.removed_wake .cancelled⟩
        · exact ⟨_, rfl, runq, parked, hmark⟩

/-! ### Spawning -/

theorem takeStack_eq (s : Sched κ) :
    s.takeStack.2 = { s with
      pool := s.takeStack.2.pool
      nPooled := s.takeStack.2.nPooled
      nMapped := s.takeStack.2.nMapped } := by
  unfold takeStack
  split <;> rfl

/-- What `lv_task_spawn` writes. -/
theorem taskSpawn_eq (s : Sched κ) :
    s.taskSpawn = { s with
      task := Function.update s.task s.takeStack.1 (LvTask.fresh (s.nSpawned + 1))
      next := linkLast (Function.update s.next s.takeStack.1 none) s.runqTail s.takeStack.1
      runqHead := if s.runqTail = none then some s.takeStack.1 else s.runqHead
      runqTail := some s.takeStack.1
      pool := s.takeStack.2.pool
      nSpawned := s.nSpawned + 1
      nMapped := s.takeStack.2.nMapped
      nLive := s.nLive + 1
      nPooled := s.takeStack.2.nPooled } := by
  unfold taskSpawn
  dsimp only
  rw [runqAppend_eq, takeStack_eq s]
  rfl

/-- A task structure to use: it stands nowhere, and is the first of the pool or new. -/
theorem Invariant.takeStack (h : s.Invariant runq parked pool) :
    ∃ pool', s.takeStack.2.Laid runq parked pool' ∧
      (s.takeStack.1 :: (s.current.toList ++ runq ++ parked ++ pool')).Perm
        (List.range s.takeStack.2.nMapped) ∧
      (∀ r ∈ pool', r ∈ pool) ∧ s.takeStack.2.nPooled = pool'.length := by
  unfold Sched.takeStack
  cases pool with
  | nil =>
    have hpool : s.pool = none := h.laid.pool_chain
    rw [hpool]
    refine ⟨[], ⟨h.laid.runq_queue, h.laid.parked_queue, rfl, h.laid.nodup⟩, ?_, ?_,
      h.pooled_count⟩
    · show (s.nMapped :: _).Perm (List.range (s.nMapped + 1))
      rw [range_succ]
      refine (List.Perm.cons s.nMapped h.placed).trans ?_
      exact (perm_append_singleton s.nMapped _).symm
    · intro r hr
      cases hr
  | cons t pool =>
    obtain ⟨hpool, hrest⟩ := h.laid.pool_chain
    rw [hpool]
    refine ⟨pool, ⟨h.laid.runq_queue, h.laid.parked_queue, hrest, ?_⟩, ?_, ?_, ?_⟩
    · refine List.Sublist.nodup ?_ h.laid.nodup
      exact List.Sublist.append_left (sublist_cons_self t pool) _
    · exact List.perm_middle.symm.trans h.placed
    · intro r hr
      exact mem_cons_of_mem t hr
    · show s.nPooled - 1 = _
      rw [h.pooled_count, length_cons]
      push_cast
      omega

/-- The books after a task of a new id has joined the live ones, unregistered. -/
theorem Enrolment.spawned (h : s.Enrolment live) {live' : List Nat} (hout : t ∉ live)
    (hperm : live'.Perm (t :: live)) (hreg : s'.reg = s.reg)
    (hspawned : s'.nSpawned = s.nSpawned + 1) (henrolled : s'.enrolled = s.enrolled)
    (hfinished : s'.finished = s.finished) (hself : s'.task t = LvTask.fresh (s.nSpawned + 1))
    (hother : ∀ r ∈ live, s'.task r = s.task r) : s'.Enrolment live' := by
  have hid : ∀ r ∈ live, s'.idOf r = s.idOf r := fun r hr => congrArg LvTask.id (hother r hr)
  have hidt : s'.idOf t = s.nSpawned + 1 := congrArg LvTask.id hself
  have hnew : s.nSpawned + 1 ∉ s.enrolled := by
    intro hmem
    have hle := h.enrolled_le _ hmem
    omega
  have hmap : live.map s'.idOf = live.map s.idOf := map_congr_left hid
  refine ⟨?_, ?_, ?_, ?_, ?_, ?_⟩
  · rw [hreg]
    exact h.reg_ids
  · intro i r
    rw [hreg, h.mem_reg, hperm.mem_iff, henrolled]
    constructor
    · intro hr
      rw [hid r hr.1]
      exact ⟨mem_cons_of_mem t hr.1, hr.2⟩
    · intro hr
      obtain ⟨hmem, hin, heq⟩ := hr
      rcases List.mem_cons.mp hmem with rfl | hmem
      · rw [hidt] at hin
        exact absurd hin hnew
      · rw [hid r hmem] at hin heq
        exact ⟨hmem, hin, heq⟩
  · intro r hr
    rw [henrolled]
    rcases List.mem_cons.mp (hperm.mem_iff.mp hr) with rfl | hmem
    · rw [hidt, hself]
      constructor
      · intro hfalse
        cases hfalse
      · intro hmem
        exact absurd hmem hnew
    · rw [hid r hmem, hother r hmem]
      exact h.registered r hmem
  · rw [hspawned, hfinished, range'_1_concat]
    refine ((hperm.map s'.idOf).append_right s.finished).trans ?_
    rw [map_cons, hidt, hmap, cons_append, Nat.add_comm 1]
    refine (List.Perm.cons _ h.once).trans ?_
    exact (perm_append_singleton _ _).symm
  · intro i hi
    rw [henrolled] at hi
    have hle := h.enrolled_le i hi
    omega
  · rw [henrolled]
    exact h.enrolled_nodup

/-- **`lv_task_spawn`** puts a task of a new id at the end of the run queue. -/
theorem Invariant.taskSpawn (h : s.Invariant runq parked pool) :
    ∃ t pool', s.taskSpawn.Invariant (runq ++ [t]) parked pool' ∧
      s.taskSpawn.runqTail = some t ∧ s.taskSpawn.nSpawned = s.nSpawned + 1 ∧
      s.taskSpawn.task t = LvTask.fresh (s.nSpawned + 1) ∧
      s.taskSpawn.current = s.current ∧ s.taskSpawn.enrolled = s.enrolled ∧
      s.taskSpawn.finished = s.finished ∧ s.taskSpawn.reg = s.reg ∧
      t ∉ s.current.toList ++ runq ++ parked ∧
      ∀ r ∈ s.current.toList ++ runq ++ parked, s.taskSpawn.task r = s.task r := by
  obtain ⟨pool', hlaid, hplaced, hsub, hcount⟩ := h.takeStack
  have hall := hplaced.nodup_iff.mpr nodup_range
  rw [nodup_cons] at hall
  have hlive : s.takeStack.1 ∉ s.current.toList ++ runq ++ parked :=
    fun hmem => hall.1 (mem_append_left _ hmem)
  have hout : s.takeStack.1 ∉ runq ++ parked ++ pool' := by
    intro hmem
    refine hall.1 ?_
    rw [append_assoc, append_assoc]
    rw [append_assoc] at hmem
    exact mem_append_right _ hmem
  have hseeded : (s.takeStack.2.seed s.takeStack.1).Laid runq parked pool' :=
    let hl := hlaid.setNext hout none
    ⟨hl.runq_queue, hl.parked_queue, hl.pool_chain, hl.nodup⟩
  have hl := hseeded.runqAppend hout
  have hspawned : s.taskSpawn.Laid (runq ++ [s.takeStack.1]) parked pool' :=
    ⟨hl.runq_queue, hl.parked_queue, hl.pool_chain, hl.nodup⟩
  have heq := s.taskSpawn_eq
  generalize s.takeStack.1 = t at *
  have hother : ∀ r, r ≠ t → s.taskSpawn.task r = s.task r := by
    intro r hr
    rw [heq]
    exact Function.update_of_ne hr _ _
  have hself : s.taskSpawn.task t = LvTask.fresh (s.nSpawned + 1) := by
    rw [heq]
    exact Function.update_self _ _ _
  have hneLive : ∀ r ∈ s.current.toList ++ runq ++ parked, r ≠ t := by
    intro r hr hrt
    exact hlive (hrt ▸ hr)
  have hcurrent : s.taskSpawn.current = s.current := by rw [heq]
  have hreg : s.taskSpawn.reg = s.reg := by rw [heq]
  have hnSpawned : s.taskSpawn.nSpawned = s.nSpawned + 1 := by rw [heq]
  have henrolled : s.taskSpawn.enrolled = s.enrolled := by rw [heq]
  have hfinished : s.taskSpawn.finished = s.finished := by rw [heq]
  have hperm : (s.current.toList ++ (runq ++ [t]) ++ parked).Perm
      (t :: (s.current.toList ++ runq ++ parked)) := by
    rw [perm_iff_count]
    intro a
    simp only [count_append, count_cons, count_nil]
    omega
  refine ⟨t, pool', ?_, ?_, hnSpawned, hself, hcurrent, henrolled, hfinished, hreg, hlive,
    fun r hr => hother r (hneLive r hr)⟩
  · refine ⟨?_, ?_, ?_, ?_, ?_, ?_, ?_, ?_, ?_, ?_⟩
    · exact hspawned
    · have hmapped : s.taskSpawn.nMapped = s.takeStack.2.nMapped := by rw [heq]
      rw [hcurrent, hmapped]
      exact (hperm.append_right pool').trans hplaced
    · intro r hr
      rw [hcurrent] at hr
      rw [hother r (hneLive r (by simp [hr]))]
      exact h.running r hr
    · intro r hr
      rcases List.mem_append.mp hr with hr | hr
      · rw [hother r (hneLive r (by simp [hr]))]
        exact h.runnable r hr
      · obtain rfl := List.mem_singleton.mp hr
        rw [hself]
        rfl
    · intro r hr
      rw [hother r (hneLive r (by simp [hr]))]
      exact h.parked_state r hr
    · intro r hr
      have hne : r ≠ t := by
        intro hrt
        exact hout (hrt ▸ mem_append_right _ hr)
      unfold idOf
      rw [hother r hne, hfinished]
      exact h.pooled r (hsub r hr)
    · have hlen : s.taskSpawn.nLive = s.nLive + 1 := by rw [heq]
      rw [hlen, h.live_count, hcurrent, hperm.length_eq, length_cons]
      push_cast
      rfl
    · have hparked : s.taskSpawn.nParked = s.nParked := by rw [heq]
      rw [hparked]
      exact h.parked_count
    · have hpooled : s.taskSpawn.nPooled = s.takeStack.2.nPooled := by rw [heq]
      rw [hpooled]
      exact hcount
    · rw [hcurrent]
      exact h.enrolment.spawned hlive hperm hreg hnSpawned henrolled hfinished hself
        fun r hr => hother r (hneLive r hr)
  · rw [heq]

theorem regAdd_task (s : Sched κ) (t : Nat) :
    (s.regAdd t).task = (s.modify t fun k => { k with registered := true }).task := rfl

theorem regAdd_id (s : Sched κ) (t r : Nat) : ((s.regAdd t).task r).id = (s.task r).id := by
  rw [regAdd_task]
  by_cases hr : r = t
  · subst hr
    rw [modify_task_self]
  · rw [modify_task_of_ne _ _ hr]

theorem regAdd_state (s : Sched κ) (t r : Nat) :
    ((s.regAdd t).task r).state = (s.task r).state := by
  rw [regAdd_task]
  by_cases hr : r = t
  · subst hr
    rw [modify_task_self]
  · rw [modify_task_of_ne _ _ hr]

/-- The books after a live task has been put on the registry. -/
theorem Enrolment.regAdd (h : s.Enrolment live) (hlive : t ∈ live)
    (hnew : s.idOf t ∉ s.enrolled) :
    { s.regAdd t with enrolled := s.enrolled ++ [(s.task t).id] }.Enrolment live := by
  have hids : idOf { s.regAdd t with enrolled := s.enrolled ++ [(s.task t).id] } = s.idOf :=
    funext fun r => s.regAdd_id t r
  -- two live tasks of one id are one task
  have hinj : ∀ r ∈ live, s.idOf r = s.idOf t → r = t := by
    intro r hr heq
    exact inj_on_of_nodup_map h.ids hr hlive heq
  refine ⟨?_, ?_, ?_, ?_, ?_, ?_⟩
  · show ((s.reg ++ [((s.task t).id, t)]).map Prod.fst).Nodup
    rw [map_append, nodup_append]
    refine ⟨h.reg_ids, nodup_singleton _, ?_⟩
    intro i hi j hj heq
    obtain ⟨⟨i, r⟩, hmem, rfl⟩ := List.mem_map.mp hi
    obtain ⟨_, hin, hidr⟩ := (h.mem_reg i r).mp hmem
    have hj' : j = (s.task t).id := List.mem_singleton.mp hj
    refine hnew ?_
    show (s.task t).id ∈ s.enrolled
    rw [← hj', ← heq, ← hidr]
    exact hin
  · intro i r
    rw [hids]
    show (i, r) ∈ s.reg ++ [((s.task t).id, t)] ↔
      r ∈ live ∧ s.idOf r ∈ s.enrolled ++ [(s.task t).id] ∧ s.idOf r = i
    rw [mem_append, h.mem_reg, mem_append, mem_singleton, mem_singleton]
    constructor
    · intro hr
      rcases hr with hr | hr
      · exact ⟨hr.1, .inl hr.2.1, hr.2.2⟩
      · cases hr
        exact ⟨hlive, .inr rfl, rfl⟩
    · intro hr
      obtain ⟨hmem, hin, hidr⟩ := hr
      rcases hin with hin | hin
      · exact .inl ⟨hmem, hin, hidr⟩
      · have hrt := hinj r hmem hin
        subst hrt
        right
        rw [← hidr]
        rfl
  · intro r hr
    rw [hids]
    show ((s.regAdd t).task r).registered = true ↔ s.idOf r ∈ s.enrolled ++ [(s.task t).id]
    rw [regAdd_task]
    by_cases hrt : r = t
    · subst hrt
      rw [modify_task_self]
      exact ⟨fun _ => mem_append_right _ (List.mem_singleton.mpr rfl), fun _ => rfl⟩
    · rw [modify_task_of_ne _ _ hrt, mem_append, mem_singleton]
      show (s.task r).registered = true ↔ _
      rw [h.registered r hr]
      constructor
      · exact .inl
      · intro hor
        rcases hor with hin | heq
        · exact hin
        · exact absurd (hinj r hr heq) hrt
  · rw [hids]
    exact h.once
  · intro i hi
    rcases List.mem_append.mp hi with hi | hi
    · exact h.enrolled_le i hi
    · obtain rfl := List.mem_singleton.mp hi
      exact h.id_le hlive
  · show (s.enrolled ++ [s.idOf t]).Nodup
    rw [nodup_append]
    refine ⟨h.enrolled_nodup, nodup_singleton _, ?_⟩
    intro i hi j hj heq
    obtain rfl := List.mem_singleton.mp hj
    exact hnew (heq ▸ hi)

/-- **`lv_task_spawn_registered`**. -/
theorem Invariant.taskSpawnRegistered (h : s.Invariant runq parked pool) :
    ∃ t pool', s.taskSpawnRegistered.Invariant (runq ++ [t]) parked pool' ∧
      s.taskSpawnRegistered.enrolled = s.enrolled ++ [s.nSpawned + 1] := by
  obtain ⟨t, pool', hspawn, htail, _, hself, hcurrent, henrolled, _⟩ := h.taskSpawn
  have hid : s.taskSpawn.idOf t = s.nSpawned + 1 := congrArg LvTask.id hself
  have hlive : t ∈ s.taskSpawn.current.toList ++ (runq ++ [t]) ++ parked := by simp
  have hnew : s.taskSpawn.idOf t ∉ s.taskSpawn.enrolled := by
    rw [hid, henrolled]
    intro hmem
    have hle := h.enrolment.enrolled_le _ hmem
    omega
  have heq : s.taskSpawnRegistered = { s.taskSpawn.regAdd t with
      enrolled := s.taskSpawn.enrolled ++ [(s.taskSpawn.task t).id] } := by
    unfold Sched.taskSpawnRegistered
    dsimp only
    rw [htail]
  rw [heq]
  refine ⟨t, pool', ⟨?_, hspawn.placed, ?_, ?_, ?_, ?_, hspawn.live_count, hspawn.parked_count,
    hspawn.pooled_count, hspawn.enrolment.regAdd hlive hnew⟩, ?_⟩
  · exact ⟨hspawn.laid.runq_queue, hspawn.laid.parked_queue, hspawn.laid.pool_chain,
      hspawn.laid.nodup⟩
  · intro r hr
    exact (regAdd_state _ t r).trans (hspawn.running r hr)
  · intro r hr
    exact (regAdd_state _ t r).trans (hspawn.runnable r hr)
  · intro r hr
    exact (regAdd_state _ t r).trans (hspawn.parked_state r hr)
  · intro r hr
    refine ⟨(regAdd_state _ t r).trans (hspawn.pooled r hr).1, ?_⟩
    show ((s.taskSpawn.regAdd t).task r).id ∈ s.taskSpawn.finished
    rw [regAdd_id]
    exact (hspawn.pooled r hr).2
  · show s.taskSpawn.enrolled ++ [s.taskSpawn.idOf t] = _
    rw [hid, henrolled]

/-! ### Finishing -/

/-- Overwriting an entry by the last one and dropping the last one removes that entry. -/
theorem perm_swapPop {α : Type} (l : List α) {i : Nat} (hi : i < l.length) :
    l.Perm (l[i] :: swapPop l i) := by
  rcases eq_nil_or_concat l with rfl | ⟨m, z, rfl⟩
  · cases hi
  · rw [concat_eq_append] at hi
    simp only [concat_eq_append]
    unfold swapPop
    rw [getLast?_append_of_ne_nil _ (by simp), getLast?_singleton]
    dsimp only
    rw [length_append, length_singleton] at hi
    by_cases hlast : i = m.length
    · subst hlast
      simp only [getElem_append_right le_rfl, Nat.sub_self, getElem_singleton]
      rw [set_append_right _ _ le_rfl, Nat.sub_self, set_cons_zero,
        dropLast_concat]
      exact perm_append_singleton z m
    · have hlt : i < m.length := by omega
      rw [getElem_append_left hlt, set_append_left _ _ hlt, dropLast_concat]
      refine (perm_append_singleton z m).trans ?_
      refine (List.Perm.cons z (getElem_cons_eraseIdx_perm hlt).symm).trans ?_
      refine (List.Perm.swap m[i] z _).trans ?_
      exact .cons _ (set_perm_cons_eraseIdx hlt z).symm

/-- The registry without the entries of a task. -/
def regWithout (s : Sched κ) (t : Nat) : List (Nat × Nat) :=
  if (s.task t).registered then (s.regRemove t).reg else s.reg

/-- `reg_remove` drops the entry of its task and no other. -/
theorem Enrolment.regWithout (h : s.Enrolment live) (hlive : t ∈ live) :
    ((s.regWithout t).map Prod.fst).Nodup ∧
      ∀ i r, (i, r) ∈ s.regWithout t ↔ (i, r) ∈ s.reg ∧ r ≠ t := by
  unfold Sched.regWithout
  by_cases hreg : (s.task t).registered = true
  · rw [if_pos hreg]
    have hentry : (s.idOf t, t) ∈ s.reg :=
      (h.mem_reg _ _).mpr ⟨hlive, (h.registered t hlive).mp hreg, rfl⟩
    have honly : ∀ i, (i, t) ∈ s.reg → i = s.idOf t := by
      intro i hi
      exact ((h.mem_reg i t).mp hi).2.2.symm
    obtain ⟨i, hi⟩ : ∃ i, s.reg.findIdx? (fun e => decide (e.2 = t)) = some i := by
      rw [← Option.isSome_iff_exists, findIdx?_isSome]
      exact List.any_eq_true.mpr ⟨_, hentry, decide_eq_true rfl⟩
    obtain ⟨hlt, hfound, _⟩ := List.findIdx?_eq_some_iff_getElem.mp hi
    have hperm := perm_swapPop s.reg hlt
    have hget : s.reg[i] = (s.idOf t, t) := by
      have hsnd : s.reg[i].2 = t := by simpa using hfound
      have hmem : (s.reg[i].1, t) ∈ s.reg := by
        rw [← hsnd]
        exact getElem_mem hlt
      exact Prod.ext (honly _ hmem) hsnd
    have hremoved : (s.regRemove t).reg = swapPop s.reg i := by
      unfold regRemove
      dsimp only
      rw [hi]
      rfl
    rw [hremoved]
    rw [hget] at hperm
    have hnodup := h.reg_ids
    rw [(hperm.map Prod.fst).nodup_iff, map_cons, nodup_cons] at hnodup
    refine ⟨hnodup.2, ?_⟩
    intro j r
    rw [hperm.mem_iff, mem_cons]
    constructor
    · intro hmem
      refine ⟨.inr hmem, ?_⟩
      intro hrt
      subst hrt
      -- a second entry of the task would have its id
      have hj := honly j (hperm.mem_iff.mpr (mem_cons_of_mem _ hmem))
      exact hnodup.1 (hj ▸ mem_map_of_mem hmem)
    · intro hmem
      rcases hmem.1 with heq | hin
      · exact absurd (congrArg Prod.snd heq) hmem.2
      · exact hin
  · rw [if_neg hreg]
    refine ⟨h.reg_ids, ?_⟩
    intro j r
    constructor
    · intro hmem
      refine ⟨hmem, ?_⟩
      intro hrt
      subst hrt
      obtain ⟨hr, hin, _⟩ := (h.mem_reg j r).mp hmem
      exact hreg ((h.registered r hr).mpr hin)
    · intro hmem
      exact hmem.1

/-- The books after a live task has finished. -/
theorem Enrolment.finishes (h : s.Enrolment (t :: live)) (hreg : s'.reg = s.regWithout t)
    (hspawned : s'.nSpawned = s.nSpawned) (henrolled : s'.enrolled = s.enrolled)
    (hfinished : s'.finished = s.finished ++ [s.idOf t])
    (hother : ∀ r ∈ live, s'.task r = s.task r) : s'.Enrolment live := by
  obtain ⟨hnodup, hmem⟩ := h.regWithout mem_cons_self
  have hids := h.ids
  rw [map_cons, nodup_cons] at hids
  have hid : ∀ r ∈ live, s'.idOf r = s.idOf r := fun r hr => congrArg LvTask.id (hother r hr)
  have hmap : live.map s'.idOf = live.map s.idOf := map_congr_left hid
  have hne : ∀ r ∈ live, r ≠ t := by
    intro r hr hrt
    exact hids.1 (hrt ▸ mem_map_of_mem hr)
  refine ⟨?_, ?_, ?_, ?_, ?_, ?_⟩
  · rw [hreg]
    exact hnodup
  · intro i r
    rw [hreg, hmem, h.mem_reg, henrolled, mem_cons]
    constructor
    · intro hr
      have hr' : r ∈ live := hr.1.1.resolve_left hr.2
      rw [hid r hr']
      exact ⟨hr', hr.1.2⟩
    · intro hr
      rw [hid r hr.1] at hr
      exact ⟨⟨.inr hr.1, hr.2⟩, hne r hr.1⟩
  · intro r hr
    rw [hother r hr, hid r hr, henrolled]
    exact h.registered r (mem_cons_of_mem t hr)
  · rw [hmap, hspawned, hfinished]
    refine List.Perm.trans ?_ h.once
    rw [map_cons, cons_append, ← append_assoc]
    exact perm_append_singleton _ _
  · rw [henrolled, hspawned]
    exact h.enrolled_le
  · rw [henrolled]
    exact h.enrolled_nodup

/-- What the end of a task writes. -/
theorem taskReturns_eq (s : Sched κ) (t : Nat) :
    ∃ k : LvTask κ, k.state = .pooled ∧ k.id = (s.task t).id ∧
      s.taskReturns t = { s with
        task := Function.update s.task t k
        next := Function.update s.next t s.pool
        current := none
        pool := some t
        mainTask := (s.taskReturns t).mainTask
        mainDone := (s.taskReturns t).mainDone
        reg := s.regWithout t
        nCompleted := s.nCompleted + 1
        nLive := s.nLive - 1
        nPooled := s.nPooled + 1
        finished := s.finished ++ [s.idOf t] } := by
  unfold taskReturns regWithout poolReturn modify setNext
  by_cases hmain : s.mainTask = some t
  · by_cases hreg : (s.task t).registered = true
    · refine ⟨{ s.task t with registered := false, state := .pooled }, rfl, rfl, ?_⟩
      simp [hmain, hreg, regRemove, modify, idOf]
    · refine ⟨{ s.task t with state := .pooled }, rfl, rfl, ?_⟩
      simp [hmain, hreg, idOf]
  · by_cases hreg : (s.task t).registered = true
    · refine ⟨{ s.task t with registered := false, state := .pooled }, rfl, rfl, ?_⟩
      simp [hmain, hreg, regRemove, modify, idOf]
    · refine ⟨{ s.task t with state := .pooled }, rfl, rfl, ?_⟩
      simp [hmain, hreg, idOf]

/-- The structure of a task that has ended. -/
theorem taskReturns_task (s : Sched κ) (t : Nat) :
    (s.taskReturns t).task t = { s.task t with registered := false, state := .pooled } := by
  unfold taskReturns poolReturn modify setNext
  by_cases hmain : s.mainTask = some t
  · by_cases hreg : (s.task t).registered = true
    · simp [hmain, hreg, regRemove, modify]
    · simp [hmain, hreg]
  · by_cases hreg : (s.task t).registered = true
    · simp [hmain, hreg, regRemove, modify]
    · simp [hmain, hreg]

/-- **The end of a task**: its structure goes to the pool. -/
theorem Invariant.taskReturns (h : s.Invariant runq parked pool) (hc : s.current = some t) :
    (s.taskReturns t).Invariant runq parked (t :: pool) := by
  obtain ⟨k, hstate, hid, heq⟩ := s.taskReturns_eq t
  have hout := h.current_not_mem hc
  have hne : ∀ r, r ∈ runq ++ parked ++ pool → r ≠ t := by
    intro r hr hrt
    exact hout (hrt ▸ hr)
  have htask : (s.taskReturns t).task = Function.update s.task t k := by rw [heq]
  have hother : ∀ r, r ∈ runq ++ parked ++ pool → (s.taskReturns t).task r = s.task r := by
    intro r hr
    rw [htask, Function.update_of_ne (hne r hr)]
  have hnext : ∀ r, r ∈ runq ++ parked ++ pool → (s.taskReturns t).next r = s.next r := by
    intro r hr
    rw [heq]
    exact Function.update_of_ne (hne r hr) _ _
  have hcurrent : (s.taskReturns t).current = none := by rw [heq]
  have hfinished : (s.taskReturns t).finished = s.finished ++ [s.idOf t] := by rw [heq]
  have hlive : (s.current.toList ++ runq ++ parked) = t :: (runq ++ parked) := by
    rw [hc]
    rfl
  refine ⟨⟨?_, ?_, ?_, ?_⟩, ?_, ?_, ?_, ?_, ?_, ?_, ?_, ?_, ?_⟩
  · have hrunq : Queue (s.taskReturns t).next s.runqHead s.runqTail runq :=
      h.laid.runq_queue.congr fun r hr => hnext r (by simp [hr])
    rw [heq] at hrunq ⊢
    exact hrunq
  · have hparked : Queue (s.taskReturns t).next s.parkedHead s.parkedTail parked :=
      h.laid.parked_queue.congr fun r hr => hnext r (by simp [hr])
    rw [heq] at hparked ⊢
    exact hparked
  · have hpool : Segment (s.taskReturns t).next s.pool pool none :=
      h.laid.pool_chain.congr fun r hr => hnext r (by simp [hr])
    have hself : (s.taskReturns t).next t = s.pool := by
      rw [heq]
      exact Function.update_self _ _ _
    have hhead : (s.taskReturns t).pool = some t := by rw [heq]
    exact ⟨hhead, hself.symm ▸ hpool⟩
  · have hperm : (runq ++ parked ++ t :: pool).Perm (t :: (runq ++ parked ++ pool)) :=
      perm_middle
    rw [hperm.nodup_iff, nodup_cons]
    exact ⟨hout, h.laid.nodup⟩
  · have hmapped : (s.taskReturns t).nMapped = s.nMapped := by rw [heq]
    rw [hcurrent, hmapped]
    have hplaced := h.placed
    rw [hlive] at hplaced
    exact List.perm_middle.trans hplaced
  · intro r hr
    rw [hcurrent] at hr
    cases hr
  · intro r hr
    rw [hother r (by simp [hr])]
    exact h.runnable r hr
  · intro r hr
    rw [hother r (by simp [hr])]
    exact h.parked_state r hr
  · intro r hr
    unfold idOf
    rw [hfinished]
    rcases List.mem_cons.mp hr with rfl | hr
    · rw [htask, Function.update_self, hid]
      exact ⟨hstate, mem_append_right _ (List.mem_singleton.mpr rfl)⟩
    · rw [hother r (by simp [hr])]
      exact ⟨(h.pooled r hr).1, mem_append_left _ (h.pooled r hr).2⟩
  · have hcount : (s.taskReturns t).nLive = s.nLive - 1 := by rw [heq]
    rw [hcount, h.live_count, hlive, hcurrent, length_cons]
    push_cast
    simp
  · have hcount : (s.taskReturns t).nParked = s.nParked := by rw [heq]
    rw [hcount]
    exact h.parked_count
  · have hcount : (s.taskReturns t).nPooled = s.nPooled + 1 := by rw [heq]
    rw [hcount, h.pooled_count]
    rfl
  · rw [hcurrent]
    have hbooks := h.enrolment
    rw [hlive] at hbooks
    have hreg : (s.taskReturns t).reg = s.regWithout t := by rw [heq]
    have hspawned : (s.taskReturns t).nSpawned = s.nSpawned := by rw [heq]
    have henrolled : (s.taskReturns t).enrolled = s.enrolled := by rw [heq]
    refine hbooks.finishes hreg hspawned henrolled hfinished ?_
    intro r hr
    exact hother r (mem_append_left _ hr)

/-! ### Every entry -/

theorem taskSpawn_current (s : Sched κ) : s.taskSpawn.current = s.current := by
  rw [taskSpawn_eq]

theorem loopBatch_current (n : Nat) : ∀ s : Sched κ, (s.loopBatch n).current = s.current := by
  induction n with
  | zero =>
    intro s
    rfl
  | succ n ih =>
    intro s
    exact (ih s.taskSpawn).trans s.taskSpawn_current

theorem Invariant.loopBatch (n : Nat) :
    ∀ {s : Sched κ} {runq pool : List Nat}, s.Invariant runq parked pool →
      ∃ runq' pool', (s.loopBatch n).Invariant runq' parked pool' := by
  induction n with
  | zero =>
    intro s runq pool h
    exact ⟨runq, pool, h⟩
  | succ n ih =>
    intro s runq pool h
    obtain ⟨t, pool', hspawn, _⟩ := h.taskSpawn
    exact ih hspawn

/-- Where the code does not assert that an entry is called in the other context: parks,
yields and ends are the running task's, dispatching, polling, the loop and draining the
scheduler's. -/
def Allowed (s : Sched κ) : Op κ → Prop
  | .schedRun => s.current = none
  | .spawn => True
  | .spawnRegistered => True
  | .dispatch => s.current = none ∧ s.runqHead ≠ none
  | .yield => s.current ≠ none
  | .parkOn _ => s.current ≠ none
  | .parkAny2 _ _ => s.current ≠ none
  | .parkJoin _ => s.current ≠ none
  | .cancel _ _ => True
  | .shield _ => True
  | .returns => s.current ≠ none
  | .poll _ => s.current = none
  | .loop _ => s.current = none
  | .drain => s.current = none

/-- Some lists for which the invariant holds. -/
def Good (s : Sched κ) : Prop := ∃ runq parked pool, s.Invariant runq parked pool

theorem asTask_good {f : Nat → Sched κ} (hgood : ∀ t, s.current = some t → (f t).Good) :
    ((s.asTask f).isSome = true ↔ s.current ≠ none) ∧ ∀ s', s.asTask f = some s' → s'.Good := by
  unfold asTask
  cases hc : s.current with
  | none =>
    refine ⟨by simp, ?_⟩
    intro s' hs
    cases hs
  | some t =>
    refine ⟨by simp, ?_⟩
    intro s' hs
    cases hs
    exact hgood t hc

theorem asScheduler_good (after : Option (Sched κ))
    (hafter : s.current = none → ∃ s', after = some s' ∧ s'.Good) :
    ((s.asScheduler after).isSome = true ↔ s.current = none) ∧
      ∀ s', s.asScheduler after = some s' → s'.Good := by
  unfold asScheduler
  by_cases hc : s.current = none
  · obtain ⟨s₁, rfl, hgood⟩ := hafter hc
    rw [if_pos hc]
    refine ⟨by simp [hc], ?_⟩
    intro s' hs
    cases hs
    exact hgood
  · rw [if_neg hc]
    refine ⟨by simp [hc], ?_⟩
    intro s' hs
    cases hs

/-- The three parks. -/
theorem Invariant.parks (h : s.Invariant runq parked pool) (hc : s.current = some t)
    {f : LvTask κ → LvTask κ} (frame : Frame) (hid : (f (s.task t)).id = (s.task t).id)
    (hregistered : (f (s.task t)).registered = (s.task t).registered)
    (hstate : (f (s.task t)).state = (s.task t).state) :
    ((s.modify t f).parkCommon t frame).1.Good := by
  have hm := h.modify hid hregistered hstate
  have hcurrent : (s.modify t f).current = some t := hc
  obtain ⟨parked', hp⟩ := hm.parkCommon hcurrent frame
  exact ⟨runq, parked', pool, hp⟩

/-- **Every entry keeps the invariant**, and is refused only in the context the code asserts
it is not called in. -/
theorem step_good (h : s.Invariant runq parked pool) (op : Op κ) :
    ((s.step op).isSome = true ↔ s.Allowed op) ∧ ∀ s', s.step op = some s' → s'.Good := by
  cases op with
  | schedRun =>
    refine asScheduler_good _ fun _ => ⟨_, rfl, ?_⟩
    obtain ⟨t, pool', hspawn, _⟩ := h.taskSpawn
    exact ⟨_, _, _, ⟨⟨hspawn.laid.1, hspawn.laid.2, hspawn.laid.3, hspawn.laid.4⟩,
      hspawn.placed, hspawn.running, hspawn.runnable, hspawn.parked_state, hspawn.pooled,
      hspawn.live_count, hspawn.parked_count, hspawn.pooled_count,
      hspawn.enrolment.moves ⟨rfl, rfl, rfl, rfl, rfl, rfl, rfl, fun _ => rfl, fun _ => rfl⟩
        (.refl _)⟩⟩
  | spawn =>
    obtain ⟨t, pool', hspawn, _⟩ := h.taskSpawn
    refine ⟨by simp [step, Allowed], ?_⟩
    intro s' hs
    cases hs
    exact ⟨_, _, _, hspawn⟩
  | spawnRegistered =>
    obtain ⟨t, pool', hspawn, _⟩ := h.taskSpawnRegistered
    refine ⟨by simp [step, Allowed], ?_⟩
    intro s' hs
    cases hs
    exact ⟨_, _, _, hspawn⟩
  | dispatch =>
    cases runq with
    | nil =>
      have hhead : s.runqHead = none := h.laid.runq_queue.head_eq
      have hrefused : s.step .dispatch = none := by
        unfold step asScheduler runqPop
        rw [hhead]
        simp
      rw [hrefused]
      refine ⟨by simp [Allowed, hhead], ?_⟩
      intro s' hs
      cases hs
    | cons t runq =>
      have hhead : s.runqHead = some t := h.laid.runq_queue.head_eq
      have hpop := (runqPop_laid h.laid).1
      have hstep : s.step .dispatch = s.asScheduler (some (s.runqPop.2.switchTo t).1) := by
        unfold step
        have hpair : s.runqPop = (some t, s.runqPop.2) := Prod.ext hpop rfl
        rw [hpair]
      rw [hstep]
      have hgood := asScheduler_good (s := s) (some (s.runqPop.2.switchTo t).1)
        fun hc => ⟨_, rfl, runq, parked, pool, h.switchTo hc⟩
      refine ⟨hgood.1.trans ?_, hgood.2⟩
      simp [Allowed, hhead]
  | yield => exact asTask_good fun t hc => ⟨_, _, _, h.taskYield hc⟩
  | parkOn key => exact asTask_good fun t hc => h.parks hc .parking rfl rfl rfl
  | parkAny2 a b => exact asTask_good fun t hc => h.parks hc .parkingAny2 rfl rfl rfl
  | parkJoin ids =>
    refine asTask_good fun t hc => ?_
    unfold Sched.taskParkJoin
    split
    · exact ⟨_, _, _, h⟩
    · exact h.parks hc .parking rfl rfl rfl
  | cancel id poll =>
    obtain ⟨r, hcancel, runq', parked', hr⟩ := h.taskCancel poll id
    have hstep : s.step (.cancel id poll) = some r.1 := congrArg (Option.map Prod.fst) hcancel
    rw [hstep]
    refine ⟨by simp [Allowed], ?_⟩
    intro s' hs
    cases hs
    exact ⟨_, _, _, hr⟩
  | shield delta =>
    refine ⟨by simp [step, Allowed], ?_⟩
    intro s' hs
    cases hs
    exact ⟨_, _, _, h.taskShield delta⟩
  | returns => exact asTask_good fun t hc => ⟨_, _, _, h.taskReturns hc⟩
  | poll poll =>
    obtain ⟨s₁, hpoll, hinv, _⟩ := h.pollParked poll
    refine asScheduler_good _ fun _ => ⟨s₁, ?_, _, _, _, hinv⟩
    rw [hpoll]
    rfl
  | loop n =>
    obtain ⟨runq', pool', hloop⟩ := h.loopBatch n
    exact asScheduler_good _ fun _ => ⟨_, rfl, _, _, _, hloop⟩
  | drain =>
    obtain ⟨s₁, hdrain, hinv, _⟩ := h.drainWakeAll
    exact asScheduler_good _ fun _ => ⟨s₁, hdrain, _, _, _, hinv⟩

theorem good_init : (init : Sched κ).Good := ⟨_, _, _, invariant_init⟩

/-- **The scheduler's invariant over every run.**  After any sequence of entries every task
structure is the running one or on exactly one of the run queue, the parked list and the
pool, and its state field says which; the finished tasks are those on the pool; the queues
are well formed and end at their tails; the counters count; the registry holds exactly the
unfinished registered tasks, each under its own id, and no id is handed out twice.  No entry
fails, except where the code asserts that it is called in the other context. -/
theorem scheduler_invariant (ops : List (Op κ)) (s : Sched κ)
    (hrun : run step init ops = some s) :
    (∃ runq parked pool, s.Invariant runq parked pool) ∧
      ∀ op, (s.step op).isSome = true ↔ s.Allowed op := by
  have hgood : s.Good := run_invariant (fun s op s' hg hs => by
    obtain ⟨runq, parked, pool, h⟩ := hg
    exact (step_good h op).2 s' hs) good_init hrun
  refine ⟨hgood, ?_⟩
  intro op
  obtain ⟨runq, parked, pool, h⟩ := hgood
  exact (step_good h op).1

/-- A group of two children, one of which is cancelled while it is parked. -/
def cancelledChild : List (Op Nat) :=
  [.schedRun, .dispatch, .spawnRegistered, .spawnRegistered, .parkJoin [2, 3], .dispatch,
    .parkOn 7, .dispatch, .cancel 2 fun _ => false, .returns, .dispatch]

/-- After that run the cancelled child is running again, the main task is parked and the
other child's structure is on the pool. -/
theorem scheduler_invariant_cancelledChild :
    ∃ s : Sched Nat, run step init cancelledChild = some s ∧
      s.current = some 1 ∧ s.parkedHead = some 0 ∧ s.pool = some 2 ∧ s.reg = [(2, 1)] ∧
      ∃ runq parked pool, s.Invariant runq parked pool := by
  obtain ⟨s, hs⟩ := Option.isSome_iff_exists.mp
    (show (run step (init : Sched Nat) cancelledChild).isSome = true by rfl)
  refine ⟨s, hs, ?_, ?_, ?_, ?_, (scheduler_invariant cancelledChild s hs).1⟩
  · exact Option.some.inj ((congrArg (Option.map Sched.current) hs).symm.trans rfl)
  · exact Option.some.inj ((congrArg (Option.map Sched.parkedHead) hs).symm.trans rfl)
  · exact Option.some.inj ((congrArg (Option.map Sched.pool) hs).symm.trans rfl)
  · exact Option.some.inj ((congrArg (Option.map Sched.reg) hs).symm.trans rfl)

end Sched

end Leviathan.Runtime
