import Leviathan.Runtime.Task

/-!
# The lists of the scheduler

`Laid` says that the run queue, the parked list and the pool are well formed and disjoint.
Each operation on them has one lemma that says what it makes of the three lists, and
`Keeps` says what it leaves alone.

The three loops are specified as a whole: a pass of `poll_parked` moves the settled tasks
to the run queue and keeps the others in order (`pollParkedLoop_spec`), a drain
moves all of them (`drainWakeAllLoop_spec`), and `parked_remove` finds the task it looks
for (`Laid.parkedRemove`).
-/

variable {r : Nat} {pre post : List Nat}

namespace Leviathan.Runtime

open Leviathan.LinkedQueue Leviathan.Runs List

variable {κ : Type}

namespace Sched

/-- The run queue, the parked list and the pool are well formed and share no task. -/
structure Laid (s : Sched κ) (runq parked pool : List Nat) : Prop where
  runq_queue : Queue s.next s.runqHead s.runqTail runq
  parked_queue : Queue s.next s.parkedHead s.parkedTail parked
  pool_chain : Segment s.next s.pool pool none
  nodup : (runq ++ parked ++ pool).Nodup

variable {s s' : Sched κ} {runq parked pool : List Nat} {t : Nat}

section
variable (h : s.Laid runq parked pool)
include h

theorem Laid.runq_nodup : runq.Nodup :=
  (List.nodup_append.mp (List.nodup_append.mp h.nodup).1).1

theorem Laid.parked_nodup : parked.Nodup :=
  (List.nodup_append.mp (List.nodup_append.mp h.nodup).1).2.1

theorem Laid.runq_parked (hr : r ∈ runq) : r ∉ parked := by
  intro hp
  exact (List.nodup_append.mp (List.nodup_append.mp h.nodup).1).2.2 r hr r hp rfl

theorem Laid.runq_pool (hr : r ∈ runq) : r ∉ pool := by
  intro hp
  exact (List.nodup_append.mp h.nodup).2.2 r (mem_append_left parked hr) r hp rfl

theorem Laid.parked_pool (hr : r ∈ parked) : r ∉ pool := by
  intro hp
  exact (List.nodup_append.mp h.nodup).2.2 r (mem_append_right runq hr) r hp rfl

theorem Laid.ne_runqTail (hr : r ∉ runq) : s.runqTail ≠ some r := by
  intro heq
  rw [h.runq_queue.tail_eq] at heq
  exact hr (mem_of_getLast? heq)

theorem Laid.ne_parkedTail (hr : r ∉ parked) : s.parkedTail ≠ some r := by
  intro heq
  rw [h.parked_queue.tail_eq] at heq
  exact hr (mem_of_getLast? heq)

end

/-! ### The queue operations -/

theorem runqAppend_eq (s : Sched κ) (t : Nat) :
    s.runqAppend t = { s with
      next := linkLast s.next s.runqTail t
      runqHead := if s.runqTail = none then some t else s.runqHead
      runqTail := some t } := by
  unfold runqAppend setNext
  dsimp only
  cases htail : s.runqTail with
  | none => rfl
  | some z => rfl

theorem parkedAppend_eq (s : Sched κ) (t : Nat) :
    s.parkedAppend t = { s with
      next := linkLast s.next s.parkedTail t
      parkedHead := if s.parkedTail = none then some t else s.parkedHead
      parkedTail := some t } := by
  unfold parkedAppend setNext
  dsimp only
  cases htail : s.parkedTail with
  | none => rfl
  | some z => rfl

theorem parkedUnlink_eq (s : Sched κ) (prev : Option Nat) (t : Nat) (after : Option Nat) :
    s.parkedUnlink prev t after = { s with
      next := bypass s.next prev after
      parkedHead := if prev = none then after else s.parkedHead
      parkedTail := if s.parkedTail = some t then prev else s.parkedTail } := by
  unfold parkedUnlink setNext
  cases prev with
  | none =>
    dsimp only
    split <;> rfl
  | some p =>
    dsimp only
    split <;> rfl

/-- `runq_append` puts a task that stands on no list at the end of the run queue. -/
theorem Laid.runqAppend (h : s.Laid runq parked pool) (ht : t ∉ runq ++ parked ++ pool) :
    (s.runqAppend t).Laid (runq ++ [t]) parked pool := by
  rw [mem_append, mem_append] at ht
  have hkeep : ∀ r, r ≠ t → r ∉ runq → linkLast s.next s.runqTail t r = s.next r := by
    intro r hr hq
    exact linkLast_of_ne hr (h.ne_runqTail hq)
  rw [runqAppend_eq]
  refine ⟨h.runq_queue.append h.runq_nodup (by tauto), ?_, ?_, ?_⟩
  · refine h.parked_queue.congr ?_
    intro r hr
    refine hkeep r (fun heq => ht (.inl (.inr (heq ▸ hr)))) (fun hq => h.runq_parked hq hr)
  · refine h.pool_chain.congr ?_
    intro r hr
    refine hkeep r (fun heq => ht (.inr (heq ▸ hr))) (fun hq => h.runq_pool hq hr)
  · have hperm : (runq ++ [t] ++ parked ++ pool).Perm (t :: (runq ++ parked ++ pool)) := by
      rw [perm_iff_count]
      intro a
      simp only [count_append, count_cons, count_nil]
      omega
    rw [hperm.nodup_iff, nodup_cons]
    exact ⟨by simpa [or_assoc] using ht, h.nodup⟩

/-- `parked_append` puts a task that stands on no list at the end of the parked list. -/
theorem Laid.parkedAppend (h : s.Laid runq parked pool) (ht : t ∉ runq ++ parked ++ pool) :
    (s.parkedAppend t).Laid runq (parked ++ [t]) pool := by
  rw [mem_append, mem_append] at ht
  have hkeep : ∀ r, r ≠ t → r ∉ parked → linkLast s.next s.parkedTail t r = s.next r := by
    intro r hr hq
    exact linkLast_of_ne hr (h.ne_parkedTail hq)
  rw [parkedAppend_eq]
  refine ⟨?_, h.parked_queue.append h.parked_nodup (by tauto), ?_, ?_⟩
  · refine h.runq_queue.congr ?_
    intro r hr
    refine hkeep r (fun heq => ht (.inl (.inl (heq ▸ hr)))) (h.runq_parked hr)
  · refine h.pool_chain.congr ?_
    intro r hr
    refine hkeep r (fun heq => ht (.inr (heq ▸ hr))) (fun hq => h.parked_pool hq hr)
  · have hperm : (runq ++ (parked ++ [t]) ++ pool).Perm (t :: (runq ++ parked ++ pool)) := by
      rw [perm_iff_count]
      intro a
      simp only [count_append, count_cons, count_nil]
      omega
    rw [hperm.nodup_iff, nodup_cons]
    exact ⟨by simpa [or_assoc] using ht, h.nodup⟩

/-- Unlinking a parked task takes it off the parked list and leaves the rest alone. -/
theorem Laid.parkedUnlink (h : s.Laid runq (pre ++ t :: post) pool) :
    (s.parkedUnlink pre.getLast? t (s.next t)).Laid runq (pre ++ post) pool := by
  have hmem : ∀ r, pre.getLast? = some r → r ∈ pre ++ t :: post := by
    intro r hr
    exact mem_append_left _ (mem_of_getLast? hr)
  rw [parkedUnlink_eq]
  refine ⟨?_, h.parked_queue.unlink h.parked_nodup, ?_, ?_⟩
  · refine h.runq_queue.congr ?_
    intro r hr
    exact bypass_of_ne fun heq => h.runq_parked hr (hmem r heq)
  · refine h.pool_chain.congr ?_
    intro r hr
    exact bypass_of_ne fun heq => h.parked_pool (hmem r heq) hr
  · have hsub : (runq ++ (pre ++ post) ++ pool).Sublist (runq ++ (pre ++ t :: post) ++ pool) := by
      refine List.Sublist.append_right ?_ pool
      refine List.Sublist.append_left ?_ runq
      exact List.Sublist.append_left (sublist_cons_self t post) pre
    exact hsub.nodup h.nodup

theorem runqPop_eq (hhead : s.runqHead = some t) :
    s.runqPop = (some t, { s with
      next := Function.update s.next t none
      runqHead := s.next t
      runqTail := if s.next t = none then none else s.runqTail }) := by
  unfold runqPop setNext
  rw [hhead]
  dsimp only
  by_cases hnone : s.next t = none
  · simp only [if_pos hnone]
  · simp only [if_neg hnone]

/-- `runq_pop` takes the first task of the run queue. -/
theorem runqPop_laid (h : s.Laid (t :: runq) parked pool) :
    s.runqPop.1 = some t ∧ s.runqPop.2.Laid runq parked pool := by
  have hhead : s.runqHead = some t := h.runq_queue.head_eq
  have htr : t ∉ runq := (List.nodup_cons.mp h.runq_nodup).1
  rw [runqPop_eq hhead]
  refine ⟨rfl, h.runq_queue.pop htr, ?_, ?_, ?_⟩
  · refine h.parked_queue.congr ?_
    intro r hr
    have hne : r ≠ t := by
      intro heq
      exact h.runq_parked (r := t) mem_cons_self (heq ▸ hr)
    exact Function.update_of_ne hne none s.next
  · refine h.pool_chain.congr ?_
    intro r hr
    have hne : r ≠ t := by
      intro heq
      exact h.runq_pool (r := t) mem_cons_self (heq ▸ hr)
    exact Function.update_of_ne hne none s.next
  · have hnodup := h.nodup
    rw [cons_append, cons_append] at hnodup
    exact (List.nodup_cons.mp hnodup).2

/-- Clearing the pointer of a task on no list changes no list. -/
theorem Laid.setNext (h : s.Laid runq parked pool) (ht : t ∉ runq ++ parked ++ pool)
    (n : Option Nat) : (s.setNext t n).Laid runq parked pool := by
  rw [mem_append, mem_append] at ht
  have hkeep : ∀ r, r ≠ t → Function.update s.next t n r = s.next r :=
    fun r hr => Function.update_of_ne hr n s.next
  refine ⟨?_, ?_, ?_, h.nodup⟩
  · exact h.runq_queue.congr fun r hr => hkeep r fun heq => ht (.inl (.inl (heq ▸ hr)))
  · exact h.parked_queue.congr fun r hr => hkeep r fun heq => ht (.inl (.inr (heq ▸ hr)))
  · exact h.pool_chain.congr fun r hr => hkeep r fun heq => ht (.inr (heq ▸ hr))

/-! ### What an operation leaves alone -/

/-- The books and the identity of every task are the same in both states. -/
structure Keeps (s s' : Sched κ) : Prop where
  reg : s'.reg = s.reg
  nSpawned : s'.nSpawned = s.nSpawned
  nMapped : s'.nMapped = s.nMapped
  nLive : s'.nLive = s.nLive
  nPooled : s'.nPooled = s.nPooled
  enrolled : s'.enrolled = s.enrolled
  finished : s'.finished = s.finished
  id : ∀ r, (s'.task r).id = (s.task r).id
  registered : ∀ r, (s'.task r).registered = (s.task r).registered

theorem Keeps.refl (s : Sched κ) : Keeps s s :=
  ⟨rfl, rfl, rfl, rfl, rfl, rfl, rfl, fun _ => rfl, fun _ => rfl⟩

theorem Keeps.trans {s₁ s₂ s₃ : Sched κ} (h : Keeps s₁ s₂) (h' : Keeps s₂ s₃) : Keeps s₁ s₃ where
  reg := h'.reg.trans h.reg
  nSpawned := h'.nSpawned.trans h.nSpawned
  nMapped := h'.nMapped.trans h.nMapped
  nLive := h'.nLive.trans h.nLive
  nPooled := h'.nPooled.trans h.nPooled
  enrolled := h'.enrolled.trans h.enrolled
  finished := h'.finished.trans h.finished
  id r := (h'.id r).trans (h.id r)
  registered r := (h'.registered r).trans (h.registered r)

@[simp] theorem modify_task_self (s : Sched κ) (t : Nat) (f : LvTask κ → LvTask κ) :
    (s.modify t f).task t = f (s.task t) := Function.update_self t _ s.task

theorem modify_task_of_ne (s : Sched κ) (f : LvTask κ → LvTask κ) (hr : r ≠ t) :
    (s.modify t f).task r = s.task r := Function.update_of_ne hr _ s.task

theorem keeps_modify (s : Sched κ) (t : Nat) {f : LvTask κ → LvTask κ}
    (hid : (f (s.task t)).id = (s.task t).id)
    (hregistered : (f (s.task t)).registered = (s.task t).registered) :
    Keeps s (s.modify t f) := by
  refine ⟨rfl, rfl, rfl, rfl, rfl, rfl, rfl, ?_, ?_⟩
  · intro r
    by_cases hr : r = t
    · subst hr
      rw [modify_task_self, hid]
    · rw [modify_task_of_ne s f hr]
  · intro r
    by_cases hr : r = t
    · subst hr
      rw [modify_task_self, hregistered]
    · rw [modify_task_of_ne s f hr]

@[simp] theorem runqAppend_task (s : Sched κ) (t : Nat) : (s.runqAppend t).task = s.task := by
  rw [runqAppend_eq]

@[simp] theorem runqAppend_current (s : Sched κ) (t : Nat) :
    (s.runqAppend t).current = s.current := by
  rw [runqAppend_eq]

@[simp] theorem runqAppend_nParked (s : Sched κ) (t : Nat) :
    (s.runqAppend t).nParked = s.nParked := by
  rw [runqAppend_eq]

theorem keeps_runqAppend (s : Sched κ) (t : Nat) : Keeps s (s.runqAppend t) := by
  rw [runqAppend_eq]
  exact ⟨rfl, rfl, rfl, rfl, rfl, rfl, rfl, fun _ => rfl, fun _ => rfl⟩

@[simp] theorem parkedAppend_task (s : Sched κ) (t : Nat) : (s.parkedAppend t).task = s.task := by
  rw [parkedAppend_eq]

@[simp] theorem parkedAppend_nParked (s : Sched κ) (t : Nat) :
    (s.parkedAppend t).nParked = s.nParked := by
  rw [parkedAppend_eq]

theorem keeps_parkedAppend (s : Sched κ) (t : Nat) : Keeps s (s.parkedAppend t) := by
  rw [parkedAppend_eq]
  exact ⟨rfl, rfl, rfl, rfl, rfl, rfl, rfl, fun _ => rfl, fun _ => rfl⟩

@[simp] theorem parkedUnlink_task (s : Sched κ) (prev : Option Nat) (t : Nat)
    (after : Option Nat) : (s.parkedUnlink prev t after).task = s.task := by
  rw [parkedUnlink_eq]

@[simp] theorem parkedUnlink_current (s : Sched κ) (prev : Option Nat) (t : Nat)
    (after : Option Nat) : (s.parkedUnlink prev t after).current = s.current := by
  rw [parkedUnlink_eq]

@[simp] theorem parkedUnlink_nParked (s : Sched κ) (prev : Option Nat) (t : Nat)
    (after : Option Nat) : (s.parkedUnlink prev t after).nParked = s.nParked := by
  rw [parkedUnlink_eq]

theorem keeps_parkedUnlink (s : Sched κ) (prev : Option Nat) (t : Nat) (after : Option Nat) :
    Keeps s (s.parkedUnlink prev t after) := by
  rw [parkedUnlink_eq]
  exact ⟨rfl, rfl, rfl, rfl, rfl, rfl, rfl, fun _ => rfl, fun _ => rfl⟩

/-- The fields of a task do not matter to the lists. -/
theorem Laid.modify (h : s.Laid runq parked pool) (t : Nat) (f : LvTask κ → LvTask κ) :
    (s.modify t f).Laid runq parked pool :=
  ⟨h.runq_queue, h.parked_queue, h.pool_chain, h.nodup⟩

/-! ### Waking -/

/-- The task as `wake` leaves it. -/
def woken (k : LvTask κ) (reason : WakeReason) : LvTask κ :=
  { k with wakeReason := reason, state := .runnable }

theorem wake_task_self (s : Sched κ) (t : Nat) (reason : WakeReason) :
    (s.wake t reason).task t = woken (s.task t) reason := by
  unfold wake
  rw [runqAppend_task, modify_task_self]
  rfl

theorem wake_task_of_ne (s : Sched κ) (reason : WakeReason) (hr : r ≠ t) :
    (s.wake t reason).task r = s.task r := by
  unfold wake
  rw [runqAppend_task, modify_task_of_ne s _ hr]

@[simp] theorem wake_current (s : Sched κ) (t : Nat) (reason : WakeReason) :
    (s.wake t reason).current = s.current := by
  unfold wake
  rw [runqAppend_current]
  rfl

@[simp] theorem wake_nParked (s : Sched κ) (t : Nat) (reason : WakeReason) :
    (s.wake t reason).nParked = s.nParked := by
  unfold wake
  rw [runqAppend_nParked]
  rfl

theorem keeps_wake (s : Sched κ) (t : Nat) (reason : WakeReason) :
    Keeps s (s.wake t reason) :=
  (keeps_modify s t rfl rfl).trans (keeps_runqAppend _ t)

theorem Laid.wake (h : s.Laid runq parked pool) (ht : t ∉ runq ++ parked ++ pool)
    (reason : WakeReason) : (s.wake t reason).Laid (runq ++ [t]) parked pool :=
  (h.modify t _).runqAppend ht

/-- An unlinked task stands on no list. -/
theorem Laid.not_mem_of_unlinked (h : s.Laid runq (pre ++ t :: post) pool) :
    t ∉ runq ++ (pre ++ post) ++ pool := by
  have hparked : t ∈ pre ++ t :: post := by simp
  have hnodup := List.nodup_append.mp h.parked_nodup
  rw [mem_append, mem_append, mem_append]
  intro hmem
  rcases hmem with (hmem | hmem | hmem) | hmem
  · exact h.runq_parked hmem hparked
  · exact hnodup.2.2 t hmem t (by simp) rfl
  · exact (List.nodup_cons.mp hnodup.2.1).1 hmem
  · exact h.parked_pool hparked hmem

/-- A task off the parked list goes on the run queue. -/
theorem Laid.unlink_wake (h : s.Laid runq (pre ++ t :: post) pool) (n : Int) (reason : WakeReason) :
    ({ s.parkedUnlink pre.getLast? t (s.next t) with nParked := n }.wake t reason).Laid
      (runq ++ [t]) (pre ++ post) pool := by
  have hu : { s.parkedUnlink pre.getLast? t (s.next t) with nParked := n }.Laid runq
      (pre ++ post) pool := ⟨h.parkedUnlink.1, h.parkedUnlink.2, h.parkedUnlink.3, h.parkedUnlink.4⟩
  exact hu.wake h.not_mem_of_unlinked reason

/-! ### Polling -/

/-- Whether a key of `t` is settled. -/
def settled (s : Sched κ) (poll : κ → Bool) (t : Nat) : Bool := (s.parkKeysSettled poll t).1

/-- `park_keys_settled` notes the index of the settled key and does nothing else. -/
theorem parkKeysSettled_eq (s : Sched κ) (poll : κ → Bool) (t : Nat) :
    s.parkKeysSettled poll t = (s.settled poll t, s) ∨
      ∃ ix, s.parkKeysSettled poll t = (true, s.modify t fun k => { k with wokeIx := ix }) := by
  unfold settled parkKeysSettled
  dsimp only
  split
  · exact .inl rfl
  · split
    · exact .inr ⟨0, rfl⟩
    · split
      · exact .inr ⟨1, rfl⟩
      · exact .inl rfl

theorem parkKeysSettled_of_false {poll : κ → Bool} (h : s.settled poll t = false) :
    s.parkKeysSettled poll t = (false, s) := by
  rcases s.parkKeysSettled_eq poll t with heq | ⟨ix, heq⟩
  · rw [heq, h]
  · unfold settled at h
    rw [heq] at h
    cases h

/-- The answer depends on the task and the registry only. -/
theorem parkKeysSettled_congr {s₁ s₂ : Sched κ} (poll : κ → Bool)
    (htask : s₁.task t = s₂.task t) (hreg : s₁.reg = s₂.reg) :
    (s₁.parkKeysSettled poll t).1 = (s₂.parkKeysSettled poll t).1 ∧
      (s₁.parkKeysSettled poll t).2.task t = (s₂.parkKeysSettled poll t).2.task t := by
  have hfind : ∀ id, s₁.regFind id = s₂.regFind id := by
    intro id
    unfold regFind
    rw [hreg]
  have hdone : ∀ ids, s₁.joinAllDone ids = s₂.joinAllDone ids := by
    intro ids
    unfold joinAllDone
    simp only [hfind]
  unfold parkKeysSettled
  rw [htask]
  dsimp only
  split
  · exact ⟨hdone _, htask⟩
  · split
    · refine ⟨rfl, ?_⟩
      rw [modify_task_self, modify_task_self, htask]
    · split
      · refine ⟨rfl, ?_⟩
        rw [modify_task_self, modify_task_self, htask]
      · exact ⟨rfl, htask⟩

/-- The task as `poll_parked` leaves it when one of its keys is settled. -/
def settledTask (s : Sched κ) (poll : κ → Bool) (t : Nat) : LvTask κ :=
  woken ((s.parkKeysSettled poll t).2.task t) .settled

/-- What a pass over the parked list has done once it stands behind the tasks `rest`. -/
structure Polled (poll : κ → Bool) (s s' : Sched κ) (rest : List Nat) : Prop where
  keeps : Keeps s s'
  current : s'.current = s.current
  nParked : s'.nParked = s.nParked - (rest.filter (s.settled poll)).length
  woke : ∀ r ∈ rest, s.settled poll r = true → s'.task r = s.settledTask poll r
  slept : ∀ r, (r ∈ rest → s.settled poll r = false) → s'.task r = s.task r

/-- One settled task of the pass. -/
theorem polled_one (poll : κ → Bool) (h : s.Laid runq (pre ++ t :: post) pool) :
    let noted := (s.parkKeysSettled poll t).2
    let s₁ := noted.parkedUnlink pre.getLast? t (s.next t)
    let s₂ := { s₁ with nParked := s₁.nParked - 1 }.wake t .settled
    s₂.Laid (runq ++ [t]) (pre ++ post) pool ∧ Keeps s s₂ ∧ s₂.current = s.current ∧
      s₂.nParked = s.nParked - 1 ∧ s₂.task t = s.settledTask poll t ∧
      ∀ r, r ≠ t → s₂.task r = s.task r := by
  -- noting the index of the key only writes that one field
  have hnoted : ∃ f : LvTask κ → LvTask κ, (s.parkKeysSettled poll t).2 = s.modify t f ∧
      (f (s.task t)).id = (s.task t).id ∧ (f (s.task t)).registered = (s.task t).registered := by
    rcases s.parkKeysSettled_eq poll t with heq | ⟨ix, heq⟩
    · refine ⟨id, ?_, rfl, rfl⟩
      rw [heq]
      unfold modify
      rw [id, Function.update_eq_self]
    · exact ⟨_, by rw [heq], rfl, rfl⟩
  obtain ⟨f, hf, hid, hregistered⟩ := hnoted
  intro noted s₁ s₂
  have htask : s₂.task t = s.settledTask poll t := by
    show (Sched.wake _ t _).task t = _
    rw [wake_task_self]
    show woken ((noted.parkedUnlink _ t _).task t) _ = _
    rw [parkedUnlink_task]
    rfl
  refine ⟨?_, ?_, ?_, ?_, htask, ?_⟩
  · have hlaid : noted.Laid runq (pre ++ t :: post) pool := by
      show (s.parkKeysSettled poll t).2.Laid _ _ _
      rw [hf]
      exact h.modify t f
    have hnext : noted.next = s.next := by
      show (s.parkKeysSettled poll t).2.next = s.next
      rw [hf]
      rfl
    have hw := hlaid.unlink_wake (s₁.nParked - 1) .settled
    rw [hnext] at hw
    exact hw
  · have hk : Keeps s noted := by
      show Keeps s (s.parkKeysSettled poll t).2
      rw [hf]
      exact keeps_modify s t hid hregistered
    have hk₁ : Keeps noted { s₁ with nParked := s₁.nParked - 1 } :=
      let hu := keeps_parkedUnlink noted pre.getLast? t (s.next t)
      ⟨hu.reg, hu.nSpawned, hu.nMapped, hu.nLive, hu.nPooled, hu.enrolled, hu.finished, hu.id,
        hu.registered⟩
    exact (hk.trans hk₁).trans (keeps_wake _ t .settled)
  · show (Sched.wake _ t _).current = _
    rw [wake_current]
    show (noted.parkedUnlink _ t _).current = _
    rw [parkedUnlink_current]
    show (s.parkKeysSettled poll t).2.current = _
    rw [hf]
    rfl
  · show (Sched.wake _ t _).nParked = _
    rw [wake_nParked]
    show (noted.parkedUnlink _ t _).nParked - 1 = _
    rw [parkedUnlink_nParked]
    show (s.parkKeysSettled poll t).2.nParked - 1 = _
    rw [hf]
    rfl
  · intro r hr
    show (Sched.wake _ t _).task r = _
    rw [wake_task_of_ne _ _ hr]
    show (noted.parkedUnlink _ t _).task r = _
    rw [parkedUnlink_task]
    show (s.parkKeysSettled poll t).2.task r = _
    rw [hf, modify_task_of_ne s f hr]

/-- **The pass of `poll_parked`** over the tasks `rest`, behind those already `kept`. -/
theorem pollParkedLoop_spec (poll : κ → Bool) :
    ∀ (rest : List Nat) {kept runq : List Nat} {fuel : Nat} {s : Sched κ} (woke : Bool),
      s.Laid runq (kept ++ rest) pool → rest.length < fuel →
      ∃ s', pollParkedLoop poll fuel kept.getLast? rest.head? woke s =
          some (s', woke || rest.any (s.settled poll)) ∧
        s'.Laid (runq ++ rest.filter (s.settled poll))
          (kept ++ rest.filter fun r => !s.settled poll r) pool ∧
        Polled poll s s' rest := by
  intro rest
  induction rest with
  | nil =>
    intro kept runq fuel s woke h hfuel
    obtain ⟨fuel, rfl⟩ := Nat.exists_eq_succ_of_ne_zero (Nat.ne_of_gt hfuel)
    refine ⟨s, ?_, ?_, .refl s, rfl, ?_, ?_, fun _ _ => rfl⟩
    · rw [any_nil, Bool.or_false]
      rfl
    · rw [filter_nil, filter_nil, append_nil]
      exact h
    · simp
    · intro r hr
      cases hr
  | cons t rest ih =>
    intro kept runq fuel s woke h hfuel
    obtain ⟨fuel, rfl⟩ := Nat.exists_eq_succ_of_ne_zero (Nat.ne_of_gt (Nat.zero_lt_of_lt hfuel))
    have hlt : rest.length < fuel := Nat.lt_of_succ_lt_succ hfuel
    have hrest : t ∉ rest := by
      have hnodup := (List.nodup_append.mp h.parked_nodup).2.1
      exact (List.nodup_cons.mp hnodup).1
    have hnext : s.next t = rest.head? := by
      obtain ⟨m, _, _, hseg⟩ := segment_append.mp h.parked_queue.segment
      cases rest with
      | nil => exact hseg
      | cons r rest => exact hseg.1
    rw [head?_cons]
    unfold pollParkedLoop
    dsimp only
    by_cases hsettled : s.settled poll t = true
    · -- the task goes on the run queue, and the pass goes on from its successor
      obtain ⟨hlaid, hkeeps, hcurrent, hnp, htask, hother⟩ := polled_one poll h
      have hfst : (s.parkKeysSettled poll t).1 = true := hsettled
      rw [if_pos hfst, hnext]
      have hsame : ∀ r ∈ rest, ∀ s₂ : Sched κ, s₂.reg = s.reg →
          (∀ r, r ≠ t → s₂.task r = s.task r) →
          s₂.settled poll r = s.settled poll r ∧ s₂.settledTask poll r = s.settledTask poll r := by
        intro r hr s₂ hreg hoth
        have hne : r ≠ t := by
          intro heq
          exact hrest (heq ▸ hr)
        have hc := parkKeysSettled_congr poll (hoth r hne) hreg
        exact ⟨hc.1, congrArg (woken · .settled) hc.2⟩
      rw [hnext] at hlaid hkeeps hcurrent hnp htask hother
      obtain ⟨s', hloop, hlaid', hpolled⟩ := ih true hlaid hlt
      have hset := fun r hr => (hsame r hr _ hkeeps.reg hother).1
      have hfilter := filter_congr hset
      have hfilter' : rest.filter (fun r => !(_ : Sched κ).settled poll r) =
          rest.filter (fun r => !s.settled poll r) :=
        filter_congr fun r hr => congrArg (! ·) (hset r hr)
      refine ⟨s', ?_, ?_, ?_⟩
      · rw [hloop, any_cons, hsettled]
        simp
      · rw [hfilter, hfilter'] at hlaid'
        rw [filter_cons_of_pos hsettled, filter_cons_of_neg (by simp [hsettled])]
        rw [append_assoc] at hlaid'
        exact hlaid'
      · refine ⟨hkeeps.trans hpolled.keeps, hpolled.current.trans hcurrent, ?_, ?_, ?_⟩
        · rw [hpolled.nParked, hnp, hfilter, filter_cons_of_pos hsettled, length_cons]
          push_cast
          omega
        · intro r hr hrs
          rcases List.mem_cons.mp hr with rfl | hmem
          · rw [hpolled.slept r fun hmem => absurd hmem hrest]
            exact htask
          · rw [hpolled.woke r hmem ((hset r hmem).trans hrs)]
            exact (hsame r hmem _ hkeeps.reg hother).2
        · intro r hr
          have hne : r ≠ t := by
            intro heq
            have hfalse := hr (heq ▸ mem_cons_self)
            rw [heq, hsettled] at hfalse
            cases hfalse
          rw [hpolled.slept r fun hmem =>
            (hset r hmem).trans (hr (mem_cons_of_mem t hmem))]
          exact hother r hne
    · -- the task stays, and is the one before the next
      have hfalse : s.settled poll t = false := Bool.eq_false_iff.mpr hsettled
      rw [parkKeysSettled_of_false hfalse]
      dsimp only
      rw [if_neg (by decide), hnext]
      have hlast : (kept ++ [t]).getLast? = some t := by
        rw [getLast?_append_of_ne_nil _ (by simp)]
        rfl
      rw [← hlast]
      have hlaid : s.Laid runq (kept ++ [t] ++ rest) pool := by
        rw [append_assoc]
        exact h
      obtain ⟨s', hloop, hlaid', hpolled⟩ := ih woke hlaid hlt
      refine ⟨s', ?_, ?_, hpolled.keeps, hpolled.current, ?_, ?_, ?_⟩
      · rw [hloop, any_cons, hfalse, Bool.false_or]
      · rw [filter_cons_of_neg hsettled, filter_cons_of_pos (by simp [hfalse])]
        rw [append_assoc] at hlaid'
        exact hlaid'
      · rw [hpolled.nParked, filter_cons_of_neg hsettled]
      · intro r hr hrs
        rcases List.mem_cons.mp hr with rfl | hmem
        · exact absurd hrs hsettled
        · exact hpolled.woke r hmem hrs
      · intro r hr
        exact hpolled.slept r fun hmem => hr (mem_cons_of_mem t hmem)

/-! ### Draining -/

/-- The state with the head and the tail of the parked list replaced. -/
def withParked (s : Sched κ) (head tail : Option Nat) : Sched κ :=
  { s with parkedHead := head, parkedTail := tail }

theorem wake_withParked (s : Sched κ) (head tail : Option Nat) (t : Nat) (reason : WakeReason) :
    (s.withParked head tail).wake t reason = (s.wake t reason).withParked head tail := by
  unfold wake
  rw [runqAppend_eq, runqAppend_eq]
  rfl

/-- What a drain has done to the tasks `rest`. -/
structure Drained (s s' : Sched κ) (rest : List Nat) : Prop where
  keeps : Keeps s s'
  current : s'.current = s.current
  woke : ∀ r ∈ rest, s'.task r = woken (s.task r) .drained
  slept : ∀ r, r ∉ rest → s'.task r = s.task r

/-- **The loop of `drain_wake_all`.**  The parked list is taken apart as the tasks leave
it; its head and tail are reset at the end. -/
theorem drainWakeAllLoop_spec :
    ∀ (rest : List Nat) {runq : List Nat} {fuel : Nat} {s : Sched κ},
      (s.withParked rest.head? rest.getLast?).Laid runq rest pool → rest.length < fuel →
      ∃ s', drainWakeAllLoop fuel rest.head? s = some s' ∧
        (s'.withParked none none).Laid (runq ++ rest) [] pool ∧ Drained s s' rest := by
  intro rest
  induction rest with
  | nil =>
    intro runq fuel s h hfuel
    obtain ⟨fuel, rfl⟩ := Nat.exists_eq_succ_of_ne_zero (Nat.ne_of_gt hfuel)
    refine ⟨s, rfl, ?_, .refl s, rfl, ?_, fun _ _ => rfl⟩
    · rw [append_nil]
      exact h
    · intro r hr
      cases hr
  | cons t rest ih =>
    intro runq fuel s h hfuel
    obtain ⟨fuel, rfl⟩ := Nat.exists_eq_succ_of_ne_zero (Nat.ne_of_gt (Nat.zero_lt_of_lt hfuel))
    have hlt : rest.length < fuel := Nat.lt_of_succ_lt_succ hfuel
    have hrest : t ∉ rest := (List.nodup_cons.mp h.parked_nodup).1
    have hnext : s.next t = rest.head? := by
      have hseg : Segment s.next (s.next t) rest none := h.parked_queue.segment.2
      cases rest with
      | nil => exact hseg
      | cons r rest => exact hseg.1
    rw [head?_cons]
    unfold drainWakeAllLoop
    dsimp only
    rw [hnext]
    have hlaid : ((s.wake t .drained).withParked rest.head? rest.getLast?).Laid (runq ++ [t]) rest
        pool := by
      rw [← wake_withParked]
      have hfirst : (s.withParked (t :: rest).head? (t :: rest).getLast?).Laid runq
          ([] ++ t :: rest) pool := h
      have hpop : (s.withParked rest.head? rest.getLast?).Laid runq rest pool := by
        refine ⟨h.runq_queue, ?_, h.pool_chain, hfirst.parkedUnlink.nodup⟩
        have hseg : Segment s.next (s.next t) rest none := h.parked_queue.segment.2
        rw [hnext] at hseg
        exact ⟨hseg, rfl⟩
      exact hpop.wake hfirst.not_mem_of_unlinked .drained
    obtain ⟨s', hloop, hlaid', hdrained⟩ := ih hlaid hlt
    refine ⟨s', hloop, ?_, (keeps_wake s t .drained).trans hdrained.keeps, ?_, ?_, ?_⟩
    · rw [append_assoc] at hlaid'
      exact hlaid'
    · rw [hdrained.current, wake_current]
    · intro r hr
      rcases List.mem_cons.mp hr with rfl | hmem
      · rw [hdrained.slept r hrest, wake_task_self]
      · have hne : r ≠ t := by
          intro heq
          exact hrest (heq ▸ hmem)
        rw [hdrained.woke r hmem, wake_task_of_ne s _ hne]
    · intro r hr
      have hne : r ≠ t := by
        intro heq
        exact hr (heq ▸ mem_cons_self)
      rw [hdrained.slept r fun hmem => hr (mem_cons_of_mem t hmem), wake_task_of_ne s _ hne]

/-! ### Removing one parked task -/

/-- The state after `parked_remove` has found its task. -/
def removed (s : Sched κ) (prev : Option Nat) (t : Nat) : Sched κ :=
  let s := (s.parkedUnlink prev t (s.next t)).setNext t none
  { s with nParked := s.nParked - 1 }

/-- The walk of `parked_remove` over the tasks `before` the one it looks for. -/
theorem parkedRemoveLoop_spec :
    ∀ (before : List Nat) (seen : List Nat) {after : List Nat} {fuel : Nat} {it : Option Nat},
      Segment s.next it (before ++ t :: after) none → t ∉ before → before.length < fuel →
      s.parkedRemoveLoop t fuel seen.getLast? it =
        some (s.removed (seen ++ before).getLast? t, true) := by
  intro before
  induction before with
  | nil =>
    intro seen after fuel it hseg _ hfuel
    obtain ⟨fuel, rfl⟩ := Nat.exists_eq_succ_of_ne_zero (Nat.ne_of_gt hfuel)
    obtain ⟨rfl, _⟩ := hseg
    unfold parkedRemoveLoop
    dsimp only
    rw [if_neg (by simp), append_nil]
    rfl
  | cons r before ih =>
    intro seen after fuel it hseg ht hfuel
    obtain ⟨fuel, rfl⟩ := Nat.exists_eq_succ_of_ne_zero (Nat.ne_of_gt (Nat.zero_lt_of_lt hfuel))
    obtain ⟨rfl, hseg⟩ := hseg
    have hne : r ≠ t := by
      intro heq
      exact ht (heq ▸ mem_cons_self)
    unfold parkedRemoveLoop
    dsimp only
    rw [if_pos hne]
    have hlast : (seen ++ [r]).getLast? = some r := by
      rw [getLast?_append_of_ne_nil _ (by simp)]
      rfl
    rw [← hlast, ih (seen ++ [r]) hseg (fun hmem => ht (mem_cons_of_mem r hmem))
      (Nat.lt_of_succ_lt_succ hfuel), append_assoc]
    rfl

/-- `parked_remove` finds a parked task and takes it off the list. -/
theorem Laid.parkedRemove (h : s.Laid runq (pre ++ t :: post) pool)
    (hfuel : pre.length ≤ s.nMapped) :
    s.parkedRemove t = some (s.removed pre.getLast? t, true) := by
  have htpre : t ∉ pre := by
    intro hmem
    exact (List.nodup_append.mp h.parked_nodup).2.2 t hmem t (by simp) rfl
  exact parkedRemoveLoop_spec pre [] h.parked_queue.segment htpre (Nat.lt_succ_of_le hfuel)

/-- The removed task can be woken. -/
theorem Laid.removed_wake (h : s.Laid runq (pre ++ t :: post) pool) (reason : WakeReason) :
    ((s.removed pre.getLast? t).wake t reason).Laid (runq ++ [t]) (pre ++ post) pool := by
  have hout := h.not_mem_of_unlinked
  have hset := h.parkedUnlink.setNext hout none
  have hremoved : (s.removed pre.getLast? t).Laid runq (pre ++ post) pool :=
    ⟨hset.runq_queue, hset.parked_queue, hset.pool_chain, hset.nodup⟩
  exact hremoved.wake hout reason

@[simp] theorem removed_task (s : Sched κ) (prev : Option Nat) (t : Nat) :
    (s.removed prev t).task = s.task := by
  show (s.parkedUnlink prev t (s.next t)).task = s.task
  rw [parkedUnlink_task]

@[simp] theorem removed_current (s : Sched κ) (prev : Option Nat) (t : Nat) :
    (s.removed prev t).current = s.current := by
  show (s.parkedUnlink prev t (s.next t)).current = s.current
  rw [parkedUnlink_current]

@[simp] theorem removed_nParked (s : Sched κ) (prev : Option Nat) (t : Nat) :
    (s.removed prev t).nParked = s.nParked - 1 := by
  show (s.parkedUnlink prev t (s.next t)).nParked - 1 = s.nParked - 1
  rw [parkedUnlink_nParked]

theorem keeps_removed (s : Sched κ) (prev : Option Nat) (t : Nat) :
    Keeps s (s.removed prev t) :=
  let hu := keeps_parkedUnlink s prev t (s.next t)
  ⟨hu.reg, hu.nSpawned, hu.nMapped, hu.nLive, hu.nPooled, hu.enrolled, hu.finished, hu.id,
    hu.registered⟩

end Sched

end Leviathan.Runtime
