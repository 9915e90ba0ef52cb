import Leviathan.Lib.LinkedQueue
import Leviathan.Lib.Runs

/-!
# The task scheduler of one thread

Tasks run one at a time on their own stacks.  The scheduler keeps three lists linked
through one pointer of each task: the run queue, the tasks parked until something is
settled, and the pool of stacks to use again.  A registry maps the ids of group children
to their tasks.

Task structures are named by numbers in the order they are allocated, and their `next`
fields are the map `Sched.next`.  What a task does between two calls of the scheduler is
not modelled; where a switch into it resumes is its `Frame`.  The `poll` hook reads
promises, which live outside the scheduler, so each call that polls takes the answers as
an argument.  The assertions that a throw is not pending and that a shield does not
underflow are left out: a build without them reaches every state that one with them does.

The loops over the parked list take a fuel, one more than the number of task structures;
`Invariant` implies that this is enough (`Runtime.TaskInvariant`).
-/

namespace Leviathan.Runtime

/-- `LV_TASK_*`: where a task stands. -/
inductive TaskState
  | runnable
  | running
  | parked
  | done
  | pooled
  deriving DecidableEq, Repr

/-- `LV_PARK_*`: what a park returns. -/
inductive WakeReason
  | settled
  | drained
  | cancelled
  deriving DecidableEq, Repr

/-- Where the saved stack of a task resumes: in the trampoline, in `lv_task_yield`, or in a
park, which for `lv_task_park_any2` also passes on the index of the settled key. -/
inductive Frame
  | start
  | yielding
  | parking
  | parkingAny2
  deriving DecidableEq, Repr

/-- `lv_task`, with the fields that scheduling reads. -/
structure LvTask (κ : Type) where
  parkedOn : Option κ
  parkedOn2 : Option κ
  joinIds : Option (List Nat)
  state : TaskState
  wakeReason : WakeReason
  wokeIx : Nat
  cancelled : Bool
  shield : Nat
  registered : Bool
  id : Nat
  frame : Frame
  deriving DecidableEq, Repr

/-- `lv_sched`.  The last two fields record the ids that `lv_task_spawn_registered` has
returned and those of the tasks whose function has returned. -/
structure Sched (κ : Type) where
  task : Nat → LvTask κ
  next : Nat → Option Nat
  current : Option Nat
  runqHead : Option Nat
  runqTail : Option Nat
  parkedHead : Option Nat
  parkedTail : Option Nat
  pool : Option Nat
  mainTask : Option Nat
  mainDone : Bool
  reg : List (Nat × Nat)
  nSpawned : Nat
  nMapped : Nat
  nCompleted : Int
  nLive : Int
  nParked : Int
  nPooled : Int
  enrolled : List Nat
  finished : List Nat

variable {κ : Type}

/-- The fields of a task just spawned. -/
def LvTask.fresh (id : Nat) : LvTask κ where
  parkedOn := none
  parkedOn2 := none
  joinIds := none
  state := .runnable
  wakeReason := .settled
  wokeIx := 0
  cancelled := false
  shield := 0
  registered := false
  id := id
  frame := .start

/-- The scheduler of a thread before any task. -/
def Sched.init : Sched κ where
  task := fun _ => LvTask.fresh 0
  next := fun _ => none
  current := none
  runqHead := none
  runqTail := none
  parkedHead := none
  parkedTail := none
  pool := none
  mainTask := none
  mainDone := false
  reg := []
  nSpawned := 0
  nMapped := 0
  nCompleted := 0
  nLive := 0
  nParked := 0
  nPooled := 0
  enrolled := []
  finished := []

namespace Sched

/-- Write the `next` field of a task. -/
def setNext (s : Sched κ) (t : Nat) (n : Option Nat) : Sched κ :=
  { s with next := Function.update s.next t n }

/-- Write the other fields of a task. -/
def modify (s : Sched κ) (t : Nat) (f : LvTask κ → LvTask κ) : Sched κ :=
  { s with task := Function.update s.task t (f (s.task t)) }

/-! ### The queues -/

/-- `runq_append`. -/
def runqAppend (s : Sched κ) (t : Nat) : Sched κ :=
  let s := s.setNext t none
  match s.runqTail with
  | some z => { s.setNext z (some t) with runqTail := some t }
  | none => { s with runqHead := some t, runqTail := some t }

/-- `runq_pop`. -/
def runqPop (s : Sched κ) : Option Nat × Sched κ :=
  match s.runqHead with
  | none => (none, s)
  | some t =>
    let s := { s with runqHead := s.next t }
    let s := if s.runqHead = none then { s with runqTail := none } else s
    (some t, s.setNext t none)

/-- `parked_append`. -/
def parkedAppend (s : Sched κ) (t : Nat) : Sched κ :=
  let s := s.setNext t none
  match s.parkedTail with
  | some z => { s.setNext z (some t) with parkedTail := some t }
  | none => { s with parkedHead := some t, parkedTail := some t }

/-- Take `t`, behind `prev`, off the parked list; what `parked_remove` and `poll_parked`
both do. -/
def parkedUnlink (s : Sched κ) (prev : Option Nat) (t : Nat) (after : Option Nat) : Sched κ :=
  let s :=
    match prev with
    | some p => s.setNext p after
    | none => { s with parkedHead := after }
  if s.parkedTail = some t then { s with parkedTail := prev } else s

/-- The loop of `parked_remove`. -/
def parkedRemoveLoop (s : Sched κ) (t : Nat) : Nat → Option Nat → Option Nat → Option (Sched κ × Bool)
  | 0, _, _ => none
  | fuel + 1, prev, it =>
    match it with
    | none => some (s, false)
    | some i =>
      if i ≠ t then parkedRemoveLoop s t fuel (some i) (s.next i)
      else
        let s := (s.parkedUnlink prev i (s.next i)).setNext i none
        some ({ s with nParked := s.nParked - 1 }, true)

/-- `parked_remove`. -/
def parkedRemove (s : Sched κ) (t : Nat) : Option (Sched κ × Bool) :=
  s.parkedRemoveLoop t (s.nMapped + 1) none s.parkedHead

/-! ### The registry -/

/-- `reg_add`. -/
def regAdd (s : Sched κ) (t : Nat) : Sched κ :=
  { s with reg := s.reg ++ [((s.task t).id, t)] }.modify t fun k => { k with registered := true }

/-- `reg_find`. -/
def regFind (s : Sched κ) (id : Nat) : Option Nat :=
  (s.reg.find? fun e => e.1 = id).map Prod.snd

/-- The array after its entry `i` has been overwritten by the last one and the last one
dropped. -/
def swapPop {α : Type} (l : List α) (i : Nat) : List α :=
  match l.getLast? with
  | some z => (l.set i z).dropLast
  | none => l

/-- `reg_remove`. -/
def regRemove (s : Sched κ) (t : Nat) : Sched κ :=
  let reg :=
    match s.reg.findIdx? fun e => e.2 = t with
    | some i => swapPop s.reg i
    | none => s.reg
  { s with reg := reg }.modify t fun k => { k with registered := false }

/-! ### Spawning, running and finishing -/

/-- The task structure `lv_task_spawn` takes: the first of the pool, else a new one
(`task_new`). -/
def takeStack (s : Sched κ) : Nat × Sched κ :=
  match s.pool with
  | some t => (t, { s with pool := s.next t, nPooled := s.nPooled - 1 })
  | none => (s.nMapped, { s with nMapped := s.nMapped + 1 })

/-- The fields `lv_task_spawn` writes, with the next id. -/
def seed (s : Sched κ) (t : Nat) : Sched κ :=
  { s.setNext t none with nSpawned := s.nSpawned + 1 }.modify t fun _ =>
    LvTask.fresh (s.nSpawned + 1)

/-- `lv_task_spawn`. -/
def taskSpawn (s : Sched κ) : Sched κ :=
  let t := s.takeStack.1
  let s := (s.takeStack.2.seed t).runqAppend t
  { s with nLive := s.nLive + 1 }

/-- `lv_task_spawn_registered`. -/
def taskSpawnRegistered (s : Sched κ) : Sched κ :=
  let s := s.taskSpawn
  match s.runqTail with
  | some t => { s.regAdd t with enrolled := s.enrolled ++ [(s.task t).id] }
  | none => s

/-- The beginning of `lv_sched_run`: task 0 is spawned and remembered. -/
def schedRun (s : Sched κ) : Sched κ :=
  let s := s.taskSpawn
  { s with mainTask := s.runqTail, mainDone := false }

/-- `pool_return`. -/
def poolReturn (s : Sched κ) (t : Nat) : Sched κ :=
  let s := s.modify t fun k => { k with state := .pooled }
  { s.setNext t s.pool with pool := some t, nPooled := s.nPooled + 1 }

/-- The end of `lv_task_trampoline`, once the task's function has returned, and of
`switch_to` behind it. -/
def taskReturns (s : Sched κ) (t : Nat) : Sched κ :=
  let s := if s.mainTask = some t then { s with mainDone := true, mainTask := none } else s
  let s := if (s.task t).registered then s.regRemove t else s
  let s := s.modify t fun k => { k with state := .done }
  let s := { s with
    nCompleted := s.nCompleted + 1
    nLive := s.nLive - 1
    finished := s.finished ++ [(s.task t).id]
    current := none }
  s.poolReturn t

/-- `lv_task_yield`, up to the scheduler's context. -/
def taskYield (s : Sched κ) (t : Nat) : Sched κ :=
  let s := s.modify t fun k => { k with state := .runnable, frame := .yielding }
  { s.runqAppend t with current := none }

/-! ### Parking -/

/-- `join_all_done`: an unknown id counts as done. -/
def joinAllDone (s : Sched κ) (ids : List Nat) : Bool :=
  ids.all fun id => (s.regFind id).isNone

/-- `park_keys_settled`: whether a key of `t` is settled, and the task with the index of
that key noted. -/
def parkKeysSettled (s : Sched κ) (poll : κ → Bool) (t : Nat) : Bool × Sched κ :=
  let k := s.task t
  match k.joinIds with
  | some ids => (s.joinAllDone ids, s)
  | none =>
    if k.parkedOn.any poll then (true, s.modify t fun k => { k with wokeIx := 0 })
    else if k.parkedOn2.any poll then (true, s.modify t fun k => { k with wokeIx := 1 })
    else (false, s)

end Sched

/-- `park_keys_clear`. -/
def LvTask.parkKeysClear (k : LvTask κ) : LvTask κ :=
  { k with parkedOn := none, parkedOn2 := none, joinIds := none }

namespace Sched

/-- `park_common`: a pending mark that no shield masks is delivered at once; otherwise the
task goes on the parked list and leaves for the scheduler. -/
def parkCommon (s : Sched κ) (t : Nat) (frame : Frame) : Sched κ × Option WakeReason :=
  let k := s.task t
  if k.cancelled = true ∧ k.shield = 0 then
    (s.modify t fun k => { k.parkKeysClear with cancelled := false }, some .cancelled)
  else
    let s := s.modify t fun k =>
      { k with wakeReason := .settled, wokeIx := 0, state := .parked, frame := frame }
    let s := s.parkedAppend t
    ({ s with nParked := s.nParked + 1, current := none }, none)

/-- `lv_task_park_on`. -/
def taskParkOn (s : Sched κ) (t : Nat) (key : κ) : Sched κ × Option WakeReason :=
  (s.modify t fun k => { k with parkedOn := some key }).parkCommon t .parking

/-- `lv_task_park_any2`. -/
def taskParkAny2 (s : Sched κ) (t : Nat) (a b : κ) : Sched κ × Option WakeReason :=
  (s.modify t fun k => { k with parkedOn := some a, parkedOn2 := some b }).parkCommon t
    .parkingAny2

/-- `lv_task_park_join`: with nothing to wait for it returns without parking. -/
def taskParkJoin (s : Sched κ) (t : Nat) (ids : List Nat) : Sched κ × Option WakeReason :=
  if ids.length = 0 ∨ s.joinAllDone ids = true then (s, some .settled)
  else (s.modify t fun k => { k with joinIds := some ids }).parkCommon t .parking

/-- The beginning of `switch_to`. -/
def enter (s : Sched κ) (t : Nat) : Sched κ :=
  { s.modify t fun k => { k with state := .running } with current := some t }

/-- The end of `park_common`, once the task is resumed: a mark is consumed where it is
delivered. -/
def parkReturns (s : Sched κ) (t : Nat) : Sched κ :=
  s.modify t fun k =>
    { k.parkKeysClear with cancelled := k.cancelled && k.wakeReason ≠ WakeReason.cancelled }

/-- `switch_to`, up to the task's own code: a task that was parked returns from its park,
with the reason and, for `lv_task_park_any2`, the index of the settled key. -/
def switchTo (s : Sched κ) (t : Nat) : Sched κ × Option (WakeReason × Option Nat) :=
  let s := s.enter t
  let k := s.task t
  match k.frame with
  | .start => (s, none)
  | .yielding => (s, none)
  | .parking => (s.parkReturns t, some (k.wakeReason, none))
  | .parkingAny2 =>
    (s.parkReturns t,
      some (k.wakeReason, if k.wakeReason = .settled then some k.wokeIx else none))

/-- Put a parked task that has just been unlinked on the run queue. -/
def wake (s : Sched κ) (t : Nat) (reason : WakeReason) : Sched κ :=
  (s.modify t fun k => { k with wakeReason := reason, state := .runnable }).runqAppend t

/-- The loop of `poll_parked`. -/
def pollParkedLoop (poll : κ → Bool) :
    Nat → Option Nat → Option Nat → Bool → Sched κ → Option (Sched κ × Bool)
  | 0, _, _, _, _ => none
  | fuel + 1, prev, t, woke, s =>
    match t with
    | none => some (s, woke)
    | some i =>
      let next := s.next i
      let (settled, s) := s.parkKeysSettled poll i
      if settled then
        let s := s.parkedUnlink prev i next
        let s := { s with nParked := s.nParked - 1 }
        pollParkedLoop poll fuel prev next true (s.wake i .settled)
      else pollParkedLoop poll fuel (some i) next woke s

/-- `poll_parked`: whether it woke a task. -/
def pollParked (s : Sched κ) (poll : κ → Bool) : Option (Sched κ × Bool) :=
  pollParkedLoop poll (s.nMapped + 1) none s.parkedHead false s

/-- The loop of `drain_wake_all`. -/
def drainWakeAllLoop : Nat → Option Nat → Sched κ → Option (Sched κ)
  | 0, _, _ => none
  | fuel + 1, t, s =>
    match t with
    | none => some s
    | some i => drainWakeAllLoop fuel (s.next i) (s.wake i .drained)

/-- `drain_wake_all`. -/
def drainWakeAll (s : Sched κ) : Option (Sched κ) :=
  (drainWakeAllLoop (s.nMapped + 1) s.parkedHead s).map fun s =>
    { s with parkedHead := none, parkedTail := none, nParked := 0 }

/-! ### Cancelling -/

/-- `lv_task_cancel`, which returns 1 if a live task carries the mark afterwards. -/
def taskCancel (s : Sched κ) (poll : κ → Bool) (id : Nat) : Option (Sched κ × Nat) :=
  match s.regFind id with
  | none => some (s, 0)
  | some t =>
    if (s.task t).cancelled then some (s, 1)
    else
      let s := s.modify t fun k => { k with cancelled := true }
      if (s.task t).state = .parked ∧ (s.task t).shield = 0 then
        let (settled, s) := s.parkKeysSettled poll t
        if settled then some (s, 1)
        else
          match s.parkedRemove t with
          | none => none
          | some (s, true) => some (s.wake t .cancelled, 1)
          | some (s, false) => some (s, 1)
      else some (s, 1)

/-- `lv_task_shield`: the counter has 16 bits. -/
def taskShield (s : Sched κ) (delta : Int) : Sched κ :=
  match s.current with
  | none => s
  | some t => s.modify t fun k => { k with shield := ((k.shield + delta) % 65536).toNat }

/-- One loop batch: each user callback that fires is spawned as a task. -/
def loopBatch (s : Sched κ) : Nat → Sched κ
  | 0 => s
  | n + 1 => s.taskSpawn.loopBatch n

end Sched

/-! ### Steps -/

/-- The entries of the scheduler. -/
inductive Op (κ : Type)
  | schedRun
  | spawn
  | spawnRegistered
  | dispatch
  | yield
  | parkOn (key : κ)
  | parkAny2 (a b : κ)
  | parkJoin (ids : List Nat)
  | cancel (id : Nat) (poll : κ → Bool)
  | shield (delta : Int)
  | returns
  | poll (poll : κ → Bool)
  | loop (callbacks : Nat)
  | drain

namespace Sched

/-- What only the running task can do. -/
def asTask (s : Sched κ) (f : Nat → Sched κ) : Option (Sched κ) := s.current.map f

/-- What only the scheduler's own context can do. -/
def asScheduler (s : Sched κ) (after : Option (Sched κ)) : Option (Sched κ) :=
  if s.current = none then after else none

/-- One entry of the scheduler.  Spawning, cancelling and shielding work in both contexts;
yielding and parking assert that a task is running. -/
def step (s : Sched κ) : Op κ → Option (Sched κ)
  | .schedRun => s.asScheduler (some s.schedRun)
  | .spawn => some s.taskSpawn
  | .spawnRegistered => some s.taskSpawnRegistered
  | .dispatch =>
    s.asScheduler
      (match s.runqPop with
      | (some t, s) => some (s.switchTo t).1
      | (none, _) => none)
  | .yield => s.asTask s.taskYield
  | .parkOn key => s.asTask fun t => (s.taskParkOn t key).1
  | .parkAny2 a b => s.asTask fun t => (s.taskParkAny2 t a b).1
  | .parkJoin ids => s.asTask fun t => (s.taskParkJoin t ids).1
  | .cancel id poll => (s.taskCancel poll id).map Prod.fst
  | .shield delta => some (s.taskShield delta)
  | .returns => s.asTask s.taskReturns
  | .poll poll => s.asScheduler ((s.pollParked poll).map Prod.fst)
  | .loop callbacks => s.asScheduler (some (s.loopBatch callbacks))
  | .drain => s.asScheduler s.drainWakeAll

end Sched

end Leviathan.Runtime
