import Leviathan.Lib.Runs
import Leviathan.Net.Chunked

/-!
# The sink of a streaming response

`ChunkedSink` of the prelude.  Any number of tasks call `write`, `end` and `abort`; a call
that wants to send waits for its turn, sends one frame, waits for the connection to drain
it, and hands the turn on.

A call is a number, in the order of the calls, and every call that asks for a turn has one
promise, which goes by the number of the call.  The code of a call runs from one `await` to
the next without interruption: `write` and `end` run up to the wait for the turn, `resume`
from there to the wait for the flush, and `flushed` from there to the end.  What the flush
of the connection yields is an input.  A resolved promise resumes its waiter later, in
any order.
-/

namespace Leviathan.Net

open List

/-- The fields of `ChunkedSink`; a hook is a number. -/
structure ChunkedSink where
  endedFlag : Bool := false
  aborted : Bool := false
  userClose : Option Nat := none
  onDone : Option Nat := none
  turnQ : List Nat := []
  busy : Bool := false

def ChunkedSink.isClosed (s : ChunkedSink) : Bool := s.endedFlag || s.aborted

/-- Where a call of `write` or `end` stands. -/
inductive Stage where
  | absent
  /-- at the wait for the turn, with what the promise was resolved with -/
  | parked (turn : Option Bool)
  /-- at the wait for the flush -/
  | flushing
  | returned
  deriving DecidableEq

/-- A hook that was run. -/
inductive Hook where
  | done (cb : Nat)
  | close (cb : Nat)
  deriving DecidableEq

/-- A sink with the calls on it and its history: the calls that asked for a turn, the frames
that were handed to the connection, the calls whose flush yielded true, and the hooks that
were run. -/
structure SinkState where
  sink : ChunkedSink := {}
  count : Nat := 0
  /-- what a call writes; none for `end` -/
  payload : Nat → Option Str := fun _ => none
  stage : Nat → Stage := fun _ => .absent
  requested : List Nat := []
  sent : List (Nat × Str) := []
  drained : List Nat := []
  hooks : Nat := 0
  fired : List Hook := []

namespace SinkState

def setStage (w : SinkState) (c : Nat) (stage : Stage) : SinkState :=
  { w with stage := Function.update w.stage c stage }

/-- `p.resolve(turn)`. -/
def resolve (w : SinkState) (c : Nat) (turn : Bool) : SinkState :=
  w.setStage c (.parked (some turn))

/-- `acquire`, with the wait for its promise. -/
def acquire (w : SinkState) (c : Nat) : SinkState :=
  let w := { w with requested := w.requested ++ [c] }
  if w.sink.busy then
    { w with sink := { w.sink with turnQ := w.sink.turnQ ++ [c] } }.setStage c (.parked none)
  else { w with sink := { w.sink with busy := true } }.setStage c (.parked (some true))

/-- `release`. -/
def release (w : SinkState) : SinkState :=
  match w.sink.turnQ with
  | nx :: rest => { w with sink := { w.sink with turnQ := rest } }.resolve nx true
  | [] => { w with sink := { w.sink with busy := false } }

/-- `detach`. -/
def detach (w : SinkState) : SinkState :=
  let q := w.sink.turnQ
  q.foldl (fun w p => w.resolve p false)
    { w with sink := { w.sink with onDone := none, userClose := none, turnQ := [] } }

def fire (w : SinkState) : Option Hook → SinkState
  | some hook => { w with fired := w.fired ++ [hook] }
  | none => w

/-- `abort`, with the user hook that it runs. -/
def abort (w : SinkState) : Option Hook × SinkState :=
  if w.sink.aborted || w.sink.endedFlag then (none, w)
  else
    let uc := w.sink.userClose.map Hook.close
    (uc, ({ w with sink := { w.sink with aborted := true } }.detach).fire uc)

/-- A new call. -/
def newCall (w : SinkState) (payload : Option Str) : SinkState :=
  { w with
    count := w.count + 1
    payload := Function.update w.payload w.count payload }

/-- `write`, up to the wait for the turn. -/
def write (w : SinkState) (data : Str) : SinkState :=
  if w.sink.isClosed then (w.newCall (some data)).setStage w.count .returned
  else if data.length = 0 then (w.newCall (some data)).setStage w.count .returned
  else (w.newCall (some data)).acquire w.count

/-- `end`, up to the wait for the turn. -/
def «end» (w : SinkState) : SinkState :=
  if w.sink.isClosed then (w.newCall none).setStage w.count .returned
  else (w.newCall none).acquire w.count

/-- What a call sends. -/
def frame (w : SinkState) (c : Nat) : Str :=
  match w.payload c with
  | some data => chunkEncode data
  | none => chunkEnd

/-- From the turn to the wait for the flush, with the frame that is sent. -/
def resume (w : SinkState) (c : Nat) : Option Str × SinkState :=
  if w.sink.isClosed then (none, w.release.setStage c .returned)
  else
    (some (w.frame c), { w with sent := w.sent ++ [(c, w.frame c)] }.setStage c .flushing)

/-- The rest of `write` after the flush. -/
def finishWrite (w : SinkState) (c : Nat) (ok : Bool) : Option Hook × SinkState :=
  let w := w.release.setStage c .returned
  if ok then (none, w) else w.abort

/-- The rest of `end` after the flush. -/
def finishEnd (w : SinkState) (c : Nat) (ok : Bool) : Option Hook × SinkState :=
  let w := w.release.setStage c .returned
  if ok then
    let w := { w with sink := { w.sink with endedFlag := true } }
    let cb := w.sink.onDone.map Hook.done
    (cb, w.detach.fire cb)
  else w.abort

/-- From the flush to the end of the call, with the hook that is run. -/
def flushed (w : SinkState) (c : Nat) (ok : Bool) : Option Hook × SinkState :=
  let w := if ok then { w with drained := w.drained ++ [c] } else w
  match w.payload c with
  | some _ => w.finishWrite c ok
  | none => w.finishEnd c ok

/-- `onClose`: a hook that comes after the abort is run at once. -/
def onClose (w : SinkState) : SinkState :=
  let w' := { w with hooks := w.hooks + 1 }
  if w.sink.aborted then w'.fire (some (.close w.hooks))
  else { w' with sink := { w.sink with userClose := some w.hooks } }

/-- `setDone`. -/
def setDone (w : SinkState) : SinkState :=
  { w with hooks := w.hooks + 1, sink := { w.sink with onDone := some w.hooks } }

/-- What can happen to a sink. -/
inductive Event where
  | write (data : Str)
  | end
  | abort
  | onClose
  | setDone
  | resume (c : Nat)
  | flushed (c : Nat) (ok : Bool)

/-- One event; a call goes on only where it waits for what has come. -/
def step (w : SinkState) : Event → Option SinkState
  | .write data => some (w.write data)
  | .end => some w.end
  | .abort => some w.abort.2
  | .onClose => some w.onClose
  | .setDone => some w.setDone
  | .resume c =>
    match w.stage c with
    | .parked (some _) => some (w.resume c).2
    | _ => none
  | .flushed c ok =>
    match w.stage c with
    | .flushing => some (w.flushed c ok).2
    | _ => none

/-! ## The invariant -/

/-- The history: turns are asked for in the order of the calls, the frames are those of the
first calls that asked, each its own, and nothing follows a terminator. -/
structure Log (w : SinkState) : Prop where
  fresh : ∀ c, w.count ≤ c → w.stage c = .absent
  asked : w.requested.Pairwise (· < ·) ∧ ∀ c ∈ w.requested, c < w.count
  worded : ∀ c ∈ w.requested, w.payload c ≠ some []
  frames : ∀ e ∈ w.sent, e.2 = w.frame e.1
  inOrder : w.sent.map Prod.fst <+: w.requested
  terminator : ∀ l c s r, w.sent = l ++ (c, s) :: r → w.payload c = none → r = []
  flushing : ∀ c, w.stage c = .flushing → ∃ l, w.sent = l ++ [(c, w.frame c)]
  drained : ∀ c ∈ w.drained, w.stage c = .returned ∧ c ∈ w.sent.map Prod.fst
  ended : w.sink.endedFlag = true → ∃ c l, w.payload c = none ∧ c ∈ w.drained ∧
    w.sent = l ++ [(c, chunkEnd)]

/-- The turn of a sink that is not closed: `g` has been given the turn and not gone on,
or `f` waits for its flush, and all others that asked and have not sent are in the queue. -/
structure Turns (w : SinkState) (g f : Option Nat) : Prop where
  busy : w.sink.busy = (g.isSome || f.isSome)
  one : g = none ∨ f = none
  idle : g = none → f = none → w.sink.turnQ = []
  requested : w.requested = w.sent.map Prod.fst ++ (g.toList ++ w.sink.turnQ)
  queued : ∀ c, w.stage c = .parked none ↔ c ∈ w.sink.turnQ
  granted : ∀ c b, w.stage c = .parked (some b) ↔ b = true ∧ g = some c
  flushing : ∀ c, w.stage c = .flushing ↔ f = some c
  terminators : ∀ e ∈ w.sent, w.payload e.1 = none → f = some e.1

/-- The hooks: each is run at most once, a close hook only after an abort and the completion
hook only after the end. -/
structure Hooked (w : SinkState) : Prop where
  nodup : w.fired.Nodup
  known : ∀ cb, Hook.close cb ∈ w.fired ∨ Hook.done cb ∈ w.fired → cb < w.hooks
  close : ∀ cb, Hook.close cb ∈ w.fired → w.sink.aborted = true
  done : ∀ cb, Hook.done cb ∈ w.fired → w.sink.endedFlag = true
  once : ∀ cb cb', Hook.done cb ∈ w.fired → Hook.done cb' ∈ w.fired → cb = cb'
  stored : (∀ cb, w.sink.userClose = some cb → cb < w.hooks) ∧
    ∀ cb, w.sink.onDone = some cb → cb < w.hooks

structure Inv (w : SinkState) : Prop where
  log : Log w
  turns : w.sink.isClosed = false → ∃ g f, Turns w g f
  closed : w.sink.isClosed = true → w.sink.turnQ = [] ∧ ∀ c, w.stage c ≠ .parked none
  hooked : Hooked w

variable {w w' : SinkState}

/-- No call starts to flush. -/
theorem Log.keep (h : Log w) (hcount : w'.count = w.count) (hpayload : w'.payload = w.payload)
    (hrequested : w'.requested = w.requested) (hsent : w'.sent = w.sent)
    (hended : w'.sink.endedFlag = w.sink.endedFlag)
    (hfresh : ∀ c, w.count ≤ c → w'.stage c = .absent)
    (hflushing : ∀ c, w'.stage c = .flushing → w.stage c = .flushing)
    (hdrained : ∀ c ∈ w.drained, c ∈ w'.drained)
    (hreturned : ∀ c ∈ w'.drained, w'.stage c = .returned ∧ c ∈ w.sent.map Prod.fst) :
    Log w' := by
  have hframe : ∀ c, w'.frame c = w.frame c := by
    intro c
    unfold frame
    rw [hpayload]
  refine ⟨?_, ?_, ?_, ?_, ?_, ?_, ?_, ?_, ?_⟩
  · rw [hcount]
    exact hfresh
  · rw [hrequested, hcount]
    exact h.asked
  · rw [hrequested, hpayload]
    exact h.worded
  · intro e he
    rw [hframe]
    exact h.frames e (hsent ▸ he)
  · rw [hsent, hrequested]
    exact h.inOrder
  · rw [hsent, hpayload]
    exact h.terminator
  · intro c hc
    rw [hsent, hframe]
    exact h.flushing c (hflushing c hc)
  · rw [hsent]
    exact hreturned
  · rw [hended, hpayload, hsent]
    intro he
    obtain ⟨c, l, hc, hmem, hl⟩ := h.ended he
    exact ⟨c, l, hc, hdrained c hmem, hl⟩

theorem detach_eq (w : SinkState) :
    w.detach =
      { w with
        sink := { w.sink with onDone := none, userClose := none, turnQ := [] }
        stage := fun c => if c ∈ w.sink.turnQ then .parked (some false) else w.stage c } := by
  unfold detach
  have hfold : ∀ (q : List Nat) (v : SinkState), q.foldl (fun w p => w.resolve p false) v =
      { v with stage := fun c => if c ∈ q then .parked (some false) else v.stage c } := by
    intro q
    induction q with
    | nil =>
      intro v
      simp
    | cons p q ih =>
      intro v
      rw [foldl_cons, ih]
      unfold resolve setStage
      congr 1
      funext c
      by_cases hq : c ∈ q
      · rw [if_pos hq, if_pos (mem_cons_of_mem p hq)]
      · rw [if_neg hq]
        by_cases hp : c = p
        · subst hp
          rw [if_pos mem_cons_self]
          exact Function.update_self _ _ _
        · rw [if_neg (fun h => (List.mem_cons.mp h).elim hp hq)]
          exact Function.update_of_ne hp _ _
  exact hfold w.sink.turnQ _

theorem Hooked.keep (h : Hooked w) (hfired : w'.fired = w.fired) (hhooks : w'.hooks = w.hooks)
    (haborted : w.sink.aborted = true → w'.sink.aborted = true)
    (hended : w.sink.endedFlag = true → w'.sink.endedFlag = true)
    (huser : w'.sink.userClose = w.sink.userClose ∨ w'.sink.userClose = none)
    (hdone : w'.sink.onDone = w.sink.onDone ∨ w'.sink.onDone = none) : Hooked w' := by
  refine ⟨?_, ?_, ?_, ?_, ?_, ?_, ?_⟩
  · rw [hfired]
    exact h.nodup
  · rw [hfired, hhooks]
    exact h.known
  · rw [hfired]
    exact fun cb hcb => haborted (h.close cb hcb)
  · rw [hfired]
    exact fun cb hcb => hended (h.done cb hcb)
  · rw [hfired]
    exact h.once
  · rw [hhooks]
    intro cb hcb
    rcases huser with huser | huser
    · exact h.stored.1 cb (huser.symm.trans hcb)
    · rw [huser] at hcb
      cases hcb
  · rw [hhooks]
    intro cb hcb
    rcases hdone with hdone | hdone
    · exact h.stored.2 cb (hdone.symm.trans hcb)
    · rw [hdone] at hcb
      cases hcb

/-! ### New calls -/

theorem Log.mem_sent_lt (h : Log w) {e : Nat × Str} (he : e ∈ w.sent) : e.1 < w.count :=
  h.asked.2 _ (h.inOrder.subset (mem_map_of_mem he))

theorem Log.lt_of_stage (h : Log w) {c : Nat} (hc : w.stage c ≠ .absent) : c < w.count := by
  by_contra hle
  exact hc (h.fresh c (by omega))

/-- A new call that does not flush, which may ask for a turn. -/
theorem Log.newCall (h : Log w) {payload : Option Str} {stage : Stage}
    (hstage : stage ≠ .flushing) (hcount : w'.count = w.count + 1)
    (hpayload : w'.payload = Function.update w.payload w.count payload)
    (hstages : w'.stage = Function.update w.stage w.count stage)
    (hrequested : w'.requested = w.requested ∨
      (w'.requested = w.requested ++ [w.count] ∧ payload ≠ some []))
    (hsent : w'.sent = w.sent) (hdrained : w'.drained = w.drained)
    (hended : w'.sink.endedFlag = w.sink.endedFlag) : Log w' := by
  have hold : ∀ c, c < w.count → w'.payload c = w.payload c ∧ w'.frame c = w.frame c := by
    intro c hc
    have heq : w'.payload c = w.payload c := by
      rw [hpayload]
      exact Function.update_of_ne (by omega) _ _
    refine ⟨heq, ?_⟩
    unfold frame
    rw [heq]
  have hstaged : ∀ c, c ≠ w.count → w'.stage c = w.stage c := by
    intro c hc
    rw [hstages]
    exact Function.update_of_ne hc _ _
  have hnew : w'.stage w.count = stage := by
    rw [hstages]
    exact Function.update_self _ _ _
  refine ⟨?_, ?_, ?_, ?_, ?_, ?_, ?_, ?_, ?_⟩
  · intro c hc
    rw [hcount] at hc
    rw [hstaged c (by omega)]
    exact h.fresh c (by omega)
  · rcases hrequested with hr | ⟨hr, -⟩
    · rw [hr, hcount]
      exact ⟨h.asked.1, fun c hc => by have := h.asked.2 c hc; omega⟩
    · rw [hr, hcount]
      refine ⟨List.pairwise_append.mpr ⟨h.asked.1, pairwise_singleton _ _, ?_⟩, ?_⟩
      · intro c hc d hd
        rw [List.mem_singleton.mp hd]
        exact h.asked.2 c hc
      · intro c hc
        rcases List.mem_append.mp hc with hc | hc
        · have := h.asked.2 c hc
          omega
        · rw [List.mem_singleton.mp hc]
          omega
  · have hword : ∀ c ∈ w.requested, w'.payload c ≠ some [] := by
      intro c hc
      rw [(hold c (h.asked.2 c hc)).1]
      exact h.worded c hc
    rcases hrequested with hr | ⟨hr, hne⟩
    · rw [hr]
      exact hword
    · rw [hr]
      intro c hc
      rcases List.mem_append.mp hc with hc | hc
      · exact hword c hc
      · rw [List.mem_singleton.mp hc, hpayload, Function.update_self]
        exact hne
  · rw [hsent]
    intro e he
    rw [(hold e.1 (h.mem_sent_lt he)).2]
    exact h.frames e he
  · rw [hsent]
    rcases hrequested with hr | ⟨hr, -⟩
    · rw [hr]
      exact h.inOrder
    · rw [hr]
      exact h.inOrder.trans (prefix_append _ _)
  · rw [hsent]
    intro l c s r hl hc
    have hlt : c < w.count := h.mem_sent_lt (e := (c, s)) (by rw [hl]; simp)
    rw [(hold c hlt).1] at hc
    exact h.terminator l c s r hl hc
  · intro c hc
    by_cases hcount : c = w.count
    · subst hcount
      exact absurd (hnew.symm.trans hc) hstage
    · rw [hstaged c hcount] at hc
      rw [hsent, (hold c (h.lt_of_stage (by rw [hc]; nofun))).2]
      exact h.flushing c hc
  · rw [hdrained, hsent]
    intro c hc
    have hret := h.drained c hc
    rw [hstaged c (Nat.ne_of_lt (h.lt_of_stage (by rw [hret.1]; nofun)))]
    exact hret
  · rw [hended, hdrained, hsent]
    intro he
    obtain ⟨c, l, hc, hmem, hl⟩ := h.ended he
    refine ⟨c, l, ?_, hmem, hl⟩
    rw [(hold c (h.mem_sent_lt (e := (c, chunkEnd)) (by rw [hl]; simp))).1]
    exact hc

/-- A call that returns at once. -/
theorem Inv.ignored (h : Inv w) (payload : Option Str) :
    Inv ((w.newCall payload).setStage w.count .returned) := by
  have hnew : ((w.newCall payload).setStage w.count .returned).stage w.count = .returned :=
    Function.update_self _ _ _
  have hold : ∀ c, c ≠ w.count →
      ((w.newCall payload).setStage w.count .returned).stage c = w.stage c :=
    fun c hc => Function.update_of_ne hc _ _
  have habsent := h.log.fresh w.count (Nat.le_refl _)
  have hsame : ∀ c st, st ≠ .absent → st ≠ .returned →
      (((w.newCall payload).setStage w.count .returned).stage c = st ↔ w.stage c = st) := by
    intro c st hst hst'
    by_cases hc : c = w.count
    · subst hc
      rw [hnew, habsent]
      exact ⟨fun h => absurd h.symm hst', fun h => absurd h.symm hst⟩
    · rw [hold c hc]
  refine ⟨h.log.newCall (by decide) rfl rfl rfl (Or.inl rfl) rfl rfl rfl, ?_, ?_,
    h.hooked.keep rfl rfl id id (Or.inl rfl) (Or.inl rfl)⟩
  · intro hopen
    obtain ⟨g, f, ht⟩ := h.turns hopen
    refine ⟨g, f, ht.busy, ht.one, ht.idle, ht.requested, ?_, ?_, ?_, ?_⟩
    · exact fun c => (hsame c (.parked none) nofun nofun).trans (ht.queued c)
    · exact fun c b => (hsame c (.parked (some b)) nofun nofun).trans (ht.granted c b)
    · exact fun c => (hsame c .flushing nofun nofun).trans (ht.flushing c)
    · intro e he hpayload
      have hlt := h.log.mem_sent_lt he
      refine ht.terminators e he ?_
      rw [← hpayload]
      exact (Function.update_of_ne (Nat.ne_of_lt hlt) _ _).symm
  · intro hclosed
    refine ⟨(h.closed hclosed).1, ?_⟩
    intro c hc
    exact (h.closed hclosed).2 c ((hsame c (.parked none) nofun nofun).mp hc)

/-- A call that asks for a turn: at once if nobody has it, else behind the others. -/
theorem Inv.acquire (h : Inv w) (hopen : w.sink.isClosed = false) (payload : Option Str)
    (hword : payload ≠ some []) :
    Inv ((w.newCall payload).acquire w.count) := by
  obtain ⟨g, f, ht⟩ := h.turns hopen
  have habsent := h.log.fresh w.count (Nat.le_refl _)
  have hterminators : ∀ e ∈ w.sent, (w.newCall payload).payload e.1 = none → f = some e.1 := by
    intro e he hpayload
    have hlt := h.log.mem_sent_lt he
    refine ht.terminators e he ?_
    rw [← hpayload]
    exact (Function.update_of_ne (Nat.ne_of_lt hlt) _ _).symm
  unfold SinkState.acquire
  dsimp only
  by_cases hbusy : w.sink.busy = true
  · rw [if_pos (show (w.newCall payload).sink.busy = true from hbusy)]
    refine ⟨h.log.newCall (by decide) rfl rfl rfl (Or.inr ⟨rfl, hword⟩) rfl rfl rfl, ?_, ?_,
      h.hooked.keep rfl rfl id id (Or.inl rfl) (Or.inl rfl)⟩
    · intro _
      refine ⟨g, f, ht.busy, ht.one, ?_, ?_, ?_, ?_, ?_, hterminators⟩
      · intro hg hf
        have := ht.busy
        rw [hg, hf, hbusy] at this
        cases this
      · show w.requested ++ [w.count] = w.sent.map Prod.fst ++ (g.toList ++ (w.sink.turnQ ++ [w.count]))
        rw [ht.requested]
        simp only [append_assoc]
      · intro c
        show Function.update w.stage w.count (.parked none) c = .parked none ↔
          c ∈ w.sink.turnQ ++ [w.count]
        by_cases hc : c = w.count
        · subst hc
          rw [Function.update_self]
          exact ⟨fun _ => by simp, fun _ => rfl⟩
        · rw [Function.update_of_ne hc, ht.queued c, mem_append, mem_singleton]
          exact ⟨Or.inl, fun h => h.resolve_right hc⟩
      · intro c b
        show Function.update w.stage w.count (.parked none) c = .parked (some b) ↔ _
        by_cases hc : c = w.count
        · subst hc
          rw [Function.update_self]
          refine ⟨nofun, ?_⟩
          intro hg
          have := (ht.granted w.count b).mpr hg
          rw [habsent] at this
          cases this
        · rw [Function.update_of_ne hc]
          exact ht.granted c b
      · intro c
        show Function.update w.stage w.count (.parked none) c = .flushing ↔ _
        by_cases hc : c = w.count
        · subst hc
          rw [Function.update_self]
          refine ⟨nofun, ?_⟩
          intro hf
          have := (ht.flushing w.count).mpr hf
          rw [habsent] at this
          cases this
        · rw [Function.update_of_ne hc]
          exact ht.flushing c
    · intro hclosed
      exact absurd (hopen.symm.trans hclosed) (by decide)
  · rw [if_neg (show ¬ (w.newCall payload).sink.busy = true from hbusy)]
    rw [Bool.not_eq_true] at hbusy
    have hidle : g = none ∧ f = none := by
      have := ht.busy
      rw [hbusy] at this
      cases g with
      | some c => cases this
      | none =>
        cases f with
        | some c => cases this
        | none => exact ⟨rfl, rfl⟩
    obtain ⟨rfl, rfl⟩ := hidle
    have hempty := ht.idle rfl rfl
    refine ⟨h.log.newCall (by decide) rfl rfl rfl (Or.inr ⟨rfl, hword⟩) rfl rfl rfl, ?_, ?_,
      h.hooked.keep rfl rfl id id (Or.inl rfl) (Or.inl rfl)⟩
    · intro _
      refine ⟨some w.count, none, rfl, Or.inr rfl, nofun, ?_, ?_, ?_, ?_, hterminators⟩
      · show w.requested ++ [w.count] = w.sent.map Prod.fst ++ ([w.count] ++ w.sink.turnQ)
        rw [ht.requested, hempty]
        simp
      · intro c
        show Function.update w.stage w.count (.parked (some true)) c = .parked none ↔
          c ∈ w.sink.turnQ
        by_cases hc : c = w.count
        · subst hc
          rw [Function.update_self, hempty]
          exact ⟨nofun, nofun⟩
        · rw [Function.update_of_ne hc]
          exact ht.queued c
      · intro c b
        show Function.update w.stage w.count (.parked (some true)) c = .parked (some b) ↔
          b = true ∧ some w.count = some c
        by_cases hc : c = w.count
        · subst hc
          rw [Function.update_self]
          simp only [Stage.parked.injEq, Option.some.injEq, and_true]
          exact eq_comm
        · rw [Function.update_of_ne hc, ht.granted c b]
          simp [Ne.symm hc]
      · intro c
        show Function.update w.stage w.count (.parked (some true)) c = .flushing ↔ none = some c
        by_cases hc : c = w.count
        · subst hc
          rw [Function.update_self]
          exact ⟨nofun, nofun⟩
        · rw [Function.update_of_ne hc]
          exact ht.flushing c
    · intro hclosed
      exact absurd (hopen.symm.trans hclosed) (by decide)

theorem Inv.write (h : Inv w) (data : Str) : Inv (w.write data) := by
  unfold SinkState.write
  by_cases hclosed : w.sink.isClosed = true
  · rw [if_pos hclosed]
    exact h.ignored (some data)
  · rw [if_neg hclosed]
    by_cases hempty : data.length = 0
    · rw [if_pos hempty]
      exact h.ignored (some data)
    · rw [if_neg hempty]
      refine h.acquire (by simpa using hclosed) (some data) ?_
      intro hnil
      rw [Option.some.inj hnil] at hempty
      exact hempty rfl

theorem Inv.end (h : Inv w) : Inv w.end := by
  unfold SinkState.end
  by_cases hclosed : w.sink.isClosed = true
  · rw [if_pos hclosed]
    exact h.ignored none
  · rw [if_neg hclosed]
    exact h.acquire (by simpa using hclosed) none nofun

/-! ### Closing -/

/-- What is left of the invariant inside of `end`, between the release of the turn and the
moment the sink is closed. -/
structure Pre (w : SinkState) : Prop where
  log : Log w
  queued : ∀ c, w.stage c = .parked none ↔ c ∈ w.sink.turnQ
  hooked : Hooked w

theorem Inv.pre (h : Inv w) : Pre w := by
  refine ⟨h.log, ?_, h.hooked⟩
  by_cases hclosed : w.sink.isClosed = true
  · obtain ⟨hempty, hparked⟩ := h.closed hclosed
    intro c
    rw [hempty]
    exact ⟨fun hc => absurd hc (hparked c), nofun⟩
  · obtain ⟨g, f, ht⟩ := h.turns (by simpa using hclosed)
    exact ht.queued

theorem Pre.inv (h : Pre w) (hclosed : w.sink.isClosed = true) (hempty : w.sink.turnQ = []) :
    Inv w := by
  refine ⟨h.log, ?_, ?_, h.hooked⟩
  · intro hopen
    exact absurd (hopen.symm.trans hclosed) (by decide)
  · intro _
    refine ⟨hempty, ?_⟩
    intro c hc
    have := (h.queued c).mp hc
    rw [hempty] at this
    cases this

theorem detach_fields (w : SinkState) :
    w.detach.fired = w.fired ∧ w.detach.hooks = w.hooks ∧
      w.detach.sink.aborted = w.sink.aborted ∧ w.detach.sink.endedFlag = w.sink.endedFlag := by
  rw [detach_eq]
  exact ⟨rfl, rfl, rfl, rfl⟩

/-- All waiters of a closed sink are resolved. -/
theorem Pre.detach (h : Pre w) (hclosed : w.sink.isClosed = true) : Inv w.detach := by
  rw [detach_eq]
  refine Pre.inv ⟨?_, ?_, ?_⟩ hclosed rfl
  · refine h.log.keep rfl rfl rfl rfl rfl ?_ ?_ (fun _ hc => hc) ?_
    · intro c hc
      have habsent := h.log.fresh c hc
      have hnot : c ∉ w.sink.turnQ := by
        intro hmem
        have := (h.queued c).mpr hmem
        rw [habsent] at this
        cases this
      show (if c ∈ w.sink.turnQ then Stage.parked (some false) else w.stage c) = .absent
      rw [if_neg hnot]
      exact habsent
    · intro c hc
      have hc : (if c ∈ w.sink.turnQ then Stage.parked (some false) else w.stage c) = .flushing :=
        hc
      by_cases hmem : c ∈ w.sink.turnQ
      · rw [if_pos hmem] at hc
        cases hc
      · rwa [if_neg hmem] at hc
    · intro c hc
      have hret := h.log.drained c hc
      have hnot : c ∉ w.sink.turnQ := by
        intro hmem
        have := (h.queued c).mpr hmem
        rw [hret.1] at this
        cases this
      show (if c ∈ w.sink.turnQ then Stage.parked (some false) else w.stage c) = .returned ∧ _
      rw [if_neg hnot]
      exact hret
  · intro c
    show (if c ∈ w.sink.turnQ then Stage.parked (some false) else w.stage c) = .parked none ↔
      c ∈ ([] : List Nat)
    by_cases hmem : c ∈ w.sink.turnQ
    · rw [if_pos hmem]
      exact ⟨nofun, nofun⟩
    · rw [if_neg hmem, h.queued c]
      exact ⟨fun hc => absurd hc hmem, nofun⟩
  · exact h.hooked.keep rfl rfl id id (Or.inr rfl) (Or.inr rfl)

/-- A hook that was not run before is run. -/
theorem Inv.fire (h : Inv w) {hook : Option Hook} (hnew : ∀ k, hook = some k → k ∉ w.fired)
    (hclose : ∀ cb, hook = some (.close cb) → cb < w.hooks ∧ w.sink.aborted = true)
    (hdone : ∀ cb, hook = some (.done cb) → cb < w.hooks ∧ w.sink.endedFlag = true ∧
      ∀ cb', Hook.done cb' ∉ w.fired) : Inv (w.fire hook) := by
  cases hook with
  | none => exact h
  | some k =>
    have hmem : ∀ {x}, x ∈ w.fired ++ [k] → x ∈ w.fired ∨ x = k := by
      intro x hx
      rcases List.mem_append.mp hx with hx | hx
      · exact Or.inl hx
      · exact Or.inr (List.mem_singleton.mp hx)
    refine ⟨h.log.keep rfl rfl rfl rfl rfl h.log.fresh (fun _ hc => hc) (fun _ hc => hc)
      h.log.drained, ?_, h.closed, ?_⟩
    · intro hopen
      obtain ⟨g, f, ht⟩ := h.turns hopen
      exact ⟨g, f, ht.busy, ht.one, ht.idle, ht.requested, ht.queued, ht.granted, ht.flushing,
        ht.terminators⟩
    · refine ⟨?_, ?_, ?_, ?_, ?_, h.hooked.stored⟩
      · refine List.nodup_append.mpr ⟨h.hooked.nodup, nodup_singleton k, ?_⟩
        intro x hx y hy hxy
        rw [List.mem_singleton.mp hy] at hxy
        exact hnew k rfl (hxy ▸ hx)
      · intro cb hcb
        rcases hcb with hcb | hcb
        · rcases hmem hcb with hcb | hk
          · exact h.hooked.known cb (Or.inl hcb)
          · exact (hclose cb (congrArg some hk.symm)).1
        · rcases hmem hcb with hcb | hk
          · exact h.hooked.known cb (Or.inr hcb)
          · exact (hdone cb (congrArg some hk.symm)).1
      · intro cb hcb
        rcases hmem hcb with hcb | hk
        · exact h.hooked.close cb hcb
        · exact (hclose cb (congrArg some hk.symm)).2
      · intro cb hcb
        rcases hmem hcb with hcb | hk
        · exact h.hooked.done cb hcb
        · exact (hdone cb (congrArg some hk.symm)).2.1
      · intro cb cb' hcb hcb'
        rcases hmem hcb with hcb | hk
        · rcases hmem hcb' with hcb' | hk'
          · exact h.hooked.once cb cb' hcb hcb'
          · exact absurd hcb ((hdone cb' (congrArg some hk'.symm)).2.2 cb)
        · rcases hmem hcb' with hcb' | hk'
          · exact absurd hcb' ((hdone cb (congrArg some hk.symm)).2.2 cb')
          · exact Hook.done.inj (hk.trans hk'.symm)

/-- `abort` closes an open sink. -/
theorem Pre.abort (h : Pre w) (hopen : w.sink.isClosed = false) : Inv w.abort.2 := by
  obtain ⟨hended, haborted⟩ := Bool.or_eq_false_iff.mp hopen
  unfold SinkState.abort
  rw [hended, haborted]
  dsimp only [Bool.or_self, Bool.false_eq_true, if_false]
  have hpre : Pre { w with sink := { w.sink with aborted := true } } :=
    ⟨h.log.keep rfl rfl rfl rfl rfl h.log.fresh (fun _ hc => hc) (fun _ hc => hc) h.log.drained,
      h.queued,
      h.hooked.keep rfl rfl (fun _ => rfl) id (Or.inl rfl) (Or.inl rfl)⟩
  have hclosed : ({ w with sink := { w.sink with aborted := true } } : SinkState).sink.isClosed =
      true := Bool.or_true _
  obtain ⟨hfired, hhooks, hflag, -⟩ :=
    detach_fields { w with sink := { w.sink with aborted := true } }
  refine (hpre.detach hclosed).fire ?_ ?_ ?_
  · intro k hk hmem
    rw [hfired] at hmem
    obtain ⟨cb, -, rfl⟩ := Option.map_eq_some_iff.mp hk
    have := h.hooked.close cb hmem
    rw [haborted] at this
    cases this
  · intro cb hcb
    obtain ⟨cb', hstored, heq⟩ := Option.map_eq_some_iff.mp hcb
    obtain rfl := Hook.close.inj heq
    rw [hhooks, hflag]
    exact ⟨h.hooked.stored.1 cb' hstored, rfl⟩
  · intro cb hcb
    obtain ⟨cb', -, heq⟩ := Option.map_eq_some_iff.mp hcb
    cases heq

/-- On a closed sink `abort` does nothing. -/
theorem abort_closed (hclosed : w.sink.isClosed = true) : w.abort = (none, w) := by
  unfold SinkState.abort
  rw [if_pos (by rw [Bool.or_comm]; exact hclosed)]

theorem Inv.abort (h : Inv w) : Inv w.abort.2 := by
  by_cases hclosed : w.sink.isClosed = true
  · rw [abort_closed hclosed]
    exact h
  · exact h.pre.abort (by simpa using hclosed)

/-! ### Turns -/

theorem Inv.turnQ_nodup (h : Inv w) : w.sink.turnQ.Nodup := by
  by_cases hclosed : w.sink.isClosed = true
  · rw [(h.closed hclosed).1]
    exact nodup_nil
  · obtain ⟨g, f, ht⟩ := h.turns (by simpa using hclosed)
    have hnodup : w.requested.Nodup := h.log.asked.1.imp (fun hlt => Nat.ne_of_lt hlt)
    rw [ht.requested] at hnodup
    exact (List.nodup_append.mp (List.nodup_append.mp hnodup).2.1).2.1

/-- The state after a call that flushed has handed the turn on. -/
def handover (w : SinkState) (c : Nat) (drained : List Nat) : SinkState :=
  { w with
    drained
    sink := { w.sink with
      turnQ := w.sink.turnQ.tail
      busy := if w.sink.turnQ = [] then false else w.sink.busy }
    stage := fun d =>
      if d = c then .returned
      else if w.sink.turnQ.head? = some d then .parked (some true) else w.stage d }

theorem release_setStage (w : SinkState) (c : Nat) :
    w.release.setStage c .returned = w.handover c w.drained := by
  unfold release handover
  cases hq : w.sink.turnQ with
  | nil =>
    unfold setStage
    congr 1
    · simp [hq]
    · funext d
      rw [Function.update_apply]
      rfl
  | cons nx rest =>
    unfold resolve setStage
    congr 1
    funext d
    show Function.update (Function.update w.stage nx (.parked (some true))) c .returned d = _
    rw [Function.update_apply, Function.update_apply]
    by_cases hd : d = nx
    · rw [if_pos hd, hd, head?_cons, if_pos rfl]
    · rw [if_neg hd, head?_cons, if_neg (fun h => hd (Option.some.inj h).symm)]

/-- What holds after the handover whether or not the sink is closed. -/
theorem Inv.handover {c : Nat} {drained : List Nat} (h : Inv w) (hc : w.stage c ≠ .absent)
    (hparked : w.stage c ≠ .parked none) (hkeep : ∀ d ∈ w.drained, d ∈ drained)
    (hdrained : ∀ d ∈ drained, d ∈ w.drained ∨ (d = c ∧ c ∈ w.sent.map Prod.fst)) :
    Pre (w.handover c drained) := by
  have hqueued := h.pre.queued
  have hhead : ∀ d, w.sink.turnQ.head? = some d → w.stage d = .parked none :=
    fun d hd => (hqueued d).mpr (mem_of_head? hd)
  have hstage : ∀ d, (w.handover c drained).stage d =
      if d = c then .returned
      else if w.sink.turnQ.head? = some d then .parked (some true) else w.stage d :=
    fun _ => rfl
  refine ⟨h.log.keep rfl rfl rfl rfl rfl ?_ ?_ hkeep ?_, ?_,
    h.hooked.keep rfl rfl id id (Or.inl rfl) (Or.inl rfl)⟩
  · intro d hd
    have habsent := h.log.fresh d hd
    rw [hstage, if_neg, if_neg]
    · exact habsent
    · intro hd'
      have := hhead d hd'
      rw [habsent] at this
      cases this
    · intro hd'
      subst hd'
      exact hc habsent
  · intro d hd
    rw [hstage] at hd
    by_cases hdc : d = c
    · rw [if_pos hdc] at hd
      cases hd
    · rw [if_neg hdc] at hd
      by_cases hd' : w.sink.turnQ.head? = some d
      · rw [if_pos hd'] at hd
        cases hd
      · rwa [if_neg hd'] at hd
  · intro d hd
    rw [hstage]
    rcases hdrained d hd with hd | ⟨hd, hsent⟩
    · have hret := h.log.drained d hd
      by_cases hdc : d = c
      · rw [if_pos hdc]
        exact ⟨rfl, hret.2⟩
      · rw [if_neg hdc, if_neg]
        · exact hret
        · intro hd'
          have := hhead d hd'
          rw [hret.1] at this
          cases this
    · rw [if_pos hd, hd]
      exact ⟨rfl, hsent⟩
  · intro d
    rw [hstage]
    show _ ↔ d ∈ w.sink.turnQ.tail
    have hcq : c ∉ w.sink.turnQ := fun hmem => hparked ((hqueued c).mpr hmem)
    by_cases hdc : d = c
    · rw [if_pos hdc, hdc]
      exact ⟨nofun, fun hmem => absurd (mem_of_mem_tail hmem) hcq⟩
    · rw [if_neg hdc]
      by_cases hd : w.sink.turnQ.head? = some d
      · rw [if_pos hd]
        refine ⟨nofun, ?_⟩
        intro hmem
        have hnodup := h.turnQ_nodup
        obtain ⟨rest, hrest⟩ := List.head?_eq_some_iff.mp hd
        rw [hrest] at hnodup hmem
        exact absurd hmem (List.nodup_cons.mp hnodup).1
      · rw [if_neg hd, hqueued d]
        cases hq : w.sink.turnQ with
        | nil => exact Iff.rfl
        | cons nx rest =>
          rw [hq] at hd
          have hne : d ≠ nx := fun h => hd (congrArg some h.symm)
          rw [mem_cons, tail_cons]
          exact ⟨fun hmem => hmem.resolve_left hne, Or.inr⟩

/-- After a write the turn is with the first of the queue, or with nobody. -/
theorem Inv.handover_turns {c : Nat} {drained : List Nat} (h : Inv w)
    (hc : w.stage c = .flushing) (hopen : w.sink.isClosed = false) (hwrite : w.payload c ≠ none)
    (hpre : Pre (w.handover c drained)) :
    Turns (w.handover c drained) w.sink.turnQ.head? none := by
  obtain ⟨g, f, ht⟩ := h.turns hopen
  have hf : f = some c := (ht.flushing c).mp hc
  have hg : g = none := ht.one.resolve_right (by rw [hf]; nofun)
  have hhead : ∀ d, w.sink.turnQ.head? = some d → w.stage d = .parked none :=
    fun d hd => (ht.queued d).mpr (mem_of_head? hd)
  have hstage : ∀ d, (w.handover c drained).stage d =
      if d = c then .returned
      else if w.sink.turnQ.head? = some d then .parked (some true) else w.stage d :=
    fun _ => rfl
  refine ⟨?_, Or.inr rfl, ?_, ?_, hpre.queued, ?_, ?_, ?_⟩
  · show (if w.sink.turnQ = [] then false else w.sink.busy) = _
    rw [ht.busy, hf, hg]
    cases w.sink.turnQ with
    | nil => rfl
    | cons nx rest => rfl
  · intro hnone _
    show w.sink.turnQ.tail = []
    rw [List.head?_eq_none_iff.mp hnone]
    rfl
  · show w.requested = w.sent.map Prod.fst ++ (w.sink.turnQ.head?.toList ++ w.sink.turnQ.tail)
    rw [ht.requested, hg]
    cases w.sink.turnQ with
    | nil => rfl
    | cons nx rest => rfl
  · intro d b
    rw [hstage]
    by_cases hdc : d = c
    · rw [if_pos hdc]
      refine ⟨nofun, ?_⟩
      intro hd
      have := hhead d hd.2
      rw [hdc, hc] at this
      cases this
    · rw [if_neg hdc]
      by_cases hd : w.sink.turnQ.head? = some d
      · rw [if_pos hd]
        simp only [Stage.parked.injEq, Option.some.injEq, hd, and_true]
        exact eq_comm
      · rw [if_neg hd, ht.granted d b, hg]
        exact ⟨(fun h => nomatch h.2), fun h => absurd h.2 hd⟩
  · intro d
    rw [hstage]
    refine ⟨?_, nofun⟩
    by_cases hdc : d = c
    · rw [if_pos hdc]
      exact nofun
    · rw [if_neg hdc]
      by_cases hd : w.sink.turnQ.head? = some d
      · rw [if_pos hd]
        exact nofun
      · rw [if_neg hd, ht.flushing d, hf]
        exact fun h => absurd (Option.some.inj h).symm hdc
  · intro e he hpayload
    have := ht.terminators e he hpayload
    rw [hf] at this
    rw [← Option.some.inj this] at hpayload
    exact absurd hpayload hwrite

/-! ### One event -/

theorem Inv.resume {c : Nat} {b : Bool} (h : Inv w) (hc : w.stage c = .parked (some b)) :
    Inv (w.resume c).2 := by
  unfold SinkState.resume
  by_cases hclosed : w.sink.isClosed = true
  · rw [if_pos hclosed]
    dsimp only
    rw [release_setStage]
    have hpre : Pre (w.handover c w.drained) :=
      h.handover (by rw [hc]; nofun) (by rw [hc]; nofun) (fun _ hd => hd) (fun _ hd => Or.inl hd)
    refine hpre.inv hclosed ?_
    show w.sink.turnQ.tail = []
    rw [(h.closed hclosed).1]
    rfl
  · rw [if_neg hclosed]
    have hopen : w.sink.isClosed = false := by simpa using hclosed
    obtain ⟨g, f, ht⟩ := h.turns hopen
    obtain ⟨rfl, hg⟩ := (ht.granted c b).mp hc
    have hf : f = none := ht.one.resolve_left (by rw [hg]; nofun)
    subst hg hf
    -- no frame before this one is a terminator
    have hdata : ∀ e ∈ w.sent, w.payload e.1 ≠ none :=
      fun e he hp => nomatch ht.terminators e he hp
    have hnew : (Function.update w.stage c .flushing) c = .flushing := Function.update_self _ _ _
    have hold : ∀ d, d ≠ c → (Function.update w.stage c .flushing) d = w.stage d :=
      fun d hd => Function.update_of_ne hd _ _
    have hlt := h.log.lt_of_stage (c := c) (by rw [hc]; nofun)
    refine ⟨⟨?_, h.log.asked, h.log.worded, ?_, ?_, ?_, ?_, ?_, ?_⟩, ?_, ?_,
      h.hooked.keep rfl rfl id id (Or.inl rfl) (Or.inl rfl)⟩
    · intro d hd
      show Function.update w.stage c .flushing d = .absent
      have hd : w.count ≤ d := hd
      rw [hold d (by omega)]
      exact h.log.fresh d hd
    · intro e he
      rcases List.mem_append.mp he with he | he
      · exact h.log.frames e he
      · obtain rfl := List.mem_singleton.mp he
        rfl
    · show (w.sent ++ [(c, w.frame c)]).map Prod.fst <+: w.requested
      rw [map_append, ht.requested]
      exact ⟨w.sink.turnQ, by simp⟩
    · intro l d s r hl hd
      have hl : w.sent ++ [(c, w.frame c)] = l ++ (d, s) :: r := hl
      rcases eq_nil_or_concat r with hr | ⟨r', e, hr⟩
      · exact hr
      · subst hr
        have hin : (d, s) ∈ w.sent := by
          have heq : w.sent ++ [(c, w.frame c)] = (l ++ (d, s) :: r') ++ [e] := by
            rw [hl]
            simp
          rw [(append_inj' heq rfl).1]
          simp
        exact absurd hd (hdata (d, s) hin)
    · intro d hd
      have hd : Function.update w.stage c .flushing d = .flushing := hd
      by_cases hdc : d = c
      · exact ⟨w.sent, by rw [hdc]; rfl⟩
      · rw [hold d hdc] at hd
        exact nomatch (ht.flushing d).mp hd
    · intro d hd
      have hret := h.log.drained d hd
      show Function.update w.stage c .flushing d = .returned ∧
        d ∈ (w.sent ++ [(c, w.frame c)]).map Prod.fst
      rw [hold d (fun hdc => by rw [hdc, hc] at hret; cases hret.1), map_append]
      exact ⟨hret.1, mem_append_left _ hret.2⟩
    · intro hended
      have : w.sink.endedFlag = false := (Bool.or_eq_false_iff.mp hopen).1
      exact absurd (this.symm.trans hended) (by decide)
    · intro _
      refine ⟨none, some c, ?_, Or.inl rfl, nofun, ?_, ?_, ?_, ?_, ?_⟩
      · exact ht.busy
      · show w.requested = (w.sent ++ [(c, w.frame c)]).map Prod.fst ++ ([] ++ w.sink.turnQ)
        rw [ht.requested]
        simp
      · intro d
        show Function.update w.stage c .flushing d = .parked none ↔ d ∈ w.sink.turnQ
        rw [← ht.queued d]
        by_cases hdc : d = c
        · rw [hdc, hnew, hc]
          exact ⟨nofun, nofun⟩
        · rw [hold d hdc]
      · intro d b
        show Function.update w.stage c .flushing d = .parked (some b) ↔ b = true ∧ none = some d
        refine ⟨?_, fun h => nomatch h.2⟩
        by_cases hdc : d = c
        · rw [hdc, hnew]
          exact nofun
        · rw [hold d hdc, ht.granted d b]
          exact fun h => absurd (Option.some.inj h.2).symm hdc
      · intro d
        show Function.update w.stage c .flushing d = .flushing ↔ some c = some d
        by_cases hdc : d = c
        · rw [hdc, hnew]
          exact ⟨fun _ => rfl, fun _ => rfl⟩
        · rw [hold d hdc, ht.flushing d]
          exact ⟨nofun, fun h => absurd (Option.some.inj h).symm hdc⟩
      · intro e he hp
        rcases List.mem_append.mp he with he | he
        · exact absurd hp (hdata e he)
        · obtain rfl := List.mem_singleton.mp he
          rfl
    · intro hc
      exact absurd hc hclosed

/-- The calls whose flush yielded true, after one more. -/
def drainedBy (w : SinkState) (c : Nat) (ok : Bool) : List Nat :=
  if ok then w.drained ++ [c] else w.drained

theorem flushed_eq (w : SinkState) (c : Nat) (ok : Bool) :
    w.flushed c ok =
      match w.payload c with
      | some _ =>
        if ok then (none, w.handover c (w.drainedBy c ok))
        else (w.handover c (w.drainedBy c ok)).abort
      | none =>
        if ok then
          let v := w.handover c (w.drainedBy c ok)
          let v := { v with sink := { v.sink with endedFlag := true } }
          (v.sink.onDone.map Hook.done, v.detach.fire (v.sink.onDone.map Hook.done))
        else (w.handover c (w.drainedBy c ok)).abort := by
  unfold flushed drainedBy finishWrite finishEnd
  cases ok with
  | false =>
    cases hp : w.payload c with
    | none => simp only [hp, Bool.false_eq_true, if_false, release_setStage]
    | some data => simp only [hp, Bool.false_eq_true, if_false, release_setStage]
  | true =>
    cases hp : w.payload c with
    | none => simp only [hp, if_true, release_setStage]; rfl
    | some data => simp only [hp, if_true, release_setStage]; rfl

theorem Inv.handover_drained {c : Nat} {ok : Bool} (h : Inv w) (hc : w.stage c = .flushing) :
    Pre (w.handover c (w.drainedBy c ok)) := by
  refine h.handover (by rw [hc]; nofun) (by rw [hc]; nofun) ?_ ?_
  · intro d hd
    unfold drainedBy
    split
    · exact mem_append_left _ hd
    · exact hd
  · intro d hd
    unfold drainedBy at hd
    split at hd
    · rcases List.mem_append.mp hd with hd | hd
      · exact Or.inl hd
      · refine Or.inr ⟨List.mem_singleton.mp hd, ?_⟩
        obtain ⟨l, hl⟩ := h.log.flushing c hc
        rw [hl]
        simp
    · exact Or.inl hd

/-- At most one call waits for its flush: the one whose frame is the last. -/
theorem Log.flushing_unique {c c' : Nat} (h : Log w) (hc : w.stage c = .flushing)
    (hc' : w.stage c' = .flushing) : c = c' := by
  obtain ⟨l, hl⟩ := h.flushing c hc
  obtain ⟨l', hl'⟩ := h.flushing c' hc'
  have heq := (append_inj' (hl.symm.trans hl') rfl).2
  exact (Prod.mk.inj (List.cons.inj heq).1).1

/-- The last frame is the one that is being flushed, so an `end` that flushes has not ended
before. -/
theorem Log.not_ended {c : Nat} (h : Log w) (hc : w.stage c = .flushing) :
    w.sink.endedFlag = false := by
  by_contra hended
  obtain ⟨d, l, -, hd, hl⟩ := h.ended (by simpa using hended)
  obtain ⟨l', hl'⟩ := h.flushing c hc
  have heq := (append_inj' (hl.symm.trans hl') rfl).2
  have hdc : d = c := by
    have := (List.cons.inj heq).1
    exact (Prod.mk.inj this).1
  have := (h.drained d hd).1
  rw [hdc, hc] at this
  cases this

theorem Inv.flushed {c : Nat} {ok : Bool} (h : Inv w) (hc : w.stage c = .flushing) :
    Inv (w.flushed c ok).2 := by
  have hpre : Pre (w.handover c (w.drainedBy c ok)) := h.handover_drained hc
  have hflags : (w.handover c (w.drainedBy c ok)).sink.isClosed = w.sink.isClosed := rfl
  have hempty : w.sink.isClosed = true → (w.handover c (w.drainedBy c ok)).sink.turnQ = [] := by
    intro hclosed
    show w.sink.turnQ.tail = []
    rw [(h.closed hclosed).1]
    rfl
  -- a call that fails leaves the sink aborted
  have habort : Inv (w.handover c (w.drainedBy c ok)).abort.2 := by
    by_cases hclosed : w.sink.isClosed = true
    · rw [abort_closed (hflags.trans hclosed)]
      exact hpre.inv (hflags.trans hclosed) (hempty hclosed)
    · exact hpre.abort (hflags.trans (by simpa using hclosed))
  rw [flushed_eq]
  cases hp : w.payload c with
  | some data =>
    dsimp only
    by_cases hok : ok = true
    · rw [if_pos hok]
      by_cases hclosed : w.sink.isClosed = true
      · exact hpre.inv (hflags.trans hclosed) (hempty hclosed)
      · have hopen : w.sink.isClosed = false := by simpa using hclosed
        refine ⟨hpre.log, ?_, ?_, hpre.hooked⟩
        · intro _
          exact ⟨_, _, h.handover_turns hc hopen (by rw [hp]; nofun) hpre⟩
        · intro hcl
          exact absurd hcl hclosed
    · rw [if_neg hok]
      exact habort
  | none =>
    dsimp only
    by_cases hok : ok = true
    · rw [if_pos hok]
      subst hok
      have hended := h.log.not_ended hc
      have hfresh : ∀ cb, Hook.done cb ∉ w.fired := by
        intro cb hcb
        exact absurd (hended.symm.trans (h.hooked.done cb hcb)) (by decide)
      have hmark : Pre { w.handover c (w.drainedBy c true) with
          sink := { (w.handover c (w.drainedBy c true)).sink with endedFlag := true } } := by
        refine ⟨⟨hpre.log.fresh, hpre.log.asked, hpre.log.worded, hpre.log.frames, hpre.log.inOrder,
          hpre.log.terminator, hpre.log.flushing, hpre.log.drained, ?_⟩, hpre.queued,
          hpre.hooked.keep rfl rfl id (fun _ => rfl) (Or.inl rfl) (Or.inl rfl)⟩
        intro _
        obtain ⟨l, hl⟩ := h.log.flushing c hc
        have hframe : w.frame c = chunkEnd := by
          unfold frame
          rw [hp]
        rw [hframe] at hl
        exact ⟨c, l, hp, mem_append_right _ (mem_singleton_self c), hl⟩
      obtain ⟨hfired, hhooks, -, hflag⟩ := detach_fields
        { w.handover c (w.drainedBy c true) with
          sink := { (w.handover c (w.drainedBy c true)).sink with endedFlag := true } }
      refine (hmark.detach rfl).fire ?_ ?_ ?_
      · intro k hk hmem
        rw [hfired] at hmem
        obtain ⟨cb, -, rfl⟩ := Option.map_eq_some_iff.mp hk
        exact hfresh cb hmem
      · intro cb hcb
        obtain ⟨cb', -, heq⟩ := Option.map_eq_some_iff.mp hcb
        cases heq
      · intro cb hcb
        obtain ⟨cb', hstored, heq⟩ := Option.map_eq_some_iff.mp hcb
        obtain rfl := Hook.done.inj heq
        rw [hhooks, hflag, hfired]
        exact ⟨h.hooked.stored.2 cb' hstored, rfl, hfresh⟩
    · rw [if_neg hok]
      exact habort

/-- The stored hooks change to known ones. -/
theorem Inv.store (h : Inv w) (userClose onDone : Option Nat)
    (huser : ∀ cb, userClose = some cb → cb < w.hooks + 1)
    (hdone : ∀ cb, onDone = some cb → cb < w.hooks + 1) :
    Inv { w with hooks := w.hooks + 1, sink := { w.sink with userClose, onDone } } := by
  refine ⟨h.log.keep rfl rfl rfl rfl rfl h.log.fresh (fun _ hc => hc) (fun _ hc => hc)
    h.log.drained, ?_, h.closed, ⟨h.hooked.nodup, ?_, h.hooked.close, h.hooked.done,
      h.hooked.once, huser, hdone⟩⟩
  · intro hopen
    obtain ⟨g, f, ht⟩ := h.turns hopen
    exact ⟨g, f, ht.busy, ht.one, ht.idle, ht.requested, ht.queued, ht.granted, ht.flushing,
      ht.terminators⟩
  · exact fun cb hcb => Nat.lt_succ_of_lt (h.hooked.known cb hcb)

theorem Inv.setDone (h : Inv w) : Inv w.setDone := by
  refine h.store w.sink.userClose (some w.hooks) ?_ ?_
  · exact fun cb hcb => Nat.lt_succ_of_lt (h.hooked.stored.1 cb hcb)
  · intro cb hcb
    rw [← Option.some.inj hcb]
    exact Nat.lt_succ_self _

theorem Inv.onClose (h : Inv w) : Inv w.onClose := by
  have hdone : ∀ cb, w.sink.onDone = some cb → cb < w.hooks + 1 :=
    fun cb hcb => Nat.lt_succ_of_lt (h.hooked.stored.2 cb hcb)
  unfold SinkState.onClose
  dsimp only
  by_cases haborted : w.sink.aborted = true
  · rw [if_pos haborted]
    have hmore : Inv { w with hooks := w.hooks + 1 } :=
      h.store w.sink.userClose w.sink.onDone
        (fun cb hcb => Nat.lt_succ_of_lt (h.hooked.stored.1 cb hcb)) hdone
    refine hmore.fire ?_ ?_ ?_
    · intro k hk hmem
      rw [← Option.some.inj hk] at hmem
      exact Nat.lt_irrefl _ (h.hooked.known w.hooks (Or.inl hmem))
    · intro cb hcb
      rw [← Hook.close.inj (Option.some.inj hcb)]
      exact ⟨Nat.lt_succ_self _, haborted⟩
    · intro cb hcb
      cases hcb
  · rw [if_neg haborted]
    refine h.store (some w.hooks) w.sink.onDone ?_ hdone
    intro cb hcb
    rw [← Option.some.inj hcb]
    exact Nat.lt_succ_self _

/-- Every event keeps the invariant. -/
theorem Inv.step {ev : Event} (h : Inv w) (hstep : w.step ev = some w') : Inv w' := by
  cases ev with
  | write data =>
    cases hstep
    exact h.write data
  | «end» =>
    cases hstep
    exact h.end
  | abort =>
    cases hstep
    exact h.abort
  | onClose =>
    cases hstep
    exact h.onClose
  | setDone =>
    cases hstep
    exact h.setDone
  | resume c =>
    unfold SinkState.step at hstep
    dsimp only at hstep
    split at hstep
    · next b hb =>
        cases hstep
        exact h.resume hb
    · cases hstep
  | flushed c ok =>
    unfold SinkState.step at hstep
    dsimp only at hstep
    split at hstep
    · next hc =>
        cases hstep
        exact h.flushed hc
    · cases hstep

theorem inv_new : Inv ({} : SinkState) where
  log :=
    { fresh := fun _ _ => rfl
      asked := ⟨List.Pairwise.nil, nofun⟩
      worded := nofun
      frames := nofun
      inOrder := prefix_refl _
      terminator := by
        intro l c s r hl
        exact absurd hl.symm (by simp)
      flushing := nofun
      drained := nofun
      ended := nofun }
  turns := fun _ => ⟨none, none, rfl, Or.inl rfl, fun _ _ => rfl, rfl,
    fun _ => ⟨nofun, nofun⟩, fun _ _ => ⟨nofun, fun h => nomatch h.2⟩, fun _ => ⟨nofun, nofun⟩,
    nofun⟩
  closed := nofun
  hooked := ⟨nodup_nil, nofun, nofun, nofun, nofun, nofun, nofun⟩

/-! ## Every run -/

/-- What a sink owes the connection and its callers. -/
structure Framed (w : SinkState) : Prop where
  /-- whole chunks that are not empty, and at most one terminator, which is the last -/
  frames : ∃ (datas : List Str) (last : List Str),
    w.sent.map Prod.snd = datas.map chunkEncode ++ last ∧ (∀ d ∈ datas, d ≠ []) ∧
      (last = [] ∨ last = [chunkEnd])
  /-- turns are asked for in the order of the calls, and granted in that order; every frame
  is the frame of its call, and a call that drained has sent its own -/
  inOrder : w.requested.Pairwise (· < ·) ∧ w.sent.map Prod.fst <+: w.requested ∧
    (∀ e ∈ w.sent, e.2 = w.frame e.1) ∧ ∀ c ∈ w.drained, c ∈ w.sent.map Prod.fst
  /-- the completion hook: at most once, after a terminator that was drained -/
  done : (∀ cb cb', Hook.done cb ∈ w.fired → Hook.done cb' ∈ w.fired → cb = cb') ∧
    ∀ cb, Hook.done cb ∈ w.fired → ∃ c l, w.payload c = none ∧ c ∈ w.drained ∧
      w.sent = l ++ [(c, chunkEnd)]
  /-- every hook at most once, a close hook only after an abort -/
  close : w.fired.Nodup ∧ ∀ cb, Hook.close cb ∈ w.fired → w.sink.aborted = true
  /-- when the sink is closed no call waits for a turn that does not come; after the end
  none waits for a flush either, and after an abort at most one does -/
  settled : w.sink.isClosed = true → w.sink.turnQ = [] ∧ (∀ c, w.stage c ≠ .parked none) ∧
    (w.sink.endedFlag = true → ∀ c, w.stage c ≠ .flushing) ∧
    ∀ c c', w.stage c = .flushing → w.stage c' = .flushing → c = c'

/-- Frames of which only the last can be a terminator. -/
theorem Log.split_frames (h : Log w) : ∃ (datas : List Str) (last : List Str),
    w.sent.map Prod.snd = datas.map chunkEncode ++ last ∧ (∀ d ∈ datas, d ≠ []) ∧
      (last = [] ∨ last = [chunkEnd]) := by
  have hsplit : ∀ l : List (Nat × Str), (∀ e ∈ l, e ∈ w.sent) →
      (∀ l₁ c s r, l = l₁ ++ (c, s) :: r → w.payload c = none → r = []) →
      ∃ (datas : List Str) (last : List Str),
        l.map Prod.snd = datas.map chunkEncode ++ last ∧ (∀ d ∈ datas, d ≠ []) ∧
          (last = [] ∨ last = [chunkEnd]) := by
    intro l
    induction l with
    | nil =>
      intro _ _
      exact ⟨[], [], rfl, nofun, Or.inl rfl⟩
    | cons e l ih =>
      intro hsub hlast
      have hframe := h.frames e (hsub e mem_cons_self)
      unfold frame at hframe
      cases hp : w.payload e.1 with
      | none =>
        -- a terminator: nothing follows
        rw [hp] at hframe
        obtain rfl := hlast [] e.1 e.2 l rfl hp
        exact ⟨[], [chunkEnd], by simp [hframe], nofun, Or.inr rfl⟩
      | some data =>
        rw [hp] at hframe
        obtain ⟨datas, last, heq, hne, hor⟩ := ih
          (fun e' he' => hsub e' (mem_cons_of_mem e he'))
          (fun l₁ c s r hl hc => hlast (e :: l₁) c s r (by rw [hl]; rfl) hc)
        have hmem : e.1 ∈ w.requested :=
          h.inOrder.subset (mem_map_of_mem (hsub e mem_cons_self))
        refine ⟨data :: datas, last, by simp [hframe, heq], ?_, hor⟩
        intro d hd
        rcases List.mem_cons.mp hd with rfl | hd
        · intro hnil
          exact h.worded e.1 hmem (by rw [hp, hnil])
        · exact hne d hd
  exact hsplit w.sent (fun _ he => he) h.terminator

theorem Inv.framed (h : Inv w) : Framed w where
  frames := h.log.split_frames
  inOrder := ⟨h.log.asked.1, h.log.inOrder, h.log.frames, fun c hc => (h.log.drained c hc).2⟩
  done := ⟨h.hooked.once, fun cb hcb => h.log.ended (h.hooked.done cb hcb)⟩
  close := ⟨h.hooked.nodup, h.hooked.close⟩
  settled := by
    intro hclosed
    refine ⟨(h.closed hclosed).1, (h.closed hclosed).2, ?_, ?_⟩
    · intro hended c hc
      exact absurd (h.log.not_ended hc) (by rw [hended]; decide)
    · exact fun c c' hc hc' => h.log.flushing_unique hc hc'

theorem flushed_closed (h : Inv w) (hclosed : w.sink.isClosed = true) (c : Nat) (ok : Bool) :
    (w.flushed c ok).2.sink.isClosed = true ∧ (w.flushed c ok).2.sent = w.sent ∧
      (w.flushed c ok).2.stage c = .returned := by
  have hstage : (w.handover c (w.drainedBy c ok)).stage c = .returned := if_pos rfl
  have hflags : (w.handover c (w.drainedBy c ok)).sink.isClosed = true := hclosed
  have hempty : (w.handover c (w.drainedBy c ok)).sink.turnQ = [] := by
    show w.sink.turnQ.tail = []
    rw [(h.closed hclosed).1]
    rfl
  rw [flushed_eq]
  cases hp : w.payload c with
  | some data =>
    dsimp only
    split
    · exact ⟨hflags, rfl, hstage⟩
    · rw [abort_closed hflags]
      exact ⟨hflags, rfl, hstage⟩
  | none =>
    dsimp only
    split
    · rw [detach_eq]
      have hreturned : (if c ∈ (w.handover c (w.drainedBy c ok)).sink.turnQ
          then Stage.parked (some false) else (w.handover c (w.drainedBy c ok)).stage c) =
            .returned := by
        rw [hempty, if_neg (by simp)]
        exact hstage
      cases (w.handover c (w.drainedBy c ok)).sink.onDone with
      | none => exact ⟨rfl, rfl, hreturned⟩
      | some cb => exact ⟨rfl, rfl, hreturned⟩
    · rw [abort_closed hflags]
      exact ⟨hflags, rfl, hstage⟩

/-- A closed sink stays closed, sends nothing, and every call that goes on returns. -/
theorem Inv.step_closed {ev : Event} (h : Inv w) (hclosed : w.sink.isClosed = true)
    (hstep : w.step ev = some w') :
    w'.sink.isClosed = true ∧ w'.sent = w.sent ∧
      ∀ c, (ev = .resume c ∨ ∃ ok, ev = .flushed c ok) → w'.stage c = .returned := by
  have hother : ∀ {v : SinkState}, v.sink.isClosed = true → v.sent = w.sent →
      (∀ c, ev ≠ .resume c ∧ ∀ ok, ev ≠ .flushed c ok) →
      v.sink.isClosed = true ∧ v.sent = w.sent ∧
        ∀ c, (ev = .resume c ∨ ∃ ok, ev = .flushed c ok) → v.stage c = .returned := by
    intro v hv hsent hne
    refine ⟨hv, hsent, ?_⟩
    intro c hc
    rcases hc with hc | ⟨ok, hc⟩
    · exact absurd hc (hne c).1
    · exact absurd hc ((hne c).2 ok)
  cases ev with
  | write data =>
    cases hstep
    refine hother ?_ ?_ (fun c => ⟨nofun, nofun⟩)
    · unfold SinkState.write
      rw [if_pos hclosed]
      exact hclosed
    · unfold SinkState.write
      rw [if_pos hclosed]
      rfl
  | «end» =>
    cases hstep
    refine hother ?_ ?_ (fun c => ⟨nofun, nofun⟩)
    · unfold SinkState.end
      rw [if_pos hclosed]
      exact hclosed
    · unfold SinkState.end
      rw [if_pos hclosed]
      rfl
  | abort =>
    cases hstep
    rw [abort_closed hclosed]
    exact hother hclosed rfl (fun c => ⟨nofun, nofun⟩)
  | onClose =>
    cases hstep
    refine hother ?_ ?_ (fun c => ⟨nofun, nofun⟩)
    · unfold SinkState.onClose
      dsimp only
      split
      · exact hclosed
      · exact hclosed
    · unfold SinkState.onClose
      dsimp only
      split
      · rfl
      · rfl
  | setDone =>
    cases hstep
    exact hother hclosed rfl (fun c => ⟨nofun, nofun⟩)
  | resume c =>
    unfold SinkState.step at hstep
    dsimp only at hstep
    split at hstep
    · cases hstep
      unfold SinkState.resume
      rw [if_pos hclosed]
      dsimp only
      rw [release_setStage]
      refine ⟨hclosed, rfl, ?_⟩
      intro d hd
      rcases hd with hd | ⟨ok, hd⟩
      · rw [← Event.resume.inj hd]
        exact if_pos rfl
      · cases hd
    · cases hstep
  | flushed c ok =>
    unfold SinkState.step at hstep
    dsimp only at hstep
    split at hstep
    · cases hstep
      obtain ⟨hcl, hsent, hret⟩ := flushed_closed h hclosed c ok
      refine ⟨hcl, hsent, ?_⟩
      intro d hd
      rcases hd with hd | ⟨ok', hd⟩
      · cases hd
      · rw [← (Event.flushed.inj hd).1]
        exact hret
    · cases hstep

end SinkState

end Leviathan.Net
