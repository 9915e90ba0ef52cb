import Leviathan.Lib.History
import Leviathan.Lib.Text

/-!
# Sessions

`SessionStrategy` of Atlantis over a session store, with `ensurePreSession` and
`putSessionRecord`.  A request is a task; between two awaits a task runs alone, and each operation
of the store is one step, some time after the task has asked for it.

The store is a map from session ids to records.  The hash, the decoder of the signature and
`string.toInt` are parameters, and no result asks anything of them: a cookie opens a session when
they say so.  What a request carries besides its cookie, and what it gets back besides the
principal, is left out.
-/

namespace Leviathan.Auth

variable {P : Type}

/-- An `int` has 64 bits. -/
def wrap (n : Int) : Int := n.bmod (2 ^ 64)

/-- `SessionConfig`. -/
structure SessionConfig where
  key : Str
  ttlSec : Int
  absoluteMaxSec : Int

/-- `digest::hmacSha256`, `encoding::base64UrlDecode` and `string.toInt`. -/
structure Primitives where
  hmacSha256 : Str → Str → Str
  base64UrlDecode : Str → Option Str
  toInt : Str → Option Int

/-- `SessionRecord`. -/
structure SessionRecord (P : Type) where
  principal : Option P
  csrfToken : Str
  createdAtMs : Int
  expiresAtMs : Int
  flash : List (Str × Str) := []

/-- `constantTimeEquals`. -/
def constantTimeEquals (a b : Str) : Bool :=
  let byteAt (s : Str) (i : Nat) : Nat := (s[i]?.map Char.toNat).getD 0
  let diff := (List.range a.length).foldl (fun diff i =>
    diff ||| (byteAt a i ^^^ if 0 < b.length then byteAt b (i % b.length) else 0))
    (a.length ^^^ b.length)
  diff = 0

section Envelope

variable (prim : Primitives) (cfg : SessionConfig)

def envelopeSigOk (sid expStr presentedSigB64 : Str) : Bool :=
  let expectedSig := prim.hmacSha256 cfg.key ("v1.".toList ++ sid ++ ".".toList ++ expStr)
  let presentedSig := (prim.base64UrlDecode presentedSigB64).getD []
  constantTimeEquals expectedSig presentedSig

/-- The session id and the expiry of a cookie whose signature verifies. -/
def verifiedEnvelope (raw : Str) : Option (Str × Str) :=
  if raw = [] then none
  else match raw.splitOn '.' with
    | [version, sid, expStr, sig] =>
      if version ≠ "v1".toList then none
      else if envelopeSigOk prim cfg sid expStr sig then some (sid, expStr)
      else none
    | _ => none

/-- `verifiedSidOf`; none stands for the empty string. -/
def verifiedSidOf (raw : Str) : Option Str :=
  (verifiedEnvelope prim cfg raw).bind fun e => if e.1 = [] then none else some e.1

/-- The first half of `authenticate`: the session id that it looks up. -/
def openEnvelope (raw : Str) (nowMs : Int) : Option Str :=
  (verifiedEnvelope prim cfg raw).bind fun e =>
    if (prim.toInt e.2).getD 0 ≤ nowMs then none else some e.1

end Envelope

/-- What `authenticate` does with the answer of the store. -/
inductive Looked (P : Type) where
  | refused
  | live (principal : P)
  | extend (principal : P) (found updated : SessionRecord P)

/-- The second half of `authenticate`. -/
def look (cfg : SessionConfig) (nowMs : Int) (recOpt : Option (SessionRecord P)) : Looked P :=
  match recOpt with
  | none => .refused
  | some record =>
    if record.expiresAtMs ≤ nowMs then .refused
    else match record.principal with
      | none => .refused
      | some principal =>
        let halfTtlMs := (wrap (cfg.ttlSec * 1000)).tdiv 2
        if wrap (record.expiresAtMs - nowMs) < halfTtlMs then
          let extended := wrap (nowMs + wrap (cfg.ttlSec * 1000))
          let cap := wrap (record.createdAtMs + wrap (cfg.absoluteMaxSec * 1000))
          let newExp := if extended < cap then extended else cap
          .extend principal record {
            principal := record.principal, csrfToken := record.csrfToken,
            createdAtMs := record.createdAtMs, expiresAtMs := newExp }
        else .live principal

/-- The record that `issue` and `ensurePreSession` store. -/
def newRecord (cfg : SessionConfig) (principal : Option P) (csrfToken : Str) (nowMs : Int) :
    SessionRecord P :=
  { principal := principal, csrfToken := csrfToken, createdAtMs := nowMs,
    expiresAtMs := wrap (nowMs + wrap (cfg.ttlSec * 1000)) }

/-! ## Tasks and the store -/

/-- Where a task stands.  A task that awaits the store has not had its answer yet.  An
`authenticate` that extends a session still knows the record that it found. -/
inductive Task (P : Type) where
  | unborn
  /-- `authenticate` awaits `get`, then `put`, then it is about to return -/
  | authGet (sid : Str) (nowMs : Int)
  | authPut (sid : Str) (nowMs : Int) (principal : P) (found updated : SessionRecord P)
  | authDone (sid : Str) (nowMs : Int) (principal : P)
  /-- `issue` awaits `remove`, then it makes a session -/
  | issueRemove (oldSid : Str) (principal : P)
  | issueMake (principal : P)
  | revokeRemove (sid : Str)
  /-- a new session awaits its `put` -/
  | newPut (sid : Str) (record : SessionRecord P)
  /-- `putSessionRecord` awaits its `put` -/
  | recordPut (sid : Str) (record : SessionRecord P)
  | ended

/-- What a history tells of. -/
inductive Entry (P : Type) where
  | began (task : Nat) (sid : Str)
  | succeeded (task : Nat) (sid : Str) (nowMs : Int) (principal : P)
  /-- a new session id, and the creation time of its session -/
  | drawn (sid : Str) (createdAtMs : Int)
  /-- `revoke`, or `issue` for the old session, has removed a session -/
  | removed (sid : Str)
  /-- the rolling extension has stored a record, over this one -/
  | extended (sid : Str) (old : Option (SessionRecord P)) (new : SessionRecord P)

/-- The store, the tasks and the history, newest first. -/
structure World (P : Type) where
  store : Str → Option (SessionRecord P) := fun _ => none
  task : Nat → Task P := fun _ => .unborn
  log : List (Entry P) := []

/-- What can happen: a request begins, a session is made, a task has its answer from the store, an
`authenticate` returns, the store is swept. -/
inductive Label (P : Type) where
  | authenticate (t : Nat) (raw : Str) (nowMs : Nat)
  | issue (t : Nat) (raw : Str) (principal : P)
  | revoke (t : Nat) (raw : Str)
  | ensurePreSession (t : Nat) (raw sid csrfToken : Str) (nowMs : Nat)
  | putSessionRecord (t : Nat) (raw : Str) (record : SessionRecord P)
  | make (t : Nat) (sid csrfToken : Str) (nowMs : Nat)
  | answer (t : Nat)
  | finish (t : Nat)
  | sweep (nowMs : Nat)

namespace World

def become (w : World P) (t : Nat) (x : Task P) : World P :=
  { w with task := Function.update w.task t x }

def note (w : World P) (x : Entry P) : World P := { w with log := x :: w.log }

def put (w : World P) (sid : Str) (record : SessionRecord P) : World P :=
  { w with store := Function.update w.store sid (some record) }

/-- `remove`, for a `revoke` or an `issue`. -/
def remove (w : World P) (sid : Str) : World P :=
  let w' := { w with store := Function.update w.store sid none }
  if (w.store sid).isSome then w'.note (.removed sid) else w'

variable (prim : Primitives) (cfg : SessionConfig)

/-- A task has its answer from the store, and runs on to its next await. -/
def answered (w : World P) (t : Nat) : Option (World P) :=
  match w.task t with
  | .authGet sid nowMs =>
    match look cfg nowMs (w.store sid) with
    | .refused => some (w.become t .ended)
    | .live principal => some (w.become t (.authDone sid nowMs principal))
    | .extend principal found updated =>
      some (w.become t (.authPut sid nowMs principal found updated))
  | .authPut sid nowMs principal _ updated =>
    some (((w.put sid updated).note (.extended sid (w.store sid) updated)).become t
      (.authDone sid nowMs principal))
  | .issueRemove oldSid principal => some ((w.remove oldSid).become t (.issueMake principal))
  | .revokeRemove sid => some ((w.remove sid).become t .ended)
  | .newPut sid record | .recordPut sid record => some ((w.put sid record).become t .ended)
  | _ => none

/-- A task begins, and runs on to its first await. -/
def begin (w : World P) (t : Nat) (x : Task P) : Option (World P) :=
  match w.task t with
  | .unborn => some (w.become t x)
  | _ => none

/-- One step; none when it cannot happen. -/
def step (w : World P) : Label P → Option (World P)
  | .authenticate t raw nowMs =>
    match openEnvelope prim cfg raw nowMs with
    | none => w.begin t .ended
    | some sid => (w.begin t (.authGet sid nowMs)).map fun w => w.note (.began t sid)
  | .issue t raw principal =>
    match verifiedSidOf prim cfg raw with
    | none => w.begin t (.issueMake principal)
    | some oldSid => w.begin t (.issueRemove oldSid principal)
  | .revoke t raw =>
    match verifiedSidOf prim cfg raw with
    | none => w.begin t .ended
    | some sid => w.begin t (.revokeRemove sid)
  | .ensurePreSession t raw sid csrfToken nowMs =>
    match verifiedSidOf prim cfg raw with
    | some _ => w.begin t .ended
    | none => (w.begin t (.newPut sid (newRecord cfg none csrfToken nowMs))).map fun w =>
      w.note (.drawn sid nowMs)
  | .putSessionRecord t raw record =>
    match verifiedSidOf prim cfg raw with
    | none => w.begin t .ended
    | some sid => w.begin t (.recordPut sid record)
  | .make t sid csrfToken nowMs =>
    match w.task t with
    | .issueMake principal =>
      some ((w.become t (.newPut sid (newRecord cfg (some principal) csrfToken nowMs))).note
        (.drawn sid nowMs))
    | _ => none
  | .answer t => w.answered cfg t
  | .finish t =>
    match w.task t with
    | .authDone sid nowMs principal =>
      some ((w.become t .ended).note (.succeeded t sid nowMs principal))
    | _ => none
  | .sweep nowMs =>
    -- `removeExpired`
    some { w with store := fun sid => (w.store sid).filter fun record => nowMs < record.expiresAtMs }

end World

end Leviathan.Auth
