import Leviathan.Lib.Runs
import Leviathan.MySql.Framing
import Leviathan.MySql.Proto

/-!
# The command pipeline of a connection

`Connection` of the MySQL package once it is ready: commands are queued, sent one at a time,
and answered by the packets that the socket brings.

A promise that is resolved calls back at once, and the callback may queue further commands
before the method that resolved the promise goes on.  So every method stops where it resolves
a promise, and what is left of it waits as a `Frame`.  A callback may do what any caller may
do, and it may itself wait, so that the methods that were left go on in any order.  It does not
throw.

The commands are numbered and a promise goes by the number of its command.
`runPreparedFlow` is such a caller: it queues a `prepare`, and an `execute` from the callback.
-/

namespace Leviathan.MySql

namespace Com

def QUIT : Int := 0x01
def QUERY : Int := 0x03
def PING : Int := 0x0E
def STMT_PREPARE : Int := 0x16

end Com

/-- What is asked of the server. -/
inductive Command where
  | text (sql : Bytes)
  | ping
  | prepare (sql : Bytes)
  /-- with the bytes of `encodeExecute` -/
  | execute (body : Bytes)
  deriving DecidableEq

/-- `Kind`. -/
inductive Kind where
  | text
  | execute
  | prepare
  deriving DecidableEq, Repr

namespace Command

def kind : Command → Kind
  | text _ => .text
  | ping => .text
  | prepare _ => .prepare
  | execute _ => .execute

/-- The payload that the command is sent as. -/
def payload : Command → Bytes
  | text sql => Wire.wU8 Com.QUERY ++ sql
  | ping => Wire.wU8 Com.PING
  | prepare sql => Wire.wU8 Com.STMT_PREPARE ++ sql
  | execute body => body

end Command

/-- `CommandResult`, by the helper that builds it. -/
inductive CommandResult (V : Type) where
  | ok (o : OkPacket)
  | resultSet (columns : List ColumnDef) (rows : List (List V)) (status : Nat)
  | failed (e : MySqlException)
  | prepared (stmtId numParams numColumns : Nat)

/-- `Sub`. -/
inductive Sub where
  | first
  | columns
  | rows
  | prepParams
  | prepColumns
  deriving DecidableEq, Repr

/-- `CommandState`. -/
structure CommandState (V : Type) where
  promise : Nat
  kind : Kind
  deprecateEof : Bool
  sub : Sub := .first
  columnCount : Nat := 0
  columns : List ColumnDef := []
  rows : List (List V) := []
  prepStmtId : Nat := 0
  prepNumParams : Nat := 0
  prepNumColumns : Nat := 0
  prepRemaining : Nat := 0

/-- What a packet does to the command it answers. -/
inductive Dispatched (V : Type) where
  | more (c : CommandState V)
  /-- `completeCmd`, after `trackTrans` if the packet has a status -/
  | done (r : CommandResult V) (status : Option Nat)

namespace CommandState

variable {V : Type} (cells : Cells V)

def classifyErr (p : Bytes) : Except Exn MySqlException := do
  let e ← Proto.parseErr p
  return Errors.classify e.errno e.sqlstate e.message

/-- `completePrepare`. -/
def completePrepare (c : CommandState V) : Dispatched V :=
  .done (.prepared c.prepStmtId c.prepNumParams c.prepNumColumns) none

/-- `afterPrepParams`. -/
def afterPrepParams (c : CommandState V) : Dispatched V :=
  if c.prepNumColumns > 0 then
    .more { c with sub := .prepColumns, prepRemaining := c.prepNumColumns }
  else c.completePrepare

/-- `onPreparePacket`. -/
def onPreparePacket (c : CommandState V) (p : Bytes) : Except Exn (Dispatched V) :=
  match c.sub with
  | .first =>
    if Proto.isErr p then return .done (.failed (← classifyErr p)) none
    else do
      let c := { c with prepStmtId := ← Wire.u32 p 1 }
      let c := { c with prepNumColumns := ← Wire.u16 p 5 }
      let c := { c with prepNumParams := ← Wire.u16 p 7 }
      if c.prepNumParams > 0 then
        return .more { c with sub := .prepParams, prepRemaining := c.prepNumParams }
      else if c.prepNumColumns > 0 then
        return .more { c with sub := .prepColumns, prepRemaining := c.prepNumColumns }
      else return c.completePrepare
  | .prepParams =>
    if c.prepRemaining > 0 then
      let c := { c with prepRemaining := c.prepRemaining - 1 }
      if c.prepRemaining = 0 ∧ c.deprecateEof then return c.afterPrepParams
      else return .more c
    else return c.afterPrepParams
  | .prepColumns =>
    if c.prepRemaining > 0 then
      let c := { c with prepRemaining := c.prepRemaining - 1 }
      if c.prepRemaining = 0 ∧ c.deprecateEof then return c.completePrepare
      else return .more c
    else return c.completePrepare
  | _ => return .more c

/-- `dispatchCommand` where no packet has come before. -/
def onFirst (c : CommandState V) (p : Bytes) : Except Exn (Dispatched V) :=
  if Proto.isErr p then return .done (.failed (← classifyErr p)) none
  else if Proto.isLocalInfile p then
    return .done (.failed
      (.protocol "LOCAL INFILE requested by server — rejected (§0 security)")) none
  else if Proto.isOk p c.deprecateEof then do
    let o ← Proto.parseOk p
    return .done (.ok o) (some o.statusFlags)
  else do
    let cnt ← Wire.readLenenc p 0
    return .more { c with columnCount := cnt.value, columns := [], sub := .columns }

/-- `dispatchCommand` among the column definitions. -/
def onColumn (c : CommandState V) (p : Bytes) : Except Exn (Dispatched V) :=
  if !c.deprecateEof && Proto.isEof p then return .more { c with sub := .rows }
  else do
    let c := { c with columns := c.columns ++ [← Proto.parseColumnDef p] }
    if c.columns.length = c.columnCount ∧ c.deprecateEof then return .more { c with sub := .rows }
    else return .more c

/-- The status of the packet that ends the rows. -/
def endStatus (deprecateEof : Bool) (p : Bytes) : Except Exn Nat :=
  if deprecateEof then return (← Proto.parseOk p).statusFlags
  else if p.length ≥ 5 then Wire.u16 p 3
  else return 0

/-- `decodeBinaryRow` or `decodeTextRow`. -/
def decodeRow (kind : Kind) (p : Bytes) (columns : List ColumnDef) : Except Exn (List V) :=
  if kind = .execute then cells.decodeBinaryRow p columns else cells.decodeTextRow p columns

/-- `dispatchCommand` among the rows. -/
def onRow (c : CommandState V) (p : Bytes) : Except Exn (Dispatched V) :=
  if Proto.isErr p then return .done (.failed (← classifyErr p)) none
  else do
    if (← byteAt p 0) = 0xFE ∧ p.length < 9 then
      let status ← endStatus c.deprecateEof p
      return .done (.resultSet c.columns c.rows status) (some status)
    else
      return .more { c with rows := c.rows ++ [← decodeRow cells c.kind p c.columns] }

/-- `dispatchCommand`. -/
def dispatchCommand (c : CommandState V) (p : Bytes) : Except Exn (Dispatched V) :=
  if c.kind = .prepare then c.onPreparePacket p
  else
    match c.sub with
    | .first => c.onFirst p
    | .columns => c.onColumn p
    | _ => c.onRow cells p

end CommandState

/-- What is left of a method that has resolved a promise. -/
inductive Frame where
  /-- `completeCmd`: the pump -/
  | pump
  /-- a starter on a broken connection: `busy` is cleared, then the pump -/
  | unbusy
  /-- `fatal`: the queue and the socket -/
  | drainQueue
  /-- the loop of `fatal` over the commands that were still queued -/
  | failEach (rest : List Nat)

/-- The fields of `Connection` that commands use, what is left of the methods under way, the
packets that have come but were not looked at, and a history. -/
structure Connection (V : Type) where
  deprecateEof : Bool
  asm : PacketAssembler := .new
  seq : Nat := 0
  broken : Bool := false
  closed : Bool := false
  inTrans : Bool := false
  sockOpen : Bool := true
  cmd : Option (CommandState V) := none
  queue : List Nat := []
  busy : Bool := false
  frames : List Frame := []
  inbox : List SinkCall := []
  /-- all commands that were queued -/
  commands : List Command := []
  /-- what each promise was resolved with -/
  results : Nat → List (CommandResult V) := fun _ => []
  /-- the commands that were sent, and all bytes that were -/
  sent : List Nat := []
  output : Bytes := []
  /-- the bytes that came, and the packets that were looked at -/
  received : Bytes := []
  delivered : List SinkCall := []

namespace Connection

variable {V : Type} (cells : Cells V)

def push (w : Connection V) (f : Frame) : Connection V := { w with frames := f :: w.frames }

def resolve (w : Connection V) (p : Nat) (r : CommandResult V) : Connection V :=
  { w with results := Function.update w.results p (w.results p ++ [r]) }

/-- `sendPacket`, with `startCommand` before it. -/
def sendPacket (w : Connection V) (payload : Bytes) : Connection V :=
  { w with
    seq := Framing.packetCount payload.length % 256
    output := if w.sockOpen then w.output ++ Framing.encode payload 0 else w.output }

/-- The new `CommandState`, and the packet of the command. -/
def sendCommand (w : Connection V) (p : Nat) (command : Command) : Connection V :=
  { w with
    cmd := some { promise := p, kind := command.kind, deprecateEof := w.deprecateEof }
    sent := w.sent ++ [p] }.sendPacket command.payload

/-- `beginText`, `beginPing`, `beginPrepare` and `beginExecute`. -/
def begin (w : Connection V) (p : Nat) : Connection V :=
  if w.broken then
    (w.resolve p (.failed (.connectionLost "connection is broken"))).push .unbusy
  else
    match w.commands[p]? with
    | some command => w.sendCommand p command
    | none => w

/-- `pump`. -/
def pump (w : Connection V) : Connection V :=
  if w.busy then w
  else
    match w.queue with
    | [] => w
    | p :: rest => { w with busy := true, queue := rest }.begin p

/-- `runText`, `runPing`, `runPrepare` and `runExecute`: `enqueue`. -/
def enqueue (w : Connection V) (command : Command) : Connection V :=
  { w with
    commands := w.commands ++ [command]
    queue := w.queue ++ [w.commands.length] }.pump

/-- `completeCmd`. -/
def completeCmd (w : Connection V) (r : CommandResult V) : Connection V :=
  match w.cmd with
  | some c => ({ w with cmd := none, busy := false }.resolve c.promise r).push .pump
  | none => { w with busy := false }.pump

/-- The loop of `fatal` over the queue, and the socket after it. -/
def failEach (w : Connection V) : List Nat → Connection V
  | [] => { w with sockOpen := false }
  | p :: rest => (w.push (.failEach rest)).begin p

/-- `fatal`, after the command in flight. -/
def drainQueue (w : Connection V) : Connection V := { w with queue := [] }.failEach w.queue

/-- `fatal`, on a connection that is ready. -/
def fatal (w : Connection V) (e : MySqlException) : Connection V :=
  match w.cmd with
  | some c =>
    ({ w with broken := true, cmd := none, busy := false }.resolve c.promise (.failed e)).push
      .drainQueue
  | none => { w with broken := true }.drainQueue

/-- `onClose`. -/
def onClose (w : Connection V) : Connection V :=
  if w.closed then w
  else if w.broken then w
  else w.fatal (.connectionLost "connection closed by peer")

/-- `trackTrans`, where there is a status. -/
def trackTrans (w : Connection V) : Option Nat → Connection V
  | some status => { w with inTrans := status &&& 1 ≠ 0 }
  | none => w

/-- `onCommandPacket`, with the handlers of `onPacket`. -/
def onCommandPacket (w : Connection V) (p : Bytes) : Connection V :=
  match w.cmd with
  | none => w
  | some c =>
    match c.dispatchCommand cells p with
    | .error e => w.fatal (.ofExn e)
    | .ok (.more c') => { w with cmd := some c' }
    | .ok (.done r status) => (w.trackTrans status).completeCmd r

/-- `onPacket`, in the command phase. -/
def onPacket (w : Connection V) (call : SinkCall) : Connection V :=
  if call.1 ≠ w.seq then
    w.fatal (.protocol s!"sequence desync: expected {w.seq} got {call.1}")
  else { w with seq := (call.1 + 1) % 256 }.onCommandPacket cells call.2

/-- `close`. -/
def close (w : Connection V) : Connection V :=
  if w.closed then w
  else if !w.broken && w.sockOpen then
    { w with
      closed := true
      seq := 0
      output := w.output ++ Framing.encode (Wire.wU8 Com.QUIT) 0
      sockOpen := false }
  else { w with closed := true, sockOpen := false }

/-- The method that was left goes on. -/
def resume (w : Connection V) : Frame → Connection V
  | .pump => w.pump
  | .unbusy => { w with busy := false }.pump
  | .drainQueue => w.drainQueue
  | .failEach rest => w.failEach rest

/-- What can happen to a connection. -/
inductive Event where
  | enqueue (command : Command)
  | close
  /-- the callback of a promise is done, and the method that resolved it goes on -/
  | resume (i : Nat)
  | receive (chunk : Bytes)
  /-- the next packet is looked at -/
  | deliver
  /-- the peer closes the connection, or it breaks -/
  | onClose

/-- One event. -/
def step (w : Connection V) : Event → Option (Connection V)
  | .enqueue command => some (w.enqueue command)
  | .close => some w.close
  | .resume i =>
    match w.frames[i]? with
    | some f => some ({ w with frames := w.frames.eraseIdx i }.resume f)
    | none => none
  | .receive chunk =>
    if w.sockOpen then
      match w.asm.feed chunk with
      | .ok (asm, calls) =>
        some { w with asm, inbox := w.inbox ++ calls, received := w.received ++ chunk }
      | .error _ => none
    else none
  | .deliver =>
    match w.inbox with
    | call :: rest =>
      some ({ w with inbox := rest, delivered := w.delivered ++ [call] }.onPacket cells call)
    | [] => none
  | .onClose => some w.onClose

/-- A connection that is ready for commands. -/
def ready (deprecateEof : Bool) : Connection V := { deprecateEof }

end Connection

end Leviathan.MySql
