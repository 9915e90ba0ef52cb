import Leviathan.Net.HttpMessages
import Leviathan.Net.ChunkedSink
import Leviathan.Net.TcpFrame

/-!
# A server-side connection

`HttpConnection` of the prelude over a `TcpStream` and the `ChunkedSink` of each streaming
response.

The code of `feed` that answers a request runs as one task, the responder, from one `await`
to the next: it waits for the handler, for the flush of the head, and for the writer of a
streaming response.  The calls on a sink are tasks of their own.  Whatever the handler, the
writer and the other tasks do, they do by events: the handler returns or throws, the writer
returns or throws, and anybody who has a sink calls its methods.  A flush yields what the
promise of the stream was resolved with.
-/

namespace Leviathan.Net

/-- The fields of `HttpConnection`; `sink` has the number of the live sink. -/
structure HttpConnection where
  conn : Socket
  req : HttpRequest := {}
  closed : Bool := false
  served : Int := 0
  maxRequests : Int := 100
  /-- 0 reading, 1 responding, 2 streaming, 3 closed -/
  state : Nat := 0
  sink : List Nat := []
  inWriter : Bool := false
  endReached : Bool := false
  streamKeep : Bool := false

/-- What the responder does after the flush of a head. -/
inductive Next where
  | buffered (wantKeep : Bool)
  | headOnly (wantKeep : Bool)
  | commit (wantKeep : Bool)
  deriving DecidableEq

/-- Where the responder waits. -/
inductive Responder where
  | handling
  | flushing (r : FlushResult) (next : Next)
  | writing
  deriving DecidableEq

/-- A connection with its sinks, its tasks and its history: the number of the request, the
requests whose handler was run, and those for which a head was sent. -/
structure Http where
  self : HttpConnection
  sinks : List SinkState := []
  /-- what the flush of a call on a sink gave -/
  waits : Nat → Nat → FlushResult := fun _ _ => .returns false
  responder : Option Responder := none
  generation : Nat := 0
  runs : List Nat := []
  heads : List Nat := []

namespace Http

/-- `new HttpConnection` and `start`: callback 0 is `feed`, callback 1 is `peerClosed`. -/
def new (fd : Nat) : Http := { self := { conn := ((Socket.new fd).onData 0).onClose 1 } }

/-- `closeConn`. -/
def closeConn (w : Http) : Http :=
  if w.self.closed then w
  else { w with self := { w.self with closed := true, state := 3, conn := w.self.conn.close } }

/-- The next request is read. -/
def rearm (w : Http) : Http :=
  { w with
    self := { w.self with served := w.self.served + 1, req := {}, state := 0 }
    generation := w.generation + 1 }

/-- `abortStream`. -/
def abortStream (w : Http) : Http :=
  match w.self.sink with
  | k :: _ =>
    { w with
      self := { w.self with sink := [] }
      sinks := w.sinks.modify k fun s => s.abort.2 }.closeConn
  | [] => w.closeConn

/-- `completeStream`. -/
def completeStream (w : Http) : Http :=
  if w.self.state ≠ 2 then w
  else
    let w := { w with self := { w.self with sink := [] } }
    if w.self.streamKeep then w.rearm else w.closeConn

/-- `streamEnded`. -/
def streamEnded (w : Http) : Http :=
  let w := { w with self := { w.self with endReached := true } }
  if w.self.inWriter then w else w.completeStream

/-- `peerClosed`. -/
def peerClosed (w : Http) : Http :=
  if w.self.closed then w
  else if w.self.state = 2 then w.abortStream
  else w.closeConn

/-- `feed`, up to the call of the handler. -/
def feed (w : Http) (chunk : Str) : Http :=
  if w.self.closed then w
  else if w.self.state = 1 then if 0 < chunk.length then w.closeConn else w
  else if w.self.state = 2 then if 0 < chunk.length then w.abortStream else w
  else
    let (full, req) := w.self.req.feed chunk
    if full then
      { w with
        self := { w.self with req, state := 1 }
        responder := some .handling
        runs := w.runs ++ [w.generation] }
    else { w with self := { w.self with req } }

/-- A head is sent, and the responder waits for its flush. -/
def sendHead (w : Http) (bytes : Str) (next : Next) (reply : Reply) : Http :=
  let (r, conn) := (w.self.conn.send bytes reply).flush
  { w with
    self := { w.self with conn }
    responder := some (.flushing r next)
    heads := w.heads ++ [w.generation] }

/-- `finishBuffered`, up to the flush; an exception of `render` leaves `feed`. -/
def finishBuffered (w : Http) (resp : HttpResponse) (wantKeep : Bool) (reply : Reply) : Http :=
  match { resp with keepAlive := wantKeep }.render with
  | some bytes => w.sendHead bytes (.buffered wantKeep) reply
  | none => { w with responder := none }

/-- A response that has no body. -/
def bodyless (req : HttpRequest) (resp : HttpResponse) : Bool :=
  req.method = "HEAD".toList || resp.status = 204 || resp.status = 304 ||
    (100 ≤ resp.status && resp.status < 200)

/-- `startStream`, up to the flush of the head. -/
def startStream (w : Http) (resp : HttpResponse) (wantKeep : Bool) (reply : Reply) : Http :=
  if w.self.req.version ≠ "HTTP/1.1".toList then
    w.finishBuffered (HttpResponse.new 505 "") false reply
  else if bodyless w.self.req resp then
    w.sendHead (resp.renderHeadOnly wantKeep) (.headOnly wantKeep) reply
  else w.sendHead (resp.renderStreamHead wantKeep) (.commit wantKeep) reply

/-- `feed` from the outcome of the handler on; none for an exception. -/
def handled (w : Http) (outcome : Option HttpResponse) (reply : Reply) : Http :=
  let resp := outcome.getD (HttpResponse.new 500 "Internal Server Error")
  let ok := outcome.isSome
  let wantKeep := ok && toLower (w.self.req.header "Connection".toList) ≠ "close".toList &&
    w.self.served < w.self.maxRequests
  if ok && resp.isStreaming then w.startStream resp wantKeep reply
  else w.finishBuffered resp wantKeep reply

/-- After the head of a response that is complete with it. -/
def finished (w : Http) (sent wantKeep : Bool) : Http :=
  let w := { w with responder := none }
  if !sent then w.closeConn else if wantKeep then w.rearm else w.closeConn

/-- After the head of a stream: the sink is made and the writer is called. -/
def committed (w : Http) (sent wantKeep : Bool) : Http :=
  if !sent then { w with responder := none }.closeConn
  else
    { w with
      self := { w.self with
        state := 2
        streamKeep := wantKeep
        endReached := false
        sink := [w.sinks.length]
        inWriter := true }
      sinks := w.sinks ++ [SinkState.setDone {}]
      responder := some .writing }

/-- The responder after the flush of a head. -/
def flushedHead (w : Http) (sent : Bool) : Next → Http
  | .buffered wantKeep => w.finished sent wantKeep
  | .headOnly wantKeep => w.finished sent wantKeep
  | .commit wantKeep => w.committed sent wantKeep

/-- `startStream` from the outcome of the writer on. -/
def written (w : Http) (threw : Bool) : Http :=
  let w := { w with self := { w.self with inWriter := false }, responder := none }
  if threw then w.abortStream
  else if w.self.endReached then w.completeStream
  else w

/-- The callback that `pump` runs. -/
def callback (w : Http) : Option (Nat × Option Str) → Http
  | some (0, some data) => w.feed data
  | some (1, none) => w.peerClosed
  | _ => w

/-- The read-watch wakes up. -/
def received (w : Http) (chunk : Option Str) : Http :=
  { w with self := { w.self with conn := (w.self.conn.pump chunk).2 } }.callback
    (w.self.conn.pump chunk).1

def setSink (w : Http) (k : Nat) (s : SinkState) : Http := { w with sinks := w.sinks.set k s }

/-- A call on a sink goes from its turn to its flush. -/
def sinkResume (w : Http) (k : Nat) (s : SinkState) (c : Nat) (reply : Reply) : Http :=
  match s.resume c with
  | (none, s') => w.setSink k s'
  | (some frame, s') =>
    let (r, conn) := (w.self.conn.send frame reply).flush
    { w with
      self := { w.self with conn }
      waits := fun k' c' => if k' = k ∧ c' = c then r else w.waits k' c' }.setSink k s'

/-- A call on a sink goes from its flush to its end; the completion hook is `streamEnded`. -/
def sinkFlushed (w : Http) (k : Nat) (s : SinkState) (c : Nat) (ok : Bool) : Http :=
  match s.flushed c ok with
  | (some (.done _), s') => (w.setSink k s').streamEnded
  | (_, s') => w.setSink k s'

/-- What a flush has yielded, if it has. -/
def yielded (conn : Socket) : FlushResult → Option Bool
  | .returns ok => some ok
  | .parks p => conn.promises[p]?.bind fun q => q.results.head?

/-- A call of a method of a sink. -/
inductive SinkCall where
  | write (data : Str)
  | end
  | abort
  | onClose

def SinkCall.run (s : SinkState) : SinkCall → SinkState
  | .write data => s.write data
  | .end => s.end
  | .abort => s.abort.2
  | .onClose => s.onClose

/-- What can happen to a connection. -/
inductive Event where
  | received (chunk : Option Str)
  | drain (reply : Reply)
  | handled (outcome : Option HttpResponse) (reply : Reply)
  | flushedHead
  | written (threw : Bool)
  | sinkCall (k : Nat) (call : SinkCall)
  | sinkResume (k c : Nat) (reply : Reply)
  | sinkFlushed (k c : Nat)

/-- One event; a task goes on only where it waits for what has come. -/
def step (w : Http) : Event → Option Http
  | .received chunk => some (w.received chunk)
  | .drain reply =>
    some { w with self := { w.self with conn := w.self.conn.drain reply } }
  | .handled outcome reply =>
    match w.responder with
    | some .handling => some (w.handled outcome reply)
    | _ => none
  | .flushedHead =>
    match w.responder with
    | some (.flushing r next) => (yielded w.self.conn r).map fun sent => w.flushedHead sent next
    | _ => none
  | .written threw =>
    match w.responder with
    | some .writing => some (w.written threw)
    | _ => none
  | .sinkCall k call => w.sinks[k]?.map fun s => w.setSink k (call.run s)
  | .sinkResume k c reply =>
    match w.sinks[k]? with
    | none => none
    | some s =>
      match s.stage c with
      | .parked (some _) => some (w.sinkResume k s c reply)
      | _ => none
  | .sinkFlushed k c =>
    match w.sinks[k]? with
    | none => none
    | some s =>
      match s.stage c with
      | .flushing => (yielded w.self.conn (w.waits k c)).map fun ok => w.sinkFlushed k s c ok
      | _ => none

end Http

end Leviathan.Net
