import Leviathan.Lib.Runs
import Leviathan.Lib.Text

/-!
# The connection pool

`Pool` and `PooledConnection` of the MySQL package.  A pool keeps idle connections, counts the
connections it has or opens, and makes callers wait when it may open no more.

Every call of `acquire` is a task that runs from one `await` to the next: it waits for a ping,
for a connect, or as a waiter of the pool.  A connection and its wrapper are made together and
go by one number.  A task that got a connection may close it, and may close it again later.
The results of pings and connects, the time, the timers and the calls come from outside.
-/

namespace Leviathan.MySql

/-- Why an `acquire` failed. -/
inductive Failure where
  | mySql (message : String)
  | poolTimeout (message : String)
  | connectionLost (message : String)
  /-- the exception of the driver's `connect` -/
  | driver
  deriving DecidableEq

/-- `PooledConnection`. -/
structure PooledConnection where
  released : Bool := false
  idleSince : Int := 0

/-- Where a task stands. -/
inductive Stage where
  /-- inside of `acquire` -/
  | running
  | pinging (c : Nat)
  | connecting
  /-- a waiter, with its `settled` flag and what its promise was resolved with -/
  | waiting (settled : Bool) (results : List (Except Failure Nat))
  | holding (c : Nat)
  /-- it closed its connection -/
  | released (c : Nat)
  | failed (e : Failure)

/-- The fields of `Pool` and of its options; a waiter goes by the number of its task. -/
structure Pool where
  maxConnections : Int
  pingAfterIdleMs : Int
  acquireTimeoutMs : Int
  maxWaiters : Int
  idle : List Nat := []
  total : Int := 0
  waiters : List Nat := []
  draining : Bool := false
  drainPromise : Nat := 0
  drainPending : Bool := false

/-- A pool with its connections and the tasks that call it, and its history: who became a
waiter, who was served or rejected, who ran out of time, and how often each promise of a
`drain` was resolved. -/
structure Pooled where
  pool : Pool
  wrapper : Nat → PooledConnection := fun _ => {}
  broken : Nat → Bool := fun _ => false
  inTrans : Nat → Bool := fun _ => false
  connections : Nat := 0
  closed : List Nat := []
  rollbacks : List Nat := []
  tasks : List Stage := []
  /-- the connects of `serveWaitersOrReplace` under way -/
  replacing : Nat := 0
  arrivals : List Nat := []
  served : List Nat := []
  expired : List Nat := []
  drains : List Nat := []

namespace Pooled

def setTask (w : Pooled) (t : Nat) (stage : Stage) : Pooled := { w with tasks := w.tasks.set t stage }

def setIdle (w : Pooled) (idle : List Nat) : Pooled := { w with pool := { w.pool with idle } }

def addTotal (w : Pooled) (n : Int) : Pooled :=
  { w with pool := { w.pool with total := w.pool.total + n } }

/-- `reopen`. -/
def reopen (w : Pooled) (c : Nat) : Pooled :=
  { w with wrapper := Function.update w.wrapper c { w.wrapper c with released := false } }

def markReleased (w : Pooled) (c : Nat) : Pooled :=
  { w with wrapper := Function.update w.wrapper c { w.wrapper c with released := true } }

/-- `inner.close()`. -/
def closeInner (w : Pooled) (c : Nat) : Pooled := { w with closed := w.closed ++ [c] }

/-- `needsPing`. -/
def needsPing (w : Pooled) (c : Nat) (now : Int) : Bool :=
  w.pool.pingAfterIdleMs < now - (w.wrapper c).idleSince

/-- `waiters.add(w)`. -/
def addWaiter (w : Pooled) (t : Nat) : Pooled :=
  { w with
    pool := { w.pool with waiters := w.pool.waiters ++ [t] }
    arrivals := w.arrivals ++ [t] }

/-- `acquire` without an idle connection: a connect, or a waiter. -/
def connectOrWait (w : Pooled) (t : Nat) : Pooled :=
  if w.pool.total < w.pool.maxConnections then (w.addTotal 1).setTask t .connecting
  else if w.pool.maxWaiters ≤ w.pool.waiters.length then
    w.setTask t (.failed (.poolTimeout s!"waiter queue full ({w.pool.maxWaiters})"))
  else (w.addWaiter t).setTask t (.waiting false [])

/-- The loop of `acquire` over the idle connections. -/
def acquireLoop (t : Nat) (now : Int) : List Nat → Pooled → Pooled
  | [], w => w.connectOrWait t
  | c :: rest, w =>
    let w := w.setIdle rest
    if w.broken c then acquireLoop t now rest (w.addTotal (-1))
    else if w.needsPing c now then w.setTask t (.pinging c)
    else (w.reopen c).setTask t (.holding c)

/-- `acquire`. -/
def acquire (w : Pooled) (now : Int) : Pooled :=
  let t := w.tasks.length
  let w := { w with tasks := w.tasks ++ [Stage.running] }
  if w.pool.draining then w.setTask t (.failed (.mySql "pool is draining; acquire refused"))
  else acquireLoop t now w.pool.idle w

/-- `acquire` after the ping. -/
def pinged (w : Pooled) (t c : Nat) (ok : Bool) (now : Int) : Pooled :=
  if ok then (w.reopen c).setTask t (.holding c)
  else acquireLoop t now w.pool.idle (((w.addTotal (-1)).closeInner c).setTask t .running)

/-- A new connection with its wrapper. -/
def newConnection (w : Pooled) : Pooled :=
  { w with
    connections := w.connections + 1
    wrapper := Function.update w.wrapper w.connections {} }

/-- `acquire` after the connect. -/
def connected (w : Pooled) (t : Nat) (ok : Bool) : Pooled :=
  if ok then w.newConnection.setTask t (.holding w.connections)
  else (w.addTotal (-1)).setTask t (.failed .driver)

/-- `acquire` after the wait. -/
def woken (w : Pooled) (t : Nat) : Except Failure Nat → Pooled
  | .ok c => w.setTask t (.holding c)
  | .error e => w.setTask t (.failed e)

/-- `settleDrain`. -/
def settleDrain (w : Pooled) : Pooled :=
  if w.pool.draining && w.pool.drainPending && w.pool.total ≤ 0 then
    { w with
      pool := { w.pool with drainPending := false }
      drains := w.drains.modify w.pool.drainPromise (· + 1) }
  else w

/-- `serveWaitersOrReplace`, up to the connect. -/
def serveWaitersOrReplace (w : Pooled) : Pooled :=
  if w.pool.waiters.length = 0 then w
  else if w.pool.maxConnections ≤ w.pool.total then w
  else { w.addTotal 1 with replacing := w.replacing + 1 }

def setWaiters (w : Pooled) (waiters : List Nat) : Pooled :=
  { w with pool := { w.pool with waiters } }

/-- A promise of a waiter is resolved, and its `settled` flag set. -/
def settle (w : Pooled) (t : Nat) (results : List (Except Failure Nat))
    (r : Except Failure Nat) : Pooled :=
  w.setTask t (.waiting true (results ++ [r]))

/-- `idle.add(pc)`, with the time. -/
def addIdle (w : Pooled) (c : Nat) (now : Int) : Pooled :=
  { w with
    pool := { w.pool with idle := w.pool.idle ++ [c] }
    wrapper := Function.update w.wrapper c { w.wrapper c with idleSince := now } }

/-- The loop of `releasePooled` over the waiters, and what follows it. -/
def hand (c : Nat) (now : Int) : List Nat → Pooled → Pooled
  | [], w => w.addIdle c now
  | t :: rest, w =>
    match w.tasks[t]? with
    | some (.waiting false results) =>
      { (w.setWaiters rest).reopen c with served := w.served ++ [t] }.settle t results (.ok c)
    | _ => hand c now rest (w.setWaiters rest)

/-- `releasePooled`. -/
def releasePooled (w : Pooled) (c : Nat) (now : Int) : Pooled :=
  if w.pool.draining then ((w.closeInner c).addTotal (-1)).settleDrain
  else if w.broken c then (w.addTotal (-1)).serveWaitersOrReplace
  else
    let w := if w.inTrans c then { w with rollbacks := w.rollbacks ++ [c] } else w
    hand c now w.pool.waiters w

/-- `PooledConnection.close`. -/
def close (w : Pooled) (c : Nat) (now : Int) : Pooled :=
  if (w.wrapper c).released then w else (w.markReleased c).releasePooled c now

/-- The connect of `serveWaitersOrReplace`; nothing runs when it fails. -/
def replaced (w : Pooled) (ok : Bool) (now : Int) : Pooled :=
  let w := { w with replacing := w.replacing - 1 }
  if ok then w.newConnection.releasePooled w.connections now else w

/-- The timer of a waiter. -/
def timedOut (w : Pooled) (t : Nat) : Pooled :=
  match w.tasks[t]? with
  | some (.waiting false results) =>
    { w.setWaiters (w.pool.waiters.filter (· ≠ t)) with expired := w.expired ++ [t] }.settle t
      results (.error (.poolTimeout s!"acquire timed out after {w.pool.acquireTimeoutMs}ms"))
  | _ => w

/-- The loop of `drain` over the waiters. -/
def rejectAll : List Nat → Pooled → Pooled
  | [], w => w
  | t :: rest, w =>
    match w.tasks[t]? with
    | some (.waiting false results) =>
      rejectAll rest
        ({ w with served := w.served ++ [t] }.settle t results
          (.error (.connectionLost "pool draining")))
    | _ => rejectAll rest w

/-- The idle connections are closed. -/
def closeIdle (w : Pooled) : Pooled :=
  { w with
    pool := { w.pool with total := w.pool.total - w.pool.idle.length, idle := [] }
    closed := w.closed ++ w.pool.idle }

/-- The promise that `drain` returns. -/
def promiseDrain (w : Pooled) : Pooled :=
  if w.pool.total ≤ 0 then { w with drains := w.drains ++ [1] }
  else
    { w with
      drains := w.drains ++ [0]
      pool := { w.pool with drainPromise := w.drains.length, drainPending := true } }

/-- `drain`. -/
def drain (w : Pooled) : Pooled :=
  let w := { w with pool := { w.pool with draining := true } }
  (((rejectAll w.pool.waiters w).setWaiters []).closeIdle).promiseDrain

/-- What can happen to a pool. -/
inductive Event where
  | acquire (now : Int)
  | pinged (t : Nat) (ok : Bool) (now : Int)
  | connected (t : Nat) (ok : Bool)
  | woken (t : Nat)
  | timedOut (t : Nat)
  | close (t : Nat) (now : Int)
  | replaced (ok : Bool) (now : Int)
  | drain
  /-- a connection breaks, or a transaction is begun or ended on it -/
  | changed (c : Nat) (broken inTrans : Bool)

/-- One event; a task goes on only where it waits for what has come. -/
def step (w : Pooled) : Event → Option Pooled
  | .acquire now => some (w.acquire now)
  | .pinged t ok now =>
    match w.tasks[t]? with
    | some (.pinging c) => some (w.pinged t c ok now)
    | _ => none
  | .connected t ok =>
    match w.tasks[t]? with
    | some .connecting => some (w.connected t ok)
    | _ => none
  | .woken t =>
    match w.tasks[t]? with
    | some (.waiting _ (r :: _)) => some (w.woken t r)
    | _ => none
  | .timedOut t => some (w.timedOut t)
  | .close t now =>
    match w.tasks[t]? with
    | some (.holding c) => some ((w.setTask t (.released c)).close c now)
    | some (.released c) => some (w.close c now)
    | _ => none
  | .replaced ok now => if w.replacing = 0 then none else some (w.replaced ok now)
  | .drain => some w.drain
  | .changed c broken inTrans =>
    some { w with
      broken := Function.update w.broken c broken
      inTrans := Function.update w.inTrans c inTrans }

/-- `new Pool`. -/
def new (maxConnections pingAfterIdleMs acquireTimeoutMs maxWaiters : Int) : Pooled :=
  { pool := { maxConnections, pingAfterIdleMs, acquireTimeoutMs, maxWaiters } }

end Pooled

end Leviathan.MySql
