import Leviathan.Lib.History

/-!
# Stream buffers

`StreamBuffer` of the prelude, with `InStream` and `StreamIterator`, and what happens to one
buffer.  A callback is a number and so is the promise of a `hasNext`.

A call of the subscriber's callback is a step of its own: what the callback does to the buffer
are the steps behind it.  `push` does nothing after the call, so it needs no state of its own; the
loop of `setHandler` goes on when its call returns (`Event.drainReturn`), and ends when it throws.
A `hasNext` that is parked or answered goes on when its task is resumed.

The world keeps a history of all that was accepted, delivered, asked and answered.
-/

namespace Leviathan.Streams

variable {T : Type}

/-- `StreamBuffer`. -/
structure StreamBuffer (T : Type) where
  items : List T := []
  handler : Nat := 0
  hasHandler : Bool := false
  closed : Bool := false
  claimed : Bool := false
  waiters : List Nat := []

namespace StreamBuffer

/-- `wake`: the promises that are resolved, with the value. -/
def wake (b : StreamBuffer T) (v : Bool) : List (Nat × Bool) × StreamBuffer T :=
  (b.waiters.map fun p => (p, v), { b with waiters := [] })

/-- What a `push` does. -/
inductive Pushed where
  | dropped
  | called (cb : Nat)
  | buffered (resolved : List (Nat × Bool))

def push (b : StreamBuffer T) (v : T) : Pushed × StreamBuffer T :=
  if b.closed then (.dropped, b)
  else if b.hasHandler then (.called b.handler, b)
  else
    let (resolved, b) := { b with items := b.items ++ [v] }.wake true
    (.buffered resolved, b)

def pullRaw (b : StreamBuffer T) : Except String (T × StreamBuffer T) :=
  match b.items with
  | v :: rest => .ok (v, { b with items := rest })
  | [] => if b.closed then .error "stream is closed" else .error "stream is empty"

def pull (b : StreamBuffer T) : Except String (T × StreamBuffer T) :=
  if b.hasHandler then .error "consumer end is claimed by a subscriber"
  else if b.claimed then .error "consumer end is claimed by an iterator"
  else if b.closed then .error "stream is closed"
  else match b.items with
    | [] => .error "stream is empty"
    | v :: rest => .ok (v, { b with items := rest })

def pullOrNone (b : StreamBuffer T) : Except String (Option (T × StreamBuffer T)) :=
  if b.hasHandler then .error "consumer end is claimed by a subscriber"
  else if b.claimed then .error "consumer end is claimed by an iterator"
  else match b.items with
    | v :: rest => .ok (some (v, { b with items := rest }))
    | [] => .ok none

/-- `setHandler`, up to its loop. -/
def setHandler (b : StreamBuffer T) (cb : Nat) : Except String (StreamBuffer T) :=
  if b.closed then .error "stream is closed"
  else if b.hasHandler then .error "consumer end is already claimed"
  else if b.claimed then .error "consumer end is claimed by an iterator"
  else .ok { b with handler := cb, hasHandler := true }

/-- One round of the loop of `setHandler`, up to the call; none when the loop ends. -/
def drain (b : StreamBuffer T) : Option (T × StreamBuffer T) :=
  match b.items with
  | [] => none
  | v :: rest => some (v, { b with items := rest })

def claimIterator (b : StreamBuffer T) : Except String (StreamBuffer T) :=
  if b.hasHandler then .error "consumer end is claimed by a subscriber"
  else if b.claimed then .error "consumer end is already claimed"
  else .ok { b with claimed := true }

/-- `waitForData`, with the promise `p`: resolved at once, or parked. -/
def waitForData (b : StreamBuffer T) (p : Nat) : Option Bool × StreamBuffer T :=
  if b.items ≠ [] then (some true, b)
  else if b.closed then (some false, b)
  else (none, { b with waiters := b.waiters ++ [p] })

def close (b : StreamBuffer T) : List (Nat × Bool) × StreamBuffer T :=
  { b with closed := true, hasHandler := false }.wake false

end StreamBuffer

/-- What a history tells of. -/
inductive Entry (T : Type) where
  /-- a push that is not dropped -/
  | accepted (v : T)
  | dropped (v : T)
  | subscribed (cb : Nat)
  /-- the loop of `setHandler` has ended -/
  | drained
  | toHandler (cb : Nat) (v : T)
  | pulled (v : T)
  | claimed
  | iterated (v : T)
  /-- a `hasNext`, with its promise -/
  | asked (p : Nat)
  | resolved (p : Nat) (v : Bool)
  /-- a `hasNext` returns -/
  | returned (p : Nat) (v : Bool)
  /-- a `next` throws -/
  | nextFailed (text : String)
  | raised (text : String)
  | closed

/-- A buffer, the loop of `setHandler` when one of its calls is running, the promises that are
resolved but not yet resumed, and the history, newest first. -/
structure World (T : Type) where
  buf : StreamBuffer T := {}
  draining : Option Nat := none
  promises : Nat := 0
  answered : List (Nat × Bool) := []
  log : List (Entry T) := []

/-- What can happen. -/
inductive Event (T : Type) where
  | push (v : T)
  | subscribe (cb : Nat)
  /-- the callback that the loop of `setHandler` has called returns, or throws -/
  | drainReturn
  | drainThrow
  | pull
  | pullOrNone
  | iterator
  | hasNext
  | resume (p : Nat)
  | next
  | close

namespace World

def note (w : World T) (x : Entry T) : World T := { w with log := x :: w.log }

/-- Promises are resolved, one after the other. -/
def resolve (w : World T) (resolved : List (Nat × Bool)) : World T :=
  { w with
    answered := w.answered ++ resolved
    log := (resolved.map fun r => Entry.resolved r.1 r.2).reverse ++ w.log }

/-- The loop of `setHandler` makes its next call, or ends. -/
def drainStep (w : World T) (cb : Nat) : World T :=
  match w.buf.drain with
  | some (v, b) => { w with buf := b, draining := some cb }.note (.toHandler cb v)
  | none => { w with draining := none }.note .drained

/-- One step; none when it cannot happen. -/
def step (w : World T) : Event T → Option (World T)
  | .push v =>
    match w.buf.push v with
    | (.dropped, b) => some ({ w with buf := b }.note (.dropped v))
    | (.called cb, b) => some (({ w with buf := b }.note (.accepted v)).note (.toHandler cb v))
    | (.buffered resolved, b) => some (({ w with buf := b }.note (.accepted v)).resolve resolved)
  | .subscribe cb =>
    match w.buf.setHandler cb with
    | .error text => some (w.note (.raised text))
    | .ok b => some (({ w with buf := b }.note (.subscribed cb)).drainStep cb)
  | .drainReturn =>
    match w.draining with
    | none => none
    | some cb => some (w.drainStep cb)
  | .drainThrow =>
    match w.draining with
    | none => none
    | some _ => some { w with draining := none }
  | .pull =>
    match w.buf.pull with
    | .error text => some (w.note (.raised text))
    | .ok (v, b) => some ({ w with buf := b }.note (.pulled v))
  | .pullOrNone =>
    match w.buf.pullOrNone with
    | .error text => some (w.note (.raised text))
    | .ok none => some w
    | .ok (some (v, b)) => some ({ w with buf := b }.note (.pulled v))
  | .iterator =>
    match w.buf.claimIterator with
    | .error text => some (w.note (.raised text))
    | .ok b => some ({ w with buf := b }.note .claimed)
  | .hasNext =>
    -- only an iterator has the method
    if w.buf.claimed then
      let p := w.promises
      let w := { w with promises := p + 1 }.note (.asked p)
      match w.buf.waitForData p with
      | (some v, b) => some ({ w with buf := b }.resolve [(p, v)])
      | (none, b) => some { w with buf := b }
    else none
  | .resume p =>
    match w.answered.lookup p with
    | none => none
    | some v =>
      some ({ w with answered := w.answered.filter fun r => r.1 ≠ p }.note (.returned p v))
  | .next =>
    if w.buf.claimed then
      match w.buf.pullRaw with
      | .error text => some (w.note (.nextFailed text))
      | .ok (v, b) => some ({ w with buf := b }.note (.iterated v))
    else none
  | .close =>
    let (resolved, b) := w.buf.close
    some (({ w with buf := b }.note .closed).resolve resolved)

end World

end Leviathan.Streams
