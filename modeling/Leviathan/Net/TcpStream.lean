import Leviathan.Lib.Runs
import Leviathan.Lib.Text

/-!
# The write queue of a TCP stream

`TcpStream` of the prelude: `send` hands bytes to the kernel and queues what the kernel
does not take, a write-watch drains the queue, `flush` waits until it is empty, and a fatal
write, the end of the input or `close` drop it.

The kernel is a log of the bytes it accepted on the descriptor and the table of watches.
Its answer to `sysSend` is an input of every operation that calls it.  A promise is a
number; what it was resolved with is kept in a list, so that a promise resolved twice can
be told from one resolved once.  A resolved promise resumes its waiter later, so every
operation runs to its end before the next.
-/

namespace Leviathan.Net

open List

/-! ## The kernel -/

/-- The answer to one `sysSend`: so many bytes, -1 (would block), or -2 (fatal). -/
inductive Reply where
  | accepts (n : Nat)
  | wouldBlock
  | fatal
  deriving DecidableEq

inductive WatchKind where
  | read
  | write
  deriving DecidableEq

/-- The kernel's side of one descriptor. -/
structure Kernel where
  accepted : Str := []
  /-- a fatal answer was given: every later one is fatal too -/
  fatal : Bool := false
  watches : List (Int × WatchKind) := []
  nextWatch : Nat := 0
  /-- the number of `sysClose` calls -/
  closes : Nat := 0
  deriving DecidableEq

namespace Kernel

/-- `sysSend`: the kernel takes at most what it is given. -/
def sysSend (k : Kernel) (s : Str) (reply : Reply) : Int × Kernel :=
  if k.fatal then (-2, k)
  else
    match reply with
    | .fatal => (-2, { k with fatal := true })
    | .wouldBlock => (-1, k)
    | .accepts n =>
      ((s.take n).length, { k with accepted := k.accepted ++ s.take n })

/-- `sysWatch` and `sysWatchWrite`. -/
def sysWatch (k : Kernel) (kind : WatchKind) : Int × Kernel :=
  (k.nextWatch, { k with watches := k.watches ++ [(↑k.nextWatch, kind)],
                         nextWatch := k.nextWatch + 1 })

def sysUnwatch (k : Kernel) (id : Int) : Kernel :=
  { k with watches := k.watches.filter (·.1 ≠ id) }

def sysClose (k : Kernel) : Kernel := { k with closes := k.closes + 1 }

/-- The write-watches that are registered. -/
def writeWatches (k : Kernel) : List (Int × WatchKind) := k.watches.filter (·.2 = .write)

end Kernel

/-! ## The stream -/

/-- The fields of `TcpStream`; a callback is a number. -/
structure TcpStream where
  fd : Int
  watchId : Int := -1
  onChunk : Option Nat := none
  onClosed : Option Nat := none
  watching : Bool := false
  pending : Str := []
  draining : Bool := false
  drainId : Int := -1
  eofKeepsFd : Bool := false
  flushWaiters : List Nat := []
  writeHealthy : Bool := true
  deriving DecidableEq

/-- A promise that a `flush` is parked on: what had been sent before that call, and what
it was resolved with. -/
structure Promise where
  sentBefore : Str
  results : List Bool := []
  deriving DecidableEq

/-- A stream with its descriptor, its promises and its history: what was sent, what
the flushes that did not park returned, and whether a tail was dropped on a descriptor that
stayed open. -/
structure Socket where
  stream : TcpStream
  kernel : Kernel := {}
  promises : List Promise := []
  sent : Str := []
  returned : List (Str × Bool) := []
  lost : Bool := false
  deriving DecidableEq

/-- What `flush` does: it returns, or it parks on a promise. -/
inductive FlushResult where
  | returns (ok : Bool)
  | parks (p : Nat)
  deriving DecidableEq

namespace Socket

/-- `new TcpStream(fd)`. -/
def new (fd : Nat) : Socket := { stream := { fd := fd } }

/-- `p.resolve(ok)`. -/
def resolve (w : Socket) (p : Nat) (ok : Bool) : Socket :=
  { w with promises := w.promises.modify p fun q => { q with results := q.results ++ [ok] } }

/-- `settleFlush`: the waiters are taken before they are resolved. -/
def settleFlush (w : Socket) (ok : Bool) : Socket :=
  let ws := w.stream.flushWaiters
  ws.foldl (fun w p => w.resolve p ok) { w with stream := { w.stream with flushWaiters := [] } }

/-- `stopDrain`. -/
def stopDrain (w : Socket) : Socket :=
  if w.stream.draining then
    { w with
      stream := { w.stream with draining := false, drainId := -1 }
      kernel := w.kernel.sysUnwatch w.stream.drainId }
  else w

/-- `flush`, up to where it returns or parks. -/
def flush (w : Socket) : FlushResult × Socket :=
  if w.stream.fd < 0 ∨ w.stream.writeHealthy = false then
    (.returns false, { w with returned := w.returned ++ [(w.sent, false)] })
  else if w.stream.draining = false then
    (.returns true, { w with returned := w.returned ++ [(w.sent, true)] })
  else
    let p := w.promises.length
    (.parks p,
      { w with
        promises := w.promises ++ [{ sentBefore := w.sent }]
        stream := { w.stream with flushWaiters := w.stream.flushWaiters ++ [p] } })

/-- The stream cannot write any more. -/
def unhealthy (w : Socket) : Socket := { w with stream := { w.stream with writeHealthy := false } }

def setPending (w : Socket) (pending : Str) : Socket :=
  { w with stream := { w.stream with pending } }

/-- `sysSend` on the descriptor of the stream. -/
def sysSend (w : Socket) (s : Str) (reply : Reply) : Int × Socket :=
  ((w.kernel.sysSend s reply).1, { w with kernel := (w.kernel.sysSend s reply).2 })

/-- The tail waits for a write-watch. -/
def startDrain (w : Socket) (tail : Str) : Socket :=
  let (id, kernel) := w.kernel.sysWatch .write
  { w with
    kernel
    stream := { w.stream with pending := tail, draining := true, drainId := id } }

/-- The body of `send`. -/
def sendNow (w : Socket) (s : Str) (reply : Reply) : Socket :=
  if w.stream.fd < 0 then w
  else if w.stream.draining then w.setPending (w.stream.pending ++ s)
  else
    let (n, w) := w.sysSend s reply
    if n = -2 then (w.unhealthy).settleFlush false
    else
      let n := if n < 0 then 0 else n
      if n < s.length then w.startDrain (s.drop n.toNat) else w

/-- `send`. -/
def send (w : Socket) (s : Str) (reply : Reply) : Socket :=
  { w with sent := w.sent ++ s }.sendNow s reply

/-- `drain`: a write-ready wake. -/
def drain (w : Socket) (reply : Reply) : Socket :=
  if w.stream.fd < 0 then w
  else
    let pending := w.stream.pending
    let (n, w) := w.sysSend pending reply
    if n = -2 then ((w.setPending []).unhealthy.stopDrain).settleFlush false
    else if n < 0 then w
    else if pending.length ≤ n then ((w.setPending []).stopDrain).settleFlush true
    else w.setPending (pending.drop n.toNat)

/-- `if (watching) { sysUnwatch(watchId); watching = false; }`. -/
def stopWatch (w : Socket) : Socket :=
  if w.stream.watching then
    { w with
      stream := { w.stream with watching := false }
      kernel := w.kernel.sysUnwatch w.stream.watchId }
  else w

/-- The callbacks are cleared and the descriptor is closed. -/
def release (w : Socket) : Socket :=
  { w with
    stream := { w.stream with onChunk := none, onClosed := none, fd := -1 }
    kernel := w.kernel.sysClose }

/-- `close`. -/
def close (w : Socket) : Socket :=
  if w.stream.fd < 0 then w
  else ((((w.stopDrain).unhealthy.setPending []).settleFlush false).stopWatch).release

/-- `retireRead`: the end of the input. -/
def retireRead (w : Socket) : Socket :=
  if w.stream.eofKeepsFd then
    let w := { w with lost := w.lost || (0 ≤ w.stream.fd && !w.stream.pending.isEmpty) }
    ((((w.stopDrain).setPending []).unhealthy).settleFlush false).stopWatch
  else w.close

/-- `onData`. -/
def onData (w : Socket) (cb : Nat) : Socket :=
  let (id, kernel) := w.kernel.sysWatch .read
  { w with kernel, stream := { w.stream with onChunk := some cb, watching := true, watchId := id } }

/-- `onClose`. -/
def onClose (w : Socket) (cb : Nat) : Socket :=
  { w with stream := { w.stream with onClosed := some cb } }

/-- `keepFdOnEof`. -/
def keepFdOnEof (w : Socket) : Socket :=
  { w with stream := { w.stream with eofKeepsFd := true } }

/-- `pump`: the callback that is run at its end, with its chunk if it is `onChunk`. -/
def pump (w : Socket) (chunk : Option Str) : Option (Nat × Option Str) × Socket :=
  if w.stream.fd < 0 then (none, w)
  else
    match chunk with
    | none => (w.stream.onClosed.map fun cb => (cb, none), w.retireRead)
    | some data => (w.stream.onChunk.map fun cb => (cb, some data), w)

/-- A call on the stream, with the kernel's answers. -/
inductive Call where
  | send (s : Str) (reply : Reply)
  | flush
  | drain (reply : Reply)
  | retireRead
  | close
  | onData (cb : Nat)
  | onClose (cb : Nat)
  | keepFdOnEof
  | pump (chunk : Option Str)

/-- The stream after a call. -/
def after (w : Socket) : Call → Socket
  | .send s reply => w.send s reply
  | .flush => w.flush.2
  | .drain reply => w.drain reply
  | .retireRead => w.retireRead
  | .close => w.close
  | .onData cb => w.onData cb
  | .onClose cb => w.onClose cb
  | .keepFdOnEof => w.keepFdOnEof
  | .pump chunk => (w.pump chunk).2

/-- No call is refused. -/
def step (w : Socket) (c : Call) : Option Socket := some (w.after c)

/-! ## The parts of the operations -/

/-- The promises after `ws` were resolved. -/
def resolveAll (ps : List Promise) (ws : List Nat) (ok : Bool) : List Promise :=
  ws.foldl (fun ps p => ps.modify p fun q => { q with results := q.results ++ [ok] }) ps

theorem resolveAll_cons (ps : List Promise) (p : Nat) (ws : List Nat) (ok : Bool) :
    resolveAll ps (p :: ws) ok =
      resolveAll (ps.modify p fun q => { q with results := q.results ++ [ok] }) ws ok := rfl

/-- Each of the waiters is resolved, and no other promise. -/
theorem getElem?_resolveAll {ws : List Nat} (hnodup : ws.Nodup) (ps : List Promise) (ok : Bool)
    (p : Nat) :
    (resolveAll ps ws ok)[p]? =
      if p ∈ ws then ps[p]?.map fun q => { q with results := q.results ++ [ok] } else ps[p]? := by
  induction ws generalizing ps with
  | nil => simp [resolveAll]
  | cons v ws ih =>
    obtain ⟨hv, hws⟩ := List.nodup_cons.mp hnodup
    rw [resolveAll_cons, ih hws, getElem?_modify]
    by_cases hp : v = p
    · subst hp
      rw [if_neg hv, if_pos mem_cons_self]
      simp only [if_true]
      rfl
    · have hmem : p ∈ v :: ws ↔ p ∈ ws := by
        rw [mem_cons]
        exact ⟨fun h => h.resolve_left (fun h' => hp h'.symm), Or.inr⟩
      simp only [if_neg hp, hmem, id_map']

theorem settleFlush_eq (w : Socket) (ok : Bool) :
    w.settleFlush ok =
      { w with
        stream := { w.stream with flushWaiters := [] }
        promises := resolveAll w.promises w.stream.flushWaiters ok } := by
  unfold settleFlush
  have hfold : ∀ (ws : List Nat) (v : Socket),
      ws.foldl (fun w p => w.resolve p ok) v =
        { v with promises := resolveAll v.promises ws ok } := by
    intro ws
    induction ws with
    | nil => exact fun _ => rfl
    | cons p ws ih =>
      intro v
      rw [foldl_cons, ih]
      rfl
  exact hfold w.stream.flushWaiters _

theorem stopDrain_eq (w : Socket) :
    w.stopDrain =
      { w with
        stream := { w.stream with
          draining := false
          drainId := if w.stream.draining then -1 else w.stream.drainId }
        kernel := if w.stream.draining then w.kernel.sysUnwatch w.stream.drainId
          else w.kernel } := by
  unfold stopDrain
  by_cases h : w.stream.draining = true
  · simp only [if_pos h]
  · simp only [if_neg h]
    rw [Bool.not_eq_true] at h
    rw [← h]

theorem stopWatch_eq (w : Socket) :
    w.stopWatch =
      { w with
        stream := { w.stream with watching := false }
        kernel := if w.stream.watching then w.kernel.sysUnwatch w.stream.watchId
          else w.kernel } := by
  unfold stopWatch
  by_cases h : w.stream.watching = true
  · simp only [if_pos h]
  · simp only [if_neg h]
    rw [Bool.not_eq_true] at h
    rw [← h]

/-! ## The invariant -/

/-- The queue: what is queued is what was sent and not yet accepted, as long as the
stream can write and no tail was dropped; it is drained exactly while it is not empty. -/
structure Queue (w : Socket) : Prop where
  accepted : w.kernel.accepted <+: w.sent
  whole : 0 ≤ w.stream.fd → w.kernel.fatal = false → w.lost = false →
    w.kernel.accepted ++ w.stream.pending = w.sent
  dead : w.kernel.fatal = true ∨ w.lost = true ∨ w.stream.fd < 0 → w.stream.pending = []
  draining : w.stream.draining = true ↔ w.stream.pending ≠ []
  healthy : w.stream.writeHealthy = true →
    0 ≤ w.stream.fd ∧ w.kernel.fatal = false ∧ w.lost = false
  waiting : w.stream.flushWaiters ≠ [] → w.stream.draining = true ∧ w.stream.writeHealthy = true
  watched : w.kernel.writeWatches =
    if w.stream.draining then [(w.stream.drainId, .write)] else []
  ids : w.stream.watchId < w.kernel.nextWatch ∧ w.stream.drainId < w.kernel.nextWatch ∧
    (w.stream.watching = true → w.stream.draining = true → w.stream.watchId ≠ w.stream.drainId)

/-- The promises: a waiter is not resolved, any other promise was resolved once, and what
was resolved with `true` had all its bytes accepted. -/
structure Promised (w : Socket) : Prop where
  nodup : w.stream.flushWaiters.Nodup
  parked : ∀ p ∈ w.stream.flushWaiters, ∃ q, w.promises[p]? = some q ∧ q.results = []
  once : ∀ p q, w.promises[p]? = some q → p ∉ w.stream.flushWaiters → ∃ b, q.results = [b]
  before : ∀ q ∈ w.promises, q.sentBefore <+: w.sent
  barrier : ∀ q ∈ w.promises, true ∈ q.results → q.sentBefore <+: w.kernel.accepted
  returned : ∀ r ∈ w.returned, r.2 = true → r.1 <+: w.kernel.accepted

namespace Promised

variable {w w' : Socket}

/-- Bytes are sent or accepted, and no promise changes. -/
theorem keep (h : Promised w) (hwaiters : w'.stream.flushWaiters = w.stream.flushWaiters)
    (hpromises : w'.promises = w.promises) (hsent : w.sent <+: w'.sent)
    (haccepted : w.kernel.accepted <+: w'.kernel.accepted) (hreturned : w'.returned = w.returned) :
    Promised w' where
  nodup := by
    rw [hwaiters]
    exact h.nodup
  parked := by
    rw [hwaiters, hpromises]
    exact h.parked
  once := by
    rw [hwaiters, hpromises]
    exact h.once
  before := by
    rw [hpromises]
    exact fun q hq => (h.before q hq).trans hsent
  barrier := by
    rw [hpromises]
    exact fun q hq htrue => (h.barrier q hq htrue).trans haccepted
  returned := by
    rw [hreturned]
    exact fun r hr htrue => (h.returned r hr htrue).trans haccepted

/-- All waiters are resolved; with `true` only if everything sent was accepted. -/
theorem settle (h : Promised w) (ok : Bool) (hwaiters : w'.stream.flushWaiters = [])
    (hpromises : w'.promises = resolveAll w.promises w.stream.flushWaiters ok)
    (hsent : w'.sent = w.sent) (haccepted : w.kernel.accepted <+: w'.kernel.accepted)
    (hreturned : w'.returned = w.returned)
    (hok : ok = true → w.stream.flushWaiters ≠ [] → w'.kernel.accepted = w.sent) :
    Promised w' := by
  -- a promise afterwards is a waiter with its first result, or as it was
  have hcases : ∀ p q', w'.promises[p]? = some q' →
      (p ∈ w.stream.flushWaiters ∧ ∃ q, w.promises[p]? = some q ∧ q.results = [] ∧
        q' = { q with results := [ok] }) ∨
      (p ∉ w.stream.flushWaiters ∧ w.promises[p]? = some q') := by
    intro p q' hq'
    rw [hpromises, getElem?_resolveAll h.nodup] at hq'
    by_cases hp : p ∈ w.stream.flushWaiters
    · left
      obtain ⟨q, hq, hnone⟩ := h.parked p hp
      rw [if_pos hp, hq] at hq'
      refine ⟨hp, q, hq, hnone, ?_⟩
      rw [← Option.some.inj hq']
      simp only [hnone, nil_append]
    · rw [if_neg hp] at hq'
      exact Or.inr ⟨hp, hq'⟩
  refine ⟨?_, ?_, ?_, ?_, ?_, ?_⟩
  · rw [hwaiters]
    exact nodup_nil
  · intro p hp
    rw [hwaiters] at hp
    cases hp
  · intro p q' hq' _
    rcases hcases p q' hq' with ⟨_, q, _, _, rfl⟩ | ⟨hp, hq⟩
    · exact ⟨ok, rfl⟩
    · exact h.once p q' hq hp
  · intro q' hmem
    rw [hsent]
    obtain ⟨p, hq'⟩ := mem_iff_getElem?.mp hmem
    rcases hcases p q' hq' with ⟨_, q, hq, _, rfl⟩ | ⟨_, hq⟩
    · exact h.before q (mem_of_getElem? hq)
    · exact h.before q' (mem_of_getElem? hq)
  · intro q' hmem htrue
    obtain ⟨p, hq'⟩ := mem_iff_getElem?.mp hmem
    rcases hcases p q' hq' with ⟨hp, q, hq, _, rfl⟩ | ⟨_, hq⟩
    · rw [hok (List.mem_singleton.mp htrue).symm (ne_nil_of_mem hp)]
      exact h.before q (mem_of_getElem? hq)
    · exact (h.barrier q' (mem_of_getElem? hq) htrue).trans haccepted
  · rw [hreturned]
    exact fun r hr htrue => (h.returned r hr htrue).trans haccepted

/-- A new promise is parked. -/
theorem park (h : Promised w)
    (hwaiters : w'.stream.flushWaiters = w.stream.flushWaiters ++ [w.promises.length])
    (hpromises : w'.promises = w.promises ++ [{ sentBefore := w.sent }])
    (hsent : w'.sent = w.sent) (haccepted : w'.kernel.accepted = w.kernel.accepted)
    (hreturned : w'.returned = w.returned) : Promised w' := by
  have hlt : ∀ p ∈ w.stream.flushWaiters, p < w.promises.length := by
    intro p hp
    obtain ⟨q, hq, -⟩ := h.parked p hp
    exact (List.getElem?_eq_some_iff.mp hq).1
  refine ⟨?_, ?_, ?_, ?_, ?_, ?_⟩
  · rw [hwaiters, nodup_append]
    refine ⟨h.nodup, nodup_singleton _, ?_⟩
    intro p hp p' hp'
    have := hlt p hp
    rw [List.mem_singleton.mp hp']
    omega
  · intro p hp
    rw [hwaiters] at hp
    rw [hpromises]
    rcases List.mem_append.mp hp with hp | hp
    · rw [getElem?_append_left (hlt p hp)]
      exact h.parked p hp
    · obtain rfl := List.mem_singleton.mp hp
      exact ⟨_, getElem?_concat_length, rfl⟩
  · intro p q hq hp
    rw [hwaiters, mem_append, not_or] at hp
    rw [hpromises, getElem?_append] at hq
    by_cases hpl : p < w.promises.length
    · rw [if_pos hpl] at hq
      exact h.once p q hq hp.1
    · rw [if_neg hpl] at hq
      have hne : p - w.promises.length ≠ 0 := by
        intro h0
        exact hp.2 (List.mem_singleton.mpr (by omega))
      rw [getElem?_singleton, if_neg hne] at hq
      cases hq
  · rw [hpromises, hsent]
    intro q hq
    rcases List.mem_append.mp hq with hq | hq
    · exact h.before q hq
    · obtain rfl := List.mem_singleton.mp hq
      exact prefix_refl _
  · rw [hpromises, haccepted]
    intro q hq htrue
    rcases List.mem_append.mp hq with hq | hq
    · exact h.barrier q hq htrue
    · obtain rfl := List.mem_singleton.mp hq
      cases htrue
  · rw [hreturned, haccepted]
    exact h.returned

end Promised

/-! ## One call -/

/-- The answers of the kernel. -/
theorem sysSend_cases (w : Socket) (s : Str) (reply : Reply) :
    (w.sysSend s reply = (-2, { w with kernel := { w.kernel with fatal := true } })) ∨
      (w.kernel.fatal = false ∧ w.sysSend s reply = (-1, w)) ∨
      (w.kernel.fatal = false ∧ ∃ m, m ≤ s.length ∧ w.sysSend s reply =
        (↑m, { w with kernel := { w.kernel with accepted := w.kernel.accepted ++ s.take m } })) := by
  unfold sysSend Kernel.sysSend
  by_cases hfatal : w.kernel.fatal = true
  · left
    rw [if_pos hfatal, ← hfatal]
  · rw [if_neg hfatal]
    rw [Bool.not_eq_true] at hfatal
    cases reply with
    | fatal => exact Or.inl rfl
    | wouldBlock => exact Or.inr (Or.inl ⟨hfatal, rfl⟩)
    | accepts n =>
      refine Or.inr (Or.inr ⟨hfatal, (s.take n).length, ?_, ?_⟩)
      · exact (take_sublist n s).length_le
      · have htake : s.take (s.take n).length = s.take n := by
          rw [length_take, ← take_take, take_length]
        rw [htake]

theorem writeWatches_sysUnwatch (k : Kernel) (id : Int) :
    (k.sysUnwatch id).writeWatches = k.writeWatches.filter (·.1 ≠ id) := by
  unfold Kernel.sysUnwatch Kernel.writeWatches
  rw [filter_filter, filter_filter]
  congr 1
  funext x
  exact Bool.and_comm _ _

theorem writeWatches_sysWatch (k : Kernel) (kind : WatchKind) :
    (k.sysWatch kind).2.writeWatches =
      k.writeWatches ++ if kind = .write then [((k.nextWatch : Int), kind)] else [] := by
  unfold Kernel.sysWatch Kernel.writeWatches
  rw [filter_append]
  cases kind with
  | read => rfl
  | write => rfl

/-- `stopDrain` leaves no write-watch. -/
theorem writeWatches_stopDrain {w : Socket}
    (h : w.kernel.writeWatches = if w.stream.draining then [(w.stream.drainId, .write)] else []) :
    w.stopDrain.kernel.writeWatches = [] := by
  rw [stopDrain_eq]
  by_cases hd : w.stream.draining = true
  · rw [if_pos hd] at h
    simp only [if_pos hd]
    rw [writeWatches_sysUnwatch, h]
    simp
  · rw [if_neg hd] at h
    simp only [if_neg hd]
    exact h

theorem writeWatches_stopWatch {w : Socket} (h : w.kernel.writeWatches = []) :
    w.stopWatch.kernel.writeWatches = [] := by
  rw [stopWatch_eq]
  by_cases hw : w.stream.watching = true
  · simp only [if_pos hw]
    rw [writeWatches_sysUnwatch, h]
    rfl
  · simp only [if_neg hw]
    exact h

/-- Neither removal of a watch touches the rest of the kernel. -/
theorem stopDrain_kernel (w : Socket) :
    w.stopDrain.kernel = { w.kernel with watches := w.stopDrain.kernel.watches } := by
  rw [stopDrain_eq]
  by_cases hd : w.stream.draining = true
  · simp only [if_pos hd, Kernel.sysUnwatch]
  · simp only [if_neg hd]

theorem stopWatch_kernel (w : Socket) :
    w.stopWatch.kernel = { w.kernel with watches := w.stopWatch.kernel.watches } := by
  rw [stopWatch_eq]
  by_cases hw : w.stream.watching = true
  · simp only [if_pos hw, Kernel.sysUnwatch]
  · simp only [if_neg hw]

theorem stopDrain_drainId {w : Socket} (h : w.stream.drainId < w.kernel.nextWatch) :
    w.stopDrain.stream.drainId < w.stopDrain.kernel.nextWatch := by
  rw [stopDrain_kernel, stopDrain_eq]
  by_cases hd : w.stream.draining = true
  · simp only [if_pos hd]
    omega
  · simp only [if_neg hd]
    exact h

/-- A state without a queue. -/
theorem Queue.empty {w : Socket} (hwhole : w.kernel.accepted <+: w.sent)
    (hopen : 0 ≤ w.stream.fd → w.kernel.fatal = false → w.lost = false →
      w.kernel.accepted = w.sent)
    (hpending : w.stream.pending = []) (hdraining : w.stream.draining = false)
    (hwaiters : w.stream.flushWaiters = [])
    (hhealthy : w.stream.writeHealthy = true →
      0 ≤ w.stream.fd ∧ w.kernel.fatal = false ∧ w.lost = false)
    (hwatched : w.kernel.writeWatches = [])
    (hids : w.stream.watchId < w.kernel.nextWatch ∧ w.stream.drainId < w.kernel.nextWatch) :
    Queue w where
  accepted := hwhole
  whole := by
    intro hfd hfatal hlost
    rw [hpending, append_nil]
    exact hopen hfd hfatal hlost
  dead := fun _ => hpending
  draining := by
    rw [hdraining, hpending]
    simp
  healthy := hhealthy
  waiting := fun h => absurd hwaiters h
  watched := by
    rw [hdraining, hwatched]
    rfl
  ids := ⟨hids.1, hids.2, fun _ h => absurd (hdraining.symm.trans h) (by decide)⟩

/-- The invariant of a stream. -/
structure Inv (w : Socket) : Prop where
  queue : Queue w
  promised : Promised w

/-- What the caller of `send` has to avoid: a descriptor that stayed open when the end of the
input dropped a tail. -/
def Careful (w : Socket) : Call → Prop
  | .send s _ => w.lost = true → 0 ≤ w.stream.fd → w.kernel.fatal = false → s = []
  | _ => True

variable {w : Socket}

theorem Queue.pending_of_idle (h : Queue w) (hidle : w.stream.draining = false) :
    w.stream.pending = [] := by
  by_contra hne
  have := h.draining.mpr hne
  rw [hidle] at this
  cases this

theorem Queue.waiters_of_idle (h : Queue w) (hidle : w.stream.draining = false) :
    w.stream.flushWaiters = [] := by
  by_contra hne
  have := (h.waiting hne).1
  rw [hidle] at this
  cases this

/-- `send` and the kernel took the first `m` bytes. -/
def took (w : Socket) (s : Str) (m : Nat) : Socket :=
  { w with
    sent := w.sent ++ s
    kernel := { w.kernel with accepted := w.kernel.accepted ++ s.take m } }

/-- On an idle stream the rest waits for a watch. -/
theorem Inv.took {s : Str} {m : Nat} (h : Inv w) (hfd : 0 ≤ w.stream.fd)
    (hfatal : w.kernel.fatal = false) (hidle : w.stream.draining = false)
    (hlost : w.lost = true → s = []) :
    Inv (if m < s.length then (w.took s m).startDrain (s.drop m) else w.took s m) := by
  have hq := h.queue
  have hpending := hq.pending_of_idle hidle
  have hwaiters := hq.waiters_of_idle hidle
  have hwatched : w.kernel.writeWatches = [] := by
    have := hq.watched
    rw [hidle] at this
    exact this
  have hpromised : Promised (w.took s m) :=
    h.promised.keep rfl rfl (prefix_append _ _) (prefix_append _ _) rfl
  have hall : w.lost = false → w.kernel.accepted = w.sent := by
    intro hl
    have := hq.whole hfd hfatal hl
    rwa [hpending, append_nil] at this
  have haccepted : w.kernel.accepted ++ s.take m <+: w.sent ++ s := by
    by_cases hl : w.lost = true
    · rw [hlost hl, take_nil, append_nil, append_nil]
      exact hq.accepted
    · rw [hall (by simpa using hl)]
      exact (prefix_append_right_inj _).mpr ( take_prefix m s)
  by_cases hm : m < s.length
  · rw [if_pos hm]
    have hl : w.lost = false := by
      by_contra hl
      rw [hlost (by simpa using hl)] at hm
      simp at hm
    have htail : s.drop m ≠ [] := by
      intro hnil
      have := List.drop_eq_nil_iff.mp hnil
      omega
    have hids := hq.ids
    refine ⟨⟨haccepted, ?_, ?_, ⟨fun _ => htail, fun _ => rfl⟩, hq.healthy,
      fun hne => absurd hwaiters hne, ?_, ?_⟩, hpromised.keep rfl rfl (prefix_refl _)
        (prefix_refl _) rfl⟩
    · intro _ _ _
      show (w.kernel.accepted ++ s.take m) ++ s.drop m = w.sent ++ s
      rw [append_assoc, take_append_drop, hall hl]
    · intro hdead
      rcases hdead with hf | hl' | hc
      · exact absurd (hfatal.symm.trans hf) (by decide)
      · exact absurd (hl.symm.trans hl') (by decide)
      · exact absurd hc (Int.not_lt.mpr hfd)
    · show ((w.took s m).kernel.sysWatch .write).2.writeWatches =
        [((w.kernel.nextWatch : Int), .write)]
      rw [writeWatches_sysWatch, show (w.took s m).kernel.writeWatches = [] from hwatched]
      rfl
    · show w.stream.watchId < ((w.kernel.nextWatch + 1 : Nat) : Int) ∧
        (w.kernel.nextWatch : Int) < ((w.kernel.nextWatch + 1 : Nat) : Int) ∧
        (w.stream.watching = true → true = true → w.stream.watchId ≠ (w.kernel.nextWatch : Int))
      exact ⟨by omega, by omega, fun _ _ => by omega⟩
  · rw [if_neg hm]
    have htake : s.take m = s := take_of_length_le (by omega)
    refine ⟨Queue.empty haccepted ?_ hpending hidle hwaiters hq.healthy hwatched
      ⟨hq.ids.1, hq.ids.2.1⟩, hpromised⟩
    intro _ _ hl
    show w.kernel.accepted ++ s.take m = w.sent ++ s
    rw [htake, hall hl]

theorem Inv.send {s : Str} {reply : Reply} (h : Inv w) (hcareful : Careful w (.send s reply)) :
    Inv (w.send s reply) := by
  have hgrow : w.sent <+: w.sent ++ s := prefix_append _ _
  have hq := h.queue
  unfold Socket.send sendNow
  by_cases hfd : w.stream.fd < 0
  · -- a closed stream takes nothing
    rw [if_pos hfd]
    exact ⟨⟨hq.accepted.trans hgrow, fun h0 => absurd hfd (Int.not_lt.mpr h0), hq.dead,
      hq.draining, hq.healthy, hq.waiting, hq.watched, hq.ids⟩,
      h.promised.keep rfl rfl hgrow (prefix_refl _) rfl⟩
  · rw [if_neg hfd]
    have hopen : 0 ≤ w.stream.fd := by omega
    by_cases hd : w.stream.draining = true
    · rw [if_pos hd]
      have hne := hq.draining.mp hd
      refine ⟨⟨hq.accepted.trans hgrow, ?_, ?_, ?_, hq.healthy, hq.waiting, hq.watched, hq.ids⟩,
        h.promised.keep rfl rfl hgrow (prefix_refl _) rfl⟩
      · intro _ hfatal hlost
        show w.kernel.accepted ++ (w.stream.pending ++ s) = w.sent ++ s
        rw [← append_assoc, hq.whole hopen hfatal hlost]
      · exact fun hdead => absurd (hq.dead hdead) hne
      · exact ⟨fun _ => append_ne_nil_of_left_ne_nil hne s, fun _ => hd⟩
    · rw [if_neg hd]
      rw [Bool.not_eq_true] at hd
      have hlost : w.kernel.fatal = false → w.lost = true → s = [] :=
        fun hfatal hlost => hcareful hlost hopen hfatal
      rcases sysSend_cases { w with sent := w.sent ++ s } s reply with hs | ⟨hfatal, hs⟩ |
        ⟨hfatal, m, hm, hs⟩
      · -- the kernel gave up
        rw [hs]
        simp only [if_true]
        rw [settleFlush_eq]
        have hwatched : w.kernel.writeWatches = [] := by
          have := hq.watched
          rw [hd] at this
          exact this
        refine ⟨Queue.empty (hq.accepted.trans hgrow) ?_ (hq.pending_of_idle hd) hd rfl ?_
          hwatched ⟨hq.ids.1, hq.ids.2.1⟩, ?_⟩
        · exact nofun
        · exact nofun
        · refine Promised.settle (w := { w with sent := w.sent ++ s }) ?_ false rfl rfl rfl
            (prefix_refl _) rfl (fun h => absurd h (by decide))
          exact h.promised.keep rfl rfl hgrow (prefix_refl _) rfl
      · rw [hs]
        have := h.took (s := s) (m := 0) hopen hfatal hd (hlost hfatal)
        unfold Socket.took at this
        simpa using this
      · rw [hs]
        have hnonneg : ¬ (m : Int) < 0 := by omega
        have hne : (m : Int) ≠ -2 := by omega
        simp only [if_neg hne, if_neg hnonneg, Int.toNat_natCast, Nat.cast_lt]
        exact h.took hopen hfatal hd (hlost hfatal)

/-- The queue is dropped and the waiters are resolved: what `drain`, `close` and the end of
the input have in common.  `v` is the stream with what the kernel did to it. -/
theorem Inv.dropped {v : Socket} {ok : Bool} (h : Inv w) (hsent : v.sent = w.sent)
    (hstream : v.stream.draining = w.stream.draining ∧ v.stream.drainId = w.stream.drainId ∧
      v.stream.watchId = w.stream.watchId ∧ v.stream.flushWaiters = w.stream.flushWaiters)
    (hwatches : v.kernel.watches = w.kernel.watches)
    (hnext : v.kernel.nextWatch = w.kernel.nextWatch) (hpending : v.stream.pending = [])
    (hpromises : v.promises = w.promises) (hreturned : v.returned = w.returned)
    (hgrow : w.kernel.accepted <+: v.kernel.accepted) (haccepted : v.kernel.accepted <+: w.sent)
    (hwhole : 0 ≤ v.stream.fd → v.kernel.fatal = false → v.lost = false →
      v.kernel.accepted = w.sent)
    (hok : ok = true → w.stream.flushWaiters ≠ [] → v.kernel.accepted = w.sent)
    (hhealthy : v.stream.writeHealthy = true →
      0 ≤ v.stream.fd ∧ v.kernel.fatal = false ∧ v.lost = false) :
    Inv (v.stopDrain.settleFlush ok) := by
  obtain ⟨hd, hid, hwid, hws⟩ := hstream
  have hwatched : v.kernel.writeWatches =
      if v.stream.draining then [(v.stream.drainId, .write)] else [] := by
    have := h.queue.watched
    unfold Kernel.writeWatches at this ⊢
    rw [hwatches, hd, hid]
    exact this
  have hdrainId : v.stream.drainId < v.kernel.nextWatch := by
    rw [hid, hnext]
    exact h.queue.ids.2.1
  have hkernel := stopDrain_kernel v
  have hstream : v.stopDrain.stream =
      { v.stream with
        draining := false
        drainId := if v.stream.draining then -1 else v.stream.drainId } := by
    rw [stopDrain_eq]
  have hrest : v.stopDrain.sent = v.sent ∧ v.stopDrain.lost = v.lost ∧
      v.stopDrain.promises = v.promises ∧ v.stopDrain.returned = v.returned := by
    rw [stopDrain_eq]
    exact ⟨rfl, rfl, rfl, rfl⟩
  rw [settleFlush_eq]
  refine ⟨Queue.empty ?_ ?_ ?_ ?_ rfl ?_ (writeWatches_stopDrain hwatched) ⟨?_, ?_⟩, ?_⟩
  · dsimp only
    rw [hrest.1, hsent, hkernel]
    exact haccepted
  · dsimp only
    rw [hrest.1, hrest.2.1, hsent, hkernel, hstream]
    exact hwhole
  · dsimp only
    rw [hstream]
    exact hpending
  · dsimp only
    rw [hstream]
  · dsimp only
    rw [hrest.2.1, hkernel, hstream]
    exact hhealthy
  · dsimp only
    rw [hkernel, hstream]
    dsimp only
    rw [hwid, hnext]
    exact h.queue.ids.1
  · exact stopDrain_drainId hdrainId
  · refine h.promised.settle ok rfl ?_ ?_ ?_ ?_ ?_
    · dsimp only
      rw [hrest.2.2.1, hpromises, hstream, hws]
    · dsimp only
      rw [hrest.1, hsent]
    · dsimp only
      rw [hkernel]
      exact hgrow
    · dsimp only
      rw [hrest.2.2.2, hreturned]
    · dsimp only
      rw [hkernel]
      exact hok

theorem Inv.drain {reply : Reply} (h : Inv w) : Inv (w.drain reply) := by
  have hq := h.queue
  unfold Socket.drain
  by_cases hfd : w.stream.fd < 0
  · rw [if_pos hfd]
    exact h
  · rw [if_neg hfd]
    dsimp only
    have hopen : 0 ≤ w.stream.fd := by omega
    rcases sysSend_cases w w.stream.pending reply with hs | ⟨hfatal, hs⟩ | ⟨hfatal, m, hm, hs⟩
    · rw [hs]
      simp only [if_true]
      exact h.dropped rfl ⟨rfl, rfl, rfl, rfl⟩ rfl rfl rfl rfl rfl (prefix_refl _)
        hq.accepted nofun nofun nofun
    · rw [hs]
      exact h
    · rw [hs]
      have hnonneg : ¬ (m : Int) < 0 := by omega
      have hne : (m : Int) ≠ -2 := by omega
      simp only [if_neg hne, if_neg hnonneg, Int.toNat_natCast, Nat.cast_le]
      -- a tail that was dropped leaves nothing that could be accepted
      have hfront : w.kernel.accepted ++ w.stream.pending.take m <+: w.sent := by
        by_cases hl : w.lost = true
        · rw [hq.dead (Or.inr (Or.inl hl)), take_nil, append_nil]
          exact hq.accepted
        · rw [← hq.whole hopen hfatal (by simpa using hl)]
          exact (prefix_append_right_inj _).mpr ( take_prefix m _)
      by_cases hlen : w.stream.pending.length ≤ m
      · rw [if_pos hlen]
        have htake : w.stream.pending.take m = w.stream.pending := take_of_length_le hlen
        have hall : w.lost = false →
            w.kernel.accepted ++ w.stream.pending.take m = w.sent := by
          intro hl
          rw [htake]
          exact hq.whole hopen hfatal hl
        refine h.dropped rfl ⟨rfl, rfl, rfl, rfl⟩ rfl rfl rfl rfl rfl (prefix_append _ _)
          hfront (fun _ _ hl => hall hl) ?_ hq.healthy
        intro _ hwaiters
        exact hall (hq.healthy (hq.waiting hwaiters).2).2.2
      · rw [if_neg hlen]
        have hne : w.stream.pending ≠ [] := by
          intro hnil
          rw [hnil] at hlen
          exact hlen (Nat.zero_le m)
        have htail : w.stream.pending.drop m ≠ [] := by
          intro hnil
          exact hlen (List.drop_eq_nil_iff.mp hnil)
        refine ⟨⟨hfront, ?_, fun hdead => absurd (hq.dead hdead) hne,
          ⟨fun _ => htail, fun _ => hq.draining.mpr hne⟩, hq.healthy, hq.waiting, hq.watched,
          hq.ids⟩, h.promised.keep rfl rfl (prefix_refl _) (prefix_append _ _) rfl⟩
        intro _ _ hl
        show w.kernel.accepted ++ w.stream.pending.take m ++ w.stream.pending.drop m = w.sent
        rw [append_assoc, take_append_drop]
        exact hq.whole hopen hfatal hl

/-- The read-watch is removed. -/
theorem Inv.stopWatch (h : Inv w) (hidle : w.stream.draining = false) : Inv w.stopWatch := by
  have hq := h.queue
  have hwatched : w.kernel.writeWatches = [] := by
    have := hq.watched
    rw [hidle] at this
    exact this
  have hkernel := stopWatch_kernel w
  have hstream : w.stopWatch.stream = { w.stream with watching := false } := by
    rw [stopWatch_eq]
  have hrest : w.stopWatch.sent = w.sent ∧ w.stopWatch.lost = w.lost ∧
      w.stopWatch.promises = w.promises ∧ w.stopWatch.returned = w.returned := by
    rw [stopWatch_eq]
    exact ⟨rfl, rfl, rfl, rfl⟩
  refine ⟨Queue.empty ?_ ?_ ?_ ?_ ?_ ?_ (writeWatches_stopWatch hwatched) ⟨?_, ?_⟩, ?_⟩
  · rw [hkernel, hrest.1]
    exact hq.accepted
  · rw [hkernel, hstream, hrest.1, hrest.2.1]
    intro hfd hfatal hlost
    have := hq.whole hfd hfatal hlost
    rwa [hq.pending_of_idle hidle, append_nil] at this
  · rw [hstream]
    exact hq.pending_of_idle hidle
  · rw [hstream]
    exact hidle
  · rw [hstream]
    exact hq.waiters_of_idle hidle
  · rw [hkernel, hstream, hrest.2.1]
    exact hq.healthy
  · rw [hkernel, hstream]
    exact hq.ids.1
  · rw [hkernel, hstream]
    exact hq.ids.2.1
  · refine h.promised.keep ?_ hrest.2.2.1 ?_ ?_ hrest.2.2.2
    · rw [hstream]
    · rw [hrest.1]
    · rw [hkernel]

/-- The parts of `close` with the descriptor given up first. -/
theorem close_eq (hfd : ¬ w.stream.fd < 0) :
    w.close = (((w.release.unhealthy.setPending []).stopDrain).settleFlush false).stopWatch := by
  unfold Socket.close
  rw [if_neg hfd]
  simp only [stopWatch_eq, settleFlush_eq, stopDrain_eq, release, unhealthy, setPending]
  by_cases hd : w.stream.draining = true
  · by_cases hw : w.stream.watching = true
    · simp only [if_pos hd, if_pos hw, Kernel.sysUnwatch, Kernel.sysClose]
    · simp only [if_pos hd, if_neg hw, Kernel.sysUnwatch, Kernel.sysClose]
  · by_cases hw : w.stream.watching = true
    · simp only [if_neg hd, if_pos hw, Kernel.sysUnwatch, Kernel.sysClose]
    · simp only [if_neg hd, if_neg hw, Kernel.sysClose]

/-- After the queue was dropped nothing drains. -/
theorem draining_dropped (v : Socket) (ok : Bool) :
    (v.stopDrain.settleFlush ok).stream.draining = false := by
  rw [settleFlush_eq, stopDrain_eq]

theorem Inv.close (h : Inv w) : Inv w.close := by
  by_cases hfd : w.stream.fd < 0
  · unfold Socket.close
    rw [if_pos hfd]
    exact h
  · rw [close_eq hfd]
    refine Inv.stopWatch ?_ (draining_dropped _ _)
    refine h.dropped rfl ⟨rfl, rfl, rfl, rfl⟩ rfl rfl rfl rfl rfl (prefix_refl _)
      h.queue.accepted ?_ nofun nofun
    intro hopen
    exact absurd (show (0 : Int) ≤ -1 from hopen) (by decide)

theorem retireRead_eq (hkeep : w.stream.eofKeepsFd = true) :
    w.retireRead =
      ((({ w with lost := w.lost || (0 ≤ w.stream.fd && !w.stream.pending.isEmpty) }.setPending
        []).unhealthy.stopDrain).settleFlush false).stopWatch := by
  unfold Socket.retireRead
  rw [if_pos hkeep]
  simp only [stopDrain_eq, unhealthy, setPending]

theorem Inv.retireRead (h : Inv w) : Inv w.retireRead := by
  by_cases hkeep : w.stream.eofKeepsFd = true
  · rw [retireRead_eq hkeep]
    refine Inv.stopWatch ?_ (draining_dropped _ _)
    refine h.dropped rfl ⟨rfl, rfl, rfl, rfl⟩ rfl rfl rfl rfl rfl (prefix_refl _)
      h.queue.accepted ?_ nofun nofun
    intro hopen hfatal hlost
    -- nothing was dropped, so nothing was queued
    obtain ⟨hl, hp⟩ := Bool.or_eq_false_iff.mp hlost
    have hempty : w.stream.pending = [] := by
      have hfd : decide (0 ≤ w.stream.fd) = true := decide_eq_true hopen
      rw [hfd, Bool.true_and, Bool.not_eq_false'] at hp
      exact List.isEmpty_iff.mp hp
    have := h.queue.whole hopen hfatal hl
    rwa [hempty, append_nil] at this
  · unfold Socket.retireRead
    rw [if_neg hkeep]
    exact h.close

theorem Inv.flush (h : Inv w) : Inv w.flush.2 := by
  have hq := h.queue
  have hp := h.promised
  unfold Socket.flush
  by_cases hbad : w.stream.fd < 0 ∨ w.stream.writeHealthy = false
  · rw [if_pos hbad]
    refine ⟨⟨hq.accepted, hq.whole, hq.dead, hq.draining, hq.healthy, hq.waiting, hq.watched,
      hq.ids⟩, ⟨hp.nodup, hp.parked, hp.once, hp.before, hp.barrier, ?_⟩⟩
    intro r hr htrue
    rcases List.mem_append.mp hr with hr | hr
    · exact hp.returned r hr htrue
    · obtain rfl := List.mem_singleton.mp hr
      cases htrue
  · rw [if_neg hbad]
    obtain ⟨hfd, hhealthy⟩ := not_or.mp hbad
    rw [Bool.not_eq_false] at hhealthy
    by_cases hd : w.stream.draining = false
    · rw [if_pos hd]
      refine ⟨⟨hq.accepted, hq.whole, hq.dead, hq.draining, hq.healthy, hq.waiting, hq.watched,
        hq.ids⟩, ⟨hp.nodup, hp.parked, hp.once, hp.before, hp.barrier, ?_⟩⟩
      intro r hr htrue
      rcases List.mem_append.mp hr with hr | hr
      · exact hp.returned r hr htrue
      · obtain rfl := List.mem_singleton.mp hr
        obtain ⟨hopen, hfatal, hlost⟩ := hq.healthy hhealthy
        have := hq.whole hopen hfatal hlost
        rw [hq.pending_of_idle hd, append_nil] at this
        show w.sent <+: w.kernel.accepted
        rw [this]
    · rw [if_neg hd]
      rw [Bool.not_eq_false] at hd
      refine ⟨⟨hq.accepted, hq.whole, hq.dead, hq.draining, hq.healthy, fun _ => ⟨hd, hhealthy⟩,
        hq.watched, hq.ids⟩, hp.park rfl rfl rfl rfl rfl⟩

theorem Inv.onData (h : Inv w) (cb : Nat) : Inv (w.onData cb) := by
  have hq := h.queue
  have hids := hq.ids
  refine ⟨⟨hq.accepted, hq.whole, hq.dead, hq.draining, hq.healthy, hq.waiting, ?_, ?_⟩,
    h.promised.keep rfl rfl (prefix_refl _) (prefix_refl _) rfl⟩
  · show (w.kernel.sysWatch .read).2.writeWatches = _
    rw [writeWatches_sysWatch]
    exact (append_nil _).trans hq.watched
  · show (w.kernel.nextWatch : Int) < ((w.kernel.nextWatch + 1 : Nat) : Int) ∧
      w.stream.drainId < ((w.kernel.nextWatch + 1 : Nat) : Int) ∧
      (true = true → w.stream.draining = true → (w.kernel.nextWatch : Int) ≠ w.stream.drainId)
    exact ⟨by omega, by omega, fun _ _ => by omega⟩

/-- A change of the callbacks or of `eofKeepsFd` only. -/
theorem Inv.callbacks (h : Inv w) (onChunk onClosed : Option Nat) (eofKeepsFd : Bool) :
    Inv { w with stream := { w.stream with onChunk, onClosed, eofKeepsFd } } :=
  ⟨⟨h.queue.accepted, h.queue.whole, h.queue.dead, h.queue.draining, h.queue.healthy,
    h.queue.waiting, h.queue.watched, h.queue.ids⟩,
    h.promised.keep rfl rfl (prefix_refl _) (prefix_refl _) rfl⟩

theorem Inv.pump (h : Inv w) (chunk : Option Str) : Inv (w.pump chunk).2 := by
  unfold Socket.pump
  by_cases hfd : w.stream.fd < 0
  · rw [if_pos hfd]
    exact h
  · rw [if_neg hfd]
    cases chunk with
    | none => exact h.retireRead
    | some data => exact h

/-- Every careful call keeps the invariant. -/
theorem Inv.after {c : Call} (h : Inv w) (hcareful : Careful w c) : Inv (w.after c) := by
  cases c with
  | send s reply => exact h.send hcareful
  | flush => exact h.flush
  | drain reply => exact h.drain
  | retireRead => exact h.retireRead
  | close => exact h.close
  | onData cb => exact h.onData cb
  | onClose cb => exact h.callbacks w.stream.onChunk (some cb) w.stream.eofKeepsFd
  | keepFdOnEof => exact h.callbacks w.stream.onChunk w.stream.onClosed true
  | pump chunk => exact h.pump chunk

theorem inv_new (fd : Nat) : Inv (new fd) where
  queue := Queue.empty (prefix_refl _) (fun _ _ _ => rfl) rfl rfl rfl
    (fun _ => ⟨Int.natCast_nonneg fd, rfl, rfl⟩) rfl
    ⟨show (-1 : Int) < 0 by decide, show (-1 : Int) < 0 by decide⟩
  promised :=
    { nodup := nodup_nil
      parked := nofun
      once := nofun
      before := nofun
      barrier := nofun
      returned := nofun }

/-! ## Every run -/

/-- What a stream owes its callers. -/
structure Delivers (w : Socket) : Prop where
  /-- the kernel has a front part of what was sent, in order -/
  inOrder : w.kernel.accepted <+: w.sent
  /-- a parked flush waits unresolved, once, and only while a tail is pending; any other
  promise was resolved exactly once -/
  resolvedOnce : w.stream.flushWaiters.Nodup ∧
    (w.stream.flushWaiters ≠ [] → w.stream.pending ≠ []) ∧
    ∀ p q, w.promises[p]? = some q →
      (p ∈ w.stream.flushWaiters ∧ q.results = []) ∨
        (p ∉ w.stream.flushWaiters ∧ ∃ b, q.results = [b])
  /-- a flush that yields true had all its bytes accepted -/
  barrier : (∀ q ∈ w.promises, true ∈ q.results → q.sentBefore <+: w.kernel.accepted) ∧
    ∀ r ∈ w.returned, r.2 = true → r.1 <+: w.kernel.accepted
  /-- one write-watch is registered while a tail is pending, and none otherwise -/
  watched : w.kernel.writeWatches =
    if w.stream.pending = [] then [] else [(w.stream.drainId, .write)]

theorem Inv.delivers (h : Inv w) : Delivers w where
  inOrder := h.queue.accepted
  resolvedOnce := by
    refine ⟨h.promised.nodup, fun hne => h.queue.draining.mp (h.queue.waiting hne).1, ?_⟩
    intro p q hq
    by_cases hp : p ∈ w.stream.flushWaiters
    · obtain ⟨q', hq', hnone⟩ := h.promised.parked p hp
      obtain rfl := Option.some.inj (hq.symm.trans hq')
      exact Or.inl ⟨hp, hnone⟩
    · exact Or.inr ⟨hp, h.promised.once p q hq hp⟩
  barrier := ⟨h.promised.barrier, h.promised.returned⟩
  watched := by
    rw [h.queue.watched]
    by_cases hd : w.stream.draining = true
    · rw [if_pos hd, if_neg (h.queue.draining.mp hd)]
    · rw [if_neg hd, if_pos (h.queue.pending_of_idle (by simpa using hd))]

/-- **The write queue keeps its order and its barrier** in every run of calls none of which
sends on a descriptor that stayed open when the end of the input dropped a tail. -/
theorem write_queue_delivers (fd : Nat) {calls : List Call} {w : Socket}
    (hcareful : Runs.Steps step (fun w c _ => Careful w c) (new fd) calls)
    (hrun : Runs.run step (new fd) calls = some w) : Delivers w := by
  have hstep : ∀ w c w', Inv w → Careful w c → step w c = some w' → Inv w' := by
    intro w c w' h hc hw'
    obtain rfl := Option.some.inj hw'
    exact h.after hc
  exact (Runs.run_invariant_of_steps hstep (inv_new fd) hcareful hrun).delivers

/-- A short write, a flush that parks, and the wake that drains the tail. -/
theorem write_queue_delivers_tail :
    ∃ w, Runs.run step (new 3)
        [.send "abc".toList (.accepts 1), .flush, .drain (.accepts 2), .close] = some w ∧
      w.promises = [{ sentBefore := "abc".toList, results := [true] }] ∧ Delivers w := by
  have hcareful : Runs.Steps step (fun w c _ => Careful w c) (new 3)
      [.send "abc".toList (.accepts 1), .flush, .drain (.accepts 2), .close] := by
    intro w hw
    refine ⟨fun hlost => absurd hlost (by decide), ?_⟩
    intro w hw
    refine ⟨trivial, ?_⟩
    intro w hw
    refine ⟨trivial, ?_⟩
    intro w hw
    exact ⟨trivial, trivial⟩
  exact ⟨_, rfl, by decide, write_queue_delivers 3 hcareful rfl⟩

/-- The bytes of a send that follows a dropped tail are accepted: `ad` of `abc` and `d`. -/
theorem write_queue_skips_dropped_tail :
    ∃ w, Runs.run step (new 3)
        [.keepFdOnEof, .send "abc".toList (.accepts 1), .retireRead,
          .send "d".toList (.accepts 1)] = some w ∧
      w.kernel.accepted = "ad".toList ∧ w.sent = "abcd".toList ∧ ¬ Delivers w := by
  refine ⟨_, rfl, by decide, by decide, ?_⟩
  intro h
  have := h.inOrder
  revert this
  decide

end Socket

end Leviathan.Net
