import Leviathan.Runtime.Channel

/-!
# The two implementations of a channel

On the serial engines a `Channel` is an array queue on the one loop (`std.lev`), on the
native engine the ring of `Channel`.  This module runs both on the calls of one thread:
a native call takes its steps until it has returned.  `sysThreadTransfer` is the walk of
`lv_thread_flatten` and `lv_thread_rebuild` on one heap.

The queue mirrors the ring call by call, except that a capacity which is not positive is
one slot for the ring and no bound for the queue.
-/

namespace Leviathan.Runtime

/-- A call of one thread. -/
inductive ChannelCall (α : Type)
  | send (value : α)
  | receive
  | close

/-- How a call returns; `parked` if it does not. -/
inductive CallResult (γ : Type)
  | sent
  | dropped
  | raised (message : String)
  | received (value : Option γ)
  | closed
  | parked
  deriving DecidableEq

section engines

variable {α β γ : Type} (flatten : α → Except String β) (rebuild : β → γ)

/-! ### The ring -/

/-- Takes the steps of a call until none is left. -/
def settle (step : Threads α β γ → Option (Threads α β γ)) :
    Nat → Threads α β γ → Threads α β γ
  | 0, s => s
  | n + 1, s =>
    match step s with
    | none => s
    | some s' => settle step n s'

/-- The last send has returned, or it is parked. -/
def Threads.sendResult (s : Threads α β γ) : CallResult γ :=
  match s.producer, s.outcomes.getLast? with
  | .idle, some (_, .sent) => .sent
  | .idle, some (_, .dropped) => .dropped
  | .idle, some (_, .raised message) => .raised message
  | _, _ => .parked

/-- The last receive has returned, or it is parked. -/
def Threads.receiveResult (s : Threads α β γ) : CallResult γ :=
  match s.consumer, s.results.getLast? with
  | .idle, some value => .received value
  | _, _ => .parked

/-- A call of the ring.  A call that does not wait returns within six steps. -/
def ringCall (s : Threads α β γ) : ChannelCall α → CallResult γ × Threads α β γ
  | .send v =>
    let s' := settle (sysChannelSend flatten) 6 { s with producer := .entered v }
    (s'.sendResult, s')
  | .receive =>
    let s' := settle (sysChannelReceive rebuild) 6 { s with consumer := .retrying }
    (s'.receiveResult, s')
  | .close =>
    (.closed, ((step flatten rebuild s .close).bind (step flatten rebuild · .wake)).getD s)

/-! ### The queue -/

/-- `std::Channel` with `id < 0`.  A promise is a number; `resolved` records those that
have been resolved. -/
structure LoopChannel (γ : Type) where
  buf : List γ
  waiters : List Nat
  closed : Bool
  cap : Int
  policy : Int
  promises : Nat
  resolved : List (Nat × Option γ)

def LoopChannel.new (γ : Type) (capacity policy : Int) : LoopChannel γ where
  buf := []
  waiters := []
  closed := false
  cap := capacity
  policy := policy
  promises := 0
  resolved := []

/-- `sysThreadTransfer`. -/
def sysThreadTransfer (v : α) : Except String γ :=
  match flatten v with
  | .ok buf => .ok (rebuild buf)
  | .error err =>
    .error (if err = "" then "value cannot cross a thread boundary (v1)" else err)

/-- `Channel.send`. -/
def LoopChannel.send (c : LoopChannel γ) (value : α) : CallResult γ × LoopChannel γ :=
  if c.closed then (.raised "send on a closed channel", c)
  else
    match sysThreadTransfer flatten rebuild value with
    | .error err => (.raised err, c)
    | .ok v =>
      match c.waiters with
      | w :: waiters => (.sent, { c with waiters, resolved := c.resolved ++ [(w, some v)] })
      | [] =>
        if 0 < c.cap ∧ c.cap ≤ c.buf.length ∧ c.policy = 1 then (.dropped, c)
        else if 0 < c.cap ∧ c.cap ≤ c.buf.length ∧ c.policy = 2 then
          (.raised "channel overflow", c)
        else (.sent, { c with buf := c.buf ++ [v] })

/-- `Channel.receive`. -/
def LoopChannel.receive (c : LoopChannel γ) : CallResult γ × LoopChannel γ :=
  match c.buf with
  | v :: buf =>
    (.received (some v),
      { c with buf, promises := c.promises + 1, resolved := c.resolved ++ [(c.promises, some v)] })
  | [] =>
    if c.closed then
      (.received none,
        { c with promises := c.promises + 1, resolved := c.resolved ++ [(c.promises, none)] })
    else
      (.parked, { c with promises := c.promises + 1, waiters := c.waiters ++ [c.promises] })

/-- `Channel.close`. -/
def LoopChannel.close (c : LoopChannel γ) : LoopChannel γ :=
  { c with
    closed := true
    waiters := []
    resolved := c.resolved ++ c.waiters.map (·, none) }

/-- A call of the queue. -/
def loopCall (c : LoopChannel γ) : ChannelCall α → CallResult γ × LoopChannel γ
  | .send v => c.send flatten rebuild v
  | .receive => c.receive
  | .close => (.closed, c.close)

/-! ### Runs -/

/-- A receive finds a message or the channel closed, and a send that would wait for space
finds some. -/
def Admitted (s : Threads α β γ) : ChannelCall α → Prop
  | .send _ =>
    s.channel.policy ≠ 1 → s.channel.policy ≠ 2 → s.channel.closed = false →
      s.channel.tail - s.channel.head < s.channel.capacity
  | .receive => s.channel.head < s.channel.tail ∨ s.channel.closed = true
  | .close => True

/-- Every call is admitted where it is made. -/
def AllAdmitted : Threads α β γ → List (ChannelCall α) → Prop
  | _, [] => True
  | s, c :: cs => Admitted s c ∧ AllAdmitted (ringCall flatten rebuild s c).2 cs

/-- The engines return the same from every call, and the end of the channel exactly when it
is closed and drained. -/
def Agree : Threads α β γ → LoopChannel γ → List (ChannelCall α) → Prop
  | _, _, [] => True
  | s, l, c :: cs =>
    (ringCall flatten rebuild s c).1 = (loopCall flatten rebuild l c).1 ∧
    ((ringCall flatten rebuild s c).1 = .received none ↔
      c = .receive ∧ s.channel.closed = true ∧ s.channel.head = s.channel.tail) ∧
    Agree (ringCall flatten rebuild s c).2 (loopCall flatten rebuild l c).2 cs

/-! ### What a call of the ring does -/

variable {flatten rebuild}

theorem ringCall_send_closed {s : Threads α β γ} (v : α) (hclosed : s.channel.closed = true) :
    ringCall flatten rebuild s (.send v) =
      (.raised "send on a closed channel",
        s.sendReturns v (.raised "send on a closed channel")) := by
  simp [ringCall, settle, sysChannelSend, hclosed, Threads.sendReturns, Threads.sendResult]

theorem ringCall_send_refused {s : Threads α β γ} {v : α} {err : String}
    (hclosed : s.channel.closed = false) (hflat : flatten v = .error err) :
    ringCall flatten rebuild s (.send v) =
      (.raised (if err = "" then "value cannot cross a thread boundary (v1)" else err),
        s.sendReturns v (.raised
          (if err = "" then "value cannot cross a thread boundary (v1)" else err))) := by
  simp [ringCall, settle, sysChannelSend, hclosed, hflat, Threads.sendReturns, Threads.sendResult]

variable (rebuild) in
theorem ringCall_send_full {s : Threads α β γ} {v : α} {b : β}
    (hclosed : s.channel.closed = false) (hflat : flatten v = .ok b)
    (hfull : ¬ s.channel.tail - s.channel.head < s.channel.capacity) :
    (s.channel.policy = 1 → ringCall flatten rebuild s (.send v) =
      (.dropped, s.sendReturns v .dropped)) ∧
    (s.channel.policy = 2 → ringCall flatten rebuild s (.send v) =
      (.raised "channel overflow", s.sendReturns v (.raised "channel overflow"))) := by
  constructor
  · intro hpolicy
    simp [ringCall, settle, sysChannelSend, hclosed, hflat, hfull, hpolicy, Threads.sendReturns,
      Threads.sendResult]
  · intro hpolicy
    simp [ringCall, settle, sysChannelSend, hclosed, hflat, hfull, hpolicy, Threads.sendReturns,
      Threads.sendResult]

/-- The threads after a send that has found space. -/
def Threads.stored (s : Threads α β γ) (v : α) (b : β) : Threads α β γ :=
  { s with
    channel := { s.channel with
      ring := Function.update s.channel.ring (s.channel.tail % s.channel.capacity) (some b)
      tail := s.channel.tail + 1
      dataReady := s.channel.dataReady + 1 }
    producer := .idle
    enqueued := s.enqueued ++ [v]
    outcomes := s.outcomes ++ [(v, .sent)] }

variable (rebuild) in
theorem ringCall_send_space {s : Threads α β γ} {v : α} {b : β}
    (hclosed : s.channel.closed = false) (hflat : flatten v = .ok b)
    (hspace : s.channel.tail - s.channel.head < s.channel.capacity) :
    ringCall flatten rebuild s (.send v) = (.sent, s.stored v b) := by
  simp [ringCall, settle, sysChannelSend, hclosed, hflat, hspace, Threads.sendReturns,
    Threads.sendResult, Threads.stored]

/-- The threads after a receive that has found a message. -/
def Threads.taken (rebuild : β → γ) (s : Threads α β γ) (b : β) : Threads α β γ :=
  { s with
    channel := { s.channel with
      head := s.channel.head + 1
      spaceReady := s.channel.spaceReady + 1 }
    consumer := .idle
    results := s.results ++ [some (rebuild b)] }

theorem ringCall_receive {s : Threads α β γ} {b : β} (hsome : s.channel.head < s.channel.tail)
    (hslot : s.channel.ring (s.channel.head % s.channel.capacity) = some b) :
    ringCall flatten rebuild s .receive =
      (.received (some (rebuild b)), s.taken rebuild b) := by
  simp [ringCall, settle, sysChannelReceive, hsome, hslot, Threads.receiveReturns,
    Threads.receiveResult, Threads.taken]

theorem ringCall_receive_end {s : Threads α β γ} (hnone : ¬ s.channel.head < s.channel.tail)
    (hclosed : s.channel.closed = true) :
    ringCall flatten rebuild s .receive = (.received none, s.receiveReturns none) := by
  simp [ringCall, settle, sysChannelReceive, hnone, hclosed, Threads.receiveReturns,
    Threads.receiveResult]

theorem ringCall_close {s : Threads α β γ} :
    ringCall flatten rebuild s .close =
      (.closed, { s with
        channel := { s.channel with closed := true, dataReady := s.channel.dataReady + 1 } }) := by
  simp [ringCall, step]

/-! ### The queue mirrors the ring -/

/-- The array holds what the slots from the head to the tail hold. -/
structure Mirrors (rebuild : β → γ) (c : Channel β) (l : LoopChannel γ) : Prop where
  waiters : l.waiters = []
  closed : l.closed = c.closed
  policy : l.policy = c.policy
  capacity : 0 < l.cap → (c.capacity : Int) = l.cap
  head_le : c.head ≤ c.tail
  length : c.tail = c.head + l.buf.length
  slots : ∀ i x, l.buf[i]? = some x →
    ∃ b, c.ring ((c.head + i) % c.capacity) = some b ∧ x = rebuild b
  room : l.buf.length ≤ c.capacity

theorem mirrors_new (capacity policy : Int) :
    Mirrors rebuild (sysChannelNew β capacity policy) (LoopChannel.new γ capacity policy) where
  waiters := rfl
  closed := rfl
  policy := rfl
  capacity := by
    intro h
    have hcap : 0 < capacity := h
    show ((if 0 < capacity then capacity.toNat else 1 : Nat) : Int) = capacity
    rw [if_pos hcap]
    omega
  head_le := le_rfl
  length := rfl
  slots := by
    intro i x h
    cases h
  room := Nat.zero_le _

variable {c : Channel β} {l : LoopChannel γ}

/-- The ring bounds what the queue bounds. -/
def Bounded (capacity policy : Int) : Prop := 0 < capacity ∨ (policy ≠ 1 ∧ policy ≠ 2)

instance (capacity policy : Int) : Decidable (Bounded capacity policy) :=
  inferInstanceAs (Decidable (_ ∨ _))

theorem Mirrors.stored (h : Mirrors rebuild c l) (b : β) (hspace : c.tail - c.head < c.capacity)
    (ready : Nat) :
    Mirrors rebuild
      { c with
        ring := Function.update c.ring (c.tail % c.capacity) (some b)
        tail := c.tail + 1
        dataReady := ready }
      { l with buf := l.buf ++ [rebuild b] } where
  waiters := h.waiters
  closed := h.closed
  policy := h.policy
  capacity := h.capacity
  head_le := Nat.le_succ_of_le h.head_le
  length := by
    show c.tail + 1 = c.head + (l.buf ++ [rebuild b]).length
    rw [List.length_append, List.length_singleton, h.length]
    omega
  slots := by
    intro i x hx
    have htail := h.length
    show ∃ b', Function.update c.ring (c.tail % c.capacity) (some b) ((c.head + i) % c.capacity) =
      some b' ∧ x = rebuild b'
    have hx' : (l.buf ++ [rebuild b])[i]? = some x := hx
    by_cases hi : i < l.buf.length
    · rw [List.getElem?_append_left hi] at hx'
      have hne : (c.head + i) % c.capacity ≠ c.tail % c.capacity :=
        mod_ne_mod (by omega) (Nat.le_add_right c.head i) (by omega)
      rw [Function.update_of_ne hne]
      exact h.slots i x hx'
    · rw [List.getElem?_append_right (by omega)] at hx'
      obtain ⟨hlast, hxb⟩ := List.getElem?_eq_some_iff.mp hx'
      have hi' : c.head + i = c.tail := by
        rw [List.length_singleton] at hlast
        omega
      rw [hi', Function.update_self]
      refine ⟨b, rfl, ?_⟩
      rw [← hxb, List.getElem_singleton]
  room := by
    have htail := h.length
    show (l.buf ++ [rebuild b]).length ≤ c.capacity
    rw [List.length_append, List.length_singleton]
    omega

theorem Mirrors.taken {x : γ} {buf : List γ} (h : Mirrors rebuild c l) (hbuf : l.buf = x :: buf)
    (ready promises : Nat) (resolved : List (Nat × Option γ)) :
    Mirrors rebuild { c with head := c.head + 1, spaceReady := ready }
      { l with buf, promises, resolved } where
  waiters := h.waiters
  closed := h.closed
  policy := h.policy
  capacity := h.capacity
  head_le := by
    have := h.length
    rw [hbuf, List.length_cons] at this
    show c.head + 1 ≤ c.tail
    omega
  length := by
    have := h.length
    rw [hbuf, List.length_cons] at this
    show c.tail = c.head + 1 + buf.length
    omega
  slots := by
    intro i y hy
    have := h.slots (i + 1) y (by rw [hbuf]; exact hy)
    rwa [show c.head + (i + 1) = c.head + 1 + i by omega] at this
  room := by
    have := h.room
    rw [hbuf, List.length_cons] at this
    show buf.length ≤ c.capacity
    omega

/-- One call: the engines return the same and the queue goes on mirroring the ring. -/
structure CallAgrees (rebuild : β → γ) (s : Threads α β γ) (l : LoopChannel γ)
    (c : ChannelCall α) (ring : CallResult γ × Threads α β γ)
    (queue : CallResult γ × LoopChannel γ) : Prop where
  same : ring.1 = queue.1
  atEnd : ring.1 = .received none ↔
    c = .receive ∧ s.channel.closed = true ∧ s.channel.head = s.channel.tail
  mirrors : Mirrors rebuild ring.2.channel queue.2
  cap : queue.2.cap = l.cap
  policy : queue.2.policy = l.policy

section
variable {s : Threads α β γ} (h : Mirrors rebuild s.channel l)
include h

theorem send_agrees (hbounded : Bounded l.cap l.policy) (v : α) (hadmitted : Admitted s (.send v)) :
    CallAgrees rebuild s l (.send v) (ringCall flatten rebuild s (.send v))
      (l.send flatten rebuild v) := by
  cases hclosed : s.channel.closed with
  | true =>
    have hl : l.closed = true := by rw [h.closed, hclosed]
    rw [ringCall_send_closed v hclosed]
    unfold LoopChannel.send
    rw [if_pos hl]
    exact ⟨rfl, by simp, h, rfl, rfl⟩
  | false =>
    have hl : ¬ l.closed = true := by rw [h.closed, hclosed]; exact Bool.false_ne_true
    cases hflat : flatten v with
    | error err =>
      rw [ringCall_send_refused hclosed hflat]
      unfold LoopChannel.send sysThreadTransfer
      rw [if_neg hl, hflat]
      exact ⟨rfl, by simp, h, rfl, rfl⟩
    | ok b =>
      have hqueue : l.send flatten rebuild v =
          if 0 < l.cap ∧ l.cap ≤ l.buf.length ∧ l.policy = 1 then (.dropped, l)
          else if 0 < l.cap ∧ l.cap ≤ l.buf.length ∧ l.policy = 2 then
            (.raised "channel overflow", l)
          else (.sent, { l with buf := l.buf ++ [rebuild b] }) := by
        unfold LoopChannel.send sysThreadTransfer
        rw [if_neg hl, hflat]
        simp only [h.waiters]
      have hlen := h.length
      rw [hqueue]
      by_cases hspace : s.channel.tail - s.channel.head < s.channel.capacity
      · have hnotFull : ∀ p : Prop, ¬ (0 < l.cap ∧ l.cap ≤ l.buf.length ∧ p) := by
          intro p hfull
          have hcap := h.capacity hfull.1
          omega
        rw [ringCall_send_space rebuild hclosed hflat hspace, if_neg (hnotFull _), if_neg (hnotFull _)]
        exact ⟨rfl, by simp, h.stored b hspace _, rfl, rfl⟩
      · -- a full ring that does not wait drops or raises, and then the queue is bounded too
        have hfull : ∀ p : Prop, l.policy = 1 ∨ l.policy = 2 → p →
            0 < l.cap ∧ l.cap ≤ l.buf.length ∧ p := by
          intro p hpolicy hp
          have hcap : 0 < l.cap := by
            rcases hbounded with hpos | ⟨hone, htwo⟩
            · exact hpos
            · rcases hpolicy with hpolicy | hpolicy
              · exact absurd hpolicy hone
              · exact absurd hpolicy htwo
          have := h.capacity hcap
          exact ⟨hcap, by omega, hp⟩
        obtain ⟨hdrop, herror⟩ := ringCall_send_full rebuild hclosed hflat hspace
        by_cases hone : s.channel.policy = 1
        · have hone' : l.policy = 1 := by rw [h.policy, hone]
          rw [hdrop hone, if_pos (hfull _ (.inl hone') hone')]
          exact ⟨rfl, by simp, h, rfl, rfl⟩
        · by_cases htwo : s.channel.policy = 2
          · have htwo' : l.policy = 2 := by rw [h.policy, htwo]
            have hne : ¬ (0 < l.cap ∧ l.cap ≤ l.buf.length ∧ l.policy = 1) := by
              intro hcontra
              rw [h.policy] at hcontra
              exact hone hcontra.2.2
            rw [herror htwo, if_neg hne, if_pos (hfull _ (.inr htwo') htwo')]
            exact ⟨rfl, by simp, h, rfl, rfl⟩
          · exact absurd (hadmitted hone htwo hclosed) hspace

theorem receive_agrees (hadmitted : Admitted s (.receive : ChannelCall α)) :
    CallAgrees rebuild s l (.receive : ChannelCall α) (ringCall flatten rebuild s .receive)
      l.receive := by
  have hlen := h.length
  cases hbuf : l.buf with
  | nil =>
    rw [hbuf, List.length_nil, Nat.add_zero] at hlen
    have hnone : ¬ s.channel.head < s.channel.tail := by omega
    have hclosed : s.channel.closed = true := by
      rcases hadmitted with hsome | hclosed
      · exact absurd hsome hnone
      · exact hclosed
    have hl : l.closed = true := by rw [h.closed, hclosed]
    have hqueue : l.receive = (.received none,
        { l with
          promises := l.promises + 1
          resolved := l.resolved ++ [(l.promises, none)] }) := by
      simp [LoopChannel.receive, hbuf, hl]
    rw [ringCall_receive_end hnone hclosed, hqueue]
    refine ⟨rfl, by simp [hclosed, hlen], ?_, rfl, rfl⟩
    exact ⟨h.waiters, h.closed, h.policy, h.capacity, h.head_le, h.length, h.slots, h.room⟩
  | cons x buf =>
    obtain ⟨b, hslot, hx⟩ := h.slots 0 x (by rw [hbuf]; rfl)
    rw [Nat.add_zero] at hslot
    rw [hbuf, List.length_cons] at hlen
    have hsome : s.channel.head < s.channel.tail := by omega
    have hne : ¬ s.channel.head = s.channel.tail := by omega
    rw [ringCall_receive hsome hslot]
    simp only [LoopChannel.receive, hbuf]
    exact ⟨by rw [hx], by simp [hne], h.taken hbuf _ _ _, rfl, rfl⟩

theorem close_agrees :
    CallAgrees rebuild s l (.close : ChannelCall α) (ringCall flatten rebuild s .close)
      (.closed, l.close) := by
  rw [ringCall_close]
  exact ⟨rfl, by simp, ⟨rfl, rfl, h.policy, h.capacity, h.head_le, h.length, h.slots, h.room⟩, rfl,
    rfl⟩

end

variable (flatten) in
theorem call_agrees {s : Threads α β γ} (h : Mirrors rebuild s.channel l)
    (hbounded : Bounded l.cap l.policy) (c : ChannelCall α) (hadmitted : Admitted s c) :
    CallAgrees rebuild s l c (ringCall flatten rebuild s c) (loopCall flatten rebuild l c) := by
  cases c with
  | send v => exact send_agrees h hbounded v hadmitted
  | receive => exact receive_agrees h hadmitted
  | close => exact close_agrees h

theorem agree_of_bounded {s : Threads α β γ} (h : Mirrors rebuild s.channel l)
    (hbounded : Bounded l.cap l.policy) (calls : List (ChannelCall α))
    (hadmitted : AllAdmitted flatten rebuild s calls) : Agree flatten rebuild s l calls := by
  induction calls generalizing s l with
  | nil => trivial
  | cons c cs ih =>
    have hcall := call_agrees flatten h hbounded c hadmitted.1
    have hbounded' : Bounded (loopCall flatten rebuild l c).2.cap
        (loopCall flatten rebuild l c).2.policy := by
      rw [hcall.cap, hcall.policy]
      exact hbounded
    exact ⟨hcall.same, hcall.atEnd, ih hcall.mirrors hbounded' hadmitted.2⟩

variable (rebuild) in
/-- Two sends to a channel whose capacity is not positive. -/
theorem disagree_of_unbounded {v : α} {b : β} (hflat : flatten v = .ok b) {capacity policy : Int}
    (hunbounded : ¬ Bounded capacity policy) :
    AllAdmitted flatten rebuild (Threads.fresh α β γ capacity policy) [.send v, .send v] ∧
      ¬ Agree flatten rebuild (Threads.fresh α β γ capacity policy)
        (LoopChannel.new γ capacity policy) [.send v, .send v] := by
  have hcap : ¬ 0 < capacity := fun h => hunbounded (.inl h)
  have hpolicy : policy = 1 ∨ policy = 2 := by
    by_cases hone : policy = 1
    · exact .inl hone
    · by_cases htwo : policy = 2
      · exact .inr htwo
      · exact absurd (.inr ⟨hone, htwo⟩) hunbounded
  have hslot : (Threads.fresh α β γ capacity policy).channel.capacity = 1 := by
    show (if 0 < capacity then capacity.toNat else 1) = 1
    rw [if_neg hcap]
  have hspace : (Threads.fresh α β γ capacity policy).channel.tail -
      (Threads.fresh α β γ capacity policy).channel.head <
        (Threads.fresh α β γ capacity policy).channel.capacity := by
    rw [hslot]
    exact Nat.zero_lt_one
  have hfirst := ringCall_send_space rebuild
    (s := Threads.fresh α β γ capacity policy) rfl hflat hspace
  have hfull : ¬ ((Threads.fresh α β γ capacity policy).stored v b).channel.tail -
      ((Threads.fresh α β γ capacity policy).stored v b).channel.head <
        ((Threads.fresh α β γ capacity policy).stored v b).channel.capacity := by
    show ¬ 0 + 1 - 0 < (Threads.fresh α β γ capacity policy).channel.capacity
    rw [hslot]
    decide
  obtain ⟨hdrop, herror⟩ := ringCall_send_full rebuild
    (s := (Threads.fresh α β γ capacity policy).stored v b) rfl hflat hfull
  have hnotFull : ∀ p : Prop, ¬ (0 < capacity ∧ p) := fun p h => hcap h.1
  constructor
  · refine ⟨?_, ?_, trivial⟩
    · intro hone htwo
      rcases hpolicy with h | h
      · exact absurd h hone
      · exact absurd h htwo
    · rw [hfirst]
      intro hone htwo
      rcases hpolicy with h | h
      · exact absurd h hone
      · exact absurd h htwo
  · intro hagree
    obtain ⟨-, -, hsecond, -⟩ := hagree
    rw [hfirst] at hsecond
    have hqueue : ∀ buf : List γ, (loopCall flatten rebuild
        { LoopChannel.new γ capacity policy with buf } (.send v)) =
        (.sent, { LoopChannel.new γ capacity policy with buf := buf ++ [rebuild b] }) := by
      intro buf
      simp [loopCall, LoopChannel.send, LoopChannel.new, sysThreadTransfer, hflat, hcap]
    have hqueue₁ := hqueue []
    have hstart : ({ LoopChannel.new γ capacity policy with buf := [] } : LoopChannel γ) =
        LoopChannel.new γ capacity policy := rfl
    rw [hstart] at hqueue₁
    rw [hqueue₁, hqueue] at hsecond
    rcases hpolicy with h | h
    · rw [hdrop h] at hsecond
      cases hsecond
    · rw [herror h] at hsecond
      cases hsecond

end engines

end Leviathan.Runtime
