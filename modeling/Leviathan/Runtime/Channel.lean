import Leviathan.Lib.Runs

/-!
# Channels between two threads

A channel is a ring of message slots with a cursor for each end: the producer stores a
buffer and then the tail, the consumer reads a buffer and then stores the head.  Two
event counters wake whichever end is parked, and a flag closes the channel.

The threads are modelled step by step.  Each load or store of a cursor, of the flag or
of a slot, and each read or write of an event counter, is one step, and the steps of the
producer, of the consumer and of whoever closes the channel interleave in any order
(`step`).  `lv_thread_flatten` and `lv_thread_rebuild` are the parameters `flatten`
and `rebuild`: the channel moves buffers and does not look at them.

Whatever the interleaving, every message stored is received, in the consumer's hand or
waiting in the ring, in the order sent (`Delivered`).  What the interleaving
can break is the end of the channel: the consumer loads the tail and then, in a later
step, the flag (`delivery_iff`).
-/

namespace Leviathan.Runtime

open Leviathan.Runs List

/-- `LvChannel`.  The cursors only grow; slot `i` of the ring is `i % capacity`. -/
structure Channel (β : Type) where
  capacity : Nat
  capacity_pos : 0 < capacity
  policy : Int
  closed : Bool
  ring : Nat → Option β
  head : Nat
  tail : Nat
  dataReady : Nat
  spaceReady : Nat

/-- `lvrt_syschannelnew`: a capacity that is not positive counts as one. -/
def sysChannelNew (β : Type) (capacity policy : Int) : Channel β where
  capacity := if 0 < capacity then capacity.toNat else 1
  capacity_pos := by
    split
    · omega
    · decide
  policy := policy
  closed := false
  ring := fun _ => none
  head := 0
  tail := 0
  dataReady := 0
  spaceReady := 0

/-- Where the producer stands in `lvrt_syschannelsend`. -/
inductive Sending (α β : Type)
  | idle
  | entered (value : α)
  | retrying (value : α) (buf : β)
  | headLoaded (value : α) (buf : β) (head : Nat)
  | tailLoaded (value : α) (buf : β) (head tail : Nat)
  | slotWritten (value : α) (buf : β) (tail : Nat)
  | tailStored (value : α)
  | parked (value : α) (buf : β)

/-- Where the consumer stands in `lvrt_syschannelreceive`. -/
inductive Receiving (β : Type)
  | idle
  | retrying
  | headLoaded (head : Nat)
  | tailLoaded (head tail : Nat)
  | slotRead (buf : β) (head : Nat)
  | headStored (buf : β)
  | parked

/-- How a send returns. -/
inductive Outcome
  | sent
  | dropped
  | raised (message : String)
  deriving DecidableEq

/-- The channel and its threads.  `closing` counts the closers between their store of
the flag and their wake.  The last three fields record what happened: the values whose
tail store is done, how each send returned and what each receive returned. -/
structure Threads (α β γ : Type) where
  channel : Channel β
  producer : Sending α β
  consumer : Receiving β
  closing : Nat
  enqueued : List α
  outcomes : List (α × Outcome)
  results : List (Option γ)

/-- The threads of a fresh channel. -/
def Threads.fresh (α β γ : Type) (capacity policy : Int) : Threads α β γ where
  channel := sysChannelNew β capacity policy
  producer := .idle
  consumer := .idle
  closing := 0
  enqueued := []
  outcomes := []
  results := []

/-- A step of a thread: a call of one of the three natives, or the next step of a call
under way. -/
inductive Action (α : Type)
  | send (value : α)
  | producer
  | receive
  | consumer
  | close
  | wake

variable {α β γ : Type} (flatten : α → Except String β) (rebuild : β → γ)

/-- The send under way returns. -/
def Threads.sendReturns (s : Threads α β γ) (value : α) (outcome : Outcome) : Threads α β γ :=
  { s with producer := .idle, outcomes := s.outcomes ++ [(value, outcome)] }

/-- The receive under way returns. -/
def Threads.receiveReturns (s : Threads α β γ) (result : Option γ) : Threads α β γ :=
  { s with consumer := .idle, results := s.results ++ [result] }

/-- `lvrt_syschannelsend`, one step. -/
def sysChannelSend (s : Threads α β γ) : Option (Threads α β γ) :=
  let c := s.channel
  match s.producer with
  | .idle => none
  | .entered v =>
    if c.closed then some (s.sendReturns v (.raised "send on a closed channel"))
    else
      match flatten v with
      | .error err =>
        some (s.sendReturns v (.raised
          (if err = "" then "value cannot cross a thread boundary (v1)" else err)))
      | .ok buf => some { s with producer := .retrying v buf }
  | .retrying v buf => some { s with producer := .headLoaded v buf c.head }
  | .headLoaded v buf head => some { s with producer := .tailLoaded v buf head c.tail }
  | .tailLoaded v buf head tail =>
    if tail - head < c.capacity then
      some { s with
        channel := { c with ring := Function.update c.ring (tail % c.capacity) (some buf) }
        producer := .slotWritten v buf tail }
    else if c.policy = 1 then some (s.sendReturns v .dropped)
    else if c.policy = 2 then some (s.sendReturns v (.raised "channel overflow"))
    else some { s with producer := .parked v buf }
  | .slotWritten v _ tail =>
    some { s with
      channel := { c with tail := tail + 1 }
      producer := .tailStored v
      enqueued := s.enqueued ++ [v] }
  | .tailStored v =>
    some ({ s with channel := { c with dataReady := c.dataReady + 1 } }.sendReturns v .sent)
  | .parked v buf =>
    -- a blocking read of the event counter, which resets it
    if 0 < c.spaceReady then
      some { s with channel := { c with spaceReady := 0 }, producer := .retrying v buf }
    else none

/-- `lvrt_syschannelreceive`, one step. -/
def sysChannelReceive (s : Threads α β γ) : Option (Threads α β γ) :=
  let c := s.channel
  match s.consumer with
  | .idle => none
  | .retrying => some { s with consumer := .headLoaded c.head }
  | .headLoaded head => some { s with consumer := .tailLoaded head c.tail }
  | .tailLoaded head tail =>
    if head < tail then
      match c.ring (head % c.capacity) with
      | some buf => some { s with consumer := .slotRead buf head }
      | none => none
    else if c.closed then some (s.receiveReturns none)
    else some { s with consumer := .parked }
  | .slotRead buf head =>
    some { s with channel := { c with head := head + 1 }, consumer := .headStored buf }
  | .headStored buf =>
    some ({ s with channel := { c with spaceReady := c.spaceReady + 1 } }.receiveReturns
      (some (rebuild buf)))
  | .parked =>
    if 0 < c.dataReady then
      some { s with channel := { c with dataReady := 0 }, consumer := .retrying }
    else none

/-- One step of one of the threads.  There is one producer and one consumer, so a call
starts only when the call before it has returned; a close can come from anywhere. -/
def step (s : Threads α β γ) : Action α → Option (Threads α β γ)
  | .send v =>
    match s.producer with
    | .idle => some { s with producer := .entered v }
    | _ => none
  | .producer => sysChannelSend flatten s
  | .receive =>
    match s.consumer with
    | .idle => some { s with consumer := .retrying }
    | _ => none
  | .consumer => sysChannelReceive rebuild s
  | .close => some { s with channel := { s.channel with closed := true }, closing := s.closing + 1 }
  | .wake =>
    if 0 < s.closing then
      some { s with
        channel := { s.channel with dataReady := s.channel.dataReady + 1 }
        closing := s.closing - 1 }
    else none

/-! ### What delivery means -/

/-- What a value arrives as: its buffer, rebuilt. -/
def arrives (v : α) : Option γ :=
  match flatten v with
  | .ok buf => some (rebuild buf)
  | .error _ => none

/-- The values whose send returned normally. -/
def Threads.sent (s : Threads α β γ) : List α :=
  s.outcomes.filterMap fun o => if o.2 = .sent then some o.1 else none

/-- The value of a send that has stored the tail and not returned yet. -/
def Sending.returning : Sending α β → List α
  | .tailStored v => [v]
  | _ => []

/-- The values received. -/
def Threads.received (s : Threads α β γ) : List γ := s.results.reduceOption

/-- The message the consumer has taken and not returned yet. -/
def Receiving.inHand : Receiving β → List γ
  | .headStored buf => [rebuild buf]
  | _ => []

/-- The messages in the ring, from the head to the tail. -/
def Channel.waiting (c : Channel β) : List β :=
  (List.range' c.head (c.tail - c.head)).filterMap fun i => c.ring (i % c.capacity)

/-- Every message stored is received, in the consumer's hand or in the ring, in the order
the values were sent. -/
def Delivered (s : Threads α β γ) : Prop :=
  s.enqueued = s.sent ++ s.producer.returning ∧
    s.received ++ s.consumer.inHand rebuild ++ s.channel.waiting.map rebuild =
      s.enqueued.filterMap (arrives flatten rebuild)

/-- This step makes a receive return the end of the channel. -/
def ReportsEnd (s : Threads α β γ) (a : Action α) : Prop :=
  match a, s.consumer with
  | .consumer, .tailLoaded head tail => ¬ head < tail ∧ s.channel.closed = true
  | _, _ => False

/-! ### What every step keeps -/

/-- What the values sent arrive as. -/
def Threads.arrivals (s : Threads α β γ) : List γ :=
  s.enqueued.filterMap (arrives flatten rebuild)

/-- The ring between the cursors holds the messages that are still to arrive. -/
structure Channel.Holds (c : Channel β) (arrivals : List γ) : Prop where
  tail_eq : c.tail = arrivals.length
  head_le : c.head ≤ c.tail
  room : c.tail ≤ c.head + c.capacity
  slots : ∀ i, c.head ≤ i → i < c.tail →
    ∃ buf, c.ring (i % c.capacity) = some buf ∧ arrivals[i]? = some (rebuild buf)

/-- What the producer knows: its copy of the head may be old, its copy of the tail is
not, since no other thread stores the tail. -/
def Sending.Knows (c : Channel β) : Sending α β → Prop
  | .idle => True
  | .entered _ => True
  | .retrying v buf => flatten v = .ok buf
  | .headLoaded v buf head => flatten v = .ok buf ∧ head ≤ c.head
  | .tailLoaded v buf head tail => flatten v = .ok buf ∧ head ≤ c.head ∧ tail = c.tail
  | .slotWritten v buf tail =>
    flatten v = .ok buf ∧ tail = c.tail ∧ tail < c.head + c.capacity ∧
      c.ring (tail % c.capacity) = some buf
  | .tailStored _ => True
  | .parked v buf => flatten v = .ok buf

/-- What the consumer knows: its copy of the head is exact, its copy of the tail may be
old. -/
def Receiving.Knows (c : Channel β) : Receiving β → Prop
  | .idle => True
  | .retrying => True
  | .headLoaded head => head = c.head
  | .tailLoaded head tail => head = c.head ∧ head ≤ tail ∧ tail ≤ c.tail
  | .slotRead buf head =>
    head = c.head ∧ head < c.tail ∧ c.ring (head % c.capacity) = some buf
  | .headStored _ => True
  | .parked => True

/-- The invariant of the two threads. -/
structure Threads.Ordered (s : Threads α β γ) : Prop where
  holds : s.channel.Holds rebuild (s.arrivals flatten rebuild)
  producer : s.producer.Knows flatten s.channel
  consumer : s.consumer.Knows s.channel
  recorded : s.received ++ s.consumer.inHand rebuild =
    (s.arrivals flatten rebuild).take s.channel.head
  accounted : s.enqueued = s.sent ++ s.producer.returning

/-- The slot the producer writes is none of those that hold a message. -/
theorem mod_ne_mod {head tail capacity i : Nat} (hroom : tail < head + capacity)
    (hi : head ≤ i) (hlt : i < tail) : i % capacity ≠ tail % capacity := by
  intro h
  have hdvd : capacity ∣ tail - i := (Nat.modEq_iff_dvd' (Nat.le_of_lt hlt)).mp h
  have hle := Nat.le_of_dvd (by omega) hdvd
  omega

/-- The messages in the ring are those still to arrive. -/
theorem Channel.Holds.waiting_eq {c : Channel β} {arrivals : List γ}
    (h : c.Holds rebuild arrivals) : c.waiting.map rebuild = arrivals.drop c.head := by
  have hwindow : ∀ n k, c.head ≤ k → k + n = c.tail →
      ((List.range' k n).filterMap fun i => c.ring (i % c.capacity)).map rebuild =
        arrivals.drop k := by
    intro n
    induction n with
    | zero =>
      intro k _ hk
      have hlen := h.tail_eq
      rw [drop_eq_nil_of_le (by omega)]
      rfl
    | succ n ih =>
      intro k hge hk
      obtain ⟨buf, hring, harr⟩ := h.slots k hge (by omega)
      obtain ⟨hlt, heq⟩ := List.getElem?_eq_some_iff.mp harr
      rw [range'_succ, filterMap_cons, hring]
      rw [drop_eq_getElem_cons hlt, heq, ← ih (k + 1) (by omega) (by omega)]
      rfl
  have hle := h.head_le
  exact hwindow (c.tail - c.head) c.head le_rfl (by omega)

variable {s : Threads α β γ}

/-- The invariant gives delivery. -/
theorem Threads.Ordered.delivered (h : s.Ordered flatten rebuild) :
    Delivered flatten rebuild s := by
  refine ⟨h.accounted, ?_⟩
  rw [h.recorded, h.holds.waiting_eq, take_append_drop]
  rfl

theorem ordered_fresh (capacity policy : Int) :
    (Threads.fresh α β γ capacity policy).Ordered flatten rebuild where
  holds :=
    { tail_eq := rfl
      head_le := le_rfl
      room := Nat.zero_le _
      slots := fun i _ hi => absurd hi (Nat.not_lt_zero i) }
  producer := trivial
  consumer := trivial
  recorded := rfl
  accounted := rfl

@[simp] theorem received_sendReturns (s : Threads α β γ) (v : α) (o : Outcome) :
    (s.sendReturns v o).received = s.received := rfl

theorem sent_sendReturns (s : Threads α β γ) (v : α) (o : Outcome) :
    (s.sendReturns v o).sent = s.sent ++ if o = .sent then [v] else [] := by
  unfold Threads.sent Threads.sendReturns
  rw [filterMap_append]
  by_cases ho : o = .sent
  · simp [ho]
  · simp [ho]

theorem received_receiveReturns (s : Threads α β γ) (r : Option γ) :
    (s.receiveReturns r).received = s.received ++ r.toList := by
  unfold Threads.received Threads.receiveReturns
  rw [reduceOption_append]
  cases r with
  | none => rfl
  | some v => rfl

/-- A send that returns without having stored its value keeps the invariant. -/
theorem Threads.Ordered.sendReturns (h : s.Ordered flatten rebuild)
    (hidle : s.producer.returning = []) (v : α) {o : Outcome} (ho : o ≠ .sent) :
    (s.sendReturns v o).Ordered flatten rebuild where
  holds := h.holds
  producer := trivial
  consumer := h.consumer
  recorded := h.recorded
  accounted := by
    rw [sent_sendReturns, if_neg ho, append_nil]
    have hacc := h.accounted
    rw [hidle] at hacc
    exact hacc

/-- The invariant does not see where the producer stands, as long as the producer knows
what it must know there and no stored value is forgotten. -/
theorem Threads.Ordered.producer_moves (h : s.Ordered flatten rebuild) {p : Sending α β}
    (hknows : p.Knows flatten s.channel) (hkeeps : p.returning = s.producer.returning) :
    { s with producer := p }.Ordered flatten rebuild where
  holds := h.holds
  producer := hknows
  consumer := h.consumer
  recorded := h.recorded
  accounted := h.accounted.trans (congrArg (s.sent ++ ·) hkeeps.symm)

/-- The same for the consumer. -/
theorem Threads.Ordered.consumer_moves (h : s.Ordered flatten rebuild) {q : Receiving β}
    (hknows : q.Knows s.channel) (hkeeps : q.inHand rebuild = s.consumer.inHand rebuild) :
    { s with consumer := q }.Ordered flatten rebuild where
  holds := h.holds
  producer := h.producer
  consumer := hknows
  recorded := (congrArg (s.received ++ ·) hkeeps).trans h.recorded
  accounted := h.accounted

/-- The event counters and the flag play no part in the invariant. -/
theorem Threads.Ordered.signals (h : s.Ordered flatten rebuild) (closed : Bool)
    (dataReady spaceReady closing : Nat) :
    { s with
      channel := { s.channel with
        closed := closed, dataReady := dataReady, spaceReady := spaceReady }
      closing := closing }.Ordered flatten rebuild where
  holds := ⟨h.holds.tail_eq, h.holds.head_le, h.holds.room, h.holds.slots⟩
  producer := by
    have hp := h.producer
    revert hp
    show Sending.Knows flatten s.channel s.producer → Sending.Knows flatten _ s.producer
    cases s.producer <;> exact id
  consumer := by
    have hq := h.consumer
    revert hq
    show Receiving.Knows s.channel s.consumer → Receiving.Knows _ s.consumer
    cases s.consumer <;> exact id
  recorded := h.recorded
  accounted := h.accounted

variable {buf : β}

section
variable {v : α} (h : s.Ordered flatten rebuild) (hflat : flatten v = .ok buf)
  (hroom : s.channel.tail < s.channel.head + s.channel.capacity)
include h hflat hroom

/-- The producer writes a slot that holds no message. -/
theorem Threads.Ordered.writes_slot (hkeeps : s.producer.returning = []) :
    { s with
      channel := { s.channel with
        ring := Function.update s.channel.ring (s.channel.tail % s.channel.capacity) (some buf) }
      producer := .slotWritten v buf s.channel.tail }.Ordered flatten rebuild where
  holds :=
    { tail_eq := h.holds.tail_eq
      head_le := h.holds.head_le
      room := h.holds.room
      slots := by
        intro i hi hlt
        obtain ⟨b, hring, harr⟩ := h.holds.slots i hi hlt
        refine ⟨b, ?_, harr⟩
        show Function.update s.channel.ring _ _ _ = some b
        rw [Function.update_of_ne (mod_ne_mod hroom hi hlt)]
        exact hring }
  producer := ⟨hflat, rfl, hroom, Function.update_self _ _ _⟩
  consumer := by
    -- the slot the consumer may have read is one that holds a message
    have hq := h.consumer
    show Receiving.Knows _ s.consumer
    cases hc : s.consumer with
    | idle => trivial
    | retrying => trivial
    | headLoaded head =>
      rw [hc] at hq
      exact hq
    | tailLoaded head tail =>
      rw [hc] at hq
      exact hq
    | slotRead b head =>
      rw [hc] at hq
      obtain ⟨rfl, hlt, hring⟩ := hq
      refine ⟨rfl, hlt, ?_⟩
      show Function.update s.channel.ring _ _ _ = some b
      rw [Function.update_of_ne (mod_ne_mod hroom le_rfl hlt)]
      exact hring
    | headStored b => trivial
    | parked => trivial
  recorded := h.recorded
  accounted := by
    have hacc := h.accounted
    rw [hkeeps] at hacc
    exact hacc

/-- The producer stores the tail: one more message is in the ring. -/
theorem Threads.Ordered.stores_tail
    (hring : s.channel.ring (s.channel.tail % s.channel.capacity) = some buf)
    (hkeeps : s.producer.returning = []) :
    { s with
      channel := { s.channel with tail := s.channel.tail + 1 }
      producer := .tailStored v
      enqueued := s.enqueued ++ [v] }.Ordered flatten rebuild := by
  have harrives : arrives flatten rebuild v = some (rebuild buf) := by
    unfold arrives
    rw [hflat]
  have harrivals : (s.enqueued ++ [v]).filterMap (arrives flatten rebuild) =
      s.arrivals flatten rebuild ++ [rebuild buf] := by
    rw [filterMap_append, filterMap_cons_some harrives]
    rfl
  have htail := h.holds.tail_eq
  have hhead := h.holds.head_le
  refine ⟨⟨?_, ?_, ?_, ?_⟩, trivial, ?_, ?_, ?_⟩
  · show s.channel.tail + 1 = ((s.enqueued ++ [v]).filterMap _).length
    rw [harrivals, length_append, htail]
    rfl
  · exact Nat.le_succ_of_le hhead
  · exact hroom
  · intro i hi hlt
    show ∃ b, s.channel.ring (i % s.channel.capacity) = some b ∧
      ((s.enqueued ++ [v]).filterMap _)[i]? = some (rebuild b)
    rw [harrivals]
    by_cases hlast : i = s.channel.tail
    · subst hlast
      refine ⟨buf, hring, ?_⟩
      rw [htail, getElem?_append_right le_rfl, Nat.sub_self]
      rfl
    · have hlt' : i < s.channel.tail + 1 := hlt
      obtain ⟨b, hslot, harr⟩ := h.holds.slots i hi (by omega)
      refine ⟨b, hslot, ?_⟩
      rw [getElem?_append_left (by omega)]
      exact harr
  · have hq := h.consumer
    show Receiving.Knows _ s.consumer
    cases hc : s.consumer with
    | idle => trivial
    | retrying => trivial
    | headLoaded head =>
      rw [hc] at hq
      exact hq
    | tailLoaded head tail =>
      rw [hc] at hq
      exact ⟨hq.1, hq.2.1, Nat.le_succ_of_le hq.2.2⟩
    | slotRead b head =>
      rw [hc] at hq
      exact ⟨hq.1, Nat.lt_succ_of_lt hq.2.1, hq.2.2⟩
    | headStored b => trivial
    | parked => trivial
  · show s.received ++ s.consumer.inHand rebuild = ((s.enqueued ++ [v]).filterMap _).take s.channel.head
    rw [harrivals, take_append_of_le_length (by omega)]
    exact h.recorded
  · show s.enqueued ++ [v] = s.sent ++ [v]
    have hacc := h.accounted
    rw [hkeeps, append_nil] at hacc
    rw [hacc]

end

/-- The consumer stores the head: the message it read is in its hand. -/
theorem Threads.Ordered.stores_head (h : s.Ordered flatten rebuild)
    (hlt : s.channel.head < s.channel.tail)
    (hring : s.channel.ring (s.channel.head % s.channel.capacity) = some buf)
    (hkeeps : s.consumer.inHand rebuild = []) :
    { s with
      channel := { s.channel with head := s.channel.head + 1 }
      consumer := .headStored buf }.Ordered flatten rebuild := by
  have hroom := h.holds.room
  refine ⟨⟨h.holds.tail_eq, hlt, ?_, ?_⟩, ?_, trivial, ?_, h.accounted⟩
  · show s.channel.tail ≤ s.channel.head + 1 + s.channel.capacity
    omega
  · intro i hi hit
    exact h.holds.slots i (Nat.le_of_succ_le hi) hit
  · have hp := h.producer
    show Sending.Knows flatten _ s.producer
    cases hc : s.producer with
    | idle => trivial
    | entered v => trivial
    | retrying v b =>
      rw [hc] at hp
      exact hp
    | headLoaded v b head =>
      rw [hc] at hp
      exact ⟨hp.1, Nat.le_succ_of_le hp.2⟩
    | tailLoaded v b head tail =>
      rw [hc] at hp
      exact ⟨hp.1, Nat.le_succ_of_le hp.2.1, hp.2.2⟩
    | slotWritten v b tail =>
      rw [hc] at hp
      obtain ⟨hflat, htail, hfree, hslot⟩ := hp
      refine ⟨hflat, htail, ?_, hslot⟩
      show tail < s.channel.head + 1 + s.channel.capacity
      omega
    | tailStored v => trivial
    | parked v b =>
      rw [hc] at hp
      exact hp
  · show s.received ++ [rebuild buf] = (s.arrivals flatten rebuild).take (s.channel.head + 1)
    obtain ⟨b, hslot, harr⟩ := h.holds.slots s.channel.head le_rfl hlt
    rw [hring] at hslot
    cases hslot
    have hrec := h.recorded
    rw [hkeeps, append_nil] at hrec
    rw [take_add_one, harr, ← hrec]
    rfl

variable {s' : Threads α β γ}

/-- A step of the producer keeps the invariant. -/
theorem sysChannelSend_ordered (h : s.Ordered flatten rebuild)
    (hstep : sysChannelSend flatten s = some s') : s'.Ordered flatten rebuild := by
  have hknows := h.producer
  unfold sysChannelSend at hstep
  dsimp only at hstep
  cases hp : s.producer with
  | idle =>
    rw [hp] at hstep
    cases hstep
  | entered v =>
    have hnil : s.producer.returning = [] := congrArg Sending.returning hp
    rw [hp] at hstep
    dsimp only at hstep
    split at hstep
    · cases hstep
      exact h.sendReturns flatten rebuild hnil v (by decide)
    · cases hflat : flatten v with
      | error err =>
        rw [hflat] at hstep
        cases hstep
        exact h.sendReturns flatten rebuild hnil v (by intro hc; cases hc)
      | ok buf =>
        rw [hflat] at hstep
        cases hstep
        exact h.producer_moves flatten rebuild hflat hnil.symm
  | retrying v buf =>
    have hnil : s.producer.returning = [] := congrArg Sending.returning hp
    rw [hp] at hstep hknows
    cases hstep
    exact h.producer_moves flatten rebuild ⟨hknows, le_rfl⟩ hnil.symm
  | headLoaded v buf head =>
    have hnil : s.producer.returning = [] := congrArg Sending.returning hp
    rw [hp] at hstep hknows
    cases hstep
    exact h.producer_moves flatten rebuild ⟨hknows.1, hknows.2, rfl⟩ hnil.symm
  | tailLoaded v buf head tail =>
    have hnil : s.producer.returning = [] := congrArg Sending.returning hp
    rw [hp] at hstep hknows
    obtain ⟨hflat, hold, rfl⟩ := hknows
    have hle := h.holds.head_le
    dsimp only at hstep
    split at hstep
    · cases hstep
      -- the producer's copy of the head may be old, so there is at least this much room
      exact h.writes_slot flatten rebuild hflat (by omega) hnil
    · split at hstep
      · cases hstep
        exact h.sendReturns flatten rebuild hnil v (by decide)
      · split at hstep
        · cases hstep
          exact h.sendReturns flatten rebuild hnil v (by decide)
        · cases hstep
          exact h.producer_moves flatten rebuild hflat hnil.symm
  | slotWritten v buf tail =>
    have hnil : s.producer.returning = [] := congrArg Sending.returning hp
    rw [hp] at hstep hknows
    obtain ⟨hflat, rfl, hroom, hring⟩ := hknows
    cases hstep
    exact h.stores_tail flatten rebuild hflat hroom hring hnil
  | tailStored v =>
    rw [hp] at hstep
    cases hstep
    have hsig := h.signals flatten rebuild s.channel.closed (s.channel.dataReady + 1)
      s.channel.spaceReady s.closing
    refine ⟨hsig.holds, trivial, hsig.consumer, hsig.recorded, ?_⟩
    rw [sent_sendReturns, if_pos rfl]
    have hacc := h.accounted
    rw [hp] at hacc
    show s.enqueued = s.sent ++ [v] ++ []
    rw [append_nil]
    exact hacc
  | parked v buf =>
    have hnil : s.producer.returning = [] := congrArg Sending.returning hp
    rw [hp] at hstep hknows
    dsimp only at hstep
    split at hstep
    · cases hstep
      have hsig := h.signals flatten rebuild s.channel.closed s.channel.dataReady 0 s.closing
      exact hsig.producer_moves flatten rebuild hknows hnil.symm
    · cases hstep

/-- A step of the consumer keeps the invariant. -/
theorem sysChannelReceive_ordered (h : s.Ordered flatten rebuild)
    (hstep : sysChannelReceive rebuild s = some s') : s'.Ordered flatten rebuild := by
  have hknows := h.consumer
  unfold sysChannelReceive at hstep
  dsimp only at hstep
  cases hq : s.consumer with
  | idle =>
    rw [hq] at hstep
    cases hstep
  | retrying =>
    have hnil : s.consumer.inHand rebuild = [] := congrArg (Receiving.inHand rebuild) hq
    rw [hq] at hstep
    cases hstep
    exact h.consumer_moves flatten rebuild rfl hnil.symm
  | headLoaded head =>
    have hnil : s.consumer.inHand rebuild = [] := congrArg (Receiving.inHand rebuild) hq
    rw [hq] at hstep hknows
    cases hstep
    exact h.consumer_moves flatten rebuild
      ⟨hknows, hknows.trans_le h.holds.head_le, le_rfl⟩ hnil.symm
  | tailLoaded head tail =>
    have hnil : s.consumer.inHand rebuild = [] := congrArg (Receiving.inHand rebuild) hq
    rw [hq] at hstep hknows
    obtain ⟨rfl, hnew, hold⟩ := hknows
    dsimp only at hstep
    split at hstep
    · rename_i hlt
      obtain ⟨buf, hring, _⟩ := h.holds.slots s.channel.head le_rfl (by omega)
      rw [hring] at hstep
      cases hstep
      exact h.consumer_moves flatten rebuild ⟨rfl, by omega, hring⟩ hnil.symm
    · split at hstep
      · cases hstep
        refine ⟨h.holds, h.producer, trivial, ?_, h.accounted⟩
        rw [received_receiveReturns]
        have hrec := h.recorded
        rw [hnil] at hrec
        show s.received ++ [] ++ [] = _
        rw [append_nil]
        exact hrec
      · cases hstep
        exact h.consumer_moves flatten rebuild trivial hnil.symm
  | slotRead buf head =>
    have hnil : s.consumer.inHand rebuild = [] := congrArg (Receiving.inHand rebuild) hq
    rw [hq] at hstep hknows
    obtain ⟨rfl, hlt, hring⟩ := hknows
    cases hstep
    exact h.stores_head flatten rebuild hlt hring hnil
  | headStored buf =>
    rw [hq] at hstep
    cases hstep
    have hsig := h.signals flatten rebuild s.channel.closed s.channel.dataReady
      (s.channel.spaceReady + 1) s.closing
    refine ⟨hsig.holds, hsig.producer, trivial, ?_, hsig.accounted⟩
    rw [received_receiveReturns]
    have hrec := h.recorded
    rw [hq] at hrec
    show s.received ++ [rebuild buf] ++ [] = _
    rw [append_nil]
    exact hrec
  | parked =>
    have hnil : s.consumer.inHand rebuild = [] := congrArg (Receiving.inHand rebuild) hq
    rw [hq] at hstep
    dsimp only at hstep
    split at hstep
    · cases hstep
      have hsig := h.signals flatten rebuild s.channel.closed 0 s.channel.spaceReady s.closing
      exact hsig.consumer_moves flatten rebuild trivial hnil.symm
    · cases hstep

/-- Every step keeps the invariant. -/
theorem step_ordered {a : Action α} (h : s.Ordered flatten rebuild)
    (hstep : step flatten rebuild s a = some s') : s'.Ordered flatten rebuild := by
  cases a with
  | send v =>
    unfold step at hstep
    cases hp : s.producer with
    | idle =>
      rw [hp] at hstep
      cases hstep
      have hnil : s.producer.returning = [] := congrArg Sending.returning hp
      exact h.producer_moves flatten rebuild trivial hnil.symm
    | _ =>
      rw [hp] at hstep
      cases hstep
  | producer => exact sysChannelSend_ordered flatten rebuild h hstep
  | receive =>
    unfold step at hstep
    cases hq : s.consumer with
    | idle =>
      rw [hq] at hstep
      cases hstep
      have hnil : s.consumer.inHand rebuild = [] := congrArg (Receiving.inHand rebuild) hq
      exact h.consumer_moves flatten rebuild trivial hnil.symm
    | _ =>
      rw [hq] at hstep
      cases hstep
  | consumer => exact sysChannelReceive_ordered flatten rebuild h hstep
  | close =>
    cases hstep
    exact h.signals flatten rebuild true _ _ _
  | wake =>
    unfold step at hstep
    dsimp only at hstep
    split at hstep
    · cases hstep
      exact h.signals flatten rebuild s.channel.closed _ _ _
    · cases hstep

/-! ### The end of the channel -/

/-- What a step has to do: leave every message accounted for, and report the end of the
channel only when it is closed and every message stored has been received. -/
def KeepsDelivery (s : Threads α β γ) (a : Action α) (s' : Threads α β γ) : Prop :=
  Delivered flatten rebuild s' ∧
    (ReportsEnd s a → s.channel.closed = true ∧
      s.received = s.enqueued.filterMap (arrives flatten rebuild))

/-- A send stored the tail after the receive under way had loaded it and found the ring
empty, and the channel is closed by the time the receive loads the flag. -/
def Overtaken (s : Threads α β γ) (a : Action α) : Prop :=
  match a, s.consumer with
  | .consumer, .tailLoaded head tail =>
    tail ≤ head ∧ tail < s.channel.tail ∧ s.channel.closed = true
  | _, _ => False

/-- The receive that reports the end has received everything stored before it loaded the
tail. -/
theorem reportsEnd_drained_iff {a : Action α} (h : s.Ordered flatten rebuild) :
    (ReportsEnd s a → s.channel.closed = true ∧
      s.received = s.enqueued.filterMap (arrives flatten rebuild)) ↔ ¬ Overtaken s a := by
  have htail : s.channel.tail = (s.enqueued.filterMap (arrives flatten rebuild)).length :=
    h.holds.tail_eq
  have hle := h.holds.head_le
  cases a with
  | consumer =>
    cases hq : s.consumer with
    | tailLoaded head tail =>
      have hknows := h.consumer
      have hrec := h.recorded
      rw [hq] at hrec hknows
      obtain ⟨rfl, hnew, hold⟩ := hknows
      have htaken : s.received = (s.arrivals flatten rebuild).take s.channel.head :=
        (append_nil _).symm.trans hrec
      unfold ReportsEnd Overtaken
      rw [hq]
      dsimp only
      constructor
      · intro hends hover
        obtain ⟨hempty, hlate, hclosed⟩ := hover
        have hall := (hends ⟨by omega, hclosed⟩).2
        rw [htaken] at hall
        have hlen := congrArg List.length hall
        rw [length_take] at hlen
        have hmin : min s.channel.head s.channel.tail = s.channel.tail := by
          rw [htail]
          exact hlen
        omega
      · intro hover hends
        obtain ⟨hempty, hclosed⟩ := hends
        refine ⟨hclosed, ?_⟩
        have hlate : ¬ tail < s.channel.tail := fun hlt =>
          hover ⟨Nat.le_of_not_lt hempty, hlt, hclosed⟩
        rw [htaken]
        exact take_of_length_le (by
          show (s.enqueued.filterMap _).length ≤ _
          omega)
    | _ => simp [ReportsEnd, Overtaken, hq]
  | _ => simp [ReportsEnd, Overtaken]

/-- **Channel delivery.**  In every run from a fresh channel, of any capacity and policy
and under any interleaving, the values received are those sent, in order and without
loss or duplication, and the end is reported only on a closed channel whose every message
has been received, exactly if no receive that has found the ring empty is overtaken by a
send before it finds the channel closed. -/
theorem delivery_iff (capacity policy : Int) (actions : List (Action α)) :
    Steps (step flatten rebuild) (KeepsDelivery flatten rebuild)
        (Threads.fresh α β γ capacity policy) actions ↔
      Steps (step flatten rebuild) (fun s a _ => ¬ Overtaken s a)
        (Threads.fresh α β γ capacity policy) actions := by
  refine steps_iff_steps (I := Threads.Ordered flatten rebuild) ?_ actions
    (ordered_fresh flatten rebuild capacity policy)
  intro s a s' h hstep
  have h' := step_ordered flatten rebuild h hstep
  refine ⟨h', ?_⟩
  unfold KeepsDelivery
  rw [reportsEnd_drained_iff flatten rebuild h]
  constructor
  · intro hkeeps
    exact hkeeps.2
  · intro hover
    exact ⟨h'.delivered, hover⟩

/-- A receive that finds the ring empty, a send, a close, and the receive going on. -/
def sendThenClose : List (Action Nat) :=
  [.receive, .consumer, .consumer, .send 7, .producer, .producer, .producer, .producer,
    .producer, .producer, .close, .wake, .consumer]

/-- The receive reports the end of the channel with the message 7 in the ring, sent before
the close. -/
theorem end_before_last_message :
    (run (step Except.ok id) (Threads.fresh Nat Nat Nat 1 0) sendThenClose).map
        (fun s => (s.results, s.sent, s.channel.waiting)) = some ([none], [7], [7]) ∧
      ¬ Steps (step Except.ok id) (KeepsDelivery Except.ok id)
        (Threads.fresh Nat Nat Nat 1 0) sendThenClose := by
  refine ⟨rfl, ?_⟩
  intro h
  obtain ⟨_, h⟩ := h _ rfl
  obtain ⟨_, h⟩ := h _ rfl
  obtain ⟨_, h⟩ := h _ rfl
  obtain ⟨_, h⟩ := h _ rfl
  obtain ⟨_, h⟩ := h _ rfl
  obtain ⟨_, h⟩ := h _ rfl
  obtain ⟨_, h⟩ := h _ rfl
  obtain ⟨_, h⟩ := h _ rfl
  obtain ⟨_, h⟩ := h _ rfl
  obtain ⟨_, h⟩ := h _ rfl
  obtain ⟨_, h⟩ := h _ rfl
  obtain ⟨_, h⟩ := h _ rfl
  obtain ⟨⟨_, hend⟩, _⟩ := h _ rfl
  have hall := (hend ⟨by decide, rfl⟩).2
  cases hall

end Leviathan.Runtime
