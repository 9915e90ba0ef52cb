import Leviathan.MySql.Pipeline

/-!
# Runs of the command pipeline

Every event keeps the invariants of the pipeline, as long as the server gives documented
answers, the answers that arrive are of the forms that `dispatchCommand` recognizes, and the
connection is closed only when nothing is in flight or queued, and not used after that unless
it was broken.
-/

variable {p : Bytes}

namespace Leviathan.MySql

open Feeding (Takes)
open Runs List

namespace CommandState

variable {V : Type} {cells : Cells V} {c c' : CommandState V}

/-- The command that goes on has the promise of `c`. -/
def Keeps (c : CommandState V) (x : Except Exn (Dispatched V)) : Prop :=
  ∀ c', x = .ok (.more c') → c'.promise = c.promise

theorem keeps_bind {α : Type} {x : Except Exn α} {f : α → Except Exn (Dispatched V)}
    (h : ∀ a, Keeps c (f a)) : Keeps c (x >>= f) := by
  cases x with
  | error e =>
    intro c' heq
    cases heq
  | ok a => exact h a

theorem keeps_more (h : c'.promise = c.promise) : Keeps c (.ok (.more c')) := by
  intro d heq
  cases heq
  exact h

theorem keeps_done (r : CommandResult V) (status : Option Nat) :
    Keeps c (.ok (.done r status)) := by
  intro d heq
  cases heq

theorem keeps_afterPrepParams (h : c'.promise = c.promise) :
    Keeps c (.ok c'.afterPrepParams) := by
  rw [afterPrepParams]
  split
  · exact keeps_more h
  · exact keeps_done _ _

theorem keeps_onPreparePacket (c : CommandState V) (p : Bytes) : Keeps c (c.onPreparePacket p) := by
  rw [onPreparePacket]
  split
  · split
    · exact keeps_bind fun e => keeps_done _ _
    · refine keeps_bind fun id => keeps_bind fun columns => keeps_bind fun params => ?_
      dsimp only
      split
      · exact keeps_more rfl
      · split
        · exact keeps_more rfl
        · exact keeps_done _ _
  · split
    · dsimp only
      split
      · exact keeps_afterPrepParams rfl
      · exact keeps_more rfl
    · exact keeps_afterPrepParams rfl
  · split
    · dsimp only
      split
      · exact keeps_done _ _
      · exact keeps_more rfl
    · exact keeps_done _ _
  · exact keeps_more rfl

theorem keeps_onFirst (c : CommandState V) (p : Bytes) : Keeps c (c.onFirst p) := by
  rw [onFirst]
  split
  · exact keeps_bind fun e => keeps_done _ _
  · split
    · exact keeps_done _ _
    · split
      · exact keeps_bind fun o => keeps_done _ _
      · exact keeps_bind fun n => keeps_more rfl

theorem keeps_onColumn (c : CommandState V) (p : Bytes) : Keeps c (c.onColumn p) := by
  rw [onColumn]
  split
  · exact keeps_more rfl
  · refine keeps_bind fun column => ?_
    dsimp only
    split
    · exact keeps_more rfl
    · exact keeps_more rfl

theorem keeps_onRow (c : CommandState V) (p : Bytes) : Keeps c (c.onRow cells p) := by
  rw [onRow]
  split
  · exact keeps_bind fun e => keeps_done _ _
  · refine keeps_bind fun b => ?_
    split
    · exact keeps_bind fun status => keeps_done _ _
    · exact keeps_bind fun row => keeps_more rfl

/-- The promise of a command does not change. -/
theorem dispatchCommand_promise (h : c.dispatchCommand cells p = .ok (.more c')) :
    c'.promise = c.promise := by
  have hkeeps : Keeps c (c.dispatchCommand cells p) := by
    rw [dispatchCommand]
    split
    · exact keeps_onPreparePacket c p
    · split
      · exact keeps_onFirst c p
      · exact keeps_onColumn c p
      · exact keeps_onRow c p
  exact hkeeps c' h

/-- What one packet does to an answer that is to come to `outcome`. -/
theorem Ends.cases {ps : List Bytes} {outcome : Except Exn (CommandResult V × Option Nat)}
    (h : Ends cells c (p :: ps) outcome) :
    (∃ e, c.dispatchCommand cells p = .error e ∧ outcome = .error e) ∨
    (∃ c', c.dispatchCommand cells p = .ok (.more c') ∧ Ends cells c' ps outcome) ∨
    (∃ r status, c.dispatchCommand cells p = .ok (.done r status) ∧ outcome = .ok (r, status) ∧
      ps = []) := by
  obtain ⟨rest, hrun, hempty⟩ := h
  rw [run] at hrun
  cases hd : c.dispatchCommand cells p with
  | error e =>
    rw [hd] at hrun
    cases hrun
    exact Or.inl ⟨e, rfl, rfl⟩
  | ok d =>
    rw [hd] at hrun
    cases d with
    | more c' => exact Or.inr (Or.inl ⟨c', rfl, rest, hrun, hempty⟩)
    | done r status =>
      cases hrun
      exact Or.inr (Or.inr ⟨r, status, rfl, rfl, hempty _ rfl⟩)

end CommandState

namespace Response

variable {V : Type} {cells : Cells V} {kind : Kind} {deprecateEof : Bool} {answer : Response}

theorem reply_of_ok {r : CommandResult V} {status : Option Nat}
    (h : answer.decode cells kind deprecateEof = .ok (r, status)) :
    answer.reply cells kind deprecateEof = r := by
  rw [reply, h]

theorem reply_of_error {e : Exn} (h : answer.decode cells kind deprecateEof = .error e) :
    answer.reply cells kind deprecateEof = .failed (.ofExn e) := by
  rw [reply, h]

end Response

namespace Connection

variable {V : Type} {cells : Cells V} {answers : Nat → Response} {w w' : Connection V}

/-- The packets that were looked at, and those that wait, are the first of the answers. -/
theorem Base.calls {hand : List Nat} (h : w.Base cells answers hand) :
    w.delivered ++ w.inbox <+: (w.sends answers).map Framing.callOf := by
  obtain ⟨more, hmore⟩ := h.received
  obtain ⟨a, -, -, -, hall⟩ := Framing.takes_encode (w.sends answers)
    (a := PacketAssembler.new.toAssembly) rfl rfl rfl
  have hrest : Takes Assembly.step w.asm.toAssembly (w.asm.unread ++ more) _ _ _ :=
    Takes.drive (fun _ _ _ _ _ hs => Assembly.step_left hs) (Nat.le_refl _)
  have hjoined := h.framed.append Assembly.step_patient hrest
  rw [hmore] at hjoined
  obtain ⟨-, -, hcalls⟩ := hjoined.unique hall
  exact ⟨_, hcalls⟩

/-! ### A live connection -/

theorem Inv.of_live (hbase : w.Base cells answers []) (hbroken : w.broken = false)
    (hlive : w.Live cells answers) : w.Inv cells answers := by
  refine ⟨hbase, fun _ => hlive, ?_⟩
  intro hdead
  rw [hbroken] at hdead
  cases hdead

theorem Active.promises (h : w.Active cells answers) : w.frames.flatMap Frame.promises = [] := by
  rw [flatMap_eq_nil_iff]
  intro f hf
  rw [h.frames f hf]
  rfl

/-- Without a command in flight, every command that was sent is answered. -/
theorem Active.settled (h : w.Active cells answers) (hbase : w.Base cells answers [])
    (hcmd : w.cmd = none) {i : Nat} (hi : i ∈ w.sent) : w.results i ≠ [] := by
  have hnodup : (w.sent ++ w.queue).Nodup := by
    rw [h.order]
    exact nodup_range
  have hqueue : i ∉ w.queue := by
    intro hmem
    exact (List.nodup_append.mp hnodup).2.2 i hi i hmem rfl
  have hlt : i < w.commands.length := by
    have hrange : i ∈ w.sent ++ w.queue := List.mem_append.mpr (Or.inl hi)
    rw [h.order] at hrange
    exact List.mem_range.mp hrange
  have hcounted := hbase.counted i
  rw [outstanding, hcmd, h.promises, if_pos hlt] at hcounted
  have hzero : List.count i w.queue = 0 := count_eq_zero_of_not_mem hqueue
  simp only [nil_append, append_nil, Option.map_none, Option.toList_none, hzero]
    at hcounted
  intro hnil
  rw [hnil] at hcounted
  cases hcounted

/-- The first command of the queue is sent. -/
theorem begin_live {p : Nat} {rest : List Nat} (h : w.Base cells answers [])
    (hbroken : w.broken = false) (ha : w.Active cells answers) (hcmd : w.cmd = none)
    (hqueue : w.queue = p :: rest) :
    (begin { w with busy := true, queue := rest } p).Inv cells answers := by
  have hclosed : w.closed = false := by
    cases hc : w.closed with
    | false => rfl
    | true =>
      rw [(ha.closed hc).2] at hqueue
      cases hqueue
  have horder := ha.order
  rw [hqueue] at horder
  have hp : p = w.sent.length := by
    have hget := congrArg (fun l => l[w.sent.length]?) horder
    simp only [getElem?_append_right (Nat.le_refl _), Nat.sub_self, getElem?_cons_zero]
      at hget
    have hlt : w.sent.length < w.commands.length := by
      by_contra hge
      rw [getElem?_eq_none (by simpa using hge)] at hget
      cases hget
    rw [getElem?_range hlt] at hget
    exact Option.some.inj hget
  have hlt : p < w.commands.length := by
    have hmem : p ∈ w.sent ++ p :: rest := List.mem_append.mpr (Or.inr mem_cons_self)
    rw [horder] at hmem
    exact List.mem_range.mp hmem
  have hcommand : w.commands[p]? = some w.commands[p] := getElem?_eq_getElem hlt
  obtain ⟨tail, htail, hnil | ⟨hc, _⟩⟩ := h.output
  swap
  · rw [hclosed] at hc
    cases hc
  have hbegin : begin { w with busy := true, queue := rest } p
      = sendCommand { w with busy := true, queue := rest } p w.commands[p] := by
    rw [begin, if_neg (by
      show ¬ w.broken = true
      rw [hbroken]
      exact Bool.false_ne_true)]
    dsimp only
    rw [hcommand]
  rw [hbegin]
  have hsends : (sendCommand { w with busy := true, queue := rest } p w.commands[p]).sends answers
      = w.sends answers ++ w.sendsTo answers p := by
    show (w.sent ++ [p]).flatMap (w.sendsTo answers) = _
    rw [flatMap_append, flatMap_singleton]
    rfl
  have hto : w.sendsTo answers p = sendsFrom (Framing.packetCount w.commands[p].payload.length)
      ((answers p).payloads w.deprecateEof) := by
    rw [sendsTo, hcommand]
  refine Inv.of_live ⟨?_, ?_, ?_, ?_, ?_, ?_, h.documented, h.framed, ?_⟩ hbroken
    ⟨⟨ha.frames, rfl, ?_, ?_, ?_, ?_, ha.sockOpen⟩, ?_⟩
  · intro i
    have hcounted := h.counted i
    rw [outstanding, hcmd, hqueue] at hcounted
    exact hcounted
  · intro i r hr
    rcases h.own i r hr with ⟨hmem, hmeaning⟩ | hlost
    · exact Or.inl ⟨List.mem_append.mpr (Or.inl hmem), hmeaning⟩
    · exact Or.inr hlost
  · show w.sent ++ [p] = List.range (w.sent ++ [p]).length
    rw [length_append, length_singleton, range_succ, ← h.sent, hp]
  · show (w.sent ++ [p]).length ≤ _
    rw [length_append, length_singleton, ← hp]
    exact hlt
  · intro i hi
    have hi' : i < w.sent.length := by
      have hlength : i + 1 < (w.sent ++ [p]).length := hi
      rw [length_append, length_singleton] at hlength
      omega
    apply ha.settled h hcmd
    rw [h.sent]
    exact List.mem_range.mpr hi'
  · refine ⟨[], ?_, Or.inl rfl⟩
    show (if w.sockOpen = true then w.output ++ _ else w.output)
      = (w.sent ++ [p]).flatMap w.bytesOf ++ []
    rw [if_pos (ha.sockOpen hclosed), htail, hnil, flatMap_append, flatMap_singleton,
      append_nil, append_nil, bytesOf, hcommand]
  · rw [stream, hsends, flatMap_append]
    exact h.received.trans (prefix_append _ _)
  · show (w.sent ++ [p]) ++ rest = _
    rw [append_assoc, singleton_append]
    exact horder
  · intro c hc
    cases hc
    refine ⟨w.sent, w.commands[p], Framing.packetCount w.commands[p].payload.length,
      (answers p).payloads w.deprecateEof, rfl, hcommand, ?_, ?_, fun _ hq => hq,
      Or.inl ⟨rfl, rfl⟩⟩
    · rw [hsends, map_append, hto]
      show w.delivered ++ _ = _
      rw [ha.idle hcmd]
    · show Framing.packetCount w.commands[p].payload.length % 256 = _
      omega
  · intro hc
    cases hc
  · intro hc
    rw [show (sendCommand { w with busy := true, queue := rest } p w.commands[p]).closed = w.closed
      from rfl, hclosed] at hc
    cases hc
  · intro hc
    cases hc

/-- The queue is looked at. -/
theorem pump_live (h : w.Base cells answers []) (hbroken : w.broken = false)
    (ha : w.Active cells answers) : w.pump.Inv cells answers := by
  rw [pump]
  by_cases hb : w.busy = true
  · rw [if_pos hb]
    refine Inv.of_live h hbroken ⟨ha, ?_⟩
    intro hcmd
    rw [ha.busy, hcmd] at hb
    cases hb
  · rw [if_neg hb]
    have hcmd : w.cmd = none := by
      cases hc : w.cmd with
      | none => rfl
      | some c =>
        rw [ha.busy, hc] at hb
        exact absurd rfl hb
    cases hq : w.queue with
    | nil => exact Inv.of_live h hbroken ⟨ha, fun _ hne => absurd hq hne⟩
    | cons p rest => exact begin_live h hbroken ha hcmd hq

/-- The connection breaks; the command in flight gets what it is owed. -/
theorem fatal_live {e : MySqlException} (h : w.Base cells answers [])
    (hbusy : w.busy = w.cmd.isSome)
    (hown : ∀ c, w.cmd = some c → Own cells answers { w with broken := true } c.promise (.failed e)) :
    (w.fatal e).Inv cells answers := by
  rw [fatal]
  cases hc : w.cmd with
  | none =>
    refine drainQueue_dead (h.move ?_ (fun _ => rfl) rfl rfl rfl rfl rfl id rfl rfl rfl) rfl rfl ?_
    · intro i
      rw [outstanding, outstanding, hc]
    · intro hb
      rw [hc] at hbusy
      rw [show w.busy = true from hb] at hbusy
      cases hbusy
  | some c =>
    have hhand : Base cells answers
        ({ w with broken := true, cmd := none, busy := false } : Connection V) [c.promise] := by
      refine h.move ?_ (fun _ => rfl) rfl rfl rfl rfl rfl id rfl rfl rfl
      intro i
      rw [outstanding, outstanding, hc]
      rfl
    refine Inv.of_dead ?_ rfl ⟨rfl, (fun h => by cases h), fun _ => Or.inr mem_cons_self⟩
    exact (hhand.resolve (hown c hc)).move (fun _ => rfl) id rfl rfl rfl rfl rfl id rfl rfl rfl

theorem onClose_inv (h : w.Inv cells answers) : w.onClose.Inv cells answers := by
  rw [onClose]
  by_cases hclosed : w.closed = true
  · rw [if_pos hclosed]
    exact h
  · rw [if_neg hclosed]
    by_cases hbroken : w.broken = true
    · rw [if_pos hbroken]
      exact h
    · rw [if_neg hbroken]
      have hlive := h.live (by simpa using hbroken)
      exact fatal_live h.base hlive.busy fun c _ => Or.inr ⟨rfl, _, rfl⟩

/-- `close` with nothing in flight and nothing queued. -/
theorem close_inv (h : w.Inv cells answers)
    (hquiet : w.broken = true ∨ w.cmd = none ∧ w.queue = []) : w.close.Inv cells answers := by
  rw [close]
  by_cases hclosed : w.closed = true
  · rw [if_pos hclosed]
    exact h
  · rw [if_neg hclosed]
    by_cases hbroken : w.broken = true
    · have hdead := h.dead hbroken
      rw [if_neg (by rw [hbroken]; exact Bool.false_ne_true)]
      exact Inv.of_dead (h.base.move (fun _ => rfl) id rfl rfl rfl rfl rfl (fun _ => rfl) rfl rfl
        rfl) hbroken ⟨hdead.cmd, hdead.busy, hdead.queue⟩
    · have hfalse : w.broken = false := by simpa using hbroken
      have hlive := h.live hfalse
      have hopen : w.closed = false := by simpa using hclosed
      obtain ⟨hcmd, hqueue⟩ := hquiet.resolve_left hbroken
      rw [if_pos (by rw [hfalse, hlive.sockOpen hopen]; rfl)]
      obtain ⟨tail, htail, hnil | ⟨hc, _⟩⟩ := h.base.output
      swap
      · rw [hopen] at hc
        cases hc
      refine Inv.of_live ⟨h.base.counted, h.base.own, h.base.sent, h.base.few, h.base.earlier, ?_,
        h.base.documented, h.base.framed, h.base.received⟩ hfalse
        ⟨⟨hlive.frames, hlive.busy, hlive.order, ?_, hlive.idle, fun _ => ⟨hcmd, hqueue⟩, ?_⟩,
          hlive.waiting⟩
      · refine ⟨_, ?_, Or.inr ⟨rfl, rfl⟩⟩
        show w.output ++ _ = _
        rw [htail, hnil, append_nil]
        rfl
      · intro c hc
        rw [show w.cmd = some c from hc] at hcmd
        cases hcmd
      · intro hc
        cases hc

theorem receive_inv (h : w.Inv cells answers) {chunk : Bytes}
    (hahead : w.received ++ chunk <+: w.stream answers) {asm : PacketAssembler}
    {calls : List SinkCall} (hfeed : w.asm.feed chunk = .ok (asm, calls)) :
    Inv cells answers
      { w with asm, inbox := w.inbox ++ calls, received := w.received ++ chunk } := by
  obtain ⟨asm', calls', hfeed', htakes⟩ := w.asm.feed_spec chunk
  rw [hfeed] at hfeed'
  cases hfeed'
  have hframed := h.base.framed.append Assembly.step_patient htakes
  rw [append_assoc] at hframed
  refine ⟨⟨h.base.counted, h.base.own, h.base.sent, h.base.few, h.base.earlier, h.base.output,
    h.base.documented, hframed, hahead⟩, ?_, ?_⟩
  · intro hb
    have hlive := h.live hb
    exact ⟨⟨hlive.frames, hlive.busy, hlive.order, hlive.flight, hlive.idle, hlive.closed,
      hlive.sockOpen⟩, hlive.waiting⟩
  · intro hb
    have hdead := h.dead hb
    exact ⟨hdead.cmd, hdead.busy, hdead.queue⟩

theorem resume_inv (h : w.Inv cells answers) {i : Nat} {f : Frame} (hf : w.frames[i]? = some f) :
    (resume { w with frames := w.frames.eraseIdx i } f).Inv cells answers := by
  by_cases hbroken : w.broken = true
  · exact resume_dead h.base hbroken (h.dead hbroken) hf
  · have hfalse : w.broken = false := by simpa using hbroken
    have hlive := h.live hfalse
    have hpump := hlive.frames f (mem_of_getElem? hf)
    have hbase := h.base.takeFrame hf
    rw [hpump] at hbase ⊢
    refine pump_live hbase hfalse ⟨?_, hlive.busy, hlive.order, hlive.flight, hlive.idle,
      hlive.closed, hlive.sockOpen⟩
    intro g hg
    exact hlive.frames g (mem_of_mem_eraseIdx hg)

/-- What is asked of the commands that were sent does not see a new command. -/
theorem Base.flatMap_sent {α : Type} {hand : List Nat} (h : w.Base cells answers hand)
    {f g : Nat → List α} (hfg : ∀ i, i < w.commands.length → f i = g i) :
    w.sent.flatMap f = w.sent.flatMap g := by
  apply flatMap_congr
  intro i hi
  rw [h.sent] at hi
  have hlt := List.mem_range.mp hi
  exact hfg i (Nat.lt_of_lt_of_le hlt h.few)

/-- A command is queued. -/
theorem enqueue_inv (h : w.Inv cells answers) {command : Command}
    (hdocumented : (answers w.commands.length).Documented command.kind w.deprecateEof)
    (hopen : w.closed = true → w.broken = true) : (w.enqueue command).Inv cells answers := by
  have hold : ∀ i, i < w.commands.length → (w.commands ++ [command])[i]? = w.commands[i]? :=
    fun i hi => getElem?_append_left hi
  have hlt : ∀ {i c}, w.commands[i]? = some c → i < w.commands.length :=
    fun hc => (List.getElem?_eq_some_iff.mp hc).1
  have hsends : sends answers { w with
      commands := w.commands ++ [command], queue := w.queue ++ [w.commands.length] }
      = w.sends answers := by
    refine h.base.flatMap_sent ?_
    intro i hi
    rw [sendsTo, sendsTo, hold i hi]
  have hbase : Base cells answers { w with
      commands := w.commands ++ [command], queue := w.queue ++ [w.commands.length] } [] := by
    refine ⟨?_, ?_, h.base.sent, ?_, h.base.earlier, ?_, ?_, h.base.framed, ?_⟩
    · intro i
      have hcounted := h.base.counted i
      show (w.results i).length + List.count i ([] ++ ((w.cmd.map CommandState.promise).toList
        ++ ((w.queue ++ [w.commands.length]) ++ w.frames.flatMap Frame.promises)))
        = if i < (w.commands ++ [command]).length then 1 else 0
      rw [outstanding] at hcounted
      simp only [count_append, nil_append, count_singleton, length_append,
        length_singleton] at hcounted ⊢
      by_cases hi : w.commands.length = i
      · rw [if_neg (by omega)] at hcounted
        rw [if_pos (beq_iff_eq.mpr hi), if_pos (by omega)]
        omega
      · rw [if_neg (fun heq => hi (beq_iff_eq.mp heq))]
        by_cases hin : i < w.commands.length
        · rw [if_pos hin] at hcounted
          rw [if_pos (by omega)]
          omega
        · rw [if_neg hin] at hcounted
          rw [if_neg (by omega)]
          omega
    · intro i r hr
      rcases h.base.own i r hr with ⟨hmem, c, hc, heq⟩ | hlost
      · exact Or.inl ⟨hmem, c, (hold i (hlt hc)).trans hc, heq⟩
      · exact Or.inr hlost
    · show w.sent.length ≤ (w.commands ++ [command]).length
      rw [length_append]
      exact h.base.few.trans (Nat.le_add_right _ _)
    · obtain ⟨tail, htail, hor⟩ := h.base.output
      refine ⟨tail, ?_, hor⟩
      show w.output = _
      rw [htail]
      congr 1
      refine h.base.flatMap_sent ?_
      intro i hi
      rw [bytesOf, bytesOf, hold i hi]
    · intro i c hc
      rcases Nat.lt_or_ge i w.commands.length with hi | hi
      · exact h.base.documented i c ((hold i hi).symm.trans hc)
      · have hat : (w.commands ++ [command])[i]? = some c := hc
        rw [getElem?_append_right hi] at hat
        have hzero : i = w.commands.length := by
          have := (List.getElem?_eq_some_iff.mp hat).1
          rw [length_singleton] at this
          omega
        rw [hzero, Nat.sub_self] at hat
        cases hat
        rw [hzero]
        exact hdocumented
    · rw [stream, hsends]
      exact h.base.received
  rw [enqueue]
  by_cases hbroken : w.broken = true
  · exact pump_dead hbase hbroken (h.dead hbroken).cmd (h.dead hbroken).busy
  · have hlive := h.live (by simpa using hbroken)
    refine pump_live hbase (by simpa using hbroken) ⟨hlive.frames, hlive.busy, ?_, ?_, ?_,
      fun hc => absurd (hopen hc) hbroken, hlive.sockOpen⟩
    · show w.sent ++ (w.queue ++ [w.commands.length]) = List.range (w.commands ++ [command]).length
      rw [← append_assoc, hlive.order, length_append, length_singleton,
        range_succ]
    · intro c hc
      obtain ⟨earlier, sent, s, ps, hsent, hcommand, hrest⟩ := hlive.flight c hc
      refine ⟨earlier, sent, s, ps, hsent, (hold _ (hlt hcommand)).trans hcommand, ?_⟩
      rw [hsends]
      exact hrest
    · intro hc
      rw [hsends]
      exact hlive.idle hc

theorem trackTrans_eq (w : Connection V) (status : Option Nat) :
    ∃ b, w.trackTrans status = { w with inTrans := b } := by
  cases status with
  | none => exact ⟨w.inTrans, rfl⟩
  | some n => exact ⟨_, rfl⟩

variable {c : CommandState V}

/-- The command in flight is complete. -/
theorem completeCmd_live {r : CommandResult V} (h : w.Base cells answers [])
    (hbroken : w.broken = false) (hframes : ∀ f ∈ w.frames, f = .pump)
    (horder : w.sent ++ w.queue = List.range w.commands.length) (hclosed : w.closed = false)
    (hopen : w.sockOpen = true) (hcmd : w.cmd = some c)
    (hdelivered : w.delivered = (w.sends answers).map Framing.callOf)
    (hown : w.Own cells answers c.promise r) : (w.completeCmd r).Inv cells answers := by
  have hhand : Base cells answers ({ w with cmd := none, busy := false } : Connection V)
      [c.promise] := by
    refine h.move ?_ id rfl rfl rfl rfl rfl id rfl rfl rfl
    intro i
    rw [outstanding, outstanding, hcmd]
    rfl
  rw [completeCmd, hcmd]
  refine Inv.of_live ?_ hbroken ⟨⟨?_, rfl, horder, (fun _ h => by cases h), fun _ => hdelivered, ?_,
    fun _ => hopen⟩,
    fun _ _ => mem_cons_self⟩
  · exact (hhand.resolve hown).move (fun _ => rfl) id rfl rfl rfl rfl rfl id rfl rfl rfl
  · intro f hf
    rcases List.mem_cons.mp hf with hpump | hin
    · exact hpump
    · exact hframes f hin
  · intro hc
    rw [show w.closed = true from hc] at hclosed
    cases hclosed

theorem onCommandPacket_error {e : Exn} (hcmd : w.cmd = some c)
    (h : c.dispatchCommand cells p = .error e) :
    w.onCommandPacket cells p = w.fatal (.ofExn e) := by
  simp only [onCommandPacket, hcmd, h]

theorem onCommandPacket_more {c' : CommandState V} (hcmd : w.cmd = some c)
    (h : c.dispatchCommand cells p = .ok (.more c')) :
    w.onCommandPacket cells p = { w with cmd := some c' } := by
  simp only [onCommandPacket, hcmd, h]

theorem onCommandPacket_done {r : CommandResult V} {status : Option Nat} (hcmd : w.cmd = some c)
    (h : c.dispatchCommand cells p = .ok (.done r status)) :
    w.onCommandPacket cells p = (w.trackTrans status).completeCmd r := by
  simp only [onCommandPacket, hcmd, h]

/-- The next packet of the answer to the command in flight. -/
theorem onCommandPacket_live {command : Command} {s : Int} {ps : List Bytes}
    (h : w.Base cells answers []) (hbroken : w.broken = false) (hframes : ∀ f ∈ w.frames, f = .pump)
    (horder : w.sent ++ w.queue = List.range w.commands.length) (hclosed : w.closed = false)
    (hopen : w.sockOpen = true) (hcmd : w.cmd = some c) (hbusy : w.busy = true)
    (hsent : ∃ earlier, w.sent = earlier ++ [c.promise])
    (hcommand : w.commands[c.promise]? = some command)
    (hcalls : w.delivered ++ (sendsFrom s ps).map Framing.callOf
      = (w.sends answers).map Framing.callOf) (hseq : w.seq = (s % 256).toNat)
    (hmem : ∀ q ∈ ps, q ∈ (answers c.promise).payloads w.deprecateEof)
    (hends : CommandState.Ends cells c (p :: ps)
      ((answers c.promise).decode cells command.kind w.deprecateEof)) :
    (w.onCommandPacket cells p).Inv cells answers := by
  obtain ⟨earlier, hearlier⟩ := hsent
  have hin : c.promise ∈ w.sent := by
    rw [hearlier]
    exact List.mem_append.mpr (Or.inr mem_cons_self)
  rcases hends.cases with ⟨e, hd, hout⟩ | ⟨c', hd, hrest⟩ | ⟨r, status, hd, hout, hnil⟩
  · rw [onCommandPacket_error hcmd hd]
    refine fatal_live h (hbusy.trans (by rw [hcmd]; rfl)) ?_
    intro d hdc
    rw [hcmd] at hdc
    cases hdc
    exact Or.inl ⟨hin, command, hcommand, (Response.reply_of_error hout).symm⟩
  · rw [onCommandPacket_more hcmd hd]
    have hpromise := CommandState.dispatchCommand_promise hd
    refine Inv.of_live (h.move ?_ id rfl rfl rfl rfl rfl id rfl rfl rfl) hbroken
      ⟨⟨hframes, hbusy, horder, ?_, nofun, ?_, fun _ => hopen⟩, nofun⟩
    · intro i
      rw [outstanding, outstanding]
      show List.count i ([] ++ ([c'.promise] ++ _))
        = List.count i ([] ++ ((w.cmd.map CommandState.promise).toList ++ _))
      rw [hcmd, hpromise]
      rfl
    · intro d hdc
      cases hdc
      rw [← hpromise] at hearlier hcommand hmem hrest
      exact ⟨earlier, command, s, ps, hearlier, hcommand, hcalls, hseq, hmem, Or.inr hrest⟩
    · intro hc
      rw [show w.closed = true from hc] at hclosed
      cases hclosed
  · rw [onCommandPacket_done hcmd hd]
    rw [hnil] at hcalls
    obtain ⟨b, hb⟩ := trackTrans_eq w status
    have hown : w.Own cells answers c.promise r :=
      Or.inl ⟨hin, command, hcommand, (Response.reply_of_ok hout).symm⟩
    rw [hb]
    exact completeCmd_live (h.move (fun _ => rfl) id rfl rfl rfl rfl rfl id rfl rfl rfl) hbroken
      hframes horder hclosed hopen hcmd ((append_nil _).symm.trans hcalls) hown

/-- A payload that makes up one packet has the id that the connection expects. -/
theorem callOf_seq {s : Int} {seq : Nat} (hseq : seq = (s % 256).toNat)
    (hcount : Framing.packetCount p.length % 256 = 1) :
    (Framing.callOf (p, s)).1 = seq ∧
      (seq + 1) % 256 = ((s + Framing.packetCount p.length) % 256).toNat := by
  show ((s + (Framing.packetCount p.length - 1 : Nat)) % 256).toNat = seq ∧ _
  omega

/-- A packet is looked at. -/
theorem deliver_inv (h : w.Inv cells answers) {call : SinkCall} {rest : List SinkCall}
    (hinbox : w.inbox = call :: rest)
    (hplain : w.broken = false → ∀ c, w.cmd = some c → (answers c.promise).Plain w.deprecateEof) :
    (onPacket cells { w with inbox := rest, delivered := w.delivered ++ [call] } call).Inv cells
      answers := by
  have hbase : Base cells answers
      { w with inbox := rest, delivered := w.delivered ++ [call] } [] := by
    refine h.base.move (fun _ => rfl) id rfl rfl rfl rfl rfl id rfl ?_ rfl
    show w.delivered ++ [call] ++ rest = _
    rw [hinbox, append_assoc, singleton_append]
  by_cases hbroken : w.broken = true
  · exact onPacket_dead hbase hbroken
      ⟨(h.dead hbroken).cmd, (h.dead hbroken).busy, (h.dead hbroken).queue⟩ call
  have hfalse : w.broken = false := by simpa using hbroken
  have hlive := h.live hfalse
  obtain ⟨more, hmore⟩ := h.base.calls
  rw [hinbox] at hmore
  by_cases hnone : w.cmd = none
  · -- every answer is complete, so there is no packet
    have hlength := congrArg List.length hmore
    rw [hlive.idle hnone] at hlength
    simp only [length_append, length_cons] at hlength
    omega
  · obtain ⟨c, hcmd⟩ := Option.ne_none_iff_exists'.mp hnone
    obtain ⟨earlier, command, s, ps, hsent, hcommand, hcalls, hseq, hmem, hanswer⟩ :=
      hlive.flight c hcmd
    have hclosed : w.closed = false := by
      cases hc : w.closed with
      | false => rfl
      | true => exact absurd (hlive.closed hc).1 hnone
    have hbusy : w.busy = true := by
      rw [hlive.busy, hcmd]
      rfl
    rw [← hcalls, append_assoc] at hmore
    have hnext := append_cancel_left hmore
    cases ps with
    | nil => cases hnext
    | cons p ps =>
      rw [cons_append, sendsFrom, map_cons] at hnext
      obtain ⟨hcall, -⟩ := List.cons.inj hnext
      have hp := hplain hfalse c hcmd
      have hends : CommandState.Ends cells c (p :: ps)
          ((answers c.promise).decode cells command.kind w.deprecateEof) := by
        rcases hanswer with ⟨hfresh, hall⟩ | hends
        · rw [hfresh, hall]
          exact CommandState.ends_payloads c.promise (h.base.documented _ command hcommand) hp
        · exact hends
      rw [sendsFrom, map_cons, ← singleton_append, ← append_assoc] at hcalls
      obtain ⟨hid, hafter⟩ := callOf_seq hseq (hp.1 p (hmem p mem_cons_self))
      rw [hcall] at hbase ⊢
      rw [onPacket, if_neg (fun hne => hne hid), hid]
      exact onCommandPacket_live
        (hbase.move (fun _ => rfl) id rfl rfl rfl rfl rfl id rfl rfl rfl) hfalse hlive.frames
        hlive.order hclosed (hlive.sockOpen hclosed) hcmd hbusy ⟨earlier, hsent⟩ hcommand hcalls
        hafter (fun q hq => hmem q (mem_cons_of_mem _ hq)) hends

/-! ### Answers that are not recognized -/

/-! ### Runs -/

/-- What is assumed of the server: it gives a documented answer to each command, and only to
commands that were sent. -/
def Assumed (answers : Nat → Response) (w : Connection V) : Event → Prop
  | .enqueue command => (answers w.commands.length).Documented command.kind w.deprecateEof
  | .receive chunk => w.received ++ chunk <+: w.stream answers
  | _ => True

/-- The events that the pipeline copes with: the packets that are looked at belong to an answer
that is recognized, the connection is closed when nothing is in flight or queued, and no command
is queued after that, unless it is broken. -/
def Regular (answers : Nat → Response) (w : Connection V) : Event → Prop
  | .deliver => w.broken = false → ∀ c, w.cmd = some c → (answers c.promise).Plain w.deprecateEof
  | .close => w.broken = true ∨ w.cmd = none ∧ w.queue = []
  | .enqueue _ => w.closed = true → w.broken = true
  | _ => True

theorem Inv.step {e : Event} (h : w.Inv cells answers) (hassumed : Assumed answers w e)
    (hregular : Regular answers w e) (hstep : step cells w e = some w') :
    w'.Inv cells answers := by
  cases e with
  | enqueue command =>
    cases hstep
    exact enqueue_inv h hassumed hregular
  | close =>
    cases hstep
    exact close_inv h hregular
  | resume i =>
    simp only [Connection.step] at hstep
    split at hstep
    · rename_i f hf
      cases hstep
      exact resume_inv h hf
    · cases hstep
  | receive chunk =>
    simp only [Connection.step] at hstep
    split at hstep
    · split at hstep
      · rename_i asm calls hfeed
        cases hstep
        exact receive_inv h hassumed hfeed
      · cases hstep
    · cases hstep
  | deliver =>
    simp only [Connection.step] at hstep
    split at hstep
    · rename_i call rest hinbox
      cases hstep
      exact deliver_inv h hinbox hregular
    · cases hstep
  | onClose =>
    cases hstep
    exact onClose_inv h

theorem Inv.ready (cells : Cells V) (answers : Nat → Response) (deprecateEof : Bool) :
    (ready deprecateEof : Connection V).Inv cells answers := by
  refine Inv.of_live ⟨fun _ => rfl, ?_, rfl, Nat.le_refl 0, ?_, ⟨[], rfl, Or.inl rfl⟩, ?_, .stop rfl,
    nil_prefix⟩ rfl ⟨⟨nofun, rfl, rfl, nofun, fun _ => rfl, nofun, fun _ => rfl⟩, ?_⟩
  · intro i r hr
    cases hr
  · intro i hi
    exact absurd hi (Nat.not_lt_zero _)
  · intro i command hc
    cases hc
  · intro _ hne
    exact absurd rfl hne

/-- What is promised of a pipeline at every moment. -/
structure Sound (cells : Cells V) (answers : Nat → Response) (w : Connection V) : Prop where
  /-- the commands are sent in the order in which they were queued -/
  order : w.sent = List.range w.sent.length ∧ w.sent.length ≤ w.commands.length
  /-- and nothing else is sent, but for the last word of `close` -/
  output : ∃ tail, w.output = w.sent.flatMap w.bytesOf ++ tail ∧
    (tail = [] ∨ w.closed = true ∧ tail = Framing.encode (Wire.wU8 Com.QUIT) 0)
  /-- a command is sent when the one before it is answered -/
  oneAtATime : ∀ i, i + 1 < w.sent.length → w.results i ≠ []
  /-- a promise is resolved once, with the meaning of the answer to its command -/
  once : ∀ i, (w.results i).length ≤ 1
  own : ∀ i r, r ∈ w.results i → w.Own cells answers i r
  /-- when all answers have come, every promise is resolved -/
  answered : w.broken = false → w.frames = [] → w.inbox = [] → w.received = w.stream answers →
    ∀ i, i < w.commands.length → w.results i ≠ []
  /-- and so it is when the connection is broken or closed -/
  settled : w.broken = true ∨ w.closed = true → w.frames = [] →
    ∀ i, i < w.commands.length → w.results i ≠ []

/-- With nothing outstanding every promise is resolved. -/
theorem Base.all_settled (h : w.Base cells answers []) (hcmd : w.cmd = none) (hqueue : w.queue = [])
    (hframes : w.frames = []) : ∀ i, i < w.commands.length → w.results i ≠ [] := by
  intro i hi hnil
  have hcounted := h.counted i
  rw [outstanding, hcmd, hqueue, hframes, hnil, if_pos hi] at hcounted
  cases hcounted

theorem payloads_ne_nil (deprecateEof : Bool) (r : Response) : r.payloads deprecateEof ≠ [] := by
  cases r with
  | ok p => exact cons_ne_nil _ _
  | err p => exact cons_ne_nil _ _
  | resultSet columns eof rows last => exact cons_ne_nil _ _
  | prepared head params paramsEof columns columnsEof => exact cons_ne_nil _ _

/-- When all answers have come, no command is in flight. -/
theorem Inv.idle (h : w.Inv cells answers) (hbroken : w.broken = false) (hinbox : w.inbox = [])
    (hall : w.received = w.stream answers) : w.cmd = none := by
  by_contra hsome
  obtain ⟨c, hcmd⟩ := Option.ne_none_iff_exists'.mp hsome
  obtain ⟨earlier, command, s, ps, -, -, hcalls, -, -, hanswer⟩ := (h.live hbroken).flight c hcmd
  obtain ⟨a, -, -, -, htakes⟩ := Framing.takes_encode (w.sends answers)
    (a := PacketAssembler.new.toAssembly) rfl rfl rfl
  have hframed := h.base.framed
  rw [hall, hinbox, append_nil] at hframed
  obtain ⟨-, -, hdelivered⟩ := hframed.unique htakes
  rw [← hdelivered] at hcalls
  have hnone : (sendsFrom s ps).map Framing.callOf = [] := by
    simpa using hcalls
  cases ps with
  | nil =>
    rcases hanswer with ⟨-, hnil⟩ | ⟨rest, hrun, -⟩
    · exact payloads_ne_nil _ _ hnil.symm
    · cases hrun
  | cons p ps => cases hnone

theorem Inv.sound (h : w.Inv cells answers) : w.Sound cells answers := by
  refine ⟨⟨h.base.sent, h.base.few⟩, h.base.output, h.base.earlier, ?_, h.base.own, ?_, ?_⟩
  · intro i
    have hcounted := h.base.counted i
    split at hcounted
    · omega
    · omega
  · intro hbroken hframes hinbox hall
    have hcmd := h.idle hbroken hinbox hall
    refine h.base.all_settled hcmd ?_ hframes
    by_contra hqueue
    have hpump := (h.live hbroken).waiting hcmd hqueue
    rw [hframes] at hpump
    cases hpump
  · intro hor hframes
    by_cases hbroken : w.broken = true
    · have hdead := h.dead hbroken
      refine h.base.all_settled hdead.cmd ?_ hframes
      by_contra hqueue
      rcases hdead.queue hqueue with hbusy | hdrain
      · have hunbusy := hdead.busy hbusy
        rw [hframes] at hunbusy
        cases hunbusy
      · rw [hframes] at hdrain
        cases hdrain
    · obtain ⟨hcmd, hqueue⟩ := (h.live (by simpa using hbroken)).closed (hor.resolve_left hbroken)
      exact h.base.all_settled hcmd hqueue hframes

/-- **The pipeline answers every command with its own response**, in every run of regular events
with a server that gives documented answers, however its bytes are cut. -/
theorem pipeline_sound (cells : Cells V) (answers : Nat → Response) (deprecateEof : Bool)
    {events : List Event}
    (hevents : Steps (step cells) (fun w e _ => Assumed answers w e ∧ Regular answers w e)
      (ready deprecateEof) events)
    (hrun : run (step cells) (ready deprecateEof) events = some w) : w.Sound cells answers :=
  (run_invariant_of_steps (fun _ _ _ h hp hstep => h.step hp.1 hp.2 hstep)
    (Inv.ready cells answers deprecateEof) hevents hrun).sound

/-- Cells of one value only. -/
def unitCells : Cells Unit := ⟨(), fun _ _ => (), fun _ _ _ => .ok ((), 0)⟩

/-- A ping is answered, by a packet in two fragments. -/
theorem pipeline_sound_ping : ∃ w, run (step unitCells) (ready true)
      [.enqueue .ping, .receive [7, 0, 0, 1, 0, 0], .receive [0, 2, 0, 0, 0], .deliver, .resume 0]
      = some w ∧ w.results 0 = [.ok ⟨0, 0, 2, 0⟩] ∧
    w.Sound unitCells fun _ => .ok [0, 0, 0, 2, 0, 0, 0] := by
  have hevents : Steps (step unitCells)
      (fun w e _ => Assumed (fun _ => .ok [0, 0, 0, 2, 0, 0, 0]) w e ∧
        Regular (fun _ => .ok [0, 0, 0, 2, 0, 0, 0]) w e) (ready true)
      [.enqueue .ping, .receive [7, 0, 0, 1, 0, 0], .receive [0, 2, 0, 0, 0], .deliver,
        .resume 0] := by
    intro w1 h1
    cases h1
    refine ⟨⟨⟨nofun, rfl, by decide⟩, nofun⟩, ?_⟩
    intro w2 h2
    cases h2
    refine ⟨⟨⟨[0, 2, 0, 0, 0], by decide⟩, trivial⟩, ?_⟩
    intro w3 h3
    cases h3
    refine ⟨⟨⟨[], by decide⟩, trivial⟩, ?_⟩
    intro w4 h4
    cases h4
    refine ⟨⟨trivial, fun _ c _ => ⟨?_, trivial⟩⟩, ?_⟩
    · intro p hp
      rw [List.mem_singleton.mp (show p ∈ [[0, 0, 0, 2, 0, 0, 0]] from hp)]
      decide
    · intro w5 h5
      cases h5
      exact ⟨⟨trivial, trivial⟩, trivial⟩
  exact ⟨_, rfl, rfl, pipeline_sound unitCells _ true hevents rfl⟩

/-- **A command in flight when the connection is closed stays unresolved.** -/
theorem close_leaves_ping : ∃ w, run (step unitCells) (ready true) [.enqueue .ping, .close] = some w ∧
    w.closed = true ∧ w.frames = [] ∧ w.commands.length = 1 ∧ w.results 0 = [] ∧
    ¬ w.Sound unitCells fun _ => .ok [0, 0, 0, 2, 0, 0, 0] := by
  refine ⟨_, rfl, rfl, rfl, rfl, rfl, ?_⟩
  intro h
  exact h.settled (Or.inr rfl) rfl 0 (by decide) rfl

end Connection

end Leviathan.MySql
