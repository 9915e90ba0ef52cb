import Leviathan.MySql.Responses

/-!
# The invariants of the command pipeline

The server's side of a run is given by `answers`, what it answers to each command.  What has
come from the socket is a prefix of the answers to the commands that were sent.

A connection is live or broken.  Live, it has at most one command in flight, and the packets
that are still to come answer it (`Live`).  Broken, every promise that is left is in the queue
or with a method that is under way, and some method will get to it (`Dead`).  In both cases
every promise was resolved or is accounted for (`Base`).
-/

namespace Leviathan.MySql

open List

open Feeding (Takes)

/-- The packets of an answer, with their sequence ids from `s` on. -/
def sendsFrom (s : Int) : List Bytes → List (Bytes × Int)
  | [] => []
  | p :: ps => (p, s) :: sendsFrom (s + Framing.packetCount p.length) ps

/-- What a promise is to be resolved with. -/
def Response.reply {V : Type} (cells : Cells V) (kind : Kind) (deprecateEof : Bool) (r : Response) :
    CommandResult V :=
  match r.decode cells kind deprecateEof with
  | .ok (result, _) => result
  | .error e => .failed (.ofExn e)

namespace Connection

variable {V : Type} (cells : Cells V) (answers : Nat → Response)

/-- The packets that answer a command. -/
def sendsTo (w : Connection V) (i : Nat) : List (Bytes × Int) :=
  match w.commands[i]? with
  | some command =>
    sendsFrom (Framing.packetCount command.payload.length)
      ((answers i).payloads w.deprecateEof)
  | none => []

/-- The packets that answer the commands that were sent. -/
def sends (w : Connection V) : List (Bytes × Int) := w.sent.flatMap (w.sendsTo answers)

/-- The bytes of these packets. -/
def stream (w : Connection V) : Bytes :=
  (w.sends answers).flatMap fun send => Framing.encode send.1 send.2

/-- The bytes that a command is sent as. -/
def bytesOf (w : Connection V) (i : Nat) : Bytes :=
  match w.commands[i]? with
  | some command => Framing.encode command.payload 0
  | none => []

end Connection

/-- The promises that a method under way will get to. -/
def Frame.promises : Frame → List Nat
  | .failEach rest => rest
  | _ => []

namespace Connection

variable {V : Type} (cells : Cells V) (answers : Nat → Response)

/-- The promises that are not resolved: of the command in flight, of the queue, and of the
methods under way. -/
def outstanding (w : Connection V) : List Nat :=
  (w.cmd.map CommandState.promise).toList ++ (w.queue ++ w.frames.flatMap Frame.promises)

/-- A promise was resolved with the meaning of the answer to its command, or the connection was
lost. -/
def Own (w : Connection V) (i : Nat) (r : CommandResult V) : Prop :=
  (i ∈ w.sent ∧ ∃ command, w.commands[i]? = some command ∧
      r = (answers i).reply cells command.kind w.deprecateEof) ∨
    w.broken = true ∧ ∃ message, r = .failed (.connectionLost message)

/-- What holds of a live and of a broken connection; `hand` is a promise that a method has taken
and will resolve now. -/
structure Base (w : Connection V) (hand : List Nat) : Prop where
  counted : ∀ i, (w.results i).length + (hand ++ w.outstanding).count i
    = if i < w.commands.length then 1 else 0
  own : ∀ i r, r ∈ w.results i → w.Own cells answers i r
  sent : w.sent = List.range w.sent.length
  few : w.sent.length ≤ w.commands.length
  earlier : ∀ i, i + 1 < w.sent.length → w.results i ≠ []
  output : ∃ tail, w.output = w.sent.flatMap w.bytesOf ++ tail ∧
    (tail = [] ∨ w.closed = true ∧ tail = Framing.encode (Wire.wU8 Com.QUIT) 0)
  documented : ∀ (i : Nat) (command : Command), w.commands[i]? = some command →
    (answers i).Documented command.kind w.deprecateEof
  framed : Takes Assembly.step PacketAssembler.new.toAssembly w.received w.asm.toAssembly
    w.asm.unread (w.delivered ++ w.inbox)
  received : w.received <+: w.stream answers

/-- The packets that are to come answer the command in flight. -/
def InFlight (w : Connection V) (c : CommandState V) : Prop :=
  ∃ earlier command s ps, w.sent = earlier ++ [c.promise] ∧
    w.commands[c.promise]? = some command ∧
    w.delivered ++ (sendsFrom s ps).map Framing.callOf = (w.sends answers).map Framing.callOf ∧
    w.seq = (s % 256).toNat ∧ (∀ p ∈ ps, p ∈ (answers c.promise).payloads w.deprecateEof) ∧
    (c = .fresh c.promise command.kind w.deprecateEof ∧
        ps = (answers c.promise).payloads w.deprecateEof ∨
      CommandState.Ends cells c ps ((answers c.promise).decode cells command.kind w.deprecateEof))

/-- A connection that is not broken. -/
structure Active (w : Connection V) : Prop where
  frames : ∀ f ∈ w.frames, f = .pump
  busy : w.busy = w.cmd.isSome
  order : w.sent ++ w.queue = List.range w.commands.length
  flight : ∀ c, w.cmd = some c → w.InFlight cells answers c
  idle : w.cmd = none → w.delivered = (w.sends answers).map Framing.callOf
  closed : w.closed = true → w.cmd = none ∧ w.queue = []
  sockOpen : w.closed = false → w.sockOpen = true

/-- Its queue will be looked at. -/
structure Live (w : Connection V) : Prop extends w.Active cells answers where
  waiting : w.cmd = none → w.queue ≠ [] → .pump ∈ w.frames

/-- A broken connection. -/
structure Dead (w : Connection V) : Prop where
  cmd : w.cmd = none
  busy : w.busy = true → .unbusy ∈ w.frames
  queue : w.queue ≠ [] → w.busy = true ∨ .drainQueue ∈ w.frames

/-- The invariant of a run. -/
structure Inv (w : Connection V) : Prop where
  base : w.Base cells answers []
  live : w.broken = false → w.Live cells answers
  dead : w.broken = true → w.Dead

variable {cells answers} {w w' : Connection V}

/-! ### Changes that the base does not see -/

theorem sendsTo_congr (hcommands : w'.commands = w.commands)
    (hdeprecate : w'.deprecateEof = w.deprecateEof) : w'.sendsTo answers = w.sendsTo answers := by
  funext i
  rw [sendsTo, sendsTo, hcommands, hdeprecate]

theorem sends_congr (hcommands : w'.commands = w.commands)
    (hdeprecate : w'.deprecateEof = w.deprecateEof) (hsent : w'.sent = w.sent) :
    w'.sends answers = w.sends answers := by
  rw [sends, sends, sendsTo_congr hcommands hdeprecate, hsent]

/-- Commands, answers and what was sent stay as they are, and so do the results; the promises
that are not resolved only move. -/
theorem Base.move {hand hand' : List Nat} (h : w.Base cells answers hand)
    (hcount : ∀ i, (hand' ++ w'.outstanding).count i = (hand ++ w.outstanding).count i)
    (hbroken : w.broken = true → w'.broken = true) (hdeprecate : w'.deprecateEof = w.deprecateEof)
    (hcommands : w'.commands = w.commands) (hresults : w'.results = w.results)
    (hsent : w'.sent = w.sent) (houtput : w'.output = w.output)
    (hclosed : w.closed = true → w'.closed = true) (hasm : w'.asm = w.asm)
    (hcalls : w'.delivered ++ w'.inbox = w.delivered ++ w.inbox)
    (hreceived : w'.received = w.received) : w'.Base cells answers hand' := by
  refine ⟨?_, ?_, ?_, ?_, ?_, ?_, ?_, ?_, ?_⟩
  · intro i
    rw [hresults, hcount, hcommands]
    exact h.counted i
  · intro i r hr
    rw [hresults] at hr
    rcases h.own i r hr with ⟨hmem, command, hcommand, heq⟩ | ⟨hb, hlost⟩
    · left
      refine ⟨by rw [hsent]; exact hmem, command, by rw [hcommands]; exact hcommand, ?_⟩
      rw [hdeprecate]
      exact heq
    · right
      exact ⟨hbroken hb, hlost⟩
  · rw [hsent]
    exact h.sent
  · rw [hsent, hcommands]
    exact h.few
  · rw [hsent, hresults]
    exact h.earlier
  · obtain ⟨tail, htail, hor⟩ := h.output
    refine ⟨tail, ?_, ?_⟩
    · rw [houtput, htail, hsent]
      congr 2
      funext i
      rw [bytesOf, bytesOf, hcommands]
    · rcases hor with hnil | ⟨hc, hquit⟩
      · exact Or.inl hnil
      · exact Or.inr ⟨hclosed hc, hquit⟩
  · rw [hcommands, hdeprecate]
    exact h.documented
  · rw [hcalls, hreceived, hasm]
    exact h.framed
  · rw [hreceived, stream, sends_congr hcommands hdeprecate hsent]
    exact h.received

/-- A promise is resolved. -/
theorem Base.resolve {p : Nat} {hand : List Nat} {r : CommandResult V}
    (h : w.Base cells answers (p :: hand)) (hown : w.Own cells answers p r) :
    (w.resolve p r).Base cells answers hand := by
  have hat : ∀ i, (w.resolve p r).results i
      = if i = p then w.results i ++ [r] else w.results i := by
    intro i
    show Function.update w.results p _ i = _
    by_cases hi : i = p
    · rw [if_pos hi, hi, Function.update_self]
    · rw [if_neg hi, Function.update_of_ne hi]
  refine ⟨?_, ?_, h.sent, h.few, ?_, h.output, h.documented, h.framed, h.received⟩
  · intro i
    have hcounted := h.counted i
    rw [cons_append, count_cons] at hcounted
    show ((w.resolve p r).results i).length + (hand ++ w.outstanding).count i
      = if i < w.commands.length then 1 else 0
    rw [hat]
    by_cases hi : i = p
    · rw [if_pos hi, length_append, length_singleton]
      rw [hi] at hcounted ⊢
      rw [beq_self_eq_true, if_pos rfl] at hcounted
      omega
    · rw [if_neg hi]
      have hne : (p == i) = false := beq_eq_false_iff_ne.mpr fun heq => hi heq.symm
      rw [hne] at hcounted
      exact hcounted
  · intro i r' hr'
    rw [hat] at hr'
    by_cases hi : i = p
    · rw [if_pos hi] at hr'
      rcases List.mem_append.mp hr' with hold | hnew
      · exact h.own i r' hold
      · rw [List.mem_singleton.mp hnew, hi]
        exact hown
    · rw [if_neg hi] at hr'
      exact h.own i r' hr'
  · intro i hi
    rw [hat]
    by_cases heq : i = p
    · rw [if_pos heq]
      exact append_ne_nil_of_right_ne_nil _ (cons_ne_nil r [])
    · rw [if_neg heq]
      exact h.earlier i hi

/-! ### A broken connection -/

theorem Inv.of_dead (hbase : w.Base cells answers []) (hbroken : w.broken = true) (hdead : w.Dead) :
    w.Inv cells answers := by
  refine ⟨hbase, ?_, fun _ => hdead⟩
  intro hlive
  rw [hbroken] at hlive
  cases hlive

/-- A starter resolves its promise at once. -/
theorem begin_dead {p : Nat} (h : w.Base cells answers [p]) (hbroken : w.broken = true)
    (hcmd : w.cmd = none) (hqueue : w.queue ≠ [] → w.busy = true ∨ .drainQueue ∈ w.frames) :
    (w.begin p).Inv cells answers := by
  rw [begin, if_pos hbroken]
  have hresolved := h.resolve (p := p) (r := .failed (.connectionLost "connection is broken"))
    (Or.inr ⟨hbroken, _, rfl⟩)
  refine Inv.of_dead ?_ hbroken ⟨hcmd, fun _ => mem_cons_self, ?_⟩
  · exact hresolved.move (fun _ => rfl) id rfl rfl rfl rfl rfl id rfl rfl rfl
  · intro hne
    rcases hqueue hne with hbusy | hdrain
    · exact Or.inl hbusy
    · exact Or.inr (mem_cons_of_mem _ hdrain)

theorem pump_dead (h : w.Base cells answers []) (hbroken : w.broken = true) (hcmd : w.cmd = none)
    (hbusy : w.busy = true → .unbusy ∈ w.frames) : w.pump.Inv cells answers := by
  rw [pump]
  by_cases hb : w.busy = true
  · rw [if_pos hb]
    exact Inv.of_dead h hbroken ⟨hcmd, hbusy, fun _ => Or.inl hb⟩
  · rw [if_neg hb]
    cases hq : w.queue with
    | nil => exact Inv.of_dead h hbroken ⟨hcmd, hbusy, fun hne => absurd hq hne⟩
    | cons p rest =>
      refine begin_dead (h.move ?_ id rfl rfl rfl rfl rfl id rfl rfl rfl) hbroken hcmd
        (fun _ => Or.inl rfl)
      intro i
      rw [outstanding, outstanding, hcmd, hq]
      rfl

theorem failEach_dead (l : List Nat) (h : w.Base cells answers l) (hbroken : w.broken = true)
    (hdead : w.Dead) : (w.failEach l).Inv cells answers := by
  cases l with
  | nil =>
    rw [failEach]
    exact Inv.of_dead (h.move (fun _ => rfl) id rfl rfl rfl rfl rfl id rfl rfl rfl) hbroken
      ⟨hdead.cmd, hdead.busy, hdead.queue⟩
  | cons p rest =>
    rw [failEach]
    refine begin_dead (h.move ?_ id rfl rfl rfl rfl rfl id rfl rfl rfl) hbroken hdead.cmd ?_
    · intro i
      show List.count i ([p] ++ ((w.cmd.map CommandState.promise).toList
        ++ (w.queue ++ (rest ++ w.frames.flatMap Frame.promises))))
        = List.count i (p :: rest ++ w.outstanding)
      rw [outstanding]
      simp only [count_append, cons_append, nil_append, count_cons]
      omega
    · intro hne
      rcases hdead.queue hne with hbusy | hdrain
      · exact Or.inl hbusy
      · exact Or.inr (mem_cons_of_mem _ hdrain)

theorem drainQueue_dead (h : w.Base cells answers []) (hbroken : w.broken = true)
    (hcmd : w.cmd = none) (hbusy : w.busy = true → .unbusy ∈ w.frames) :
    w.drainQueue.Inv cells answers := by
  rw [drainQueue]
  refine failEach_dead w.queue (h.move ?_ id rfl rfl rfl rfl rfl id rfl rfl rfl) hbroken
    ⟨hcmd, hbusy, fun hne => absurd rfl hne⟩
  intro i
  show List.count i (w.queue ++ (_ ++ ([] ++ _))) = List.count i ([] ++ w.outstanding)
  rw [outstanding]
  simp only [count_append, nil_append]
  omega

/-- A frame is taken off. -/
theorem Base.takeFrame (h : w.Base cells answers []) {i : Nat} {f : Frame}
    (hf : w.frames[i]? = some f) :
    Base cells answers { w with frames := w.frames.eraseIdx i } f.promises := by
  obtain ⟨hi, hget⟩ := List.getElem?_eq_some_iff.mp hf
  have hperm : w.frames.Perm (f :: w.frames.eraseIdx i) := by
    rw [← hget]
    exact (getElem_cons_eraseIdx_perm hi).symm
  refine h.move ?_ id rfl rfl rfl rfl rfl id rfl rfl rfl
  intro j
  have hcount := (hperm.flatMap_right Frame.promises).count_eq j
  rw [flatMap_cons, count_append] at hcount
  show List.count j (f.promises ++ (_ ++ (w.queue ++ _))) = List.count j ([] ++ w.outstanding)
  rw [outstanding]
  simp only [count_append, nil_append]
  show _ + (_ + (_ + List.count j ((w.frames.eraseIdx i).flatMap Frame.promises))) = _
  omega

theorem mem_eraseIdx_of_ne {i : Nat} {f g : Frame} (hf : w.frames[i]? = some f)
    (hg : g ∈ w.frames) (hne : g ≠ f) : g ∈ w.frames.eraseIdx i := by
  obtain ⟨hi, hget⟩ := List.getElem?_eq_some_iff.mp hf
  have hmem := (getElem_cons_eraseIdx_perm hi).symm.mem_iff.mp hg
  rw [hget] at hmem
  exact (List.mem_cons.mp hmem).resolve_left hne

theorem resume_dead (h : w.Base cells answers []) (hbroken : w.broken = true) (hdead : w.Dead)
    {i : Nat} {f : Frame} (hf : w.frames[i]? = some f) :
    (resume { w with frames := w.frames.eraseIdx i } f).Inv cells answers := by
  have hbase := h.takeFrame hf
  have hbusy : f ≠ .unbusy → w.busy = true → .unbusy ∈ w.frames.eraseIdx i := by
    intro hne hb
    exact mem_eraseIdx_of_ne hf (hdead.busy hb) fun heq => hne heq.symm
  cases f with
  | pump => exact pump_dead hbase hbroken hdead.cmd (hbusy nofun)
  | unbusy =>
    exact pump_dead (hbase.move (fun _ => rfl) id rfl rfl rfl rfl rfl id rfl rfl rfl) hbroken
      hdead.cmd (fun hb => nomatch hb)
  | drainQueue => exact drainQueue_dead hbase hbroken hdead.cmd (hbusy nofun)
  | failEach rest =>
    refine failEach_dead rest hbase hbroken ⟨hdead.cmd, hbusy nofun, ?_⟩
    intro hne
    rcases hdead.queue hne with hb | hdrain
    · exact Or.inl hb
    · exact Or.inr (mem_eraseIdx_of_ne hf hdrain nofun)

/-- A packet for a broken connection breaks it again, or nothing happens. -/
theorem onPacket_dead (h : w.Base cells answers []) (hbroken : w.broken = true) (hdead : w.Dead)
    (call : SinkCall) : (w.onPacket cells call).Inv cells answers := by
  rw [onPacket]
  by_cases hseq : call.1 ≠ w.seq
  · rw [if_pos hseq, fatal, hdead.cmd]
    refine drainQueue_dead (h.move ?_ (fun _ => rfl) rfl rfl rfl rfl rfl id rfl rfl rfl) rfl rfl
      hdead.busy
    intro i
    rw [outstanding, outstanding, hdead.cmd]
  · rw [if_neg hseq, onCommandPacket]
    rw [hdead.cmd]
    exact Inv.of_dead (h.move (fun i => by rw [outstanding, outstanding, hdead.cmd]) id rfl rfl rfl
      rfl rfl id rfl rfl rfl) hbroken ⟨rfl, hdead.busy, hdead.queue⟩

end Connection

end Leviathan.MySql
