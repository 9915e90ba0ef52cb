import Leviathan.Net.HttpConnection

/-!
# The protocol of a connection

The invariant of a connection has two parts.  `Core` is about the stream, the sinks and the
counts; it holds at every point of the code.  `Task` says where the responder stands, and
holds between two events.  All sinks but the last have ended, and the last has too unless a
stream is open, so there is never more than one task that can send.
-/

variable {c k : Nat} {ok : Bool} {conn : Socket} {r : FlushResult} {s' : SinkState} {w' : Http}
  {ev : Event}

namespace Leviathan.Net

open List

/-! ## What the sinks do without sending -/

namespace SinkState

/-- The sink goes on and no call starts to flush. -/
structure Later (s s' : SinkState) : Prop where
  inv : s'.Inv
  ended : s.sink.endedFlag = true → s'.sink.endedFlag = true
  flushing : ∀ c, s'.stage c = .flushing → s.stage c = .flushing

variable {s : SinkState}

theorem flushing_update {stage : Stage} (hstage : stage ≠ .flushing) {d : Nat}
    (hc : Function.update s.stage d stage c = .flushing) : s.stage c = .flushing := by
  by_cases hcd : c = d
  · rw [hcd, Function.update_self] at hc
    exact absurd hc hstage
  · rwa [Function.update_of_ne hcd] at hc

theorem flushing_acquire {payload : Option Str}
    (hc : ((s.newCall payload).acquire s.count).stage c = .flushing) : s.stage c = .flushing := by
  unfold acquire at hc
  dsimp only at hc
  split at hc
  · have hc : Function.update s.stage s.count (.parked none) c = .flushing := hc
    exact flushing_update (by decide) hc
  · have hc : Function.update s.stage s.count (.parked (some true)) c = .flushing := hc
    exact flushing_update (by decide) hc

theorem ended_acquire (payload : Option Str) :
    ((s.newCall payload).acquire s.count).sink.endedFlag = s.sink.endedFlag := by
  unfold acquire
  dsimp only
  split
  · rfl
  · rfl

theorem flushing_detach (hc : s.detach.stage c = .flushing) : s.stage c = .flushing := by
  rw [detach_eq] at hc
  have hc : (if c ∈ s.sink.turnQ then Stage.parked (some false) else s.stage c) = .flushing := hc
  split at hc
  · cases hc
  · exact hc

theorem fire_eq (s : SinkState) (hook : Option Hook) :
    (s.fire hook).stage = s.stage ∧ (s.fire hook).sink = s.sink := by
  cases hook with
  | none => exact ⟨rfl, rfl⟩
  | some k => exact ⟨rfl, rfl⟩

theorem flushing_abort (hc : s.abort.2.stage c = .flushing) : s.stage c = .flushing := by
  unfold abort at hc
  split at hc
  · exact hc
  · dsimp only at hc
    rw [(fire_eq _ _).1] at hc
    exact flushing_detach (s := { s with sink := { s.sink with aborted := true } }) hc

theorem ended_abort (s : SinkState) : s.abort.2.sink.endedFlag = s.sink.endedFlag := by
  unfold abort
  split
  · rfl
  · dsimp only
    rw [(fire_eq _ _).2]
    exact (detach_fields _).2.2.2

theorem Inv.later_abort (h : s.Inv) : Later s s.abort.2 :=
  ⟨h.abort, fun hended => (ended_abort s).trans hended, fun _ => flushing_abort⟩

theorem Inv.later_write (h : s.Inv) (data : Str) : Later s (s.write data) := by
  refine ⟨h.write data, ?_, ?_⟩
  · intro hended
    unfold SinkState.write
    split
    · exact hended
    · split
      · exact hended
      · exact (ended_acquire _).trans hended
  · intro c hc
    unfold SinkState.write at hc
    split at hc
    · exact flushing_update (show Stage.returned ≠ .flushing by decide) hc
    · split at hc
      · exact flushing_update (show Stage.returned ≠ .flushing by decide) hc
      · exact flushing_acquire hc

theorem Inv.later_end (h : s.Inv) : Later s s.end := by
  refine ⟨h.end, ?_, ?_⟩
  · intro hended
    unfold SinkState.end
    split
    · exact hended
    · exact (ended_acquire _).trans hended
  · intro c hc
    unfold SinkState.end at hc
    split at hc
    · exact flushing_update (show Stage.returned ≠ .flushing by decide) hc
    · exact flushing_acquire hc

theorem Inv.later_onClose (h : s.Inv) : Later s s.onClose := by
  refine ⟨h.onClose, ?_, ?_⟩
  · intro hended
    unfold SinkState.onClose
    dsimp only
    split
    · exact hended
    · exact hended
  · intro c hc
    unfold SinkState.onClose at hc
    dsimp only at hc
    split at hc
    · exact hc
    · exact hc

theorem flushing_handover {drained : List Nat} {d : Nat}
    (hd : (s.handover c drained).stage d = .flushing) : s.stage d = .flushing := by
  have hd : (if d = c then .returned
      else if s.sink.turnQ.head? = some d then .parked (some true) else s.stage d) =
        Stage.flushing := hd
  split at hd
  · cases hd
  · split at hd
    · cases hd
    · exact hd

/-- A call that goes on on a closed sink. -/
theorem Inv.later_resume {b : Bool} (h : s.Inv) (hc : s.stage c = .parked (some b))
    (hclosed : s.sink.isClosed = true) : s.resume c = (none, (s.resume c).2) ∧
      Later s (s.resume c).2 := by
  have heq : s.resume c = (none, s.handover c s.drained) := by
    unfold SinkState.resume
    rw [if_pos hclosed, release_setStage]
  have hinv := h.resume hc
  rw [heq] at hinv ⊢
  exact ⟨rfl, hinv, id, fun _ => flushing_handover⟩

theorem Inv.later_flushed (h : s.Inv) (hc : s.stage c = .flushing) :
    Later s (s.flushed c ok).2 := by
  have hinv : (s.flushed c ok).2.Inv := h.flushed hc
  refine ⟨hinv, ?_, ?_⟩
  · intro hended
    exact absurd ((h.log.not_ended hc).symm.trans hended) (by decide)
  · intro d hd
    rw [flushed_eq] at hd
    cases hp : s.payload c with
    | some data =>
      rw [hp] at hd
      dsimp only at hd
      split at hd
      · exact flushing_handover hd
      · exact flushing_handover (flushing_abort hd)
    | none =>
      rw [hp] at hd
      dsimp only at hd
      split at hd
      · rw [(fire_eq _ _).1] at hd
        have hd := flushing_detach hd
        have hd : (s.handover c (s.drainedBy c ok)).stage d = .flushing := hd
        exact flushing_handover hd
      · exact flushing_handover (flushing_abort hd)

/-- The completion hook is run only by an `end` that drained, and ends the sink. -/
theorem flushed_done (c : Nat) (ok : Bool) (cb : Nat)
    (hdone : (s.flushed c ok).1 = some (.done cb)) :
    ok = true ∧ (s.flushed c ok).2.sink.endedFlag = true := by
  have habort : ∀ v : SinkState, v.abort.1 ≠ some (.done cb) := by
    intro v
    unfold abort
    split
    · exact nofun
    · intro h
      obtain ⟨cb', -, heq⟩ := Option.map_eq_some_iff.mp h
      cases heq
  rw [flushed_eq] at hdone ⊢
  cases hp : s.payload c with
  | some data =>
    rw [hp] at hdone
    dsimp only at hdone
    split at hdone
    · cases hdone
    · exact absurd hdone (habort _)
  | none =>
    rw [hp] at hdone
    dsimp only at hdone ⊢
    split at hdone
    · next hok =>
        refine ⟨hok, ?_⟩
        rw [if_pos hok]
        dsimp only
        rw [(fire_eq _ _).2]
        exact (detach_fields _).2.2.2
    · exact absurd hdone (habort _)

end SinkState

namespace Http

/-- Every sink has sent its terminator and drained it. -/
def AllEnded (w : Http) : Prop := ∀ s ∈ w.sinks, s.sink.endedFlag = true

/-- Nothing was sent since the flush that gave `r`. -/
def Good (conn : Socket) : FlushResult → Prop
  | .returns ok => ok = true → conn.sent <+: conn.kernel.accepted
  | .parks p => ∃ q, conn.promises[p]? = some q ∧ q.sentBefore = conn.sent

theorem Good.holds {conn' : Socket} (h : Good conn r) (hholds : conn.Holds conn') :
    Good conn' r := by
  cases r with
  | returns ok =>
    intro hok
    rw [hholds.sent]
    exact (h hok).trans hholds.accepted
  | parks p =>
    obtain ⟨q, hq, hbefore⟩ := h
    obtain ⟨q', hq', hsame⟩ := hholds.promises p q hq
    exact ⟨q', hq', by rw [hsame, hbefore, hholds.sent]⟩

/-- A flush that yields true had everything accepted. -/
theorem Good.accepted (h : Good conn r) (hinv : conn.Inv) (hyield : yielded conn r = some true) :
    conn.kernel.accepted = conn.sent := by
  have hall : conn.sent <+: conn.kernel.accepted := by
    cases r with
    | returns ok => exact h (Option.some.inj hyield)
    | parks p =>
      obtain ⟨q, hq, hbefore⟩ := h
      obtain ⟨q', hq', hhead⟩ := Option.bind_eq_some_iff.mp hyield
      obtain rfl := Option.some.inj (hq.symm.trans hq')
      rw [← hbefore]
      exact hinv.promised.barrier q (mem_of_getElem? hq) (mem_of_head? hhead)
  exact hinv.queue.accepted.eq_of_length_le hall.length_le

theorem good_flush (hinv : conn.Inv) : Good conn.flush.2 conn.flush.1 := by
  have hafter := hinv.flush
  unfold Socket.flush at hafter ⊢
  split
  · exact nofun
  · next hhealthy =>
      split
      · next hidle =>
          intro _
          obtain ⟨hfd, hh⟩ := not_or.mp hhealthy
          obtain ⟨hopen, hfatal, hlost⟩ := hinv.queue.healthy (by simpa using hh)
          have := hinv.queue.whole hopen hfatal hlost
          rw [hinv.queue.pending_of_idle hidle, append_nil] at this
          show conn.sent <+: conn.kernel.accepted
          rw [this]
      · exact ⟨_, getElem?_concat_length, rfl⟩

/-- The stream, the sinks and the counts. -/
structure Core (w : Http) : Prop where
  conn : w.self.conn.Inv
  plain : w.self.conn.stream.eofKeepsFd = false ∧ w.self.conn.lost = false
  sinks : ∀ s ∈ w.sinks, s.Inv
  opened : w.self.closed = false → 0 ≤ w.self.conn.stream.fd ∧ w.self.conn.kernel.closes = 0 ∧
    w.self.conn.stream.onChunk = some 0 ∧ w.self.conn.stream.onClosed = some 1
  shut : w.self.closed = true → w.self.conn.stream.fd < 0 ∧ w.self.conn.kernel.closes = 1
  old : ∀ (k : Nat) (s : SinkState), w.sinks[k]? = some s → k + 1 < w.sinks.length →
    s.sink.endedFlag = true
  quiet : w.self.closed = false → w.self.state ≠ 2 → AllEnded w
  busy : w.self.state = 1 ∨ w.self.state = 2 → w.self.req.complete = true
  reading : w.self.closed = false → w.self.state = 0 → w.self.req.complete = false
  waits : ∀ (k : Nat) (s : SinkState) (c : Nat), w.sinks[k]? = some s →
    s.stage c = .flushing → Good w.self.conn (w.waits k c)
  ended : w.self.state = 2 → w.self.endReached = true →
    AllEnded w ∧ w.self.conn.kernel.accepted = w.self.conn.sent
  runs : w.runs = List.range w.generation ++ if w.self.req.complete then [w.generation] else []
  heads : w.heads.Nodup ∧ (∀ g ∈ w.heads, g ≤ w.generation) ∧
    (w.generation ∈ w.heads → w.self.req.complete = true)

/-- A task that answers a request and has not opened a stream. -/
def Answering (w : Http) : Prop :=
  AllEnded w ∧ w.self.inWriter = false ∧ w.self.req.complete = true ∧
    ((w.self.closed = false ∧ w.self.state = 1) ∨ (w.self.closed = true ∧ w.self.state = 3))

/-- Where the responder stands. -/
def Task (w : Http) : Prop :=
  match w.responder with
  | none => w.self.inWriter = false ∧
      (w.self.closed = false → w.self.state = 0 ∨ w.self.state = 2)
  | some .handling => Answering w ∧ w.generation ∉ w.heads
  | some (.flushing r _) => Answering w ∧ Good w.self.conn r
  | some .writing => w.self.inWriter = true ∧ w.self.req.complete = true ∧
      (w.self.closed = false → w.self.state = 2)

structure Inv (w : Http) : Prop where
  core : Core w
  task : Task w

variable {w : Http}

/-! ## The parts of the events -/

variable {s : SinkState}

theorem Core.no_flushing (h : Core w) (hended : AllEnded w) (hs : w.sinks[k]? = some s) :
    s.stage c ≠ .flushing := by
  intro hc
  have hmem := mem_of_getElem? hs
  exact absurd ((h.sinks s hmem).log.not_ended hc) (by rw [hended s hmem]; decide)

/-- A sink that has not ended is the last. -/
theorem Core.last (h : Core w) (hs : w.sinks[k]? = some s) (hopen : s.sink.endedFlag = false) :
    k + 1 = w.sinks.length := by
  have hlt := (List.getElem?_eq_some_iff.mp hs).1
  by_contra hne
  have := h.old k s hs (by omega)
  rw [hopen] at this
  cases this

/-- A stream that closes nothing is as open, or as shut, as the one before it. -/
theorem Core.same (h : Core w) (hsame : w.self.conn.Same conn) :
    (conn.stream.eofKeepsFd = false ∧ conn.lost = false) ∧
      (w.self.closed = false → 0 ≤ conn.stream.fd ∧ conn.kernel.closes = 0 ∧
        conn.stream.onChunk = some 0 ∧ conn.stream.onClosed = some 1) ∧
      (w.self.closed = true → conn.stream.fd < 0 ∧ conn.kernel.closes = 1) := by
  rw [hsame.keep, hsame.lost, hsame.fd, hsame.closes, hsame.onChunk, hsame.onClosed]
  exact ⟨h.plain, h.opened, h.shut⟩

/-- The stream changes and nothing is sent. -/
theorem Core.stream (h : Core w) (hinv : conn.Inv) (hsame : w.self.conn.Same conn)
    (hholds : w.self.conn.Holds conn) : Core { w with self := { w.self with conn } } := by
  obtain ⟨hplain, hopened, hshut⟩ := h.same hsame
  refine ⟨hinv, hplain, h.sinks, hopened, hshut, h.old, h.quiet, h.busy, h.reading,
    fun k s c hs hc => (h.waits k s c hs hc).holds hholds, ?_, h.runs, h.heads⟩
  intro hstate hend
  obtain ⟨hall, haccepted⟩ := h.ended hstate hend
  refine ⟨hall, ?_⟩
  have hle := hholds.accepted
  rw [haccepted, ← hholds.sent] at hle
  exact hinv.queue.accepted.eq_of_length_le hle.length_le

theorem getElem?_set_cases {sinks : List SinkState} {j : Nat} {t : SinkState}
    (ht : (sinks.set k s')[j]? = some t) : (j = k ∧ t = s') ∨ (j ≠ k ∧ sinks[j]? = some t) := by
  rw [getElem?_set] at ht
  by_cases hj : k = j
  · rw [if_pos hj] at ht
    split at ht
    · exact Or.inl ⟨hj.symm, (Option.some.inj ht).symm⟩
    · cases ht
  · rw [if_neg hj] at ht
    exact Or.inr ⟨fun h => hj h.symm, ht⟩

theorem AllEnded.setSink (h : AllEnded w) (hs : w.sinks[k]? = some s) (hlater : s.Later s') :
    AllEnded (w.setSink k s') := by
  intro t ht
  rcases mem_or_eq_of_mem_set ht with ht | rfl
  · exact h t ht
  · exact hlater.ended (h s (mem_of_getElem? hs))

/-- A sink goes on and sends nothing. -/
theorem Core.setSink (h : Core w) (hs : w.sinks[k]? = some s) (hlater : s.Later s') :
    Core (w.setSink k s') := by
  refine ⟨h.conn, h.plain, ?_, h.opened, h.shut, ?_, ?_, h.busy, h.reading, ?_, ?_, h.runs,
    h.heads⟩
  · intro t ht
    rcases mem_or_eq_of_mem_set ht with ht | rfl
    · exact h.sinks t ht
    · exact hlater.inv
  · intro j t ht hj
    have hlen : j + 1 < w.sinks.length := by
      have : (w.sinks.set k s').length = w.sinks.length := length_set
      have hj : j + 1 < (w.sinks.set k s').length := hj
      omega
    rcases getElem?_set_cases ht with ⟨rfl, rfl⟩ | ⟨-, ht⟩
    · exact hlater.ended (h.old j s hs hlen)
    · exact h.old j t ht hlen
  · exact fun hopen hstate => (h.quiet hopen hstate).setSink hs hlater
  · intro j t c ht hc
    rcases getElem?_set_cases ht with ⟨rfl, rfl⟩ | ⟨-, ht⟩
    · exact h.waits j s c hs (hlater.flushing c hc)
    · exact h.waits j t c ht hc
  · intro hstate hend
    obtain ⟨hall, haccepted⟩ := h.ended hstate hend
    exact ⟨hall.setSink hs hlater, haccepted⟩

/-- `closeConn`. -/
theorem Core.closeConn (h : Core w) : Core w.closeConn := by
  unfold Http.closeConn
  by_cases hclosed : w.self.closed = true
  · rw [if_pos hclosed]
    exact h
  · rw [if_neg hclosed]
    have hopen : w.self.closed = false := by simpa using hclosed
    obtain ⟨hfd, hcloses, -, -⟩ := h.opened hopen
    obtain ⟨hfd', hcloses', hkeep, hlost⟩ := Socket.close_fields hfd
    have hholds := Socket.holds_close w.self.conn
    refine ⟨h.conn.close, ⟨hkeep.trans h.plain.1, hlost.trans h.plain.2⟩, h.sinks, nofun, ?_,
      h.old, nofun, ?_, nofun, ?_, ?_, h.runs, h.heads⟩
    · intro _
      refine ⟨?_, ?_⟩
      · show w.self.conn.close.stream.fd < 0
        rw [hfd']
        decide
      · show w.self.conn.close.kernel.closes = 1
        rw [hcloses', hcloses]
    · intro hstate
      rcases hstate with hstate | hstate
      · cases hstate
      · cases hstate
    · exact fun k s c hs hc => (h.waits k s c hs hc).holds hholds
    · intro hstate
      cases hstate

theorem closeConn_fields (w : Http) :
    w.closeConn.responder = w.responder ∧ w.closeConn.sinks = w.sinks ∧
      w.closeConn.generation = w.generation ∧ w.closeConn.runs = w.runs ∧
      w.closeConn.heads = w.heads ∧ w.closeConn.self.req = w.self.req ∧
      w.closeConn.self.inWriter = w.self.inWriter ∧ w.closeConn.self.closed = true ∧
      (w.self.closed = true ∨ w.closeConn.self.state = 3) := by
  unfold Http.closeConn
  by_cases hclosed : w.self.closed = true
  · rw [if_pos hclosed]
    exact ⟨rfl, rfl, rfl, rfl, rfl, rfl, rfl, hclosed, Or.inl hclosed⟩
  · rw [if_neg hclosed]
    exact ⟨rfl, rfl, rfl, rfl, rfl, rfl, rfl, rfl, Or.inr rfl⟩

/-- The fields of the task do not matter to the core. -/
theorem Core.task_change (h : Core w) (inWriter : Bool) (sink : List Nat)
    (responder : Option Responder) :
    Core { w with self := { w.self with inWriter, sink }, responder } :=
  ⟨h.conn, h.plain, h.sinks, h.opened, h.shut, h.old, h.quiet, h.busy, h.reading, h.waits,
    h.ended, h.runs, h.heads⟩

/-- The next request is read once the response to the last one is complete. -/
theorem Core.rearm (h : Core w) (hcomplete : w.self.req.complete = true) (hall : AllEnded w) :
    Core w.rearm := by
  refine ⟨h.conn, h.plain, h.sinks, h.opened, h.shut, h.old, fun _ _ => hall, ?_, fun _ _ => rfl,
    h.waits, nofun, ?_, ?_⟩
  · intro hstate
    rcases hstate with hstate | hstate
    · cases hstate
    · cases hstate
  · show w.runs = List.range (w.generation + 1) ++ []
    rw [h.runs, hcomplete, range_succ, append_nil]
    rfl
  · refine ⟨h.heads.1, fun g hg => Nat.le_succ_of_le (h.heads.2.1 g hg), ?_⟩
    intro hmem
    exact absurd (h.heads.2.1 _ hmem) (Nat.not_succ_le_self _)

/-- The sinks after the abort of one of them. -/
theorem Core.abortSink (h : Core w) (k : Nat) :
    Core { w with
      self := { w.self with sink := [] }
      sinks := w.sinks.modify k fun s => s.abort.2 } := by
  have hclear := h.task_change w.self.inWriter [] w.responder
  cases hs : w.sinks[k]? with
  | none =>
    have hmodify : (w.sinks.modify k fun s => s.abort.2) = w.sinks :=
      modify_eq_self (List.getElem?_eq_none_iff.mp hs)
    rw [hmodify]
    exact hclear
  | some s =>
    have hmodify : (w.sinks.modify k fun s => s.abort.2) = w.sinks.set k s.abort.2 := by
      rw [modify_eq_set_getElem?, hs]
      rfl
    rw [hmodify]
    exact hclear.setSink hs (h.sinks s (mem_of_getElem? hs)).later_abort

/-! ## The responder -/

/-- The connection was closed meanwhile, or its state is as it was. -/
def Shut (w w' : Http) : Prop :=
  (w'.self.closed = w.self.closed ∧ w'.self.state = w.self.state) ∨
    (w.self.closed = false ∧ w'.self.closed = true ∧ w'.self.state = 3)

/-- A task that goes on waiting while the sinks and the stream change and nothing is sent. -/
theorem Task.keep (h : Task w) (hresponder : w'.responder = w.responder)
    (hwriter : w'.self.inWriter = w.self.inWriter) (hreq : w'.self.req = w.self.req)
    (hgeneration : w'.generation = w.generation) (hheads : w'.heads = w.heads)
    (hall : AllEnded w → AllEnded w') (hholds : w.self.conn.Holds w'.self.conn)
    (hshut : Shut w w') : Task w' := by
  have hanswering : Answering w → Answering w' := by
    intro ha
    obtain ⟨hended, hnot, hcomplete, hst⟩ := ha
    refine ⟨hall hended, hwriter.trans hnot, hreq ▸ hcomplete, ?_⟩
    rcases hshut with ⟨hc, hs⟩ | ⟨-, hc, hs⟩
    · rw [hc, hs]
      exact hst
    · exact Or.inr ⟨hc, hs⟩
  have hopen : w'.self.closed = false → w.self.closed = false ∧ w'.self.state = w.self.state := by
    intro hc'
    rcases hshut with ⟨hc, hs⟩ | ⟨-, hc, -⟩
    · exact ⟨hc.symm.trans hc', hs⟩
    · exact absurd (hc.symm.trans hc') (by decide)
  unfold Task at h ⊢
  rw [hresponder]
  cases hr : w.responder with
  | none =>
    rw [hr] at h
    refine ⟨hwriter.trans h.1, ?_⟩
    intro hc'
    obtain ⟨hc, hs⟩ := hopen hc'
    rw [hs]
    exact h.2 hc
  | some r =>
    rw [hr] at h
    cases r with
    | handling =>
      refine ⟨hanswering h.1, ?_⟩
      rw [hgeneration, hheads]
      exact h.2
    | flushing r next => exact ⟨hanswering h.1, h.2.holds hholds⟩
    | writing =>
      refine ⟨hwriter.trans h.1, hreq ▸ h.2.1, ?_⟩
      intro hc'
      obtain ⟨hc, hs⟩ := hopen hc'
      rw [hs]
      exact h.2.2 hc

theorem shut_closeConn (w : Http) : Shut w w.closeConn := by
  unfold Http.closeConn
  by_cases hclosed : w.self.closed = true
  · rw [if_pos hclosed]
    exact Or.inl ⟨rfl, rfl⟩
  · rw [if_neg hclosed]
    exact Or.inr ⟨by simpa using hclosed, rfl, rfl⟩

theorem holds_closeConn (w : Http) : w.self.conn.Holds w.closeConn.self.conn := by
  unfold Http.closeConn
  split
  · exact Socket.Holds.refl _
  · exact Socket.holds_close _

theorem Inv.closeConn (h : Inv w) : Inv w.closeConn := by
  obtain ⟨hresp, hsinks, hgen, -, hheads, hreq, hwriter, -, -⟩ := closeConn_fields w
  refine ⟨h.core.closeConn, h.task.keep hresp hwriter hreq hgen hheads ?_ (holds_closeConn w)
    (shut_closeConn w)⟩
  intro hall s hs
  exact hall s (hsinks ▸ hs)

theorem Inv.abortStream (h : Inv w) : Inv w.abortStream := by
  unfold Http.abortStream
  split
  · next k _ _ =>
      refine Inv.closeConn ⟨h.core.abortSink k, h.task.keep rfl rfl rfl rfl rfl ?_
        (Socket.Holds.refl _) (Or.inl ⟨rfl, rfl⟩)⟩
      intro hall s hs
      obtain ⟨j, hj⟩ := mem_iff_getElem?.mp hs
      rw [getElem?_modify] at hj
      obtain ⟨t, ht, rfl⟩ := Option.map_eq_some_iff.mp hj
      have hended := hall t (mem_of_getElem? ht)
      by_cases hk : k = j
      · simp only [if_pos hk]
        exact (SinkState.ended_abort t).trans hended
      · simp only [if_neg hk]
        exact hended
  · exact h.closeConn

theorem Inv.peerClosed (h : Inv w) : Inv w.peerClosed := by
  unfold Http.peerClosed
  split
  · exact h
  · split
    · exact h.abortStream
    · exact h.closeConn

/-- An idle connection has no task that waits. -/
theorem Inv.reading (h : Inv w) (hopen : w.self.closed = false) (h1 : w.self.state ≠ 1)
    (h2 : w.self.state ≠ 2) : w.responder = none ∧ w.self.state = 0 ∧ w.self.inWriter = false := by
  have ht := h.task
  unfold Task at ht
  cases hr : w.responder with
  | none =>
    rw [hr] at ht
    exact ⟨rfl, (ht.2 hopen).resolve_right h2, ht.1⟩
  | some r =>
    rw [hr] at ht
    have hanswering : ¬ Answering w := by
      intro ha
      rcases ha.2.2.2 with ⟨-, hs⟩ | ⟨hc, -⟩
      · exact h1 hs
      · exact absurd (hopen.symm.trans hc) (by decide)
    cases r with
    | handling => exact absurd ht.1 hanswering
    | flushing r next => exact absurd ht.1 hanswering
    | writing => exact absurd (ht.2.2 hopen) h2

theorem Inv.feed (h : Inv w) (chunk : Str) : Inv (w.feed chunk) := by
  unfold Http.feed
  by_cases hclosed : w.self.closed = true
  · rw [if_pos hclosed]
    exact h
  · rw [if_neg hclosed]
    have hopen : w.self.closed = false := by simpa using hclosed
    by_cases h1 : w.self.state = 1
    · rw [if_pos h1]
      split
      · exact h.closeConn
      · exact h
    · rw [if_neg h1]
      by_cases h2 : w.self.state = 2
      · rw [if_pos h2]
        split
        · exact h.abortStream
        · exact h
      · rw [if_neg h2]
        obtain ⟨hresp, h0, hwriter⟩ := h.reading hopen h1 h2
        have hc := h.core
        have hfresh := hc.reading hopen h0
        have hall := hc.quiet hopen (by omega)
        have hruns : w.runs = List.range w.generation := by
          rw [hc.runs, hfresh]
          exact append_nil _
        have hnew : w.generation ∉ w.heads := by
          intro hmem
          have := hc.heads.2.2 hmem
          rw [hfresh] at this
          cases this
        have hcomplete := HttpRequest.feed_complete w.self.req chunk
        dsimp only
        split
        · next hfull =>
            rw [hfull] at hcomplete
            refine ⟨⟨hc.conn, hc.plain, hc.sinks, hc.opened, hc.shut, hc.old, fun _ _ => hall,
              fun _ => hcomplete, nofun, hc.waits, nofun, ?_, ⟨hc.heads.1, hc.heads.2.1,
                fun hmem => absurd hmem hnew⟩⟩, ⟨⟨hall, hwriter, hcomplete, Or.inl ⟨hopen, rfl⟩⟩,
                hnew⟩⟩
            show w.runs ++ [w.generation] = List.range w.generation ++
              if (w.self.req.feed chunk).2.complete then [w.generation] else []
            rw [hruns, hcomplete]
            rfl
        · next hpart =>
            rw [Bool.not_eq_true] at hpart
            rw [hpart] at hcomplete
            refine ⟨⟨hc.conn, hc.plain, hc.sinks, hc.opened, hc.shut, hc.old, hc.quiet, ?_,
              fun _ _ => hcomplete, hc.waits, hc.ended, ?_, ⟨hc.heads.1, hc.heads.2.1,
                fun hmem => absurd hmem hnew⟩⟩, ?_⟩
            · intro hstate
              rcases hstate with hstate | hstate
              · exact absurd hstate h1
              · exact absurd hstate h2
            · show w.runs = List.range w.generation ++
                if (w.self.req.feed chunk).2.complete then [w.generation] else []
              rw [hruns, hcomplete]
              exact (append_nil _).symm
            · show Task { w with self := { w.self with req := (w.self.req.feed chunk).2 } }
              unfold Task
              rw [show ({ w with self := { w.self with req := (w.self.req.feed chunk).2 } } :
                Http).responder = none from hresp]
              exact ⟨hwriter, fun _ => Or.inl h0⟩

/-- The end of the input closes the stream before the connection learns of it. -/
theorem peerClosed_close (w : Http) :
    { w with self := { w.self with conn := w.self.conn.close } }.peerClosed =
      if w.self.closed then { w with self := { w.self with conn := w.self.conn.close } }
      else w.peerClosed := by
  unfold Http.peerClosed Http.abortStream Http.closeConn
  by_cases hclosed : w.self.closed = true
  · simp only [if_pos hclosed]
  · simp only [if_neg hclosed, Socket.close_close]

theorem received_closed (h : Core w) (hclosed : w.self.closed = true) (chunk : Option Str) :
    w.received chunk = w := by
  unfold Http.received Socket.pump
  rw [if_pos (h.shut hclosed).1]
  rfl

theorem received_open (h : Core w) (hopen : w.self.closed = false) (chunk : Option Str) :
    w.received chunk =
      match chunk with
      | none => w.peerClosed
      | some data => w.feed data := by
  obtain ⟨hfd, -, hchunk, hclosed⟩ := h.opened hopen
  unfold Http.received Socket.pump
  rw [if_neg (Int.not_lt.mpr hfd)]
  cases chunk with
  | none =>
    dsimp only
    rw [hclosed]
    show ({ w with self := { w.self with conn := w.self.conn.retireRead } } : Http).peerClosed = _
    have hretire : w.self.conn.retireRead = w.self.conn.close := by
      unfold Socket.retireRead
      rw [h.plain.1]
      rfl
    rw [hretire, peerClosed_close, if_neg (by rw [hopen]; decide)]
  | some data =>
    dsimp only
    rw [hchunk]
    rfl

theorem Inv.received (h : Inv w) (chunk : Option Str) : Inv (w.received chunk) := by
  by_cases hclosed : w.self.closed = true
  · rw [received_closed h.core hclosed]
    exact h
  · rw [received_open h.core (by simpa using hclosed)]
    cases chunk with
    | none => exact h.peerClosed
    | some data => exact h.feed data

theorem Inv.drain (h : Inv w) (reply : Reply) :
    Inv { w with self := { w.self with conn := w.self.conn.drain reply } } :=
  ⟨h.core.stream h.core.conn.drain (Socket.same_drain _ _) (Socket.holds_drain _ _),
    h.task.keep rfl rfl rfl rfl rfl id (Socket.holds_drain _ _) (Or.inl ⟨rfl, rfl⟩)⟩

/-- The stream after a send and the flush that follows it. -/
theorem send_flush (h : Core w) (bytes : Str) (reply : Reply) :
    (w.self.conn.send bytes reply).flush.2.Inv ∧
      w.self.conn.Same (w.self.conn.send bytes reply).flush.2 ∧
      Good (w.self.conn.send bytes reply).flush.2 (w.self.conn.send bytes reply).flush.1 := by
  have hsend : (w.self.conn.send bytes reply).Inv :=
    h.conn.send (fun hlost => absurd (h.plain.2.symm.trans hlost) (by decide))
  exact ⟨hsend.flush, (Socket.same_send _ _ _).trans (Socket.same_flush _), good_flush hsend⟩

theorem Inv.sendHead (h : Core w) (ha : Answering w) (hnew : w.generation ∉ w.heads) (bytes : Str)
    (next : Next) (reply : Reply) : Inv (w.sendHead bytes next reply) := by
  obtain ⟨hinv, hsame, hgood⟩ := send_flush h bytes reply
  obtain ⟨hall, hwriter, hcomplete, hstate⟩ := ha
  have hnot2 : w.self.state ≠ 2 := by
    rcases hstate with ⟨-, hs⟩ | ⟨-, hs⟩
    · omega
    · omega
  obtain ⟨hplain, hopened, hshut⟩ := h.same hsame
  refine ⟨⟨hinv, hplain, h.sinks, hopened, hshut, h.old, h.quiet, h.busy, h.reading, ?_,
    fun hs => absurd hs hnot2, h.runs, ?_⟩, ⟨⟨hall, hwriter, hcomplete, hstate⟩, hgood⟩⟩
  · exact fun k s c hs hc => absurd hc (h.no_flushing hall hs)
  · refine ⟨?_, ?_, fun _ => hcomplete⟩
    · refine List.nodup_append.mpr ⟨h.heads.1, nodup_singleton _, ?_⟩
      intro g hg g' hg' hgg
      rw [List.mem_singleton.mp hg'] at hgg
      exact hnew (hgg ▸ hg)
    · intro g hg
      rcases List.mem_append.mp hg with hg | hg
      · exact h.heads.2.1 g hg
      · exact Nat.le_of_eq (List.mem_singleton.mp hg)

theorem Inv.finishBuffered (h : Core w) (ha : Answering w) (hnew : w.generation ∉ w.heads)
    {resp : HttpResponse} (hbuffered : resp.isStreaming = false) (wantKeep : Bool)
    (reply : Reply) : Inv (w.finishBuffered resp wantKeep reply) := by
  have hrender : ∃ bytes, { resp with keepAlive := wantKeep }.render = some bytes := by
    unfold HttpResponse.render
    rw [if_neg]
    · exact ⟨_, rfl⟩
    · intro hstream
      exact absurd (hbuffered.symm.trans hstream) (by decide)
  obtain ⟨bytes, hbytes⟩ := hrender
  unfold Http.finishBuffered
  rw [hbytes]
  exact Inv.sendHead h ha hnew bytes _ reply

theorem Inv.handled (h : Inv w) (hr : w.responder = some .handling)
    (outcome : Option HttpResponse) (reply : Reply) : Inv (w.handled outcome reply) := by
  have ht := h.task
  unfold Task at ht
  rw [hr] at ht
  obtain ⟨ha, hnew⟩ := ht
  unfold Http.handled
  dsimp only
  split
  · unfold Http.startStream
    split
    · exact Inv.finishBuffered h.core ha hnew rfl false reply
    · split
      · exact Inv.sendHead h.core ha hnew _ _ reply
      · exact Inv.sendHead h.core ha hnew _ _ reply
  · next hstream =>
      refine Inv.finishBuffered h.core ha hnew ?_ _ reply
      cases outcome with
      | none => rfl
      | some resp => simpa using hstream

/-- A connection whose last answer is out is closed. -/
theorem Inv.closeAnswered (h : Core w) (hwriter : w.self.inWriter = false) :
    Inv ({ w with responder := none } : Http).closeConn := by
  have hidle : Core { w with responder := none } := h.task_change w.self.inWriter w.self.sink none
  refine ⟨hidle.closeConn, ?_⟩
  obtain ⟨hresp, -, -, -, -, -, hw, hclosed, -⟩ := closeConn_fields { w with responder := none }
  unfold Task
  rw [hresp]
  refine ⟨hw.trans hwriter, ?_⟩
  intro hopen
  exact absurd (hopen.symm.trans hclosed) (by decide)

theorem Inv.finished (h : Core w) (ha : Answering w) (sent wantKeep : Bool) :
    Inv (w.finished sent wantKeep) := by
  obtain ⟨hall, hwriter, hcomplete, -⟩ := ha
  unfold Http.finished
  dsimp only
  split
  · exact Inv.closeAnswered h hwriter
  · split
    · have hidle : Core { w with responder := none } :=
        h.task_change w.self.inWriter w.self.sink none
      exact ⟨hidle.rearm hcomplete hall, hwriter, fun _ => Or.inl rfl⟩
    · exact Inv.closeAnswered h hwriter

theorem Inv.committed (h : Core w) (ha : Answering w) (sent wantKeep : Bool) :
    Inv (w.committed sent wantKeep) := by
  obtain ⟨hall, hwriter, hcomplete, -⟩ := ha
  unfold Http.committed
  split
  · exact Inv.closeAnswered h hwriter
  · -- a new sink behind the ones that have ended
    refine ⟨⟨h.conn, h.plain, ?_, h.opened, h.shut, ?_, fun _ hs => absurd rfl hs,
      fun _ => hcomplete, nofun, ?_, nofun, h.runs, h.heads⟩, ⟨rfl, hcomplete, fun _ => rfl⟩⟩
    · intro s hs
      rcases List.mem_append.mp hs with hs | hs
      · exact h.sinks s hs
      · rw [List.mem_singleton.mp hs]
        exact SinkState.inv_new.setDone
    · intro k s hs hk
      have hlt : k < w.sinks.length := by
        have hk : k + 1 < (w.sinks ++ [SinkState.setDone {}]).length := hk
        rw [length_append, length_singleton] at hk
        omega
      have hs : (w.sinks ++ [SinkState.setDone {}])[k]? = some s := hs
      rw [getElem?_append_left hlt] at hs
      exact hall s (mem_of_getElem? hs)
    · intro k s c hs hc
      have hs : (w.sinks ++ [SinkState.setDone {}])[k]? = some s := hs
      rw [getElem?_append] at hs
      split at hs
      · exact absurd hc (h.no_flushing hall hs)
      · obtain rfl := List.mem_singleton.mp (mem_of_getElem? hs)
        cases hc

theorem Inv.flushedHead (h : Inv w) {next : Next} (hr : w.responder = some (.flushing r next))
    (sent : Bool) :
    Inv (w.flushedHead sent next) := by
  have ht := h.task
  unfold Task at ht
  rw [hr] at ht
  cases next with
  | buffered wantKeep => exact Inv.finished h.core ht.1 sent wantKeep
  | headOnly wantKeep => exact Inv.finished h.core ht.1 sent wantKeep
  | commit wantKeep => exact Inv.committed h.core ht.1 sent wantKeep

/-! ## The sinks -/

theorem Inv.setSink (h : Inv w) (hs : w.sinks[k]? = some s) (hlater : s.Later s') :
    Inv (w.setSink k s') :=
  ⟨h.core.setSink hs hlater, h.task.keep rfl rfl rfl rfl rfl (fun hall => hall.setSink hs hlater)
    (Socket.Holds.refl _) (Or.inl ⟨rfl, rfl⟩)⟩

/-- A stream that has ended is completed when no task of the connection waits. -/
theorem Inv.completeStream (h : Inv w) (hr : w.responder = none)
    (hend : w.self.endReached = true) : Inv w.completeStream := by
  unfold Http.completeStream
  split
  · exact h
  · next hstate =>
      have hstate : w.self.state = 2 := by simpa using hstate
      have hclear : Inv { w with self := { w.self with sink := [] } } :=
        ⟨h.core.task_change w.self.inWriter [] w.responder,
          h.task.keep rfl rfl rfl rfl rfl id (Socket.Holds.refl _) (Or.inl ⟨rfl, rfl⟩)⟩
      dsimp only
      split
      · refine ⟨hclear.core.rearm (h.core.busy (Or.inr hstate)) (h.core.ended hstate hend).1, ?_⟩
        have ht := h.task
        unfold Task at ht ⊢
        rw [hr] at ht
        rw [show ({ w with self := { w.self with sink := [] } } : Http).rearm.responder = none
          from hr]
        exact ⟨ht.1, fun _ => Or.inl rfl⟩
      · exact hclear.closeConn

theorem Inv.written (h : Inv w) (hr : w.responder = some .writing) (threw : Bool) :
    Inv (w.written threw) := by
  have ht := h.task
  unfold Task at ht
  rw [hr] at ht
  have hidle : Inv { w with self := { w.self with inWriter := false }, responder := none } :=
    ⟨h.core.task_change false w.self.sink none, rfl, fun hopen => Or.inr (ht.2.2 hopen)⟩
  unfold Http.written
  dsimp only
  split
  · exact hidle.abortStream
  · split
    · next hend => exact hidle.completeStream rfl hend
    · exact hidle

/-- While a sink has not ended, the responder neither answers nor waits for a flush. -/
theorem Inv.not_answering (h : Inv w) (hs : w.sinks[k]? = some s)
    (hopen : s.sink.endedFlag = false) :
    w.responder = none ∨ w.responder = some .writing := by
  have hnot : ¬ Answering w := by
    intro ha
    exact absurd (ha.1 s (mem_of_getElem? hs)) (by rw [hopen]; decide)
  have ht := h.task
  unfold Task at ht
  cases hr : w.responder with
  | none => exact Or.inl rfl
  | some r =>
    rw [hr] at ht
    cases r with
    | handling => exact absurd ht.1 hnot
    | flushing r next => exact absurd ht.1 hnot
    | writing => exact Or.inr rfl

theorem Inv.sinkResume (h : Inv w) {b : Bool} (hs : w.sinks[k]? = some s)
    (hc : s.stage c = .parked (some b)) (reply : Reply) :
    Inv (w.sinkResume k s c reply) := by
  have hsinv := h.core.sinks s (mem_of_getElem? hs)
  unfold Http.sinkResume
  by_cases hclosed : s.sink.isClosed = true
  · obtain ⟨heq, hlater⟩ := hsinv.later_resume hc hclosed
    rw [heq]
    exact h.setSink hs hlater
  · have hopened : s.sink.isClosed = false := by simpa using hclosed
    have hended : s.sink.endedFlag = false := (Bool.or_eq_false_iff.mp hopened).1
    have hlast := h.core.last hs hended
    have hnotall : ¬ AllEnded w := by
      intro hall
      exact absurd (hall s (mem_of_getElem? hs)) (by rw [hended]; decide)
    have hinv' := hsinv.resume hc
    unfold SinkState.resume at hinv' ⊢
    rw [if_neg hclosed] at hinv' ⊢
    dsimp only at hinv' ⊢
    generalize hs' : SinkState.setStage { s with sent := s.sent ++ [(c, s.frame c)] } c .flushing =
      s' at hinv' ⊢
    have hstage : s'.stage c = .flushing := by
      rw [← hs']
      exact Function.update_self _ _ _
    obtain ⟨hconn, hsame, hgood⟩ := send_flush h.core (s.frame c) reply
    have hlen : (w.sinks.set k s').length = w.sinks.length := length_set
    have hget : ∀ (j : Nat) (t : SinkState), (w.sinks.set k s')[j]? = some t →
        (j = k ∧ t = s') ∨ (j + 1 < w.sinks.length ∧ w.sinks[j]? = some t) := by
      intro j t ht
      have hlt := (List.getElem?_eq_some_iff.mp ht).1
      exact (getElem?_set_cases ht).imp id fun ⟨hj, ht⟩ => ⟨by omega, ht⟩
    have hcore := h.core
    obtain ⟨hplain, hopened', hshut⟩ := hcore.same hsame
    refine ⟨⟨hconn, hplain, ?_, hopened', hshut, ?_,
      fun hop hst => absurd (hcore.quiet hop hst) hnotall, hcore.busy, hcore.reading, ?_,
      fun hst hend => absurd (hcore.ended hst hend).1 hnotall, hcore.runs, hcore.heads⟩, ?_⟩
    · intro t ht
      rcases mem_or_eq_of_mem_set ht with ht | rfl
      · exact hcore.sinks t ht
      · exact hinv'
    · intro j t ht hj
      have hj : j + 1 < (w.sinks.set k s').length := hj
      rcases hget j t ht with ⟨rfl, -⟩ | ⟨hj', ht⟩
      · omega
      · exact hcore.old j t ht hj'
    · intro j t d ht hd
      rcases hget j t ht with ⟨rfl, rfl⟩ | ⟨hj, ht⟩
      · obtain rfl := hinv'.log.flushing_unique hstage hd
        show Good _ (if j = j ∧ c = c then _ else w.waits j c)
        rw [if_pos ⟨rfl, rfl⟩]
        exact hgood
      · have := (hcore.sinks t (mem_of_getElem? ht)).log.not_ended hd
        rw [hcore.old j t ht hj] at this
        cases this
    · have ht := h.task
      unfold Task at ht ⊢
      rcases h.not_answering hs hended with hr | hr
      · rw [hr] at ht
        simp only [hr]
        exact ht
      · rw [hr] at ht
        simp only [hr]
        exact ht

theorem Inv.sinkFlushed (h : Inv w) (hs : w.sinks[k]? = some s) (hc : s.stage c = .flushing)
    (hyield : yielded w.self.conn (w.waits k c) = some ok) : Inv (w.sinkFlushed k s c ok) := by
  have hsinv := h.core.sinks s (mem_of_getElem? hs)
  have hlater : s.Later (s.flushed c ok).2 := hsinv.later_flushed hc
  have hset := h.setSink hs hlater
  have hended := hsinv.log.not_ended hc
  unfold Http.sinkFlushed
  split
  · next cb s' heq =>
      have hs' : (s.flushed c ok).2 = s' := by rw [heq]
      obtain ⟨rfl, hnow⟩ := SinkState.flushed_done c ok cb (by rw [heq])
      rw [hs'] at hset hnow
      -- the sink was the last that had not ended
      have hall : AllEnded (w.setSink k s') := by
        intro t ht
        obtain ⟨j, hj⟩ := mem_iff_getElem?.mp ht
        have hj : (w.sinks.set k s')[j]? = some t := hj
        have hlt := (List.getElem?_eq_some_iff.mp hj).1
        rw [length_set] at hlt
        have hlast := h.core.last hs hended
        rw [getElem?_set] at hj
        by_cases hjk : k = j
        · rw [if_pos hjk] at hj
          split at hj
          · rw [← Option.some.inj hj]
            exact hnow
          · cases hj
        · rw [if_neg hjk] at hj
          exact h.core.old j t hj (by omega)
      have haccepted := (h.core.waits k s c hs hc).accepted h.core.conn hyield
      have hmark : Inv { w.setSink k s' with
          self := { (w.setSink k s').self with endReached := true } } :=
        ⟨⟨hset.core.conn, hset.core.plain, hset.core.sinks, hset.core.opened, hset.core.shut,
          hset.core.old, hset.core.quiet, hset.core.busy, hset.core.reading, hset.core.waits,
          fun _ _ => ⟨hall, haccepted⟩, hset.core.runs, hset.core.heads⟩,
          hset.task.keep rfl rfl rfl rfl rfl id (Socket.Holds.refl _) (Or.inl ⟨rfl, rfl⟩)⟩
      unfold Http.streamEnded
      dsimp only
      split
      · exact hmark
      · next hwriter =>
          refine hmark.completeStream ?_ rfl
          rcases h.not_answering hs hended with hr | hr
          · exact hr
          · have ht := h.task
            unfold Task at ht
            rw [hr] at ht
            exact absurd ht.1 hwriter
  · next s' _ heq =>
      rw [heq] at hset
      exact hset

theorem SinkCall.later (h : s.Inv) (call : SinkCall) : s.Later (call.run s) := by
  cases call with
  | write data => exact h.later_write data
  | «end» => exact h.later_end
  | abort => exact h.later_abort
  | onClose => exact h.later_onClose

/-! ## One event -/

/-- What an event of a task does, and what it was enabled by. -/
theorem step_cases (hstep : w.step ev = some w') :
    (∃ chunk, w' = w.received chunk) ∨
    (∃ reply, w' = { w with self := { w.self with conn := w.self.conn.drain reply } }) ∨
    (∃ outcome reply, w.responder = some .handling ∧ w' = w.handled outcome reply) ∨
    (∃ r next sent, w.responder = some (.flushing r next) ∧ yielded w.self.conn r = some sent ∧
      w' = w.flushedHead sent next) ∨
    (∃ threw, w.responder = some .writing ∧ w' = w.written threw) ∨
    (∃ k s call, w.sinks[k]? = some s ∧ w' = w.setSink k (SinkCall.run s call)) ∨
    (∃ k s c b reply, w.sinks[k]? = some s ∧ s.stage c = .parked (some b) ∧
      w' = w.sinkResume k s c reply) ∨
    (∃ k s c ok, w.sinks[k]? = some s ∧ s.stage c = .flushing ∧
      yielded w.self.conn (w.waits k c) = some ok ∧ w' = w.sinkFlushed k s c ok) := by
  cases ev with
  | received chunk => exact Or.inl ⟨chunk, (Option.some.inj hstep).symm⟩
  | drain reply => exact Or.inr (Or.inl ⟨reply, (Option.some.inj hstep).symm⟩)
  | handled outcome reply =>
    unfold Http.step at hstep
    dsimp only at hstep
    split at hstep
    · next hr =>
        exact Or.inr (Or.inr (Or.inl ⟨outcome, reply, hr, (Option.some.inj hstep).symm⟩))
    · cases hstep
  | flushedHead =>
    unfold Http.step at hstep
    dsimp only at hstep
    split at hstep
    · next r next hr =>
        obtain ⟨sent, hsent, rfl⟩ := Option.map_eq_some_iff.mp hstep
        exact Or.inr (Or.inr (Or.inr (Or.inl ⟨r, next, sent, hr, hsent, rfl⟩)))
    · cases hstep
  | written threw =>
    unfold Http.step at hstep
    dsimp only at hstep
    split at hstep
    · next hr =>
        exact Or.inr (Or.inr (Or.inr (Or.inr (Or.inl
          ⟨threw, hr, (Option.some.inj hstep).symm⟩))))
    · cases hstep
  | sinkCall k call =>
    obtain ⟨s, hs, rfl⟩ := Option.map_eq_some_iff.mp hstep
    exact Or.inr (Or.inr (Or.inr (Or.inr (Or.inr (Or.inl ⟨k, s, call, hs, rfl⟩)))))
  | sinkResume k c reply =>
    unfold Http.step at hstep
    dsimp only at hstep
    split at hstep
    · cases hstep
    · next s hs =>
        split at hstep
        · next b hb =>
            exact Or.inr (Or.inr (Or.inr (Or.inr (Or.inr (Or.inr (Or.inl
              ⟨k, s, c, b, reply, hs, hb, (Option.some.inj hstep).symm⟩))))))
        · cases hstep
  | sinkFlushed k c =>
    unfold Http.step at hstep
    dsimp only at hstep
    split at hstep
    · cases hstep
    · next s hs =>
        split at hstep
        · next hc =>
            obtain ⟨ok, hok, rfl⟩ := Option.map_eq_some_iff.mp hstep
            exact Or.inr (Or.inr (Or.inr (Or.inr (Or.inr (Or.inr (Or.inr
              ⟨k, s, c, ok, hs, hc, hok, rfl⟩))))))
        · cases hstep

/-- Every event keeps the invariant. -/
theorem Inv.step (h : Inv w) (hstep : w.step ev = some w') : Inv w' := by
  rcases step_cases hstep with ⟨chunk, rfl⟩ | ⟨reply, rfl⟩ | ⟨outcome, reply, hr, rfl⟩ |
    ⟨r, next, sent, hr, -, rfl⟩ | ⟨threw, hr, rfl⟩ | ⟨k, s, call, hs, rfl⟩ |
    ⟨k, s, c, b, reply, hs, hc, rfl⟩ | ⟨k, s, c, ok, hs, hc, hyield, rfl⟩
  · exact h.received chunk
  · exact h.drain reply
  · exact h.handled hr outcome reply
  · exact h.flushedHead hr sent
  · exact h.written hr threw
  · exact h.setSink hs (SinkCall.later (h.core.sinks s (mem_of_getElem? hs)) call)
  · exact h.sinkResume hs hc reply
  · exact h.sinkFlushed hs hc hyield

theorem inv_new (fd : Nat) : Inv (new fd) := by
  refine ⟨⟨((Socket.inv_new fd).onData 0).callbacks _ _ _, ⟨rfl, rfl⟩, nofun, ?_, nofun, nofun,
    fun _ _ => nofun, ?_, fun _ _ => rfl, nofun, nofun, rfl, ⟨nodup_nil, nofun, nofun⟩⟩,
    ⟨rfl, fun _ => Or.inl rfl⟩⟩
  · exact fun _ => ⟨Int.natCast_nonneg fd, rfl, rfl, rfl⟩
  · intro hstate
    rcases hstate with hstate | hstate
    · cases hstate
    · cases hstate

/-! ## What an event can change -/

/-- Nobody answers a request and no stream is open. -/
def Idle (w : Http) : Prop :=
  w.responder = none ∧ ∀ s ∈ w.sinks, s.sink.endedFlag = true

/-- The rules of one event: the connection goes back to reading only when all that was sent
was accepted, the parser gets bytes only from an idle connection that is reading, and a
closed connection hands nothing to the kernel and runs no handler. -/
structure Permitted (w w' : Http) : Prop where
  reading : w.self.state ≠ 0 → w'.self.state = 0 →
    w'.self.conn.kernel.accepted = w'.self.conn.sent
  parser : w'.self.req = w.self.req ∨ w'.self.req = {} ∨
    (w.self.closed = false ∧ w.self.state = 0 ∧ Idle w)
  closed : w.self.closed = true → w'.self.closed = true ∧
    w'.self.conn.kernel = w.self.conn.kernel ∧ w'.runs = w.runs

/-- The rules of the parts of an event that give the parser nothing. -/
structure Settles (w w' : Http) : Prop where
  reading : w.self.state ≠ 0 → w'.self.state = 0 →
    w'.self.conn.kernel.accepted = w'.self.conn.sent
  parser : w'.self.req = w.self.req ∨ w'.self.req = {}
  closed : w.self.closed = true → w'.self.closed = true ∧
    w'.self.conn.kernel = w.self.conn.kernel ∧ w'.runs = w.runs

theorem Settles.permitted (h : Settles w w') : Permitted w w' :=
  ⟨h.reading, h.parser.imp_right Or.inl, h.closed⟩

/-- The state, the request and the counts stay, and so does the kernel once it is closed. -/
structure Silent (w w' : Http) : Prop where
  state : w'.self.state = w.self.state
  req : w'.self.req = w.self.req
  closed : w'.self.closed = w.self.closed
  runs : w'.runs = w.runs
  kernel : w.self.closed = true → w'.self.conn.kernel = w.self.conn.kernel

theorem Silent.settles (h : Silent w w') : Settles w w' :=
  ⟨fun h0 h0' => absurd (h.state.symm.trans h0') h0, Or.inl h.req,
    fun hclosed => ⟨h.closed.trans hclosed, h.kernel hclosed, h.runs⟩⟩

theorem Silent.then {w₁ w₂ : Http} (h : Silent w w₁) (h' : Settles w₁ w₂) : Settles w w₂ := by
  refine ⟨fun h0 => h'.reading (h.state.symm ▸ h0), ?_, ?_⟩
  · rw [← h.req]
    exact h'.parser
  · intro hclosed
    obtain ⟨hc, hk, hr⟩ := h'.closed (h.closed.trans hclosed)
    exact ⟨hc, hk.trans (h.kernel hclosed), hr.trans h.runs⟩

theorem settles_closeConn (w : Http) : Settles w w.closeConn := by
  unfold Http.closeConn
  by_cases hclosed : w.self.closed = true
  · rw [if_pos hclosed]
    exact ⟨fun h0 h0' => absurd h0' h0, Or.inl rfl, fun _ => ⟨hclosed, rfl, rfl⟩⟩
  · rw [if_neg hclosed]
    exact ⟨nofun, Or.inl rfl, fun h => absurd h hclosed⟩

theorem settles_abortStream (w : Http) : Settles w w.abortStream := by
  unfold Http.abortStream
  split
  · refine Silent.then ?_ (settles_closeConn _)
    exact ⟨rfl, rfl, rfl, rfl, fun _ => rfl⟩
  · exact settles_closeConn w

theorem settles_peerClosed (w : Http) : Settles w w.peerClosed := by
  unfold Http.peerClosed
  split
  · exact Silent.settles ⟨rfl, rfl, rfl, rfl, fun _ => rfl⟩
  · split
    · exact settles_abortStream w
    · exact settles_closeConn w

theorem settles_rearm (haccepted : w.self.conn.kernel.accepted = w.self.conn.sent) :
    Settles w w.rearm :=
  ⟨fun _ _ => haccepted, Or.inr rfl, fun hclosed => ⟨hclosed, rfl, rfl⟩⟩

theorem settles_completeStream
    (haccepted : w.self.state = 2 → w.self.conn.kernel.accepted = w.self.conn.sent) :
    Settles w w.completeStream := by
  unfold Http.completeStream
  split
  · exact Silent.settles ⟨rfl, rfl, rfl, rfl, fun _ => rfl⟩
  · next hstate =>
      have hstate : w.self.state = 2 := by simpa using hstate
      have hclear : Silent w { w with self := { w.self with sink := [] } } :=
        ⟨rfl, rfl, rfl, rfl, fun _ => rfl⟩
      dsimp only
      split
      · exact hclear.then (settles_rearm (haccepted hstate))
      · exact hclear.then (settles_closeConn _)

/-- A closed stream hands nothing to the kernel. -/
theorem kernel_send_flush (h : Core w) (hclosed : w.self.closed = true) (bytes : Str)
    (reply : Reply) :
    (w.self.conn.send bytes reply).flush.2.kernel = w.self.conn.kernel := by
  rw [Socket.flush_kernel, Socket.send_closed (h.shut hclosed).1]

theorem silent_sendHead (h : Core w) (bytes : Str) (next : Next) (reply : Reply) :
    Silent w (w.sendHead bytes next reply) :=
  ⟨rfl, rfl, rfl, rfl, fun hclosed => kernel_send_flush h hclosed bytes reply⟩

theorem silent_finishBuffered (h : Core w) (resp : HttpResponse) (wantKeep : Bool)
    (reply : Reply) : Silent w (w.finishBuffered resp wantKeep reply) := by
  unfold Http.finishBuffered
  split
  · exact silent_sendHead h _ _ reply
  · exact ⟨rfl, rfl, rfl, rfl, fun _ => rfl⟩

theorem silent_handled (h : Core w) (outcome : Option HttpResponse) (reply : Reply) :
    Silent w (w.handled outcome reply) := by
  unfold Http.handled Http.startStream
  dsimp only
  split
  · split
    · exact silent_finishBuffered h _ _ reply
    · split
      · exact silent_sendHead h _ _ reply
      · exact silent_sendHead h _ _ reply
  · exact silent_finishBuffered h _ _ reply

theorem settles_finished {sent : Bool} (wantKeep : Bool)
    (haccepted : sent = true → w.self.conn.kernel.accepted = w.self.conn.sent) :
    Settles w (w.finished sent wantKeep) := by
  have hidle : Silent w { w with responder := none } := ⟨rfl, rfl, rfl, rfl, fun _ => rfl⟩
  unfold Http.finished
  dsimp only
  split
  · exact hidle.then (settles_closeConn _)
  · next hsent =>
      split
      · exact hidle.then (settles_rearm (haccepted (by simpa using hsent)))
      · exact hidle.then (settles_closeConn _)

theorem settles_committed (w : Http) (sent wantKeep : Bool) :
    Settles w (w.committed sent wantKeep) := by
  unfold Http.committed
  split
  · refine Silent.then ?_ (settles_closeConn _)
    exact ⟨rfl, rfl, rfl, rfl, fun _ => rfl⟩
  · exact ⟨nofun, Or.inl rfl, fun hclosed => ⟨hclosed, rfl, rfl⟩⟩

theorem settles_flushedHead (h : Inv w) {next : Next} (hr : w.responder = some (.flushing r next))
    {sent : Bool} (hyield : yielded w.self.conn r = some sent) :
    Settles w (w.flushedHead sent next) := by
  have ht := h.task
  unfold Task at ht
  rw [hr] at ht
  have haccepted : sent = true → w.self.conn.kernel.accepted = w.self.conn.sent := by
    intro hsent
    rw [hsent] at hyield
    exact ht.2.accepted h.core.conn hyield
  cases next with
  | buffered wantKeep => exact settles_finished wantKeep haccepted
  | headOnly wantKeep => exact settles_finished wantKeep haccepted
  | commit wantKeep => exact settles_committed w sent wantKeep

theorem settles_written (h : Core w) (threw : Bool) : Settles w (w.written threw) := by
  have hidle : Silent w { w with self := { w.self with inWriter := false }, responder := none } :=
    ⟨rfl, rfl, rfl, rfl, fun _ => rfl⟩
  unfold Http.written
  dsimp only
  split
  · exact hidle.then (settles_abortStream _)
  · split
    · next hend =>
        exact hidle.then (settles_completeStream fun hstate => (h.ended hstate hend).2)
    · exact hidle.settles

theorem silent_sinkResume (h : Core w) (k : Nat) (s : SinkState) (c : Nat) (reply : Reply) :
    Silent w (w.sinkResume k s c reply) := by
  unfold Http.sinkResume
  split
  · exact ⟨rfl, rfl, rfl, rfl, fun _ => rfl⟩
  · exact ⟨rfl, rfl, rfl, rfl, fun hclosed => kernel_send_flush h hclosed _ reply⟩

theorem settles_sinkFlushed (h : Inv w) (hs : w.sinks[k]? = some s) (hc : s.stage c = .flushing)
    (hyield : yielded w.self.conn (w.waits k c) = some ok) :
    Settles w (w.sinkFlushed k s c ok) := by
  unfold Http.sinkFlushed
  split
  · next cb s' heq =>
      obtain ⟨rfl, -⟩ : ok = true ∧ _ :=
        SinkState.flushed_done c ok cb (by rw [heq])
      have haccepted := (h.core.waits k s c hs hc).accepted h.core.conn hyield
      have hset : Silent w { w.setSink k s' with
          self := { (w.setSink k s').self with endReached := true } } :=
        ⟨rfl, rfl, rfl, rfl, fun _ => rfl⟩
      unfold Http.streamEnded
      dsimp only
      split
      · exact hset.settles
      · exact hset.then (settles_completeStream fun _ => haccepted)
  · exact Silent.settles ⟨rfl, rfl, rfl, rfl, fun _ => rfl⟩

theorem permitted_feed (h : Inv w) (chunk : Str) : Permitted w (w.feed chunk) := by
  have hsame : Silent w w := ⟨rfl, rfl, rfl, rfl, fun _ => rfl⟩
  unfold Http.feed
  by_cases hclosed : w.self.closed = true
  · rw [if_pos hclosed]
    exact hsame.settles.permitted
  · rw [if_neg hclosed]
    have hopen : w.self.closed = false := by simpa using hclosed
    by_cases h1 : w.self.state = 1
    · rw [if_pos h1]
      split
      · exact (settles_closeConn w).permitted
      · exact hsame.settles.permitted
    · rw [if_neg h1]
      by_cases h2 : w.self.state = 2
      · rw [if_pos h2]
        split
        · exact (settles_abortStream w).permitted
        · exact hsame.settles.permitted
      · rw [if_neg h2]
        obtain ⟨hresp, h0, -⟩ := h.reading hopen h1 h2
        have hidle : Idle w := ⟨hresp, h.core.quiet hopen h2⟩
        dsimp only
        split
        · exact ⟨fun hne => absurd h0 hne, Or.inr (Or.inr ⟨hopen, h0, hidle⟩),
            fun hc => absurd hc hclosed⟩
        · exact ⟨fun hne => absurd h0 hne, Or.inr (Or.inr ⟨hopen, h0, hidle⟩),
            fun hc => absurd hc hclosed⟩

theorem permitted_received (h : Inv w) (chunk : Option Str) : Permitted w (w.received chunk) := by
  by_cases hclosed : w.self.closed = true
  · rw [received_closed h.core hclosed]
    exact Settles.permitted (Silent.settles ⟨rfl, rfl, rfl, rfl, fun _ => rfl⟩)
  · rw [received_open h.core (by simpa using hclosed)]
    cases chunk with
    | none => exact (settles_peerClosed w).permitted
    | some data => exact permitted_feed h data

theorem silent_drain (h : Core w) (reply : Reply) :
    Silent w { w with self := { w.self with conn := w.self.conn.drain reply } } := by
  refine ⟨rfl, rfl, rfl, rfl, ?_⟩
  intro hclosed
  show (w.self.conn.drain reply).kernel = w.self.conn.kernel
  unfold Socket.drain
  rw [if_pos (h.shut hclosed).1]

theorem Inv.permitted (h : Inv w) (hstep : w.step ev = some w') : Permitted w w' := by
  rcases step_cases hstep with ⟨chunk, rfl⟩ | ⟨reply, rfl⟩ | ⟨outcome, reply, hr, rfl⟩ |
    ⟨r, next, sent, hr, hyield, rfl⟩ | ⟨threw, hr, rfl⟩ | ⟨k, s, call, hs, rfl⟩ |
    ⟨k, s, c, b, reply, hs, hc, rfl⟩ | ⟨k, s, c, ok, hs, hc, hyield, rfl⟩
  · exact permitted_received h chunk
  · exact (silent_drain h.core reply).settles.permitted
  · exact (silent_handled h.core outcome reply).settles.permitted
  · exact (settles_flushedHead h hr hyield).permitted
  · exact (settles_written h.core threw).permitted
  · exact Settles.permitted (Silent.settles ⟨rfl, rfl, rfl, rfl, fun _ => rfl⟩)
  · exact (silent_sinkResume h.core k s c reply).settles.permitted
  · exact (settles_sinkFlushed h hs hc hyield).permitted

/-! ## Every run -/

/-- What holds between two events: at most one head for each request, one run of the handler
for each complete request, and a descriptor that was closed once, when the connection was. -/
structure Protocol (w : Http) : Prop where
  heads : w.heads.Nodup ∧ ∀ g ∈ w.heads, g ∈ w.runs
  handled : w.runs = List.range w.generation ++ if w.self.req.complete then [w.generation] else []
  descriptor : (w.self.closed = false → 0 ≤ w.self.conn.stream.fd ∧
      w.self.conn.kernel.closes = 0) ∧
    (w.self.closed = true → w.self.conn.stream.fd < 0 ∧ w.self.conn.kernel.closes = 1)

theorem Inv.protocol (h : Inv w) : Protocol w where
  heads := by
    refine ⟨h.core.heads.1, ?_⟩
    intro g hg
    rw [h.core.runs]
    by_cases hlt : g < w.generation
    · exact mem_append_left _ (List.mem_range.mpr hlt)
    · obtain rfl : g = w.generation := by
        have := h.core.heads.2.1 g hg
        omega
      rw [if_pos (h.core.heads.2.2 hg)]
      exact mem_append_right _ (mem_singleton_self _)
  handled := h.core.runs
  descriptor := by
    refine ⟨?_, h.core.shut⟩
    intro hopen
    obtain ⟨hfd, hcloses, -⟩ := h.core.opened hopen
    exact ⟨hfd, hcloses⟩

/-- **The protocol of a connection** holds in every state of every run, and every event from
there keeps its rules. -/
theorem connection_protocol (fd : Nat) {events : List Event} {w : Http}
    (hrun : Runs.run step (new fd) events = some w) :
    Protocol w ∧ ∀ ev w', w.step ev = some w' → Permitted w w' := by
  have hinv : Inv w := Runs.run_invariant (fun _ _ _ h hs => h.step hs) (inv_new fd) hrun
  exact ⟨hinv.protocol, fun _ _ hstep => hinv.permitted hstep⟩

/-- A request is answered, the next one is read, and the peer closes. -/
theorem connection_protocol_kept_alive :
    ∃ w, Runs.run step (new 3)
        [.received (some "GET / HTTP/1.1\r\n\r\n".toList),
          .handled (some (HttpResponse.new 200 "ok")) (.accepts 1000), .flushedHead,
          .received none] = some w ∧
      w.runs = [0] ∧ w.heads = [0] ∧ w.self.closed = true ∧ Protocol w := by
  have hrun : ∃ w, Runs.run step (new 3)
      [.received (some "GET / HTTP/1.1\r\n\r\n".toList),
        .handled (some (HttpResponse.new 200 "ok")) (.accepts 1000), .flushedHead,
        .received none] = some w ∧
      w.runs = [0] ∧ w.heads = [0] ∧ w.self.closed = true := ⟨_, rfl, rfl, rfl, rfl⟩
  obtain ⟨w, hw, hruns, hheads, hclosed⟩ := hrun
  exact ⟨w, hw, hruns, hheads, hclosed, (connection_protocol 3 hw).1⟩

end Http

end Leviathan.Net
