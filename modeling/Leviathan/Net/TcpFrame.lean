import Leviathan.Net.TcpStream

/-!
# What the calls on a stream leave alone

`Same` is about the descriptor and the callbacks, which only `close` and the end of the input
change.  `Holds` is about the history: what was sent changes with `send` only, and what had
been sent before a flush never changes.
-/

namespace Leviathan.Net

namespace Socket

variable {w : Socket}

/-- The descriptor, the callbacks and the number of closes. -/
structure Same (w w' : Socket) : Prop where
  fd : w'.stream.fd = w.stream.fd
  keep : w'.stream.eofKeepsFd = w.stream.eofKeepsFd
  onChunk : w'.stream.onChunk = w.stream.onChunk
  onClosed : w'.stream.onClosed = w.stream.onClosed
  closes : w'.kernel.closes = w.kernel.closes
  lost : w'.lost = w.lost

/-- What was sent stays, what was accepted grows, and no promise forgets what had been sent
before it. -/
structure Holds (w w' : Socket) : Prop where
  sent : w'.sent = w.sent
  accepted : w.kernel.accepted <+: w'.kernel.accepted
  promises : ∀ (p : Nat) (q : Promise), w.promises[p]? = some q →
    ∃ q', w'.promises[p]? = some q' ∧ q'.sentBefore = q.sentBefore

theorem same_settleFlush (w : Socket) (ok : Bool) : Same w (w.settleFlush ok) := by
  rw [settleFlush_eq]
  exact ⟨rfl, rfl, rfl, rfl, rfl, rfl⟩

theorem same_stopDrain (w : Socket) : Same w w.stopDrain := by
  have hkernel := stopDrain_kernel w
  refine ⟨?_, ?_, ?_, ?_, ?_, ?_⟩
  · rw [stopDrain_eq]
  · rw [stopDrain_eq]
  · rw [stopDrain_eq]
  · rw [stopDrain_eq]
  · rw [hkernel]
  · rw [stopDrain_eq]

theorem Same.trans {w₁ w₂ w₃ : Socket} (h : Same w₁ w₂) (h' : Same w₂ w₃) : Same w₁ w₃ :=
  ⟨h'.fd.trans h.fd, h'.keep.trans h.keep, h'.onChunk.trans h.onChunk,
    h'.onClosed.trans h.onClosed, h'.closes.trans h.closes, h'.lost.trans h.lost⟩

theorem same_sysSend (w : Socket) (s : Str) (reply : Reply) : Same w (w.sysSend s reply).2 := by
  rcases sysSend_cases w s reply with hs | ⟨-, hs⟩ | ⟨-, m, -, hs⟩
  · rw [hs]
    exact ⟨rfl, rfl, rfl, rfl, rfl, rfl⟩
  · rw [hs]
    exact ⟨rfl, rfl, rfl, rfl, rfl, rfl⟩
  · rw [hs]
    exact ⟨rfl, rfl, rfl, rfl, rfl, rfl⟩

theorem same_send (w : Socket) (s : Str) (reply : Reply) : Same w (w.send s reply) := by
  have hfirst : Same w { w with sent := w.sent ++ s } := ⟨rfl, rfl, rfl, rfl, rfl, rfl⟩
  refine hfirst.trans ?_
  unfold send sendNow
  split
  · exact ⟨rfl, rfl, rfl, rfl, rfl, rfl⟩
  · split
    · exact ⟨rfl, rfl, rfl, rfl, rfl, rfl⟩
    · have hsys := same_sysSend { w with sent := w.sent ++ s } s reply
      refine hsys.trans ?_
      dsimp only
      split
      · refine Same.trans ?_ (same_settleFlush _ _)
        exact ⟨rfl, rfl, rfl, rfl, rfl, rfl⟩
      · split
        · split
          · exact ⟨rfl, rfl, rfl, rfl, rfl, rfl⟩
          · exact ⟨rfl, rfl, rfl, rfl, rfl, rfl⟩
        · split
          · exact ⟨rfl, rfl, rfl, rfl, rfl, rfl⟩
          · exact ⟨rfl, rfl, rfl, rfl, rfl, rfl⟩

theorem same_drain (w : Socket) (reply : Reply) : Same w (w.drain reply) := by
  unfold drain
  split
  · exact ⟨rfl, rfl, rfl, rfl, rfl, rfl⟩
  · refine (same_sysSend w w.stream.pending reply).trans ?_
    dsimp only
    split
    · refine Same.trans ?_ (same_settleFlush _ _)
      refine Same.trans ?_ (same_stopDrain _)
      exact ⟨rfl, rfl, rfl, rfl, rfl, rfl⟩
    · split
      · exact ⟨rfl, rfl, rfl, rfl, rfl, rfl⟩
      · split
        · refine Same.trans ?_ (same_settleFlush _ _)
          refine Same.trans ?_ (same_stopDrain _)
          exact ⟨rfl, rfl, rfl, rfl, rfl, rfl⟩
        · exact ⟨rfl, rfl, rfl, rfl, rfl, rfl⟩

theorem same_flush (w : Socket) : Same w w.flush.2 := by
  unfold flush
  split
  · exact ⟨rfl, rfl, rfl, rfl, rfl, rfl⟩
  · split
    · exact ⟨rfl, rfl, rfl, rfl, rfl, rfl⟩
    · exact ⟨rfl, rfl, rfl, rfl, rfl, rfl⟩

theorem Holds.refl (w : Socket) : Holds w w :=
  ⟨rfl, List.prefix_refl _, fun _ q hq => ⟨q, hq, rfl⟩⟩

theorem Holds.trans {w₁ w₂ w₃ : Socket} (h : Holds w₁ w₂) (h' : Holds w₂ w₃) : Holds w₁ w₃ := by
  refine ⟨h'.sent.trans h.sent, h.accepted.trans h'.accepted, ?_⟩
  intro p q hq
  obtain ⟨q', hq', hb⟩ := h.promises p q hq
  obtain ⟨q'', hq'', hb'⟩ := h'.promises p q' hq'
  exact ⟨q'', hq'', hb'.trans hb⟩

/-- A change of the stream and of the watches only. -/
theorem Holds.of_eq {w' : Socket} (hsent : w'.sent = w.sent)
    (haccepted : w'.kernel.accepted = w.kernel.accepted) (hpromises : w'.promises = w.promises) :
    Holds w w' :=
  ⟨hsent, by rw [haccepted], fun p q hq => ⟨q, by rw [hpromises]; exact hq, rfl⟩⟩

theorem holds_settleFlush (w : Socket) (ok : Bool) : Holds w (w.settleFlush ok) := by
  rw [settleFlush_eq]
  refine ⟨rfl, List.prefix_refl _, ?_⟩
  dsimp only
  generalize w.stream.flushWaiters = ws
  generalize w.promises = ps
  -- resolving touches only the results
  intro p
  induction ws generalizing ps with
  | nil => exact fun q hq => ⟨q, hq, rfl⟩
  | cons v ws ih =>
    intro q hq
    rw [resolveAll_cons]
    by_cases hp : v = p
    · obtain ⟨q', hq', hb⟩ := ih (ps.modify v fun q => { q with results := q.results ++ [ok] })
        { q with results := q.results ++ [ok] } (by rw [List.getElem?_modify, hq]; simp [hp])
      exact ⟨q', hq', hb⟩
    · exact ih _ q (by rw [List.getElem?_modify, hq]; simp [hp])

theorem holds_stopDrain (w : Socket) : Holds w w.stopDrain := by
  refine Holds.of_eq ?_ ?_ ?_
  · rw [stopDrain_eq]
  · rw [stopDrain_kernel]
  · rw [stopDrain_eq]

theorem holds_stopWatch (w : Socket) : Holds w w.stopWatch := by
  refine Holds.of_eq ?_ ?_ ?_
  · rw [stopWatch_eq]
  · rw [stopWatch_kernel]
  · rw [stopWatch_eq]

theorem holds_sysSend (w : Socket) (s : Str) (reply : Reply) : Holds w (w.sysSend s reply).2 := by
  rcases sysSend_cases w s reply with hs | ⟨-, hs⟩ | ⟨-, m, -, hs⟩
  · rw [hs]
    exact Holds.of_eq rfl rfl rfl
  · rw [hs]
    exact Holds.refl w
  · rw [hs]
    exact ⟨rfl, List.prefix_append _ _, fun p q hq => ⟨q, hq, rfl⟩⟩

theorem holds_drain (w : Socket) (reply : Reply) : Holds w (w.drain reply) := by
  unfold drain
  split
  · exact Holds.refl w
  · refine (holds_sysSend w w.stream.pending reply).trans ?_
    dsimp only
    split
    · refine Holds.trans ?_ (holds_settleFlush _ _)
      refine Holds.trans ?_ (holds_stopDrain _)
      exact Holds.of_eq rfl rfl rfl
    · split
      · exact Holds.refl _
      · split
        · refine Holds.trans ?_ (holds_settleFlush _ _)
          refine Holds.trans ?_ (holds_stopDrain _)
          exact Holds.of_eq rfl rfl rfl
        · exact Holds.of_eq rfl rfl rfl

theorem holds_close (w : Socket) : Holds w w.close := by
  by_cases hfd : w.stream.fd < 0
  · unfold close
    rw [if_pos hfd]
    exact Holds.refl w
  · rw [close_eq hfd]
    refine Holds.trans ?_ (holds_stopWatch _)
    refine Holds.trans ?_ (holds_settleFlush _ _)
    refine Holds.trans ?_ (holds_stopDrain _)
    exact Holds.of_eq rfl rfl rfl

/-- After `close` the descriptor is gone; it was closed if it was open. -/
theorem close_fields (hfd : 0 ≤ w.stream.fd) :
    w.close.stream.fd = -1 ∧ w.close.kernel.closes = w.kernel.closes + 1 ∧
      w.close.stream.eofKeepsFd = w.stream.eofKeepsFd ∧ w.close.lost = w.lost := by
  rw [close_eq (Int.not_lt.mpr hfd)]
  have hdrain := same_stopDrain (w.release.unhealthy.setPending [])
  have hsettle := same_settleFlush (w.release.unhealthy.setPending []).stopDrain false
  have hboth := hdrain.trans hsettle
  refine ⟨?_, ?_, ?_, ?_⟩
  · rw [stopWatch_eq]
    exact hboth.fd
  · rw [stopWatch_kernel]
    exact hboth.closes
  · rw [stopWatch_eq]
    exact hboth.keep
  · rw [stopWatch_eq]
    exact hboth.lost

/-- A closed stream hands nothing to the kernel. -/
theorem send_closed (hfd : w.stream.fd < 0) (s : Str) (reply : Reply) :
    (w.send s reply).kernel = w.kernel := by
  unfold send sendNow
  rw [if_pos hfd]

theorem flush_kernel (w : Socket) : w.flush.2.kernel = w.kernel := by
  unfold flush
  split
  · rfl
  · split
    · rfl
    · rfl

/-- The second `close` finds the descriptor gone. -/
theorem close_close (w : Socket) : w.close.close = w.close := by
  have hclosed : w.close.stream.fd < 0 := by
    by_cases hfd : w.stream.fd < 0
    · unfold close
      rw [if_pos hfd]
      exact hfd
    · rw [(close_fields (Int.not_lt.mp hfd)).1]
      decide
  rw [close, if_pos hclosed]

end Socket

end Leviathan.Net
