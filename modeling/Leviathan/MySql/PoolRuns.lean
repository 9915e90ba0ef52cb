import Leviathan.MySql.PoolAccounts

/-!
# Runs of the connection pool

The promises of `drain`, and all invariants of the pool over its runs.

They do not survive every event.  A task that closes its wrapper again after somebody else has
got it releases the connection of the other; a connect that fails leaves its place behind where
it was a replacement, and leaves the promise of a `drain` behind where it was the last; and a
second `drain` overwrites the promise of the first.  `pool_sound` says that nothing else goes
wrong.
-/

namespace Leviathan.MySql

open Runs

namespace Pooled

/-! ### The promises of drain -/

/-- Before the first `drain` no promise was made; after it there are no idle connections and no
waiters, and every promise is resolved, once, when no place is left. -/
def Drained (w : Pooled) : Prop :=
  (w.pool.draining = false ∧ w.pool.drainPending = false ∧ w.drains = []) ∨
  (w.pool.draining = true ∧ w.pool.idle = [] ∧ w.pool.waiters = [] ∧
    ((w.pool.drainPending = true ∧ 0 < w.pool.total ∧ w.pool.drainPromise = 0 ∧ w.drains = [0]) ∨
     (w.pool.drainPending = false ∧ w.pool.total = 0 ∧ w.drains ≠ [] ∧ ∀ d ∈ w.drains, d = 1)))

/-- The fields of `drain` stay as they are. -/
structure SameDrain (w w' : Pooled) : Prop where
  draining : w'.pool.draining = w.pool.draining
  pending : w'.pool.drainPending = w.pool.drainPending
  promise : w'.pool.drainPromise = w.pool.drainPromise
  drains : w'.drains = w.drains

theorem Drained.keep {w w' : Pooled} (h : Drained w) (hs : SameDrain w w')
    (hrest : w.pool.draining = true → w.pool.idle = [] → w.pool.waiters = [] →
      w'.pool.idle = [] ∧ w'.pool.waiters = [] ∧
        (w'.pool.total = w.pool.total ∨ 0 < w.pool.total ∧ 0 < w'.pool.total)) : Drained w' := by
  rcases h with ⟨hdraining, hpending, hdrains⟩ | ⟨hdraining, hidle, hwaiters, hrun⟩
  · left
    exact ⟨hs.draining.trans hdraining, hs.pending.trans hpending, hs.drains.trans hdrains⟩
  · right
    obtain ⟨hidle', hwaiters', htotal⟩ := hrest hdraining hidle hwaiters
    refine ⟨hs.draining.trans hdraining, hidle', hwaiters', ?_⟩
    rw [hs.pending, hs.promise, hs.drains]
    rcases hrun with ⟨hpending, hpos, hpromise, hdrains⟩ | ⟨hpending, hzero, hdrains, hall⟩
    · left
      exact ⟨hpending, by omega, hpromise, hdrains⟩
    · right
      exact ⟨hpending, by omega, hdrains, hall⟩

theorem connectOrWait_same (w : Pooled) (t : Nat) : SameDrain w (w.connectOrWait t) := by
  rw [connectOrWait]
  split
  · exact ⟨rfl, rfl, rfl, rfl⟩
  · split
    · exact ⟨rfl, rfl, rfl, rfl⟩
    · exact ⟨rfl, rfl, rfl, rfl⟩

theorem acquireLoop_same (t : Nat) (now : Int) (w : Pooled) :
    SameDrain w (acquireLoop t now w.pool.idle w) := by
  rcases acquireLoop_cases t now w.pool.idle w rfl with hr | ⟨gone, c, rest, hl, hr | hr⟩
  · rw [hr]
    have hs := connectOrWait_same (w.dropped w.pool.idle.length []) t
    exact ⟨hs.draining, hs.pending, hs.promise, hs.drains⟩
  · rw [hr]
    exact ⟨rfl, rfl, rfl, rfl⟩
  · rw [hr]
    exact ⟨rfl, rfl, rfl, rfl⟩

theorem Drained.acquire {w : Pooled} (h : Drained w) (now : Int) : Drained (w.acquire now) := by
  rw [Pooled.acquire]
  by_cases hdraining : w.pool.draining = true
  · rw [if_pos hdraining]
    exact h.keep ⟨rfl, rfl, rfl, rfl⟩ fun _ hidle hwaiters => ⟨hidle, hwaiters, Or.inl rfl⟩
  · rw [if_neg hdraining]
    have hs := acquireLoop_same w.tasks.length now { w with tasks := w.tasks ++ [Stage.running] }
    exact h.keep ⟨hs.draining, hs.pending, hs.promise, hs.drains⟩ fun hd => absurd hd hdraining

/-- After a failed ping a draining pool opens a connection in the place of the closed one. -/
theorem Drained.pinged {w : Pooled} (h : Drained w) (hcap : w.pool.total ≤ w.pool.maxConnections)
    (t c : Nat) (ok : Bool) (now : Int) : Drained (w.pinged t c ok now) := by
  cases ok with
  | true => exact h.keep ⟨rfl, rfl, rfl, rfl⟩ fun _ hidle hwaiters => ⟨hidle, hwaiters, Or.inl rfl⟩
  | false =>
    have hs := acquireLoop_same t now (((w.addTotal (-1)).closeInner c).setTask t .running)
    refine h.keep ⟨hs.draining, hs.pending, hs.promise, hs.drains⟩ ?_
    intro _ hidle hwaiters
    have hroom : w.pool.total + -1 < w.pool.maxConnections := by omega
    have hloop : w.pinged t c false now
        = ((((w.addTotal (-1)).closeInner c).setTask t .running).addTotal 1).setTask t
          .connecting := by
      show Pooled.acquireLoop t now w.pool.idle _ = _
      rw [hidle, Pooled.acquireLoop, connectOrWait]
      exact if_pos hroom
    rw [hloop]
    refine ⟨hidle, hwaiters, Or.inl ?_⟩
    show w.pool.total + -1 + 1 = w.pool.total
    omega

/-- A connect that fails takes a place away; it must not be the last of a draining pool. -/
theorem Drained.connected {w : Pooled} (h : Drained w) (t : Nat) (ok : Bool)
    (hlast : ok = false → w.pool.draining = true → 1 < w.pool.total) :
    Drained (w.connected t ok) := by
  cases ok with
  | true => exact h.keep ⟨rfl, rfl, rfl, rfl⟩ fun _ hidle hwaiters => ⟨hidle, hwaiters, Or.inl rfl⟩
  | false =>
    refine h.keep ⟨rfl, rfl, rfl, rfl⟩ ?_
    intro hdraining hidle hwaiters
    have hmore := hlast rfl hdraining
    refine ⟨hidle, hwaiters, Or.inr ⟨by omega, ?_⟩⟩
    show 0 < w.pool.total + -1
    omega

theorem Drained.timedOut {w : Pooled} (h : Drained w) (t : Nat) : Drained (w.timedOut t) := by
  rw [Pooled.timedOut]
  split
  · refine h.keep ⟨rfl, rfl, rfl, rfl⟩ ?_
    intro _ hidle hwaiters
    refine ⟨hidle, ?_, Or.inl rfl⟩
    show w.pool.waiters.filter (· ≠ t) = []
    rw [hwaiters]
    rfl
  · exact h

theorem hand_same (c : Nat) (now : Int) (l : List Nat) :
    ∀ w : Pooled, SameDrain w (hand c now l w) := by
  induction l with
  | nil => exact fun w => ⟨rfl, rfl, rfl, rfl⟩
  | cons t rest ih =>
    intro w
    rw [hand]
    split
    · exact ⟨rfl, rfl, rfl, rfl⟩
    · have hs := ih (w.setWaiters rest)
      exact ⟨hs.draining, hs.pending, hs.promise, hs.drains⟩

theorem serveWaitersOrReplace_same (w : Pooled) : SameDrain w w.serveWaitersOrReplace := by
  rw [serveWaitersOrReplace]
  split
  · exact ⟨rfl, rfl, rfl, rfl⟩
  · split
    · exact ⟨rfl, rfl, rfl, rfl⟩
    · exact ⟨rfl, rfl, rfl, rfl⟩

/-- A connection is released: the last one of a draining pool resolves its promise. -/
theorem Drained.releasePooled {w : Pooled} (h : Drained w) (htotal : 0 < w.pool.total) (c : Nat)
    (now : Int) : Drained (w.releasePooled c now) := by
  rw [Pooled.releasePooled]
  rcases h with ⟨hdraining, hpending, hdrains⟩ | ⟨hdraining, hidle, hwaiters, hrun⟩
  · have hcond : ¬ w.pool.draining = true := by
      rw [hdraining]
      exact Bool.false_ne_true
    have hkeep : ∀ w', SameDrain w w' → Drained w' := by
      intro w' hs
      exact Drained.keep (Or.inl ⟨hdraining, hpending, hdrains⟩) hs fun hd => absurd hd hcond
    rw [if_neg hcond]
    split
    · have hs := serveWaitersOrReplace_same (w.addTotal (-1))
      exact hkeep _ ⟨hs.draining, hs.pending, hs.promise, hs.drains⟩
    · split
      · have hs := hand_same c now w.pool.waiters { w with rollbacks := w.rollbacks ++ [c] }
        exact hkeep _ ⟨hs.draining, hs.pending, hs.promise, hs.drains⟩
      · exact hkeep _ (hand_same c now w.pool.waiters w)
  · rw [if_pos hdraining, settleDrain]
    obtain ⟨hpending, -, hpromise, hdrains⟩ : w.pool.drainPending = true ∧ 0 < w.pool.total ∧
        w.pool.drainPromise = 0 ∧ w.drains = [0] := by
      rcases hrun with hyes | hno
      · exact hyes
      · omega
    have hcond : (((w.closeInner c).addTotal (-1)).pool.draining
        && ((w.closeInner c).addTotal (-1)).pool.drainPending
        && decide (((w.closeInner c).addTotal (-1)).pool.total ≤ 0))
        = decide (w.pool.total + -1 ≤ 0) := by
      show (w.pool.draining && w.pool.drainPending && decide (w.pool.total + -1 ≤ 0)) = _
      rw [hdraining, hpending]
      rfl
    rw [hcond]
    right
    by_cases hlast : w.pool.total + -1 ≤ 0
    · rw [if_pos (decide_eq_true hlast)]
      refine ⟨hdraining, hidle, hwaiters, Or.inr ⟨rfl, ?_, ?_, ?_⟩⟩
      · show w.pool.total + -1 = 0
        omega
      · show w.drains.modify w.pool.drainPromise (· + 1) ≠ []
        rw [hdrains, hpromise]
        decide
      · show ∀ d ∈ w.drains.modify w.pool.drainPromise (· + 1), d = 1
        rw [hdrains, hpromise]
        decide
    · rw [if_neg (by simpa using hlast)]
      refine ⟨hdraining, hidle, hwaiters, Or.inl ⟨hpending, ?_, hpromise, hdrains⟩⟩
      show 0 < w.pool.total + -1
      omega

theorem rejectAll_keeps (l : List Nat) :
    ∀ w : Pooled, (rejectAll l w).pool = w.pool ∧ (rejectAll l w).drains = w.drains := by
  induction l with
  | nil => exact fun w => ⟨rfl, rfl⟩
  | cons t rest ih =>
    intro w
    rw [rejectAll]
    split
    · exact ih _
    · exact ih w

/-- `drain`, when no earlier one is still pending. -/
theorem Drained.drain {w : Pooled} (h : Drained w) (hpending : w.pool.drainPending = false)
    (htotal : (w.pool.idle.length : Int) ≤ w.pool.total) : Drained w.drain := by
  obtain ⟨hpool, hdrains⟩ := rejectAll_keeps w.pool.waiters
    { w with pool := { w.pool with draining := true } }
  have hall : ∀ d ∈ w.drains, d = 1 := by
    rcases h with ⟨-, -, hnone⟩ | ⟨-, -, -, ⟨hpend, -⟩ | ⟨-, -, -, hall⟩⟩
    · rw [hnone]
      exact fun d hd => nomatch hd
    · rw [hpending] at hpend
      cases hpend
    · exact hall
  have hfirst : 0 < w.pool.total - w.pool.idle.length → w.drains = [] := by
    intro hpos
    rcases h with ⟨-, -, hnone⟩ | ⟨-, -, -, ⟨hpend, -⟩ | ⟨-, hzero, -, -⟩⟩
    · exact hnone
    · rw [hpending] at hpend
      cases hpend
    · omega
  rw [Pooled.drain, promiseDrain]
  have htotal' : (((rejectAll w.pool.waiters
      { w with pool := { w.pool with draining := true } }).setWaiters []).closeIdle).pool.total
      = w.pool.total - w.pool.idle.length := by
    show (rejectAll _ _).pool.total - ((rejectAll _ _).pool.idle.length : Int) = _
    rw [hpool]
  have hdraining : (rejectAll w.pool.waiters
      { w with pool := { w.pool with draining := true } }).pool.draining = true := by
    rw [hpool]
  right
  by_cases hnone : w.pool.total - w.pool.idle.length ≤ 0
  · rw [if_pos (by rw [htotal']; exact hnone)]
    refine ⟨hdraining, rfl, rfl, Or.inr ⟨?_, ?_, ?_, ?_⟩⟩
    · show (rejectAll _ _).pool.drainPending = false
      rw [hpool]
      exact hpending
    · exact htotal'.trans (by omega)
    · show (rejectAll _ _).drains ++ [1] ≠ []
      exact List.append_ne_nil_of_right_ne_nil _ (List.cons_ne_nil 1 [])
    · show ∀ d ∈ (rejectAll _ _).drains ++ [1], d = 1
      rw [hdrains]
      intro d hd
      rcases List.mem_append.mp hd with hold | hone
      · exact hall d hold
      · exact List.mem_singleton.mp hone
  · rw [if_neg (by rw [htotal']; exact hnone)]
    have hempty := hfirst (by omega)
    refine ⟨hdraining, rfl, rfl, Or.inl ⟨rfl, ?_, ?_, ?_⟩⟩
    · exact (show 0 < w.pool.total - w.pool.idle.length by omega).trans_eq htotal'.symm
    · show (rejectAll _ _).drains.length = 0
      rw [hdrains]
      show w.drains.length = 0
      rw [hempty]
      rfl
    · show (rejectAll _ _).drains ++ [0] = [0]
      rw [hdrains]
      show w.drains ++ [0] = [0]
      rw [hempty]
      rfl

/-! ### Runs -/

/-- What is promised of a pool at every moment. -/
structure Sound (w : Pooled) : Prop where
  /-- a connection is idle, or with one task, or neither -/
  exclusive : ∀ c, w.places.count (some c) ≤ 1
  total : w.pool.total = w.places.card
  cap : w.pool.total ≤ w.pool.maxConnections
  /-- a connection that was handed out can be closed by its holder -/
  tenants : Tenants w
  /-- a waiter is in the queue until it is settled, and it is settled once -/
  waits : ∀ t, t ∈ w.pool.waiters ↔ ∃ a : Stage, w.tasks[t]? = some a ∧ a.queued = true
  settled : ∀ (t : Nat) (a : Stage), w.tasks[t]? = some a → a.SettledOnce
  /-- the waiters are served in the order of their arrival, but for those that were too late -/
  order : w.served ++ w.pool.waiters = w.arrivals.filter (· ∉ w.expired)
  once : w.arrivals.Nodup
  /-- the promise of a `drain` is resolved, once, when no place is left -/
  drains : ∀ n ∈ w.drains, n = if w.pool.total = 0 then 1 else 0

/-- The invariants together. -/
structure Inv (w : Pooled) : Prop where
  core : Core w 0
  drained : Drained w

theorem Inv.sound {w : Pooled} (h : Inv w) : w.Sound := by
  have haccounts := h.core.accounts
  refine ⟨?_, ?_, haccounts.cap, h.core.tenants, h.core.queue.waits, h.core.queue.settled,
    h.core.queue.order, h.core.queue.once, ?_⟩
  · intro c
    rw [← zero_add w.places]
    exact haccounts.once c
  · rw [haccounts.total, zero_add]
  · intro n hn
    rcases h.drained with ⟨-, -, hnone⟩ | ⟨-, -, -, ⟨-, hpos, -, hdrains⟩ | ⟨-, hzero, -, hall⟩⟩
    · rw [hnone] at hn
      cases hn
    · rw [hdrains] at hn
      rw [if_neg (by omega)]
      exact List.mem_singleton.mp hn
    · rw [if_pos hzero]
      exact hall n hn

/-- The events that keep the accounts: a wrapper that somebody else uses by now is not closed by
the one who had it before, a connect does not fail where it is a replacement or the last place
of a draining pool, and `drain` is not called while an earlier one is pending. -/
def Regular (w : Pooled) (e : Event) (_ : Pooled) : Prop :=
  match e with
  | .close t _ => ∀ c, w.tasks[t]? = some (.released c) → (w.wrapper c).released = true
  | .connected _ ok => ok = false → w.pool.draining = true → 1 < w.pool.total
  | .replaced ok _ => ok = true
  | .drain => w.pool.drainPending = false
  | _ => True

theorem Inv.total_pos {w : Pooled} (h : Inv w) {t : Nat} {c : Nat}
    (ht : w.tasks[t]? = some (.holding c)) : 0 < w.pool.total := by
  have hset := places_setTask ht .running
  have hcard := congrArg Multiset.card hset
  rw [Multiset.card_add, Multiset.card_add w.places] at hcard
  have htotal := h.core.accounts.total
  rw [zero_add] at htotal
  have hone : ((Stage.holding c).place.toList : Multiset (Option Nat)).card = 1 := rfl
  have hnone : (Stage.running.place.toList : Multiset (Option Nat)).card = 0 := rfl
  omega

theorem Inv.step {w w' : Pooled} {e : Event} (h : Inv w) (hregular : Regular w e w')
    (hstep : step w e = some w') : Inv w' := by
  have hcore := h.core
  have hdrained := h.drained
  cases e with
  | acquire now =>
    cases hstep
    exact ⟨hcore.acquire now, hdrained.acquire now⟩
  | pinged t ok now =>
    simp only [Pooled.step] at hstep
    split at hstep
    · rename_i c ht
      cases hstep
      exact ⟨hcore.pinged ht ok now, hdrained.pinged hcore.accounts.cap t c ok now⟩
    · cases hstep
  | connected t ok =>
    simp only [Pooled.step] at hstep
    split at hstep
    · rename_i ht
      cases hstep
      exact ⟨hcore.connected ht ok, hdrained.connected t ok hregular⟩
    · cases hstep
  | woken t =>
    simp only [Pooled.step] at hstep
    split at hstep
    · rename_i settled r results ht
      cases hstep
      refine ⟨hcore.woken ht, ?_⟩
      cases r with
      | ok c =>
        exact hdrained.keep ⟨rfl, rfl, rfl, rfl⟩ fun _ hidle hwaiters =>
          ⟨hidle, hwaiters, Or.inl rfl⟩
      | error e =>
        exact hdrained.keep ⟨rfl, rfl, rfl, rfl⟩ fun _ hidle hwaiters =>
          ⟨hidle, hwaiters, Or.inl rfl⟩
    · cases hstep
  | timedOut t =>
    cases hstep
    exact ⟨hcore.timedOut t, hdrained.timedOut t⟩
  | close t now =>
    simp only [Pooled.step] at hstep
    split at hstep
    · rename_i c ht
      cases hstep
      refine ⟨hcore.close ht now, ?_⟩
      have hout : Drained (w.setTask t (.released c)) :=
        hdrained.keep ⟨rfl, rfl, rfl, rfl⟩ fun _ hidle hwaiters =>
          ⟨hidle, hwaiters, Or.inl rfl⟩
      rw [Pooled.close]
      split
      · exact hout
      · have hmarked : Drained ((w.setTask t (.released c)).markReleased c) :=
          hout.keep ⟨rfl, rfl, rfl, rfl⟩ fun _ hidle hwaiters => ⟨hidle, hwaiters, Or.inl rfl⟩
        exact hmarked.releasePooled (h.total_pos ht) c now
    · rename_i c ht
      cases hstep
      rw [Pooled.close, if_pos (hregular c ht)]
      exact h
    · cases hstep
  | replaced ok now =>
    simp only [Pooled.step] at hstep
    split at hstep
    · cases hstep
    · rename_i hreplacing
      cases hstep
      have hok : ok = true := hregular
      rw [hok]
      refine ⟨hcore.replaced hreplacing now, ?_⟩
      have hopen : Drained ({ w with replacing := w.replacing - 1 } : Pooled).newConnection :=
        hdrained.keep ⟨rfl, rfl, rfl, rfl⟩ fun _ hidle hwaiters =>
          ⟨hidle, hwaiters, Or.inl rfl⟩
      refine hopen.releasePooled ?_ w.connections now
      show 0 < w.pool.total
      have htotal := hcore.accounts.total
      rw [zero_add, places, Multiset.card_add, Multiset.card_replicate] at htotal
      omega
  | drain =>
    cases hstep
    refine ⟨hcore.drain, hdrained.drain hregular ?_⟩
    have htotal := hcore.accounts.total
    rw [zero_add, places, Multiset.card_add, Multiset.card_add, card_idlePlaces] at htotal
    omega
  | changed c broken inTrans =>
    cases hstep
    exact ⟨hcore.frame (hcore.accounts.frame rfl rfl rfl rfl) rfl (fun _ hd => hd) rfl rfl rfl rfl,
      hdrained.keep ⟨rfl, rfl, rfl, rfl⟩ fun _ hidle hwaiters => ⟨hidle, hwaiters, Or.inl rfl⟩⟩

theorem Inv.new {maxConnections : Int} (hmax : 0 ≤ maxConnections)
    (pingAfterIdleMs acquireTimeoutMs maxWaiters : Int) :
    Inv (new maxConnections pingAfterIdleMs acquireTimeoutMs maxWaiters) := by
  refine ⟨⟨⟨?_, ?_, rfl, hmax⟩, ?_, ⟨?_, ?_, rfl, List.nodup_nil, ?_, ?_⟩⟩, Or.inl ⟨rfl, rfl, rfl⟩⟩
  · intro c
    exact Nat.zero_le 1
  · intro c hc
    exact absurd hc (Multiset.notMem_zero _)
  · intro t a c ha
    cases ha
  · intro t
    constructor
    · intro ht
      cases ht
    · intro hex
      obtain ⟨a, ha, _⟩ := hex
      cases ha
  · intro t a ha
    cases ha
  · intro t ht
    cases ht
  · intro t ht
    cases ht

/-- **The accounts of a pool are kept in every run of regular events**, whatever the order of
the calls, the closes, the answers and the timers. -/
theorem pool_sound {maxConnections : Int} (hmax : 0 ≤ maxConnections)
    (pingAfterIdleMs acquireTimeoutMs maxWaiters : Int) {events : List Event} {w : Pooled}
    (hregular : Steps step Regular
      (new maxConnections pingAfterIdleMs acquireTimeoutMs maxWaiters) events)
    (hrun : run step (new maxConnections pingAfterIdleMs acquireTimeoutMs maxWaiters) events
      = some w) : w.Sound :=
  (run_invariant_of_steps (fun _ _ _ h hreg hstep => h.step hreg hstep)
    (Inv.new hmax pingAfterIdleMs acquireTimeoutMs maxWaiters) hregular hrun).sound

/-- One caller after the other uses the only connection of a pool. -/
theorem pool_sound_reused : ∃ w, run step (new 1 30000 30000 1024)
      [.acquire 0, .connected 0 true, .acquire 1, .close 0 2, .woken 1, .drain, .close 1 3]
      = some w ∧ w.drains = [1] ∧ w.Sound := by
  have hregular : Steps step Regular (new 1 30000 30000 1024)
      [.acquire 0, .connected 0 true, .acquire 1, .close 0 2, .woken 1, .drain, .close 1 3] := by
    intro w1 h1
    cases h1
    refine ⟨trivial, ?_⟩
    intro w2 h2
    cases h2
    refine ⟨(fun hok => nomatch hok), ?_⟩
    intro w3 h3
    cases h3
    refine ⟨trivial, ?_⟩
    intro w4 h4
    cases h4
    refine ⟨(fun c hc => nomatch hc), ?_⟩
    intro w5 h5
    cases h5
    refine ⟨trivial, ?_⟩
    intro w6 h6
    cases h6
    refine ⟨rfl, ?_⟩
    intro w7 h7
    cases h7
    exact ⟨(fun c hc => nomatch hc), trivial⟩
  exact ⟨_, rfl, rfl, pool_sound (by decide) 30000 30000 1024 hregular rfl⟩

/-- **A task that closes its wrapper again releases the connection of the next one**, which is
then in use and idle. -/
theorem pool_released_twice : ∃ w, run step (new 1 30000 30000 1024)
      [.acquire 0, .connected 0 true, .close 0 0, .acquire 0, .close 0 0] = some w ∧
    w.tasks[1]? = some (.holding 0) ∧ w.pool.idle = [0] ∧ ¬ w.Sound := by
  refine ⟨_, rfl, rfl, rfl, ?_⟩
  intro h
  exact absurd (h.exclusive 0) (by decide)

end Pooled

end Leviathan.MySql
