import Leviathan.MySql.Pool

/-!
# The accounts of the connection pool

What the pool counts in `total` are places: a place belongs to a connection, idle or with a
task, or to one that is being opened.  Three invariants are kept by the methods of the pool
apart from each other: the places (`Accounts`), the wrappers of the connections in use
(`Tenants`) and the waiters (`Queue`).
-/

variable {t c : Nat} {a b : Stage} {rest : List Nat}

namespace Leviathan.MySql

open List

/-! ### Places -/

/-- The place of a task: its connection, or `none` for one that is being opened. -/
def Stage.place : Stage → Option (Option Nat)
  | .running => none
  | .pinging c => some (some c)
  | .connecting => some none
  | .waiting _ (.ok c :: _) => some (some c)
  | .waiting _ _ => none
  | .holding c => some (some c)
  | .released _ => none
  | .failed _ => none

/-- The connection that a task may use, also one that was handed to it but not yet fetched. -/
def Stage.tenant : Stage → Option Nat
  | .holding c => some c
  | .waiting _ (.ok c :: _) => some c
  | _ => none

/-- A waiter that is not settled. -/
def Stage.queued : Stage → Bool
  | .waiting false _ => true
  | _ => false

/-- The task has been a waiter, or is at its end. -/
def Stage.past : Stage → Bool
  | .running => false
  | .pinging _ => false
  | .connecting => false
  | _ => true

/-- The promise of a waiter is resolved once if its `settled` flag is set, and else not. -/
def Stage.SettledOnce : Stage → Prop
  | .waiting settled results => results.length = if settled then 1 else 0
  | _ => True

/-- The places of a list of tasks. -/
def placesOf (tasks : List Stage) : Multiset (Option Nat) := tasks.filterMap Stage.place

theorem placesOf_set {tasks : List Stage} (h : tasks[t]? = some a) (b : Stage) :
    placesOf (tasks.set t b) + (a.place.toList : Multiset (Option Nat))
      = placesOf tasks + (b.place.toList : Multiset (Option Nat)) := by
  obtain ⟨ht, ha⟩ := List.getElem?_eq_some_iff.mp h
  have hset : ((tasks.set t b).filterMap Stage.place).Perm
      ((b :: tasks.eraseIdx t).filterMap Stage.place) :=
    (set_perm_cons_eraseIdx ht b).filterMap _
  have hold : (tasks.filterMap Stage.place).Perm
      ((a :: tasks.eraseIdx t).filterMap Stage.place) := by
    rw [← ha]
    exact ((getElem_cons_eraseIdx_perm ht).symm).filterMap _
  have hcons : ∀ (x : Stage) (l : List Stage),
      (((x :: l).filterMap Stage.place : List (Option Nat)) : Multiset (Option Nat))
        = (x.place.toList : Multiset (Option Nat)) + placesOf l := by
    intro x l
    cases hx : x.place with
    | none => simp [placesOf, hx]
    | some p => simp [placesOf, hx]
  rw [placesOf, placesOf, Multiset.coe_eq_coe.mpr hset, Multiset.coe_eq_coe.mpr hold,
    hcons, hcons]
  abel

theorem placesOf_append (tasks : List Stage) (a : Stage) :
    placesOf (tasks ++ [a]) = placesOf tasks + (a.place.toList : Multiset (Option Nat)) := by
  rw [placesOf, filterMap_append, ← Multiset.coe_add]
  cases ha : a.place with
  | none => simp [placesOf, ha]
  | some p => simp [placesOf, ha]

/-- The places of idle connections. -/
def idlePlaces (idle : List Nat) : Multiset (Option Nat) := (idle.map some : List (Option Nat))

@[simp] theorem idlePlaces_nil : idlePlaces [] = 0 := rfl

theorem idlePlaces_append (l l' : List Nat) :
    idlePlaces (l ++ l') = idlePlaces l + idlePlaces l' := by
  rw [idlePlaces, map_append, ← Multiset.coe_add]
  rfl

theorem idlePlaces_cons (c : Nat) (l : List Nat) :
    idlePlaces (c :: l) = {some c} + idlePlaces l := by
  rw [idlePlaces, map_cons, ← Multiset.cons_coe, ← Multiset.singleton_add]
  rfl

@[simp] theorem card_idlePlaces (l : List Nat) : (idlePlaces l).card = l.length := by
  simp [idlePlaces]

namespace Pooled

/-- All places: the idle connections, those of the tasks, and the replacements under way. -/
def places (w : Pooled) : Multiset (Option Nat) :=
  idlePlaces w.pool.idle + placesOf w.tasks + Multiset.replicate w.replacing none

/-- Every connection has one place at most, and `total` counts the places; `m` are the places
that a method has taken out and not yet put back. -/
structure Accounts (w : Pooled) (m : Multiset (Option Nat)) : Prop where
  once : ∀ c, (m + w.places).count (some c) ≤ 1
  known : ∀ c, some c ∈ m + w.places → c < w.connections
  total : w.pool.total = (m + w.places).card
  cap : w.pool.total ≤ w.pool.maxConnections

namespace Accounts

variable {w w' : Pooled} {m m' n : Multiset (Option Nat)}

/-- Places that are given up, or only move. -/
theorem give (h : Accounts w m) (hplaces : m' + w'.places + n = m + w.places)
    (htotal : w'.pool.total = w.pool.total - n.card)
    (hmax : w'.pool.maxConnections = w.pool.maxConnections)
    (hconns : w'.connections = w.connections) : Accounts w' m' := by
  have hle : m' + w'.places ≤ m + w.places := by
    rw [← hplaces]
    exact Multiset.le_add_right _ _
  have hcard : (m' + w'.places).card + n.card = (m + w.places).card := by
    rw [← Multiset.card_add, hplaces]
  have hcap := h.cap
  refine ⟨?_, ?_, ?_, ?_⟩
  · intro c
    exact (Multiset.count_le_of_le _ hle).trans (h.once c)
  · intro c hc
    rw [hconns]
    exact h.known c (Multiset.mem_of_le hle hc)
  · have htotal' := h.total
    omega
  · omega

/-- A change that the accounts do not see. -/
theorem frame (h : Accounts w m) (hplaces : w'.places = w.places)
    (htotal : w'.pool.total = w.pool.total)
    (hmax : w'.pool.maxConnections = w.pool.maxConnections)
    (hconns : w'.connections = w.connections) : Accounts w' m := by
  refine h.give (n := 0) ?_ (by simp [htotal]) hmax hconns
  rw [hplaces, add_zero]

/-- A place for a connection that is opened now. -/
theorem take (h : Accounts w m) (hplaces : m' + w'.places = m + w.places + {none})
    (htotal : w'.pool.total = w.pool.total + 1) (hroom : w.pool.total < w.pool.maxConnections)
    (hmax : w'.pool.maxConnections = w.pool.maxConnections)
    (hconns : w'.connections = w.connections) : Accounts w' m' := by
  refine ⟨?_, ?_, ?_, ?_⟩
  · intro c
    rw [hplaces, Multiset.count_add, Multiset.count_singleton, if_neg (by simp)]
    exact h.once c
  · intro c hc
    rw [hplaces, Multiset.mem_add, Multiset.mem_singleton] at hc
    rw [hconns]
    exact h.known c (hc.resolve_right (by simp))
  · rw [hplaces, htotal, h.total, Multiset.card_add (m + w.places), Multiset.card_singleton]
    push_cast
    rfl
  · omega

/-- The connection is open. -/
theorem opened (h : Accounts w m)
    (hplaces : m' + w'.places + {none} = m + w.places + {some w.connections})
    (htotal : w'.pool.total = w.pool.total)
    (hmax : w'.pool.maxConnections = w.pool.maxConnections)
    (hconns : w'.connections = w.connections + 1) : Accounts w' m' := by
  have hcount : ∀ c, (m' + w'.places).count (some c)
      = (m + w.places).count (some c) + if c = w.connections then 1 else 0 := by
    intro c
    have hc := congrArg (Multiset.count (some c)) hplaces
    rw [Multiset.count_add, Multiset.count_singleton, if_neg (by simp),
      Multiset.count_add _ (m + w.places), Multiset.count_singleton] at hc
    simpa using hc
  have hfresh : (m + w.places).count (some w.connections) = 0 := by
    apply Multiset.count_eq_zero_of_notMem
    intro hmem
    exact absurd (h.known _ hmem) (by omega)
  refine ⟨?_, ?_, ?_, ?_⟩
  · intro c
    rw [hcount]
    by_cases hc : c = w.connections
    · rw [hc, hfresh, if_pos rfl]
    · rw [if_neg hc]
      exact h.once c
  · intro c hc
    have hpos := Multiset.count_pos.mpr hc
    rw [hcount] at hpos
    rw [hconns]
    by_cases heq : c = w.connections
    · omega
    · rw [if_neg heq] at hpos
      have := h.known c (Multiset.count_pos.mp hpos)
      omega
  · have hcard := congrArg Multiset.card hplaces
    rw [Multiset.card_add, Multiset.card_add (m + w.places)] at hcard
    simp only [Multiset.card_singleton] at hcard
    rw [htotal, h.total]
    omega
  · rw [htotal, hmax]
    exact h.cap

end Accounts

theorem places_setTask {w : Pooled} (h : w.tasks[t]? = some a) (b : Stage) :
    (w.setTask t b).places + (a.place.toList : Multiset (Option Nat))
      = w.places + (b.place.toList : Multiset (Option Nat)) := by
  have hset := placesOf_set h b
  show idlePlaces w.pool.idle + placesOf (w.tasks.set t b) + Multiset.replicate w.replacing none + _
    = _
  calc _ = idlePlaces w.pool.idle
        + (placesOf (w.tasks.set t b) + (a.place.toList : Multiset (Option Nat)))
        + Multiset.replicate w.replacing none := by abel
    _ = _ := by
        rw [hset, places]
        abel

/-- A task goes on; what it held before and holds now is accounted for. -/
theorem Accounts.task {w : Pooled} {m m' : Multiset (Option Nat)} (h : Accounts w m)
    (ht : w.tasks[t]? = some a)
    (hplace : m' + (b.place.toList : Multiset (Option Nat))
      = m + (a.place.toList : Multiset (Option Nat))) : Accounts (w.setTask t b) m' := by
  refine h.give (n := 0) ?_ (by simp [setTask]) rfl rfl
  have hset := places_setTask ht b
  apply add_right_cancel (b := (a.place.toList : Multiset (Option Nat)))
  calc m' + (w.setTask t b).places + 0 + (a.place.toList : Multiset (Option Nat))
      = m' + ((w.setTask t b).places + (a.place.toList : Multiset (Option Nat))) := by abel
    _ = m' + (b.place.toList : Multiset (Option Nat)) + w.places := by
        rw [hset]
        abel
    _ = m + w.places + (a.place.toList : Multiset (Option Nat)) := by
        rw [hplace]
        abel

/-! ### acquire -/

/-- The loop has dropped the idle connections before `rest`. -/
def dropped (w : Pooled) (gone : Nat) (rest : List Nat) : Pooled :=
  (w.setIdle rest).addTotal (-gone)

/-- **What the loop of `acquire` can do**: drop broken connections, and take the next one, with
or without a ping, or find none. -/
theorem acquireLoop_cases (t : Nat) (now : Int) (l : List Nat) :
    ∀ w : Pooled, w.pool.idle = l →
      acquireLoop t now l w = (w.dropped l.length []).connectOrWait t ∨
      ∃ gone c rest, l = gone ++ c :: rest ∧
        (acquireLoop t now l w = (w.dropped gone.length rest).setTask t (.pinging c) ∨
          acquireLoop t now l w
            = ((w.dropped gone.length rest).reopen c).setTask t (.holding c)) := by
  induction l with
  | nil =>
    intro w hw
    left
    have heq : w.dropped 0 [] = w := by
      simp [dropped, setIdle, addTotal, ← hw]
    show w.connectOrWait t = _
    rw [length_nil, heq]
  | cons c rest ih =>
    intro w hw
    have hnone : w.dropped 0 rest = w.setIdle rest := by
      simp [dropped, setIdle, addTotal]
    rw [acquireLoop]
    by_cases hbroken : w.broken c = true
    · have hmore : ∀ n rest', ((w.setIdle rest).addTotal (-1)).dropped n rest'
          = w.dropped (n + 1) rest' := by
        intro n rest'
        simp only [dropped, setIdle, addTotal]
        congr 2
        push_cast
        ring
      rw [if_pos (show (w.setIdle rest).broken c = true from hbroken)]
      rcases ih ((w.setIdle rest).addTotal (-1)) rfl with h | ⟨gone, d, rest', hl, h⟩
      · left
        rw [h, hmore, length_cons]
      · right
        refine ⟨c :: gone, d, rest', by rw [hl, cons_append], ?_⟩
        rw [hmore, ← length_cons] at h
        exact h
    · rw [if_neg (show ¬ (w.setIdle rest).broken c = true from hbroken)]
      right
      refine ⟨[], c, rest, rfl, ?_⟩
      rw [length_nil, hnone]
      by_cases hping : (w.setIdle rest).needsPing c now = true
      · left
        rw [if_pos hping]
      · right
        rw [if_neg hping]

theorem Accounts.dropped {w : Pooled} (h : Accounts w 0) {gone : List Nat}
    (hidle : w.pool.idle = gone ++ c :: rest) :
    Accounts (w.dropped gone.length rest) {some c} := by
  refine h.give (n := idlePlaces gone) ?_ ?_ rfl rfl
  · show {some c} + (idlePlaces rest + placesOf w.tasks + Multiset.replicate w.replacing none) + _
      = 0 + (_ + placesOf w.tasks + Multiset.replicate w.replacing none)
    rw [hidle, idlePlaces_append, idlePlaces_cons]
    abel
  · show w.pool.total + -(gone.length : Int) = _
    rw [card_idlePlaces]
    ring

theorem Accounts.droppedAll {w : Pooled} (h : Accounts w 0) :
    Accounts (w.dropped w.pool.idle.length []) 0 := by
  refine h.give (n := idlePlaces w.pool.idle) ?_ ?_ rfl rfl
  · show 0 + (idlePlaces [] + placesOf w.tasks + Multiset.replicate w.replacing none) + _
      = 0 + (_ + placesOf w.tasks + Multiset.replicate w.replacing none)
    rw [idlePlaces_nil]
    abel
  · show w.pool.total + -(w.pool.idle.length : Int) = _
    rw [card_idlePlaces]
    ring

/-! ### Waiters -/
/-- The waiters in the queue are those that are not settled; nobody is settled twice; and who
was served, with who waits still, are all who came and did not run out of time, in their
order. -/
structure Queue (w : Pooled) : Prop where
  waits : ∀ t, t ∈ w.pool.waiters ↔ ∃ a : Stage, w.tasks[t]? = some a ∧ a.queued = true
  settled : ∀ (t : Nat) (a : Stage), w.tasks[t]? = some a → a.SettledOnce
  order : w.served ++ w.pool.waiters = w.arrivals.filter (· ∉ w.expired)
  once : w.arrivals.Nodup
  arrived : ∀ t, t ∈ w.arrivals → ∃ a : Stage, w.tasks[t]? = some a ∧ a.past = true
  expired : ∀ t, t ∈ w.expired → t ∈ w.arrivals

theorem getElem?_setTask {w : Pooled} (ht : w.tasks[t]? = some a) (b : Stage) (i : Nat) :
    (w.setTask t b).tasks[i]? = if i = t then some b else w.tasks[i]? := by
  obtain ⟨hlt, _⟩ := List.getElem?_eq_some_iff.mp ht
  show (w.tasks.set t b)[i]? = _
  by_cases hi : i = t
  · rw [hi, if_pos rfl, getElem?_set_self hlt]
  · rw [if_neg hi, getElem?_set_ne (fun h => hi h.symm)]

namespace Queue

variable {w w' : Pooled}

theorem frame (h : Queue w) (hwaiters : w'.pool.waiters = w.pool.waiters)
    (htasks : w'.tasks = w.tasks) (hserved : w'.served = w.served)
    (harrivals : w'.arrivals = w.arrivals) (hexpired : w'.expired = w.expired) : Queue w' := by
  refine ⟨?_, ?_, ?_, ?_, ?_, ?_⟩
  · rw [hwaiters, htasks]
    exact h.waits
  · rw [htasks]
    exact h.settled
  · rw [hserved, hwaiters, harrivals, hexpired]
    exact h.order
  · rw [harrivals]
    exact h.once
  · rw [harrivals, htasks]
    exact h.arrived
  · rw [harrivals, hexpired]
    exact h.expired

/-- A waiter in the queue has no result yet. -/
theorem waiting (h : Queue w) (ht : t ∈ w.pool.waiters) :
    w.tasks[t]? = some (.waiting false []) := by
  obtain ⟨a, ha, hqueued⟩ := (h.waits t).mp ht
  have hs := h.settled t a ha
  cases a with
  | waiting settled results =>
    cases settled with
    | true => cases hqueued
    | false =>
      have hnil : results = [] := List.length_eq_zero_iff.mp hs
      rw [ha, hnil]
  | _ => cases hqueued

/-- A task goes on outside of the queue. -/
theorem task (h : Queue w) (ht : w.tasks[t]? = some a) (ha : a.queued = false)
    (hb : b.queued = false) (hs : b.SettledOnce) (hpast : a.past = true → b.past = true) :
    Queue (w.setTask t b) := by
  have hget := getElem?_setTask ht b
  refine ⟨?_, ?_, h.order, h.once, ?_, h.expired⟩
  · intro i
    rw [hget]
    by_cases hi : i = t
    · rw [if_pos hi]
      constructor
      · intro hmem
        obtain ⟨a', ha', hqueued⟩ := (h.waits i).mp hmem
        rw [hi, ht] at ha'
        cases ha'
        rw [ha] at hqueued
        cases hqueued
      · intro hex
        obtain ⟨a', ha', hqueued⟩ := hex
        cases ha'
        rw [hb] at hqueued
        cases hqueued
    · rw [if_neg hi]
      exact h.waits i
  · intro i a' ha'
    rw [hget] at ha'
    by_cases hi : i = t
    · rw [if_pos hi] at ha'
      cases ha'
      exact hs
    · rw [if_neg hi] at ha'
      exact h.settled i a' ha'
  · intro i hi
    obtain ⟨a', ha', hp⟩ := h.arrived i hi
    rw [hget]
    by_cases heq : i = t
    · rw [heq, ht] at ha'
      cases ha'
      exact ⟨b, if_pos heq, hpast hp⟩
    · exact ⟨a', by rw [if_neg heq, ha'], hp⟩

/-- A task becomes a waiter. -/
theorem enqueue (h : Queue w) (ht : w.tasks[t]? = some a) (ha : a.past = false) :
    Queue ((w.addWaiter t).setTask t (.waiting false [])) := by
  have hnew : t ∉ w.arrivals := by
    intro hmem
    obtain ⟨a', ha', hp⟩ := h.arrived t hmem
    rw [ht] at ha'
    cases ha'
    rw [ha] at hp
    cases hp
  have hget : ∀ i, ((w.addWaiter t).setTask t (.waiting false [])).tasks[i]?
      = if i = t then some (.waiting false []) else w.tasks[i]? :=
    getElem?_setTask (w := w.addWaiter t) ht (.waiting false [])
  refine ⟨?_, ?_, ?_, ?_, ?_, ?_⟩
  · intro i
    rw [hget]
    show i ∈ w.pool.waiters ++ [t] ↔ _
    rw [mem_append, mem_singleton]
    by_cases hi : i = t
    · rw [if_pos hi]
      exact ⟨fun _ => ⟨_, rfl, rfl⟩, fun _ => Or.inr hi⟩
    · rw [if_neg hi, ← h.waits i]
      exact ⟨fun hor => hor.resolve_right hi, Or.inl⟩
  · intro i a' ha'
    rw [hget] at ha'
    by_cases hi : i = t
    · rw [if_pos hi] at ha'
      cases ha'
      rfl
    · rw [if_neg hi] at ha'
      exact h.settled i a' ha'
  · show w.served ++ (w.pool.waiters ++ [t]) = (w.arrivals ++ [t]).filter (· ∉ w.expired)
    have hone : [t].filter (· ∉ w.expired) = [t] := by
      rw [filter_eq_self]
      intro i hi
      rw [List.mem_singleton.mp hi]
      simpa using fun hexp => hnew (h.expired t hexp)
    rw [← append_assoc, h.order, filter_append, hone]
  · exact List.nodup_append.mpr ⟨h.once, nodup_singleton t, by
      intro i hi j hj heq
      rw [heq, List.mem_singleton.mp hj] at hi
      exact hnew hi⟩
  · intro i hi
    rw [hget]
    by_cases heq : i = t
    · exact ⟨_, if_pos heq, rfl⟩
    · rw [if_neg heq]
      rcases List.mem_append.mp hi with hold | hone
      · exact h.arrived i hold
      · exact absurd (List.mem_singleton.mp hone) heq
  · intro i hi
    exact List.mem_append.mpr (Or.inl (h.expired i hi))

/-- A waiter is settled: it leaves the queue, as one that was served or one that was too late. -/
theorem settle (h : Queue w) (ht : w.tasks[t]? = some (.waiting false [])) (hb : b.queued = false)
    (hs : b.SettledOnce) (hp : b.past = true) (htasks : w'.tasks = w.tasks.set t b)
    (hmem : ∀ i, i ∈ w'.pool.waiters ↔ i ∈ w.pool.waiters ∧ i ≠ t)
    (horder : w'.served ++ w'.pool.waiters = w'.arrivals.filter (· ∉ w'.expired))
    (harrivals : w'.arrivals = w.arrivals) (hexpired : ∀ i, i ∈ w'.expired → i ∈ w.arrivals) :
    Queue w' := by
  have hget : ∀ i, w'.tasks[i]? = if i = t then some b else w.tasks[i]? := by
    intro i
    rw [htasks]
    exact getElem?_setTask ht b i
  refine ⟨?_, ?_, horder, ?_, ?_, ?_⟩
  · intro i
    rw [hget, hmem]
    by_cases hi : i = t
    · rw [if_pos hi]
      constructor
      · intro hand
        exact absurd hi hand.2
      · intro hex
        obtain ⟨a', ha', hqueued⟩ := hex
        cases ha'
        rw [hb] at hqueued
        cases hqueued
    · rw [if_neg hi, ← h.waits i]
      exact ⟨fun hand => hand.1, fun hin => ⟨hin, hi⟩⟩
  · intro i a' ha'
    rw [hget] at ha'
    by_cases hi : i = t
    · rw [if_pos hi] at ha'
      cases ha'
      exact hs
    · rw [if_neg hi] at ha'
      exact h.settled i a' ha'
  · rw [harrivals]
    exact h.once
  · intro i hi
    rw [harrivals] at hi
    rw [hget]
    by_cases heq : i = t
    · exact ⟨b, if_pos heq, hp⟩
    · rw [if_neg heq]
      exact h.arrived i hi
  · rw [harrivals]
    exact hexpired

theorem nodup (h : Queue w) : (w.served ++ w.pool.waiters).Nodup := by
  rw [h.order]
  exact h.once.filter _

/-- The first waiter is served, or rejected. -/
theorem serve (h : Queue w) (hw : w.pool.waiters = t :: rest) (r : Except Failure Nat) :
    Queue ({ w.setWaiters rest with served := w.served ++ [t] }.settle t [] r) := by
  have ht := h.waiting (t := t) (by rw [hw]; exact mem_cons_self)
  have hnodup := h.nodup
  rw [hw] at hnodup
  have hrest : t ∉ rest := (List.nodup_cons.mp (List.nodup_append.mp hnodup).2.1).1
  refine h.settle (b := .waiting true [r]) ht rfl rfl rfl rfl ?_ ?_ rfl h.expired
  · intro i
    show i ∈ rest ↔ _
    rw [hw, mem_cons]
    constructor
    · intro hi
      exact ⟨Or.inr hi, fun heq => hrest (heq ▸ hi)⟩
    · intro hi
      exact hi.1.resolve_left hi.2
  · show (w.served ++ [t]) ++ rest = w.arrivals.filter (· ∉ w.expired)
    rw [← h.order, hw, append_assoc, singleton_append]

/-- A waiter runs out of time. -/
theorem expire (h : Queue w) (ht : t ∈ w.pool.waiters) (r : Except Failure Nat) :
    Queue ({ w.setWaiters (w.pool.waiters.filter (· ≠ t)) with
      expired := w.expired ++ [t] }.settle t [] r) := by
  have hnodup := h.nodup
  have hserved : t ∉ w.served := by
    intro hin
    exact (List.nodup_append.mp hnodup).2.2 t hin t ht rfl
  have harrived : t ∈ w.arrivals := by
    have hin : t ∈ w.served ++ w.pool.waiters := List.mem_append.mpr (Or.inr ht)
    rw [h.order] at hin
    exact (List.mem_filter.mp hin).1
  refine h.settle (b := .waiting true [r]) (h.waiting ht) rfl rfl rfl rfl ?_ ?_ rfl ?_
  · intro i
    show i ∈ w.pool.waiters.filter (· ≠ t) ↔ _
    simp
  · show w.served ++ w.pool.waiters.filter (· ≠ t) = w.arrivals.filter (· ∉ w.expired ++ [t])
    have hkeep : w.served.filter (· ≠ t) = w.served := by
      rw [filter_eq_self]
      intro i hi
      simpa using fun heq : i = t => hserved (heq ▸ hi)
    have hsplit : w.arrivals.filter (· ∉ w.expired ++ [t])
        = (w.arrivals.filter (· ∉ w.expired)).filter (· ≠ t) := by
      rw [filter_filter]
      apply filter_congr
      intro i _
      simp [not_or, and_comm]
    rw [hsplit, ← h.order, filter_append, hkeep]
  · intro i hi
    rcases List.mem_append.mp hi with hold | hone
    · exact h.expired i hold
    · rw [List.mem_singleton.mp hone]
      exact harrived

end Queue

/-! ### Wrappers in use -/

/-- The wrapper of a connection that a task may use is not released. -/
def Tenants (w : Pooled) : Prop :=
  ∀ (t : Nat) (a : Stage) (c : Nat), w.tasks[t]? = some a → a.tenant = some c → (w.wrapper c).released = false

theorem Tenants.frame {w w' : Pooled} (h : Tenants w) (htasks : w'.tasks = w.tasks)
    (hwrapper : ∀ c, (w.wrapper c).released = false → (w'.wrapper c).released = false) :
    Tenants w' := by
  intro t a c ha hc
  rw [htasks] at ha
  exact hwrapper c (h t a c ha hc)

theorem Tenants.task {w : Pooled} (h : Tenants w) (ht : w.tasks[t]? = some a)
    (hb : ∀ c, b.tenant = some c → (w.wrapper c).released = false) : Tenants (w.setTask t b) := by
  intro i a' c ha' hc
  rw [getElem?_setTask ht b] at ha'
  by_cases hi : i = t
  · rw [if_pos hi] at ha'
    cases ha'
    exact hb c hc
  · rw [if_neg hi] at ha'
    exact h i a' c ha' hc

theorem released_update (w : Pooled) (c d : Nat) (p : PooledConnection)
    (hp : p.released = false) (hd : (w.wrapper d).released = false) :
    (Function.update w.wrapper c p d).released = false := by
  by_cases heq : d = c
  · rw [heq, Function.update_self, hp]
  · rw [Function.update_of_ne heq, hd]

theorem Tenants.reopen {w : Pooled} (h : Tenants w) (c : Nat) : Tenants (w.reopen c) :=
  h.frame rfl fun d hd => released_update w c d _ rfl hd

theorem reopen_released (w : Pooled) (c : Nat) : ((w.reopen c).wrapper c).released = false := by
  show (Function.update w.wrapper c _ c).released = false
  rw [Function.update_self]

/-! ### The methods -/

/-- The invariants but for those of `drain`. -/
structure Core (w : Pooled) (m : Multiset (Option Nat)) : Prop where
  accounts : Accounts w m
  tenants : Tenants w
  queue : Queue w

namespace Core

variable {w w' : Pooled} {m m' : Multiset (Option Nat)}

theorem frame (h : Core w m) (ha : Accounts w' m') (htasks : w'.tasks = w.tasks)
    (hwrapper : ∀ c, (w.wrapper c).released = false → (w'.wrapper c).released = false)
    (hwaiters : w'.pool.waiters = w.pool.waiters) (hserved : w'.served = w.served)
    (harrivals : w'.arrivals = w.arrivals) (hexpired : w'.expired = w.expired) : Core w' m' :=
  ⟨ha, h.tenants.frame htasks hwrapper,
    h.queue.frame hwaiters htasks hserved harrivals hexpired⟩

theorem reopen (h : Core w m) (c : Nat) : Core (w.reopen c) m :=
  h.frame (h.accounts.frame rfl rfl rfl rfl) rfl (fun d hd => released_update w c d _ rfl hd)
    rfl rfl rfl rfl

/-- A task goes on outside of the queue. -/
theorem task (h : Core w m) (ht : w.tasks[t]? = some a)
    (hplace : m' + (b.place.toList : Multiset (Option Nat))
      = m + (a.place.toList : Multiset (Option Nat))) (ha : a.queued = false)
    (hb : b.queued = false) (hs : b.SettledOnce) (hpast : a.past = true → b.past = true)
    (htenant : ∀ c, b.tenant = some c → (w.wrapper c).released = false) :
    Core (w.setTask t b) m' :=
  ⟨h.accounts.task ht hplace, h.tenants.task ht htenant, h.queue.task ht ha hb hs hpast⟩

/-- A task that is not a waiter gets the connection that was taken out. -/
theorem hold (h : Core w {some c}) (ht : w.tasks[t]? = some a) (hplace : a.place = none)
    (ha : a.queued = false) :
    Core ((w.reopen c).setTask t (.holding c)) 0 := by
  refine (h.reopen c).task (a := a) ht ?_ ha rfl trivial (fun _ => rfl) ?_
  · rw [hplace]
    rfl
  · intro d hd
    cases hd
    exact reopen_released w c

theorem dropped (h : Core w 0) {gone : List Nat} (hidle : w.pool.idle = gone ++ c :: rest) :
    Core (w.dropped gone.length rest) {some c} :=
  h.frame (h.accounts.dropped hidle) rfl (fun _ hd => hd) rfl rfl rfl rfl

theorem droppedAll (h : Core w 0) : Core (w.dropped w.pool.idle.length []) 0 :=
  h.frame h.accounts.droppedAll rfl (fun _ hd => hd) rfl rfl rfl rfl

theorem connectOrWait (h : Core w 0) (ht : w.tasks[t]? = some .running) :
    Core (w.connectOrWait t) 0 := by
  rw [Pooled.connectOrWait]
  by_cases hroom : w.pool.total < w.pool.maxConnections
  · rw [if_pos hroom]
    have hset := places_setTask (w := w.addTotal 1) ht .connecting
    refine ⟨h.accounts.take ?_ rfl hroom rfl rfl, ?_, ?_⟩
    · rw [show Stage.running.place.toList = [] from rfl, Multiset.coe_nil, add_zero] at hset
      rw [hset, zero_add, zero_add]
      rfl
    · exact Tenants.task (w := w.addTotal 1) h.tenants ht (fun _ hc => nomatch hc)
    · exact Queue.task (w := w.addTotal 1) (h.queue.frame rfl rfl rfl rfl rfl) ht rfl rfl trivial
        (fun hp => nomatch hp)
  · rw [if_neg hroom]
    by_cases hfull : w.pool.maxWaiters ≤ w.pool.waiters.length
    · rw [if_pos hfull]
      exact h.task ht rfl rfl rfl trivial (fun hp => nomatch hp) (fun _ hc => nomatch hc)
    · rw [if_neg hfull]
      have hadd : Accounts (w.addWaiter t) 0 := h.accounts.frame rfl rfl rfl rfl
      exact ⟨hadd.task ht rfl,
        Tenants.task (w := w.addWaiter t) h.tenants ht (fun _ hc => nomatch hc),
        h.queue.enqueue ht rfl⟩

theorem acquireLoop (h : Core w 0) (ht : w.tasks[t]? = some .running) (now : Int) :
    Core (acquireLoop t now w.pool.idle w) 0 := by
  rcases acquireLoop_cases t now w.pool.idle w rfl with hr | ⟨gone, c, rest, hl, hr | hr⟩
  · rw [hr]
    exact h.droppedAll.connectOrWait ht
  · rw [hr]
    exact (h.dropped hl).task ht rfl rfl rfl trivial (fun hp => nomatch hp)
      (fun _ hc => nomatch hc)
  · rw [hr]
    exact (h.dropped hl).hold ht rfl rfl

/-- A connection that was taken out is given up. -/
theorem discard (h : Core w {some c}) : Core (w.addTotal (-1)) 0 := by
  refine h.frame (h.accounts.give (n := {some c}) ?_ ?_ rfl rfl) rfl (fun _ hd => hd) rfl rfl rfl
    rfl
  · show 0 + w.places + _ = _
    abel
  · rw [Multiset.card_singleton]
    show w.pool.total + -1 = _
    ring

theorem serveWaitersOrReplace (h : Core w 0) : Core w.serveWaitersOrReplace 0 := by
  rw [Pooled.serveWaitersOrReplace]
  by_cases hnone : w.pool.waiters.length = 0
  · rw [if_pos hnone]
    exact h
  · rw [if_neg hnone]
    by_cases hcap : w.pool.maxConnections ≤ w.pool.total
    · rw [if_pos hcap]
      exact h
    · rw [if_neg hcap]
      refine h.frame (h.accounts.take ?_ rfl (by omega) rfl rfl) rfl (fun _ hd => hd) rfl rfl rfl
        rfl
      show 0 + (idlePlaces w.pool.idle + placesOf w.tasks
        + Multiset.replicate (w.replacing + 1) none) = 0 + (_ + _ + _) + {none}
      rw [Multiset.replicate_succ, ← Multiset.singleton_add]
      abel

/-- A released connection goes to the first waiter, or to the idle ones. -/
theorem hand (h : Core w {some c}) (now : Int) : Core (hand c now w.pool.waiters w) 0 := by
  cases hw : w.pool.waiters with
  | nil =>
    rw [Pooled.hand]
    refine h.frame (h.accounts.give (n := 0) ?_ (by simp [addIdle]) rfl rfl) rfl ?_ rfl rfl rfl
      rfl
    · show 0 + (idlePlaces (w.pool.idle ++ [c]) + placesOf w.tasks
        + Multiset.replicate w.replacing none) + 0 = {some c} + (_ + _ + _)
      rw [idlePlaces_append, idlePlaces_cons, idlePlaces_nil]
      abel
    · intro d hd
      show (Function.update w.wrapper c _ d).released = false
      by_cases heq : d = c
      · rw [heq, Function.update_self]
        rw [heq] at hd
        exact hd
      · rw [Function.update_of_ne heq, hd]
  | cons t rest =>
    have ht := h.queue.waiting (t := t) (by rw [hw]; exact mem_cons_self)
    have hopen := h.reopen c
    rw [Pooled.hand, ht]
    refine ⟨?_, ?_, ?_⟩
    · have hsame : Accounts { (w.setWaiters rest).reopen c with served := w.served ++ [t] } {some c} :=
        h.accounts.frame rfl rfl rfl rfl
      exact hsame.task ht rfl
    · have hsame : Tenants { (w.setWaiters rest).reopen c with served := w.served ++ [t] } :=
        hopen.tenants.frame rfl fun _ hd => hd
      refine hsame.task ht ?_
      intro d hd
      cases hd
      exact reopen_released w c
    · exact (hopen.queue.serve hw (.ok c)).frame rfl rfl rfl rfl rfl

theorem settleDrain (h : Core w m) : Core w.settleDrain m := by
  rw [Pooled.settleDrain]
  by_cases hd : (w.pool.draining && w.pool.drainPending && decide (w.pool.total ≤ 0)) = true
  · rw [if_pos hd]
    exact h.frame (h.accounts.frame rfl rfl rfl rfl) rfl (fun _ hd => hd) rfl rfl rfl rfl
  · rw [if_neg hd]
    exact h

theorem releasePooled (h : Core w {some c}) (now : Int) : Core (w.releasePooled c now) 0 := by
  rw [Pooled.releasePooled]
  by_cases hdraining : w.pool.draining = true
  · rw [if_pos hdraining]
    have hclosed : Core (w.closeInner c) {some c} :=
      h.frame (h.accounts.frame rfl rfl rfl rfl) rfl (fun _ hd => hd) rfl rfl rfl rfl
    exact hclosed.discard.settleDrain
  · rw [if_neg hdraining]
    by_cases hbroken : w.broken c = true
    · rw [if_pos hbroken]
      exact h.discard.serveWaitersOrReplace
    · rw [if_neg hbroken]
      by_cases htrans : w.inTrans c = true
      · rw [if_pos htrans]
        have hrolled : Core { w with rollbacks := w.rollbacks ++ [c] } {some c} :=
          h.frame (h.accounts.frame rfl rfl rfl rfl) rfl (fun _ hd => hd) rfl rfl rfl rfl
        exact hrolled.hand now
      · rw [if_neg htrans]
        exact h.hand now

/-- No task may use a connection that is taken out. -/
theorem not_tenant (h : Core w {some c}) (ht : w.tasks[t]? = some a) : a.tenant ≠ some c := by
  intro htenant
  have hplace : a.place = some (some c) := by
    cases a with
    | holding d =>
      cases htenant
      rfl
    | waiting settled results =>
      cases results with
      | nil => cases htenant
      | cons r results =>
        cases r with
        | ok d =>
          cases htenant
          rfl
        | error e => cases htenant
    | _ => cases htenant
  have hset := places_setTask ht .running
  rw [hplace] at hset
  have hmem : some c ∈ w.places := by
    have hin : some c ∈ (w.setTask t .running).places + ([some c] : Multiset (Option Nat)) :=
      Multiset.mem_add.mpr (Or.inr (by simp))
    rw [show (some (some c)).toList = [some c] from rfl] at hset
    rw [hset] at hin
    simpa [Stage.place] using hin
  have honce := h.accounts.once c
  have hpos := Multiset.count_pos.mpr hmem
  rw [Multiset.count_add, Multiset.count_singleton_self] at honce
  omega

theorem markReleased (h : Core w {some c}) : Core (w.markReleased c) {some c} := by
  refine ⟨h.accounts.frame rfl rfl rfl rfl, ?_, h.queue.frame rfl rfl rfl rfl rfl⟩
  intro t a d ht hd
  have hne : d ≠ c := by
    intro heq
    rw [heq] at hd
    exact h.not_tenant ht hd
  show (Function.update w.wrapper c _ d).released = false
  rw [Function.update_of_ne hne]
  exact h.tenants t a d ht hd

section
variable (h : Core w 0)
include h

/-- The holder of a connection closes it. -/
theorem close (ht : w.tasks[t]? = some (.holding c)) (now : Int) :
    Core ((w.setTask t (.released c)).close c now) 0 := by
  have hreleased : (w.wrapper c).released = false := h.tenants t _ c ht rfl
  have hout : Core (w.setTask t (.released c)) {some c} :=
    h.task ht rfl rfl rfl trivial (fun _ => rfl) (fun _ hc => nomatch hc)
  rw [Pooled.close, if_neg (by
    show ¬ (w.wrapper c).released = true
    rw [hreleased]
    exact Bool.false_ne_true)]
  exact hout.markReleased.releasePooled now

theorem start : Core { w with tasks := w.tasks ++ [Stage.running] } 0 := by
  have hget : ∀ (t : Nat) (a : Stage), (w.tasks ++ [Stage.running])[t]? = some a →
      w.tasks[t]? = some a ∨ a = .running := by
    intro t a ha
    rcases Nat.lt_or_ge t w.tasks.length with hlt | hge
    · rw [getElem?_append_left hlt] at ha
      exact Or.inl ha
    · rw [getElem?_append_right hge] at ha
      exact Or.inr (List.mem_singleton.mp (mem_of_getElem? ha))
  have hold : ∀ {t : Nat} {a : Stage}, w.tasks[t]? = some a →
      (w.tasks ++ [Stage.running])[t]? = some a := by
    intro t a ha
    rw [getElem?_append_left (List.getElem?_eq_some_iff.mp ha).1, ha]
  refine ⟨h.accounts.frame ?_ rfl rfl rfl, ?_, ?_, ?_, h.queue.order, h.queue.once, ?_,
    h.queue.expired⟩
  · show idlePlaces w.pool.idle + placesOf (w.tasks ++ [Stage.running])
      + Multiset.replicate w.replacing none = _
    rw [placesOf_append, show Stage.running.place.toList = [] from rfl, Multiset.coe_nil, add_zero]
    rfl
  · intro t a c ha hc
    rcases hget t a ha with hin | hrun
    · exact h.tenants t a c hin hc
    · rw [hrun] at hc
      cases hc
  · intro t
    constructor
    · intro hmem
      obtain ⟨a, ha, hqueued⟩ := (h.queue.waits t).mp hmem
      exact ⟨a, hold ha, hqueued⟩
    · intro hex
      obtain ⟨a, ha, hqueued⟩ := hex
      rcases hget t a ha with hin | hrun
      · exact (h.queue.waits t).mpr ⟨a, hin, hqueued⟩
      · rw [hrun] at hqueued
        cases hqueued
  · intro t a ha
    rcases hget t a ha with hin | hrun
    · exact h.queue.settled t a hin
    · rw [hrun]
      trivial
  · intro t ht
    obtain ⟨a, ha, hp⟩ := h.queue.arrived t ht
    exact ⟨a, hold ha, hp⟩

theorem acquire (now : Int) : Core (w.acquire now) 0 := by
  have hrun : ({ w with tasks := w.tasks ++ [Stage.running] } : Pooled).tasks[w.tasks.length]?
      = some .running := by
    show (w.tasks ++ [Stage.running])[w.tasks.length]? = _
    rw [getElem?_append_right (le_refl _), Nat.sub_self]
    rfl
  rw [Pooled.acquire]
  by_cases hdraining : w.pool.draining = true
  · rw [if_pos hdraining]
    exact h.start.task hrun rfl rfl rfl trivial (fun hp => nomatch hp) (fun _ hc => nomatch hc)
  · rw [if_neg hdraining]
    exact h.start.acquireLoop hrun now

theorem pinged (ht : w.tasks[t]? = some (.pinging c)) (ok : Bool) (now : Int) :
    Core (w.pinged t c ok now) 0 := by
  cases ok with
  | true =>
    refine (h.reopen c).task ht rfl rfl rfl trivial (fun _ => rfl) ?_
    intro d hd
    cases hd
    exact reopen_released w c
  | false =>
    have hout : Core (w.setTask t .running) {some c} :=
      h.task ht rfl rfl rfl trivial (fun hp => nomatch hp) (fun _ hc => nomatch hc)
    have hgone : Core (((w.addTotal (-1)).closeInner c).setTask t .running) 0 :=
      hout.discard.frame (hout.discard.accounts.frame rfl rfl rfl rfl) rfl (fun _ hd => hd) rfl
        rfl rfl rfl
    have hrun : (((w.addTotal (-1)).closeInner c).setTask t .running).tasks[t]?
        = some .running := by
      rw [getElem?_setTask (w := (w.addTotal (-1)).closeInner c) ht, if_pos rfl]
    exact hgone.acquireLoop hrun now

theorem connected (ht : w.tasks[t]? = some .connecting) (ok : Bool) :
    Core (w.connected t ok) 0 := by
  cases ok with
  | true =>
    have hset := places_setTask (w := w.newConnection) ht (.holding w.connections)
    refine ⟨h.accounts.opened ?_ rfl rfl rfl, ?_, ?_⟩
    · rw [zero_add, zero_add]
      exact hset
    · refine Tenants.task (w := w.newConnection) (h.tenants.frame rfl ?_) ht ?_
      · intro d hd
        exact released_update w _ d _ rfl hd
      · intro d hd
        cases hd
        show (Function.update w.wrapper w.connections _ w.connections).released = false
        rw [Function.update_self]
    · exact Queue.task (w := w.newConnection) (h.queue.frame rfl rfl rfl rfl rfl) ht rfl rfl
        trivial (fun _ => rfl)
  | false =>
    have hset := places_setTask (w := w.addTotal (-1)) ht (.failed .driver)
    refine ⟨h.accounts.give (n := {none}) ?_ ?_ rfl rfl, ?_, ?_⟩
    · rw [zero_add, zero_add]
      exact hset.trans (add_zero _)
    · rw [Multiset.card_singleton]
      show w.pool.total + -1 = _
      ring
    · exact Tenants.task (w := w.addTotal (-1)) (h.tenants.frame rfl fun _ hd => hd) ht
        (fun _ hc => nomatch hc)
    · exact Queue.task (w := w.addTotal (-1)) (h.queue.frame rfl rfl rfl rfl rfl) ht rfl rfl
        trivial (fun _ => rfl)

theorem woken {settled : Bool} {r : Except Failure Nat} {results : List (Except Failure Nat)}
    (ht : w.tasks[t]? = some (.waiting settled (r :: results))) : Core (w.woken t r) 0 := by
  have hsettled : settled = true := by
    have hlength := h.queue.settled t _ ht
    cases settled with
    | true => rfl
    | false => cases hlength
  rw [hsettled] at ht
  cases r with
  | ok c =>
    refine h.task ht rfl rfl rfl trivial (fun _ => rfl) ?_
    intro d hd
    cases hd
    exact h.tenants t _ c ht rfl
  | error e =>
    exact h.task ht rfl rfl rfl trivial (fun _ => rfl) (fun _ hc => nomatch hc)

theorem timedOut (t : Nat) : Core (w.timedOut t) 0 := by
  rw [Pooled.timedOut]
  split
  · rename_i results ht
    have hin : t ∈ w.pool.waiters := (h.queue.waits t).mpr ⟨_, ht, rfl⟩
    have hnil : results = [] := List.length_eq_zero_iff.mp (h.queue.settled t _ ht)
    rw [hnil] at ht ⊢
    refine ⟨?_, ?_, h.queue.expire hin _⟩
    · have hsame : Accounts { w.setWaiters (w.pool.waiters.filter (· ≠ t)) with
          expired := w.expired ++ [t] } 0 := h.accounts.frame rfl rfl rfl rfl
      exact hsame.task ht rfl
    · have hsame : Tenants { w.setWaiters (w.pool.waiters.filter (· ≠ t)) with
          expired := w.expired ++ [t] } := h.tenants.frame rfl fun _ hd => hd
      exact hsame.task ht (fun _ hc => nomatch hc)
  · exact h

theorem replaced (hreplacing : w.replacing ≠ 0) (now : Int) : Core (w.replaced true now) 0 := by
  have hopen : Core ({ w with replacing := w.replacing - 1 } : Pooled).newConnection
      {some w.connections} := by
    refine h.frame (h.accounts.opened ?_ rfl rfl rfl) rfl ?_ rfl rfl rfl rfl
    · show {some w.connections} + (idlePlaces w.pool.idle + placesOf w.tasks
        + Multiset.replicate (w.replacing - 1) none) + {none} = 0 + (_ + _ + _) + {some w.connections}
      have hsplit : Multiset.replicate w.replacing (none : Option Nat)
          = {none} + Multiset.replicate (w.replacing - 1) none := by
        rw [Multiset.singleton_add, ← Multiset.replicate_succ]
        congr 1
        omega
      rw [hsplit]
      abel
    · intro d hd
      exact released_update w _ d _ rfl hd
  exact hopen.releasePooled now

end

theorem rejectAll (l : List Nat) :
    ∀ {w : Pooled}, Core (w.setWaiters l) 0 → Core ((rejectAll l w).setWaiters []) 0 := by
  induction l with
  | nil =>
    intro w h
    exact h
  | cons t rest ih =>
    intro w h
    have ht : w.tasks[t]? = some (.waiting false []) :=
      h.queue.waiting (t := t) mem_cons_self
    rw [Pooled.rejectAll, ht]
    apply ih
    refine ⟨?_, ?_, Queue.serve (w := w.setWaiters (t :: rest)) h.queue rfl _⟩
    · have hsame : Accounts { w.setWaiters rest with served := w.served ++ [t] } 0 :=
        h.accounts.frame rfl rfl rfl rfl
      exact hsame.task ht rfl
    · have hsame : Tenants { w.setWaiters rest with served := w.served ++ [t] } :=
        h.tenants.frame rfl fun _ hd => hd
      exact hsame.task ht (fun _ hc => nomatch hc)

theorem closeIdle (h : Core w 0) : Core w.closeIdle 0 := by
  refine h.frame (h.accounts.give (n := idlePlaces w.pool.idle) ?_ ?_ rfl rfl) rfl
    (fun _ hd => hd) rfl rfl rfl rfl
  · show 0 + (idlePlaces [] + placesOf w.tasks + Multiset.replicate w.replacing none) + _
      = 0 + (_ + _ + _)
    rw [idlePlaces_nil]
    abel
  · rw [card_idlePlaces]
    rfl

theorem promiseDrain (h : Core w 0) : Core w.promiseDrain 0 := by
  rw [Pooled.promiseDrain]
  by_cases hnone : w.pool.total ≤ 0
  · rw [if_pos hnone]
    exact h.frame (h.accounts.frame rfl rfl rfl rfl) rfl (fun _ hd => hd) rfl rfl rfl rfl
  · rw [if_neg hnone]
    exact h.frame (h.accounts.frame rfl rfl rfl rfl) rfl (fun _ hd => hd) rfl rfl rfl rfl

theorem drain (h : Core w 0) : Core w.drain 0 := by
  have hdraining : Core { w with pool := { w.pool with draining := true } } 0 :=
    h.frame (h.accounts.frame rfl rfl rfl rfl) rfl (fun _ hd => hd) rfl rfl rfl rfl
  have hrejected := rejectAll (w := { w with pool := { w.pool with draining := true } })
    w.pool.waiters hdraining
  exact hrejected.closeIdle.promiseDrain

end Core

end Pooled

end Leviathan.MySql
