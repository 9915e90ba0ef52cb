import Leviathan.Runtime.TransferFlatten

/-!
# What `lv_thread_rebuild` makes of the buffer

The receiving thread reads the records back in the order in which it meets them.  A node
is made and noted before what it holds is read, so the calls of `lv_rebuild` that are under
way leave nodes that are filled in part; `Builds` says that a call fills the nodes it makes
and leaves the others alone.

Every store to a slot is followed by a retain of what is stored.  So at each moment the
count of a new node is the number of the slots that refer to it, also while nodes are
still open (`Rebuilt.counts`); value structs are never counted.

`thread_transfer` puts both walks together: the rebuilt graph is the source graph with its
nodes renamed one to one.
-/

variable {p off : Nat} {f : Node → Node} {node : Node} {v : LvValue} {h' : Heap} {W : Nat → Prop}
  {data : Nat → Cell} {rest : List Cell}

namespace Leviathan.Runtime.Transfer

open Leviathan.ProbeTable List

/-! ### Copies -/

/-- A node with what it holds renamed.  Dynamic fields and captures are entered one after
the other, each at the front, so their order turns round. -/
def Node.copy (f : LvValue → LvValue) : Node → Node
  | .str bytes => .str bytes
  | .obj classId slots dyn =>
    .obj classId (slots.map f) (dyn.map fun e => (e.1, f e.2)).reverse
  | .arr elems => .arr (elems.map f)
  | .dense recBytes len data => .dense recBytes len data
  | .columnar classId len data => .columnar classId len data
  | .map entries => .map (entries.map fun e => (f e.1, f e.2))
  | .clo fnIndex captures => .clo fnIndex (captures.map fun e => (e.1, f e.2)).reverse
  | .block => .block

theorem Node.copy_congr {f f' : LvValue → LvValue} (node : Node)
    (h : ∀ c ∈ node.children, f' c = f c) : node.copy f' = node.copy f := by
  have hpairs : ∀ es : List (Nat × LvValue), (∀ e ∈ es, f' e.2 = f e.2) →
      (es.map fun e => (e.1, f' e.2)) = es.map fun e => (e.1, f e.2) := by
    intro es hes
    refine map_congr_left ?_
    intro e he
    rw [hes e he]
  cases node with
  | str bytes => rfl
  | dense recBytes len data => rfl
  | columnar classId len data => rfl
  | block => rfl
  | arr elems =>
    have helems : elems.map f' = elems.map f := map_congr_left h
    show Node.arr _ = Node.arr _
    rw [helems]
  | obj classId slots dyn =>
    show Node.obj _ _ _ = Node.obj _ _ _
    rw [map_congr_left fun v hv => h v (mem_append_left _ hv),
      hpairs dyn fun e he => h e.2 (mem_append_right _ (mem_map_of_mem he))]
  | map entries =>
    show Node.map _ = Node.map _
    congr 1
    refine map_congr_left ?_
    intro e he
    rw [h e.1 (List.mem_flatMap.mpr ⟨e, he, by simp⟩),
      h e.2 (List.mem_flatMap.mpr ⟨e, he, by simp⟩)]
  | clo fnIndex captures =>
    show Node.clo _ _ = Node.clo _ _
    rw [hpairs captures fun e he => h e.2 (mem_map_of_mem he)]

/-- What a flattened value has become. -/
def dec (built : Nat → Option LvValue) (fv : LvValue) : LvValue :=
  if fv.tag.isRef then (built fv.payload).getD .void else fv

/-! ### Counting references -/

/-- A value that refers to the node `q`. -/
def LvValue.refersTo (q : Nat) (v : LvValue) : Bool := v.tag.isRef && v.payload == q

/-- How many slots of a node refer to `q`. -/
def Node.refs (q : Nat) (node : Node) : Nat := node.children.countP (LvValue.refersTo q)

/-- The nodes that are counted: all but value structs. -/
def Node.owned (cls : Classes) : Node → Bool
  | .obj classId _ _ => !cls.isValueClass classId
  | _ => true

/-- How many slots of the nodes from `base` on refer to `q`. -/
def Heap.refs (base : Nat) (h : Heap) (q : Nat) : Nat :=
  ∑ p ∈ Finset.Ico base h.next, (h.node p).elim 0 (Node.refs q)

/-- What has been made of the record at an offset. -/
def Heap.built (h : Heap) (o : Nat) : Option LvValue := h.seen.get hash o

theorem refersTo_void (q : Nat) : LvValue.void.refersTo q = false := rfl

theorem isCounted_eq (cls : Classes) (h : Heap) (v : LvValue) :
    h.isCounted cls v = (v.tag.isRef && (h.node v.payload).elim false (Node.owned cls)) := by
  unfold Heap.isCounted
  cases h.node v.payload with
  | none => rfl
  | some node => cases node <;> rfl

/-- Filling a slot of one node with `v` adds one to the references of `v`. -/
theorem refs_modify {base : Nat} {h : Heap} {q : Nat} (hp : base ≤ p ∧ p < h.next)
    (hnode : h.node p = some node)
    (hrefs : (f node).refs q = node.refs q + if v.refersTo q then 1 else 0) :
    (h.modify p f).refs base q = h.refs base q + if v.refersTo q then 1 else 0 := by
  unfold Heap.refs Heap.modify
  dsimp only
  rw [← Finset.add_sum_erase _ _ (Finset.mem_Ico.mpr hp),
    ← Finset.add_sum_erase (Finset.Ico base h.next) (fun p => (h.node p).elim 0 (Node.refs q))
      (Finset.mem_Ico.mpr hp)]
  have hothers : ∑ p' ∈ (Finset.Ico base h.next).erase p,
      (Function.update h.node p ((h.node p).map f) p').elim 0 (Node.refs q) =
      ∑ p' ∈ (Finset.Ico base h.next).erase p, (h.node p').elim 0 (Node.refs q) := by
    refine Finset.sum_congr rfl ?_
    intro p' hp'
    rw [Function.update_of_ne (Finset.ne_of_mem_erase hp')]
  rw [hothers, Function.update_self, hnode]
  show (f node).refs q + _ = node.refs q + _ + _
  omega

/-- A new node without references. -/
theorem refs_alloc {base : Nat} {h : Heap} (hbase : base ≤ h.next) (node : Node) (q : Nat)
    (hnone : node.refs q = 0) : (h.alloc node).2.refs base q = h.refs base q := by
  unfold Heap.refs Heap.alloc
  dsimp only
  rw [Finset.sum_Ico_succ_top hbase, Function.update_self]
  have hold : ∑ p ∈ Finset.Ico base h.next,
      (Function.update h.node h.next (some node) p).elim 0 (Node.refs q) =
      ∑ p ∈ Finset.Ico base h.next, (h.node p).elim 0 (Node.refs q) := by
    refine Finset.sum_congr rfl ?_
    intro p hp
    rw [Function.update_of_ne]
    have := (Finset.mem_Ico.mp hp).2
    omega
  rw [hold]
  show _ + node.refs q = _
  omega

/-- Nothing refers to a node that has not been made. -/
theorem refs_eq_zero {base : Nat} {h : Heap} {q : Nat}
    (hnone : ∀ p node, base ≤ p → p < h.next → h.node p = some node → node.refs q = 0) :
    h.refs base q = 0 := by
  refine Finset.sum_eq_zero ?_
  intro p hp
  obtain ⟨hle, hlt⟩ := Finset.mem_Ico.mp hp
  cases hnode : h.node p with
  | none => rfl
  | some node => exact hnone p node hle hlt hnode

/-- One node has `v` in a slot that is empty in the other, or that the other lacks. -/
def Gains (v : LvValue) (node node' : Node) : Prop :=
  ∃ rest, node'.children.Perm (v :: rest) ∧
    (node.children.Perm (.void :: rest) ∨ node.children.Perm rest)

theorem Gains.refs {node' : Node} (h : Gains v node node') (q : Nat) :
    node'.refs q = node.refs q + if v.refersTo q then 1 else 0 := by
  obtain ⟨rest, hnew, hold⟩ := h
  unfold Node.refs
  rw [hnew.countP_eq, countP_cons]
  rcases hold with hold | hold
  · rw [hold.countP_eq, countP_cons_of_neg (by simp [refersTo_void])]
  · rw [hold.countP_eq]

theorem Gains.mem {node' : Node} (h : Gains v node node') :
    ∀ c ∈ node'.children, c = v ∨ c ∈ node.children := by
  obtain ⟨rest, hnew, hold⟩ := h
  intro c hc
  rcases List.mem_cons.mp (hnew.mem_iff.mp hc) with hc | hc
  · exact .inl hc
  · rcases hold with hold | hold
    · exact .inr (hold.mem_iff.mpr (mem_cons_of_mem _ hc))
    · exact .inr (hold.mem_iff.mpr hc)

theorem retain_node (cls : Classes) (h : Heap) (v : LvValue) :
    (h.retain cls v).node = h.node := by
  unfold Heap.retain
  split <;> rfl

theorem retain_next (cls : Classes) (h : Heap) (v : LvValue) :
    (h.retain cls v).next = h.next := by
  unfold Heap.retain
  split <;> rfl

theorem retain_seen (cls : Classes) (h : Heap) (v : LvValue) :
    (h.retain cls v).seen = h.seen := by
  unfold Heap.retain
  split <;> rfl

theorem retain_rc (cls : Classes) (h : Heap) (v : LvValue) (a : Nat) :
    (h.retain cls v).rc a =
      h.rc a + if v.refersTo a = true ∧ (h.node a).elim false (Node.owned cls) = true then 1 else 0 := by
  unfold Heap.retain
  rw [isCounted_eq]
  by_cases hcounted : (v.tag.isRef && (h.node v.payload).elim false (Node.owned cls)) = true
  · rw [if_pos hcounted]
    obtain ⟨href, howned⟩ := Bool.and_eq_true_iff.mp hcounted
    show Function.update h.rc v.payload (h.rc v.payload + 1) a = _
    by_cases hpay : a = v.payload
    · subst hpay
      rw [Function.update_self, if_pos ⟨by simp [LvValue.refersTo, href], howned⟩]
    · have hrefers : ¬ (v.refersTo a = true) := by
        simp [LvValue.refersTo, Ne.symm hpay]
      rw [Function.update_of_ne hpay, if_neg (fun h => hrefers h.1)]
      rfl
  · rw [if_neg hcounted, if_neg]
    · rfl
    · intro h
      obtain ⟨hrefers, howned⟩ := h
      unfold LvValue.refersTo at hrefers
      rw [Bool.and_eq_true, beq_iff_eq] at hrefers
      rw [hrefers.1, hrefers.2, howned] at hcounted
      exact hcounted rfl

/-! ### The receiving heap -/

section Rebuild

variable {cls : Classes} (g : Graph cls) (s : FlatState) (base : Nat)

/-- The heap while the records of `s` are rebuilt in it; the new nodes start at `base`. -/
structure Rebuilt (h : Heap) : Prop where
  holds : h.seen.Holds hash fun o v => h.built o = some v
  base_le : base ≤ h.next
  target : ∀ o v, h.built o = some v → base ≤ v.payload ∧ v.payload < h.next ∧
    ∃ p node, s.off p = some o ∧ g.heap p = some node ∧ v.tag = node.tag
  inj : ∀ o o' v v', h.built o = some v → h.built o' = some v' → v.payload = v'.payload → o = o'
  onto : ∀ a, base ≤ a → a < h.next → ∃ o v, h.built o = some v ∧ v.payload = a
  nodes : ∀ a, base ≤ a → a < h.next → ∃ node, h.node a = some node ∧
    ∀ c ∈ node.children, c.tag.isRef = true → c.payload < h.next
  counts : ∀ a node, base ≤ a → a < h.next → h.node a = some node →
    h.rc a = if node.owned cls then h.refs base a else 0

variable {g s base}

theorem built_make {h : Heap} (hh : Rebuilt g s base h) {o : Nat} (hnew : h.built o = none)
    (node : Node) (t : Tag) :
    (((h.alloc node).2.see o ⟨t, h.next⟩).seen.Holds hash fun o' v =>
      h.built o' = some v ∨ (o' = o ∧ v = ⟨t, h.next⟩)) := by
  refine hh.holds.put ?_
  intro v hv
  rw [hnew] at hv
  cases hv

/-- Make the node of a record, with nothing in its slots. -/
theorem Rebuilt.make {h : Heap} (hh : Rebuilt g s base h) {o : Nat} {src : Node} {t : Tag}
    (hnew : h.built o = none) (hoff : s.off p = some o) (hsrc : g.heap p = some src)
    (ht : t = src.tag) (hempty : ∀ c ∈ node.children, c.tag.isRef = false) :
    Rebuilt g s base ((h.alloc node).2.see o ⟨t, h.next⟩) := by
  have hbuilt : ∀ o' v, ((h.alloc node).2.see o ⟨t, h.next⟩).built o' = some v ↔
      h.built o' = some v ∨ (o' = o ∧ v = ⟨t, h.next⟩) := fun _ _ =>
    (built_make hh hnew node t).get_iff
  have hrefs : ∀ q, node.refs q = 0 := by
    intro q
    unfold Node.refs
    rw [countP_eq_zero]
    intro c hc
    unfold LvValue.refersTo
    simp [hempty c hc]
  have hbase := hh.base_le
  refine ⟨?_, by show base ≤ h.next + 1; omega, ?_, ?_, ?_, ?_, ?_⟩
  · have hR : (fun o' v => ((h.alloc node).2.see o ⟨t, h.next⟩).built o' = some v) =
        fun o' v => h.built o' = some v ∨ (o' = o ∧ v = ⟨t, h.next⟩) := by
      funext o' v
      exact propext (hbuilt o' v)
    rw [hR]
    exact built_make hh hnew node t
  · intro o' v hv
    show base ≤ v.payload ∧ v.payload < h.next + 1 ∧ _
    rcases (hbuilt o' v).mp hv with hold | ⟨rfl, rfl⟩
    · obtain ⟨hle, hlt, hsource⟩ := hh.target o' v hold
      exact ⟨hle, by omega, hsource⟩
    · exact ⟨hbase, Nat.lt_succ_self _, p, src, hoff, hsrc, ht⟩
  · intro o1 o2 v1 v2 h1 h2 heq
    rcases (hbuilt o1 v1).mp h1 with hold1 | ⟨ho1, hv1⟩
    · have hlt1 := (hh.target o1 v1 hold1).2.1
      rcases (hbuilt o2 v2).mp h2 with hold2 | ⟨_, hv2⟩
      · exact hh.inj o1 o2 v1 v2 hold1 hold2 heq
      · rw [hv2] at heq
        dsimp only at heq
        omega
    · rcases (hbuilt o2 v2).mp h2 with hold2 | ⟨ho2, _⟩
      · have hlt2 := (hh.target o2 v2 hold2).2.1
        rw [hv1] at heq
        dsimp only at heq
        omega
      · rw [ho1, ho2]
  · intro a hle hlt
    have hlt' : a < h.next + 1 := hlt
    by_cases ha : a = h.next
    · exact ⟨o, ⟨t, h.next⟩, (hbuilt _ _).mpr (.inr ⟨rfl, rfl⟩), ha.symm⟩
    · obtain ⟨o', v, hv, hpay⟩ := hh.onto a hle (by omega)
      exact ⟨o', v, (hbuilt _ _).mpr (.inl hv), hpay⟩
  · intro a hle hlt
    have hlt' : a < h.next + 1 := hlt
    show ∃ n, Function.update h.node h.next (some node) a = some n ∧
      ∀ c ∈ n.children, c.tag.isRef = true → c.payload < h.next + 1
    by_cases ha : a = h.next
    · refine ⟨node, by rw [ha, Function.update_self], ?_⟩
      intro c hc href
      rw [hempty c hc] at href
      cases href
    · obtain ⟨n, hn, hin⟩ := hh.nodes a hle (by omega)
      refine ⟨n, by rw [Function.update_of_ne ha, hn], ?_⟩
      intro c hc href
      have := hin c hc href
      omega
  · intro a n hle hlt hn
    have hlt' : a < h.next + 1 := hlt
    have hsame : ((h.alloc node).2.see o ⟨t, h.next⟩).refs base a = h.refs base a :=
      refs_alloc hbase node a (hrefs a)
    rw [hsame]
    show Function.update h.rc h.next 0 a = _
    by_cases ha : a = h.next
    · have hzero : h.refs base a = 0 := by
        refine refs_eq_zero ?_
        intro p' n' hle' hlt' hn'
        obtain ⟨n'', hn'', hin⟩ := hh.nodes p' hle' hlt'
        rw [hn'] at hn''
        cases hn''
        unfold Node.refs
        rw [countP_eq_zero]
        intro c hc hrefers
        unfold LvValue.refersTo at hrefers
        rw [Bool.and_eq_true, beq_iff_eq] at hrefers
        have := hin c hc hrefers.1
        omega
      rw [hzero, ha, Function.update_self]
      simp
    · have hn' : h.node a = some n := by
        rw [← hn]
        exact (Function.update_of_ne ha ..).symm
      rw [Function.update_of_ne ha]
      exact hh.counts a n hle (by omega) hn'

/-- Store a value to an empty slot of a new node, and retain it. -/
theorem Rebuilt.store {h : Heap} (hh : Rebuilt g s base h) (hp : base ≤ p ∧ p < h.next)
    (hnode : h.node p = some node) (howned : (f node).owned cls = node.owned cls)
    (hgains : Gains v node (f node)) (hv : v.tag.isRef = true → v.payload < h.next) :
    Rebuilt g s base ((h.modify p f).retain cls v) := by
  have hbuilt : ((h.modify p f).retain cls v).built = h.built := by
    funext o
    unfold Heap.built
    rw [retain_seen]
    rfl
  have hnext : ((h.modify p f).retain cls v).next = h.next := retain_next ..
  have hnodes : ∀ a, ((h.modify p f).retain cls v).node a =
      if a = p then some (f node) else h.node a := by
    intro a
    rw [retain_node]
    show Function.update h.node p ((h.node p).map f) a = _
    by_cases ha : a = p
    · rw [if_pos ha, ha, Function.update_self, hnode]
      rfl
    · rw [if_neg ha, Function.update_of_ne ha]
  refine ⟨?_, ?_, ?_, ?_, ?_, ?_, ?_⟩
  · rw [hbuilt, retain_seen]
    exact hh.holds
  · rw [hnext]
    exact hh.base_le
  · rw [hbuilt, hnext]
    exact hh.target
  · rw [hbuilt]
    exact hh.inj
  · rw [hbuilt, hnext]
    exact hh.onto
  · intro a hle hlt
    rw [hnext] at hlt ⊢
    rw [hnodes]
    by_cases ha : a = p
    · refine ⟨f node, if_pos ha, ?_⟩
      intro c hc href
      rcases hgains.mem c hc with rfl | hold
      · exact hv href
      · obtain ⟨n, hn, hin⟩ := hh.nodes p hp.1 hp.2
        rw [hnode] at hn
        cases hn
        exact hin c hold href
    · rw [if_neg ha]
      exact hh.nodes a hle hlt
  · intro a n hle hlt hn
    rw [hnext] at hlt
    have hsame : ((h.modify p f).retain cls v).refs base a = (h.modify p f).refs base a := by
      unfold Heap.refs
      rw [retain_node, retain_next]
    rw [hsame, refs_modify hp hnode (hgains.refs a), retain_rc]
    -- the node itself, before the store
    obtain ⟨old, hold, hsameOwned⟩ : ∃ old, h.node a = some old ∧ n.owned cls = old.owned cls := by
      rw [hnodes] at hn
      by_cases ha : a = p
      · rw [if_pos ha] at hn
        cases hn
        exact ⟨node, by rw [ha, hnode], howned⟩
      · rw [if_neg ha] at hn
        exact ⟨n, hn, rfl⟩
    have hnow : (h.modify p f).node a = some n := by
      rw [← hn, retain_node]
    have hcount := hh.counts a old hle hlt hold
    show h.rc a + _ = _
    rw [hcount, hnow, hsameOwned]
    show (if old.owned cls = true then _ else 0) +
      (if v.refersTo a = true ∧ n.owned cls = true then 1 else 0) = _
    rw [hsameOwned]
    by_cases ho : old.owned cls = true
    · rw [if_pos ho, if_pos ho]
      simp [ho]
    · rw [if_neg ho, if_neg ho, if_neg (fun h => ho h.2)]

/-! ### What a call of `lv_rebuild` adds -/

/-- What a value of the source has become. -/
def Heap.image (h : Heap) (s : FlatState) (v : LvValue) : LvValue := dec h.built (enc s.off v)

/-- The node a value of the source refers to has been made. -/
def Heap.Has (h : Heap) (s : FlatState) (v : LvValue) : Prop :=
  v.tag.isRef = true → ∃ w, h.built (enc s.off v).payload = some w

/-- The node of the record at `o` has been made and filled. -/
def Done (g : Graph cls) (s : FlatState) (h : Heap) (o : Nat) : Prop :=
  ∃ p node w, s.off p = some o ∧ g.heap p = some node ∧ h.built o = some w ∧
    (∀ c ∈ node.children, h.Has s c) ∧ h.node w.payload = some (node.copy (h.image s))

/-- What is made between two heaps: new nodes that are filled, and of the old nodes only
those of `W` change. -/
structure Builds (g : Graph cls) (s : FlatState) (base : Nat) (W : Nat → Prop) (h h' : Heap) :
    Prop where
  rebuilt : Rebuilt g s base h'
  next : h.next ≤ h'.next
  keeps : ∀ o v, h.built o = some v → h'.built o = some v
  frame : ∀ a, a < h.next → ¬ W a → h'.node a = h.node a
  rc : ∀ a, a < base → h'.rc a = h.rc a
  fresh : ∀ o v, h'.built o = some v → h.built o = some v ∨ (h.next ≤ v.payload ∧ Done g s h' o)

theorem isRef_enc (off : Nat → Option Nat) (v : LvValue) :
    (enc off v).tag.isRef = v.tag.isRef := by
  unfold enc
  by_cases href : v.tag.isRef = true
  · rw [if_pos href]
  · rw [if_neg href]
    by_cases hweak : v.tag = .weakProxy
    · rw [if_pos hweak, hweak]
      rfl
    · rw [if_neg hweak]

theorem Heap.Has.mono {h : Heap} (hkeeps : ∀ o w, h.built o = some w → h'.built o = some w)
    (hv : h.Has s v) : h'.Has s v := by
  intro href
  obtain ⟨w, hw⟩ := hv href
  exact ⟨w, hkeeps _ _ hw⟩

theorem image_congr {h : Heap} (hkeeps : ∀ o w, h.built o = some w → h'.built o = some w)
    (hv : h.Has s v) :
    h'.image s v = h.image s v := by
  unfold Heap.image dec
  by_cases href : v.tag.isRef = true
  · obtain ⟨w, hw⟩ := hv href
    rw [hkeeps _ _ hw, hw]
  · rw [isRef_enc, if_neg href, if_neg href]

/-- What has been made is one of the new nodes. -/
theorem Rebuilt.image_mem {h : Heap} (hh : Rebuilt g s base h) (hv : h.Has s v)
    (href : (h.image s v).tag.isRef = true) :
    base ≤ (h.image s v).payload ∧ (h.image s v).payload < h.next := by
  unfold Heap.image dec at href ⊢
  by_cases hsrc : v.tag.isRef = true
  · obtain ⟨w, hw⟩ := hv hsrc
    rw [isRef_enc, if_pos hsrc, hw]
    exact ⟨(hh.target _ w hw).1, (hh.target _ w hw).2.1⟩
  · rw [isRef_enc, if_neg hsrc, isRef_enc] at href
    exact absurd href hsrc

theorem Done.mono {h : Heap} {o : Nat} (hd : Done g s h o) (hh : Rebuilt g s base h)
    (hb : Builds g s base W h h') (hW : ∀ v, h.built o = some v → ¬ W v.payload) :
    Done g s h' o := by
  obtain ⟨p, node, w, hoff, hnode, hw, hhas, hcopy⟩ := hd
  refine ⟨p, node, w, hoff, hnode, hb.keeps o w hw, ?_, ?_⟩
  · intro c hc
    exact (hhas c hc).mono hb.keeps
  · rw [hb.frame _ (hh.target o w hw).2.1 (hW w hw), hcopy]
    congr 1
    refine (node.copy_congr ?_).symm
    intro c hc
    exact image_congr hb.keeps (hhas c hc)

theorem Builds.refl {h : Heap} (hh : Rebuilt g s base h) (W : Nat → Prop) :
    Builds g s base W h h where
  rebuilt := hh
  next := le_rfl
  keeps := fun _ _ h => h
  frame := fun _ _ _ => rfl
  rc := fun _ _ => rfl
  fresh := fun _ _ h => .inl h

/-- The nodes of `W` are old ones, so what the first part has filled stays. -/
theorem Builds.trans {h h'' : Heap} (hb : Builds g s base W h h') (hb' : Builds g s base W h' h'')
    (hW : ∀ a, W a → a < h.next) :
    Builds g s base W h h'' where
  rebuilt := hb'.rebuilt
  next := hb.next.trans hb'.next
  keeps := fun o v hv => hb'.keeps o v (hb.keeps o v hv)
  frame := by
    intro a ha hout
    have := hb.next
    rw [hb'.frame a (by omega) hout, hb.frame a ha hout]
  rc := by
    intro a ha
    rw [hb'.rc a ha, hb.rc a ha]
  fresh := by
    intro o v hv
    have hnext := hb.next
    rcases hb'.fresh o v hv with hold | ⟨hge, hd⟩
    · rcases hb.fresh o v hold with hold' | ⟨hge, hd⟩
      · exact .inl hold'
      · refine .inr ⟨hge, hd.mono hb.rebuilt hb' ?_⟩
        intro v' hv' hin
        rw [hold] at hv'
        cases hv'
        have := hW _ hin
        omega
    · exact .inr ⟨by omega, hd⟩

theorem Builds.widen {h : Heap} (hb : Builds g s base (fun _ => False) h h') :
    Builds g s base W h h' where
  rebuilt := hb.rebuilt
  next := hb.next
  keeps := hb.keeps
  frame := fun a ha _ => hb.frame a ha (fun h => h)
  rc := hb.rc
  fresh := hb.fresh

/-- A store to a slot of an open node. -/
theorem Rebuilt.builds_store {h : Heap} (hh : Rebuilt g s base h) (hp : base ≤ p ∧ p < h.next)
    (hnode : h.node p = some node) (howned : (f node).owned cls = node.owned cls)
    (hgains : Gains v node (f node))
    (hv : v.tag.isRef = true → base ≤ v.payload ∧ v.payload < h.next) :
    Builds g s base (· = p) h ((h.modify p f).retain cls v) ∧
      ((h.modify p f).retain cls v).node p = some (f node) := by
  have hbuilt : ((h.modify p f).retain cls v).built = h.built := by
    funext o
    unfold Heap.built
    rw [retain_seen]
    rfl
  refine ⟨⟨hh.store hp hnode howned hgains fun href => (hv href).2, ?_, ?_, ?_, ?_, ?_⟩, ?_⟩
  · rw [retain_next]
    exact le_rfl
  · intro o w hw
    rw [hbuilt]
    exact hw
  · intro a _ ha
    rw [retain_node]
    exact Function.update_of_ne ha ..
  · intro a ha
    rw [retain_rc, if_neg]
    · rfl
    · intro hrefers
      have h1 := hrefers.1
      unfold LvValue.refersTo at h1
      rw [Bool.and_eq_true, beq_iff_eq] at h1
      have := (hv h1.1).1
      omega
  · intro o w hw
    rw [hbuilt] at hw
    exact .inl hw
  · rw [retain_node]
    show Function.update h.node p ((h.node p).map f) p = _
    rw [Function.update_self, hnode]
    rfl

/-! ### Loops -/

/-- The records that have not been read. -/
def unbuilt (s : FlatState) (h : Heap) : Nat :=
  ((Finset.range s.size).filter fun o => h.built o = none).card

theorem Builds.unbuilt_lt {h : Heap} {k : Nat} (hb : Builds g s base W h h')
    (hk : unbuilt s h < k) : unbuilt s h' < k := by
  refine lt_of_le_of_lt (Finset.card_le_card ?_) hk
  intro o ho
  rw [Finset.mem_filter] at ho ⊢
  refine ⟨ho.1, ?_⟩
  cases hold : h.built o with
  | none => rfl
  | some v =>
    rw [hb.keeps o v hold] at ho
    cases ho.2

/-- A value of the source that the walks reach. -/
def Known (g : Graph cls) (s : FlatState) (v : LvValue) : Prop :=
  (v.tag.isRef = true → ∃ o, s.off v.payload = some o) ∧ Typed g.heap v

/-- What a call does with fewer than `k` records to go. -/
def Reads (g : Graph cls) (s : FlatState) (base k : Nat)
    (walk : Heap → LvValue → Option (LvValue × Heap)) : Prop :=
  ∀ h v, Rebuilt g s base h → unbuilt s h < k → Known g s v →
    ∃ h', walk h (enc s.off v) = some (h'.image s v, h') ∧
      Builds g s base (fun _ => False) h h' ∧ h'.Has s v

theorem ldFv_of_cellsAt {fv : LvValue} (h : CellsAt data off (fvCells fv ++ rest)) :
    ldFv data off = fv := by
  unfold fvCells at h
  rw [cons_append, cons_append, cellsAt_cons, cellsAt_cons] at h
  unfold ldFv ld
  rw [h.1, h.2.1]
  dsimp only
  rw [Tag.ofCode_code]

variable {walk : Heap → LvValue → Option (LvValue × Heap)} {k : Nat}

/-- A call, then the store of what it answered to the open node `p`. -/
theorem Reads.store (hwalk : Reads g s base k walk) {h : Heap} (f : LvValue → Node → Node)
    (hh : Rebuilt g s base h) (hk : unbuilt s h < k) (hv : Known g s v) (hp : base ≤ p ∧ p < h.next)
    (hnode : h.node p = some node) (howned : ∀ w, (f w node).owned cls = node.owned cls)
    (hgains : ∀ w, Gains w node (f w node)) :
    ∃ h1 h2, walk h (enc s.off v) = some (h2.image s v, h1) ∧
      (h1.modify p (f (h2.image s v))).retain cls (h2.image s v) = h2 ∧
      Builds g s base (· = p) h h2 ∧ h2.Has s v ∧
      h2.node p = some (f (h2.image s v) node) := by
  obtain ⟨h1, hw, hb1, hhas1⟩ := hwalk h v hh hk hv
  have hnode1 : h1.node p = some node := by
    rw [hb1.frame p hp.2 (fun h => h), hnode]
  have hp1 : base ≤ p ∧ p < h1.next := ⟨hp.1, lt_of_lt_of_le hp.2 hb1.next⟩
  obtain ⟨hb2, hnode2⟩ := hb1.rebuilt.builds_store hp1 hnode1 (howned (h1.image s v))
    (hgains (h1.image s v)) (hb1.rebuilt.image_mem hhas1)
  have himage := image_congr hb2.keeps hhas1
  refine ⟨h1, _, ?_, ?_, hb1.widen.trans hb2 ?_, hhas1.mono hb2.keeps, ?_⟩
  · rw [hw, himage]
  · rw [himage]
  · intro a ha
    rw [ha]
    exact hp.2
  · rw [hnode2, himage]

/-- A node whose slots are filled in order: an array, or an object. -/
structure Slotted (cls : Classes) (mk : List LvValue → Node) : Prop where
  set : ∀ i v vs, Node.setSlot i v (mk vs) = mk (vs.set i v)
  children : ∀ vs, (mk vs).children = vs
  owned : ∀ vs vs', (mk vs).owned cls = (mk vs').owned cls

theorem getSlots_spec (hwalk : Reads g s base k walk) {mk : List LvValue → Node}
    (hmk : Slotted cls mk) (off p : Nat) :
    ∀ (vs done : List LvValue) (h : Heap), Rebuilt g s base h → unbuilt s h < k →
      (∀ v ∈ vs, Known g s v) →
      CellsAt s.data (off + done.length * 16) (vs.flatMap fun v => fvCells (enc s.off v)) →
      base ≤ p ∧ p < h.next → h.node p = some (mk (done ++ List.replicate vs.length .void)) →
      ∃ h', getSlots cls s.data walk off p done.length vs.length h = some h' ∧
        Builds g s base (· = p) h h' ∧ (∀ v ∈ vs, h'.Has s v) ∧
        h'.node p = some (mk (done ++ vs.map (h'.image s))) := by
  intro vs
  induction vs with
  | nil =>
    intro done h hh _ _ _ _ hnode
    refine ⟨h, rfl, Builds.refl hh _, ?_, hnode⟩
    intro v hv
    cases hv
  | cons v vs ih =>
    intro done h hh hk hknown hcells hp hnode
    rw [flatMap_cons] at hcells
    rw [length_cons] at hnode ⊢
    -- the store replaces an empty slot
    have hset : ∀ w, Node.setSlot done.length w
        (mk (done ++ List.replicate (vs.length + 1) .void)) =
        mk ((done ++ [w]) ++ List.replicate vs.length .void) := by
      intro w
      rw [hmk.set, set_append_right _ _ le_rfl, Nat.sub_self, replicate_succ,
        set_cons_zero, append_assoc]
      rfl
    obtain ⟨h1, h2, hw, hh2, hb, hhas, hnode2⟩ := hwalk.store (Node.setSlot done.length) hh hk
      (hknown v mem_cons_self) hp hnode
      (by
        intro w
        rw [hset]
        exact hmk.owned _ _)
      (by
        intro w
        rw [hset]
        refine ⟨done ++ List.replicate vs.length .void, ?_, .inl ?_⟩
        · rw [hmk.children, append_assoc]
          exact perm_middle
        · rw [hmk.children, replicate_succ]
          exact perm_middle)
    rw [hset] at hnode2
    have hlen : (done ++ [h2.image s v]).length = done.length + 1 := length_append ..
    have hoff : off + (done ++ [h2.image s v]).length * 16 = off + done.length * 16 + 16 := by
      rw [hlen]
      omega
    obtain ⟨h', hget, hb', hhas', hnode'⟩ := ih (done ++ [h2.image s v]) h2 hb.rebuilt
      (hb.unbuilt_lt hk) (fun w hw => hknown w (mem_cons_of_mem _ hw))
      (by rw [hoff]; exact (cellsAt_append.mp hcells).2)
      ⟨hp.1, lt_of_lt_of_le hp.2 hb.next⟩ hnode2
    refine ⟨h', ?_, hb.trans hb' (fun a ha => ha ▸ hp.2), ?_, ?_⟩
    · unfold getSlots
      rw [ldFv_of_cellsAt hcells, hw]
      dsimp only
      rw [hh2, ← hlen]
      exact hget
    · intro w hw
      rcases List.mem_cons.mp hw with rfl | hw
      · exact hhas.mono hb'.keeps
      · exact hhas' w hw
    · rw [hnode', map_cons, image_congr hb'.keeps hhas, append_assoc]
      rfl

/-- A node whose dynamic fields or captures are entered in front, each under a new key. -/
structure Keyed (cls : Classes) (keep : List LvValue) (key : Nat → Prop)
    (mk : List (Nat × LvValue) → Node) : Prop where
  set : ∀ k v es, key k → (mk es).setDyn cls k v = mk (dynSet es k v)
  children : ∀ es, (mk es).children = keep ++ es.map Prod.snd
  owned : ∀ es es', (mk es).owned cls = (mk es').owned cls

theorem dynSet_new {es : List (Nat × LvValue)} {key : Nat} (h : key ∉ es.map Prod.fst)
    (v : LvValue) : dynSet es key v = (key, v) :: es := by
  unfold dynSet
  rw [if_neg]
  intro hany
  obtain ⟨e, he, heq⟩ := List.any_eq_true.mp hany
  exact h (List.mem_map.mpr ⟨e, he, of_decide_eq_true heq⟩)

theorem getPairs_spec (hwalk : Reads g s base k walk) {keep : List LvValue} {key : Nat → Prop}
    {mk : List (Nat × LvValue) → Node} (hmk : Keyed cls keep key mk) (off p : Nat) :
    ∀ (es done : List (Nat × LvValue)) (h : Heap), Rebuilt g s base h → unbuilt s h < k →
      (∀ v ∈ es.map Prod.snd, Known g s v) → (∀ e ∈ es, key e.1) →
      ((es.map Prod.fst) ++ done.map Prod.fst).Nodup →
      CellsAt s.data (off + done.length * 24) (es.flatMap (pairCells (enc s.off))) →
      base ≤ p ∧ p < h.next → h.node p = some (mk done) →
      ∃ h', getPairs cls s.data walk off p done.length es.length h = some h' ∧
        Builds g s base (· = p) h h' ∧ (∀ v ∈ es.map Prod.snd, h'.Has s v) ∧
        h'.node p = some (mk ((es.map fun e => (e.1, h'.image s e.2)).reverse ++ done)) := by
  intro es
  induction es with
  | nil =>
    intro done h hh _ _ _ _ _ _ hnode
    refine ⟨h, rfl, Builds.refl hh _, ?_, hnode⟩
    intro v hv
    cases hv
  | cons e es ih =>
    obtain ⟨key', v⟩ := e
    intro done h hh hk hknown hkey hnodup hcells hp hnode
    rw [flatMap_cons] at hcells
    rw [map_cons, cons_append, nodup_cons] at hnodup
    have hnew : key' ∉ done.map Prod.fst := fun h => hnodup.1 (mem_append_right _ h)
    have hset : ∀ w, (mk done).setDyn cls key' w = mk ((key', w) :: done) := by
      intro w
      rw [hmk.set key' w done (hkey _ mem_cons_self), dynSet_new hnew]
    obtain ⟨h1, h2, hw, hh2, hb, hhas, hnode2⟩ := hwalk.store (Node.setDyn cls key') hh hk
      (hknown v mem_cons_self) hp hnode
      (by
        intro w
        rw [hset]
        exact hmk.owned _ _)
      (by
        intro w
        rw [hset]
        refine ⟨keep ++ done.map Prod.snd, ?_, .inr ?_⟩
        · rw [hmk.children]
          exact perm_middle
        · rw [hmk.children])
    rw [hset] at hnode2
    have hcells' : CellsAt s.data (off + done.length * 24)
        (.word key' :: (fvCells (enc s.off v) ++ es.flatMap (pairCells (enc s.off)))) := hcells
    obtain ⟨hword, hfv⟩ := cellsAt_cons.mp hcells'
    have hnodup' : (es.map Prod.fst ++ ((key', h2.image s v) :: done).map Prod.fst).Nodup := by
      rw [map_cons]
      exact (List.perm_middle.nodup_iff).mpr (List.nodup_cons.mpr hnodup)
    have hoff : off + ((key', h2.image s v) :: done).length * 24 =
        off + done.length * 24 + 8 + 8 * (fvCells (enc s.off v)).length := by
      show off + (done.length + 1) * 24 = off + done.length * 24 + 8 + 8 * 2
      omega
    obtain ⟨h', hget, hb', hhas', hnode'⟩ := ih ((key', h2.image s v) :: done) h2 hb.rebuilt
      (hb.unbuilt_lt hk) (fun w hw => hknown w (mem_cons_of_mem _ hw))
      (fun e he => hkey e (mem_cons_of_mem _ he)) hnodup'
      (by rw [hoff]; exact (cellsAt_append.mp hfv).2)
      ⟨hp.1, lt_of_lt_of_le hp.2 hb.next⟩ hnode2
    refine ⟨h', ?_, hb.trans hb' (fun a ha => ha ▸ hp.2), ?_, ?_⟩
    · rw [length_cons]
      unfold getPairs
      have hld : ld s.data (off + done.length * 24) = key' := by
        unfold ld
        rw [hword]
      rw [ldFv_of_cellsAt hfv, hw]
      dsimp only
      rw [hld, hh2]
      exact hget
    · intro w hw
      rcases List.mem_cons.mp hw with rfl | hw
      · exact hhas.mono hb'.keeps
      · exact hhas' w hw
    · rw [hnode', map_cons, image_congr hb'.keeps hhas, reverse_cons,
        append_assoc]
      rfl

theorem modify_middle {α : Type} (as bs : List α) (a : α) (f : α → α) :
    (as ++ a :: bs).modify as.length f = as ++ f a :: bs := by
  rw [modify_eq_take_drop, take_left, drop_left]
  rfl

theorem children_map_middle (as bs : List (LvValue × LvValue)) (e : LvValue × LvValue) :
    (Node.map (as ++ e :: bs)).children =
      (Node.map as).children ++ e.1 :: e.2 :: (Node.map bs).children := by
  show (as ++ e :: bs).flatMap (fun e => [e.1, e.2]) = _
  rw [flatMap_append, flatMap_cons]
  rfl

theorem getEntries_spec (hwalk : Reads g s base k walk) (off p : Nat) :
    ∀ (es done : List (LvValue × LvValue)) (h : Heap), Rebuilt g s base h → unbuilt s h < k →
      (∀ v ∈ (Node.map es).children, Known g s v) →
      CellsAt s.data (off + done.length * 32) (es.flatMap (entryCells (enc s.off))) →
      base ≤ p ∧ p < h.next →
      h.node p = some (.map (done ++ List.replicate es.length (.void, .void))) →
      ∃ h', getEntries cls s.data walk off p done.length es.length h = some h' ∧
        Builds g s base (· = p) h h' ∧ (∀ v ∈ (Node.map es).children, h'.Has s v) ∧
        h'.node p = some (.map (done ++ es.map fun e => (h'.image s e.1, h'.image s e.2))) := by
  intro es
  induction es with
  | nil =>
    intro done h hh _ _ _ _ hnode
    refine ⟨h, rfl, Builds.refl hh _, ?_, hnode⟩
    intro v hv
    cases hv
  | cons e es ih =>
    obtain ⟨key, v⟩ := e
    intro done h hh hk hknown hcells hp hnode
    have hknown' : ∀ c ∈ key :: v :: (Node.map es).children, Known g s c := hknown
    rw [flatMap_cons] at hcells
    rw [length_cons, replicate_succ] at hnode
    have hkf : CellsAt s.data (off + done.length * 32) (fvCells (enc s.off key) ++
        (fvCells (enc s.off v) ++ es.flatMap (entryCells (enc s.off)))) := hcells
    have hvf : CellsAt s.data (off + done.length * 32 + 16)
        (fvCells (enc s.off v) ++ es.flatMap (entryCells (enc s.off))) :=
      (cellsAt_append.mp hkf).2
    let empty := List.replicate es.length (LvValue.void, LvValue.void)
    have hsetKey : ∀ w, Node.setKey done.length w (.map (done ++ (.void, .void) :: empty)) =
        .map (done ++ (w, .void) :: empty) := by
      intro w
      show Node.map _ = _
      rw [modify_middle]
    have hsetVal : ∀ w w', Node.setVal done.length w (.map (done ++ (w', .void) :: empty)) =
        .map (done ++ (w', w) :: empty) := by
      intro w w'
      show Node.map _ = _
      rw [modify_middle]
    obtain ⟨h1, h2, hw, hh2, hb, hhas, hnode2⟩ := hwalk.store (Node.setKey done.length) hh hk
      (hknown' key mem_cons_self) hp hnode
      (by
        intro w
        rw [hsetKey]
        rfl)
      (by
        intro w
        rw [hsetKey]
        refine ⟨(Node.map done).children ++ .void :: (Node.map empty).children, ?_, .inl ?_⟩
        · rw [children_map_middle]
          exact perm_middle
        · rw [children_map_middle]
          exact perm_middle)
    rw [hsetKey] at hnode2
    have hp2 : base ≤ p ∧ p < h2.next := ⟨hp.1, lt_of_lt_of_le hp.2 hb.next⟩
    obtain ⟨h3, h4, hw', hh4, hb', hhas', hnode4⟩ := hwalk.store (Node.setVal done.length)
      hb.rebuilt (hb.unbuilt_lt hk) (hknown' v (by simp)) hp2 hnode2
      (by
        intro w
        rw [hsetVal]
        rfl)
      (by
        intro w
        rw [hsetVal]
        refine ⟨(Node.map done).children ++ h2.image s key :: (Node.map empty).children, ?_,
          .inl ?_⟩
        · rw [children_map_middle, ← singleton_append (l := w :: _), ← append_assoc]
          refine List.perm_middle.trans ?_
          rw [append_assoc]
          rfl
        · rw [children_map_middle, ← singleton_append (l := LvValue.void :: _),
            ← append_assoc]
          refine List.perm_middle.trans ?_
          rw [append_assoc]
          rfl)
    rw [hsetVal] at hnode4
    have hb24 := hb.trans hb' (fun a ha => ha ▸ hp.2)
    have hlen : (done ++ [(h2.image s key, h4.image s v)]).length = done.length + 1 :=
      length_append ..
    have hoff : off + (done ++ [(h2.image s key, h4.image s v)]).length * 32 =
        off + done.length * 32 + 16 + 16 := by
      rw [hlen]
      omega
    obtain ⟨h', hget, hb'', hhas'', hnode'⟩ := ih (done ++ [(h2.image s key, h4.image s v)]) h4
      hb'.rebuilt (hb24.unbuilt_lt hk)
      (fun w hw => hknown' w (mem_cons_of_mem _ (mem_cons_of_mem _ hw)))
      (by rw [hoff]; exact (cellsAt_append.mp hvf).2)
      ⟨hp.1, lt_of_lt_of_le hp.2 hb24.next⟩ (by rw [hnode4, append_assoc]; rfl)
    have hkeeps : ∀ o w, h2.built o = some w → h'.built o = some w := fun o w hw =>
      hb''.keeps o w (hb'.keeps o w hw)
    refine ⟨h', ?_, hb24.trans hb'' (fun a ha => ha ▸ hp.2), ?_, ?_⟩
    · rw [length_cons]
      unfold getEntries
      rw [ldFv_of_cellsAt hkf, hw]
      dsimp only
      rw [hh2, ldFv_of_cellsAt hvf, hw']
      dsimp only
      rw [hh4, ← hlen]
      exact hget
    · intro w hw
      have hw'' : w ∈ key :: v :: (Node.map es).children := hw
      rcases List.mem_cons.mp hw'' with rfl | hw''
      · exact hhas.mono hkeeps
      · rcases List.mem_cons.mp hw'' with rfl | hw''
        · exact hhas'.mono hb''.keeps
        · exact hhas'' w hw''
    · rw [hnode', map_cons, image_congr hkeeps hhas, image_congr hb''.keeps hhas',
        append_assoc]
      rfl

/-! ### Records -/

/-- A new node for the record at `o`. -/
def Heap.make (h : Heap) (o : Nat) (node : Node) (t : Tag) : Heap :=
  (h.alloc node).2.see o ⟨t, h.next⟩

theorem Heap.alloc_see (h : Heap) (o : Nat) (node : Node) (t : Tag) :
    (h.alloc node).2.see o ⟨t, (h.alloc node).1⟩ = h.make o node t := rfl

theorem Heap.alloc_fst (h : Heap) (node : Node) : (h.alloc node).1 = h.next := rfl

theorem unbuilt_make {h : Heap} (hh : Rebuilt g s base h) {o : Nat} (hnew : h.built o = none)
    (ho : o < s.size) (node : Node) (t : Tag) : unbuilt s (h.make o node t) < unbuilt s h := by
  have hbuilt : ∀ o' v, (h.make o node t).built o' = some v ↔
      h.built o' = some v ∨ (o' = o ∧ v = ⟨t, h.next⟩) := fun _ _ =>
    (built_make hh hnew node t).get_iff
  refine Finset.card_lt_card ?_
  rw [Finset.ssubset_iff_of_subset]
  · refine ⟨o, Finset.mem_filter.mpr ⟨Finset.mem_range.mpr ho, hnew⟩, ?_⟩
    intro hmem
    have hnone := (Finset.mem_filter.mp hmem).2
    rw [(hbuilt o _).mpr (.inr ⟨rfl, rfl⟩)] at hnone
    cases hnone
  · intro o' ho'
    rw [Finset.mem_filter] at ho' ⊢
    refine ⟨ho'.1, ?_⟩
    cases hold : h.built o' with
    | none => rfl
    | some v =>
      rw [(hbuilt o' v).mpr (.inl hold)] at ho'
      cases ho'.2

/-- A node that has been made and filled is done, and so is all that was made meanwhile. -/
theorem Rebuilt.close {h : Heap} {o : Nat} {src : Node} (hh : Rebuilt g s base h)
    (hnew : h.built o = none) (hoff : s.off p = some o) (hsrc : g.heap p = some src)
    (hb : Builds g s base (· = h.next) (h.make o node src.tag) h')
    (hhas : ∀ c ∈ src.children, h'.Has s c)
    (hcopy : h'.node h.next = some (src.copy (h'.image s))) :
    Builds g s base (fun _ => False) h h' ∧ h'.built o = some ⟨src.tag, h.next⟩ := by
  have hbuilt : ∀ o' v, (h.make o node src.tag).built o' = some v ↔
      h.built o' = some v ∨ (o' = o ∧ v = ⟨src.tag, h.next⟩) := fun _ _ =>
    (built_make hh hnew node src.tag).get_iff
  have hknown : h'.built o = some ⟨src.tag, h.next⟩ :=
    hb.keeps _ _ ((hbuilt o _).mpr (.inr ⟨rfl, rfl⟩))
  have hnext : h.next + 1 ≤ h'.next := hb.next
  refine ⟨⟨hb.rebuilt, by omega, ?_, ?_, ?_, ?_⟩, hknown⟩
  · intro o' v hv
    exact hb.keeps o' v ((hbuilt o' v).mpr (.inl hv))
  · intro a ha _
    have hne : a ≠ h.next := by omega
    rw [hb.frame a (by show a < h.next + 1; omega) hne]
    exact Function.update_of_ne hne ..
  · intro a ha
    have hne : a ≠ h.next := by
      have := hh.base_le
      omega
    rw [hb.rc a ha]
    exact Function.update_of_ne hne ..
  · intro o' v hv
    rcases hb.fresh o' v hv with hold | ⟨hge, hd⟩
    · rcases (hbuilt o' v).mp hold with hold' | ⟨ho, hv'⟩
      · exact .inl hold'
      · refine .inr ⟨by rw [hv'], p, src, v, by rw [ho]; exact hoff, hsrc, hv, hhas, ?_⟩
        rw [hv']
        exact hcopy
    · have hge' : h.next + 1 ≤ v.payload := hge
      exact .inr ⟨by omega, hd⟩

theorem flatMap_chunks (data : List UInt8) : ∀ n,
    ((List.range n).flatMap fun i => (data.drop (8 * i)).take 8) = data.take (8 * n) := by
  intro n
  induction n with
  | zero => simp
  | succ n ih =>
    rw [range_succ, flatMap_append, ih, flatMap_singleton, Nat.mul_succ,
      take_add]

/-- A copied block is read back. -/
theorem ldBytes_of_cellsAt {bytes : List UInt8} (h : CellsAt data off (byteCells bytes)) :
    ldBytes data off bytes.length = bytes := by
  have hcell : ∀ i ∈ List.range ((bytes.length + 7) / 8),
      data (off + 8 * i) = .bytes ((bytes.drop (8 * i)).take 8) := by
    intro i hi
    refine h i _ ?_
    unfold byteCells
    rw [getElem?_map, getElem?_range (List.mem_range.mp hi)]
    rfl
  have hchunks : ldBytes data off bytes.length =
      ((List.range ((bytes.length + 7) / 8)).flatMap fun i =>
        (bytes.drop (8 * i)).take 8).take bytes.length := by
    unfold ldBytes
    congr 1
    refine flatMap_congr ?_
    intro i hi
    rw [hcell i hi]
  rw [hchunks, flatMap_chunks, take_of_length_le (l := bytes) (by omega), take_length]

theorem ld_of_cellsAt {w : Nat} (h : CellsAt data off (.word w :: rest)) : ld data off = w := by
  unfold ld
  rw [(cellsAt_cons.mp h).1]

theorem slotted_arr (cls : Classes) : Slotted cls Node.arr :=
  ⟨fun _ _ _ => rfl, fun _ => rfl, fun _ _ => rfl⟩

theorem slotted_obj (cls : Classes) (classId : Nat) :
    Slotted cls fun slots => Node.obj classId slots [] :=
  ⟨fun _ _ _ => rfl, fun _ => append_nil _, fun _ _ => rfl⟩

theorem keyed_clo (cls : Classes) (fnIndex : Nat) :
    Keyed cls [] (fun _ => True) (Node.clo fnIndex) :=
  ⟨fun _ _ _ _ => rfl, fun _ => rfl, fun _ _ => rfl⟩

theorem keyed_obj (cls : Classes) (classId : Nat) (slots : List LvValue) :
    Keyed cls slots (fun key => cls.fieldIndex classId key = none) (Node.obj classId slots) := by
  refine ⟨?_, fun _ => rfl, fun _ _ => rfl⟩
  intro key v es hkey
  unfold Node.setDyn
  dsimp only
  rw [hkey]

/-- A record of the buffer that has not been read, with fewer than `k` to go after it. -/
structure Unread (g : Graph cls) (s : FlatState) (base k : Nat) (h : Heap) (o : Nat) (src : Node) :
    Prop where
  rebuilt : Rebuilt g s base h
  isNew : h.built o = none
  few : unbuilt s h < k + 1
  lt_size : o < s.size
  source : ∃ p, s.off p = some o ∧ g.heap p = some src
  cells : CellsAt s.data o (src.cells cls (enc s.off))
  known : ∀ c ∈ src.children, Known g s c

/-- The record is read: its node is made at the next address. -/
def ReadTo (g : Graph cls) (s : FlatState) (base : Nat) (h : Heap) (o : Nat) (src : Node)
    (r : Option (LvValue × Heap)) : Prop :=
  ∃ h', r = some (⟨src.tag, h.next⟩, h') ∧ Builds g s base (fun _ => False) h h' ∧
    h'.built o = some ⟨src.tag, h.next⟩

namespace Unread

variable {h : Heap} {o : Nat} {src : Node}

section
variable (hu : Unread g s base k h o src)
include hu

theorem formed : src.Formed cls := by
  obtain ⟨p, _, hsrc⟩ := hu.source
  exact g.formed p src hsrc

theorem make (hempty : ∀ c ∈ node.children, c.tag.isRef = false) :
    Rebuilt g s base (h.make o node src.tag) := by
  obtain ⟨p, hoff, hsrc⟩ := hu.source
  exact hu.rebuilt.make hu.isNew hoff hsrc rfl hempty

theorem fewer (node : Node) : unbuilt s (h.make o node src.tag) < k := by
  have := unbuilt_make hu.rebuilt hu.isNew hu.lt_size node src.tag
  have := hu.few
  omega

theorem self_mem : base ≤ h.next ∧ h.next < h.next + 1 :=
  ⟨hu.rebuilt.base_le, Nat.lt_succ_self _⟩

/-- The node is made, and `r` has filled it. -/
theorem close {r : Option (LvValue × Heap)} (hr : r = some (⟨src.tag, h.next⟩, h'))
    (hb : Builds g s base (· = h.next) (h.make o node src.tag) h')
    (hhas : ∀ c ∈ src.children, h'.Has s c)
    (hcopy : h'.node h.next = some (src.copy (h'.image s))) : ReadTo g s base h o src r := by
  obtain ⟨p, hoff, hsrc⟩ := hu.source
  exact ⟨h', hr, hu.rebuilt.close hu.isNew hoff hsrc hb hhas hcopy⟩

/-- A packed node is complete when it is made. -/
theorem close_packed {r : Option (LvValue × Heap)}
    (hr : r = some (⟨src.tag, h.next⟩, h.make o src src.tag)) (hnil : src.children = [])
    (hcopy : ∀ f, src.copy f = src) : ReadTo g s base h o src r := by
  refine hu.close hr (Builds.refl (hu.make ?_) _) ?_ ?_
  · intro c hc
    rw [hnil] at hc
    cases hc
  · intro c hc
    rw [hnil] at hc
    cases hc
  · rw [hcopy]
    exact Function.update_self ..

end

end Unread

theorem isRef_of_mem_replicate {n : Nat} {c : LvValue} (hc : c ∈ List.replicate n LvValue.void) :
    c.tag.isRef = false := by
  rw [(List.mem_replicate.mp hc).2]
  rfl

theorem tag_of_cellsAt {t : Tag} (h : CellsAt data off (.word t.code :: rest)) :
    Tag.ofCode (ld data off) = t := by
  rw [ld_of_cellsAt h, Tag.ofCode_code]

variable {h : Heap} {o : Nat}

theorem getNode_str {bytes : List UInt8} (hu : Unread g s base k h o (.str bytes)) :
    ReadTo g s base h o (.str bytes) (getNode cls s.data walk o h) := by
  have htag := tag_of_cellsAt hu.cells
  have hcells := (cellsAt_cons.mp (cellsAt_cons.mp hu.cells).2).2
  have hlen : ld s.data (o + 16) = bytes.length := ld_of_cellsAt hcells
  have hbytes : ldBytes s.data (o + 24) bytes.length = bytes :=
    ldBytes_of_cellsAt (cellsAt_cons.mp hcells).2
  refine hu.close_packed ?_ rfl (fun _ => rfl)
  unfold getNode
  rw [htag]
  dsimp only
  rw [hlen, hbytes]
  rfl

theorem getNode_dense {recBytes len : Nat} {data : List UInt8}
    (hu : Unread g s base k h o (.dense recBytes len data)) :
    ReadTo g s base h o (.dense recBytes len data) (getNode cls s.data walk o h) := by
  have htag := tag_of_cellsAt hu.cells
  obtain ⟨hdata, hlt⟩ : data.length = len * recBytes ∧ len < columnBit := hu.formed
  have hcells := (cellsAt_cons.mp (cellsAt_cons.mp hu.cells).2).2
  have hlen : ld s.data (o + 16) = len + denseBit := ld_of_cellsAt hcells
  have hcells' := (cellsAt_cons.mp hcells).2
  have hrec : ld s.data (o + 24) = recBytes := ld_of_cellsAt hcells'
  have hbytes : ldBytes s.data (o + 32) (len * recBytes) = data := by
    rw [← hdata]
    exact ldBytes_of_cellsAt (cellsAt_cons.mp hcells').2
  unfold columnBit at hlt
  refine hu.close_packed ?_ rfl (fun _ => rfl)
  unfold getNode
  rw [htag]
  dsimp only
  rw [hlen, hrec, if_neg (by unfold denseBit columnBit; omega), if_pos (by omega)]
  have hmod : (len + denseBit) % denseBit = len := by
    unfold denseBit
    omega
  rw [hmod, hbytes]
  rfl

theorem getNode_columnar {classId len : Nat} {data : List UInt8}
    (hu : Unread g s base k h o (.columnar classId len data)) :
    ReadTo g s base h o (.columnar classId len data) (getNode cls s.data walk o h) := by
  have htag := tag_of_cellsAt hu.cells
  obtain ⟨hdata, hlt⟩ : data.length = cls.fieldCount classId * 8 * len ∧ len < columnBit :=
    hu.formed
  have hcells := (cellsAt_cons.mp (cellsAt_cons.mp hu.cells).2).2
  have hlen : ld s.data (o + 16) = len + denseBit + columnBit := ld_of_cellsAt hcells
  have hcells' := (cellsAt_cons.mp hcells).2
  have hclass : ld s.data (o + 24) = classId := ld_of_cellsAt hcells'
  have hbytes : ldBytes s.data (o + 32) (cls.fieldCount classId * 8 * len) = data := by
    rw [← hdata]
    exact ldBytes_of_cellsAt (cellsAt_cons.mp hcells').2
  unfold columnBit at hlt
  refine hu.close_packed ?_ rfl (fun _ => rfl)
  unfold getNode
  rw [htag]
  dsimp only
  rw [hlen, hclass, if_pos (by unfold denseBit columnBit; omega)]
  have hmod : (len + denseBit + columnBit) % columnBit = len := by
    unfold denseBit columnBit
    omega
  rw [hmod, hbytes]
  rfl

section
variable (hwalk : Reads g s base k walk)
include hwalk

theorem getNode_arr {elems : List LvValue} (hu : Unread g s base k h o (.arr elems)) :
    ReadTo g s base h o (.arr elems) (getNode cls s.data walk o h) := by
  have htag := tag_of_cellsAt hu.cells
  have hlt : elems.length < denseBit := hu.formed
  have hcells := (cellsAt_cons.mp (cellsAt_cons.mp hu.cells).2).2
  have hlen : ld s.data (o + 16) = elems.length := ld_of_cellsAt hcells
  have hempty : ∀ c ∈ (Node.arr (List.replicate elems.length .void)).children,
      c.tag.isRef = false := fun _ hc => isRef_of_mem_replicate hc
  obtain ⟨h', hget, hb, hhas, hnode⟩ := getSlots_spec hwalk (slotted_arr cls) (o + 24) h.next
    elems [] _ (hu.make hempty) (hu.fewer _) hu.known
    (cellsAt_cons.mp hcells).2 hu.self_mem (Function.update_self ..)
  refine hu.close ?_ hb hhas hnode
  unfold getNode
  rw [htag]
  dsimp only
  rw [hlen, if_neg (by omega), if_neg (by omega)]
  rw [length_nil, Node.tag] at hget
  rw [Heap.alloc_see, Heap.alloc_fst, hget]
  rfl

theorem getNode_map {entries : List (LvValue × LvValue)}
    (hu : Unread g s base k h o (.map entries)) :
    ReadTo g s base h o (.map entries) (getNode cls s.data walk o h) := by
  have htag := tag_of_cellsAt hu.cells
  have hcells := (cellsAt_cons.mp (cellsAt_cons.mp hu.cells).2).2
  have hlen : ld s.data (o + 16) = entries.length := ld_of_cellsAt hcells
  have hempty : ∀ c ∈ (Node.map (List.replicate entries.length (.void, .void))).children,
      c.tag.isRef = false := by
    intro c hc
    obtain ⟨e, he, hce⟩ := List.mem_flatMap.mp hc
    rw [(List.mem_replicate.mp he).2] at hce
    have hvoid : c = .void := by simpa using hce
    rw [hvoid]
    rfl
  obtain ⟨h', hget, hb, hhas, hnode⟩ := getEntries_spec hwalk (o + 24) h.next entries [] _
    (hu.make hempty) (hu.fewer _) hu.known (cellsAt_cons.mp hcells).2 hu.self_mem
    (Function.update_self ..)
  refine hu.close ?_ hb hhas hnode
  unfold getNode
  rw [htag]
  dsimp only
  rw [hlen]
  rw [length_nil, Node.tag] at hget
  rw [Heap.alloc_see, Heap.alloc_fst, hget]
  rfl

theorem getNode_clo {fnIndex : Nat} {captures : List (Nat × LvValue)}
    (hu : Unread g s base k h o (.clo fnIndex captures)) :
    ReadTo g s base h o (.clo fnIndex captures) (getNode cls s.data walk o h) := by
  have htag := tag_of_cellsAt hu.cells
  have hnodup : (captures.map Prod.fst).Nodup := hu.formed
  have hcells := (cellsAt_cons.mp (cellsAt_cons.mp hu.cells).2).2
  have hfn : ld s.data (o + 16) = fnIndex := ld_of_cellsAt hcells
  have hcells' := (cellsAt_cons.mp hcells).2
  have hlen : ld s.data (o + 24) = captures.length := ld_of_cellsAt hcells'
  obtain ⟨h', hget, hb, hhas, hnode⟩ := getPairs_spec hwalk (keyed_clo cls fnIndex) (o + 32) h.next
    captures [] _ (hu.make fun _ hc => by cases hc) (hu.fewer _) hu.known (fun _ _ => trivial)
    (by rw [map_nil, append_nil]; exact hnodup) (cellsAt_cons.mp hcells').2 hu.self_mem
    (Function.update_self ..)
  rw [append_nil] at hnode
  refine hu.close ?_ hb hhas hnode
  unfold getNode
  rw [htag]
  dsimp only
  rw [hfn, hlen]
  rw [length_nil, Node.tag] at hget
  rw [Heap.alloc_see, Heap.alloc_fst, hget]
  rfl

theorem getNode_obj {classId : Nat} {slots : List LvValue} {dyn : List (Nat × LvValue)}
    (hu : Unread g s base k h o (.obj classId slots dyn)) :
    ReadTo g s base h o (.obj classId slots dyn) (getNode cls s.data walk o h) := by
  have htag := tag_of_cellsAt hu.cells
  obtain ⟨hslots, hnodup, hundeclared⟩ : slots.length = cls.fieldCount classId ∧
      (dyn.map Prod.fst).Nodup ∧ ∀ e ∈ dyn, cls.fieldIndex classId e.1 = none := hu.formed
  have hcells := (cellsAt_cons.mp (cellsAt_cons.mp hu.cells).2).2
  have hclass : ld s.data (o + 16) = classId := ld_of_cellsAt hcells
  have hcells' := (cellsAt_cons.mp hcells).2
  have hcount : ld s.data (o + 24) = slots.length := by
    rw [hslots]
    exact ld_of_cellsAt hcells'
  have hfields : CellsAt s.data (o + 32) (slots.flatMap (fun v => fvCells (enc s.off v)) ++
      (.word dyn.length :: dyn.flatMap (pairCells (enc s.off)))) := (cellsAt_cons.mp hcells').2
  obtain ⟨hslotCells, hrest⟩ := cellsAt_append.mp hfields
  have hbytes : 8 * (slots.flatMap fun v => fvCells (enc s.off v)).length = slots.length * 16 :=
    (cellsOf_slots slots).length (enc s.off)
  rw [hbytes] at hrest
  have hdynLen : ld s.data (o + 32 + slots.length * 16) = dyn.length := ld_of_cellsAt hrest
  have hdynCells := (cellsAt_cons.mp hrest).2
  have hempty : ∀ c ∈ (Node.obj classId (List.replicate slots.length .void) []).children,
      c.tag.isRef = false := by
    intro c hc
    rcases List.mem_append.mp hc with hc | hc
    · exact isRef_of_mem_replicate hc
    · cases hc
  obtain ⟨h1, hget1, hb1, hhas1, hnode1⟩ := getSlots_spec hwalk (slotted_obj cls classId) (o + 32)
    h.next slots [] _ (hu.make hempty) (hu.fewer _) (fun v hv => hu.known v (mem_append_left _ hv)) hslotCells hu.self_mem
    (Function.update_self ..)
  rw [nil_append] at hnode1
  obtain ⟨h2, hget2, hb2, hhas2, hnode2⟩ := getPairs_spec hwalk
    (keyed_obj cls classId (slots.map (h1.image s))) (o + 32 + slots.length * 16 + 8) h.next
    dyn [] h1 hb1.rebuilt (hb1.unbuilt_lt (hu.fewer _))
    (fun v hv => hu.known v (mem_append_right _ hv)) hundeclared
    (by rw [map_nil, append_nil]; exact hnodup) hdynCells
    ⟨hu.rebuilt.base_le, lt_of_lt_of_le (Nat.lt_succ_self _) hb1.next⟩ hnode1
  rw [append_nil] at hnode2
  have hb12 := hb1.trans hb2 (by
    intro a ha
    rw [ha]
    exact Nat.lt_succ_self _)
  refine hu.close ?_ hb12 ?_ ?_
  · unfold getNode
    rw [htag]
    dsimp only
    rw [hclass, hcount, ← hslots, hdynLen]
    rw [length_nil, Node.tag] at hget1
    rw [length_nil] at hget2
    rw [Heap.alloc_see, Heap.alloc_fst, hget1]
    dsimp only
    rw [hget2]
    rfl
  · intro c hc
    rcases List.mem_append.mp hc with hc | hc
    · exact (hhas1 c hc).mono hb2.keeps
    · exact hhas2 c hc
  · rw [hnode2]
    have himages : slots.map (h2.image s) = slots.map (h1.image s) := by
      refine map_congr_left ?_
      intro v hv
      exact image_congr hb2.keeps (hhas1 v hv)
    show _ = some (Node.obj _ (slots.map (h2.image s)) _)
    rw [himages]

/-- The record of a node is read back. -/
theorem getNode_spec {src : Node} (hu : Unread g s base k h o src) (hblock : src ≠ .block) :
    ReadTo g s base h o src (getNode cls s.data walk o h) := by
  cases src with
  | str bytes => exact getNode_str hu
  | obj classId slots dyn => exact getNode_obj hwalk hu
  | arr elems => exact getNode_arr hwalk hu
  | dense recBytes len data => exact getNode_dense hu
  | columnar classId len data => exact getNode_columnar hu
  | map entries => exact getNode_map hwalk hu
  | clo fnIndex captures => exact getNode_clo hwalk hu
  | block => exact absurd rfl hblock

end

/-! ### The whole walk -/

theorem rebuild_ref (buf : Nat → Cell) (fuel : Nat) (h : Heap) {fv : LvValue}
    (href : fv.tag.isRef = true) :
    rebuild cls buf (fuel + 1) h fv =
      match h.built fv.payload with
      | some v => some (v, h)
      | none => getNode cls buf (rebuild cls buf fuel) fv.payload h := by
  obtain ⟨t, payload⟩ := fv
  cases t <;> first | rfl | cases href

theorem rebuild_enc (buf : Nat → Cell) (fuel : Nat) (h : Heap) (off : Nat → Option Nat)
    (href : ¬ v.tag.isRef = true) :
    rebuild cls buf (fuel + 1) h (enc off v) = some (enc off v, h) := by
  unfold enc
  rw [if_neg href]
  by_cases hweak : v.tag = .weakProxy
  · rw [if_pos hweak]
    rfl
  · rw [if_neg hweak]
    obtain ⟨t, payload⟩ := v
    cases t <;> first | rfl | exact absurd rfl href | exact absurd rfl hweak

variable {root : LvValue}

theorem Flattened.not_block (hflat : Flattened g root s) {o : Nat} (hoff : s.off p = some o)
    (hnode : g.heap p = some node) : node ≠ .block := by
  intro hblock
  subst hblock
  obtain ⟨w, hw, href, hpay⟩ := (hflat.complete p o hoff).reached
  have hrefused : ∀ isRoot, RefusedAt cls g.heap isRoot w := fun isRoot =>
    ⟨href, .block, _, by rw [hpay]; exact hnode, rfl⟩
  rcases hw with rfl | hw
  · exact hflat.accepted (hrefused true)
  · exact (hflat.below hw).1 (hrefused false)

theorem Rebuilt.image_of_built {h : Heap} {w : LvValue} (href : v.tag.isRef = true)
    (hw : h.built (enc s.off v).payload = some w) : h.image s v = w := by
  unfold Heap.image dec
  rw [isRef_enc, if_pos href, hw]
  rfl

theorem rebuild_spec (hflat : Flattened g root s) : ∀ fuel,
    Reads g s base fuel (rebuild cls s.data fuel) := by
  intro fuel
  induction fuel with
  | zero =>
    intro h v _ hk
    omega
  | succ fuel ih =>
    intro h v hh hk hv
    by_cases href : v.tag.isRef = true
    · obtain ⟨o, ho⟩ := hv.1 href
      have hpay := enc_payload href ho
      rw [rebuild_ref _ _ _ (by rw [isRef_enc]; exact href), hpay]
      cases hbuilt : h.built o with
      | some w =>
        refine ⟨h, ?_, Builds.refl hh _, fun _ => ⟨w, by rw [hpay]; exact hbuilt⟩⟩
        dsimp only
        rw [Rebuilt.image_of_built href (by rw [hpay]; exact hbuilt)]
      | none =>
        obtain ⟨src, hsrc, hwalked, _, hcells⟩ := (hflat.complete _ o ho).record
        have hu : Unread g s base fuel h o src := {
          rebuilt := hh
          isNew := hbuilt
          few := hk
          lt_size := hflat.sound.lt_size _ o ho
          source := ⟨_, ho, hsrc⟩
          cells := hcells
          known := fun c hc => ⟨(hwalked c hc).2, g.typed _ src hsrc c hc⟩ }
        obtain ⟨h', hget, hb, hmade⟩ := getNode_spec ih hu (hflat.not_block ho hsrc)
        refine ⟨h', ?_, hb, fun _ => ⟨_, by rw [hpay]; exact hmade⟩⟩
        dsimp only
        rw [hget, Rebuilt.image_of_built href (by rw [hpay]; exact hmade)]
    · refine ⟨h, ?_, Builds.refl hh _, fun h => absurd h href⟩
      rw [rebuild_enc _ _ _ _ href]
      unfold Heap.image dec
      rw [isRef_enc, if_neg href]

end Rebuild

end Leviathan.Runtime.Transfer
