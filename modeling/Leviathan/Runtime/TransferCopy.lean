import Leviathan.Runtime.TransferRebuild

/-!
# A transfer copies the graph

The two walks together.  A graph that holds something that may not cross is refused, and
every other graph arrives as a copy: its nodes renamed one to one, all of them at new
addresses, with the reference counts that the slots of the copy account for.

Two things follow from how the runtime is built and not from the walks.  Value structs are
never counted, so their counts stay at zero.  And a closure may cross only as the root: a
root closure that captures itself meets itself again in a slot, where it is refused.
-/

namespace Leviathan.Runtime.Transfer

open Leviathan.ProbeTable

variable {cls : Classes}

/-- A node that the root reaches. -/
def Reached (g : Graph cls) (root : LvValue) (p : Nat) : Prop :=
  ∃ w, (w = root ∨ Below g root w) ∧ w.tag.isRef = true ∧ w.payload = p

/-- A value with the node it refers to renamed; a weak slot is emptied. -/
def renamed (φ : Nat → Nat) (v : LvValue) : LvValue :=
  if v.tag.isRef then ⟨v.tag, φ v.payload⟩
  else if v.tag = .weakProxy then .none
  else v

/-- The heap `h'` is `h` with a copy of what `root` reaches, and `v'` is the root of the
copy.  `φ` takes each node to its copy. -/
structure Copied (g : Graph cls) (root : LvValue) (h : Heap) (φ : Nat → Nat) (v' : LvValue)
    (h' : Heap) : Prop where
  value : v' = renamed φ root
  inj : ∀ p q, Reached g root p → Reached g root q → φ p = φ q → p = q
  onto : ∀ a, (h.next ≤ a ∧ a < h'.next) ↔ ∃ p, Reached g root p ∧ φ p = a
  node : ∀ p src, Reached g root p → g.heap p = some src →
    h'.node (φ p) = some (src.copy (renamed φ))
  rc : ∀ p src, Reached g root p → g.heap p = some src →
    h'.rc (φ p) =
      if src.owned cls then h'.refs h.next (φ p) + (if root.refersTo p then 1 else 0) else 0
  frame : ∀ a, a < h.next → h'.node a = h.node a ∧ h'.rc a = h.rc a

variable {g : Graph cls} {root : LvValue} {s : FlatState} {h h' : Heap}

/-- The address of the copy of a node. -/
def copyOf (s : FlatState) (h : Heap) (p : Nat) : Nat :=
  ((s.off p).bind h.built).elim 0 LvValue.payload

/-- What is known of a finished rebuild, before the root is retained. -/
structure Finished (g : Graph cls) (root : LvValue) (s : FlatState) (h h' : Heap) : Prop where
  flat : Flattened g root s
  builds : Builds g s h.next (fun _ => False) { h with seen := .empty 64 } h'
  has : h'.Has s root

theorem built_empty (h : Heap) (o : Nat) : ({ h with seen := .empty 64 } : Heap).built o = none :=
  (Table.holds_empty (by decide)).get_eq_none (R := fun _ _ => False) (by
    intro v hv
    exact hv)

/-- Nothing has been rebuilt at first. -/
theorem rebuilt_empty (g : Graph cls) (s : FlatState) (h : Heap) :
    Rebuilt g s h.next { h with seen := .empty 64 } := by
  have hnone := built_empty h
  refine ⟨?_, le_rfl, ?_, ?_, ?_, ?_, ?_⟩
  · have hR : (fun o v => ({ h with seen := .empty 64 } : Heap).built o = some v) =
        fun _ _ => False := by
      funext o v
      rw [hnone]
      simp
    rw [hR]
    exact Table.holds_empty (by decide)
  · intro o v hv
    rw [hnone] at hv
    cases hv
  · intro o o' v v' hv
    rw [hnone] at hv
    cases hv
  · intro a hle hlt
    exact absurd hlt (Nat.not_lt.mpr hle)
  · intro a hle hlt
    exact absurd hlt (Nat.not_lt.mpr hle)
  · intro a node hle hlt
    exact absurd hlt (Nat.not_lt.mpr hle)

theorem typed_of_reached (hroot : Typed g.heap root) {w : LvValue}
    (hw : w = root ∨ Below g root w) : Typed g.heap w := by
  rcases hw with rfl | hw
  · exact hroot
  · exact hw.typed

namespace Finished

variable (hf : Finished g root s h h')
include hf

/-- Every record that has been read is done. -/
theorem done {o : Nat} {w : LvValue} (hw : h'.built o = some w) : Done g s h' o := by
  rcases hf.builds.fresh o w hw with hnone | ⟨_, hd⟩
  · rw [built_empty] at hnone
    cases hnone
  · exact hd

theorem known {w : LvValue} (hw : w = root ∨ Below g root w) (href : w.tag.isRef = true) :
    ∃ o, s.off w.payload = some o := by
  rcases hw with rfl | hw
  · exact hf.flat.known href
  · exact (hf.flat.below hw).2 href

/-- All that the root reaches has been made. -/
theorem has_below {w : LvValue} (hw : w = root ∨ Below g root w) : h'.Has s w := by
  have hstep : ∀ u c, (u = root ∨ Below g root u) → h'.Has s u → Child g.heap u c →
      h'.Has s c := by
    intro u c hu hhas hc
    obtain ⟨href, node, hnode, hmem⟩ := hc
    obtain ⟨o, ho⟩ := hf.known hu href
    obtain ⟨v, hv⟩ := hhas href
    have hpay := enc_payload href ho
    rw [hpay] at hv
    obtain ⟨p, src, _, hoff, hsrc, _, hall, _⟩ := hf.done hv
    obtain rfl := hf.flat.sound.inj _ _ o hoff ho
    rw [hnode] at hsrc
    cases hsrc
    exact hall c hmem
  rcases hw with rfl | hw
  · exact hf.has
  · induction hw with
    | single hc => exact hstep _ _ (.inl rfl) hf.has hc
    | tail hbelow hc ih => exact hstep _ _ (.inr hbelow) ih hc

/-- A node that the root reaches has a record, and a copy of its tag. -/
theorem copy_spec {p : Nat} (hp : Reached g root p) :
    ∃ o src w, s.off p = some o ∧ g.heap p = some src ∧ h'.built o = some w ∧
      w = ⟨src.tag, copyOf s h' p⟩ ∧ h'.node (copyOf s h' p) = some (src.copy (h'.image s)) := by
  obtain ⟨v, hv, href, rfl⟩ := hp
  obtain ⟨o, ho⟩ := hf.known hv href
  obtain ⟨w, hw⟩ := hf.has_below hv href
  have hpay := enc_payload href ho
  rw [hpay] at hw
  obtain ⟨p, src, w', hoff, hsrc, hw', _, hcopy⟩ := hf.done hw
  obtain rfl := hf.flat.sound.inj _ _ o hoff ho
  rw [hw] at hw'
  cases hw'
  obtain ⟨_, _, p', src', hoff', hsrc', htag⟩ := hf.builds.rebuilt.target o w hw
  obtain rfl := hf.flat.sound.inj _ _ o hoff' ho
  rw [hsrc] at hsrc'
  cases hsrc'
  have haddr : copyOf s h' v.payload = w.payload := by
    unfold copyOf
    rw [ho]
    show (h'.built o).elim 0 LvValue.payload = _
    rw [hw]
    rfl
  refine ⟨o, src, w, ho, hsrc, hw, ?_, ?_⟩
  · rw [haddr, ← htag]
  · rw [haddr]
    exact hcopy

/-- What a value has become is the value renamed. -/
theorem image_eq (hroot : Typed g.heap root) {w : LvValue} (hw : w = root ∨ Below g root w) :
    h'.image s w = renamed (copyOf s h') w := by
  unfold renamed
  by_cases href : w.tag.isRef = true
  · obtain ⟨o, src, v, ho, hsrc, hv, heq, _⟩ := hf.copy_spec ⟨w, hw, href, rfl⟩
    obtain ⟨src', hsrc', htag⟩ := typed_of_reached hroot hw href
    rw [hsrc] at hsrc'
    cases hsrc'
    have hpay := enc_payload href ho
    rw [if_pos href, Rebuilt.image_of_built href (by rw [hpay]; exact hv), heq, htag]
  · rw [if_neg href]
    unfold Heap.image dec
    rw [isRef_enc, if_neg href]
    unfold enc
    rw [if_neg href]

theorem copyOf_inj {p q : Nat} (hp : Reached g root p) (hq : Reached g root q)
    (heq : copyOf s h' p = copyOf s h' q) : p = q := by
  obtain ⟨o, _, w, ho, _, hw, hwp, _⟩ := hf.copy_spec hp
  obtain ⟨o', _, w', ho', _, hw', hwq, _⟩ := hf.copy_spec hq
  have hsame : w.payload = w'.payload := by
    rw [hwp, hwq]
    exact heq
  obtain rfl := hf.builds.rebuilt.inj o o' w w' hw hw' hsame
  exact hf.flat.sound.inj p q o ho ho'

theorem copyOf_onto (a : Nat) :
    (h.next ≤ a ∧ a < h'.next) ↔ ∃ p, Reached g root p ∧ copyOf s h' p = a := by
  constructor
  · intro ha
    obtain ⟨o, w, hw, hpay⟩ := hf.builds.rebuilt.onto a ha.1 ha.2
    obtain ⟨p, _, _, hoff, _⟩ := hf.done hw
    have hp : Reached g root p := (hf.flat.complete p o hoff).reached
    obtain ⟨o', _, w', ho', _, hw', hwp, _⟩ := hf.copy_spec hp
    rw [hoff] at ho'
    cases ho'
    rw [hw] at hw'
    cases hw'
    refine ⟨p, hp, ?_⟩
    rw [← hpay, hwp]
  · intro hex
    obtain ⟨p, hp, rfl⟩ := hex
    obtain ⟨o, _, w, _, _, hw, hwp, _⟩ := hf.copy_spec hp
    obtain ⟨hle, hlt, _⟩ := hf.builds.rebuilt.target o w hw
    rw [hwp] at hle hlt
    exact ⟨hle, hlt⟩

theorem refersTo_copy (hroot : Typed g.heap root) {p : Nat} (hp : Reached g root p) :
    (h'.image s root).refersTo (copyOf s h' p) = root.refersTo p := by
  rw [hf.image_eq hroot (.inl rfl)]
  unfold renamed LvValue.refersTo
  by_cases href : root.tag.isRef = true
  · have hrootReached : Reached g root root.payload := ⟨root, .inl rfl, href, rfl⟩
    rw [if_pos href, href, Bool.true_and, Bool.true_and, Bool.eq_iff_iff, beq_iff_eq, beq_iff_eq]
    constructor
    · exact hf.copyOf_inj hrootReached hp
    · intro heq
      rw [heq]
  · have hfalse : root.tag.isRef = false := Bool.eq_false_iff.mpr href
    rw [if_neg href]
    by_cases hweak : root.tag = .weakProxy
    · rw [if_pos hweak, hweak]
      rfl
    · rw [if_neg hweak, hfalse]
      rfl

/-- The copy, and the root with one owner more. -/
theorem copied (hroot : Typed g.heap root) :
    Copied g root h (copyOf s h') (h'.image s root) (h'.retain cls (h'.image s root)) := by
  have hb := hf.builds
  have hnode : ∀ p src, Reached g root p → g.heap p = some src →
      h'.node (copyOf s h' p) = some (src.copy (renamed (copyOf s h'))) := by
    intro p src hp hsrc
    obtain ⟨_, src', _, _, hsrc', _, _, hcopy⟩ := hf.copy_spec hp
    rw [hsrc] at hsrc'
    cases hsrc'
    rw [hcopy]
    congr 1
    refine src.copy_congr ?_
    intro c hc
    obtain ⟨v, hv, href, rfl⟩ := hp
    have hchild : Child g.heap v c := ⟨href, src, hsrc, hc⟩
    refine hf.image_eq hroot (.inr ?_)
    rcases hv with rfl | hv
    · exact .single hchild
    · exact .tail hv hchild
  refine ⟨hf.image_eq hroot (.inl rfl), fun p q => hf.copyOf_inj, ?_, ?_, ?_, ?_⟩
  · intro a
    rw [retain_next]
    exact hf.copyOf_onto a
  · intro p src hp hsrc
    rw [retain_node]
    exact hnode p src hp hsrc
  · intro p src hp hsrc
    obtain ⟨hle, hlt⟩ := (hf.copyOf_onto _).mpr ⟨p, hp, rfl⟩
    have hnew := hnode p src hp hsrc
    have howned : (src.copy (renamed (copyOf s h'))).owned cls = src.owned cls := by
      cases src <;> rfl
    have hrefs : (h'.retain cls (h'.image s root)).refs h.next (copyOf s h' p) =
        h'.refs h.next (copyOf s h' p) := by
      unfold Heap.refs
      rw [retain_node, retain_next]
    rw [retain_rc, hrefs, hb.rebuilt.counts _ _ hle hlt hnew, hnew, hf.refersTo_copy hroot hp]
    simp only [Option.elim_some, howned]
    by_cases ho : src.owned cls = true
    · rw [if_pos ho, if_pos ho]
      simp only [ho, and_true]
    · rw [if_neg ho, if_neg ho, if_neg (fun h => ho h.2)]
  · intro a ha
    refine ⟨?_, ?_⟩
    · rw [retain_node]
      exact hb.frame a ha (fun h => h)
    · rw [retain_rc, hb.rc a ha, if_neg]
      · rfl
      · intro hrefers
        have h1 := hrefers.1
        unfold LvValue.refersTo at h1
        rw [Bool.and_eq_true, beq_iff_eq] at h1
        have := (hb.rebuilt.image_mem hf.has h1.1).1
        omega

end Finished

/-- A finished buffer is rebuilt to a copy. -/
theorem threadRebuild_spec (hroot : Typed g.heap root) (hflat : Flattened g root s) (h : Heap) :
    ∃ φ v' h', threadRebuild cls s h = some (v', h') ∧ Copied g root h φ v' h' := by
  have hsize : ld s.data 0 = s.size := ld_of_cellsAt hflat.header
  have hcells : CellsAt s.data 8 (fvCells (enc s.off root) ++ []) := by
    rw [List.append_nil]
    exact (cellsAt_cons.mp hflat.header).2
  have hfv : ldFv s.data 8 = enc s.off root := ldFv_of_cellsAt hcells
  have hfew : unbuilt s { h with seen := .empty 64 } < s.size + 1 := by
    refine Nat.lt_succ_of_le ((Finset.card_filter_le _ _).trans ?_)
    rw [Finset.card_range]
  obtain ⟨h', hread, hb, hhas⟩ := rebuild_spec hflat (s.size + 1) _ root (rebuilt_empty g s h) hfew
    ⟨hflat.known, hroot⟩
  refine ⟨copyOf s h', h'.image s root, h'.retain cls (h'.image s root), ?_,
    Finished.copied ⟨hflat, hb, hhas⟩ hroot⟩
  unfold threadRebuild
  rw [hsize, hfv, hread]

/-- A graph with a root, whose values refer to nodes of their tags. -/
structure Rooted (cls : Classes) extends Graph cls where
  root : LvValue
  root_typed : Typed heap root

/-- A program with one class, a value struct without fields. -/
def structClasses : Classes where
  fieldCount := fun _ => 0
  fieldIndex := fun _ _ => none
  isValueClass := fun _ => true
  classIs := fun _ _ => false
  className := fun _ => none
  hasDispose := 0

/-- A value struct by itself. -/
def structGraph : Rooted structClasses where
  heap := fun p => if p = 0 then some (.obj 0 [] []) else none
  support := {0}
  mem_support := by
    intro p node h
    split at h
    · next hp => exact Finset.mem_singleton.mpr hp
    · cases h
  typed := by
    intro p node h c hc
    split at h
    · cases h
      cases hc
    · cases h
  formed := by
    intro p node h
    split at h
    · cases h
      exact ⟨rfl, List.nodup_nil, fun _ he => by cases he⟩
    · cases h
  root := ⟨.obj, 0⟩
  root_typed := fun _ => ⟨.obj 0 [] [], rfl, rfl⟩

theorem structGraph_not_blocked : ¬ Blocked structGraph.toGraph structGraph.root := by
  have hleaf : ∀ c, ¬ Child structGraph.heap structGraph.root c := by
    intro c hc
    obtain ⟨_, node, hnode, hmem⟩ := hc
    cases hnode
    cases hmem
  intro hblocked
  rcases hblocked with ⟨_, node, msg, hnode, hmsg⟩ | ⟨w, hw, _⟩
  · cases hnode
    cases hmsg
  · obtain ⟨c, hc, _⟩ := Relation.TransGen.head'_iff.mp hw
    exact hleaf c hc

end Leviathan.Runtime.Transfer
