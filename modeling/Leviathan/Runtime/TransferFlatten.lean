import Leviathan.Runtime.Transfer

/-!
# What `lv_thread_flatten` writes

The buffer holds one record for each node that the walk has met.  `Node.cells` is the
record of a node, and `Complete` says that it stands in the buffer, with the offsets of
the nodes it refers to.

A call of `lv_flatten` writes to no byte below the size it finds; what it adds is complete
(`Grows`).  The records of the nodes whose walk has not come back are still open then, but
each loop over what such a node holds writes only to its own record, so the same relation
carries through the loops.

The walk fails exactly if it meets a node that may not cross, and with the number of nodes
for its fuel it comes to an end (`threadFlatten_spec`).
-/

namespace Leviathan.Runtime.Transfer

open Leviathan.ProbeTable List

/-! ### Value graphs -/

/-- What the runtime keeps of a node by itself: as many slots as the class has, keys that
are distinct and no declared slots, packed data of the length that the head says. -/
def Node.Formed (cls : Classes) : Node → Prop
  | .obj classId slots dyn => slots.length = cls.fieldCount classId ∧
      (dyn.map Prod.fst).Nodup ∧ ∀ e ∈ dyn, cls.fieldIndex classId e.1 = none
  | .arr elems => elems.length < denseBit
  | .dense recBytes len data => data.length = len * recBytes ∧ len < columnBit
  | .columnar classId len data => data.length = cls.fieldCount classId * 8 * len ∧ len < columnBit
  | .clo _ captures => (captures.map Prod.fst).Nodup
  | _ => True

/-- A value that refers to a node has its tag. -/
def Typed (heap : Nat → Option Node) (v : LvValue) : Prop :=
  v.tag.isRef = true → ∃ node, heap v.payload = some node ∧ node.tag = v.tag

/-- A heap whose values refer to nodes of their tags. -/
structure Graph (cls : Classes) where
  heap : Nat → Option Node
  support : Finset Nat
  mem_support : ∀ p node, heap p = some node → p ∈ support
  typed : ∀ p node, heap p = some node → ∀ c ∈ node.children, Typed heap c
  formed : ∀ p node, heap p = some node → node.Formed cls

/-- One value holds another. -/
def Child (heap : Nat → Option Node) (v c : LvValue) : Prop :=
  v.tag.isRef = true ∧ ∃ node, heap v.payload = some node ∧ c ∈ node.children

/-- A value that may not cross. -/
def RefusedAt (cls : Classes) (heap : Nat → Option Node) (isRoot : Bool) (v : LvValue) : Prop :=
  v.tag.isRef = true ∧ ∃ node msg, heap v.payload = some node ∧ refusal cls isRoot node = some msg

/-! ### Cells -/

/-- The cells of a flattened value. -/
def fvCells (fv : LvValue) : List Cell := [.word fv.tag.code, .word fv.payload]

/-- The cells of a copied block of bytes. -/
def byteCells (data : List UInt8) : List Cell :=
  (List.range ((data.length + 7) / 8)).map fun i => .bytes ((data.drop (8 * i)).take 8)

/-- The cells of a dynamic field or a capture. -/
def pairCells (enc : LvValue → LvValue) (e : Nat × LvValue) : List Cell :=
  .word e.1 :: fvCells (enc e.2)

/-- The cells of an entry of a map. -/
def entryCells (enc : LvValue → LvValue) (e : LvValue × LvValue) : List Cell :=
  fvCells (enc e.1) ++ fvCells (enc e.2)

/-- The record of a node, with its references encoded by `enc`. -/
def Node.cells (cls : Classes) (enc : LvValue → LvValue) : Node → List Cell
  | .str bytes =>
    [.word Tag.str.code, .word (16 + 8 + bytes.length), .word bytes.length] ++ byteCells bytes
  | .obj classId slots dyn =>
    [.word Tag.obj.code,
      .word (16 + 8 + 8 + cls.fieldCount classId * 16 + 8 + dyn.length * 24), .word classId,
      .word (cls.fieldCount classId)] ++
    (slots.flatMap (fun v => fvCells (enc v)) ++
      (.word dyn.length :: dyn.flatMap (pairCells enc)))
  | .arr elems =>
    [.word Tag.arr.code, .word (16 + 8 + elems.length * 16), .word elems.length] ++
    elems.flatMap (fun v => fvCells (enc v))
  | .dense recBytes len data =>
    [.word Tag.arr.code, .word (16 + 8 + 8 + len * recBytes), .word (len + denseBit),
      .word recBytes] ++ byteCells data
  | .columnar classId len data =>
    [.word Tag.arr.code, .word (16 + 8 + 8 + cls.fieldCount classId * 8 * len),
      .word (len + denseBit + columnBit), .word classId] ++ byteCells data
  | .map entries =>
    [.word Tag.map.code, .word (16 + 8 + entries.length * 32), .word entries.length] ++
    entries.flatMap (entryCells enc)
  | .clo fnIndex captures =>
    [.word Tag.clo.code, .word (16 + 8 + 8 + captures.length * 24), .word fnIndex,
      .word captures.length] ++ captures.flatMap (pairCells enc)
  | .block => []

/-- These cells stand at `off`. -/
def CellsAt (data : Nat → Cell) (off : Nat) (cells : List Cell) : Prop :=
  ∀ i c, cells[i]? = some c → data (off + 8 * i) = c

theorem cellsAt_nil (data : Nat → Cell) (off : Nat) : CellsAt data off [] := by
  intro i c h
  simp at h

variable {data : Nat → Cell}

theorem cellsAt_cons {off : Nat} {c : Cell} {cells : List Cell} :
    CellsAt data off (c :: cells) ↔ data off = c ∧ CellsAt data (off + 8) cells := by
  constructor
  · intro h
    refine ⟨by simpa using h 0 c rfl, ?_⟩
    intro i d hd
    have hi := h (i + 1) d (by simpa using hd)
    rw [← hi]
    congr 1
    omega
  · intro h i d hd
    cases i with
    | zero =>
      have hcd : c = d := by simpa using hd
      rw [← hcd]
      simpa using h.1
    | succ i =>
      have hi := h.2 i d (by simpa using hd)
      rw [← hi]
      congr 1
      omega

theorem cellsAt_append {off : Nat} {a b : List Cell} :
    CellsAt data off (a ++ b) ↔ CellsAt data off a ∧ CellsAt data (off + 8 * a.length) b := by
  induction a generalizing off with
  | nil => simp [cellsAt_nil]
  | cons c a ih =>
    rw [cons_append, cellsAt_cons, cellsAt_cons, ih, length_cons, and_assoc]
    have hoff : off + 8 + 8 * a.length = off + 8 * (a.length + 1) := by omega
    rw [hoff]

/-- Cells stay where their bytes stay. -/
theorem CellsAt.congr {data' : Nat → Cell} {off : Nat} {cells : List Cell}
    (h : CellsAt data off cells)
    (hsame : ∀ i, off ≤ i → i < off + 8 * cells.length → data' i = data i) :
    CellsAt data' off cells := by
  intro i c hc
  have hi : i < cells.length := (List.getElem?_eq_some_iff.mp hc).1
  rw [hsame (off + 8 * i) (by omega) (by omega)]
  exact h i c hc

theorem length_byteCells (data : List UInt8) :
    (byteCells data).length = (data.length + 7) / 8 := by
  unfold byteCells
  rw [length_map, length_range]

/-- A copied block stands where it was copied to. -/
theorem cellsAt_putBytes (s : FlatState) (off : Nat) (data : List UInt8) :
    CellsAt (s.putBytes off data).data off (byteCells data) := by
  intro i c hc
  unfold byteCells at hc
  rw [getElem?_map] at hc
  obtain ⟨j, hj, rfl⟩ := Option.map_eq_some_iff.mp hc
  obtain ⟨hlt, heq⟩ := List.getElem?_eq_some_iff.mp hj
  rw [length_range] at hlt
  rw [getElem_range] at heq
  subst heq
  show (if off ≤ off + 8 * i ∧ off + 8 * i < off + data.length ∧ (off + 8 * i - off) % 8 = 0 then
    Cell.bytes ((data.drop (off + 8 * i - off)).take 8) else s.data (off + 8 * i)) = _
  have hsub : off + 8 * i - off = 8 * i := by omega
  rw [hsub, if_pos ⟨by omega, by omega, by omega⟩]

/-- Cells that depend on the encoding of `vs` only, `n` bytes of them. -/
structure CellsOf (vs : List LvValue) (n : Nat) (cells : (LvValue → LvValue) → List Cell) :
    Prop where
  length : ∀ f, 8 * (cells f).length = n
  congr : ∀ f f', (∀ v ∈ vs, f' v = f v) → cells f' = cells f

theorem cellsOf_fv (v : LvValue) : CellsOf [v] 16 fun f => fvCells (f v) where
  length := fun _ => rfl
  congr := by
    intro f f' h
    rw [h v (List.mem_singleton.mpr rfl)]

theorem cellsOf_pair (e : Nat × LvValue) : CellsOf [e.2] 24 fun f => pairCells f e where
  length := fun _ => rfl
  congr := by
    intro f f' h
    unfold pairCells
    rw [h e.2 (List.mem_singleton.mpr rfl)]

theorem cellsOf_entry (e : LvValue × LvValue) :
    CellsOf [e.1, e.2] 32 fun f => entryCells f e where
  length := fun _ => rfl
  congr := by
    intro f f' h
    unfold entryCells
    rw [h e.1 (by simp), h e.2 (by simp)]

theorem cellsOf_words (ws : List Nat) : CellsOf [] (8 * ws.length) fun _ => ws.map .word where
  length := by
    intro _
    rw [length_map]
  congr := fun _ _ _ => rfl

theorem cellsOf_bytes (data : List UInt8) :
    CellsOf [] (8 * ((data.length + 7) / 8)) fun _ => byteCells data where
  length := by
    intro _
    rw [length_byteCells]
  congr := fun _ _ _ => rfl

variable {vs : List LvValue} {n : Nat}

theorem CellsOf.append {us : List LvValue} {m : Nat}
    {cells cells' : (LvValue → LvValue) → List Cell} (h : CellsOf us n cells)
    (h' : CellsOf vs m cells') : CellsOf (us ++ vs) (n + m) fun f => cells f ++ cells' f where
  length := by
    intro f
    rw [length_append, Nat.mul_add, h.length, h'.length]
  congr := by
    intro f f' hsame
    rw [h.congr f f' fun v hv => hsame v (mem_append_left _ hv),
      h'.congr f f' fun v hv => hsame v (mem_append_right _ hv)]

variable {α : Type}

/-- The cells of a list, one group of `n` bytes for each member. -/
theorem CellsOf.flatMap {held : α → List LvValue} {cells : (LvValue → LvValue) → α → List Cell}
    (h : ∀ a, CellsOf (held a) n fun f => cells f a) :
    ∀ as : List α, CellsOf (as.flatMap held) (as.length * n) fun f => as.flatMap (cells f) := by
  intro as
  induction as with
  | nil => exact ⟨fun _ => (Nat.zero_mul n).symm, fun _ _ _ => rfl⟩
  | cons a as ih =>
    have hboth := (h a).append ih
    rw [length_cons, Nat.add_mul, Nat.one_mul, Nat.add_comm]
    exact hboth

theorem cellsOf_slots (vs : List LvValue) :
    CellsOf vs (vs.length * 16) fun f => vs.flatMap fun v => fvCells (f v) := by
  have h := CellsOf.flatMap cellsOf_fv vs
  rw [flatMap_singleton'] at h
  exact h

theorem cellsOf_pairs (es : List (Nat × LvValue)) :
    CellsOf (es.map Prod.snd) (es.length * 24) fun f => es.flatMap (pairCells f) := by
  have h := CellsOf.flatMap cellsOf_pair es
  rw [← map_eq_flatMap] at h
  exact h

theorem cellsOf_entries (es : List (LvValue × LvValue)) :
    CellsOf (Node.map es).children (es.length * 32) fun f => es.flatMap (entryCells f) :=
  CellsOf.flatMap cellsOf_entry es

/-- The bytes of the cells of a node. -/
def Node.cellBytes : Node → Nat
  | .str bytes => 24 + 8 * ((bytes.length + 7) / 8)
  | .obj _ slots dyn => 32 + (slots.length * 16 + (8 + dyn.length * 24))
  | .arr elems => 24 + elems.length * 16
  | .dense _ _ data => 32 + 8 * ((data.length + 7) / 8)
  | .columnar _ _ data => 32 + 8 * ((data.length + 7) / 8)
  | .map entries => 24 + entries.length * 32
  | .clo _ captures => 32 + captures.length * 24
  | .block => 0

/-- The record of a node depends on the encoding of what it holds only. -/
theorem Node.cellsOf (cls : Classes) (node : Node) :
    CellsOf node.children (node.cellBytes) (node.cells cls) := by
  cases node with
  | str bytes => exact (cellsOf_words [_, _, _]).append (cellsOf_bytes bytes)
  | obj classId slots dyn =>
    exact (cellsOf_words [_, _, _, _]).append ((cellsOf_slots slots).append
      ((cellsOf_words [dyn.length]).append (cellsOf_pairs dyn)))
  | arr elems => exact (cellsOf_words [_, _, _]).append (cellsOf_slots elems)
  | dense recBytes len data => exact (cellsOf_words [_, _, _, _]).append (cellsOf_bytes data)
  | columnar classId len data => exact (cellsOf_words [_, _, _, _]).append (cellsOf_bytes data)
  | map entries => exact (cellsOf_words [_, _, _]).append (cellsOf_entries entries)
  | clo fnIndex captures => exact (cellsOf_words [_, _, _, _]).append (cellsOf_pairs captures)
  | block => exact ⟨fun _ => rfl, fun _ _ _ => rfl⟩

/-! ### What a walk adds -/

/-- The offset of the record of a node that has been seen. -/
def FlatState.off (s : FlatState) (p : Nat) : Option Nat := s.seen.get hash p

/-- The flattened form of a value. -/
def enc (off : Nat → Option Nat) (v : LvValue) : LvValue :=
  if v.tag.isRef then ⟨v.tag, (off v.payload).getD 0⟩
  else if v.tag = .weakProxy then .none
  else v

/-- The table of the nodes seen answers for itself; each record has its own offset, inside
of the buffer. -/
structure FlatState.Sound (s : FlatState) : Prop where
  holds : s.seen.Holds hash fun p o => s.off p = some o
  lt_size : ∀ p o, s.off p = some o → o < s.size
  inj : ∀ p q o, s.off p = some o → s.off q = some o → p = q

section Walk

variable {cls : Classes} (g : Graph cls) (root : LvValue)

/-- A value that the root reaches through one slot or more. -/
def Below (w : LvValue) : Prop := Relation.TransGen (Child g.heap) root w

/-- The root, or a value that it reaches, may not cross. -/
def Blocked : Prop :=
  RefusedAt cls g.heap true root ∨ ∃ w, Below g root w ∧ RefusedAt cls g.heap false w

/-- A value that has been walked from a slot. -/
def Walked (off : Nat → Option Nat) (v : LvValue) : Prop :=
  ¬ RefusedAt cls g.heap false v ∧ (v.tag.isRef = true → ∃ o, off v.payload = some o)

/-- The record of the node `p` stands at `o`, and all that the node holds has been walked. -/
structure Complete (s : FlatState) (p o : Nat) : Prop where
  reached : ∃ w, (w = root ∨ Below g root w) ∧ w.tag.isRef = true ∧ w.payload = p
  record : ∃ node, g.heap p = some node ∧ (∀ c ∈ node.children, Walked g s.off c) ∧
    o + 8 * (node.cells cls (enc s.off)).length ≤ s.size ∧
    CellsAt s.data o (node.cells cls (enc s.off))

/-- What is written between two states: new records that are complete, and below the old
size nothing but `[lo, hi)`. -/
structure Grows (lo hi : Nat) (s s' : FlatState) : Prop where
  sound : s'.Sound
  size : s.size ≤ s'.size
  keeps : ∀ p o, s.off p = some o → s'.off p = some o
  frame : ∀ i, i < s.size → ¬ (lo ≤ i ∧ i < hi) → s'.data i = s.data i
  fresh : ∀ p o, s'.off p = some o → s.off p = some o ∨ (s.size ≤ o ∧ Complete g root s' p o)

end Walk

variable {v : LvValue} {lo hi a b src : Nat} {s s' s'' : FlatState} {node : Node} {isRoot : Bool}

section Walk

variable {cls : Classes} {g : Graph cls} {root : LvValue}

theorem enc_congr {off off' : Nat → Option Nat} (hkeeps : ∀ p o, off p = some o → off' p = some o)
    (hv : v.tag.isRef = true → ∃ o, off v.payload = some o) : enc off' v = enc off v := by
  unfold enc
  by_cases href : v.tag.isRef = true
  · obtain ⟨o, ho⟩ := hv href
    rw [if_pos href, if_pos href, ho, hkeeps _ _ ho]
  · rw [if_neg href, if_neg href]

theorem enc_payload {off : Nat → Option Nat} {o : Nat} (href : v.tag.isRef = true)
    (ho : off v.payload = some o) : (enc off v).payload = o := by
  unfold enc
  rw [if_pos href, ho]
  rfl

theorem Walked.mono {off off' : Nat → Option Nat} (hkeeps : ∀ p o, off p = some o → off' p = some o)
    (h : Walked g off v) :
    Walked g off' v := by
  refine ⟨h.1, ?_⟩
  intro href
  obtain ⟨o, ho⟩ := h.2 href
  exact ⟨o, hkeeps _ _ ho⟩

/-- A complete record stays complete while nothing is written to it. -/
theorem Complete.mono {p o : Nat} (h : Complete g root s p o) (hs : Grows g root lo hi s s')
    (ho : hi ≤ o) : Complete g root s' p o := by
  obtain ⟨node, hnode, hwalked, hsize, hcells⟩ := h.record
  have hsame : node.cells cls (enc s'.off) = node.cells cls (enc s.off) := by
    refine (node.cellsOf cls).congr _ _ ?_
    intro c hc
    exact enc_congr hs.keeps (hwalked c hc).2
  refine ⟨h.reached, node, hnode, ?_, ?_, ?_⟩
  · intro c hc
    exact (hwalked c hc).mono hs.keeps
  · rw [hsame]
    have := hs.size
    omega
  · rw [hsame]
    refine hcells.congr ?_
    intro i hle hlt
    exact hs.frame i (by omega) (by omega)

theorem Grows.refl (h : s.Sound) (lo hi : Nat) : Grows g root lo hi s s where
  sound := h
  size := le_rfl
  keeps := fun _ _ h => h
  frame := fun _ _ _ => rfl
  fresh := fun _ _ h => .inl h

theorem Grows.trans (h : Grows g root lo hi s s') (h' : Grows g root lo hi s' s'')
    (hhi : hi ≤ s.size) : Grows g root lo hi s s'' where
  sound := h'.sound
  size := h.size.trans h'.size
  keeps := fun p o hp => h'.keeps p o (h.keeps p o hp)
  frame := by
    intro i hi hout
    have := h.size
    rw [h'.frame i (by omega) hout, h.frame i hi hout]
  fresh := by
    intro p o hp
    have hsize := h.size
    rcases h'.fresh p o hp with hold | ⟨hle, hc⟩
    · rcases h.fresh p o hold with hold | ⟨hle, hc⟩
      · exact .inl hold
      · exact .inr ⟨hle, hc.mono h' (by omega)⟩
    · exact .inr ⟨by omega, hc⟩

theorem Grows.widen {lo' hi' : Nat} (h : Grows g root lo hi s s') (hlo : lo' ≤ lo ∨ hi ≤ lo)
    (hhi : hi ≤ hi' ∨ hi ≤ lo) : Grows g root lo' hi' s s' where
  sound := h.sound
  size := h.size
  keeps := h.keeps
  frame := fun i hi hout => h.frame i hi (by omega)
  fresh := h.fresh

/-- Writing to the buffer alone. -/
theorem grows_of_data (hs : s.Sound) (hseen : s'.seen = s.seen) (hsize : s'.size = s.size)
    (hframe : ∀ i, i < s.size → ¬ (lo ≤ i ∧ i < hi) → s'.data i = s.data i) :
    Grows g root lo hi s s' := by
  have hoff : s'.off = s.off := by
    funext p
    unfold FlatState.off
    rw [hseen]
  refine ⟨⟨?_, ?_, ?_⟩, hsize.ge, ?_, hframe, ?_⟩
  · rw [hseen, hoff]
    exact hs.holds
  · rw [hoff, hsize]
    exact hs.lt_size
  · rw [hoff]
    exact hs.inj
  · intro p o h
    rw [hoff]
    exact h
  · intro p o h
    rw [hoff] at h
    exact .inl h

theorem put_data_of_ne (s : FlatState) {off w i : Nat} (h : i ≠ off) :
    (s.put off w).data i = s.data i :=
  Function.update_of_ne h ..

@[simp] theorem put_data_self (s : FlatState) (off w : Nat) : (s.put off w).data off = .word w :=
  Function.update_self ..

theorem putFv_data_of_ne (s : FlatState) {off i : Nat} (fv : LvValue) (h : i ≠ off)
    (h' : i ≠ off + 8) : (s.putFv off fv).data i = s.data i := by
  unfold FlatState.putFv
  rw [put_data_of_ne _ h', put_data_of_ne _ h]

theorem cellsAt_putFv (s : FlatState) (off : Nat) (fv : LvValue) :
    CellsAt (s.putFv off fv).data off (fvCells fv) := by
  unfold fvCells
  rw [cellsAt_cons, cellsAt_cons]
  refine ⟨?_, ?_, cellsAt_nil _ _⟩
  · unfold FlatState.putFv
    rw [put_data_of_ne _ (by omega), put_data_self]
  · unfold FlatState.putFv
    rw [put_data_self]

theorem grows_put (hs : s.Sound) (off w : Nat) : Grows g root off (off + 8) s (s.put off w) := by
  refine grows_of_data hs rfl rfl ?_
  intro i _ hout
  exact put_data_of_ne s (by omega)

theorem grows_putFv (hs : s.Sound) (off : Nat) (fv : LvValue) :
    Grows g root off (off + 16) s (s.putFv off fv) := by
  refine grows_of_data hs rfl rfl ?_
  intro i _ hout
  exact putFv_data_of_ne s fv (by omega) (by omega)

/-- Ranges that follow one another. -/
theorem Grows.append {c : Nat} (h : Grows g root a b s s') (h' : Grows g root b c s' s'')
    (hab : a ≤ b) (hbc : b ≤ c) (hc : c ≤ s.size) :
    Grows g root a c s s'' :=
  (h.widen (.inl le_rfl) (.inl hbc)).trans (h'.widen (.inl hab) (.inl le_rfl)) hc

/-- Cells that stand outside of what is written. -/
theorem CellsAt.grows {off : Nat} {cells : List Cell} (h : CellsAt s.data off cells)
    (hs : Grows g root lo hi s s') (hsize : off + 8 * cells.length ≤ s.size)
    (hout : off + 8 * cells.length ≤ lo ∨ hi ≤ off) :
    CellsAt s'.data off cells := by
  refine h.congr ?_
  intro i hle hlt
  exact hs.frame i (by omega) (by omega)

/-- Words one after the other. -/
def putWords : Nat → List Nat → FlatState → FlatState
  | _, [], s => s
  | off, w :: ws, s => putWords (off + 8) ws (s.put off w)

theorem putWords_spec : ∀ (ws : List Nat) (off : Nat) (s : FlatState), s.Sound →
    off + 8 * ws.length ≤ s.size →
    Grows g root off (off + 8 * ws.length) s (putWords off ws s) ∧
      CellsAt (putWords off ws s).data off (ws.map .word) := by
  intro ws
  induction ws with
  | nil =>
    intro off s hs _
    exact ⟨Grows.refl hs _ _, cellsAt_nil _ _⟩
  | cons w ws ih =>
    intro off s hs hsize
    rw [length_cons] at hsize ⊢
    have hput : Grows g root off (off + 8) s (s.put off w) := grows_put hs off w
    have hle : off + 8 + 8 * ws.length ≤ (s.put off w).size := by
      show _ ≤ s.size
      omega
    obtain ⟨hrest, hcells⟩ := ih (off + 8) (s.put off w) hput.sound hle
    have heq : off + 8 * (ws.length + 1) = off + 8 + 8 * ws.length := by omega
    rw [heq]
    refine ⟨hput.append hrest (by omega) (by omega) (by omega), ?_⟩
    show CellsAt _ off (.word w :: ws.map .word)
    rw [cellsAt_cons]
    refine ⟨?_, hcells⟩
    show (putWords (off + 8) ws (s.put off w)).data off = _
    rw [hrest.frame off (by omega) (by omega), put_data_self]

/-! ### Loops -/

/-- The nodes that have not been seen. -/
def unseen (g : Graph cls) (s : FlatState) : Nat :=
  (g.support.filter fun p => s.off p = none).card

theorem unseen_le (h : ∀ p o, s.off p = some o → s'.off p = some o) : unseen g s' ≤ unseen g s := by
  refine Finset.card_le_card ?_
  intro p hp
  rw [Finset.mem_filter] at hp ⊢
  refine ⟨hp.1, ?_⟩
  cases hoff : s.off p with
  | none => rfl
  | some o =>
    rw [h p o hoff] at hp
    cases hp.2

/-- A call refuses a graph that is blocked, or ends well. -/
def Outcome {α : Type} (g : Graph cls) (root : LvValue) (good : α → Prop) : Except Fault α → Prop
  | .error e => (∃ msg, e = .refused msg) ∧ Blocked g root
  | .ok a => good a

theorem Outcome.imp {good good' : α → Prop} {x : Except Fault α} (h : Outcome g root good x)
    (himp : ∀ a, good a → good' a) : Outcome g root good' x := by
  cases x with
  | error e => exact h
  | ok a => exact himp a h

theorem Outcome.bind {β : Type} {good : α → Prop} {good' : β → Prop} {x : Except Fault α}
    {f : α → Except Fault β} (h : Outcome g root good x)
    (hf : ∀ a, good a → Outcome g root good' (f a)) : Outcome g root good' (x.bind f) := by
  cases x with
  | error e => exact h
  | ok a => exact hf a h

/-- What a walk from a slot does with fewer than `k` nodes to go. -/
def Walks (g : Graph cls) (root : LvValue) (k : Nat)
    (walk : FlatState → LvValue → Except Fault (LvValue × FlatState)) : Prop :=
  ∀ s v, s.Sound → unseen g s < k → Below g root v →
    Outcome g root (fun r => Grows g root 0 0 s r.2 ∧ Walked g r.2.off v ∧ r.1 = enc r.2.off v)
      (walk s v)

/-- Between two states the cells of the values `vs` have been written to `[lo, hi)`. -/
structure Filled (g : Graph cls) (root : LvValue) (lo hi : Nat) (vs : List LvValue)
    (cells : (LvValue → LvValue) → List Cell) (s s' : FlatState) : Prop where
  grows : Grows g root lo hi s s'
  walked : ∀ v ∈ vs, Walked g s'.off v
  cells : CellsAt s'.data lo (cells (enc s'.off))

theorem Filled.append {c : Nat} {us : List LvValue} {cells cells' : (LvValue → LvValue) → List Cell}
    (h : Filled g root a b us cells s s') (h' : Filled g root b c vs cells' s' s'')
    (hcells : CellsOf us n cells) (hb : a + n = b) (hbc : b ≤ c) (hc : c ≤ s.size) :
    Filled g root a c (us ++ vs) (fun f => cells f ++ cells' f) s s'' := by
  refine ⟨h.grows.append h'.grows (by omega) hbc hc, ?_, ?_⟩
  · intro v hv
    rcases List.mem_append.mp hv with hv | hv
    · exact (h.walked v hv).mono h'.grows.keeps
    · exact h'.walked v hv
  · have hsame : cells (enc s''.off) = cells (enc s'.off) := by
      refine hcells.congr _ _ ?_
      intro v hv
      exact enc_congr h'.grows.keeps (h.walked v hv).2
    have hlen := hcells.length (enc s'.off)
    have hlen' : 8 * (cells (enc s''.off)).length = n := hcells.length _
    have hsize := h.grows.size
    rw [cellsAt_append, hlen', hb]
    refine ⟨?_, h'.cells⟩
    rw [hsame]
    exact h.cells.grows h'.grows (by omega) (by omega)

variable {walk : FlatState → LvValue → Except Fault (LvValue × FlatState)} {k : Nat}

/-- What a walk adds before a store is above what is stored. -/
theorem Filled.after {cells : (LvValue → LvValue) → List Cell}
    (h : Filled g root a b vs cells s' s'') (hs : Grows g root 0 0 s s') (hb : b ≤ s.size) :
    Filled g root a b vs cells s s'' :=
  ⟨(hs.widen (.inr le_rfl) (.inr le_rfl)).trans h.grows hb, h.walked, h.cells⟩

theorem filled_putFv (hs : s.Sound) (hv : Walked g s.off v) (o : Nat) :
    Filled g root o (o + 16) [v] (fun f => fvCells (f v)) s (s.putFv o (enc s.off v)) := by
  have hput : Grows g root o (o + 16) s (s.putFv o (enc s.off v)) := grows_putFv hs o _
  refine ⟨hput, ?_, ?_⟩
  · intro w hw
    obtain rfl := List.mem_singleton.mp hw
    exact hv.mono hput.keeps
  · rw [enc_congr hput.keeps hv.2]
    exact cellsAt_putFv _ _ _

theorem filled_putWords (ws : List Nat) (o : Nat) (hs : s.Sound) (ho : o + 8 * ws.length ≤ s.size) :
    Filled g root o (o + 8 * ws.length) [] (fun _ => ws.map .word) s (putWords o ws s) := by
  obtain ⟨hgrows, hcells⟩ := putWords_spec ws o s hs ho
  refine ⟨hgrows, ?_, hcells⟩
  intro v hv
  cases hv

/-- A loop over what a node holds has no more nodes to go than the walk before it. -/
theorem Filled.unseen_lt {cells : (LvValue → LvValue) → List Cell}
    (h : Filled g root a b vs cells s s') (hk : unseen g s < k) : unseen g s' < k :=
  lt_of_le_of_lt (unseen_le h.grows.keeps) hk

/-- A loop over the members of a node: each turn writes the `w` bytes of one. -/
theorem loop_filled {held : α → List LvValue} {cells : (LvValue → LvValue) → α → List Cell}
    {base w : Nat} (loop : Nat → List α → FlatState → Except Fault FlatState)
    (turn : Nat → α → FlatState → Except Fault FlatState)
    (hcells : ∀ a, CellsOf (held a) w fun f => cells f a) (hnil : ∀ i s, loop i [] s = .ok s)
    (hcons : ∀ i a as s, loop i (a :: as) s = (turn i a s).bind (loop (i + 1) as))
    (hturn : ∀ i a (s : FlatState), s.Sound → unseen g s < k → (∀ v ∈ held a, Below g root v) →
      base + i * w + w ≤ s.size → Outcome g root
      (Filled g root (base + i * w) (base + i * w + w) (held a) (fun f => cells f a) s)
      (turn i a s)) (as : List α) (hvs : as.flatMap held = vs) :
    ∀ (i : Nat) (s : FlatState), s.Sound → unseen g s < k → (∀ v ∈ vs, Below g root v) →
      base + (i + as.length) * w ≤ s.size →
      Outcome g root (Filled g root (base + i * w) (base + (i + as.length) * w) vs
        (fun f => as.flatMap (cells f)) s) (loop i as s) := by
  subst hvs
  induction as with
  | nil =>
    intro i s hs _ _ _
    rw [hnil]
    refine ⟨Grows.refl hs _ _, ?_, cellsAt_nil _ _⟩
    intro v hv
    cases hv
  | cons a as ih =>
    intro i s hs hk hbelow hsize
    have hstart : base + (i + 1) * w = base + i * w + w := by
      rw [Nat.succ_mul, Nat.add_assoc]
    have hstop : i + (as.length + 1) = i + 1 + as.length := by omega
    have hle : base + i * w + w ≤ base + (i + 1 + as.length) * w := by
      rw [← hstart, Nat.add_mul (i + 1)]
      omega
    rw [length_cons, hstop] at hsize ⊢
    rw [hcons]
    refine (hturn i a s hs hk (fun v hv => hbelow v (mem_append_left _ hv))
      (hle.trans hsize)).bind ?_
    intro s1 hfirst
    refine (ih (i + 1) s1 hfirst.grows.sound (hfirst.unseen_lt hk)
      (fun v hv => hbelow v (mem_append_right _ hv))
      (hsize.trans hfirst.grows.size)).imp ?_
    intro s' hrest
    rw [hstart] at hrest
    exact hfirst.append hrest (hcells a) rfl hle hsize

theorem putSlots_filled (hwalk : Walks g root k walk) (base : Nat) (vs : List LvValue) :
    ∀ (i : Nat) (s : FlatState), s.Sound → unseen g s < k →
      (∀ v ∈ vs, Below g root v) → base + (i + vs.length) * 16 ≤ s.size →
      Outcome g root (Filled g root (base + i * 16) (base + (i + vs.length) * 16) vs
        (fun f => vs.flatMap fun v => fvCells (f v)) s) (putSlots walk base i vs s) := by
  refine loop_filled (putSlots walk base)
    (fun i v s => (walk s v).bind fun r => .ok (r.2.putFv (base + i * 16) r.1))
    cellsOf_fv (fun _ _ => rfl) ?_ ?_ vs (flatMap_singleton' vs)
  · intro i v vs s
    unfold putSlots
    cases walk s v <;> rfl
  · intro i v s hs hk hbelow hsize
    refine (hwalk s v hs hk (hbelow v (List.mem_singleton.mpr rfl))).bind ?_
    rintro r ⟨hgrows, hwalked, hfv⟩
    rw [hfv]
    exact (filled_putFv hgrows.sound hwalked _).after hgrows hsize

theorem putPairs_filled (hwalk : Walks g root k walk) (base : Nat) (es : List (Nat × LvValue)) :
    ∀ (i : Nat) (s : FlatState), s.Sound → unseen g s < k →
      (∀ v ∈ es.map Prod.snd, Below g root v) → base + (i + es.length) * 24 ≤ s.size →
      Outcome g root (Filled g root (base + i * 24) (base + (i + es.length) * 24)
        (es.map Prod.snd) (fun f => es.flatMap (pairCells f)) s) (putPairs walk base i es s) := by
  refine loop_filled (putPairs walk base)
    (fun i e s => (walk s e.2).bind fun r =>
      .ok ((r.2.put (base + i * 24) e.1).putFv (base + i * 24 + 8) r.1))
    cellsOf_pair (fun _ _ => rfl) ?_ ?_ es List.map_eq_flatMap.symm
  · intro i e es s
    unfold putPairs
    cases walk s e.2 <;> rfl
  · rintro i ⟨key, v⟩ s hs hk hbelow hsize
    refine (hwalk s v hs hk (hbelow v (List.mem_singleton.mpr rfl))).bind ?_
    rintro r ⟨hgrows, hwalked, hfv⟩
    have hle := hgrows.size
    have hkey : Filled g root (base + i * 24) (base + i * 24 + 8) []
        (fun _ => [key].map .word) r.2 (r.2.put (base + i * 24) key) := by
      refine filled_putWords [key] (base + i * 24) hgrows.sound ?_
      show _ + 8 * 1 ≤ _
      omega
    rw [hfv]
    exact (hkey.append (filled_putFv hkey.grows.sound hwalked _) (cellsOf_words [key]) rfl (by omega)
      (by omega)).after hgrows hsize

theorem putEntries_filled (hwalk : Walks g root k walk) (base : Nat)
    (es : List (LvValue × LvValue)) :
    ∀ (i : Nat) (s : FlatState), s.Sound → unseen g s < k →
      (∀ v ∈ (Node.map es).children, Below g root v) → base + (i + es.length) * 32 ≤ s.size →
      Outcome g root (Filled g root (base + i * 32) (base + (i + es.length) * 32)
        (Node.map es).children (fun f => es.flatMap (entryCells f)) s)
        (putEntries walk base i es s) := by
  refine loop_filled (putEntries walk base)
    (fun i e s => (walk s e.1).bind fun r => (walk r.2 e.2).bind fun r' =>
      .ok ((r'.2.putFv (base + i * 32) r.1).putFv (base + i * 32 + 16) r'.1))
    cellsOf_entry (fun _ _ => rfl) ?_ ?_ es rfl
  · intro i e es s
    unfold putEntries
    cases walk s e.1 with
    | error e => rfl
    | ok r =>
      dsimp only
      cases hr : walk r.2 e.2 <;> simp only [Except.bind, hr]
  · rintro i ⟨key, v⟩ s hs hk hbelow hsize
    refine (hwalk s key hs hk (hbelow key (by simp))).bind ?_
    rintro r ⟨hgrows, hwalked, hkf⟩
    refine (hwalk r.2 v hgrows.sound (lt_of_le_of_lt (unseen_le hgrows.keeps) hk)
      (hbelow v (by simp))).bind ?_
    rintro r' ⟨hgrows', hwalked', hvf⟩
    have hboth := hgrows.trans hgrows' (Nat.zero_le _)
    have hle := hboth.size
    have hkey : Filled g root (base + i * 32) (base + i * 32 + 16) [key]
        (fun f => fvCells (f key)) r'.2 (r'.2.putFv (base + i * 32) (enc r'.2.off key)) :=
      filled_putFv hgrows'.sound (hwalked.mono hgrows'.keeps) _
    -- the key keeps its encoding through the walk of the value
    rw [hkf, hvf, ← enc_congr hgrows'.keeps hwalked.2]
    exact (hkey.append (filled_putFv hkey.grows.sound hwalked' _) (cellsOf_fv key) rfl (by omega)
      (by omega)).after hboth hsize

/-! ### Records -/

/-- A new record, noted for the node `src`. -/
def FlatState.record (s : FlatState) (src bytes : Nat) : FlatState :=
  (s.alloc bytes).2.see src s.size

theorem record_holds (hs : s.Sound) (hnew : s.off src = none) (bytes : Nat) :
    ((s.record src bytes).seen).Holds hash fun p o =>
      s.off p = some o ∨ (p = src ∧ o = s.size) := by
  refine hs.holds.put ?_
  intro o h
  rw [hnew] at h
  cases h

theorem record_off (hs : s.Sound) (hnew : s.off src = none) (bytes p o : Nat) :
    (s.record src bytes).off p = some o ↔ s.off p = some o ∨ (p = src ∧ o = s.size) :=
  (record_holds hs hnew bytes).get_iff

theorem record_sound (hs : s.Sound) (hnew : s.off src = none) {bytes : Nat} (hbytes : 0 < bytes) :
    (s.record src bytes).Sound := by
  have hsize : s.size < (s.record src bytes).size := by
    show s.size < s.size + (bytes + 15) / 16 * 16
    omega
  have hoff := record_off hs hnew bytes
  refine ⟨?_, ?_, ?_⟩
  · have hR : (fun p o => (s.record src bytes).off p = some o) =
        fun p o => s.off p = some o ∨ (p = src ∧ o = s.size) := by
      funext p o
      exact propext (hoff p o)
    rw [hR]
    exact record_holds hs hnew bytes
  · intro p o h
    rcases (hoff p o).mp h with hold | ⟨_, rfl⟩
    · have := hs.lt_size p o hold
      omega
    · exact hsize
  · intro p q o hp hq
    rcases (hoff p o).mp hp with hpold | ⟨hpsrc, hpo⟩
    · rcases (hoff q o).mp hq with hqold | ⟨_, hqo⟩
      · exact hs.inj p q o hpold hqold
      · have := hs.lt_size p o hpold
        omega
    · rcases (hoff q o).mp hq with hqold | ⟨hqsrc, _⟩
      · have := hs.lt_size q o hqold
        omega
      · rw [hpsrc, hqsrc]

/-- One node fewer is left when a record is made. -/
theorem unseen_record (hs : s.Sound) (hnode : g.heap src = some node) (hnew : s.off src = none)
    (bytes : Nat) :
    unseen g (s.record src bytes) < unseen g s := by
  have hoff := record_off hs hnew bytes
  refine Finset.card_lt_card ?_
  rw [Finset.ssubset_iff_of_subset]
  · refine ⟨src, Finset.mem_filter.mpr ⟨g.mem_support src node hnode, hnew⟩, ?_⟩
    intro hmem
    have hnone := (Finset.mem_filter.mp hmem).2
    rw [(hoff src s.size).mpr (.inr ⟨rfl, rfl⟩)] at hnone
    cases hnone
  · intro p hp
    rw [Finset.mem_filter] at hp ⊢
    refine ⟨hp.1, ?_⟩
    cases hold : s.off p with
    | none => rfl
    | some o =>
      rw [(hoff p o).mpr (.inl hold)] at hp
      cases hp.2

/-- A record that has been filled is complete, and so is all that was added meanwhile. -/
theorem Filled.close {bytes : Nat}
    (h : Filled g root s.size hi node.children (node.cells cls) (s.record src bytes) s')
    (hs : s.Sound) (hnew : s.off src = none) (hnode : g.heap src = some node)
    (hreached : ∃ w, (w = root ∨ Below g root w) ∧ w.tag.isRef = true ∧ w.payload = src)
    (hfit : node.cellBytes ≤ (bytes + 15) / 16 * 16) :
    Grows g root 0 0 s s' ∧ s'.off src = some s.size := by
  have hoff := record_off hs hnew bytes
  have hsize : (s.record src bytes).size = s.size + (bytes + 15) / 16 * 16 := rfl
  have hle := h.grows.size
  have hlen := (node.cellsOf cls).length (enc s'.off)
  refine ⟨⟨h.grows.sound, by omega, ?_, ?_, ?_⟩, ?_⟩
  · intro p o hp
    exact h.grows.keeps p o ((hoff p o).mpr (.inl hp))
  · intro i hi' _
    rw [h.grows.frame i (by omega) (by omega)]
    show (if s.size ≤ i ∧ _ then _ else s.data i) = s.data i
    rw [if_neg (by omega)]
  · intro p o hp
    rcases h.grows.fresh p o hp with hold | ⟨hge, hc⟩
    · rcases (hoff p o).mp hold with hold | ⟨rfl, rfl⟩
      · exact .inl hold
      · exact .inr ⟨le_rfl, hreached, node, hnode, h.walked, by omega, h.cells⟩
    · exact .inr ⟨by omega, hc⟩
  · exact h.grows.keeps src s.size ((hoff src s.size).mpr (.inr ⟨rfl, rfl⟩))

theorem filled_putBytes (hs : s.Sound) (o : Nat) (data : List UInt8) :
    Filled g root o (o + 8 * ((data.length + 7) / 8)) [] (fun _ => byteCells data) s
      (s.putBytes o data) := by
  refine ⟨grows_of_data hs rfl rfl ?_, ?_, cellsAt_putBytes s o data⟩
  · intro i _ hout
    show (if o ≤ i ∧ i < o + data.length ∧ _ then _ else s.data i) = s.data i
    rw [if_neg (by omega)]
  · intro v hv
    cases hv

/-- A record is made, gets the head `ws` and is then filled by `r`. -/
theorem Outcome.close {m : Nat} {cells : (LvValue → LvValue) → List Cell}
    {r : Except Fault FlatState} (ws : List Nat) (bytes : Nat) (hs : s.Sound)
    (hnew : s.off src = none) (hnode : g.heap src = some node)
    (hreached : ∃ w, (w = root ∨ Below g root w) ∧ w.tag.isRef = true ∧ w.payload = src)
    (hcells : node.cells cls = fun f => ws.map .word ++ cells f)
    (hbytes : 8 * ws.length + m ≤ (bytes + 15) / 16 * 16) (hm : node.cellBytes = 8 * ws.length + m)
    (hpos : 0 < bytes)
    (h : (putWords s.size ws (s.record src bytes)).Sound →
      s.size + 8 * ws.length + m ≤ (putWords s.size ws (s.record src bytes)).size →
      unseen g (putWords s.size ws (s.record src bytes)) < unseen g s →
      Outcome g root (Filled g root (s.size + 8 * ws.length) (s.size + 8 * ws.length + m)
      node.children cells (putWords s.size ws (s.record src bytes))) r) :
    Outcome g root (fun r => r.1 = s.size ∧ Grows g root 0 0 s r.2 ∧ r.2.off src = some s.size)
      (match r with
        | .error e => .error e
        | .ok s' => .ok (s.size, s')) := by
  have hsize : (s.record src bytes).size = s.size + (bytes + 15) / 16 * 16 := rfl
  have hhead : Filled g root s.size (s.size + 8 * ws.length) [] (fun _ => ws.map .word)
      (s.record src bytes) (putWords s.size ws (s.record src bytes)) :=
    filled_putWords ws s.size (record_sound hs hnew hpos) (by omega)
  have hle := hhead.grows.size
  have hrest := h hhead.grows.sound (by omega)
    (hhead.unseen_lt (unseen_record hs hnode hnew bytes))
  cases r with
  | error e => exact hrest
  | ok s' =>
    refine ⟨rfl, ?_⟩
    have hfilled := hhead.append hrest (cellsOf_words ws) rfl (by omega) (by omega)
    rw [← hcells] at hfilled
    exact Filled.close hfilled hs hnew hnode hreached (by omega)

/-- A packed record: a head and a copied block. -/
theorem Outcome.closePacked (ws : List Nat) (bytes : Nat) (data : List UInt8) (hs : s.Sound)
    (hnew : s.off src = none) (hnode : g.heap src = some node)
    (hreached : ∃ w, (w = root ∨ Below g root w) ∧ w.tag.isRef = true ∧ w.payload = src)
    (hcells : node.cells cls = fun _ => ws.map .word ++ byteCells data)
    (hchildren : node.children = []) (hbytes : 8 * ws.length + data.length = bytes)
    (hws : 2 ≤ ws.length) (heven : 8 * ws.length + 8 * ((data.length + 7) / 8) = node.cellBytes) :
    Outcome g root (fun r => r.1 = s.size ∧ Grows g root 0 0 s r.2 ∧ r.2.off src = some s.size)
      (.ok (s.size, (putWords s.size ws (s.record src bytes)).putBytes
        (s.size + 8 * ws.length) data)) := by
  refine Outcome.close (r := .ok ((putWords s.size ws (s.record src bytes)).putBytes
    (s.size + 8 * ws.length) data)) ws bytes hs hnew hnode hreached hcells ?_ heven.symm ?_ ?_
  · omega
  · omega
  · intro hsound _ _
    rw [hchildren]
    exact filled_putBytes hsound _ data

/-- The slots of an object, the number of its dynamic fields and these. -/
def putFields (walk : FlatState → LvValue → Except Fault (LvValue × FlatState)) (o n : Nat)
    (slots : List LvValue) (dyn : List (Nat × LvValue)) (s : FlatState) : Except Fault FlatState :=
  match putSlots walk o 0 slots s with
  | .error e => .error e
  | .ok s => putPairs walk (o + n * 16 + 8) 0 dyn (s.put (o + n * 16) dyn.length)

theorem putFields_filled (hwalk : Walks g root k walk) (o : Nat) (slots : List LvValue)
    (dyn : List (Nat × LvValue)) (hs : s.Sound) (hk : unseen g s < k)
    (hbelow : ∀ v ∈ slots ++ dyn.map Prod.snd, Below g root v)
    (hsize : o + (slots.length * 16 + (8 + dyn.length * 24)) ≤ s.size) :
    Outcome g root (Filled g root o (o + (slots.length * 16 + (8 + dyn.length * 24)))
      (slots ++ dyn.map Prod.snd) (fun f => slots.flatMap (fun v => fvCells (f v)) ++
        (.word dyn.length :: dyn.flatMap (pairCells f))) s)
      (putFields walk o slots.length slots dyn s) := by
  have hslots := putSlots_filled hwalk o slots 0 s hs hk
    (fun v hv => hbelow v (mem_append_left _ hv)) (by omega)
  rw [Nat.zero_add, Nat.zero_mul, Nat.add_zero] at hslots
  unfold putFields
  cases hr : putSlots walk o 0 slots s with
  | error e =>
    rw [hr] at hslots
    exact hslots
  | ok s1 =>
    rw [hr] at hslots
    have hfilled : Filled g root o (o + slots.length * 16) slots
      (fun f => slots.flatMap (fun v => fvCells (f v))) s s1 := hslots
    have hle := hfilled.grows.size
    have hcount : Filled g root (o + slots.length * 16) (o + slots.length * 16 + 8) []
        (fun _ => [dyn.length].map .word) s1 (s1.put (o + slots.length * 16) dyn.length) :=
      filled_putWords [dyn.length] _ hfilled.grows.sound (by
        show _ + 8 * 1 ≤ _
        omega)
    have hle' := hcount.grows.size
    have hpairs := putPairs_filled hwalk (o + slots.length * 16 + 8) dyn 0 _
      hcount.grows.sound (hcount.unseen_lt (hfilled.unseen_lt hk))
      (fun v hv => hbelow v (mem_append_right _ hv)) (by omega)
    rw [Nat.zero_add, Nat.zero_mul, Nat.add_zero] at hpairs
    dsimp only
    cases hr' : putPairs walk (o + slots.length * 16 + 8) 0 dyn
        (s1.put (o + slots.length * 16) dyn.length) with
    | error e =>
      rw [hr'] at hpairs
      exact hpairs
    | ok s' =>
      rw [hr'] at hpairs
      have hrest := hcount.append hpairs (cellsOf_words [dyn.length]) rfl (by omega) (by omega)
      have hstop : o + slots.length * 16 + 8 + dyn.length * 24 =
          o + (slots.length * 16 + (8 + dyn.length * 24)) := by omega
      rw [hstop] at hrest
      exact hfilled.append hrest (cellsOf_slots slots) rfl (by omega) hsize

/-- The record of an object. -/
theorem putNode_obj (src classId : Nat) (slots : List LvValue) (dyn : List (Nat × LvValue))
    (s : FlatState) :
    putNode cls walk src s (.obj classId slots dyn) =
      match putFields walk (s.size + 32) (cls.fieldCount classId) slots dyn
          (putWords s.size [Tag.obj.code,
              16 + 8 + 8 + cls.fieldCount classId * 16 + 8 + dyn.length * 24, classId,
              cls.fieldCount classId]
            (s.record src (16 + 8 + 8 + cls.fieldCount classId * 16 + 8 + dyn.length * 24))) with
      | .error e => .error e
      | .ok s' => .ok (s.size, s') := by
  generalize hs0 : putWords s.size _ (s.record src _) = s0
  have hunfold : putNode cls walk src s (.obj classId slots dyn) =
      match putSlots walk (s.size + 32) 0 slots s0 with
      | .error e => .error e
      | .ok s1 =>
        match putPairs walk (s.size + 32 + cls.fieldCount classId * 16 + 8) 0 dyn
            (s1.put (s.size + 32 + cls.fieldCount classId * 16) dyn.length) with
        | .error e => .error e
        | .ok s' => .ok (s.size, s') := by
    rw [← hs0]
    rfl
  unfold putFields
  rw [hunfold]
  cases putSlots walk (s.size + 32) 0 slots s0 with
  | error e => rfl
  | ok s1 => rfl

/-- The record of a new node: what is held is walked, and the record becomes complete. -/
theorem putNode_spec (hwalk : Walks g root k walk) (hs : s.Sound) (hnew : s.off src = none)
    (hnode : g.heap src = some node) (hk : unseen g s < k + 1)
    (hbelow : ∀ c ∈ node.children, Below g root c)
    (hreached : ∃ w, (w = root ∨ Below g root w) ∧ w.tag.isRef = true ∧ w.payload = src)
    (hblock : node ≠ .block) :
    Outcome g root (fun r => r.1 = s.size ∧ Grows g root 0 0 s r.2 ∧ r.2.off src = some s.size)
      (putNode cls walk src s node) := by
  have hformed := g.formed src node hnode
  cases node with
  | block => exact absurd rfl hblock
  | str bytes =>
    have hbytes : 8 * 3 + bytes.length = 16 + 8 + bytes.length := by omega
    exact Outcome.closePacked [Tag.str.code, 16 + 8 + bytes.length, bytes.length] _ bytes hs hnew
      hnode hreached rfl rfl hbytes (Nat.le_add_left 2 _) rfl
  | dense recBytes len data =>
    have hlen : data.length = len * recBytes := hformed.1
    have hbytes : 8 * 4 + data.length = 16 + 8 + 8 + len * recBytes := by omega
    exact Outcome.closePacked [Tag.arr.code, 16 + 8 + 8 + len * recBytes, len + denseBit, recBytes]
      _ data hs hnew hnode hreached rfl rfl hbytes (Nat.le_add_left 2 _) rfl
  | columnar classId len data =>
    have hlen : data.length = cls.fieldCount classId * 8 * len := hformed.1
    have hbytes : 8 * 4 + data.length = 16 + 8 + 8 + cls.fieldCount classId * 8 * len := by omega
    exact Outcome.closePacked [Tag.arr.code, 16 + 8 + 8 + cls.fieldCount classId * 8 * len,
      len + denseBit + columnBit, classId] _ data hs hnew hnode hreached rfl rfl hbytes
      (Nat.le_add_left 2 _) rfl
  | arr elems =>
    refine Outcome.close [Tag.arr.code, 16 + 8 + elems.length * 16, elems.length]
      (16 + 8 + elems.length * 16) hs hnew hnode hreached rfl ?_ rfl (by omega) ?_
    · show 24 + elems.length * 16 ≤ _
      omega
    · intro hsound hsize hfew
      have h := putSlots_filled hwalk (s.size + 24) elems 0 _ hsound (by omega) hbelow
        (by rw [Nat.zero_add]; exact hsize)
      rw [Nat.zero_add, Nat.zero_mul] at h
      exact h
  | map entries =>
    refine Outcome.close [Tag.map.code, 16 + 8 + entries.length * 32, entries.length]
      (16 + 8 + entries.length * 32) hs hnew hnode hreached rfl ?_ rfl (by omega) ?_
    · show 24 + entries.length * 32 ≤ _
      omega
    · intro hsound hsize hfew
      have h := putEntries_filled hwalk (s.size + 24) entries 0 _ hsound (by omega) hbelow
        (by rw [Nat.zero_add]; exact hsize)
      rw [Nat.zero_add, Nat.zero_mul] at h
      exact h
  | clo fnIndex captures =>
    refine Outcome.close [Tag.clo.code, 16 + 8 + 8 + captures.length * 24, fnIndex, captures.length]
      (16 + 8 + 8 + captures.length * 24) hs hnew hnode hreached rfl ?_ rfl (by omega) ?_
    · show 32 + captures.length * 24 ≤ _
      omega
    · intro hsound hsize hfew
      have h := putPairs_filled hwalk (s.size + 32) captures 0 _ hsound (by omega) hbelow
        (by rw [Nat.zero_add]; exact hsize)
      rw [Nat.zero_add, Nat.zero_mul] at h
      exact h
  | obj classId slots dyn =>
    have hslots : slots.length = cls.fieldCount classId := hformed.1
    have hm : (Node.obj classId slots dyn).cellBytes =
        8 * 4 + (slots.length * 16 + (8 + dyn.length * 24)) := rfl
    have hcells : (fun f => (Node.obj classId slots dyn).cells cls f) = fun f =>
        [Tag.obj.code, 16 + 8 + 8 + slots.length * 16 + 8 + dyn.length * 24, classId,
          slots.length].map .word ++ (slots.flatMap (fun v => fvCells (f v)) ++
            (.word dyn.length :: dyn.flatMap (pairCells f))) := by
      rw [hslots]
      rfl
    rw [putNode_obj, ← hslots]
    refine Outcome.close _ (16 + 8 + 8 + slots.length * 16 + 8 + dyn.length * 24) hs hnew hnode
      hreached hcells ?_ hm (by omega) ?_
    · show 32 + (slots.length * 16 + (8 + dyn.length * 24)) ≤ _
      omega
    · intro hsound hsize hfew
      exact putFields_filled hwalk _ slots dyn hsound (by omega) hbelow hsize

/-! ### The whole walk -/

theorem Below.typed (h : Below g root v) : Typed g.heap v := by
  obtain ⟨u, _, href, node, hnode, hmem⟩ := Relation.TransGen.tail'_iff.mp h
  exact g.typed _ node hnode v hmem

/-- Where `lv_flatten` is called: on the root, or on a value in a slot. -/
def Position (g : Graph cls) (root : LvValue) (isRoot : Bool) (v : LvValue) : Prop :=
  (isRoot = true ∧ v = root) ∨ (isRoot = false ∧ Below g root v)

theorem Position.typed (hroot : Typed g.heap root) (h : Position g root isRoot v) :
    Typed g.heap v := by
  rcases h with ⟨_, rfl⟩ | ⟨_, h⟩
  · exact hroot
  · exact h.typed

theorem Position.child {c : LvValue} (h : Position g root isRoot v) (hc : Child g.heap v c) :
    Below g root c := by
  rcases h with ⟨_, rfl⟩ | ⟨_, h⟩
  · exact .single hc
  · exact .tail h hc

theorem Position.reached (h : Position g root isRoot v) : v = root ∨ Below g root v := by
  rcases h with ⟨_, h⟩ | ⟨_, h⟩
  · exact .inl h
  · exact .inr h

theorem Position.blocked (h : Position g root isRoot v) (hv : RefusedAt cls g.heap isRoot v) :
    Blocked g root := by
  rcases h with ⟨rfl, rfl⟩ | ⟨rfl, h⟩
  · exact .inl hv
  · exact .inr ⟨v, h, hv⟩

theorem flatten_spec (hroot : Typed g.heap root) : ∀ (fuel : Nat) (isRoot : Bool) (s : FlatState)
    (v : LvValue), s.Sound → unseen g s < fuel → Position g root isRoot v →
    Outcome g root (fun r => Grows g root 0 0 s r.2 ∧ ¬ RefusedAt cls g.heap isRoot v ∧
      (v.tag.isRef = true → ∃ o, r.2.off v.payload = some o) ∧ r.1 = enc r.2.off v)
      (flatten cls g.heap fuel isRoot s v) := by
  intro fuel
  induction fuel with
  | zero =>
    intro isRoot s v _ hk
    omega
  | succ fuel ih =>
    intro isRoot s v hs hk hpos
    have hwalk : Walks g root fuel (flatten cls g.heap fuel false) := by
      intro s v hs hk hbelow
      have h := ih false s v hs hk (.inr ⟨rfl, hbelow⟩)
      cases hr : flatten cls g.heap fuel false s v with
      | error e =>
        rw [hr] at h
        exact h
      | ok r =>
        rw [hr] at h
        exact ⟨h.1, ⟨h.2.1, h.2.2.1⟩, h.2.2.2⟩
    unfold flatten
    by_cases href : v.tag.isRef = true
    · obtain ⟨node, hnode, htag⟩ := hpos.typed hroot href
      rw [if_pos href, hnode]
      dsimp only
      cases hrefusal : refusal cls isRoot node with
      | some msg =>
        exact ⟨⟨msg, rfl⟩, hpos.blocked ⟨href, node, msg, hnode, hrefusal⟩⟩
      | none =>
        have hfree : ¬ RefusedAt cls g.heap isRoot v := by
          intro h
          obtain ⟨_, node', msg, hnode', hmsg⟩ := h
          rw [hnode] at hnode'
          cases hnode'
          rw [hrefusal] at hmsg
          cases hmsg
        cases hseen : s.seen.get hash v.payload with
        | some o =>
          have hoff : s.off v.payload = some o := hseen
          refine ⟨Grows.refl hs 0 0, hfree, fun _ => ⟨o, hoff⟩, ?_⟩
          dsimp only
          unfold enc
          rw [if_pos href, hoff]
          rfl
        | none =>
          have hblock : node ≠ .block := by
            intro h
            rw [h] at hrefusal
            cases hrefusal
          have hput := putNode_spec hwalk hs hseen hnode (by omega)
            (fun c hc => hpos.child ⟨href, node, hnode, hc⟩)
            ⟨v, hpos.reached, href, rfl⟩ hblock
          dsimp only
          cases hr : putNode cls (flatten cls g.heap fuel false) v.payload s node with
          | error e =>
            rw [hr] at hput
            exact hput
          | ok r =>
            rw [hr] at hput
            obtain ⟨hoff, hgrows, hknown⟩ := hput
            refine ⟨hgrows, hfree, fun _ => ⟨_, hknown⟩, ?_⟩
            dsimp only
            unfold enc
            rw [if_pos href, hknown, hoff]
            rfl
    · have hfree : ¬ RefusedAt cls g.heap isRoot v := fun h => href h.1
      rw [if_neg href]
      by_cases hweak : v.tag = .weakProxy
      · rw [if_pos hweak]
        refine ⟨Grows.refl hs 0 0, hfree, fun h => absurd h href, ?_⟩
        dsimp only
        unfold enc
        rw [if_neg href, if_pos hweak]
      · rw [if_neg hweak]
        refine ⟨Grows.refl hs 0 0, hfree, fun h => absurd h href, ?_⟩
        dsimp only
        unfold enc
        rw [if_neg href, if_neg hweak]

/-- A finished buffer: its header, and the records of all that the root reaches. -/
structure Flattened (g : Graph cls) (root : LvValue) (s : FlatState) : Prop where
  sound : s.Sound
  complete : ∀ p o, s.off p = some o → Complete g root s p o
  known : root.tag.isRef = true → ∃ o, s.off root.payload = some o
  header : CellsAt s.data 0
    [.word s.size, .word (enc s.off root).tag.code, .word (enc s.off root).payload]
  accepted : ¬ RefusedAt cls g.heap true root

theorem off_init (p : Nat) : FlatState.init.off p = none :=
  (Table.holds_empty (by decide)).get_eq_none (R := fun _ _ => False) (by
    intro v h
    exact h)

theorem sound_init : FlatState.init.Sound := by
  refine ⟨?_, ?_, ?_⟩
  · have hR : (fun p o => FlatState.init.off p = some o) = fun _ _ => False := by
      funext p o
      rw [off_init]
      simp
    rw [hR]
    exact Table.holds_empty (by decide)
  · intro p o h
    rw [off_init] at h
    cases h
  · intro p q o h
    rw [off_init] at h
    cases h

/-- **The walk fails if the graph is blocked, and else it writes the buffer.** -/
theorem threadFlatten_spec (hroot : Typed g.heap root) :
    Outcome g root (Flattened g root) (threadFlatten cls g.heap g.support.card root) := by
  have hfuel : unseen g FlatState.init < g.support.card + 1 :=
    Nat.lt_succ_of_le (Finset.card_filter_le _ _)
  have h := flatten_spec hroot (g.support.card + 1) true .init root sound_init hfuel
    (.inl ⟨rfl, rfl⟩)
  unfold threadFlatten
  cases hr : flatten cls g.heap (g.support.card + 1) true .init root with
  | error e =>
    rw [hr] at h
    exact h
  | ok r =>
    rw [hr] at h
    obtain ⟨hgrows, hfree, hknown, hfv⟩ := h
    obtain ⟨fv, s⟩ := r
    dsimp only at hgrows hknown hfv ⊢
    have hsize := hgrows.size
    have hinit : FlatState.init.size = 32 := rfl
    -- the header is below every record
    obtain ⟨hhead, hcells⟩ := @putWords_spec cls g root
      [s.size, fv.tag.code, fv.payload] 0 s hgrows.sound (by
        show 0 + 8 * 3 ≤ s.size
        omega)
    refine ⟨hhead.sound, ?_, hknown, ?_, hfree⟩
    · intro p o hp
      rcases hhead.fresh p o hp with hold | ⟨_, hc⟩
      · rcases hgrows.fresh p o hold with hnone | ⟨hle, hc⟩
        · rw [off_init] at hnone
          cases hnone
        · refine hc.mono hhead ?_
          show 0 + 8 * 3 ≤ o
          omega
      · exact hc
    · rw [hfv] at hcells
      rw [hfv]
      exact hcells

/-- All that the root reaches has been walked. -/
theorem Flattened.below (h : Flattened g root s) {w : LvValue} (hw : Below g root w) :
    Walked g s.off w := by
  -- by induction over the path: a value on it has a complete record
  have hstep : ∀ u c, Child g.heap u c → (u.tag.isRef = true → ∃ o, s.off u.payload = some o) →
      Walked g s.off c := by
    intro u c hc hu
    obtain ⟨href, node, hnode, hmem⟩ := hc
    obtain ⟨o, ho⟩ := hu href
    obtain ⟨node', hnode', hwalked, _⟩ := (h.complete _ _ ho).record
    rw [hnode] at hnode'
    cases hnode'
    exact hwalked c hmem
  induction hw with
  | single hc => exact hstep _ _ hc h.known
  | tail _ hc ih => exact hstep _ _ hc ih.2

theorem Flattened.not_blocked (h : Flattened g root s) : ¬ Blocked g root := by
  intro hblocked
  rcases hblocked with hroot | ⟨w, hw, hrefused⟩
  · exact h.accepted hroot
  · exact (h.below hw).1 hrefused

end Walk

end Leviathan.Runtime.Transfer
