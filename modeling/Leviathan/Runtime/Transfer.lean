import Leviathan.Lib.ProbeTable

/-!
# Values that cross a thread boundary

A value crosses from one thread to another as a buffer: `lv_thread_flatten` walks the
graph of the value into records that refer to one another by their offsets in the buffer,
and `lv_thread_rebuild` reads the records back into nodes of the receiving thread's heap.

The heap of a thread is a map from addresses to nodes.  A node is read through its
constructor; what the runtime keeps in the head word of an array is the constructor of the
array node.  Interned keys and class ids are numbers.  The buffer is addressed in bytes,
with one cell for each eight of them: a word, or a piece of a string or of a packed array.
Growing the buffer copies it and is left out.

Both walks take a fuel, for the nesting of the calls.  `Runtime.TransferFlatten` and
`Runtime.TransferRebuild` show that the fuels given here are enough.
-/

namespace Leviathan.Runtime.Transfer

open Leviathan.ProbeTable

/-- `LV_*`: the tag of a value. -/
inductive Tag
  | void
  | int
  | float
  | bool
  | str
  | obj
  | arr
  | map
  | none
  | clo
  | char
  | block
  | weakProxy
  deriving DecidableEq, Repr

namespace Tag

/-- The number that stands for a tag. -/
def code : Tag → Nat
  | void => 0
  | int => 1
  | float => 2
  | bool => 3
  | str => 4
  | obj => 5
  | arr => 6
  | map => 7
  | none => 8
  | clo => 9
  | char => 10
  | block => 11
  | weakProxy => 12

/-- The tag a number stands for. -/
def ofCode : Nat → Tag
  | 1 => int
  | 2 => float
  | 3 => bool
  | 4 => str
  | 5 => obj
  | 6 => arr
  | 7 => map
  | 8 => none
  | 9 => clo
  | 10 => char
  | 11 => block
  | 12 => weakProxy
  | _ => void

@[simp] theorem ofCode_code (t : Tag) : ofCode t.code = t := by
  cases t <;> rfl

/-- The payload of a value of this tag is the address of a node that a transfer copies or
refuses. -/
def isRef : Tag → Bool
  | str => true
  | obj => true
  | arr => true
  | map => true
  | clo => true
  | block => true
  | _ => false

end Tag

/-- `LvValue`: a tag with an immediate or an address; in a buffer, with an offset. -/
structure LvValue where
  tag : Tag
  payload : Nat
  deriving DecidableEq, Repr

/-- What zeroed memory reads as. -/
def LvValue.void : LvValue := ⟨.void, 0⟩

/-- What a weak slot becomes. -/
def LvValue.none : LvValue := ⟨.none, 0⟩

/-- A node of the heap.  An object and a closure hold their dynamic fields and captures in
the order of the linked list. -/
inductive Node
  | str (bytes : List UInt8)
  | obj (classId : Nat) (slots : List LvValue) (dyn : List (Nat × LvValue))
  | arr (elems : List LvValue)
  | dense (recBytes len : Nat) (data : List UInt8)
  | columnar (classId len : Nat) (data : List UInt8)
  | map (entries : List (LvValue × LvValue))
  | clo (fnIndex : Nat) (captures : List (Nat × LvValue))
  | block
  deriving DecidableEq, Repr

namespace Node

/-- The tag of the values that refer to the node. -/
def tag : Node → Tag
  | str _ => .str
  | obj _ _ _ => .obj
  | arr _ => .arr
  | dense _ _ _ => .arr
  | columnar _ _ _ => .arr
  | map _ => .map
  | clo _ _ => .clo
  | block => .block

/-- The values a node holds. -/
def children : Node → List LvValue
  | str _ => []
  | obj _ slots dyn => slots ++ dyn.map Prod.snd
  | arr elems => elems
  | dense _ _ _ => []
  | columnar _ _ _ => []
  | map entries => entries.flatMap fun e => [e.1, e.2]
  | clo _ captures => captures.map Prod.snd
  | block => []

end Node

/-- The tables of the generated program that the runtime consults. -/
structure Classes where
  fieldCount : Nat → Nat
  fieldIndex : Nat → Nat → Option Nat
  isValueClass : Nat → Bool
  classIs : Nat → String → Bool
  className : Nat → Option String
  hasDispose : Nat

variable (cls : Classes)

/-- `lvrt_getfield`. -/
def getField (classId : Nat) (slots : List LvValue) (dyn : List (Nat × LvValue)) (key : Nat) :
    LvValue :=
  match cls.fieldIndex classId key with
  | some i => slots.getD i .void
  | none => ((dyn.find? fun e => e.1 = key).map Prod.snd).getD .void

/-- `lv_flat_fail_type`, up to the length of the message. -/
def failType (classId : Nat) (suffix : String) : String :=
  "value of type " ++ (cls.className classId).getD "?" ++
    " cannot cross a thread boundary (v1)" ++ suffix

/-- Why `lv_flatten` does not take a node, if it does not. -/
def refusal (isRoot : Bool) : Node → Option String
  | .block => some "a Block cannot cross a thread boundary (v1)"
  | .clo _ _ => if isRoot then none else some "a closure cannot cross a thread boundary (v1)"
  | .obj classId slots dyn =>
    if cls.classIs classId "Promise" then some (failType cls classId "; pass a Channel")
    else if cls.classIs classId "TcpStream" || cls.classIs classId "TcpListener" ||
        cls.classIs classId "Timer" || cls.classIs classId "Process" ||
        cls.classIs classId "TcpConnector" then some (failType cls classId "")
    else if cls.classIs classId "InStream" then
      let hd := getField cls classId slots dyn cls.hasDispose
      if hd.tag = .bool ∧ hd.payload ≠ 0 then some (failType cls classId "") else none
    else none
  | _ => none

/-! ### The buffer -/

/-- Eight bytes of the buffer. -/
inductive Cell
  | word (w : Nat)
  | bytes (b : List UInt8)
  deriving DecidableEq, Repr

/-- `LvFlatBuf` with the table of the nodes seen. -/
structure FlatState where
  data : Nat → Cell
  size : Nat
  seen : Table Nat Nat

/-- The multiplication by which both tables hash, in 64 bits. -/
def hash (src : Nat) : Nat := src * 1099511628211 % 2 ^ 64

namespace FlatState

/-- `lv_flat_alloc`: the offset of a record, which is zeroed and 16-byte aligned. -/
def alloc (s : FlatState) (bytes : Nat) : Nat × FlatState :=
  let bytes := (bytes + 15) / 16 * 16
  (s.size, { s with
    data := fun i => if s.size ≤ i ∧ i < s.size + bytes then .word 0 else s.data i
    size := s.size + bytes })

/-- Store a word. -/
def put (s : FlatState) (off w : Nat) : FlatState :=
  { s with data := Function.update s.data off (.word w) }

/-- `lv_flat_put_fv`. -/
def putFv (s : FlatState) (off : Nat) (fv : LvValue) : FlatState :=
  (s.put off fv.tag.code).put (off + 8) fv.payload

/-- `memcpy` of a string or of a packed array. -/
def putBytes (s : FlatState) (off : Nat) (data : List UInt8) : FlatState :=
  { s with data := fun i =>
      if off ≤ i ∧ i < off + data.length ∧ (i - off) % 8 = 0 then
        .bytes ((data.drop (i - off)).take 8)
      else s.data i }

/-- `lv_seen_put`. -/
def see (s : FlatState) (src off : Nat) : FlatState :=
  { s with seen := s.seen.put hash src off }

end FlatState

/-- Why a walk stops: a node that may not cross, or a call that does not come to an end or
follows no node. -/
inductive Fault
  | refused (msg : String)
  | stuck
  deriving DecidableEq, Repr

/-- The two top bits of the head word of a packed array. -/
def denseBit : Nat := 2 ^ 63

def columnBit : Nat := 2 ^ 62

section Flatten

variable (walk : FlatState → LvValue → Except Fault (LvValue × FlatState))

/-- Flatten values one after the other, each into the next 16 bytes. -/
def putSlots (base : Nat) : Nat → List LvValue → FlatState → Except Fault FlatState
  | _, [], s => .ok s
  | i, v :: vs, s =>
    match walk s v with
    | .error e => .error e
    | .ok (fv, s) => putSlots base (i + 1) vs (s.putFv (base + i * 16) fv)

/-- Flatten dynamic fields or captures, each with its key into the next 24 bytes. -/
def putPairs (base : Nat) : Nat → List (Nat × LvValue) → FlatState → Except Fault FlatState
  | _, [], s => .ok s
  | i, (key, v) :: rest, s =>
    match walk s v with
    | .error e => .error e
    | .ok (fv, s) =>
      putPairs base (i + 1) rest ((s.put (base + i * 24) key).putFv (base + i * 24 + 8) fv)

/-- Flatten the entries of a map, each into the next 32 bytes. -/
def putEntries (base : Nat) : Nat → List (LvValue × LvValue) → FlatState → Except Fault FlatState
  | _, [], s => .ok s
  | i, (k, v) :: rest, s =>
    match walk s k with
    | .error e => .error e
    | .ok (kf, s) =>
      match walk s v with
      | .error e => .error e
      | .ok (vf, s) =>
        putEntries base (i + 1) rest
          ((s.putFv (base + i * 32) kf).putFv (base + i * 32 + 16) vf)

/-- The record of a node that has not been seen: allocate it, note its offset, write its
head, then walk what the node holds. -/
def putNode (src : Nat) (s : FlatState) : Node → Except Fault (Nat × FlatState)
  | .str bytes =>
    let (off, s) := s.alloc (16 + 8 + bytes.length)
    let s := s.see src off
    let s := ((s.put off Tag.str.code).put (off + 8) (16 + 8 + bytes.length)).put (off + 16)
      bytes.length
    .ok (off, s.putBytes (off + 24) bytes)
  | .obj classId slots dyn =>
    let nslots := cls.fieldCount classId
    let recBytes := 16 + 8 + 8 + nslots * 16 + 8 + dyn.length * 24
    let (off, s) := s.alloc recBytes
    let s := s.see src off
    let s := (((s.put off Tag.obj.code).put (off + 8) recBytes).put (off + 16) classId).put
      (off + 24) nslots
    match putSlots walk (off + 32) 0 slots s with
    | .error e => .error e
    | .ok s =>
      let dynBase := off + 32 + nslots * 16
      match putPairs walk (dynBase + 8) 0 dyn (s.put dynBase dyn.length) with
      | .error e => .error e
      | .ok s => .ok (off, s)
  | .arr elems =>
    let recBytes := 16 + 8 + elems.length * 16
    let (off, s) := s.alloc recBytes
    let s := s.see src off
    let s := ((s.put off Tag.arr.code).put (off + 8) recBytes).put (off + 16) elems.length
    match putSlots walk (off + 24) 0 elems s with
    | .error e => .error e
    | .ok s => .ok (off, s)
  | .dense recBytes len data =>
    let dataBytes := len * recBytes
    let (off, s) := s.alloc (16 + 8 + 8 + dataBytes)
    let s := s.see src off
    let s := (((s.put off Tag.arr.code).put (off + 8) (16 + 8 + 8 + dataBytes)).put (off + 16)
      (len + denseBit)).put (off + 24) recBytes
    .ok (off, s.putBytes (off + 32) data)
  | .columnar classId len data =>
    let dataBytes := cls.fieldCount classId * 8 * len
    let (off, s) := s.alloc (16 + 8 + 8 + dataBytes)
    let s := s.see src off
    let s := (((s.put off Tag.arr.code).put (off + 8) (16 + 8 + 8 + dataBytes)).put (off + 16)
      (len + denseBit + columnBit)).put (off + 24) classId
    .ok (off, s.putBytes (off + 32) data)
  | .map entries =>
    let recBytes := 16 + 8 + entries.length * 32
    let (off, s) := s.alloc recBytes
    let s := s.see src off
    let s := ((s.put off Tag.map.code).put (off + 8) recBytes).put (off + 16) entries.length
    match putEntries walk (off + 24) 0 entries s with
    | .error e => .error e
    | .ok s => .ok (off, s)
  | .clo fnIndex captures =>
    let recBytes := 16 + 8 + 8 + captures.length * 24
    let (off, s) := s.alloc recBytes
    let s := s.see src off
    let s := (((s.put off Tag.clo.code).put (off + 8) recBytes).put (off + 16) fnIndex).put
      (off + 24) captures.length
    match putPairs walk (off + 32) 0 captures s with
    | .error e => .error e
    | .ok s => .ok (off, s)
  | .block => .error .stuck

end Flatten

/-- `lv_flatten`. -/
def flatten (heap : Nat → Option Node) :
    Nat → Bool → FlatState → LvValue → Except Fault (LvValue × FlatState)
  | 0, _, _, _ => .error .stuck
  | fuel + 1, isRoot, s, v =>
    if v.tag.isRef then
      match heap v.payload with
      | none => .error .stuck
      | some node =>
        match refusal cls isRoot node with
        | some msg => .error (.refused msg)
        | none =>
          match s.seen.get hash v.payload with
          | some off => .ok (⟨v.tag, off⟩, s)
          | none =>
            match putNode cls (flatten heap fuel false) v.payload s node with
            | .error e => .error e
            | .ok (off, s) => .ok (⟨v.tag, off⟩, s)
    else if v.tag = .weakProxy then .ok (.none, s)
    else .ok (v, s)

/-- The buffer before the first record: a header of four words. -/
def FlatState.init : FlatState := ⟨fun _ => .word 0, 32, .empty 64⟩

/-- `lv_thread_flatten`, with the number of nodes as its fuel. -/
def threadFlatten (heap : Nat → Option Node) (nodes : Nat) (v : LvValue) :
    Except Fault FlatState :=
  match flatten cls heap (nodes + 1) true .init v with
  | .error e => .error e
  | .ok (fv, s) => .ok (((s.put 0 s.size).put 8 fv.tag.code).put 16 fv.payload)

/-! ### Rebuilding -/

/-- The heap of the receiving thread: its nodes with their reference counts.  A new node
gets the next free address. -/
structure Heap where
  node : Nat → Option Node
  rc : Nat → Nat
  next : Nat
  seen : Table Nat LvValue

namespace Heap

/-- `lv_halloc_prefixed`: a new node without owners. -/
def alloc (h : Heap) (node : Node) : Nat × Heap :=
  (h.next, { h with
    node := Function.update h.node h.next (some node)
    rc := Function.update h.rc h.next 0
    next := h.next + 1 })

/-- Change a node in place. -/
def modify (h : Heap) (p : Nat) (f : Node → Node) : Heap :=
  { h with node := Function.update h.node p ((h.node p).map f) }

/-- `lv_is_counted`: value structs are not counted. -/
def isCounted (h : Heap) (v : LvValue) : Bool :=
  v.tag.isRef &&
    match h.node v.payload with
    | some (.obj classId _ _) => !cls.isValueClass classId
    | some _ => true
    | none => false

/-- `lvrt_retain`. -/
def retain (h : Heap) (v : LvValue) : Heap :=
  if h.isCounted cls v then { h with rc := Function.update h.rc v.payload (h.rc v.payload + 1) }
  else h

/-- `lv_reb_put`. -/
def see (h : Heap) (off : Nat) (v : LvValue) : Heap :=
  { h with seen := h.seen.put hash off v }

end Heap

namespace Node

/-- Store to a slot of an object, or to an element of an array. -/
def setSlot (i : Nat) (v : LvValue) : Node → Node
  | .obj classId slots dyn => .obj classId (slots.set i v) dyn
  | .arr elems => .arr (elems.set i v)
  | node => node

/-- Store the key of an entry of a map. -/
def setKey (i : Nat) (v : LvValue) : Node → Node
  | .map entries => .map (entries.modify i fun e => (v, e.2))
  | node => node

/-- Store the value of an entry of a map. -/
def setVal (i : Nat) (v : LvValue) : Node → Node
  | .map entries => .map (entries.modify i fun e => (e.1, v))
  | node => node

end Node

/-- `lv_dyn_set`: a new key goes to the front of the list. -/
def dynSet (dyn : List (Nat × LvValue)) (key : Nat) (v : LvValue) : List (Nat × LvValue) :=
  if dyn.any fun e => e.1 = key then dyn.map fun e => if e.1 = key then (key, v) else e
  else (key, v) :: dyn

/-- `lvrt_setfield` on an object, `lvrt_capture_set` on a closure. -/
def Node.setDyn (key : Nat) (v : LvValue) : Node → Node
  | .obj classId slots dyn =>
    match cls.fieldIndex classId key with
    | some i => .obj classId (slots.set i v) dyn
    | none => .obj classId slots (dynSet dyn key v)
  | .clo fnIndex captures => .clo fnIndex (dynSet captures key v)
  | node => node

section Rebuild

variable (buf : Nat → Cell)

/-- Load a word of the buffer. -/
def ld (off : Nat) : Nat :=
  match buf off with
  | .word w => w
  | .bytes _ => 0

/-- Load a flattened value. -/
def ldFv (off : Nat) : LvValue := ⟨Tag.ofCode (ld buf off), ld buf (off + 8)⟩

/-- `memcpy` of `len` bytes out of the buffer. -/
def ldBytes (off len : Nat) : List UInt8 :=
  ((List.range ((len + 7) / 8)).flatMap fun i =>
    match buf (off + 8 * i) with
    | .bytes b => b
    | .word _ => []).take len

variable (walk : Heap → LvValue → Option (LvValue × Heap))

/-- `lv_rebuild_store` to the slots or elements `i`, `i + 1` and so on. -/
def getSlots (base p : Nat) : Nat → Nat → Heap → Option Heap
  | _, 0, h => some h
  | i, n + 1, h =>
    match walk h (ldFv buf (base + i * 16)) with
    | none => none
    | some (v, h) => getSlots base p (i + 1) n ((h.modify p (Node.setSlot i v)).retain cls v)

/-- Rebuild dynamic fields or captures. -/
def getPairs (base p : Nat) : Nat → Nat → Heap → Option Heap
  | _, 0, h => some h
  | i, n + 1, h =>
    match walk h (ldFv buf (base + i * 24 + 8)) with
    | none => none
    | some (v, h) =>
      getPairs base p (i + 1) n
        ((h.modify p (Node.setDyn cls (ld buf (base + i * 24)) v)).retain cls v)

/-- Rebuild the entries of a map. -/
def getEntries (base p : Nat) : Nat → Nat → Heap → Option Heap
  | _, 0, h => some h
  | i, n + 1, h =>
    match walk h (ldFv buf (base + i * 32)) with
    | none => none
    | some (k, h) =>
      match walk ((h.modify p (Node.setKey i k)).retain cls k) (ldFv buf (base + i * 32 + 16)) with
      | none => none
      | some (v, h) =>
        getEntries base p (i + 1) n ((h.modify p (Node.setVal i v)).retain cls v)

/-- Rebuild the record at `off`: make the node and note it, then fill it in. -/
def getNode (off : Nat) (h : Heap) : Option (LvValue × Heap) :=
  match Tag.ofCode (ld buf off) with
  | .str =>
    let (p, h) := h.alloc (.str (ldBytes buf (off + 24) (ld buf (off + 16))))
    some (⟨.str, p⟩, h.see off ⟨.str, p⟩)
  | .obj =>
    let classId := ld buf (off + 16)
    let nslots := ld buf (off + 24)
    let (p, h) := h.alloc (.obj classId (List.replicate (cls.fieldCount classId) .void) [])
    let h := h.see off ⟨.obj, p⟩
    match getSlots cls buf walk (off + 32) p 0 nslots h with
    | none => none
    | some h =>
      let dynBase := off + 32 + nslots * 16
      match getPairs cls buf walk (dynBase + 8) p 0 (ld buf dynBase) h with
      | none => none
      | some h => some (⟨.obj, p⟩, h)
  | .arr =>
    let rawlen := ld buf (off + 16)
    if denseBit ≤ rawlen ∧ rawlen / columnBit % 2 = 1 then
      let len := rawlen % columnBit
      let classId := ld buf (off + 24)
      let (p, h) := h.alloc
        (.columnar classId len (ldBytes buf (off + 32) (cls.fieldCount classId * 8 * len)))
      some (⟨.arr, p⟩, h.see off ⟨.arr, p⟩)
    else if denseBit ≤ rawlen then
      let len := rawlen % denseBit
      let recBytes := ld buf (off + 24)
      let (p, h) := h.alloc (.dense recBytes len (ldBytes buf (off + 32) (len * recBytes)))
      some (⟨.arr, p⟩, h.see off ⟨.arr, p⟩)
    else
      let (p, h) := h.alloc (.arr (List.replicate rawlen .void))
      let h := h.see off ⟨.arr, p⟩
      match getSlots cls buf walk (off + 24) p 0 rawlen h with
      | none => none
      | some h => some (⟨.arr, p⟩, h)
  | .map =>
    let len := ld buf (off + 16)
    let (p, h) := h.alloc (.map (List.replicate len (.void, .void)))
    let h := h.see off ⟨.map, p⟩
    match getEntries cls buf walk (off + 24) p 0 len h with
    | none => none
    | some h => some (⟨.map, p⟩, h)
  | .clo =>
    let (p, h) := h.alloc (.clo (ld buf (off + 16)) [])
    let h := h.see off ⟨.clo, p⟩
    match getPairs cls buf walk (off + 32) p 0 (ld buf (off + 24)) h with
    | none => none
    | some h => some (⟨.clo, p⟩, h)
  | _ => some (.void, h)

end Rebuild

/-- `lv_rebuild`. -/
def rebuild (buf : Nat → Cell) : Nat → Heap → LvValue → Option (LvValue × Heap)
  | 0, _, _ => none
  | fuel + 1, h, fv =>
    match fv.tag with
    | .void => some (fv, h)
    | .int => some (fv, h)
    | .float => some (fv, h)
    | .bool => some (fv, h)
    | .none => some (fv, h)
    | .char => some (fv, h)
    | _ =>
      match h.seen.get hash fv.payload with
      | some v => some (v, h)
      | none => getNode cls buf (rebuild buf fuel) fv.payload h

/-- `lv_thread_rebuild`, with the size of the buffer as its fuel: the root is returned with
one owner. -/
def threadRebuild (s : FlatState) (h : Heap) : Option (LvValue × Heap) :=
  match rebuild cls s.data (ld s.data 0 + 1) { h with seen := .empty 64 } (ldFv s.data 8) with
  | none => none
  | some (v, h) => some (v, h.retain cls v)

end Leviathan.Runtime.Transfer
