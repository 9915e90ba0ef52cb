import Leviathan.Lib.Owners

/-!
# Arrays and maps of the native runtime

The heap of `lv_runtime.c` as blocks with reference counts, and the operations on arrays and
maps over it.  A block starts with count 0, `lvrt_retain` and `lvrt_release` move the count,
and a block whose count falls to 0 is freed with what it owns.  A value struct is a block that
is never counted: a container that stores one keeps a copy of its own.

A reference is the address of a block, and its tag is the kind of that block.  Addresses are
not used again after a free, so that a reference to a freed block stays visible.  An array has
one of three layouts: boxed slots, records in a row (dense), or one column of payload words
for each field (columnar); the rows of a columnar buffer are listed one by one.

Blocks of the arena and the table of weak proxies are left out.  A new container is allocated
when its slots are owned; the order of the allocations shows only in the addresses.  The walks of the C code recurse without a bound; here they
take a fuel, the length of the heap and one, and `none` stands for a walk that ran out of it
and for a read outside of a block.
-/

namespace Leviathan.Runtime.Containers

open Leviathan.Owners

/-- The tags of the values that are not references. -/
inductive Imm
  | void
  | int
  | float
  | bool
  | none
  | char
  deriving DecidableEq, Repr

/-- `LvValue`: an immediate, a string constant of the program, or a reference. -/
inductive Value
  | scalar (tag : Imm) (payload : Int)
  | literal (bytes : List Nat)
  | ref (x : Nat)
  deriving DecidableEq, Repr

/-- What zeroed memory reads as. -/
def Value.void : Value := .scalar .void 0

/-- The heap addresses that a value refers to: one or none. -/
def Value.ids : Value → List Nat
  | .ref x => [x]
  | _ => []

/-- The payload half of a value, as a column stores it. -/
inductive Word
  | bits (payload : Int)
  | constant (bytes : List Nat)
  | address (x : Nat)
  deriving DecidableEq, Repr

def Value.word : Value → Word
  | .scalar _ p => .bits p
  | .literal b => .constant b
  | .ref x => .address x

/-- What a block holds.  The fields of an object are its declared slots and its dynamic list
together. -/
inductive Body
  | str (bytes : List Nat)
  | obj (classId : Nat) (fields : List Value)
  | clo (captures : List Value)
  | block (parent : Option Nat)
  | weakProxy
  | arr (capacity : Nat) (elems : List Value)
  | dense (fieldCount : Nat) (records : List (Nat × List Value))
  | columnar (classId : Nat) (rows : List (List Word))
  | map (entries : List (Value × Value))
  deriving DecidableEq, Repr

/-- The values that a dying block gives up, in the order of `lv_recursive_free`; the flag says
that `lvrt_vfree` follows the release.  Packed arrays give up nothing. -/
def Body.owned : Body → List (Value × Bool)
  | .str _ => []
  | .obj _ fields => fields.map (·, true)
  | .clo captures => captures.map (·, false)
  | .block none => []
  | .block (some root) => [(.ref root, false)]
  | .weakProxy => []
  | .arr _ elems => elems.map (·, true)
  | .dense _ _ => []
  | .columnar _ _ => []
  | .map entries => entries.flatMap fun e => [(e.1, false), (e.2, true)]

abbrev Heap := Store Body

/-- The tables of the generated program that the runtime consults. -/
structure Classes where
  isvalueclass : Nat → Bool
  fieldcount : Nat → Nat
  columnar : Bool
  colEligible : Nat → Bool

variable (cls : Classes)

/-- The block is a value struct. -/
def Body.isStruct : Body → Bool
  | .obj classId _ => cls.isvalueclass classId
  | _ => false

/-- A value struct: its address, its block, its class and its fields. -/
def valueStruct (h : Heap) : Value → Option (Nat × Nat × Nat × List Value)
  | .ref x =>
    match h.cell x with
    | some ⟨rc, .obj classId fields⟩ =>
      if cls.isvalueclass classId then some (x, rc, classId, fields) else none
    | _ => none
  | _ => none

/-- `lv_is_counted`: the address and the block of a counted value. -/
def counted (h : Heap) : Value → Option (Nat × Block Body)
  | .ref x =>
    match h.cell x with
    | some c => if c.body.isStruct cls then none else some (x, c)
    | none => none
  | _ => none

/-! ### Counting and freeing -/

/-- `lvrt_retain`. -/
def retain (h : Heap) (v : Value) : Heap :=
  match counted cls h v with
  | some (x, c) => h.put x ⟨c.rc + 1, c.body⟩
  | none => h

/-- `lvrt_release`, over the walk that frees a block. -/
def releaseWith (walk : Heap → Nat → Body → Option Heap) (h : Heap) (v : Value) : Option Heap :=
  match counted cls h v with
  | some (x, c) =>
    if c.rc = 0 then some h
    else
      let h' := h.put x ⟨c.rc - 1, c.body⟩
      if c.rc - 1 = 0 then walk h' x c.body else some h'
  | none => some h

/-- `lvrt_vfree`, over the walk that frees a block. -/
def vfreeWith (walk : Heap → Nat → Body → Option Heap) (h : Heap) (v : Value) : Option Heap :=
  match valueStruct cls h v with
  | some (x, rc, classId, fields) => if rc ≠ 0 then some h else walk h x (.obj classId fields)
  | none => some h

/-- One value that a dying block gives up. -/
def giveUp (walk : Heap → Nat → Body → Option Heap) (h : Heap) (e : Value × Bool) :
    Option Heap :=
  (releaseWith cls walk h e.1).bind fun h => if e.2 then vfreeWith cls walk h e.1 else some h

/-- `lv_recursive_free`, and the walk of `lvrt_vfree`, which is the one over an object: first
what the block owns, then the block. -/
def recursiveFree : Nat → Heap → Nat → Body → Option Heap
  | 0, _, _, _ => none
  | fuel + 1, h, x, body =>
    (body.owned.foldlM (giveUp cls (recursiveFree fuel)) h).map fun h => h.free x

/-- `lvrt_release`. -/
def release (h : Heap) (v : Value) : Option Heap :=
  releaseWith cls (recursiveFree cls (h.length + 1)) h v

/-- `lvrt_vfree`. -/
def vfree (h : Heap) (v : Value) : Option Heap :=
  vfreeWith cls (recursiveFree cls (h.length + 1)) h v

/-- `lv_halloc_prefixed`: a block of its own with a count. -/
def halloc (h : Heap) (rc : Nat) (body : Body) : Heap × Value :=
  (h.alloc ⟨rc, body⟩, .ref h.length)

/-- Overwrite the body of a block. -/
def store (h : Heap) (x : Nat) (body : Body) : Heap :=
  match h.cell x with
  | some c => h.put x ⟨c.rc, body⟩
  | none => h

/-! ### Copies -/

/-- The fields of a copy: each is copied and then retained. -/
def copyFields (copy : Heap → Value → Option (Heap × Value)) :
    Heap → List Value → Option (Heap × List Value)
  | h, [] => some (h, [])
  | h, f :: fs =>
    (copy h f).bind fun r =>
      (copyFields copy (retain cls r.1 r.2) fs).map fun s => (s.1, r.2 :: s.2)

/-- `lvrt_copyval`, with a fuel for the nesting of the structs. -/
def copyvalWith : Nat → Heap → Value → Option (Heap × Value)
  | 0, _, _ => none
  | fuel + 1, h, v =>
    match valueStruct cls h v with
    | none => some (h, v)
    | some (_, _, classId, fields) =>
      let dst := halloc h 0 (.obj classId (fields.map fun _ => Value.void))
      (copyFields cls (copyvalWith fuel) dst.1 fields).map fun r =>
        (store r.1 h.length (.obj classId r.2), dst.2)

/-- `lvrt_copyval`. -/
def copyval (h : Heap) (v : Value) : Option (Heap × Value) := copyvalWith cls (h.length + 1) h v

/-- `lv_arr_store_owned` and `lv_map_store_val`: what a slot that owns its value stores, a copy
of a value struct and any other value with one more reference. -/
def storeOwned (h : Heap) (v : Value) : Option (Heap × Value) :=
  match valueStruct cls h v with
  | some _ => copyval cls h v
  | none => some (retain cls h v, v)

/-- `storeOwned` for one slot after the other. -/
def storeAll : Heap → List Value → Option (Heap × List Value)
  | h, [] => some (h, [])
  | h, v :: vs =>
    (storeOwned cls h v).bind fun r => (storeAll r.1 vs).map fun s => (s.1, r.2 :: s.2)

/-! ### Arrays -/

/-- `lvrt_arr_new`. -/
def arrNew (h : Heap) (len : Nat) : Heap × Value :=
  halloc h 0 (.arr len (List.replicate len .void))

/-- `lvrt_map_new`, which the generated code calls with length 0. -/
def mapNew (h : Heap) : Heap × Value := halloc h 0 (.map [])

/-- The first `fieldCount` fields of the object that a record is copied from. -/
def readRecord (h : Heap) (fieldCount : Nat) : Value → Option (Nat × List Value)
  | .ref x =>
    match h.cell x with
    | some ⟨_, .obj classId fields⟩ =>
      if fieldCount ≤ fields.length then some (classId, fields.take fieldCount) else none
    | _ => none
  | _ => none

/-- `lv_struct_has_heap_field`: some field has the tag of a heap value. -/
def structHasHeapField (fields : List Value) : Bool :=
  fields.any fun f =>
    match f with
    | .scalar _ _ => false
    | _ => true

/-- `lvrt_arr_fill`. -/
def arrFill (h : Heap) (n : Int) (fill : Value) : Heap × Value :=
  if n ≤ 0 then halloc h 1 (.arr 0 [])
  else
    match valueStruct cls h fill with
    | some (_, _, classId, fields) =>
      if cls.columnar && cls.colEligible classId then
        halloc h 1 (.columnar classId (List.replicate n.toNat (fields.map Value.word)))
      else
        halloc h 1 (.dense (cls.fieldcount classId) (List.replicate n.toNat (classId, fields)))
    | none =>
      halloc ((fun h => retain cls h fill)^[n.toNat] h) 1
        (.arr n.toNat (List.replicate n.toNat fill))

/-- `lv_arr_boxed_append`. -/
def arrBoxedAppend (h : Heap) (x : Nat) (rc capacity : Nat) (elems : List Value) (val : Value) :
    Option (Heap × Value) :=
  if rc = 1 ∧ elems.length < capacity then
    (storeOwned cls h val).map fun r => (store r.1 x (.arr capacity (elems ++ [r.2])), .ref x)
  else if rc = 1 then
    -- the elements move to the new buffer, and the old one is freed without them
    let newcap := max 4 (capacity * 2)
    (storeOwned cls h val).map fun r => halloc (r.1.free x) 1 (.arr newcap (elems ++ [r.2]))
  else
    (storeAll cls h (elems ++ [val])).map fun r => halloc r.1 1 (.arr (elems.length + 1) r.2)

/-- `lvrt_arr_append`, with `lv_arr_dense_append`, `lv_arr_columnar_append`, `lv_arr_go_dense`
and `lv_arr_go_columnar`. -/
def arrAppend (h : Heap) (arr val : Value) : Option (Heap × Value) :=
  match arr with
  | .ref x =>
    match h.cell x with
    | some ⟨_, .columnar classId rows⟩ =>
      (readRecord h (cls.fieldcount classId) val).map fun r =>
        halloc h 1 (.columnar classId (rows ++ [r.2.map Value.word]))
    | some ⟨_, .dense f records⟩ =>
      (readRecord h f val).map fun r => halloc h 1 (.dense f (records ++ [r]))
    | some ⟨rc, .arr capacity elems⟩ =>
      match valueStruct cls h val with
      | some (_, _, classId, fields) =>
        if elems = [] ∧ structHasHeapField fields = false then
          if cls.columnar && cls.colEligible classId then
            some (halloc h 1 (.columnar classId [fields.map Value.word]))
          else some (halloc h 1 (.dense (cls.fieldcount classId) [(classId, fields)]))
        else arrBoxedAppend cls h x rc capacity elems val
      | none => arrBoxedAppend cls h x rc capacity elems val
    | _ => none
  | _ => none

/-! ### Maps -/

/-- `lv_canon_bits`: the bits by which two floats are compared. -/
def canonBits (p : Int) : Nat :=
  let b := (p % 2 ^ 64).toNat
  if b / 2 ^ 52 % 2 ^ 11 = 2 ^ 11 - 1 ∧ b % 2 ^ 52 ≠ 0 then 0x7FF8000000000000
  else if b * 2 % 2 ^ 64 = 0 then 0
  else b

/-- The bytes of a string. -/
def strBytes (h : Heap) : Value → Option (List Nat)
  | .literal b => some b
  | .ref x =>
    match h.cell x with
    | some ⟨_, .str b⟩ => some b
    | _ => none
  | .scalar _ _ => none

/-- `lvrt_keyeq`, with a fuel for the nesting of the structs. -/
def keyeqWith : Nat → Heap → Value → Value → Bool
  | _, _, .scalar s p, .scalar t q =>
    s = t && (if s = .float then canonBits p = canonBits q else p = q)
  | fuel, h, a, b =>
    match strBytes h a, strBytes h b with
    | some s, some t => s = t
    | none, none =>
      match fuel, valueStruct cls h a, valueStruct cls h b with
      | fuel + 1, some (x, _, c, fs), some (y, _, d, gs) =>
        if c = d then (fs.zip gs).all fun e => keyeqWith fuel h e.1 e.2 else x = y
      | _, _, _ => a = b
    | _, _ => false

/-- `lvrt_keyeq`. -/
def keyeq (h : Heap) (a b : Value) : Bool := keyeqWith cls (h.length + 1) h a b

/-- The entry of a key. -/
def findKey (h : Heap) (entries : List (Value × Value)) (idx : Value) : Option Nat :=
  entries.findIdx? fun e => keyeq cls h e.1 idx

/-- The entries of a copy of a map: the keys are retained, the values owned. -/
def storeEntries : Heap → List (Value × Value) → Option (Heap × List (Value × Value))
  | h, [] => some (h, [])
  | h, e :: es =>
    (storeOwned cls (retain cls h e.1) e.2).bind fun r =>
      (storeEntries r.1 es).map fun s => (s.1, (e.1, r.2) :: s.2)

/-- The entries with one entry replaced or added. -/
def upsertEntries (entries : List (Value × Value)) (found : Option Nat) (idx val : Value) :
    List (Value × Value) :=
  match found with
  | some k => entries.set k (idx, val)
  | none => entries ++ [(idx, val)]

/-- `lv_map_upsert`. -/
def mapUpsert (h : Heap) (x rc : Nat) (entries : List (Value × Value)) (idx val : Value) :
    Option (Heap × Value) :=
  match rc, findKey cls h entries idx with
  | 1, some k =>
    match entries[k]? with
    | some (key, old) =>
      (release cls h old).bind fun h =>
        (vfree cls h old).bind fun h =>
          (storeOwned cls h val).map fun r =>
            (store r.1 x (.map (entries.set k (key, r.2))), .ref x)
    | none => none
  | _, found =>
    (storeEntries cls h (upsertEntries entries found idx val)).map fun r =>
      halloc r.1 0 (.map r.2)

/-- `lvrt_map_with`. -/
def mapWith (h : Heap) (base idx val : Value) : Option (Heap × Value) :=
  match base with
  | .ref x =>
    match h.cell x with
    | some ⟨rc, .map entries⟩ =>
      (mapUpsert cls h x rc entries idx val).map fun r =>
        if r.2 ≠ base then (retain cls r.1 r.2, r.2) else r
    | _ => none
  | _ => none

/-! ### Stores at an index -/

/-- The payload of an array index; the address of a block is past the end of every array. -/
def Value.index : Value → Option Nat
  | .scalar _ p => if 0 ≤ p then some p.toNat else none
  | _ => none

/-- Replace the element at an index that is in range. -/
def setAt {α : Type} (l : List α) (i : Option Nat) (a : α) : List α :=
  match i with
  | some i => l.set i a
  | none => l

/-- The index is one of the array's. -/
def inRange (i : Option Nat) (len : Nat) : Bool :=
  match i with
  | some i => i < len
  | none => false

/-- `lvrt_idxset`. -/
def idxset (h : Heap) (base idx val : Value) : Option (Heap × Value) :=
  match base with
  | .ref x =>
    match h.cell x with
    | some ⟨rc, .columnar classId rows⟩ =>
      let written :=
        if inRange idx.index rows.length then
          (readRecord h (cls.fieldcount classId) val).map fun r =>
            setAt rows idx.index (r.2.map Value.word)
        else some rows
      written.map fun rows =>
        if rc = 1 then (store h x (.columnar classId rows), base)
        else halloc h 0 (.columnar classId rows)
    | some ⟨rc, .dense f records⟩ =>
      let written :=
        if inRange idx.index records.length then
          (readRecord h f val).map fun r => setAt records idx.index r
        else some records
      written.map fun records =>
        if rc = 1 then (store h x (.dense f records), base) else halloc h 0 (.dense f records)
    | some ⟨rc, .arr capacity elems⟩ =>
      if rc = 1 then
        match inRange idx.index elems.length, elems[idx.index.getD 0]? with
        | true, some old =>
          (release cls h old).map fun h =>
            (retain cls (store h x (.arr capacity (setAt elems idx.index val))) val, base)
        | _, _ => some (h, base)
      else
        let elems := setAt elems idx.index val
        some (halloc (elems.foldl (retain cls) h) 0 (.arr elems.length elems))
    | some ⟨rc, .map entries⟩ => mapUpsert cls h x rc entries idx val
    | _ => some (h, base)
  | _ => some (h, base)

/-- The store puts the value itself into a slot: the base is a boxed array and the index is in
range. -/
def takesPointer (h : Heap) (base idx : Value) : Bool :=
  match base with
  | .ref x =>
    match h.cell x with
    | some ⟨_, .arr _ elems⟩ => inRange idx.index elems.length
    | _ => false
  | _ => false

/-- `lvrt_idxset_move`. -/
def idxsetMove (h : Heap) (base idx val : Value) : Option (Heap × Value) :=
  let consumed := takesPointer h base idx
  (idxset cls h base idx val).bind fun r =>
    if consumed then some r else (vfree cls r.1 val).map fun h => (h, r.2)

/-- The call took over the handle of its base: it returned the base itself, or freed it. -/
def taken (h' : Heap) (base out : Value) : Bool :=
  out = base ||
    match base with
    | .ref x => (h'.cell x).isNone
    | _ => false

end Leviathan.Runtime.Containers
