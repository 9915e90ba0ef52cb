import Leviathan.MySql.Wire

/-!
# The packets of the command phase

`protocol.lev`, the row decoder of `prepared.lev` and the classes of `errors.lev`, as far as
the answers to commands need them.  What a cell becomes is left to the caller: the text of a
number or the binary form of a date has no part in where a packet ends.
-/

namespace Leviathan.MySql

/-- The classes of an exception that the server reports. -/
inductive ErrorClass where
  | mySql
  | auth
  | duplicateKey
  | deadlock
  | lockTimeout
  deriving DecidableEq, Repr

/-- The family of `MySqlException`. -/
inductive MySqlException where
  /-- an ERR packet -/
  | server (cls : ErrorClass) (errno : Nat) (sqlstate message : Bytes)
  | protocol (message : String)
  /-- the protocol exception that carries the message of another exception -/
  | caught (e : Exn)
  | connectionLost (message : String)
  deriving DecidableEq, Repr

/-- An exception that comes out of a packet, as `fatal` gets it. -/
def MySqlException.ofExn : Exn → MySqlException
  | .protocol message => .protocol message
  | e => .caught e

namespace Errors

/-- `sqlstateClass`. -/
def sqlstateClass (sqlstate : Bytes) : Bytes :=
  if sqlstate.length ≥ 2 then subStr sqlstate 0 2 else []

/-- `classify`: the number first, the class of the SQL state after it. -/
def classify (errno : Nat) (sqlstate message : Bytes) : MySqlException :=
  if errno = 1213 then .server .deadlock errno sqlstate message
  else if errno = 1205 then .server .lockTimeout errno sqlstate message
  else if errno = 1062 ∨ errno = 1586 ∨ errno = 1859 then
    .server .duplicateKey errno sqlstate message
  else if errno = 1044 ∨ errno = 1045 ∨ errno = 1698 ∨ errno = 3159 then
    .server .auth errno sqlstate message
  else if sqlstateClass sqlstate = [0x32, 0x33] then .server .duplicateKey errno sqlstate message
  else if sqlstate = [0x34, 0x30, 0x30, 0x30, 0x31] then
    .server .deadlock errno sqlstate message
  else .server .mySql errno sqlstate message

end Errors

structure OkPacket where
  affectedRows : Nat
  lastInsertId : Nat
  statusFlags : Nat
  warnings : Nat
  deriving DecidableEq, Repr

structure ErrPacket where
  errno : Nat
  sqlstate : Bytes
  message : Bytes
  deriving DecidableEq, Repr

structure ColumnDef where
  name : Bytes
  charset : Nat
  columnLength : Nat
  type : Nat
  flags : Nat
  decimals : Nat
  deriving DecidableEq, Repr

namespace Proto

/-- The first byte, if there is one. -/
def head (p : Bytes) : Option Nat := p.head?.map UInt8.toNat

def isErr (p : Bytes) : Bool := head p = some 0xFF

def isEof (p : Bytes) : Bool := head p = some 0xFE && p.length < 9

def isOk (p : Bytes) (deprecateEof : Bool) : Bool :=
  if p.length < 7 then false
  else if head p = some 0x00 then true
  else deprecateEof && head p = some 0xFE

def isLocalInfile (p : Bytes) : Bool := head p = some 0xFB

def parseErr (p : Bytes) : Except Exn ErrPacket := do
  let errno ← Wire.u16 p 1
  let marked := p.length > 3 && p[3]? = some 0x23
  let sqlstate := if marked then subStr p 4 5 else []
  let off := if marked then 9 else 3
  return ⟨errno, sqlstate, subStr p off (p.length - off)⟩

def parseOk (p : Bytes) : Except Exn OkPacket := do
  let off := 1
  let aff ← Wire.readLenenc p off
  let off := off + aff.size
  let lid ← Wire.readLenenc p off
  let off := off + lid.size
  let status ← Wire.u16 p off
  let warnings ← Wire.u16 p (off + 2)
  return ⟨aff.value, lid.value, status, warnings⟩

/-- The loop of `parseColumnDef` over the catalog, the schema and the tables. -/
def skipLenenc (p : Bytes) : Nat → Nat → Except Exn Nat
  | 0, off => .ok off
  | n + 1, off => do
    let le ← Wire.readLenenc p off
    skipLenenc p n (off + le.size + le.value)

def parseColumnDef (p : Bytes) : Except Exn ColumnDef := do
  let off ← skipLenenc p 4 0
  let name ← Wire.readLenStr p off
  let off := off + name.size
  let orgName ← Wire.readLenStr p off
  let off := off + orgName.size
  let fixedLen ← Wire.readLenenc p off
  let off := off + fixedLen.size
  let charset ← Wire.u16 p off
  let columnLength ← Wire.u32 p (off + 2)
  let type ← byteAt p (off + 6)
  let flags ← Wire.u16 p (off + 7)
  let decimals ← byteAt p (off + 9)
  return ⟨name.value, charset, columnLength, type, flags, decimals⟩

end Proto

/-- What the cells of a row become: `None`, `mapTextCell` and `decodeValue`. -/
structure Cells (V : Type) where
  null : V
  mapTextCell : ColumnDef → Bytes → V
  /-- the value and the offset behind it -/
  decodeValue : ColumnDef → Bytes → Nat → Except Exn (V × Nat)

namespace Cells

variable {V : Type} (cells : Cells V)

/-- The loop of `decodeTextRow`. -/
def textCells (p : Bytes) : List ColumnDef → Nat → Except Exn (List V)
  | [], _ => .ok []
  | c :: rest, off => do
    if (← byteAt p off) = 0xFB then
      return cells.null :: (← textCells p rest (off + 1))
    else
      let cell ← Wire.readLenStr p off
      return cells.mapTextCell c cell.value :: (← textCells p rest (off + cell.size))

def decodeTextRow (p : Bytes) (cols : List ColumnDef) : Except Exn (List V) :=
  cells.textCells p cols 0

/-- The loop of `decodeBinaryRow`, from column `i` on. -/
def binaryCells (p bitmap : Bytes) : List ColumnDef → Nat → Nat → Except Exn (List V)
  | [], _, _ => .ok []
  | c :: rest, i, off => do
    -- the null bitmap has two bits in front
    if (← byteAt bitmap ((i + 2) >>> 3)) >>> ((i + 2) &&& 7) &&& 1 ≠ 0 then
      return cells.null :: (← binaryCells p bitmap rest (i + 1) off)
    else
      let d ← cells.decodeValue c p off
      return d.1 :: (← binaryCells p bitmap rest (i + 1) d.2)

def decodeBinaryRow (p : Bytes) (cols : List ColumnDef) : Except Exn (List V) :=
  let bmLen := (cols.length + 7 + 2) / 8
  cells.binaryCells p (subStr p 1 bmLen) cols 0 (1 + bmLen)

end Cells

end Leviathan.MySql
