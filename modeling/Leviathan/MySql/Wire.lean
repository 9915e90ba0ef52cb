import Mathlib

/-!
# The little-endian wire kernel

`wire.lev`.  A string is the list of its bytes.  What is read is never negative, so the
readers work on naturals; what is written is an `int`, of which `& 0xFF` keeps the value
modulo 256 and `>>` is the arithmetic shift.

Every reader undoes its writer at any offset of any buffer and reports exactly the bytes
that were written.
-/

namespace Leviathan.MySql

abbrev Bytes := List UInt8

/-- What the readers throw. -/
inductive Exn
  /-- `byteAt` outside of the string -/
  | outOfBounds (index length : Nat)
  | protocol (message : String)
  deriving DecidableEq, Repr

def byteAt (b : Bytes) (off : Nat) : Except Exn Nat :=
  match b[off]? with
  | some x => .ok x.toNat
  | none => .error (.outOfBounds off b.length)

/-- `subStr`: at most `n` bytes, none from an offset past the end. -/
def subStr (b : Bytes) (off n : Nat) : Bytes := (b.drop off).take n

/-- `std::byteToString`, of a value that is already a byte. -/
def byteToString (v : Nat) : Bytes := [UInt8.ofNat v]

variable {b : Bytes} {off : Nat} {v : Int}

namespace Wire

def ST_HEADER : Nat := 0
def ST_PAYLOAD : Nat := 1

/-- The split boundary, 16 MB - 1. -/
def MAX_PAYLOAD : Nat := 0xFFFFFF

/-! ## Reads -/

def u8 (b : Bytes) (off : Nat) : Except Exn Nat := byteAt b off

def u16 (b : Bytes) (off : Nat) : Except Exn Nat := do
  let lo ← byteAt b off
  let hi ← byteAt b (off + 1)
  return lo ||| hi <<< 8

def u24 (b : Bytes) (off : Nat) : Except Exn Nat := do
  let lo ← u16 b off
  let hi ← byteAt b (off + 2)
  return lo ||| hi <<< 16

def u32 (b : Bytes) (off : Nat) : Except Exn Nat := do
  let lo ← u24 b off
  let hi ← byteAt b (off + 3)
  return lo ||| hi <<< 24

def u64 (b : Bytes) (off : Nat) : Except Exn Nat := do
  if (← byteAt b (off + 7)) ≥ 0x80 then
    throw (.protocol "u64 exceeds int64 range")
  let lo ← u32 b off
  let hi ← u32 b (off + 4)
  return lo ||| hi <<< 32

/-! ## Writes -/

def wU8 (v : Int) : Bytes := byteToString (v % 256).toNat

def wU16 (v : Int) : Bytes := wU8 v ++ wU8 (v >>> (8 : Nat))

def wU24 (v : Int) : Bytes := wU16 v ++ wU8 (v >>> (16 : Nat))

def wU32 (v : Int) : Bytes := wU24 v ++ wU8 (v >>> (24 : Nat))

def wU64 (v : Int) : Bytes := wU32 v ++ wU32 (v >>> (32 : Nat))

/-! ## Length-encoded integers and strings -/

structure LenEnc where
  value : Nat
  size : Nat
  deriving DecidableEq, Repr

def readLenenc (b : Bytes) (off : Nat) : Except Exn LenEnc := do
  let first ← byteAt b off
  if first < 0xFB then return ⟨first, 1⟩
  if first = 0xFC then return ⟨← u16 b (off + 1), 3⟩
  if first = 0xFD then return ⟨← u24 b (off + 1), 4⟩
  if first = 0xFE then return ⟨← u64 b (off + 1), 9⟩
  throw (.protocol "0xFB/0xFF is not a lenenc int")

def writeLenenc (v : Int) : Bytes :=
  if v < 0xFB then wU8 v
  else if v ≤ 0xFFFF then byteToString 0xFC ++ wU16 v
  else if v ≤ 0xFFFFFF then byteToString 0xFD ++ wU24 v
  else byteToString 0xFE ++ (wU32 v ++ wU32 (v >>> (32 : Nat)))

structure LenStr where
  value : Bytes
  size : Nat
  deriving DecidableEq, Repr

def readLenStr (b : Bytes) (off : Nat) : Except Exn LenStr := do
  let le ← readLenenc b off
  return ⟨subStr b (off + le.size) le.value, le.size + le.value⟩

def writeLenStr (s : Bytes) : Bytes := writeLenenc s.length ++ s

/-! ## Reading back -/

/-- `b` has the bytes `bs` at the offset `off`. -/
def Has (b : Bytes) (off : Nat) (bs : Bytes) : Prop := bs <+: b.drop off

theorem has_append (pre bs post : Bytes) : Has (pre ++ (bs ++ post)) pre.length bs := by
  unfold Has
  rw [List.drop_left]
  exact List.prefix_append bs post

theorem Has.left {xs ys : Bytes} (h : Has b off (xs ++ ys)) :
    Has b off xs := (List.prefix_append xs ys).trans h

theorem Has.right {xs ys : Bytes} (h : Has b off (xs ++ ys)) : Has b (off + xs.length) ys := by
  obtain ⟨rest, hrest⟩ := h
  refine ⟨rest, ?_⟩
  rw [← List.drop_drop, ← hrest, List.append_assoc, List.drop_left]

theorem byteAt_of_has {x : UInt8} (h : Has b off [x]) : byteAt b off = .ok x.toNat := by
  obtain ⟨rest, hrest⟩ := h
  have hget : b[off]? = some x := by
    rw [← List.head?_drop, ← hrest]
    rfl
  unfold byteAt
  rw [hget]

theorem u24_of_has {x y z : UInt8} (h : Has b off [x, y, z]) :
    u24 b off = .ok (x.toNat ||| y.toNat <<< 8 ||| z.toNat <<< 16) := by
  have hfirst : Has b off ([x] ++ ([y] ++ [z])) := h
  have hx : byteAt b off = .ok x.toNat := byteAt_of_has hfirst.left
  have hy : byteAt b (off + 1) = .ok y.toNat := byteAt_of_has hfirst.right.left
  have hz : byteAt b (off + 2) = .ok z.toNat := byteAt_of_has hfirst.right.right
  simp only [u24, u16, hx, hy, hz, bind, Except.bind, pure, Except.pure]

theorem length_wU8 (v : Int) : (wU8 v).length = 1 := rfl

theorem length_wU16 (v : Int) : (wU16 v).length = 2 := rfl

theorem length_wU24 (v : Int) : (wU24 v).length = 3 := rfl

theorem length_wU32 (v : Int) : (wU32 v).length = 4 := rfl

theorem length_wU64 (v : Int) : (wU64 v).length = 8 := rfl

theorem toNat_ofNat_byte {n : Nat} (h : n < 256) : (UInt8.ofNat n).toNat = n := by
  rw [UInt8.toNat_ofNat']
  exact Nat.mod_eq_of_lt h

theorem or_shiftLeft {a k : Nat} (b : Nat) (h : a < 2 ^ k) : a ||| b <<< k = a + b * 2 ^ k := by
  rw [Nat.or_comm, ← Nat.shiftLeft_add_eq_or_of_lt h, Nat.shiftLeft_eq, Nat.add_comm]

theorem u8_wU8 (h : Has b off (wU8 v)) : u8 b off = .ok (v % 256).toNat := by
  have hbyte : (v % 256).toNat < 256 := by omega
  show byteAt b off = _
  rw [byteAt_of_has h, toNat_ofNat_byte hbyte]

theorem u16_wU16 (h : Has b off (wU16 v)) : u16 b off = .ok (v % 2 ^ 16).toNat := by
  have hlo : byteAt b off = .ok (v % 256).toNat := u8_wU8 h.left
  have hhi : byteAt b (off + 1) = .ok (v >>> (8 : Nat) % 256).toNat := u8_wU8 h.right
  have hbound : (v % 256).toNat < 2 ^ 8 := by omega
  simp only [u16, hlo, hhi, bind, Except.bind, pure, Except.pure]
  rw [or_shiftLeft _ hbound, Int.shiftRight_eq_div_pow]
  congr 1
  omega

theorem u24_wU24 (h : Has b off (wU24 v)) : u24 b off = .ok (v % 2 ^ 24).toNat := by
  have hlo := u16_wU16 h.left
  have hhi : byteAt b (off + 2) = .ok (v >>> (16 : Nat) % 256).toNat := u8_wU8 h.right
  have hbound : (v % 2 ^ 16).toNat < 2 ^ 16 := by omega
  simp only [u24, hlo, hhi, bind, Except.bind, pure, Except.pure]
  rw [or_shiftLeft _ hbound, Int.shiftRight_eq_div_pow]
  congr 1
  omega

theorem u32_wU32 (h : Has b off (wU32 v)) : u32 b off = .ok (v % 2 ^ 32).toNat := by
  have hlo := u24_wU24 h.left
  have hhi : byteAt b (off + 3) = .ok (v >>> (24 : Nat) % 256).toNat := u8_wU8 h.right
  have hbound : (v % 2 ^ 24).toNat < 2 ^ 24 := by omega
  simp only [u32, hlo, hhi, bind, Except.bind, pure, Except.pure]
  rw [or_shiftLeft _ hbound, Int.shiftRight_eq_div_pow]
  congr 1
  omega

theorem u64_wU64 {v : Nat} (hv : v < 2 ^ 63) (h : Has b off (wU64 v)) : u64 b off = .ok v := by
  have hlo := u32_wU32 h.left
  have hhi : u32 b (off + 4) = .ok ((v : Int) >>> (32 : Nat) % 2 ^ 32).toNat := u32_wU32 h.right
  have htop : byteAt b (off + 7) = .ok ((v : Int) >>> (32 : Nat) >>> (24 : Nat) % 256).toNat :=
    u8_wU8 (v := (v : Int) >>> (32 : Nat) >>> (24 : Nat)) h.right.right
  have hsmall : ¬ ((v : Int) >>> (32 : Nat) >>> (24 : Nat) % 256).toNat ≥ 0x80 := by
    rw [Int.shiftRight_eq_div_pow, Int.shiftRight_eq_div_pow]
    omega
  have hbound : ((v : Int) % 2 ^ 32).toNat < 2 ^ 32 := by omega
  simp only [u64, htop, hlo, hhi, bind, Except.bind, pure, Except.pure, if_neg hsmall]
  rw [or_shiftLeft _ hbound, Int.shiftRight_eq_div_pow]
  congr 1
  omega

theorem byteAt_byteToString {n : Nat} {rest : Bytes} (hn : n < 256)
    (h : Has b off (byteToString n ++ rest)) : byteAt b off = .ok n := by
  rw [byteAt_of_has h.left, toNat_ofNat_byte hn]

/-- A length-encoded integer is read back with exactly its bytes, from 0 to `2^63 - 1`. -/
theorem readLenenc_writeLenenc {v : Nat} (hv : v < 2 ^ 63) (h : Has b off (writeLenenc v)) :
    readLenenc b off = .ok ⟨v, (writeLenenc v).length⟩ := by
  unfold writeLenenc at h ⊢
  by_cases hinline : (v : Int) < 0xFB
  · rw [if_pos hinline] at h ⊢
    have hfirst : byteAt b off = .ok v := by
      have := u8_wU8 h
      rwa [show ((v : Int) % 256).toNat = v by omega] at this
    have hsmall : v < 0xFB := by omega
    simp only [readLenenc, hfirst, bind, Except.bind, pure, Except.pure, if_pos hsmall, length_wU8]
  rw [if_neg hinline] at h ⊢
  by_cases htwo : (v : Int) ≤ 0xFFFF
  · rw [if_pos htwo] at h ⊢
    have hfirst := byteAt_byteToString (by decide) h
    have hread : u16 b (off + 1) = .ok ((v : Int) % 2 ^ 16).toNat := u16_wU16 h.right
    have hvalue : u16 b (off + 1) = .ok v := by
      rw [hread]
      congr 1
      omega
    simp [readLenenc, hfirst, hvalue, bind, Except.bind, pure, Except.pure, length_wU16,
      byteToString]
  rw [if_neg htwo] at h ⊢
  by_cases hthree : (v : Int) ≤ 0xFFFFFF
  · rw [if_pos hthree] at h ⊢
    have hfirst := byteAt_byteToString (by decide) h
    have hread : u24 b (off + 1) = .ok ((v : Int) % 2 ^ 24).toNat := u24_wU24 h.right
    have hvalue : u24 b (off + 1) = .ok v := by
      rw [hread]
      congr 1
      omega
    simp [readLenenc, hfirst, hvalue, bind, Except.bind, pure, Except.pure, length_wU24,
      byteToString]
  · rw [if_neg hthree] at h ⊢
    have hfirst := byteAt_byteToString (by decide) h
    have hvalue : u64 b (off + 1) = .ok v := u64_wU64 hv h.right
    simp [readLenenc, hfirst, hvalue, bind, Except.bind, pure, Except.pure, length_wU32,
      byteToString]

/-- A length-encoded string is read back with exactly its bytes. -/
theorem readLenStr_writeLenStr {s : Bytes} (hs : s.length < 2 ^ 63)
    (h : Has b off (writeLenStr s)) :
    readLenStr b off = .ok ⟨s, (writeLenStr s).length⟩ := by
  have hlen := readLenenc_writeLenenc hs h.left
  have hdata : subStr b (off + (writeLenenc (s.length : Int)).length) s.length = s := by
    obtain ⟨rest, hrest⟩ := h.right
    unfold subStr
    rw [← hrest, List.take_left]
  simp only [readLenStr, hlen, bind, Except.bind, pure, Except.pure, hdata]
  rw [writeLenStr, List.length_append]

end Wire

end Leviathan.MySql
