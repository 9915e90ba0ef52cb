import Mathlib

/-!
# The bounds of blocks

A block is a view into a buffer: where it begins and how many bytes it has.  The operations of the
native runtime test their arguments and then read and write at the address of the first byte.  An
`Effect` is what an operation does: what it gives or raises, the spans of bytes that it touches, and
the memory it leaves.

`fill` and `blit` compare a length with what is left of the view.  The other windows compare a sum
with the length of the view, and the sum of two numbers of 64 bits wraps.  `block_bounds` says that
this is the one hole: an operation stays inside of its views exactly if the sum does not wrap, and
slices of slices stay inside of the first one.
-/

variable {n off len : Int} {op : Op}

namespace Leviathan.Runtime.Block

open List

/-- An `int64_t`. -/
def InRange (n : Int) : Prop := -2 ^ 63 ≤ n ∧ n < 2 ^ 63

/-- What is left of a number in 64 bits. -/
def wrap (n : Int) : Int := (n + 2 ^ 63) % 2 ^ 64 - 2 ^ 63

/-- The buffers, each with its bytes by their distance from the first. -/
abbrev Memory := Nat → Int → UInt8

/-- The fields of a block but for the owner of its buffer. -/
structure View where
  data : Nat
  off : Int
  len : Int
  deriving DecidableEq

/-- What `lv_block_alloc` makes. -/
structure View.Formed (b : View) : Prop where
  off : 0 ≤ b.off
  len : 0 ≤ b.len
  fits : b.off + b.len < 2 ^ 63

/-- A part of a view. -/
structure View.Within (v b : View) : Prop where
  data : v.data = b.data
  first : b.off ≤ v.off
  last : v.off + v.len ≤ b.off + b.len

/-- Bytes of a buffer that stand side by side. -/
structure Span where
  data : Nat
  start : Int
  count : Int
  deriving DecidableEq

/-- The bytes are bytes of the view. -/
structure Span.Inside (s : Span) (b : View) : Prop where
  data : s.data = b.data
  first : b.off ≤ s.start
  last : s.start + s.count ≤ b.off + b.len

inductive Value
  | void
  | int (n : Int)
  | bool (b : Bool)
  | str (bytes : List UInt8)
  | block (v : View)

/-- What is raised: an index and a length, a number that is no byte, or lengths that differ. -/
inductive Raised
  | oob (index len : Int)
  | byteValue (value : Int)
  | lengths
  deriving DecidableEq

/-- What an operation gives or raises, or none while it runs; the bytes that it touched; and the
memory. -/
structure Effect where
  value : Option (Except Raised Value)
  touched : List Span
  memory : Memory

namespace View

variable (b : View) (m : Memory)

/-- `lv_block_at`, for a number of bytes from an element on. -/
def span (i n : Int) : List Span := if 0 < n then [⟨b.data, b.off + i, n⟩] else []

def bytes (i n : Int) : List UInt8 := (List.range n.toNat).map fun k : Nat => m b.data (b.off + i + k)

/-- Write bytes from an element on. -/
def put (i n : Int) (f : Int → UInt8) : Memory := fun d x =>
  if d = b.data ∧ b.off + i ≤ x ∧ x < b.off + i + n then f (x - (b.off + i)) else m d x

def raise (m : Memory) (e : Raised) : Effect := ⟨some (.error e), [], m⟩

def read (i n : Int) (v : Value) : Effect := ⟨some (.ok v), b.span i n, m⟩

def write (i n : Int) (f : Int → UInt8) : Effect := ⟨some (.ok .void), b.span i n, b.put m i n f⟩

/-- `lvrt_block_byteat`. -/
def byteat (i : Int) : Effect :=
  if i < 0 ∨ i ≥ b.len then raise m (.oob i b.len)
  else b.read m i 1 (.int (m b.data (b.off + i)).toNat)

/-- `lvrt_block_setbyte`. -/
def setbyte (i value : Int) : Effect :=
  if i < 0 ∨ i ≥ b.len then raise m (.oob i b.len)
  else if value < 0 ∨ value > 255 then raise m (.byteValue value)
  else b.write m i 1 fun _ => UInt8.ofNat value.toNat

/-- The test of a window by the sum of its ends. -/
def misses (off len : Int) : Prop := off < 0 ∨ len < 0 ∨ wrap (off + len) > b.len

instance (off len : Int) : Decidable (b.misses off len) := inferInstanceAs (Decidable (_ ∨ _))

/-- `lvrt_block_slice`. -/
def slice (off len : Int) : Effect :=
  if b.misses off len then raise m (.oob off b.len)
  else ⟨some (.ok (.block ⟨b.data, wrap (b.off + off), len⟩)), [], m⟩

/-- `lvrt_block_tostring`. -/
def tostring (off len : Int) : Effect :=
  if b.misses off len then raise m (.oob off b.len)
  else b.read m off len (.str (b.bytes m off len))

def littleEndian : List UInt8 → Nat
  | [] => 0
  | d :: ds => d.toNat + 256 * littleEndian ds

/-- The integer of `n` bytes at an element. -/
def intat (n : Nat) (i : Int) : Effect :=
  if i < 0 ∨ wrap (i + n) > b.len then raise m (.oob i b.len)
  else b.read m i n (.int (Int.bmod (littleEndian (b.bytes m i n)) (2 ^ (8 * n))))

/-- Set the integer of `n` bytes at an element. -/
def setint (n : Nat) (i value : Int) : Effect :=
  if i < 0 ∨ wrap (i + n) > b.len then raise m (.oob i b.len)
  else b.write m i n fun k => UInt8.ofNat ((value % 2 ^ (8 * n)).toNat >>> (8 * k.toNat))

/-- `lvrt_block_int32at`. -/
def int32at : Int → Effect := b.intat m 4

/-- `lvrt_block_setint32`. -/
def setint32 : Int → Int → Effect := b.setint m 4

/-- `lvrt_block_int64at`. -/
def int64at : Int → Effect := b.intat m 8

/-- `lvrt_block_setint64`. -/
def setint64 : Int → Int → Effect := b.setint m 8

/-- `lvrt_block_fill`. -/
def fill (off len value : Int) : Effect :=
  if off < 0 ∨ len < 0 ∨ off > b.len ∨ len > wrap (b.len - off) then raise m (.oob off b.len)
  else if value < 0 ∨ value > 255 then raise m (.byteValue value)
  else b.write m off len fun _ => UInt8.ofNat value.toNat

/-- `lvrt_block_blit`. -/
def blit (dstOff : Int) (src : View) (srcOff len : Int) : Effect :=
  if dstOff < 0 ∨ len < 0 ∨ dstOff > b.len ∨ len > wrap (b.len - dstOff) then
    raise m (.oob dstOff b.len)
  else if srcOff < 0 ∨ srcOff > src.len ∨ len > wrap (src.len - srcOff) then
    raise m (.oob srcOff src.len)
  else ⟨some (.ok .void), b.span dstOff len ++ src.span srcOff len,
    b.put m dstOff len fun k => m src.data (src.off + srcOff + k)⟩

/-- The first loop of `lvrt_block_mismatch`, over 64 bytes at a time. -/
def mismatchRuns (other : View) : Nat → Int → List Span → Option Int × List Span
  | 0, _, touched => (none, touched)
  | fuel + 1, i, touched =>
    if wrap (i + 64) ≤ b.len then
      let touched := touched ++ (b.span i 64 ++ other.span i 64)
      if b.bytes m i 64 = other.bytes m i 64 then mismatchRuns other fuel (wrap (i + 64)) touched
      else (some i, touched)
    else (some i, touched)

/-- The second loop, over single bytes. -/
def mismatchBytes (other : View) : Nat → Int → List Span → Option Int × List Span
  | 0, _, touched => (none, touched)
  | fuel + 1, i, touched =>
    if i < b.len then
      let touched := touched ++ (b.span i 1 ++ other.span i 1)
      if b.bytes m i 1 = other.bytes m i 1 then mismatchBytes other fuel (i + 1) touched
      else (some i, touched)
    else (some i, touched)

/-- `lvrt_block_mismatch`, for a number of rounds. -/
def mismatch (fuel : Nat) (other : View) (start : Int) : Effect :=
  if b.len ≠ other.len then raise m .lengths
  else if start < 0 ∨ start > b.len then raise m (.oob start b.len)
  else
    match b.mismatchRuns m other fuel start [] with
    | (none, touched) => ⟨none, touched, m⟩
    | (some i, touched) =>
      match b.mismatchBytes m other fuel i touched with
      | (none, touched) => ⟨none, touched, m⟩
      | (some i, touched) => ⟨some (.ok (.int (if i = b.len then -1 else i))), touched, m⟩

/-- `lvrt_syswrite_block`; the platform answers for the bytes that it was handed. -/
def syswrite (answer : List UInt8 → Int) (off len : Int) : Effect :=
  if b.misses off len then raise m (.oob off b.len)
  else b.read m off len (.int (answer (b.bytes m off len)))

/-- `lvrt_syssend_block`, over a secured connection or a plain one. -/
def syssend (secured : Bool) (tls plain : List UInt8 → Int) (off len : Int) : Effect :=
  if b.misses off len then raise m (.oob off b.len)
  else b.read m off len
    (.int (if secured = true then tls (b.bytes m off len) else plain (b.bytes m off len)))

end View

/-! ### Operations and their bounds -/

inductive Op
  | byteat (i : Int)
  | setbyte (i value : Int)
  | slice (off len : Int)
  | tostring (off len : Int)
  | int32at (i : Int)
  | setint32 (i value : Int)
  | int64at (i : Int)
  | setint64 (i value : Int)
  | fill (off len value : Int)
  | blit (dstOff : Int) (src : View) (srcOff len : Int)
  | mismatch (fuel : Nat) (other : View) (start : Int)
  | syswrite (answer : List UInt8 → Int) (off len : Int)
  | syssend (secured : Bool) (tls plain : List UInt8 → Int) (off len : Int)

namespace Op

variable (b : View) (m : Memory)

def run : Op → Effect
  | byteat i => b.byteat m i
  | setbyte i value => b.setbyte m i value
  | slice off len => b.slice m off len
  | tostring off len => b.tostring m off len
  | int32at i => b.int32at m i
  | setint32 i value => b.setint32 m i value
  | int64at i => b.int64at m i
  | setint64 i value => b.setint64 m i value
  | fill off len value => b.fill m off len value
  | blit dstOff src srcOff len => b.blit m dstOff src srcOff len
  | mismatch fuel other start => b.mismatch m fuel other start
  | syswrite answer off len => b.syswrite m answer off len
  | syssend secured tls plain off len => b.syssend m secured tls plain off len

/-- The views an operation is given. -/
def views : Op → List View
  | blit _ src _ _ => [b, src]
  | mismatch _ other _ => [b, other]
  | _ => [b]

/-- The numbers are of 64 bits, and the views what the runtime made. -/
def Args : Op → Prop
  | byteat i | int32at i | int64at i => InRange i
  | setbyte i value | setint32 i value | setint64 i value => InRange i ∧ InRange value
  | slice off len | tostring off len | syswrite _ off len | syssend _ _ _ off len =>
    InRange off ∧ InRange len
  | fill off len value => InRange off ∧ InRange len ∧ InRange value
  | blit dstOff src srcOff len => InRange dstOff ∧ src.Formed ∧ InRange srcOff ∧ InRange len
  | mismatch _ other start => other.Formed ∧ InRange start

/-- **The sum does not wrap** that an operation compares with the length of its view.  `mismatch`
has one sum for each 64 equal bytes from its start on, as far as its loop comes. -/
def NoWrap : Op → Prop
  | slice off len | tostring off len | syswrite _ off len | syssend _ _ _ off len =>
    0 ≤ off → 0 ≤ len → off + len < 2 ^ 63
  | int32at i | setint32 i _ => 0 ≤ i → i + 4 < 2 ^ 63
  | int64at i | setint64 i _ => 0 ≤ i → i + 8 < 2 ^ 63
  | mismatch fuel other start => b.len = other.len → 0 ≤ start →
      ∀ k < fuel, start + 64 * k ≤ b.len →
        (∀ j < k, b.bytes m (start + 64 * j) 64 = other.bytes m (start + 64 * j) 64) →
          start + 64 * k + 64 < 2 ^ 63
  | _ => True

/-- **Bounds.**  An operation that raises touches nothing and changes nothing; otherwise it touches
bytes of its views only, and changes bytes of the first; and a slice is a part of it. -/
structure Bounded (op : Op) : Prop where
  raises : ∀ e, (op.run b m).value = some (.error e) →
    (op.run b m).touched = [] ∧ (op.run b m).memory = m
  touches : ∀ s ∈ (op.run b m).touched, ∃ v ∈ op.views b, s.Inside v
  changes : ∀ d x, (op.run b m).memory d x ≠ m d x →
    d = b.data ∧ b.off ≤ x ∧ x < b.off + b.len
  slices : ∀ v, (op.run b m).value = some (.ok (.block v)) → v.Formed ∧ v.Within b

end Op

/-! ### One operation -/

theorem wrap_of_inRange (h : InRange n) : wrap n = n := by
  obtain ⟨h, h'⟩ := h
  unfold wrap
  omega

/-- A sum of two numbers wraps once. -/
theorem wrap_of_ge (h : 2 ^ 63 ≤ n) (h' : n < 2 ^ 64) : wrap n = n - 2 ^ 64 := by
  unfold wrap
  omega

section

variable {b : View} {m : Memory}

theorem inside_span {i : Int} (hi : 0 ≤ i) (hn : i + n ≤ b.len) : ∀ s ∈ b.span i n, s.Inside b := by
  intro s hs
  unfold View.span at hs
  split at hs
  · obtain rfl := List.mem_singleton.mp hs
    exact ⟨rfl, by show b.off ≤ b.off + i; omega, by show b.off + i + n ≤ b.off + b.len; omega⟩
  · cases hs

theorem not_inside_span {i : Int} (hn : b.len < i + n) :
    ¬(Span.mk b.data (b.off + i) n).Inside b := by
  intro h
  have hlast : b.off + i + n ≤ b.off + b.len := h.last
  omega

theorem put_changes {i : Int} {f : Int → UInt8} (hi : 0 ≤ i) (hn : i + n ≤ b.len) {d : Nat}
    {x : Int} (h : b.put m i n f d x ≠ m d x) : d = b.data ∧ b.off ≤ x ∧ x < b.off + b.len := by
  unfold View.put at h
  split at h
  · next hx => exact ⟨hx.1, by omega, by omega⟩
  · exact absurd rfl h

/-- What an operation on one view does when it stays inside: it raises, or touches bytes of the view
and makes no block. -/
inductive Stays (b : View) (m : Memory) : Effect → Prop
  | raise (e : Raised) : Stays b m (View.raise m e)
  | read {i n v} (hi : 0 ≤ i) (hn : i + n ≤ b.len) (hv : ∀ w, v ≠ .block w) :
      Stays b m (b.read m i n v)
  | write {i n} (f : Int → UInt8) (hi : 0 ≤ i) (hn : i + n ≤ b.len) : Stays b m (b.write m i n f)

theorem Stays.bounded (h : Stays b m (op.run b m)) (hb : b ∈ op.views b) : op.Bounded b m := by
  have heffect : ∀ e, Stays b m e → (∀ r, e.value = some (.error r) → e.touched = [] ∧ e.memory = m) ∧
      (∀ s ∈ e.touched, s.Inside b) ∧
      (∀ d x, e.memory d x ≠ m d x → d = b.data ∧ b.off ≤ x ∧ x < b.off + b.len) ∧
      ∀ v, e.value ≠ some (.ok (.block v)) := by
    intro e he
    cases he with
    | raise e => exact ⟨fun _ _ => ⟨rfl, rfl⟩, nofun, fun _ _ hx => absurd rfl hx, nofun⟩
    | read hi hn hv =>
      refine ⟨nofun, inside_span hi hn, fun _ _ hx => absurd rfl hx, fun w hw => ?_⟩
      exact hv w (Except.ok.inj (Option.some.inj hw))
    | write f hi hn => exact ⟨nofun, inside_span hi hn, fun _ _ hx => put_changes hi hn hx, nofun⟩
  obtain ⟨hraises, htouches, hchanges, hslices⟩ := heffect _ h
  exact ⟨hraises, fun s hs => ⟨b, hb, htouches s hs⟩, hchanges, fun v hv => absurd hv (hslices v)⟩

/-- A window that is hit lies in the view, if the sum does not wrap. -/
theorem window_of_not_misses (hwrap : 0 ≤ off → 0 ≤ len → off + len < 2 ^ 63)
    (h : ¬b.misses off len) :
    0 ≤ off ∧ 0 ≤ len ∧ off + len ≤ b.len := by
  unfold View.misses at h
  obtain ⟨hoff0, hlen0, hsum⟩ : 0 ≤ off ∧ 0 ≤ len ∧ wrap (off + len) ≤ b.len := by omega
  rw [wrap_of_inRange ⟨by omega, hwrap hoff0 hlen0⟩] at hsum
  exact ⟨hoff0, hlen0, hsum⟩

/-- A sum that wraps is negative. -/
theorem hits_of_wrap (hb : b.Formed) (hoff : InRange off) (hlen : InRange len) (hoff0 : 0 ≤ off)
    (hlen0 : 0 ≤ len) (hsum : 2 ^ 63 ≤ off + len) : ¬b.misses off len := by
  have hlen' := hb.len
  obtain ⟨-, hoff'⟩ := hoff
  obtain ⟨-, hlen''⟩ := hlen
  unfold View.misses
  rw [wrap_of_ge hsum (by omega)]
  omega

/-- An operation that reads a window of which the sum wraps leaves the view. -/
theorem not_bounded_of_wrap (hb : b.Formed) {i : Int} (hn : 0 < n) (hsum : 2 ^ 63 ≤ i + n)
    (hviews : op.views b = [b]) (h : b.span i n = (op.run b m).touched) :
    ¬op.Bounded b m := by
  intro hbounded
  have hs : Span.mk b.data (b.off + i) n ∈ (op.run b m).touched := by
    rw [← h, View.span, if_pos hn]
    exact mem_singleton_self _
  obtain ⟨v, hv, hinside⟩ := hbounded.touches _ hs
  rw [hviews] at hv
  obtain rfl := List.mem_singleton.mp hv
  have hfits := hb.fits
  have hoff := hb.off
  exact not_inside_span (by omega) hinside

/-- The operations that read a window of bytes. -/
theorem window_bounded_iff (hb : b.Formed) {e : Raised} {v : Value} (hoff : InRange off)
    (hlen : InRange len) (hv : ∀ w, v ≠ .block w) (hviews : op.views b = [b])
    (hrun : op.run b m = if b.misses off len then View.raise m e else b.read m off len v) :
    op.Bounded b m ↔ (0 ≤ off → 0 ≤ len → off + len < 2 ^ 63) := by
  constructor
  · intro hbounded hoff0 hlen0
    by_contra hsum
    have hmiss := hits_of_wrap hb hoff hlen hoff0 hlen0 (by omega)
    obtain ⟨-, hoff'⟩ := hoff
    refine not_bounded_of_wrap hb (i := off) (n := len) (by omega) (by omega) hviews ?_ hbounded
    rw [hrun, if_neg hmiss]
    rfl
  · intro hwrap
    refine Stays.bounded ?_ (by rw [hviews]; exact mem_singleton_self _)
    rw [hrun]
    split
    · exact .raise e
    · next hmiss =>
        obtain ⟨hoff0, hlen0, hsum⟩ := window_of_not_misses hwrap hmiss
        exact .read hoff0 hsum hv

/-- The operations on the integer of some bytes. -/
theorem int_bounded_iff (hb : b.Formed) {n : Nat} {i : Int} {e : Raised} {effect : Effect}
    (hn : 0 < n) (hn' : n ≤ 8) (hi : InRange i) (hviews : op.views b = [b])
    (htouched : effect.touched = b.span i n) (hstays : 0 ≤ i → i + n ≤ b.len → Stays b m effect)
    (hrun : op.run b m = if i < 0 ∨ wrap (i + n) > b.len then View.raise m e else effect) :
    op.Bounded b m ↔ (0 ≤ i → i + n < 2 ^ 63) := by
  obtain ⟨hlo, hhi⟩ := hi
  have hlen := hb.len
  constructor
  · intro hbounded hi0
    by_contra hsum
    refine not_bounded_of_wrap hb (i := i) (n := n) (by omega) (by omega) hviews ?_ hbounded
    rw [hrun, if_neg (by rw [wrap_of_ge (by omega) (by omega)]; omega), htouched]
  · intro hwrap
    refine Stays.bounded ?_ (by rw [hviews]; exact mem_singleton_self _)
    rw [hrun]
    split
    · exact .raise e
    · next hin =>
        obtain ⟨hi0, hsum⟩ : 0 ≤ i ∧ wrap (i + n) ≤ b.len := by omega
        rw [wrap_of_inRange ⟨by omega, hwrap hi0⟩] at hsum
        exact hstays hi0 hsum

/-- The loop over 64 bytes at a time leaves the views only where its sum wraps. -/
theorem mismatchRuns_inside {other : View} (hlen : b.len = other.len) {fuel : Nat} {i : Int}
    {touched : List Span} (hi : 0 ≤ i) (hle : i ≤ b.len)
    (htouched : ∀ s ∈ touched, s.Inside b ∨ s.Inside other)
    (hwrap : ∀ k < fuel, i + 64 * k ≤ b.len →
      (∀ j < k, b.bytes m (i + 64 * j) 64 = other.bytes m (i + 64 * j) 64) →
        i + 64 * k + 64 < 2 ^ 63) :
    (∀ s ∈ (b.mismatchRuns m other fuel i touched).2, s.Inside b ∨ s.Inside other) ∧
      ∀ i', (b.mismatchRuns m other fuel i touched).1 = some i' → 0 ≤ i' ∧ i' ≤ b.len := by
  induction fuel generalizing i touched with
  | zero => exact ⟨htouched, nofun⟩
  | succ fuel ih =>
    have hsum : i + 64 < 2 ^ 63 := by
      have hfirst := hwrap 0 (Nat.succ_pos _) (by omega) fun j hj => absurd hj (Nat.not_lt_zero j)
      omega
    rw [View.mismatchRuns, wrap_of_inRange ⟨by omega, hsum⟩]
    split
    · next hfits =>
        have hmore : ∀ s ∈ touched ++ (b.span i 64 ++ other.span i 64),
            s.Inside b ∨ s.Inside other := by
          intro s hs
          simp only [mem_append] at hs
          rcases hs with hs | hs | hs
          · exact htouched s hs
          · exact .inl (inside_span hi hfits s hs)
          · exact .inr (inside_span hi (by omega) s hs)
        dsimp only
        split
        · next hequal =>
            refine ih (by omega) hfits hmore fun k hk hkle hprev => ?_
            have hnext := hwrap (k + 1) (Nat.succ_lt_succ hk) (by push_cast; omega) ?_
            · push_cast at hnext
              omega
            · intro j hj
              cases j with
              | zero => simpa using hequal
              | succ j =>
                have hp := hprev j (Nat.lt_of_succ_lt_succ hj)
                have heq : i + 64 + 64 * (j : Int) = i + 64 * ((j + 1 : Nat) : Int) := by
                  push_cast
                  omega
                rwa [heq] at hp
        · exact ⟨hmore, fun i' h => by cases h; exact ⟨hi, hle⟩⟩
    · exact ⟨htouched, fun i' h => by cases h; exact ⟨hi, hle⟩⟩

theorem mismatchBytes_inside {other : View} (hlen : b.len = other.len) {fuel : Nat} {i : Int}
    {touched : List Span} (hi : 0 ≤ i) (htouched : ∀ s ∈ touched, s.Inside b ∨ s.Inside other) :
    ∀ s ∈ (b.mismatchBytes m other fuel i touched).2, s.Inside b ∨ s.Inside other := by
  induction fuel generalizing i touched with
  | zero => exact htouched
  | succ fuel ih =>
    rw [View.mismatchBytes]
    split
    · next hlt =>
        have hmore : ∀ s ∈ touched ++ (b.span i 1 ++ other.span i 1),
            s.Inside b ∨ s.Inside other := by
          intro s hs
          simp only [mem_append] at hs
          rcases hs with hs | hs | hs
          · exact htouched s hs
          · exact .inl (inside_span hi (by omega) s hs)
          · exact .inr (inside_span hi (by omega) s hs)
        dsimp only
        split
        · exact ih (by omega) hmore
        · exact hmore
    · exact htouched

theorem mem_mismatchRuns {other : View} {fuel : Nat} {i : Int} {touched : List Span} {s : Span}
    (hs : s ∈ touched) : s ∈ (b.mismatchRuns m other fuel i touched).2 := by
  induction fuel generalizing i touched with
  | zero => exact hs
  | succ fuel ih =>
    rw [View.mismatchRuns]
    split
    · dsimp only
      split
      · exact ih (mem_append_left _ hs)
      · exact mem_append_left _ hs
    · exact hs

theorem mem_mismatchBytes {other : View} {fuel : Nat} {i : Int} {touched : List Span} {s : Span}
    (hs : s ∈ touched) : s ∈ (b.mismatchBytes m other fuel i touched).2 := by
  induction fuel generalizing i touched with
  | zero => exact hs
  | succ fuel ih =>
    rw [View.mismatchBytes]
    split
    · dsimp only
      split
      · exact ih (mem_append_left _ hs)
      · exact mem_append_left _ hs
    · exact hs

/-- Where the sum wraps, the loop goes on behind the view. -/
theorem mismatchRuns_leaves (hb : b.Formed) {other : View} {k fuel : Nat} {i : Int}
    (touched : List Span) (hi : 0 ≤ i) (hk : k < fuel) (hle : i + 64 * k ≤ b.len)
    (hequal : ∀ j < k, b.bytes m (i + 64 * j) 64 = other.bytes m (i + 64 * j) 64)
    (hsum : 2 ^ 63 ≤ i + 64 * k + 64) :
    Span.mk b.data (b.off + (i + 64 * k)) 64 ∈ (b.mismatchRuns m other fuel i touched).2 := by
  have hfits := hb.fits
  have hoff := hb.off
  induction k generalizing i fuel touched with
  | zero =>
    obtain ⟨fuel, rfl⟩ := Nat.exists_eq_succ_of_ne_zero (Nat.ne_of_gt hk)
    have hzero : i + 64 * ((0 : Nat) : Int) = i := by omega
    rw [hzero] at hle hsum ⊢
    have hmem : Span.mk b.data (b.off + i) 64 ∈ touched ++ (b.span i 64 ++ other.span i 64) :=
      mem_append_right _ (mem_append_left _ (mem_singleton_self _))
    rw [View.mismatchRuns, if_pos (by rw [wrap_of_ge hsum (by omega)]; omega)]
    dsimp only
    split
    · exact mem_mismatchRuns hmem
    · exact hmem
  | succ k ih =>
    obtain ⟨fuel, rfl⟩ := Nat.exists_eq_succ_of_ne_zero (Nat.ne_of_gt (Nat.zero_lt_of_lt hk))
    have hfirst := hequal 0 (Nat.succ_pos k)
    rw [Int.natCast_zero, Int.mul_zero, Int.add_zero] at hfirst
    push_cast at hle hsum
    have hnext : i + 64 * ((k + 1 : Nat) : Int) = i + 64 + 64 * k := by
      push_cast
      omega
    rw [View.mismatchRuns, wrap_of_inRange ⟨by omega, by omega⟩, if_pos (by omega), if_pos hfirst,
      hnext]
    refine ih _ (by omega) (Nat.lt_of_succ_lt_succ hk) (by omega) (fun j hj => ?_) (by omega)
    have hp := hequal (j + 1) (Nat.succ_lt_succ hj)
    have heq : i + 64 + 64 * (j : Int) = i + 64 * ((j + 1 : Nat) : Int) := by
      push_cast
      omega
    rwa [heq]

/-- `mismatch` raises, or is inside of its two views and leaves the memory. -/
theorem bounded_of_compare {other : View} (hviews : op.views b = [b, other])
    (hraises : ∀ e, (op.run b m).value = some (.error e) → (op.run b m).touched = [])
    (hmemory : (op.run b m).memory = m) (hvalue : ∀ v, (op.run b m).value ≠ some (.ok (.block v)))
    (htouched : ∀ s ∈ (op.run b m).touched, s.Inside b ∨ s.Inside other) : op.Bounded b m where
  raises := fun e he => ⟨hraises e he, hmemory⟩
  touches := by
    intro s hs
    rw [hviews]
    rcases htouched s hs with h | h
    · exact ⟨b, by simp, h⟩
    · exact ⟨other, by simp, h⟩
  changes := fun d x hx => absurd (congrFun (congrFun hmemory d) x) hx
  slices := fun v hv => absurd hv (hvalue v)

theorem mismatch_bounded_iff (hb : b.Formed) {fuel : Nat} {other : View} (hother : other.Formed)
    {start : Int} :
    (Op.mismatch fuel other start).Bounded b m ↔ (Op.mismatch fuel other start).NoWrap b m := by
  have hrun : (Op.mismatch fuel other start).run b m = b.mismatch m fuel other start := rfl
  constructor
  · intro hbounded hlen hstart k hk hle hequal
    by_contra hsum
    have hs := mismatchRuns_leaves hb [] hstart hk hle hequal (by omega)
    have htouched : Span.mk b.data (b.off + (start + 64 * k)) 64 ∈
        (b.mismatch m fuel other start).touched := by
      rw [View.mismatch, if_neg (not_not_intro hlen), if_neg (by omega)]
      rcases hruns : b.mismatchRuns m other fuel start [] with ⟨_ | i, touched⟩
      · rw [hruns] at hs
        exact hs
      · rw [hruns] at hs
        have hmem := @mem_mismatchBytes b m other fuel i _ _ hs
        dsimp only
        rcases hbytes : b.mismatchBytes m other fuel i touched with ⟨_ | i', touched'⟩ <;>
          · rw [hbytes] at hmem
            exact hmem
    obtain ⟨v, hv, hinside⟩ := hbounded.touches _ (hrun ▸ htouched)
    have hlast : b.off + (start + 64 * k) + 64 ≤ v.off + v.len := hinside.last
    have hoff := hb.off
    have hfits : v.off + v.len < 2 ^ 63 := by
      rcases List.mem_cons.mp hv with rfl | hv
      · exact hb.fits
      · obtain rfl := List.mem_singleton.mp hv
        exact hother.fits
    omega
  · intro hwrap
    have hcases : ∀ e, e = b.mismatch m fuel other start → (∀ r, e.value = some (.error r) →
        e.touched = []) ∧ e.memory = m ∧ (∀ v, e.value ≠ some (.ok (.block v))) ∧
          ∀ s ∈ e.touched, s.Inside b ∨ s.Inside other := by
      intro e he
      rw [View.mismatch] at he
      split at he
      · subst he
        exact ⟨fun _ _ => rfl, rfl, nofun, nofun⟩
      · next hlen =>
          split at he
          · subst he
            exact ⟨fun _ _ => rfl, rfl, nofun, nofun⟩
          · next hin =>
              have hlen : b.len = other.len := not_not.mp hlen
              obtain ⟨hstart, hle⟩ : 0 ≤ start ∧ start ≤ b.len := by omega
              obtain ⟨hinside, hindex⟩ := @mismatchRuns_inside b m other hlen fuel start [] hstart hle
                nofun (hwrap hlen hstart)
              rcases hruns : b.mismatchRuns m other fuel start [] with ⟨_ | i, touched⟩
              · rw [hruns] at he hinside
                subst he
                exact ⟨nofun, rfl, nofun, hinside⟩
              · rw [hruns] at he hinside hindex
                have hbytes := @mismatchBytes_inside b m other hlen fuel i _ (hindex i rfl).1 hinside
                dsimp only at he
                rcases hscan : b.mismatchBytes m other fuel i touched with ⟨_ | i', touched'⟩ <;>
                  · rw [hscan] at he hbytes
                    subst he
                    exact ⟨nofun, rfl, nofun, hbytes⟩
    obtain ⟨hraises, hmemory, hvalue, htouched⟩ := hcases _ hrun
    exact bounded_of_compare rfl hraises hmemory hvalue htouched

theorem blit_bounded (hb : b.Formed) {src : View} (hsrc : src.Formed) {dstOff srcOff : Int} :
    (Op.blit dstOff src srcOff len).Bounded b m := by
  have hcases : ∀ e, e = b.blit m dstOff src srcOff len → (∃ r, e = View.raise m r) ∨
      (0 ≤ dstOff ∧ dstOff + len ≤ b.len ∧ 0 ≤ srcOff ∧ srcOff + len ≤ src.len ∧
        e = ⟨some (.ok .void), b.span dstOff len ++ src.span srcOff len,
          b.put m dstOff len fun k => m src.data (src.off + srcOff + k)⟩) := by
    have hlen := hb.len
    have hfits := hb.fits
    have hoff := hb.off
    have hlen' := hsrc.len
    have hfits' := hsrc.fits
    have hoff' := hsrc.off
    intro e he
    rw [View.blit] at he
    split at he
    · exact .inl ⟨_, he⟩
    · next hdst =>
        split at he
        · exact .inl ⟨_, he⟩
        · next hin =>
            obtain ⟨hd, hd'⟩ : 0 ≤ dstOff ∧ dstOff ≤ b.len := by omega
            obtain ⟨hs, hs'⟩ : 0 ≤ srcOff ∧ srcOff ≤ src.len := by omega
            rw [wrap_of_inRange ⟨by omega, by omega⟩] at hdst hin
            exact .inr ⟨hd, by omega, hs, by omega, he⟩
  have hrun : (Op.blit dstOff src srcOff len).run b m = b.blit m dstOff src srcOff len := rfl
  rcases hcases _ hrun with ⟨r, he⟩ | ⟨hd, hdlen, hs, hslen, he⟩
  · exact Stays.bounded (he ▸ .raise r) (mem_cons_self ..)
  · refine ⟨fun r hr => ?_, fun s hmem => ?_, fun d x hx => ?_, fun v hv => ?_⟩
    · rw [he] at hr
      cases hr
    · rw [he] at hmem
      rcases List.mem_append.mp hmem with hmem | hmem
      · exact ⟨b, by simp [Op.views], inside_span hd hdlen s hmem⟩
      · exact ⟨src, by simp [Op.views], inside_span hs hslen s hmem⟩
    · rw [he] at hx
      exact put_changes (f := fun k => m src.data (src.off + srcOff + k)) hd hdlen hx
    · rw [he] at hv
      cases hv

theorem slice_bounded_iff (hb : b.Formed) (hoff : InRange off) (hlen : InRange len) :
    (Op.slice off len).Bounded b m ↔ (Op.slice off len).NoWrap b m := by
  have hrun : (Op.slice off len).run b m = b.slice m off len := rfl
  have hboff := hb.off
  have hblen := hb.len
  have hfits := hb.fits
  constructor
  · intro hbounded hoff0 hlen0
    by_contra hsum
    have hmiss := hits_of_wrap hb hoff hlen hoff0 hlen0 (by omega)
    obtain ⟨hformed, hwithin⟩ := hbounded.slices ⟨b.data, wrap (b.off + off), len⟩
      (by rw [hrun, View.slice, if_neg hmiss])
    have hfirst : b.off ≤ wrap (b.off + off) := hwithin.first
    have hlast : wrap (b.off + off) + len ≤ b.off + b.len := hwithin.last
    unfold wrap at hfirst hlast
    unfold InRange at hoff hlen
    omega
  · intro hwrap
    by_cases hmiss : b.misses off len
    · refine Stays.bounded ?_ (mem_cons_self ..)
      rw [hrun, View.slice, if_pos hmiss]
      exact .raise _
    · obtain ⟨hoff0, hlen0, hsum⟩ := window_of_not_misses hwrap hmiss
      have heffect : (Op.slice off len).run b m =
          ⟨some (.ok (.block ⟨b.data, b.off + off, len⟩)), [], m⟩ := by
        rw [hrun, View.slice, if_neg hmiss, wrap_of_inRange ⟨by omega, by omega⟩]
      refine ⟨fun r hr => ?_, fun s hs => ?_, fun d x hx => ?_, fun v hv => ?_⟩
      · rw [heffect] at hr
        cases hr
      · rw [heffect] at hs
        cases hs
      · rw [heffect] at hx
        exact absurd rfl hx
      · rw [heffect] at hv
        cases hv
        exact ⟨⟨by show 0 ≤ b.off + off; omega, hlen0, by show b.off + off + len < 2 ^ 63; omega⟩,
          rfl, by show b.off ≤ b.off + off; omega, by show b.off + off + len ≤ b.off + b.len; omega⟩

/-- Each operation stays inside exactly if its sum does not wrap. -/
theorem bounded_iff (hb : b.Formed) (hargs : op.Args) : op.Bounded b m ↔ op.NoWrap b m := by
  have hlen := hb.len
  have hfits := hb.fits
  have hoff := hb.off
  cases op with
  | byteat i =>
    refine iff_of_true (Stays.bounded ?_ (mem_cons_self ..)) trivial
    show Stays b m (b.byteat m i)
    unfold View.byteat
    split
    · exact .raise _
    · exact .read (by omega) (by omega) fun w h => by cases h
  | setbyte i value =>
    refine iff_of_true (Stays.bounded ?_ (mem_cons_self ..)) trivial
    show Stays b m (b.setbyte m i value)
    unfold View.setbyte
    split
    · exact .raise _
    · split
      · exact .raise _
      · exact .write _ (by omega) (by omega)
  | fill off len value =>
    refine iff_of_true (Stays.bounded ?_ (mem_cons_self ..)) trivial
    show Stays b m (b.fill m off len value)
    unfold View.fill
    split
    · exact .raise _
    · next hin =>
        split
        · exact .raise _
        · obtain ⟨hoff0, hoff1⟩ : 0 ≤ off ∧ off ≤ b.len := by omega
          rw [wrap_of_inRange ⟨by omega, by omega⟩] at hin
          exact .write _ hoff0 (by omega)
  | slice off len => exact slice_bounded_iff hb hargs.1 hargs.2
  | tostring off len => exact window_bounded_iff hb hargs.1 hargs.2 (fun w h => by cases h) rfl rfl
  | syswrite answer off len => exact window_bounded_iff hb hargs.1 hargs.2 (fun w h => by cases h) rfl rfl
  | syssend secured tls plain off len =>
    exact window_bounded_iff hb hargs.1 hargs.2 (fun w h => by cases h) rfl rfl
  | int32at i =>
    exact int_bounded_iff hb (n := 4) (by decide) (by decide) hargs rfl rfl
      (fun hi hn => .read hi hn fun w h => by cases h) rfl
  | setint32 i value =>
    exact int_bounded_iff hb (n := 4) (by decide) (by decide) hargs.1 rfl rfl
      (fun hi hn => .write _ hi hn) rfl
  | int64at i =>
    exact int_bounded_iff hb (n := 8) (by decide) (by decide) hargs rfl rfl
      (fun hi hn => .read hi hn fun w h => by cases h) rfl
  | setint64 i value =>
    exact int_bounded_iff hb (n := 8) (by decide) (by decide) hargs.1 rfl rfl
      (fun hi hn => .write _ hi hn) rfl
  | blit dstOff src srcOff len => exact iff_of_true (blit_bounded hb hargs.2.1) trivial
  | mismatch fuel other start => exact mismatch_bounded_iff hb hargs.1

end

/-! ### Slices of slices -/

/-- A slice that is taken without a sum that wraps. -/
def Sliced (b v : View) : Prop :=
  ∃ m off len, InRange off ∧ InRange len ∧ (Op.slice off len).NoWrap b m ∧
    (b.slice m off len).value = some (.ok (.block v))

theorem View.Within.trans {u v b : View} (h : u.Within v) (h' : v.Within b) : u.Within b :=
  ⟨h.data.trans h'.data, Int.le_trans h'.first h.first, Int.le_trans h.last h'.last⟩

/-- A slice of slices is a view inside of the first. -/
theorem within_of_sliced {b v : View} (hb : b.Formed) (h : Relation.ReflTransGen Sliced b v) :
    v.Formed ∧ v.Within b := by
  induction h with
  | refl => exact ⟨hb, rfl, Int.le_refl _, Int.le_refl _⟩
  | tail _ hstep ih =>
    obtain ⟨hformed, hwithin⟩ := ih
    obtain ⟨m, off, len, hoff, hlen, hwrap, hvalue⟩ := hstep
    have hbounded := (slice_bounded_iff hformed hoff hlen).mpr hwrap
    obtain ⟨hformed', hwithin'⟩ := hbounded.slices _ hvalue
    exact ⟨hformed', hwithin'.trans hwithin⟩

/-- **Block bounds.**  Every operation on a view, also one that is a slice of slices, stays inside
exactly if its sum does not wrap; and slices stay inside of the view that they come from. -/
theorem block_bounds {b v : View} (hb : b.Formed) (hv : Relation.ReflTransGen Sliced b v) :
    v.Formed ∧ v.Within b ∧
      ∀ (m : Memory) (op : Op), op.Args → (op.Bounded v m ↔ op.NoWrap v m) := by
  obtain ⟨hformed, hwithin⟩ := within_of_sliced hb hv
  exact ⟨hformed, hwithin, fun m op hargs => bounded_iff hformed hargs⟩

/-! ### Sixteen bytes -/

def zeros : Memory := fun _ _ => 0

/-- A slice at eight of a block of sixteen bytes. -/
theorem block_bounds_half : View.Formed ⟨0, 8, 8⟩ ∧ View.Within ⟨0, 8, 8⟩ ⟨0, 0, 16⟩ ∧
    ∀ (m : Memory) (op : Op), op.Args → (op.Bounded ⟨0, 8, 8⟩ m ↔ op.NoWrap ⟨0, 8, 8⟩ m) := by
  refine block_bounds ⟨by decide, by decide, by decide⟩ (.single ⟨zeros, 8, 8, ?_⟩)
  exact ⟨⟨by decide, by decide⟩, ⟨by decide, by decide⟩, fun _ _ => by decide, rfl⟩

/-- **A sum that wraps.**  A slice of sixteen bytes is as long as the memory, and reads what is
behind them. -/
theorem slice_leaves_block :
    (Op.slice 1 (2 ^ 63 - 1)).Args ∧
      (View.slice ⟨0, 0, 16⟩ zeros 1 (2 ^ 63 - 1)).value = some (.ok (.block ⟨0, 1, 2 ^ 63 - 1⟩)) ∧
      (View.byteat ⟨0, 1, 2 ^ 63 - 1⟩ zeros 999).touched = [⟨0, 1000, 1⟩] ∧
      ¬(Op.slice 1 (2 ^ 63 - 1)).Bounded ⟨0, 0, 16⟩ zeros := by
  have hvalue : (View.slice ⟨0, 0, 16⟩ zeros 1 (2 ^ 63 - 1)).value =
      some (.ok (.block ⟨0, 1, 2 ^ 63 - 1⟩)) := rfl
  refine ⟨⟨⟨by decide, by decide⟩, ⟨by decide, by decide⟩⟩, hvalue, rfl, fun hbounded => ?_⟩
  exact absurd (hbounded.slices _ hvalue).2.last (by decide)

end Leviathan.Runtime.Block
