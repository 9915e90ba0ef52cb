import Leviathan.Lib.Text

/-!
# Chunked transfer coding

`chunkEncode`, `chunkEnd` and `ChunkedDecoder` of the prelude, with `int.toHex` and the
string operations that they use.  The decoder is fed fragments of the byte stream and
returns the payload bytes that it has found so far.

The proof keeps the wire with a mark on every payload byte.  Between two rounds of the loop
the decoder stands in front of a known part of it (`Expects`): a size line, the rest of the
data of a chunk, the end of a chunk, the trailer, or nothing.  When the loop stops, no
payload byte is left in the buffer.
-/

variable {n : Nat} {s line : Str} {rest : Marked} {ps : List Str}

namespace Leviathan.Net

open List

/-! ## Strings and numbers -/

/-- `string.indexOf`; none stands for -1. -/
def indexOf (pattern : Str) : Str → Option Nat
  | [] => if pattern = [] then some 0 else none
  | c :: cs => if pattern.isPrefixOf (c :: cs) then some 0 else (indexOf pattern cs).map (· + 1)

def isBlank (c : Char) : Bool := c = ' ' || c = '\t' || c = '\n' || c = '\r'

/-- `string.trim`. -/
def trim (s : Str) : Str := ((s.dropWhile isBlank).reverse.dropWhile isBlank).reverse

/-- An `int` has 64 bits. -/
def wrap (n : Int) : Int := n.bmod (2 ^ 64)

def hexDigits : Str := "0123456789abcdef".toList

/-- The loop of `int.toHex`. -/
def hexLoop (n : Nat) (r : Str) : Str :=
  if h : n = 0 then r else hexLoop (n >>> 4) (hexDigits.getD (n &&& 15) '0' :: r)
termination_by n
decreasing_by
  rw [Nat.shiftRight_eq_div_pow]
  omega

/-- `int.toHex`. -/
def toHex (n : Int) : Str :=
  if n = 0 then "0".toList
  else if n = -2 ^ 63 then "-8000000000000000".toList
  else if n < 0 then '-' :: hexLoop n.natAbs [] else hexLoop n.natAbs []

/-- `encoding::hexNibble`. -/
def hexNibble (c : Nat) : Int :=
  if 48 ≤ c ∧ c ≤ 57 then (c : Int) - 48
  else if 97 ≤ c ∧ c ≤ 102 then (c : Int) - 97 + 10
  else if 65 ≤ c ∧ c ≤ 70 then (c : Int) - 65 + 10
  else -1

/-! ## The coder -/

def crlf : Str := "\r\n".toList

/-- `chunkEncode`. -/
def chunkEncode (data : Str) : Str := toHex data.length ++ (crlf ++ (data ++ crlf))

/-- `chunkEnd`. -/
def chunkEnd : Str := "0\r\n\r\n".toList

/-- `ChunkedDecoder`: 0 size line, 1 data, 2 trailing CRLF, 3 trailer, 4 done. -/
structure ChunkedDecoder where
  buf : Str := []
  state : Nat := 0
  need : Int := 0
  isDone : Bool := false
  bad : Bool := false
  deriving DecidableEq

/-- What one round of the loop does. -/
inductive Round
  /-- no progress: the loop ends -/
  | idle
  /-- a size line that is not a number: `feed` returns -/
  | malformed (d : ChunkedDecoder)
  | progress (d : ChunkedDecoder) (out : Str)

/-- One digit of a size line: the size so far and whether all digits were good. -/
def sizeDigit (acc : Int × Bool) (c : Char) : Int × Bool :=
  let d := hexNibble c.toNat
  if d < 0 then (acc.1, false) else (wrap (acc.1 * 16 + d), acc.2)

/-- The size of a size line, if it is one. -/
def sizeOf (sizeLine : Str) : Option Int :=
  let sizeHex := trim (match indexOf [';'] sizeLine with
    | some semi => sizeLine.take semi
    | none => sizeLine)
  let (size, ok) := sizeHex.foldl sizeDigit (0, 0 < sizeHex.length)
  if ok then some size else none

namespace ChunkedDecoder

def round (d : ChunkedDecoder) : Round :=
  if d.state = 0 then
    match indexOf crlf d.buf with
    | none => .idle
    | some nl =>
      match sizeOf (d.buf.take nl) with
      | none => .malformed { d with buf := d.buf.drop (nl + 2), bad := true, isDone := true }
      | some size =>
        if size = 0 then .progress { d with buf := d.buf.drop (nl + 2), state := 3 } []
        else .progress { d with buf := d.buf.drop (nl + 2), need := size, state := 1 } []
  else if d.state = 1 then
    if 0 < d.buf.length then
      let take := if d.need < d.buf.length then d.need else d.buf.length
      -- bytes are taken only when there are some to take
      let (out, buf, need) :=
        if 0 < take then (d.buf.take take.toNat, d.buf.drop take.toNat, d.need - take)
        else ([], d.buf, d.need)
      if need = 0 then .progress { d with buf, need, state := 2 } out
      else if 0 < take then .progress { d with buf, need } out
      else .idle
    else .idle
  else if d.state = 2 then
    if 2 ≤ d.buf.length then .progress { d with buf := d.buf.drop 2, state := 0 } [] else .idle
  else if d.state = 3 then
    match indexOf crlf d.buf with
    | none => .idle
    | some nl =>
      if d.buf.take nl = [] then
        .progress { d with buf := d.buf.drop (nl + 2), state := 4, isDone := true } []
      else .progress { d with buf := d.buf.drop (nl + 2) } []
  else .idle

/-- The loop of `feed`: the decoder and what was put out. -/
def loop : Nat → ChunkedDecoder → Str → ChunkedDecoder × Str
  | 0, d, out => (d, out)
  | fuel + 1, d, out =>
    match d.round with
    | .idle => (d, out)
    | .malformed d => (d, out)
    | .progress d more => loop fuel d (out ++ more)

/-- `feed`.  Every round but one takes bytes from the buffer. -/
def feed (d : ChunkedDecoder) (chunk : Str) : ChunkedDecoder × Str :=
  loop (2 * (d.buf ++ chunk).length + 2) { d with buf := d.buf ++ chunk } []

/-- Feeds the fragments one after the other; what all the feeds returned. -/
def feedAll (d : ChunkedDecoder) : List Str → ChunkedDecoder × List Str
  | [] => (d, [])
  | chunk :: chunks =>
    let (d, out) := d.feed chunk
    let (d, outs) := d.feedAll chunks
    (d, out :: outs)

end ChunkedDecoder

/-! ## Size lines are read back -/

theorem wrap_eq_self (h : n < 2 ^ 63) : wrap n = n := by
  unfold wrap
  apply Int.bmod_eq_of_le
  · omega
  · omega

theorem hexDigit_cases {k : Nat} (h : k < 16) :
    hexNibble (hexDigits.getD k '0').toNat = k ∧ isBlank (hexDigits.getD k '0') = false ∧
      hexDigits.getD k '0' ≠ ';' ∧ hexDigits.getD k '0' ≠ '\r' := by
  revert k
  decide

theorem hexLoop_zero (r : Str) : hexLoop 0 r = r := by
  rw [hexLoop]
  simp

theorem hexLoop_pos (h : n ≠ 0) (r : Str) :
    hexLoop n r = hexLoop (n / 16) (hexDigits.getD (n % 16) '0' :: r) := by
  have hand : n &&& 15 = n % 16 := Nat.and_two_pow_sub_one_eq_mod n 4
  rw [hexLoop, dif_neg h, Nat.shiftRight_eq_div_pow, hand]

/-- Every byte of a hexadecimal numeral is one of the digits. -/
theorem hexLoop_induct {P : Char → Prop} (hP : ∀ k < 16, P (hexDigits.getD k '0')) (n : Nat)
    {r : Str} (hr : ∀ c ∈ r, P c) : ∀ c ∈ hexLoop n r, P c := by
  induction n using Nat.strong_induction_on generalizing r with
  | _ n ih =>
    by_cases hn : n = 0
    · rw [hn, hexLoop_zero]
      exact hr
    · rw [hexLoop_pos hn]
      apply ih (n / 16) (by omega)
      intro c hc
      rcases List.mem_cons.mp hc with rfl | hc
      · exact hP _ (Nat.mod_lt _ (by decide))
      · exact hr c hc

theorem foldl_hexLoop (hn : n < 2 ^ 63) (r : Str) :
    (hexLoop n r).foldl sizeDigit (0, true) = r.foldl sizeDigit ((n : Int), true) := by
  induction n using Nat.strong_induction_on generalizing r with
  | _ n ih =>
    by_cases h0 : n = 0
    · rw [h0, hexLoop_zero]
      rfl
    · have hdigit := (hexDigit_cases (Nat.mod_lt n (by decide : 0 < 16))).1
      have hvalue : ((n / 16 : Nat) : Int) * 16 + ((n % 16 : Nat) : Int) = (n : Int) := by omega
      rw [hexLoop_pos h0, ih (n / 16) (by omega) (by omega), foldl_cons]
      simp only [sizeDigit, hdigit]
      rw [if_neg (by omega), hvalue, wrap_eq_self hn]

theorem dropWhile_of_forall {p : Char → Bool} (h : ∀ c ∈ s, p c = false) : s.dropWhile p = s := by
  cases s with
  | nil => rfl
  | cons c s =>
    rw [dropWhile_cons, h c (mem_cons_self ..)]
    rfl

theorem trim_of_forall (h : ∀ c ∈ s, isBlank c = false) : trim s = s := by
  unfold trim
  rw [dropWhile_of_forall h, dropWhile_of_forall, reverse_reverse]
  intro c hc
  exact h c (List.mem_reverse.mp hc)

theorem indexOf_singleton_of_not_mem {c : Char} (h : c ∉ s) : indexOf [c] s = none := by
  induction s with
  | nil => rfl
  | cons d s ih =>
    have hne : ¬ c = d := fun he => h (he ▸ mem_cons_self ..)
    have hrest := ih (fun hm => h (mem_cons_of_mem _ hm))
    simp [indexOf, List.isPrefixOf, hne, hrest]

/-- The bytes of a size line. -/
structure SizeLine (line : Str) (size : Nat) : Prop where
  read : sizeOf line = some (size : Int)
  plain : '\r' ∉ line

theorem sizeLine_zero : SizeLine "0".toList 0 := ⟨by decide, by decide⟩

theorem hexLoop_ne_nil (h : n ≠ 0) (r : Str) : 0 < (hexLoop n r).length := by
  induction n using Nat.strong_induction_on generalizing r with
  | _ n ih =>
    rw [hexLoop_pos h]
    by_cases hrest : n / 16 = 0
    · rw [hrest, hexLoop_zero]
      exact Nat.succ_pos _
    · exact ih (n / 16) (by omega) hrest _

theorem toHex_pos (hpos : 0 < n) : toHex n = hexLoop n [] := by
  have hzero : ¬ (n : Int) = 0 := by omega
  have hmin : ¬ (n : Int) = -2 ^ 63 := by omega
  have hneg : ¬ (n : Int) < 0 := by omega
  unfold toHex
  rw [if_neg hzero, if_neg hmin, if_neg hneg, Int.natAbs_natCast]

theorem toHex_digit (hpos : 0 < n) (hn : n < 16) : toHex n = [hexDigits.getD n '0'] := by
  rw [toHex_pos hpos, hexLoop_pos (Nat.ne_of_gt hpos), Nat.div_eq_of_lt hn, hexLoop_zero,
    Nat.mod_eq_of_lt hn]

theorem sizeLine_toHex (hpos : 0 < n) (hn : n < 2 ^ 63) : SizeLine (toHex n) n := by
  have hnil : ∀ P : Char → Prop, ∀ c ∈ ([] : Str), P c := fun P c hc => nomatch hc
  have hsemi : ';' ∉ hexLoop n [] := fun hm =>
    hexLoop_induct (P := (· ≠ ';')) (fun k hk => (hexDigit_cases hk).2.2.1) n (hnil _) _ hm rfl
  have hcr : '\r' ∉ hexLoop n [] := fun hm =>
    hexLoop_induct (P := (· ≠ '\r')) (fun k hk => (hexDigit_cases hk).2.2.2) n (hnil _) _ hm rfl
  have htrim : trim (hexLoop n []) = hexLoop n [] :=
    trim_of_forall (hexLoop_induct (P := (isBlank · = false))
      (fun k hk => (hexDigit_cases hk).2.1) n (hnil _))
  have hlen := hexLoop_ne_nil (Nat.ne_of_gt hpos) []
  rw [toHex_pos hpos]
  refine ⟨?_, hcr⟩
  simp only [sizeOf, indexOf_singleton_of_not_mem hsemi, htrim, decide_eq_true hlen,
    foldl_hexLoop hn, foldl_nil, if_true]

/-! ## The wire with its payload marked -/

/-- A byte and whether it is one of the payload. -/
abbrev Marked := List (Char × Bool)

def plain (s : Str) : Marked := s.map (·, false)

def payload (s : Str) : Marked := s.map (·, true)

def bytesOf (w : Marked) : Str := w.map (·.1)

/-- The payload bytes of a part of the wire. -/
def payloadOf (w : Marked) : Str := bytesOf (w.filter (·.2))

def markedChunk (p : Str) : Marked :=
  plain (toHex p.length ++ crlf) ++ (payload p ++ plain crlf)

def markedEnd : Marked := plain ("0".toList ++ crlf) ++ plain crlf

/-- The wire of a list of payloads. -/
def markedWire (ps : List Str) : Marked := ps.flatMap markedChunk ++ markedEnd

@[simp] theorem bytesOf_append (v w : Marked) : bytesOf (v ++ w) = bytesOf v ++ bytesOf w :=
  map_append ..

@[simp] theorem bytesOf_plain (s : Str) : bytesOf (plain s) = s := by
  simp [bytesOf, plain, Function.comp_def]

@[simp] theorem bytesOf_payload (s : Str) : bytesOf (payload s) = s := by
  simp [bytesOf, payload, Function.comp_def]

@[simp] theorem length_bytesOf (w : Marked) : (bytesOf w).length = w.length := length_map ..

@[simp] theorem payloadOf_append (v w : Marked) :
    payloadOf (v ++ w) = payloadOf v ++ payloadOf w := by
  simp [payloadOf]

@[simp] theorem payloadOf_plain (s : Str) : payloadOf (plain s) = [] := by
  simp [payloadOf, plain, bytesOf]

@[simp] theorem payloadOf_payload (s : Str) : payloadOf (payload s) = s := by
  simp [payloadOf, payload, bytesOf, filter_map, Function.comp_def]

theorem bytesOf_markedWire (ps : List Str) :
    bytesOf (markedWire ps) = ps.flatMap chunkEncode ++ chunkEnd := by
  induction ps with
  | nil => decide
  | cons p ps ih =>
    have hcons : markedWire (p :: ps) = markedChunk p ++ markedWire ps := by
      simp [markedWire]
    rw [hcons, bytesOf_append, ih]
    simp [markedChunk, chunkEncode]

theorem payloadOf_markedWire (ps : List Str) : payloadOf (markedWire ps) = ps.flatten := by
  induction ps with
  | nil => decide
  | cons p ps ih =>
    have hcons : markedWire (p :: ps) = markedChunk p ++ markedWire ps := by
      simp [markedWire]
    rw [hcons, payloadOf_append, ih]
    simp [markedChunk]

/-! ## Lines -/

theorem indexOf_crlf_line (h : '\r' ∉ line) (rest : Str) :
    indexOf crlf (line ++ (crlf ++ rest)) = some line.length := by
  induction line with
  | nil => rfl
  | cons c line ih =>
    have hne : ¬ '\r' = c := fun he => h (he ▸ mem_cons_self ..)
    have hrest := ih (fun hm => h (mem_cons_of_mem _ hm))
    have hno : crlf.isPrefixOf (c :: (line ++ (crlf ++ rest))) = false := by
      simp [crlf, List.isPrefixOf, hne]
    show (if crlf.isPrefixOf (c :: (line ++ (crlf ++ rest))) then some 0
      else (indexOf crlf (line ++ (crlf ++ rest))).map (· + 1)) = _
    rw [hno, hrest]
    rfl

/-- A line that has not ended yet. -/
theorem indexOf_crlf_cut (h : '\r' ∉ line) {y z : Str} (hz : z ≠ [])
    (hcut : y ++ z = line ++ crlf) : indexOf crlf y = none := by
  induction line generalizing y with
  | nil =>
    cases y with
    | nil => rfl
    | cons a y =>
      cases y with
      | nil => simp [indexOf, crlf, List.isPrefixOf]
      | cons b y =>
        -- both bytes of the delimiter are in `y`, so nothing is left for `z`
        have hlen := congrArg List.length hcut
        have hpos := length_pos_of_ne_nil hz
        have hcrlf : crlf.length = 2 := by decide
        rw [nil_append, length_append, hcrlf] at hlen
        simp only [length_cons] at hlen
        omega
  | cons c line ih =>
    cases y with
    | nil => rfl
    | cons a y =>
      obtain ⟨rfl, hrest⟩ := List.cons.inj hcut
      have hne : ¬ '\r' = a := fun he => h (he ▸ mem_cons_self ..)
      have hnone := ih (fun hm => h (mem_cons_of_mem _ hm)) hrest
      simp [indexOf, crlf, List.isPrefixOf, hne]
      exact hnone

/-- The buffer holds all of the next part of the wire or cuts it. -/
theorem split_next {w v x r : Marked} (h : w ++ v = x ++ r) :
    (∃ w', w = x ++ w' ∧ r = w' ++ v) ∨ (∃ z, x = w ++ z ∧ z ≠ [] ∧ v = z ++ r) := by
  rcases List.append_eq_append_iff.mp h with ⟨z, hx, hv⟩ | ⟨w', hw, hr⟩
  · by_cases hz : z = []
    · subst hz
      exact .inl ⟨[], by simpa using hx.symm, by simpa using hv.symm⟩
    · exact .inr ⟨z, hx, hz, hv⟩
  · exact .inl ⟨w', hw, hr⟩

theorem payloadOf_prefix_plain {w z : Marked} (h : plain s = w ++ z) : payloadOf w = [] := by
  have := congrArg payloadOf h
  rw [payloadOf_plain, payloadOf_append] at this
  exact (List.append_eq_nil_iff.mp this.symm).1

/-! ## What the decoder stands in front of -/

/-- Payloads that can be sent: a chunk is not empty and its length is an `int`. -/
def Sendable (ps : List Str) : Prop := ∀ p ∈ ps, p ≠ [] ∧ p.length < 2 ^ 63

inductive Expects (d : ChunkedDecoder) : Marked → Prop
  | size {ps : List Str} (hps : Sendable ps) (hstate : d.state = 0) (hdone : d.isDone = false)
      (hbad : d.bad = false) : Expects d (markedWire ps)
  | data {ps : List Str} {x : Str} (hps : Sendable ps) (hx : x ≠ []) (hstate : d.state = 1)
      (hneed : d.need = x.length) (hdone : d.isDone = false) (hbad : d.bad = false) :
      Expects d (payload x ++ (plain crlf ++ markedWire ps))
  | chunkEnd {ps : List Str} (hps : Sendable ps) (hstate : d.state = 2)
      (hdone : d.isDone = false) (hbad : d.bad = false) :
      Expects d (plain crlf ++ markedWire ps)
  | trailer (hstate : d.state = 3) (hdone : d.isDone = false) (hbad : d.bad = false) :
      Expects d (plain crlf)
  | done (hstate : d.state = 4) (hdone : d.isDone = true) (hbad : d.bad = false) : Expects d []

theorem markedWire_ne_nil (ps : List Str) : markedWire ps ≠ [] := by
  intro h
  have := congrArg List.length h
  simp [markedWire, markedEnd, plain, crlf] at this

theorem Expects.isDone_iff {d : ChunkedDecoder} (h : Expects d rest) :
    d.isDone = true ↔ rest = [] := by
  cases h with
  | size _ _ hdone _ => simp [hdone, markedWire_ne_nil]
  | data _ hx _ _ hdone _ => simp [hdone, payload, hx]
  | chunkEnd _ _ hdone _ => simp [hdone, plain, crlf]
  | trailer _ hdone _ => simp [hdone, plain, crlf]
  | done _ hdone _ => simp [hdone]

theorem Expects.bad_eq {d : ChunkedDecoder} (h : Expects d rest) : d.bad = false := by
  cases h with
  | size _ _ _ hbad => exact hbad
  | data _ _ _ _ _ hbad => exact hbad
  | chunkEnd _ _ _ hbad => exact hbad
  | trailer _ _ hbad => exact hbad
  | done _ _ hbad => exact hbad

/-- Nothing of what is expected depends on the buffer. -/
theorem Expects.withBuf {d : ChunkedDecoder} (h : Expects d rest) (buf : Str) :
    Expects { d with buf } rest := by
  cases h with
  | size hps hstate hdone hbad => exact .size hps hstate hdone hbad
  | data hps hx hstate hneed hdone hbad => exact .data hps hx hstate hneed hdone hbad
  | chunkEnd hps hstate hdone hbad => exact .chunkEnd hps hstate hdone hbad
  | trailer hstate hdone hbad => exact .trailer hstate hdone hbad
  | done hstate hdone hbad => exact .done hstate hdone hbad

/-- A round in front of the part `w ++ v` of the wire, of which `w` has arrived. -/
def RoundSpec (d : ChunkedDecoder) (w v : Marked) : Prop :=
  (d.round = .idle ∧ payloadOf w = [] ∧ (v = [] → w = [])) ∨
    ∃ d' w₁ w', w = w₁ ++ w' ∧ w₁ ≠ [] ∧ d.round = .progress d' (payloadOf w₁) ∧
      d'.buf = bytesOf w' ∧ Expects d' (w' ++ v)

variable {d : ChunkedDecoder} {w v r : Marked}

/-- In front of a line, the loop waits for its end and then takes all of it. -/
theorem split_line (hplain : '\r' ∉ line) (hbuf : d.buf = bytesOf w)
    (h : w ++ v = plain (line ++ crlf) ++ r) :
    (∃ w', w = plain (line ++ crlf) ++ w' ∧ r = w' ++ v ∧ indexOf crlf d.buf = some line.length ∧
      d.buf.take line.length = line ∧ d.buf.drop (line.length + 2) = bytesOf w') ∨
    (indexOf crlf d.buf = none ∧ payloadOf w = [] ∧ v ≠ []) := by
  rcases split_next h with ⟨w', hw, hr⟩ | ⟨z, hx, hz, hv⟩
  · left
    have hbytes : d.buf = line ++ (crlf ++ bytesOf w') := by
      rw [hbuf, hw, bytesOf_append, bytesOf_plain, append_assoc]
    refine ⟨w', hw, hr, ?_, ?_, ?_⟩
    · rw [hbytes, indexOf_crlf_line hplain]
    · rw [hbytes, take_left]
    · have hassoc : line ++ (crlf ++ bytesOf w') = (line ++ crlf) ++ bytesOf w' :=
        (append_assoc ..).symm
      have hlen : line.length + 2 = (line ++ crlf).length := by
        rw [length_append]
        rfl
      rw [hbytes, hassoc, hlen, drop_left]
  · right
    have hcut : bytesOf w ++ bytesOf z = line ++ crlf := by
      rw [← bytesOf_append, ← hx, bytesOf_plain]
    have hz' : bytesOf z ≠ [] := by
      intro hnil
      exact hz (List.map_eq_nil_iff.mp hnil)
    refine ⟨?_, payloadOf_prefix_plain hx, ?_⟩
    · rw [hbuf]
      exact indexOf_crlf_cut hplain hz' hcut
    · rw [hv]
      intro hnil
      exact hz (List.append_eq_nil_iff.mp hnil).1

theorem plain_line_ne_nil (line : Str) : plain (line ++ crlf) ≠ [] := by
  intro h
  have := congrArg List.length h
  simp [plain, crlf] at this

/-- In front of a size line. -/
theorem round_size {size : Nat} (hline : SizeLine line size) (hstate : d.state = 0)
    (hbuf : d.buf = bytesOf w) (h : w ++ v = plain (line ++ crlf) ++ r)
    (hzero : size = 0 → ∀ buf, Expects { d with buf, state := 3 } r)
    (hpos : size ≠ 0 → ∀ buf, Expects { d with buf, need := size, state := 1 } r) :
    RoundSpec d w v := by
  rcases split_line hline.plain hbuf h with ⟨w', hw, hr, hnl, htake, hdrop⟩ | ⟨hnl, hpay, hv⟩
  · right
    by_cases hsize : size = 0
    · refine ⟨{ d with buf := bytesOf w', state := 3 }, plain (line ++ crlf), w', hw,
        plain_line_ne_nil line, ?_, rfl, ?_⟩
      · simp [ChunkedDecoder.round, hstate, hnl, htake, hline.read, hsize, hdrop]
      · rw [← hr]
        exact hzero hsize _
    · refine ⟨{ d with buf := bytesOf w', need := size, state := 1 }, plain (line ++ crlf), w', hw,
        plain_line_ne_nil line, ?_, rfl, ?_⟩
      · simp [ChunkedDecoder.round, hstate, hnl, htake, hline.read, hsize, hdrop]
      · rw [← hr]
        exact hpos hsize _
  · left
    refine ⟨?_, hpay, fun hnil => absurd hnil hv⟩
    simp [ChunkedDecoder.round, hstate, hnl]

/-- In front of the trailer. -/
theorem round_trailer (hstate : d.state = 3) (hbad : d.bad = false) (hbuf : d.buf = bytesOf w)
    (h : w ++ v = plain crlf) : RoundSpec d w v := by
  have hline : w ++ v = plain ([] ++ crlf) ++ [] := by rw [h, append_nil]; rfl
  rcases split_line (by simp) hbuf hline with ⟨w', hw, hr, hnl, htake, hdrop⟩ | ⟨hnl, hpay, hv⟩
  · right
    refine ⟨{ d with buf := bytesOf w', state := 4, isDone := true }, plain ([] ++ crlf), w', hw,
      plain_line_ne_nil [], ?_, rfl, ?_⟩
    · have hdrop' : d.buf.drop 2 = bytesOf w' := hdrop
      simp [ChunkedDecoder.round, hstate, hnl, hdrop']
    · rw [← hr]
      exact .done rfl rfl hbad
  · left
    refine ⟨?_, hpay, fun hnil => absurd hnil hv⟩
    simp [ChunkedDecoder.round, hstate, hnl]

/-- In front of the end of a chunk. -/
theorem round_chunkEnd (hps : Sendable ps) (hstate : d.state = 2) (hdone : d.isDone = false)
    (hbad : d.bad = false) (hbuf : d.buf = bytesOf w) (h : w ++ v = plain crlf ++ markedWire ps) :
    RoundSpec d w v := by
  rcases split_next h with ⟨w', hw, hr⟩ | ⟨z, hx, hz, hv⟩
  · right
    have hbytes : d.buf = crlf ++ bytesOf w' := by rw [hbuf, hw, bytesOf_append, bytesOf_plain]
    have hlen : 2 ≤ d.buf.length := by
      rw [hbytes, length_append]
      exact Nat.le_add_right 2 _
    have hdrop : d.buf.drop 2 = bytesOf w' := by
      rw [hbytes]
      rfl
    refine ⟨{ d with buf := bytesOf w', state := 0 }, plain crlf, w', hw, plain_line_ne_nil [], ?_,
      rfl, ?_⟩
    · simp [ChunkedDecoder.round, hstate, hlen, hdrop]
    · rw [← hr]
      exact .size hps rfl hdone hbad
  · left
    have hlen : d.buf.length < 2 := by
      have htotal := congrArg List.length hx
      have hpos := length_pos_of_ne_nil hz
      rw [hbuf, length_bytesOf]
      simp only [plain, length_map, length_append] at htotal
      have hcrlf : crlf.length = 2 := by decide
      omega
    refine ⟨?_, payloadOf_prefix_plain hx, ?_⟩
    · simp [ChunkedDecoder.round, hstate, Nat.not_le.mpr hlen]
    · intro hnil
      rw [hv] at hnil
      exact absurd (List.append_eq_nil_iff.mp hnil).1 hz

/-- The data of a chunk, when some of it is there. -/
theorem round_take {k : Nat} (hstate : d.state = 1) (hbuf : 0 < d.buf.length) (hk : 0 < k)
    (htake : (if d.need < (d.buf.length : Int) then d.need else (d.buf.length : Int)) = k) :
    d.round = if d.need - k = 0
      then .progress { d with buf := d.buf.drop k, need := d.need - k, state := 2 } (d.buf.take k)
      else .progress { d with buf := d.buf.drop k, need := d.need - k } (d.buf.take k) := by
  have hpos : (0 : Int) < k := by omega
  have hone : ¬ (1 : Nat) = 0 := by decide
  unfold ChunkedDecoder.round
  simp only [hstate, if_neg hone, if_pos hbuf, htake, if_pos hpos, if_true, Int.toNat_natCast]

/-- Inside the data of a chunk, the loop takes what is there. -/
theorem round_data {x : Str} (hps : Sendable ps) (hx : x ≠ []) (hstate : d.state = 1)
    (hneed : d.need = x.length) (hdone : d.isDone = false) (hbad : d.bad = false)
    (hbuf : d.buf = bytesOf w) (h : w ++ v = payload x ++ (plain crlf ++ markedWire ps)) :
    RoundSpec d w v := by
  have hxpos := length_pos_of_ne_nil hx
  by_cases hw : w = []
  · left
    have hnil : d.buf = [] := by rw [hbuf, hw]; rfl
    refine ⟨?_, by rw [hw]; rfl, fun _ => hw⟩
    simp [ChunkedDecoder.round, hstate, hnil]
  have hwpos := length_pos_of_ne_nil hw
  have hblen : d.buf.length = w.length := by rw [hbuf, length_bytesOf]
  right
  rcases split_next h with ⟨w', hwx, hr⟩ | ⟨z, hcut, hz, hv⟩
  · -- all of the data is there
    have hbytes : d.buf = x ++ bytesOf w' := by rw [hbuf, hwx, bytesOf_append, bytesOf_payload]
    have htake : (if d.need < (d.buf.length : Int) then d.need else (d.buf.length : Int)) =
        (x.length : Int) := by
      rw [hneed, hbytes, length_append]
      split
      · rfl
      · push_cast at *
        omega
    have hbufpos : 0 < d.buf.length := by omega
    refine ⟨{ d with buf := bytesOf w', need := 0, state := 2 }, payload x, w', hwx, ?_, ?_, rfl, ?_⟩
    · simpa [payload] using hx
    · have hzero : d.need - (x.length : Int) = 0 := by omega
      rw [round_take hstate hbufpos hxpos htake, if_pos hzero, hzero, hbytes, take_left,
        drop_left, payloadOf_payload]
    · rw [← hr]
      exact .chunkEnd hps rfl hdone hbad
  · -- the data goes on after what has arrived
    have hwy : ∃ y y', x = y ++ y' ∧ w = payload y ∧ z = payload y' := by
      obtain ⟨y, y', hxy, hy, hy'⟩ := List.map_eq_append_iff.mp hcut
      exact ⟨y, y', hxy, hy.symm, hy'.symm⟩
    obtain ⟨y, y', rfl, rfl, rfl⟩ := hwy
    have hy' : y' ≠ [] := by
      intro hnil
      exact hz (by rw [hnil]; rfl)
    have hy'pos := length_pos_of_ne_nil hy'
    have hbytes : d.buf = y := by rw [hbuf, bytesOf_payload]
    have htake : (if d.need < (d.buf.length : Int) then d.need else (d.buf.length : Int)) =
        (y.length : Int) := by
      rw [hneed, hbytes, length_append]
      split
      · push_cast at *
        omega
      · rfl
    have hbufpos : 0 < d.buf.length := by omega
    have hypos : 0 < y.length := by
      rw [hbytes] at hbufpos
      exact hbufpos
    have hrest : d.need - (y.length : Int) = (y'.length : Int) := by
      rw [hneed, length_append]
      push_cast
      omega
    refine ⟨{ d with buf := [], need := y'.length }, payload y, [], by simp, hw, ?_, rfl, ?_⟩
    · have hne' : ¬ d.need - (y.length : Int) = 0 := by omega
      rw [round_take hstate hbufpos hypos htake, if_neg hne', hrest, hbytes, take_length,
        drop_length, payloadOf_payload]
    · rw [nil_append, hv]
      exact .data hps hy' hstate rfl hdone hbad

theorem round_spec (h : Expects d (w ++ v)) (hbuf : d.buf = bytesOf w) : RoundSpec d w v := by
  generalize hrest : w ++ v = rest at h
  cases h with
  | @size ps hps hstate hdone hbad =>
    cases ps with
    | nil =>
      refine round_size sizeLine_zero hstate hbuf hrest ?_ ?_
      · intro _ buf
        exact .trailer rfl hdone hbad
      · intro hne
        exact absurd rfl hne
    | cons p ps =>
      obtain ⟨hp, hlen⟩ := hps p (mem_cons_self ..)
      have hps' : Sendable ps := fun q hq => hps q (mem_cons_of_mem _ hq)
      have hpos := length_pos_of_ne_nil hp
      have hwire : w ++ v = plain (toHex p.length ++ crlf) ++
          (payload p ++ (plain crlf ++ markedWire ps)) := by
        rw [hrest]
        simp [markedWire, markedChunk]
      refine round_size (sizeLine_toHex hpos hlen) hstate hbuf hwire ?_ ?_
      · intro hzero
        omega
      · intro _ buf
        exact .data hps' hp rfl rfl hdone hbad
  | data hps hx hstate hneed hdone hbad => exact round_data hps hx hstate hneed hdone hbad hbuf hrest
  | chunkEnd hps hstate hdone hbad => exact round_chunkEnd hps hstate hdone hbad hbuf hrest
  | trailer hstate _ hbad => exact round_trailer hstate hbad hbuf hrest
  | done hstate _ _ =>
    obtain ⟨hw, -⟩ := List.append_eq_nil_iff.mp hrest
    left
    refine ⟨?_, by rw [hw]; rfl, fun _ => hw⟩
    simp [ChunkedDecoder.round, hstate]

/-- The decoder has stopped; `w` has arrived and is not used yet, `v` is still to come. -/
structure Rested (d : ChunkedDecoder) (w v : Marked) : Prop where
  expects : Expects d (w ++ v)
  buf : d.buf = bytesOf w
  idle : d.round = .idle
  noPayload : payloadOf w = []
  used : v = [] → w = []

theorem rested_new (hps : Sendable ps) : Rested {} [] (markedWire ps) where
  expects := .size hps rfl rfl rfl
  buf := rfl
  idle := rfl
  noPayload := rfl
  used := fun _ => rfl

theorem loop_spec {fuel : Nat} (hfuel : w.length < fuel) (h : Expects d (w ++ v))
    (hbuf : d.buf = bytesOf w) (out : Str) :
    ∃ d' w', d.loop fuel out = (d', out ++ payloadOf w) ∧ Rested d' w' v := by
  induction fuel generalizing d w out with
  | zero => omega
  | succ fuel ih =>
    rcases round_spec h hbuf with ⟨hidle, hpay, hused⟩ | ⟨d₁, w₁, w', rfl, hne, hround, hbuf', h'⟩
    · refine ⟨d, w, ?_, ⟨h, hbuf, hidle, hpay, hused⟩⟩
      simp only [ChunkedDecoder.loop, hidle, hpay, append_nil]
    · have hpos := length_pos_of_ne_nil hne
      rw [length_append] at hfuel
      obtain ⟨d', w'', hloop, hrested⟩ := ih (by omega) h' hbuf' (out ++ payloadOf w₁)
      refine ⟨d', w'', ?_, hrested⟩
      simp only [ChunkedDecoder.loop, hround, hloop, payloadOf_append, append_assoc]

theorem Rested.feed {f : Marked} (h : Rested d w (f ++ v)) :
    ∃ w', Rested (d.feed (bytesOf f)).1 w' v ∧ (d.feed (bytesOf f)).2 = payloadOf f := by
  have hbytes : d.buf ++ bytesOf f = bytesOf (w ++ f) := by rw [h.buf, bytesOf_append]
  have hfuel : (w ++ f).length < 2 * (d.buf ++ bytesOf f).length + 2 := by
    rw [hbytes, length_bytesOf]
    omega
  have hexpects : Expects { d with buf := d.buf ++ bytesOf f } ((w ++ f) ++ v) := by
    rw [append_assoc]
    exact h.expects.withBuf _
  obtain ⟨d', w', hloop, hrested⟩ := loop_spec hfuel hexpects hbytes []
  refine ⟨w', ?_, ?_⟩
  · rw [ChunkedDecoder.feed, hloop]
    exact hrested
  · rw [ChunkedDecoder.feed, hloop, payloadOf_append, h.noPayload]
    rfl

theorem Rested.feedAll {fs : List Str} {f : Marked} (h : Rested d w (f ++ v))
    (hfs : fs.flatten = bytesOf f) :
    ∃ w', Rested (d.feedAll fs).1 w' v ∧ (d.feedAll fs).2.flatten = payloadOf f := by
  induction fs generalizing d w f with
  | nil =>
    have hf : f = [] := List.map_eq_nil_iff.mp hfs.symm
    subst hf
    exact ⟨w, h, rfl⟩
  | cons chunk fs ih =>
    obtain ⟨f₁, f₂, rfl, hf₁, hf₂⟩ := List.map_eq_append_iff.mp hfs.symm
    rw [append_assoc] at h
    obtain ⟨w₁, hrested, hout⟩ := h.feed
    obtain ⟨w', hrested', houts⟩ := ih hrested hf₂.symm
    have hchunk : bytesOf f₁ = chunk := hf₁
    rw [hchunk] at hrested' houts hout
    refine ⟨w', hrested', ?_⟩
    show (d.feed chunk).2 ++ ((d.feed chunk).1.feedAll fs).2.flatten = payloadOf (f₁ ++ f₂)
    rw [hout, houts, payloadOf_append]

/-- However the wire is cut, the decoder stops after each feed, has returned the payload bytes
that have arrived, is never bad, and is done exactly when all bytes have arrived. -/
theorem chunked_round_trip {ps frags : List Str} (hps : Sendable ps)
    (hfrags : frags.flatten = ps.flatMap chunkEncode ++ chunkEnd) :
    (({} : ChunkedDecoder).feedAll frags).2.flatten = ps.flatten ∧
      ∀ k ≤ frags.length,
        (({} : ChunkedDecoder).feedAll (frags.take k)).1.round = .idle ∧
        (({} : ChunkedDecoder).feedAll (frags.take k)).1.bad = false ∧
        (({} : ChunkedDecoder).feedAll (frags.take k)).2.flatten =
          payloadOf ((markedWire ps).take (frags.take k).flatten.length) ∧
        ((({} : ChunkedDecoder).feedAll (frags.take k)).1.isDone = true ↔
          (frags.take k).flatten = ps.flatMap chunkEncode ++ chunkEnd) := by
  have hwire := bytesOf_markedWire ps
  rw [← hwire] at hfrags ⊢
  have hfront : ∀ k, (frags.take k).flatten = bytesOf
      ((markedWire ps).take (frags.take k).flatten.length) := by
    intro k
    have hsplit : (frags.take k).flatten ++ (frags.drop k).flatten = bytesOf (markedWire ps) := by
      rw [← flatten_append, take_append_drop, hfrags]
    unfold bytesOf at hsplit ⊢
    rw [map_take, ← hsplit, take_left]
  refine ⟨?_, ?_⟩
  · have hnew := rested_new hps
    rw [← append_nil (markedWire ps)] at hnew
    obtain ⟨w', -, hout⟩ := hnew.feedAll hfrags
    rw [hout, payloadOf_markedWire]
  · intro k _
    have hnew := rested_new hps
    rw [← take_append_drop (frags.take k).flatten.length (markedWire ps)] at hnew
    obtain ⟨w', hrested, hout⟩ := hnew.feedAll (hfront k)
    refine ⟨hrested.idle, hrested.expects.bad_eq, hout, ?_⟩
    rw [hrested.expects.isDone_iff]
    constructor
    · intro hnil
      obtain ⟨-, hv⟩ := List.append_eq_nil_iff.mp hnil
      have hall := take_append_drop (frags.take k).flatten.length (markedWire ps)
      rw [hv, append_nil] at hall
      have := hfront k
      rw [hall] at this
      exact this
    · intro hall
      have hv : (markedWire ps).drop (frags.take k).flatten.length = [] := by
        rw [hall, length_bytesOf, drop_length]
      rw [hv, hrested.used hv]
      rfl

/-- Two payloads, cut inside the first size line and between CR and LF. -/
theorem chunked_round_trip_cut :
    (({} : ChunkedDecoder).feedAll [['2', '\r'], [], ['\n', 'a', 'b', '\r', '\n', '1', '\r', '\n',
      'c', '\r', '\n', '0', '\r', '\n', '\r', '\n']]).2.flatten = ['a', 'b', 'c'] := by
  have hsend : Sendable [['a', 'b'], ['c']] := by
    intro p hp
    rcases List.mem_cons.mp hp with rfl | hp
    · decide
    · obtain rfl := List.mem_singleton.mp hp
      decide
  have hone : toHex (1 : Nat) = ['1'] := toHex_digit (by decide) (by decide)
  have htwo : toHex (2 : Nat) = ['2'] := toHex_digit (by decide) (by decide)
  have hwire : [['2', '\r'], [], ['\n', 'a', 'b', '\r', '\n', '1', '\r', '\n', 'c', '\r', '\n',
      '0', '\r', '\n', '\r', '\n']].flatten =
      [['a', 'b'], ['c']].flatMap chunkEncode ++ chunkEnd := by
    show _ = ((toHex (2 : Nat) ++ _) ++ ((toHex (1 : Nat) ++ _) ++ [])) ++ chunkEnd
    rw [hone, htwo]
    rfl
  exact (chunked_round_trip hsend hwire).1

end Leviathan.Net
