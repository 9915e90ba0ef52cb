import Leviathan.Lib.Fuel
import Leviathan.Runtime.Utf8Decode

/-!
# `string.chars`

The loop of `chars` decodes a string from offset to offset, in the engines and, in two passes, in the
runtime, which has a decoder of its own over a pointer and signed lengths.

A string falls into segments (`Segments`): the bytes of a scalar, or a maximal subpart that U+FFFD
stands for.  The loop returns the scalars of the segments; on the bytes of scalars these are the
scalars themselves.
-/

namespace Leviathan.Utf8

open List

/-! ### The engines -/

/-- The loop of `chars`. -/
def charsLoop (s : Bytes) : Nat → Nat → List Nat → Option (List Nat)
  | 0, _, _ => none
  | n + 1, i, cs =>
    if i < s.length then
      charsLoop s n (i + (utf8DecodeAt s i).len) (cs ++ [(utf8DecodeAt s i).cp])
    else some cs

/-- `string.chars`. -/
def chars (s : Bytes) (n : Nat) : Option (List Nat) := charsLoop s n 0 []

/-! ### The runtime -/

/-- `lv_utf8_encode`: the bytes, and how many there are. -/
def lvUtf8Encode (c : Nat) : Bytes × Int :=
  if c ≤ 0x7F then ([.ofNat c], 1)
  else if c ≤ 0x7FF then ([.ofNat (0xC0 ||| c >>> 6), .ofNat (0x80 ||| c &&& 0x3F)], 2)
  else if c ≤ 0xFFFF then
    ([.ofNat (0xE0 ||| c >>> 12), .ofNat (0x80 ||| c >>> 6 &&& 0x3F), .ofNat (0x80 ||| c &&& 0x3F)],
      3)
  else
    ([.ofNat (0xF0 ||| c >>> 18), .ofNat (0x80 ||| c >>> 12 &&& 0x3F),
      .ofNat (0x80 ||| c >>> 6 &&& 0x3F), .ofNat (0x80 ||| c &&& 0x3F)], 4)

/-- What `lv_utf8_decode_at` returns, with `*plen` and `*pboundary`. -/
structure LvDecoded where
  cp : Nat
  plen : Int
  pboundary : Int
  deriving DecidableEq

/-- The table of lead bytes of the runtime. -/
def lvLead (b0 : Nat) : Option Lead :=
  if b0 ≤ 0xC1 then none
  else if b0 ≤ 0xDF then some ⟨1, 0x80, 0xBF, b0 &&& 0x1F⟩
  else if b0 = 0xE0 then some ⟨2, 0xA0, 0xBF, b0 &&& 0x0F⟩
  else if b0 ≤ 0xEC then some ⟨2, 0x80, 0xBF, b0 &&& 0x0F⟩
  else if b0 = 0xED then some ⟨2, 0x80, 0x9F, b0 &&& 0x0F⟩
  else if b0 ≤ 0xEF then some ⟨2, 0x80, 0xBF, b0 &&& 0x0F⟩
  else if b0 = 0xF0 then some ⟨3, 0x90, 0xBF, b0 &&& 0x07⟩
  else if b0 ≤ 0xF3 then some ⟨3, 0x80, 0xBF, b0 &&& 0x07⟩
  else if b0 = 0xF4 then some ⟨3, 0x80, 0x8F, b0 &&& 0x07⟩
  else none

/-- The loop over the trailing bytes; `s` is the memory behind the pointer. -/
def lvTrailing (s : Int → UInt8) (slen i need k : Int) (cp : Nat) : LvDecoded :=
  if k ≤ need then
    if i + k ≥ slen then ⟨0xFFFD, k, 1⟩
    else if (s (i + k)).toNat < 0x80 ∨ (s (i + k)).toNat > 0xBF then ⟨0xFFFD, k, 1⟩
    else lvTrailing s slen i need (k + 1) (cp <<< 6 ||| (s (i + k)).toNat &&& 0x3F)
  else ⟨cp, need + 1, 1⟩
termination_by (need + 1 - k).toNat

/-- `lv_utf8_decode_at`. -/
def lvUtf8DecodeAt (s : Int → UInt8) (slen i : Int) : LvDecoded :=
  if i ≥ slen then ⟨0xFFFD, 1, 1⟩
  else if (s i).toNat ≤ 0x7F then ⟨(s i).toNat, 1, 1⟩
  else if (s i).toNat ≤ 0xBF then ⟨0xFFFD, 1, 0⟩
  else
    match lvLead (s i).toNat with
    | none => ⟨0xFFFD, 1, 1⟩
    | some l =>
      if i + 1 ≥ slen then ⟨0xFFFD, 1, 1⟩
      else if (s (i + 1)).toNat < l.lo ∨ (s (i + 1)).toNat > l.hi then ⟨0xFFFD, 1, 1⟩
      else lvTrailing s slen i l.need 2 (l.cp <<< 6 ||| (s (i + 1)).toNat &&& 0x3F)

/-- The memory of a string. -/
def memory (s : Bytes) (k : Int) : UInt8 := s.getD k.toNat 0

/-- The pass that counts. -/
def lvCount (s : Int → UInt8) (slen : Int) : Nat → Int → Nat → Option Nat
  | 0, _, _ => none
  | fuel + 1, i, n =>
    if i < slen then lvCount s slen fuel (i + (lvUtf8DecodeAt s slen i).plen) (n + 1) else some n

/-- The pass that fills the array. -/
def lvFill (s : Int → UInt8) (slen : Int) : Nat → Int → Nat → List Nat → Option (List Nat)
  | 0, _, _, _ => none
  | fuel + 1, i, idx, out =>
    if i < slen then
      lvFill s slen fuel (i + (lvUtf8DecodeAt s slen i).plen) (idx + 1)
        (out.set idx (lvUtf8DecodeAt s slen i).cp)
    else some out

/-- `lvrt_str_chars`. -/
def lvrtStrChars (s : Bytes) (fuel : Nat) : Option (List Nat) := do
  let n ← lvCount (memory s) s.length fuel 0 0
  lvFill (memory s) s.length fuel 0 0 (List.replicate n 0)

/-- A result of the engines as the runtime writes it. -/
def Decoded.lv (d : Decoded) : LvDecoded := ⟨d.cp, d.len, if d.boundary then 1 else 0⟩

theorem lvUtf8Encode_eq (c : Nat) : lvUtf8Encode c = (utf8Encode c, ((utf8Encode c).length : Int)) := by
  unfold lvUtf8Encode utf8Encode
  split_ifs <;> rfl

theorem memory_natCast {s : Bytes} {k : Nat} {b : UInt8} (h : s[k]? = some b) :
    memory s (k : Int) = b := by
  rw [memory, Int.toNat_natCast, getD_eq_getElem?_getD, h, Option.getD_some]

theorem lvTrailing_eq (s : Bytes) (i need k cp : Nat) :
    lvTrailing (memory s) s.length i need k cp = (trailing s i need k cp).lv := by
  fun_induction trailing s i need k cp with
  | case1 k cp hk hend =>
    have hpast := List.getElem?_eq_none_iff.mp hend
    rw [lvTrailing, if_pos (by omega), if_pos (by omega)]
    rfl
  | case2 k cp hk bk hget hout =>
    have hlt := (List.getElem?_eq_some_iff.mp hget).1
    have hmem : memory s ((i : Int) + (k : Int)) = bk := memory_natCast hget
    rw [lvTrailing, if_pos (by omega), if_neg (by omega), hmem, if_pos hout]
    rfl
  | case3 k cp hk bk hget hin ih =>
    have hlt := (List.getElem?_eq_some_iff.mp hget).1
    have hmem : memory s ((i : Int) + (k : Int)) = bk := memory_natCast hget
    rw [lvTrailing, if_pos (by omega), if_neg (by omega), hmem, if_neg hin]
    exact ih
  | case4 k cp hk =>
    rw [lvTrailing, if_neg (by omega)]
    rfl

/-- **The two decoders agree** at every offset. -/
theorem lvUtf8DecodeAt_eq (s : Bytes) (i : Nat) :
    lvUtf8DecodeAt (memory s) s.length i = (utf8DecodeAt s i).lv := by
  have hlead : lvLead = lead := rfl
  unfold lvUtf8DecodeAt utf8DecodeAt
  rw [hlead]
  cases h0 : s[i]? with
  | none =>
    have hpast := List.getElem?_eq_none_iff.mp h0
    rw [if_pos (by omega)]
    rfl
  | some b0 =>
    have hlt := (List.getElem?_eq_some_iff.mp h0).1
    rw [if_neg (by omega), memory_natCast h0]
    dsimp only
    by_cases h7F : b0.toNat ≤ 0x7F
    · rw [if_pos h7F, if_pos h7F]
      rfl
    · rw [if_neg h7F, if_neg h7F]
      by_cases hBF : b0.toNat ≤ 0xBF
      · rw [if_pos hBF, if_pos hBF]
        rfl
      · rw [if_neg hBF, if_neg hBF]
        cases lead b0.toNat with
        | none => rfl
        | some l =>
          cases h1 : s[i + 1]? with
          | none =>
            have hpast := List.getElem?_eq_none_iff.mp h1
            exact if_pos (by omega)
          | some b1 =>
            have hlt' := (List.getElem?_eq_some_iff.mp h1).1
            have hmem : memory s ((i : Int) + 1) = b1 := memory_natCast h1
            dsimp only
            rw [if_neg (by omega), hmem]
            split
            · rfl
            · exact lvTrailing_eq s i l.need 2 _

/-! ### Segments -/

/-- A string in segments: the bytes of a scalar each, or a maximal subpart with U+FFFD for it. -/
inductive Segments : Bytes → List (Char × Bytes) → Prop where
  | nil : Segments [] []
  | scalar {rest segs} (c : Char) (h : Segments rest segs) :
      Segments (String.utf8EncodeChar c ++ rest) ((c, String.utf8EncodeChar c) :: segs)
  | replaced {seg rest segs} (hmax : MaximalSubpart seg rest) (h : Segments rest segs) :
      Segments (seg ++ rest) (('\uFFFD', seg) :: segs)

/-- The bytes of scalars. -/
def WellFormed (s : Bytes) : Prop := ∃ cs : List Char, s = cs.flatMap String.utf8EncodeChar

theorem encode_ne_nil (c : Char) : String.utf8EncodeChar c ≠ [] := by
  rcases lead_of_encode c with ⟨b, hbytes, -⟩ | ⟨b0, b1, conts, l, hseq⟩
  · rw [hbytes]
    exact cons_ne_nil _ _
  · rw [hseq.bytes]
    exact cons_ne_nil _ _

theorem MaximalSubpart.ne_nil {seg rest : Bytes} (h : MaximalSubpart seg rest) : seg ≠ [] := by
  rcases h.initial with hone | ⟨hne, -⟩
  · exact ne_nil_of_length_pos (by omega)
  · exact hne

/-- No scalar's bytes begin another's. -/
theorem encode_append_inj {c c' : Char} {rest rest' : Bytes}
    (h : String.utf8EncodeChar c ++ rest = String.utf8EncodeChar c' ++ rest') :
    c = c' ∧ rest = rest' := by
  have hdecode := utf8DecodeAt_encode (i := 0) (drop_zero (l := String.utf8EncodeChar c ++ rest))
  have hdrop : (String.utf8EncodeChar c ++ rest).drop 0 = String.utf8EncodeChar c' ++ rest' := h
  have hdecode' := utf8DecodeAt_encode hdrop
  obtain ⟨hnat, -⟩ := Decoded.mk.inj (hdecode.symm.trans hdecode')
  obtain rfl : c = c' := Char.ext (UInt32.toNat_inj.mp hnat)
  exact ⟨rfl, append_cancel_left h⟩

namespace Segments

/-- Every byte is in one segment. -/
theorem bytes {s : Bytes} {segs : List (Char × Bytes)} (h : Segments s segs) :
    segs.flatMap Prod.snd = s := by
  induction h with
  | nil => rfl
  | scalar c h ih => rw [flatMap_cons, ih]
  | replaced hmax h ih => rw [flatMap_cons, ih]

/-- The bytes of scalars fall into the scalars. -/
theorem eq_of_flatMap {s : Bytes} {segs : List (Char × Bytes)} (h : Segments s segs) :
    ∀ {cs : List Char}, s = cs.flatMap String.utf8EncodeChar →
      segs = cs.map fun c => (c, String.utf8EncodeChar c) := by
  induction h with
  | nil =>
    intro cs hcs
    cases cs with
    | nil => rfl
    | cons c cs =>
      rw [flatMap_cons] at hcs
      exact absurd (List.append_eq_nil_iff.mp hcs.symm).1 (encode_ne_nil c)
  | scalar c h ih =>
    intro cs hcs
    cases cs with
    | nil => exact absurd (List.append_eq_nil_iff.mp hcs).1 (encode_ne_nil c)
    | cons c' cs =>
      rw [flatMap_cons] at hcs
      obtain ⟨rfl, hrest⟩ := encode_append_inj hcs
      rw [ih hrest, map_cons]
  | replaced hmax h ih =>
    intro cs hcs
    cases cs with
    | nil => exact absurd (List.append_eq_nil_iff.mp hcs).1 hmax.ne_nil
    | cons c cs =>
      rw [flatMap_cons] at hcs
      exact absurd ⟨_, hcs.symm⟩ (hmax.none c)

end Segments

/-! ### The loops -/

/-- A segment stands at the offset. -/
theorem exists_segment {s : Bytes} {i : Nat} (hi : i < s.length) :
    ∃ (c : Char) (seg : Bytes), seg ≠ [] ∧ s.drop i = seg ++ s.drop (i + seg.length) ∧
      (utf8DecodeAt s i).cp = c.toNat ∧ (utf8DecodeAt s i).len = seg.length ∧
      ∀ segs, Segments (s.drop (i + seg.length)) segs → Segments (s.drop i) ((c, seg) :: segs) := by
  have hne : s.drop i ≠ [] := fun h => absurd (List.drop_eq_nil_iff.mp h) (Nat.not_le.mpr hi)
  have hbehind : ∀ {seg rest : Bytes}, s.drop i = seg ++ rest → s.drop (i + seg.length) = rest := by
    intro seg rest h
    rw [← drop_drop, h, drop_left]
  cases head_utf8DecodeAt rfl hne with
  | scalar c rest ht hd =>
    refine ⟨c, _, encode_ne_nil c, by rw [hbehind ht, ht], by rw [hd], by rw [hd], ?_⟩
    intro segs h
    rw [hbehind ht] at h
    rw [ht]
    exact .scalar c h
  | replaced seg rest ht hmax hcp hlen =>
    refine ⟨'\uFFFD', seg, hmax.ne_nil, by rw [hbehind ht, ht], hcp, hlen, ?_⟩
    intro segs h
    rw [hbehind ht] at h
    rw [ht]
    exact .replaced hmax h

theorem settles_charsLoop {s : Bytes} : ∀ {left i : Nat}, s.length - i ≤ left → i ≤ s.length →
    ∃ segs, Segments (s.drop i) segs ∧
      (∀ cs, Settles (fun n => charsLoop s n i cs) (cs ++ segs.map fun p => p.1.toNat)) ∧
      (∀ m, Settles (fun n => lvCount (memory s) s.length n i m) (m + segs.length)) ∧
      ∀ out more, more.length = segs.length → Settles (fun n =>
        lvFill (memory s) s.length n i out.length (out ++ more))
          (out ++ segs.map fun p => p.1.toNat) := by
  intro left
  induction left with
  | zero =>
    intro i hleft hi
    have hend : ¬i < s.length := by omega
    have hend' : ¬(i : Int) < s.length := by omega
    refine ⟨[], by rw [drop_eq_nil_of_le (by omega)]; exact .nil, fun cs => ?_, fun m => ?_,
      fun out more hmore => ?_⟩
    · refine .succ (.pure _) fun n => ?_
      rw [charsLoop, if_neg hend, map_nil, append_nil]
    · exact .succ (.pure _) fun n => if_neg hend'
    · obtain rfl := eq_nil_of_length_eq_zero hmore
      exact .succ (.pure _) fun n => if_neg hend'
  | succ left ih =>
    intro i hleft hi
    by_cases hlt : i < s.length
    · have hlt' : (i : Int) < s.length := by omega
      obtain ⟨c, seg, hne, hsplit, hcp, hlen, hsegs⟩ := exists_segment hlt
      have hpos := length_pos_of_ne_nil hne
      have hlength := congrArg List.length hsplit
      rw [length_append, length_drop, length_drop] at hlength
      obtain ⟨segs, hrest, hchars, hcount, hfill⟩ := ih (i := i + seg.length) (by omega) (by omega)
      have hagree := lvUtf8DecodeAt_eq s i
      have hnext : (i : Int) + (lvUtf8DecodeAt (memory s) s.length i).plen =
          ((i + seg.length : Nat) : Int) := by
        rw [hagree, Int.natCast_add, ← hlen]
        rfl
      have hscalar : (lvUtf8DecodeAt (memory s) s.length i).cp = c.toNat := by
        rw [hagree, ← hcp]
        rfl
      refine ⟨(c, seg) :: segs, hsegs segs hrest, fun cs => ?_, fun m => ?_,
        fun out more hmore => ?_⟩
      · have hrun := hchars (cs ++ [c.toNat])
        rw [append_assoc, singleton_append] at hrun
        refine .succ hrun fun n => ?_
        rw [charsLoop, if_pos hlt, hcp, hlen]
      · have hrun := hcount (m + 1)
        rw [Nat.add_right_comm, Nat.add_assoc] at hrun
        refine .succ hrun fun n => ?_
        rw [lvCount, if_pos hlt', hnext]
      · cases more with
        | nil => cases hmore
        | cons x more =>
          have hrun := hfill (out ++ [c.toNat]) more (Nat.succ.inj hmore)
          rw [length_append, length_singleton, append_assoc, append_assoc,
            singleton_append, singleton_append] at hrun
          refine .succ hrun fun n => ?_
          rw [lvFill, if_pos hlt', hnext, hscalar, set_append_right _ _ (Nat.le_refl _),
            Nat.sub_self, set_cons_zero]
    · exact ih (by omega) hi

/-- What `chars` returns, in the engines and in the runtime. -/
theorem settles_chars (s : Bytes) : ∃ segs, Segments s segs ∧
    Settles (chars s) (segs.map fun p => p.1.toNat) ∧
    Settles (lvrtStrChars s) (segs.map fun p => p.1.toNat) := by
  obtain ⟨segs, hsegs, hchars, hcount, hfill⟩ := settles_charsLoop (s := s) (Nat.le_refl _)
    (Nat.zero_le _)
  refine ⟨segs, hsegs, hchars [], (hcount 0).bind ?_⟩
  rw [Nat.zero_add]
  exact hfill [] _ length_replicate

/-- **The UTF-8 codec.**  The bytes of scalars decode to the scalars.  Any string falls into segments
that hold every byte once, the bytes of a scalar or a maximal subpart, and decoding it ends and
returns the scalars, with one U+FFFD for each maximal subpart, in the engines and in the runtime; the
bytes of scalars come back when they are encoded again.  The two decoders agree at every offset of
every string. -/
theorem utf8_codec :
    (∀ cs : List Char, Settles (chars (cs.flatMap fun c => utf8Encode c.toNat))
      (cs.map Char.toNat)) ∧
    (∀ s : Bytes, ∃ segs, Segments s segs ∧ segs.flatMap Prod.snd = s ∧
      Settles (chars s) (segs.map fun p => p.1.toNat) ∧
      Settles (lvrtStrChars s) (segs.map fun p => p.1.toNat) ∧
      (WellFormed s → (segs.map fun p => p.1.toNat).flatMap utf8Encode = s)) ∧
    ∀ (s : Bytes) (i : Nat), lvUtf8DecodeAt (memory s) s.length i = (utf8DecodeAt s i).lv := by
  have hencode : (fun c : Char => utf8Encode c.toNat) = String.utf8EncodeChar :=
    funext utf8Encode_toNat
  refine ⟨fun cs => ?_, fun s => ?_, lvUtf8DecodeAt_eq⟩
  · rw [hencode]
    obtain ⟨segs, hsegs, hchars, -⟩ := settles_chars (cs.flatMap String.utf8EncodeChar)
    rw [hsegs.eq_of_flatMap rfl, map_map] at hchars
    exact hchars
  · obtain ⟨segs, hsegs, hchars, hlv⟩ := settles_chars s
    refine ⟨segs, hsegs, hsegs.bytes, hchars, hlv, ?_⟩
    rintro ⟨cs, rfl⟩
    rw [hsegs.eq_of_flatMap rfl, map_map, flatMap_map]
    exact congrArg cs.flatMap hencode

end Leviathan.Utf8
