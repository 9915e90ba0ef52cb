import Mathlib

/-!
# UTF-8

`utf8Encode` and `utf8DecodeAt` of the engines.  The decoder looks up how many bytes follow the lead
byte and between which bounds the second one lies, and takes what follows while it fits; what does
not fit decodes to U+FFFD, with the length of what did.

A Unicode scalar is a `Char`, and the standard's encoding is `String.utf8EncodeChar`.  The encoder is
that encoding.  `encode_of_lead` and `lead_of_encode` are the two directions of what the table says:
the bytes that fit are those of the scalars.
-/

namespace Leviathan.Utf8

open List

/-- A string is its bytes. -/
abbrev Bytes := List UInt8

/-- `utf8Encode`. -/
def utf8Encode (c : Nat) : Bytes :=
  if c ≤ 0x7F then [.ofNat c]
  else if c ≤ 0x7FF then [.ofNat (0xC0 ||| c >>> 6), .ofNat (0x80 ||| c &&& 0x3F)]
  else if c ≤ 0xFFFF then
    [.ofNat (0xE0 ||| c >>> 12), .ofNat (0x80 ||| c >>> 6 &&& 0x3F), .ofNat (0x80 ||| c &&& 0x3F)]
  else
    [.ofNat (0xF0 ||| c >>> 18), .ofNat (0x80 ||| c >>> 12 &&& 0x3F),
      .ofNat (0x80 ||| c >>> 6 &&& 0x3F), .ofNat (0x80 ||| c &&& 0x3F)]

/-- What the lead byte says: how many bytes follow, the bounds of the second one, and its bits of the
scalar. -/
structure Lead where
  need : Nat
  lo : Nat
  hi : Nat
  cp : Nat

/-- The table of lead bytes. -/
def lead (b0 : Nat) : Option Lead :=
  if b0 ≤ 0xC1 then none
  else if b0 ≤ 0xDF then some ⟨1, 0x80, 0xBF, b0 &&& 0x1F⟩
  else if b0 = 0xE0 then some ⟨2, 0xA0, 0xBF, b0 &&& 0x0F⟩
  else if b0 ≤ 0xEC then some ⟨2, 0x80, 0xBF, b0 &&& 0x0F⟩
  else if b0 = 0xED then some ⟨2, 0x80, 0x9F, b0 &&& 0x0F⟩
  else if b0 ≤ 0xEF then some ⟨2, 0x80, 0xBF, b0 &&& 0x0F⟩
  else if b0 = 0xF0 then some ⟨3, 0x90, 0xBF, b0 &&& 0x07⟩
  else if b0 ≤ 0xF3 then some ⟨3, 0x80, 0xBF, b0 &&& 0x07⟩
  else if b0 = 0xF4 then some ⟨3, 0x80, 0x8F, b0 &&& 0x07⟩
  else none

/-- What the decoder returns. -/
structure Decoded where
  cp : Nat
  len : Nat
  boundary : Bool
  deriving DecidableEq

/-- `(cp << 6) | (b & 0x3F)`. -/
def push (cp : Nat) (b : UInt8) : Nat := cp <<< 6 ||| b.toNat &&& 0x3F

/-- The loop over the trailing bytes. -/
def trailing (s : Bytes) (i need k cp : Nat) : Decoded :=
  if k ≤ need then
    match s[i + k]? with
    | none => ⟨0xFFFD, k, true⟩
    | some bk =>
      if bk.toNat < 0x80 ∨ bk.toNat > 0xBF then ⟨0xFFFD, k, true⟩
      else trailing s i need (k + 1) (push cp bk)
  else ⟨cp, need + 1, true⟩
termination_by need + 1 - k

/-- `utf8DecodeAt`. -/
def utf8DecodeAt (s : Bytes) (i : Nat) : Decoded :=
  match s[i]? with
  | none => ⟨0xFFFD, 1, true⟩
  | some b0 =>
    if b0.toNat ≤ 0x7F then ⟨b0.toNat, 1, true⟩
    else if b0.toNat ≤ 0xBF then ⟨0xFFFD, 1, false⟩
    else
      match lead b0.toNat with
      | none => ⟨0xFFFD, 1, true⟩
      | some l =>
        match s[i + 1]? with
        | none => ⟨0xFFFD, 1, true⟩
        | some b1 =>
          if b1.toNat < l.lo ∨ b1.toNat > l.hi then ⟨0xFFFD, 1, true⟩
          else trailing s i l.need 2 (push l.cp b1)

/-! ### The bits -/

theorem and_sub_one (n : Nat) {m : Nat} (k : Nat) (h : m + 1 = 2 ^ k) : n &&& m = n % (m + 1) := by
  rw [h, ← Nat.and_two_pow_sub_one_eq_mod, ← h, Nat.add_sub_cancel]

theorem or_of_lt {a n : Nat} (k c : Nat) (ha : a = 2 ^ k * c) (h : n < 2 ^ k) : a ||| n = a + n := by
  rw [ha, Nat.two_pow_add_eq_or_of_lt h]

theorem push_eq (cp : Nat) (b : UInt8) : push cp b = cp * 64 + b.toNat % 64 := by
  rw [push, and_sub_one _ 6 rfl, Nat.shiftLeft_eq]
  exact or_of_lt 6 cp (Nat.mul_comm _ _) (Nat.mod_lt _ (by decide))

theorem map_toNat_inj {s t : Bytes} (h : s.map UInt8.toNat = t.map UInt8.toNat) : s = t :=
  List.map_injective_iff.mpr (fun _ _ => UInt8.toNat_inj.mp) h

/-- The bytes of a scalar, as numbers. -/
theorem map_toNat_utf8Encode {c : Nat} (h : c < 0x110000) : (utf8Encode c).map UInt8.toNat =
    if c ≤ 0x7F then [c]
    else if c ≤ 0x7FF then [0xC0 + c / 64, 0x80 + c % 64]
    else if c ≤ 0xFFFF then [0xE0 + c / 4096, 0x80 + c / 64 % 64, 0x80 + c % 64]
    else [0xF0 + c / 262144, 0x80 + c / 4096 % 64, 0x80 + c / 64 % 64, 0x80 + c % 64] := by
  have hcont : ∀ n, 0x80 ||| n &&& 0x3F = 0x80 + n % 64 := fun n => by
    rw [and_sub_one n 6 rfl]
    exact or_of_lt (a := 0x80) 6 2 rfl (Nat.mod_lt _ (by decide))
  unfold utf8Encode
  simp only [hcont, Nat.shiftRight_eq_div_pow]
  split_ifs with h1 h2 h3
  · simp only [map_cons, map_nil, UInt8.toNat_ofNat']
    rw [Nat.mod_eq_of_lt (by omega)]
  · rw [or_of_lt (a := 0xC0) 6 3 rfl (by omega)]
    simp only [map_cons, map_nil, UInt8.toNat_ofNat', List.cons.injEq, and_true]
    omega
  · rw [or_of_lt (a := 0xE0) 5 7 rfl (by omega)]
    simp only [map_cons, map_nil, UInt8.toNat_ofNat', List.cons.injEq, and_true]
    omega
  · rw [or_of_lt (a := 0xF0) 4 15 rfl (by omega)]
    simp only [map_cons, map_nil, UInt8.toNat_ofNat', List.cons.injEq, and_true]
    omega

/-- The encoder is the standard's. -/
theorem utf8Encode_toNat (c : Char) : utf8Encode c.toNat = String.utf8EncodeChar c := by
  have hlt : c.toNat < 0x110000 := by
    have := c.valid
    simp only [UInt32.isValidChar, Nat.isValidChar] at this
    have htoNat : c.toNat = c.val.toNat := rfl
    omega
  refine map_toNat_inj ?_
  rw [map_toNat_utf8Encode hlt, String.utf8EncodeChar]
  have htoNat : c.val.toNat = c.toNat := rfl
  simp only [htoNat]
  split_ifs <;>
    · simp only [map_cons, map_nil, UInt8.toNat_ofNat', List.cons.injEq, and_true]
      omega

/-! ### What the table says -/

/-- A trailing byte. -/
def Cont (b : UInt8) : Prop := 0x80 ≤ b.toNat ∧ b.toNat ≤ 0xBF

/-- The entries of the table. -/
theorem lead_eq_some_iff {b0 : Nat} {l : Lead} : lead b0 = some l ↔
    (l.need = 1 ∧ 0xC2 ≤ b0 ∧ b0 ≤ 0xDF ∧ l.cp = b0 % 32 ∧ l.lo = 0x80 ∧ l.hi = 0xBF) ∨
    (l.need = 2 ∧ 0xE0 ≤ b0 ∧ b0 ≤ 0xEF ∧ l.cp = b0 % 16 ∧
      (b0 = 0xE0 ∧ l.lo = 0xA0 ∨ b0 ≠ 0xE0 ∧ l.lo = 0x80) ∧
      (b0 = 0xED ∧ l.hi = 0x9F ∨ b0 ≠ 0xED ∧ l.hi = 0xBF)) ∨
    (l.need = 3 ∧ 0xF0 ≤ b0 ∧ b0 ≤ 0xF4 ∧ l.cp = b0 % 8 ∧
      (b0 = 0xF0 ∧ l.lo = 0x90 ∨ b0 ≠ 0xF0 ∧ l.lo = 0x80) ∧
      (b0 = 0xF4 ∧ l.hi = 0x8F ∨ b0 ≠ 0xF4 ∧ l.hi = 0xBF)) := by
  obtain ⟨need, lo, hi, cp⟩ := l
  unfold lead
  rw [and_sub_one b0 5 rfl, and_sub_one b0 4 rfl, and_sub_one b0 3 rfl]
  split_ifs <;> simp only [Option.some.injEq, Lead.mk.injEq, false_iff] <;> omega

/-- The scalar that the trailing bytes complete. -/
def value (cp : Nat) (conts : Bytes) : Nat := conts.foldl push cp

/-- **Bytes that fit** are those of a scalar. -/
theorem encode_of_lead {b0 b1 : UInt8} {conts : Bytes} {l : Lead} (hl : lead b0.toNat = some l)
    (hlo : l.lo ≤ b1.toNat) (hhi : b1.toNat ≤ l.hi) (hlength : conts.length + 1 = l.need)
    (hconts : ∀ b ∈ conts, Cont b) : ∃ c : Char, c.toNat = value (push l.cp b1) conts ∧
      String.utf8EncodeChar c = b0 :: b1 :: conts := by
  -- the bytes are read off the number that they make
  have hchar : ∀ n : Nat, n < 0xD800 ∨ 0xDFFF < n ∧ n < 0x110000 →
      (utf8Encode n).map UInt8.toNat = (b0 :: b1 :: conts).map UInt8.toNat →
        ∃ c : Char, c.toNat = n ∧ String.utf8EncodeChar c = b0 :: b1 :: conts := by
    intro n hn hbytes
    refine ⟨Char.ofNatAux n hn, rfl, ?_⟩
    rw [← utf8Encode_toNat]
    exact map_toNat_inj hbytes
  have h1 := b1.toNat_lt
  rcases lead_eq_some_iff.mp hl with ⟨hneed, _, _, hcp, hl', hh'⟩ | ⟨hneed, _, _, hcp, hl', hh'⟩ |
    ⟨hneed, _, _, hcp, hl', hh'⟩
  · obtain rfl : conts = [] := eq_nil_of_length_eq_zero (by omega)
    have hv : value (push l.cp b1) [] = b0.toNat % 32 * 64 + b1.toNat % 64 := by
      rw [value, foldl_nil, push_eq, hcp]
    rw [hv]
    refine hchar _ (by omega) ?_
    rw [map_toNat_utf8Encode (by omega), if_neg (by omega), if_pos (by omega)]
    simp only [map_cons, map_nil, List.cons.injEq, and_true]
    omega
  · obtain ⟨b2, rfl⟩ := List.length_eq_one_iff.mp (by omega : conts.length = 1)
    obtain ⟨h2, h2'⟩ := hconts b2 mem_cons_self
    have hv : value (push l.cp b1) [b2] =
        (b0.toNat % 16 * 64 + b1.toNat % 64) * 64 + b2.toNat % 64 := by
      simp only [value, foldl_cons, foldl_nil, push_eq, hcp]
    rw [hv]
    refine hchar _ (by omega) ?_
    rw [map_toNat_utf8Encode (by omega), if_neg (by omega), if_neg (by omega), if_pos (by omega)]
    simp only [map_cons, map_nil, List.cons.injEq, and_true]
    omega
  · obtain ⟨b2, b3, rfl⟩ := List.length_eq_two.mp (by omega : conts.length = 2)
    obtain ⟨h2, h2'⟩ := hconts b2 mem_cons_self
    obtain ⟨h3, h3'⟩ := hconts b3 (mem_cons_of_mem _ mem_cons_self)
    have hv : value (push l.cp b1) [b2, b3] =
        ((b0.toNat % 8 * 64 + b1.toNat % 64) * 64 + b2.toNat % 64) * 64 + b3.toNat % 64 := by
      simp only [value, foldl_cons, foldl_nil, push_eq, hcp]
    rw [hv]
    refine hchar _ (by omega) ?_
    rw [map_toNat_utf8Encode (by omega), if_neg (by omega), if_neg (by omega), if_neg (by omega)]
    simp only [map_cons, map_nil, List.cons.injEq, and_true]
    omega

/-- A scalar of more than one byte. -/
structure Sequence (c : Char) (b0 b1 : UInt8) (conts : Bytes) (l : Lead) : Prop where
  bytes : String.utf8EncodeChar c = b0 :: b1 :: conts
  lead : lead b0.toNat = some l
  lo : l.lo ≤ b1.toNat
  hi : b1.toNat ≤ l.hi
  length : conts.length + 1 = l.need
  fit : ∀ b ∈ conts, Cont b
  value : value (push l.cp b1) conts = c.toNat

/-- **The bytes of a scalar** fit. -/
theorem lead_of_encode (c : Char) :
    (∃ b, String.utf8EncodeChar c = [b] ∧ b.toNat = c.toNat ∧ c.toNat ≤ 0x7F) ∨
      ∃ b0 b1 conts l, Sequence c b0 b1 conts l := by
  have hvalid : c.toNat < 0xD800 ∨ 0xDFFF < c.toNat ∧ c.toNat < 0x110000 := c.valid
  have hbytes : ∀ ns : List Nat, (∀ n ∈ ns, n < 256) → (utf8Encode c.toNat).map UInt8.toNat = ns →
      String.utf8EncodeChar c = ns.map UInt8.ofNat := by
    intro ns hns h
    rw [← utf8Encode_toNat]
    refine map_toNat_inj ?_
    rw [h, map_map]
    refine (map_id ns).symm.trans (map_congr_left fun n hn => ?_)
    exact (UInt8.toNat_ofNat_of_lt (hns n hn)).symm
  have htable := map_toNat_utf8Encode (c := c.toNat) (by omega)
  have hof : ∀ n, n < 256 → (UInt8.ofNat n).toNat = n := fun n hn => UInt8.toNat_ofNat_of_lt hn
  split_ifs at htable with h1 h2 h3
  · refine .inl ⟨_, hbytes _ ?_ htable, hof _ (by omega), h1⟩
    simp only [mem_singleton, forall_eq]
    omega
  · refine .inr ⟨_, _, [], ⟨1, 0x80, 0xBF, (0xC0 + c.toNat / 64) % 32⟩,
      hbytes _ ?_ htable, ?_, ?_, ?_, rfl, nofun, ?_⟩
    · simp only [mem_cons, not_mem_nil, or_false, forall_eq_or_imp, forall_eq]
      omega
    · rw [hof _ (by omega), lead_eq_some_iff]
      exact .inl ⟨rfl, by omega, by omega, rfl, rfl, rfl⟩
    · rw [hof _ (by omega)]
      exact Nat.le_add_right _ _
    · rw [hof _ (by omega)]
      dsimp only
      omega
    · rw [value, foldl_nil, push_eq, hof _ (by omega)]
      dsimp only
      omega
  · refine .inr ⟨_, _, [_], ⟨2, if 0xE0 + c.toNat / 4096 = 0xE0 then 0xA0 else 0x80,
      if 0xE0 + c.toNat / 4096 = 0xED then 0x9F else 0xBF, (0xE0 + c.toNat / 4096) % 16⟩,
      hbytes _ ?_ htable, ?_, ?_, ?_, rfl, ?_, ?_⟩
    · simp only [mem_cons, not_mem_nil, or_false, forall_eq_or_imp, forall_eq]
      omega
    · rw [hof _ (by omega), lead_eq_some_iff]
      refine .inr (.inl ⟨rfl, by omega, by omega, rfl, ?_, ?_⟩) <;>
      · dsimp only
        split_ifs <;> omega
    · rw [hof _ (by omega)]
      dsimp only
      split_ifs <;> omega
    · rw [hof _ (by omega)]
      dsimp only
      split_ifs <;> omega
    · intro b hb
      obtain rfl := List.mem_singleton.mp hb
      unfold Cont
      rw [hof _ (by omega)]
      omega
    · rw [value, foldl_cons, foldl_nil, push_eq, push_eq, hof _ (by omega),
        hof _ (by omega)]
      dsimp only
      omega
  · refine .inr ⟨_, _, [_, _], ⟨3, if 0xF0 + c.toNat / 262144 = 0xF0 then 0x90 else 0x80,
      if 0xF0 + c.toNat / 262144 = 0xF4 then 0x8F else 0xBF, (0xF0 + c.toNat / 262144) % 8⟩,
      hbytes _ ?_ htable, ?_, ?_, ?_, rfl, ?_, ?_⟩
    · simp only [mem_cons, not_mem_nil, or_false, forall_eq_or_imp, forall_eq]
      omega
    · rw [hof _ (by omega), lead_eq_some_iff]
      refine .inr (.inr ⟨rfl, by omega, by omega, rfl, ?_, ?_⟩) <;>
      · dsimp only
        split_ifs <;> omega
    · rw [hof _ (by omega)]
      dsimp only
      split_ifs <;> omega
    · rw [hof _ (by omega)]
      dsimp only
      split_ifs <;> omega
    · intro b hb
      have hb' : b = .ofNat (0x80 + c.toNat / 64 % 64) ∨ b = .ofNat (0x80 + c.toNat % 64) := by
        simpa using hb
      unfold Cont
      rcases hb' with rfl | rfl <;>
      · rw [hof _ (by omega)]
        omega
    · rw [value, foldl_cons, foldl_cons, foldl_nil, push_eq, push_eq, push_eq,
        hof _ (by omega), hof _ (by omega), hof _ (by omega)]
      dsimp only
      omega

end Leviathan.Utf8
