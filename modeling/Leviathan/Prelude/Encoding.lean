import Leviathan.Net.Chunked
import Leviathan.Prelude.Strings

/-!
# Text encodings

`hexEncode`, `base64Encode`, `base64UrlEncode`, `percentEncode` and their decoders.  A decoder goes
through its input by index; `byteAt` raises outside of it, and `none` of a decoder stands for that
or for a loop that does not end.  No decoder ever gives it: each loop is a function on the rest of
the string (`decodeLoop_eq`), and the laws are proved there.

The decoders undo the encoders (`encodings_invert`).  `base64Decode` drops the low bits of the last
character before the padding, so that a text comes back from its bytes exactly if they are zero
(`base64_canonical_iff`).
-/

namespace Leviathan.Prelude

open List

open Net (hexNibble)

/-! ## The coders -/

/-- A text of the source, as its bytes. -/
def ascii (s : String) : Bytes := s.toList.map fun c => UInt8.ofNat c.toNat

/-- `byteAt`, which raises outside of the string. -/
def byteAt (s : Bytes) (i : Nat) : Option Nat := s[i]?.map UInt8.toNat

/-- `std::byteToString`. -/
def byteToString (n : Nat) : Bytes := [UInt8.ofNat n]

/-- `charAt` of a table, at an index within it. -/
def charOf (table : Bytes) (k : Nat) : UInt8 := table.getD k 0

/-- The value of a character of base64, or -1. -/
def b64Val (c : Nat) : Int :=
  if 65 ≤ c ∧ c ≤ 90 then (c : Int) - 65
  else if 97 ≤ c ∧ c ≤ 122 then (c : Int) - 97 + 26
  else if 48 ≤ c ∧ c ≤ 57 then (c : Int) - 48 + 52
  else if c = 43 then 62
  else if c = 47 then 63
  else -1

def pctUnreserved (c : Nat) : Bool :=
  65 ≤ c && c ≤ 90 || 97 ≤ c && c ≤ 122 || 48 ≤ c && c ≤ 57 || c == 45 || c == 95 || c == 46 ||
    c == 126

def digits : Bytes := ascii "0123456789abcdef"

def upperDigits : Bytes := ascii "0123456789ABCDEF"

def alpha : Bytes := ascii "ABCDEFGHIJKLMNOPQRSTUVWXYZabcdefghijklmnopqrstuvwxyz0123456789+/"

/-- The loop of a decoder over the string of length `n`.  A turn raises, returns `None`, or puts
something out and goes on at another index. -/
def decodeLoop (n : Nat) (turn : Nat → Option (Option (Bytes × Nat))) :
    Nat → Nat → Bytes → Option (Option Bytes)
  | 0, _, _ => none
  | fuel + 1, i, sb =>
    if n ≤ i then some (some sb)
    else
      match turn i with
      | none => none
      | some none => some none
      | some (some (out, next)) => decodeLoop n turn fuel next (sb ++ out)

def hexEncode (bytes : Bytes) : Bytes :=
  bytes.flatMap fun b => [charOf digits (b.toNat >>> 4 &&& 15), charOf digits (b.toNat &&& 15)]

/-- The byte of two digits. -/
def hexByte (c d : Nat) : Option Bytes :=
  let hi := hexNibble c
  let lo := hexNibble d
  if hi < 0 ∨ lo < 0 then none else some (byteToString (hi.toNat <<< 4 ||| lo.toNat))

def hexTurn (s : Bytes) (i : Nat) : Option (Option (Bytes × Nat)) := do
  let c ← byteAt s i
  let d ← byteAt s (i + 1)
  some ((hexByte c d).map fun out => (out, i + 2))

def hexDecode (s : Bytes) : Option (Option Bytes) :=
  if s.length % 2 ≠ 0 then some none
  else decodeLoop s.length (hexTurn s) (s.length + 1) 0 []

/-- The loop takes three bytes, and what follows it the one or two that are left. -/
def base64Encode : Bytes → Bytes
  | b0 :: b1 :: b2 :: rest =>
    let t := b0.toNat <<< 16 ||| b1.toNat <<< 8 ||| b2.toNat
    charOf alpha (t >>> 18 &&& 63) :: charOf alpha (t >>> 12 &&& 63) ::
      charOf alpha (t >>> 6 &&& 63) :: charOf alpha (t &&& 63) :: base64Encode rest
  | [b0, b1] =>
    let t := b0.toNat <<< 16 ||| b1.toNat <<< 8
    [charOf alpha (t >>> 18 &&& 63), charOf alpha (t >>> 12 &&& 63), charOf alpha (t >>> 6 &&& 63),
      61]
  | [b0] =>
    let t := b0.toNat <<< 16
    [charOf alpha (t >>> 18 &&& 63), charOf alpha (t >>> 12 &&& 63), 61, 61]
  | [] => []

/-- The bytes of four characters; `last` says that they are the last four. -/
def base64Group (c0 c1 c2 c3 : Nat) (last : Bool) : Option Bytes :=
  let v0 := b64Val c0
  let v1 := b64Val c1
  if v0 < 0 ∨ v1 < 0 then none
  else if c2 = 61 then
    if last = false ∨ c3 ≠ 61 then none
    else
      let t := v0.toNat <<< 18 ||| v1.toNat <<< 12
      some (byteToString (t >>> 16 &&& 255))
  else
    let v2 := b64Val c2
    if v2 < 0 then none
    else if c3 = 61 then
      if last = false then none
      else
        let t := v0.toNat <<< 18 ||| v1.toNat <<< 12 ||| v2.toNat <<< 6
        some (byteToString (t >>> 16 &&& 255) ++ byteToString (t >>> 8 &&& 255))
    else
      let v3 := b64Val c3
      if v3 < 0 then none
      else
        let t := v0.toNat <<< 18 ||| v1.toNat <<< 12 ||| v2.toNat <<< 6 ||| v3.toNat
        some (byteToString (t >>> 16 &&& 255) ++ byteToString (t >>> 8 &&& 255) ++
          byteToString (t &&& 255))

def base64Turn (s : Bytes) (i : Nat) : Option (Option (Bytes × Nat)) := do
  let c0 ← byteAt s i
  let c1 ← byteAt s (i + 1)
  let c2 ← byteAt s (i + 2)
  let c3 ← byteAt s (i + 3)
  some ((base64Group c0 c1 c2 c3 (i + 4 == s.length)).map fun out => (out, i + 4))

def base64Decode (s : Bytes) : Option (Option Bytes) :=
  if s.length % 4 ≠ 0 then some none
  else decodeLoop s.length (base64Turn s) (s.length + 1) 0 []

/-- `string.removeSuffix`. -/
def removeSuffix (s suffix : Bytes) : Bytes :=
  if suffix.isSuffixOf s then subStr s 0 (s.length - suffix.length) else s

def base64UrlEncode (bytes : Bytes) : Option Bytes := do
  let s ← replace (base64Encode bytes) [43] [45]
  let s ← replace s [47] [95]
  some (removeSuffix (removeSuffix s [61]) [61])

def base64UrlDecode (s : Bytes) : Option (Option Bytes) := do
  let t ← replace s [45] [43]
  let t ← replace t [95] [47]
  let r := t.length % 4
  if r = 1 then some none
  else
    let t := if r = 2 then t ++ [61, 61] else t
    base64Decode (if r = 3 then t ++ [61] else t)

def percentEncode (s : Bytes) : Bytes :=
  s.flatMap fun b =>
    if pctUnreserved b.toNat then byteToString b.toNat
    else [37, charOf upperDigits (b.toNat >>> 4 &&& 15), charOf upperDigits (b.toNat &&& 15)]

def percentTurn (s : Bytes) (i : Nat) : Option (Option (Bytes × Nat)) := do
  let b ← byteAt s i
  if b = 37 then
    if s.length ≤ i + 2 then some none
    else do
      let c ← byteAt s (i + 1)
      let d ← byteAt s (i + 2)
      some ((hexByte c d).map fun out => (out, i + 3))
  else some (some (byteToString b, i + 1))

def percentDecode (s : Bytes) : Option (Option Bytes) :=
  decodeLoop s.length (percentTurn s) (s.length + 1) 0 []

/-! ## The loops -/

/-- What a turn at the rest `t` of the string does, said by a function on the rest: it fails with
it, or takes some bytes and leaves the others to it. -/
def Turns (f : Bytes → Option Bytes) (P : Bytes → Prop) (i : Nat) (t : Bytes)
    (turned : Option (Option (Bytes × Nat))) : Prop :=
  (turned = some none ∧ f t = none) ∨
    ∃ p rest out, t = p ++ rest ∧ p ≠ [] ∧ P rest ∧
      turned = some (some (out, i + p.length)) ∧ f t = (f rest).map (out ++ ·)

/-- A turn that takes the group `p` and gives what `r` says. -/
theorem Turns.of_group {f : Bytes → Option Bytes} {P : Bytes → Prop} {i : Nat} {p rest : Bytes}
    {turned : Option (Option (Bytes × Nat))} {r : Option Bytes} (hp : p ≠ []) (hrest : P rest)
    (hr : turned = some (r.map fun out => (out, i + p.length)))
    (hf : f (p ++ rest) = r.bind fun out => (f rest).map (out ++ ·)) :
    Turns f P i (p ++ rest) turned := by
  cases r with
  | none => exact Or.inl ⟨hr, hf⟩
  | some out => exact Or.inr ⟨p, rest, out, rfl, hp, hrest, hr, hf⟩

/-- **The loop of a decoder** is the function on the rest of the string. -/
theorem decodeLoop_eq {s : Bytes} {turn : Nat → Option (Option (Bytes × Nat))}
    {f : Bytes → Option Bytes} {P : Bytes → Prop} (hnil : f [] = some [])
    (hturn : ∀ u t, s = u ++ t → t ≠ [] → P t → Turns f P u.length t (turn u.length)) (hP : P s) :
    decodeLoop s.length turn (s.length + 1) 0 [] = some (f s) := by
  have hloop : ∀ (fuel : Nat) (u t sb : Bytes), s = u ++ t → P t → t.length < fuel →
      decodeLoop s.length turn fuel u.length sb = some ((f t).map (sb ++ ·)) := by
    intro fuel
    induction fuel with
    | zero =>
      intro u t sb _ _ hfuel
      omega
    | succ fuel ih =>
      intro u t sb hs ht hfuel
      by_cases hempty : t = []
      · rw [decodeLoop, if_pos (by rw [hs, hempty, append_nil]), hempty, hnil]
        simp
      · have hpos := length_pos_of_ne_nil hempty
        rw [decodeLoop, if_neg (by rw [hs, length_append]; omega)]
        rcases hturn u t hs hempty ht with ⟨hr, hf⟩ | ⟨p, rest, out, rfl, hp, hrest, hr, hf⟩
        · rw [hr, hf]
          rfl
        · have hp' := length_pos_of_ne_nil hp
          have hnext := ih (u ++ p) rest (sb ++ out) (by rw [hs, append_assoc]) hrest
            (by rw [length_append] at hfuel; omega)
          rw [hr, hf]
          dsimp only
          rw [← length_append, hnext, Option.map_map]
          congr 2
          funext x
          simp
  have h := hloop (s.length + 1) [] s [] rfl hP (by omega)
  simpa using h

theorem byteAt_append (u t : Bytes) (k : Nat) : byteAt (u ++ t) (u.length + k) = byteAt t k := by
  simp [byteAt, getElem?_append_right]

theorem byteAt_append_zero (u t : Bytes) : byteAt (u ++ t) u.length = byteAt t 0 :=
  byteAt_append u t 0

/-- `hexDecode`, on the rest of the string. -/
def hexBytes : Bytes → Option Bytes
  | c :: d :: rest =>
    (hexByte c.toNat d.toNat).bind fun out => (hexBytes rest).map (out ++ ·)
  | [_] => none
  | [] => some []

theorem hexDecode_eq (s : Bytes) :
    hexDecode s = some (if s.length % 2 ≠ 0 then none else hexBytes s) := by
  unfold hexDecode
  split
  · rfl
  · next heven =>
      refine decodeLoop_eq (P := fun t => t.length % 2 = 0) rfl ?_ (by omega)
      rintro u (_ | ⟨c, _ | ⟨d, rest⟩⟩) rfl hne hlen
      · exact absurd rfl hne
      · simp at hlen
      · simp only [length_cons] at hlen
        refine Turns.of_group (p := [c, d]) (by simp) (by omega) ?_ rfl
        rw [hexTurn, byteAt_append_zero, byteAt_append]
        rfl

/-- `base64Decode`, on the rest of the string. -/
def base64Bytes : Bytes → Option Bytes
  | c0 :: c1 :: c2 :: c3 :: rest =>
    (base64Group c0.toNat c1.toNat c2.toNat c3.toNat rest.isEmpty).bind fun out =>
      (base64Bytes rest).map (out ++ ·)
  | [] => some []
  | _ => none

theorem base64Decode_eq (s : Bytes) :
    base64Decode s = some (if s.length % 4 ≠ 0 then none else base64Bytes s) := by
  unfold base64Decode
  split
  · rfl
  · next hfour =>
      refine decodeLoop_eq (P := fun t => t.length % 4 = 0) rfl ?_ (by omega)
      rintro u (_ | ⟨c0, _ | ⟨c1, _ | ⟨c2, _ | ⟨c3, rest⟩⟩⟩⟩) rfl hne hlen
      · exact absurd rfl hne
      · simp at hlen
      · simp at hlen
      · simp at hlen
      · simp only [length_cons] at hlen
        refine Turns.of_group (p := [c0, c1, c2, c3]) (by simp) (by omega) ?_ rfl
        have hlast : (u.length + 4 == (u ++ c0 :: c1 :: c2 :: c3 :: rest).length) = rest.isEmpty := by
          cases rest <;> simp
        rw [base64Turn, hlast, byteAt_append_zero, byteAt_append, byteAt_append, byteAt_append]
        rfl

/-- `percentDecode`, on the rest of the string. -/
def percentBytes : Bytes → Option Bytes
  | [] => some []
  | b :: rest =>
    if b = 37 then
      match rest with
      | c :: d :: rest =>
        (hexByte c.toNat d.toNat).bind fun out => (percentBytes rest).map (out ++ ·)
      | _ => none
    else (percentBytes rest).map (byteToString b.toNat ++ ·)

theorem percentBytes_other {b : UInt8} (hb : b ≠ 37) (rest : Bytes) :
    percentBytes (b :: rest) = (percentBytes rest).map (byteToString b.toNat ++ ·) := by
  rw [percentBytes.eq_def]
  exact if_neg hb

theorem percentDecode_eq (s : Bytes) : percentDecode s = some (percentBytes s) := by
  refine decodeLoop_eq (P := fun _ => True) rfl ?_ trivial
  rintro u (_ | ⟨b, rest⟩) rfl hne -
  · exact absurd rfl hne
  · have h37 : (b.toNat = 37) = (b = 37) := by
      rw [← UInt8.toNat_inj]
      rfl
    rw [percentTurn, byteAt_append_zero]
    by_cases hb : b = 37
    · rcases rest with _ | ⟨c, _ | ⟨d, rest⟩⟩
      · exact Or.inl ⟨by simp [byteAt, hb], by simp [percentBytes, hb]⟩
      · exact Or.inl ⟨by simp [byteAt, hb], by simp [percentBytes, hb]⟩
      · refine Turns.of_group (p := [b, c, d]) (r := hexByte c.toNat d.toNat) (by simp) trivial ?_
          (by simp [percentBytes, hb])
        rw [byteAt_append, byteAt_append]
        simp [byteAt, hb]
    · refine Turns.of_group (p := [b]) (r := some (byteToString b.toNat)) (by simp) trivial ?_
        (percentBytes_other hb rest)
      simp [byteAt, h37, hb]

/-! ## Hexadecimal and percent encoding -/

theorem or_eq_add {x b : Nat} (i : Nat) (hx : 2 ^ i ∣ x) (hb : b < 2 ^ i) : x ||| b = x + b := by
  obtain ⟨a, rfl⟩ := hx
  rw [Nat.mul_comm, ← Nat.shiftLeft_eq, Nat.shiftLeft_add_eq_or_of_lt hb]

/-- The halves of a byte. -/
theorem nibbles (b : UInt8) : (b.toNat >>> 4 &&& 15) < 16 ∧ (b.toNat &&& 15) < 16 ∧
    (b.toNat >>> 4 &&& 15) <<< 4 ||| (b.toNat &&& 15) = b.toNat := by
  have hb := b.toNat_lt
  rw [Nat.shiftRight_eq_div_pow, Nat.and_two_pow_sub_one_eq_mod _ 4,
    Nat.and_two_pow_sub_one_eq_mod _ 4, Nat.shiftLeft_eq, or_eq_add 4 (by omega) (by omega)]
  omega

theorem hexByte_digits {table : Bytes} (htable : ∀ k < 16, hexNibble (charOf table k).toNat = k)
    (b : UInt8) :
    hexByte (charOf table (b.toNat >>> 4 &&& 15)).toNat (charOf table (b.toNat &&& 15)).toNat =
      some [b] := by
  obtain ⟨hhi, hlo, hor⟩ := nibbles b
  rw [hexByte, htable _ hhi, htable _ hlo, if_neg (by omega), Int.toNat_natCast,
    Int.toNat_natCast, hor]
  simp [byteToString]

theorem hexBytes_hexEncode (b : Bytes) : hexBytes (hexEncode b) = some b := by
  induction b with
  | nil => rfl
  | cons c b ih =>
    have hcons : hexEncode (c :: b) = charOf digits (c.toNat >>> 4 &&& 15) ::
        charOf digits (c.toNat &&& 15) :: hexEncode b := rfl
    rw [hcons, hexBytes, hexByte_digits (by decide), ih]
    rfl

theorem percentBytes_percentEncode (b : Bytes) : percentBytes (percentEncode b) = some b := by
  induction b with
  | nil => rfl
  | cons c b ih =>
    rw [percentEncode, flatMap_cons, ← percentEncode]
    by_cases hc : pctUnreserved c.toNat = true
    · have h37 : c ≠ 37 := by
        rintro rfl
        exact absurd hc (by decide)
      have hbyte : byteToString c.toNat = [c] := by simp [byteToString]
      rw [if_pos hc, hbyte, singleton_append, percentBytes_other h37, ih, hbyte]
      rfl
    · rw [if_neg hc]
      simp only [cons_append, nil_append]
      rw [percentBytes, if_pos rfl, hexByte_digits (by decide), ih]
      rfl

/-! ## Base64 -/

theorem bytes_or {b c : Nat} (a : Nat) (hb : b < 256) (hc : c < 256) :
    a <<< 16 ||| b <<< 8 ||| c = a * 65536 + b * 256 + c := by
  simp only [Nat.shiftLeft_eq]
  rw [or_eq_add (x := a * 2 ^ 16) 16 (by omega) (by omega), or_eq_add 8 (by omega) (by omega)]

theorem sextets_or {b c d : Nat} (a : Nat) (hb : b < 64) (hc : c < 64) (hd : d < 64) :
    a <<< 18 ||| b <<< 12 ||| c <<< 6 ||| d = a * 262144 + b * 4096 + c * 64 + d := by
  simp only [Nat.shiftLeft_eq]
  rw [or_eq_add (x := a * 2 ^ 18) 18 (by omega) (by omega),
    or_eq_add (x := a * 2 ^ 18 + b * 2 ^ 12) 12 (by omega) (by omega),
    or_eq_add 6 (by omega) (by omega)]

theorem and_63 (n : Nat) : n &&& 63 = n % 64 := Nat.and_two_pow_sub_one_eq_mod n 6

theorem and_255 (n : Nat) : n &&& 255 = n % 256 := Nat.and_two_pow_sub_one_eq_mod n 8

/-- The characters of a group of three bytes. -/
theorem base64Encode_cons (b0 b1 b2 : UInt8) (rest : Bytes) :
    base64Encode (b0 :: b1 :: b2 :: rest) =
      charOf alpha (b0.toNat / 4) :: charOf alpha (b0.toNat % 4 * 16 + b1.toNat / 16) ::
        charOf alpha (b1.toNat % 16 * 4 + b2.toNat / 64) :: charOf alpha (b2.toNat % 64) ::
          base64Encode rest := by
  have h0 := b0.toNat_lt
  have h1 := b1.toNat_lt
  have h2 := b2.toNat_lt
  have hc : ∀ t, t = b0.toNat * 65536 + b1.toNat * 256 + b2.toNat → t / 2 ^ 18 % 64 = b0.toNat / 4 ∧
      t / 2 ^ 12 % 64 = b0.toNat % 4 * 16 + b1.toNat / 16 ∧
      t / 2 ^ 6 % 64 = b1.toNat % 16 * 4 + b2.toNat / 64 ∧ t % 64 = b2.toNat % 64 := by omega
  obtain ⟨hc0, hc1, hc2, hc3⟩ := hc _ rfl
  rw [base64Encode, bytes_or _ h1 h2]
  simp only [Nat.shiftRight_eq_div_pow, and_63, hc0, hc1, hc2, hc3]

theorem base64Encode_two (b0 b1 : UInt8) :
    base64Encode [b0, b1] = [charOf alpha (b0.toNat / 4),
      charOf alpha (b0.toNat % 4 * 16 + b1.toNat / 16), charOf alpha (b1.toNat % 16 * 4), 61] := by
  have h0 := b0.toNat_lt
  have h1 := b1.toNat_lt
  have hor := bytes_or b0.toNat h1 (c := 0) (by omega)
  rw [Nat.or_zero] at hor
  have hc : ∀ t, t = b0.toNat * 65536 + b1.toNat * 256 + 0 → t / 2 ^ 18 % 64 = b0.toNat / 4 ∧
      t / 2 ^ 12 % 64 = b0.toNat % 4 * 16 + b1.toNat / 16 ∧
      t / 2 ^ 6 % 64 = b1.toNat % 16 * 4 := by omega
  obtain ⟨hc0, hc1, hc2⟩ := hc _ rfl
  rw [base64Encode, hor]
  simp only [Nat.shiftRight_eq_div_pow, and_63, hc0, hc1, hc2]

theorem base64Encode_one (b0 : UInt8) :
    base64Encode [b0] = [charOf alpha (b0.toNat / 4), charOf alpha (b0.toNat % 4 * 16), 61, 61] := by
  have h0 := b0.toNat_lt
  have hc0 : b0.toNat * 2 ^ 16 / 2 ^ 18 % 64 = b0.toNat / 4 := by omega
  have hc1 : b0.toNat * 2 ^ 16 / 2 ^ 12 % 64 = b0.toNat % 4 * 16 := by omega
  rw [base64Encode]
  simp only [Nat.shiftRight_eq_div_pow, Nat.shiftLeft_eq, and_63, hc0, hc1]

/-- The code of the character at `k` in the alphabet. -/
def alphaCode (k : Nat) : Nat :=
  if k < 26 then k + 65 else if k < 52 then k + 71 else if k < 62 then k - 4
  else if k = 62 then 43 else 47

theorem alpha_eq : alpha = (List.range 64).map fun k => UInt8.ofNat (alphaCode k) := by
  decide +kernel

theorem charOf_alpha {k : Nat} (h : k < 64) : charOf alpha k = UInt8.ofNat (alphaCode k) := by
  rw [charOf, alpha_eq, getD_eq_getElem _ _ (by simpa using h), getElem_map,
    getElem_range]

theorem toNat_charOf_alpha {k : Nat} (h : k < 64) : (charOf alpha k).toNat = alphaCode k := by
  rw [charOf_alpha h]
  refine UInt8.toNat_ofNat_of_lt' (show alphaCode k < 256 from ?_)
  unfold alphaCode
  split_ifs <;> omega

/-- A character of the alphabet. -/
theorem alpha_spec (k : Nat) (h : k < 64) : b64Val (charOf alpha k).toNat = k ∧
    charOf alpha k ∈ alpha ∧ (charOf alpha k).toNat ≠ 61 := by
  refine ⟨?_, ?_, ?_⟩
  · rw [toNat_charOf_alpha h]
    unfold b64Val alphaCode
    split_ifs <;> omega
  · rw [charOf_alpha h, alpha_eq]
    exact mem_map_of_mem (List.mem_range.mpr h)
  · rw [toNat_charOf_alpha h]
    unfold alphaCode
    split_ifs <;> omega

theorem of_b64Val {c : UInt8} (h : ¬ b64Val c.toNat < 0) : ∃ k < 64, c = charOf alpha k := by
  obtain ⟨hlt, hcode⟩ : (b64Val c.toNat).toNat < 64 ∧ alphaCode (b64Val c.toNat).toNat = c.toNat := by
    unfold b64Val at h ⊢
    unfold alphaCode
    split_ifs at h ⊢ <;> omega
  exact ⟨_, hlt, UInt8.toNat_inj.mp ((toNat_charOf_alpha hlt).trans hcode).symm⟩

section
variable {v0 v1 v2 v3 : Nat} (h0 : v0 < 64) (h1 : v1 < 64) (h2 : v2 < 64) (h3 : v3 < 64)
include h0 h1

theorem group_one : base64Group (charOf alpha v0).toNat (charOf alpha v1).toNat 61 61 true =
    some [UInt8.ofNat (v0 * 4 + v1 / 16)] := by
  have hor := sextets_or v0 h1 (c := 0) (d := 0) (by omega) (by omega)
  simp only [Nat.zero_shiftLeft, Nat.or_zero] at hor
  have hbyte : (v0 * 262144 + v1 * 4096) / 65536 % 256 = v0 * 4 + v1 / 16 := by omega
  simp [base64Group, (alpha_spec v0 h0).1, (alpha_spec v1 h1).1, hor, byteToString, and_255,
    Nat.shiftRight_eq_div_pow, hbyte]

include h2

theorem group_two : base64Group (charOf alpha v0).toNat (charOf alpha v1).toNat
    (charOf alpha v2).toNat 61 true =
      some [UInt8.ofNat (v0 * 4 + v1 / 16), UInt8.ofNat (v1 % 16 * 16 + v2 / 4)] := by
  have hor := sextets_or v0 h1 h2 (d := 0) (by omega)
  rw [Nat.or_zero] at hor
  have hbyte0 : (v0 * 262144 + v1 * 4096 + v2 * 64) / 65536 % 256 = v0 * 4 + v1 / 16 := by omega
  have hbyte1 : (v0 * 262144 + v1 * 4096 + v2 * 64) / 256 % 256 = v1 % 16 * 16 + v2 / 4 := by omega
  simp [base64Group, (alpha_spec v0 h0).1, (alpha_spec v1 h1).1, alpha_spec v2 h2, hor,
    byteToString, and_255, Nat.shiftRight_eq_div_pow, hbyte0, hbyte1]

include h3

theorem group_full (last : Bool) : base64Group (charOf alpha v0).toNat (charOf alpha v1).toNat
    (charOf alpha v2).toNat (charOf alpha v3).toNat last =
      some [UInt8.ofNat (v0 * 4 + v1 / 16), UInt8.ofNat (v1 % 16 * 16 + v2 / 4),
        UInt8.ofNat (v2 % 4 * 64 + v3)] := by
  have hor := sextets_or v0 h1 h2 h3
  have hbyte0 : (v0 * 262144 + v1 * 4096 + v2 * 64 + v3) / 65536 % 256 = v0 * 4 + v1 / 16 := by
    omega
  have hbyte1 : (v0 * 262144 + v1 * 4096 + v2 * 64 + v3) / 256 % 256 = v1 % 16 * 16 + v2 / 4 := by
    omega
  have hbyte2 : (v0 * 262144 + v1 * 4096 + v2 * 64 + v3) % 256 = v2 % 4 * 64 + v3 := by omega
  simp [base64Group, (alpha_spec v0 h0).1, (alpha_spec v1 h1).1, alpha_spec v2 h2,
    alpha_spec v3 h3, hor, byteToString, and_255, Nat.shiftRight_eq_div_pow, hbyte0, hbyte1, hbyte2]

end

theorem base64Bytes_base64Encode (b : Bytes) : base64Bytes (base64Encode b) = some b := by
  induction b using base64Encode.induct with
  | case1 b0 b1 b2 rest ih =>
    have h0 := b0.toNat_lt
    have h1 := b1.toNat_lt
    have h2 := b2.toNat_lt
    have e0 : b0.toNat / 4 * 4 + (b0.toNat % 4 * 16 + b1.toNat / 16) / 16 = b0.toNat := by omega
    have e1 : (b0.toNat % 4 * 16 + b1.toNat / 16) % 16 * 16 +
        (b1.toNat % 16 * 4 + b2.toNat / 64) / 4 = b1.toNat := by omega
    have e2 : (b1.toNat % 16 * 4 + b2.toNat / 64) % 4 * 64 + b2.toNat % 64 = b2.toNat := by omega
    rw [base64Encode_cons, base64Bytes, group_full (by omega) (by omega) (by omega) (by omega),
      e0, e1, e2, ih]
    simp
  | case2 b0 b1 =>
    have h0 := b0.toNat_lt
    have h1 := b1.toNat_lt
    have e0 : b0.toNat / 4 * 4 + (b0.toNat % 4 * 16 + b1.toNat / 16) / 16 = b0.toNat := by omega
    have e1 : (b0.toNat % 4 * 16 + b1.toNat / 16) % 16 * 16 + b1.toNat % 16 * 4 / 4 =
        b1.toNat := by omega
    have hgroup := group_two (show b0.toNat / 4 < 64 by omega)
      (show b0.toNat % 4 * 16 + b1.toNat / 16 < 64 by omega)
      (show b1.toNat % 16 * 4 < 64 by omega)
    rw [e0, e1] at hgroup
    rw [base64Encode_two, base64Bytes]
    simp [hgroup, base64Bytes]
  | case3 b0 =>
    have h0 := b0.toNat_lt
    have e0 : b0.toNat / 4 * 4 + b0.toNat % 4 * 16 / 16 = b0.toNat := by omega
    have hgroup := group_one (show b0.toNat / 4 < 64 by omega)
      (show b0.toNat % 4 * 16 < 64 by omega)
    rw [e0] at hgroup
    rw [base64Encode_one, base64Bytes]
    simp [hgroup, base64Bytes]
  | case4 => rfl

/-- What an encoded text looks like. -/
theorem base64Encode_shape (b : Bytes) : ∃ body k, k ≤ 2 ∧
    base64Encode b = body ++ List.replicate k 61 ∧ (∀ c ∈ body, c ∈ alpha) ∧
      (body.length + k) % 4 = 0 := by
  induction b using base64Encode.induct with
  | case1 b0 b1 b2 rest ih =>
    obtain ⟨body, k, hk, henc, hbody, hlen⟩ := ih
    have h0 := b0.toNat_lt
    have h1 := b1.toNat_lt
    have h2 := b2.toNat_lt
    rw [base64Encode_cons, henc]
    refine ⟨_ :: _ :: _ :: _ :: body, k, hk, rfl, ?_, by simp only [length_cons]; omega⟩
    intro c hc
    simp only [mem_cons] at hc
    rcases hc with rfl | rfl | rfl | rfl | hc
    · exact (alpha_spec _ (by omega)).2.1
    · exact (alpha_spec _ (by omega)).2.1
    · exact (alpha_spec _ (by omega)).2.1
    · exact (alpha_spec _ (by omega)).2.1
    · exact hbody c hc
  | case2 b0 b1 =>
    have h0 := b0.toNat_lt
    have h1 := b1.toNat_lt
    rw [base64Encode_two]
    refine ⟨[_, _, _], 1, by omega, rfl, ?_, by simp⟩
    simp [(alpha_spec (b0.toNat / 4) (by omega)).2.1,
      (alpha_spec (b0.toNat % 4 * 16 + b1.toNat / 16) (by omega)).2.1,
      (alpha_spec (b1.toNat % 16 * 4) (by omega)).2.1]
  | case3 b0 =>
    have h0 := b0.toNat_lt
    rw [base64Encode_one]
    refine ⟨[_, _], 2, by omega, rfl, ?_, by simp⟩
    simp [(alpha_spec (b0.toNat / 4) (by omega)).2.1,
      (alpha_spec (b0.toNat % 4 * 16) (by omega)).2.1]
  | case4 => exact ⟨[], 0, by omega, rfl, by simp, rfl⟩

theorem base64Decode_base64Encode (b : Bytes) : base64Decode (base64Encode b) = some (some b) := by
  obtain ⟨body, k, -, henc, -, hlen⟩ := base64Encode_shape b
  have hfour : (base64Encode b).length % 4 = 0 := by simp [henc, hlen]
  rw [base64Decode_eq, if_neg (by simp [hfour]), base64Bytes_base64Encode]

/-! ## Base64 for addresses -/

theorem ne_of_mem_alpha {c : UInt8} (h : c ∈ alpha) : c ≠ 45 ∧ c ≠ 61 ∧ c ≠ 95 := by
  rw [alpha_eq] at h
  obtain ⟨k, hk, rfl⟩ := List.mem_map.mp h
  have hcode := toNat_charOf_alpha (List.mem_range.mp hk)
  have hne : alphaCode k ≠ 45 ∧ alphaCode k ≠ 61 ∧ alphaCode k ≠ 95 := by
    unfold alphaCode
    split_ifs <;> omega
  rw [charOf_alpha (List.mem_range.mp hk)] at hcode
  refine ⟨fun h => ?_, fun h => ?_, fun h => ?_⟩ <;> rw [h] at hcode
  · exact hne.1 hcode.symm
  · exact hne.2.1 hcode.symm
  · exact hne.2.2 hcode.symm

/-- One byte for another. -/
def swap (x y c : UInt8) : UInt8 := if c = x then y else c

theorem map_swap {x y : UInt8} {s : Bytes} (h : x ∉ s) : s.map (swap x y) = s := by
  refine (map_congr_left fun c hc => ?_).trans (map_id s)
  exact if_neg fun hcx : c = x => h (hcx ▸ hc)

theorem replace_one (s : Bytes) (x y : UInt8) : replace s [x] [y] = some (s.map (swap x y)) := by
  obtain ⟨ps, hps⟩ := exists_splits (cons_ne_nil x []) s
  rw [replace_eq (by simp) hps]
  congr 1
  have hmem : ∀ {t p u : Bytes}, t = p ++ x :: u → Occurs [x] t p.length := fun ht => ⟨_, _, ht, rfl⟩
  induction hps with
  | last hnone =>
    rw [map_swap fun h => ?_, joinToString_cons, flatMap_nil, append_nil]
    obtain ⟨p, u, ht⟩ := append_of_mem h
    exact hnone _ (hmem ht)
  | @cut p t ps hfirst hrest ih =>
    have hp : x ∉ p := fun h => by
      obtain ⟨q, u, rfl⟩ := append_of_mem h
      have hle := hfirst q.length (hmem (u := u ++ ([x] ++ t)) (by simp))
      simp only [length_append, length_cons] at hle
      omega
    rw [joinToString_cons, map_append, map_swap hp, map_append, ← ih]
    cases hrest <;> simp [joinToString_cons, swap]

theorem removeSuffix_append (u v : Bytes) : removeSuffix (u ++ v) v = u := by
  have h := subStr_between [] u v
  rw [removeSuffix, if_pos (by simp)]
  simpa using h

theorem removeSuffix_of_not_mem {s : Bytes} (h : (61 : UInt8) ∉ s) : removeSuffix s [61] = s :=
  if_neg fun hs => h ((List.isSuffixOf_iff_suffix.mp hs).subset (by simp))

theorem base64Url (b : Bytes) : ∃ e, base64UrlEncode b = some e ∧ base64UrlDecode e = some (some b) ∧
    ∀ c ∈ e, (c ∈ alpha ∧ c ≠ 43 ∧ c ≠ 47) ∨ c = 45 ∨ c = 95 := by
  obtain ⟨body, k, hk, henc, hbody, hlen⟩ := base64Encode_shape b
  have halpha : ∀ c ∈ alpha, swap 95 47 (swap 45 43 (swap 47 95 (swap 43 45 c))) = c ∧
      swap 47 95 (swap 43 45 c) ≠ 61 ∧
      ((swap 47 95 (swap 43 45 c) ∈ alpha ∧ swap 47 95 (swap 43 45 c) ≠ 43 ∧
        swap 47 95 (swap 43 45 c) ≠ 47) ∨ swap 47 95 (swap 43 45 c) = 45 ∨
          swap 47 95 (swap 43 45 c) = 95) := by
    intro c hc
    obtain ⟨h45, h61, h95⟩ := ne_of_mem_alpha hc
    by_cases h43 : c = 43
    · subst h43
      exact ⟨rfl, by decide, Or.inr (Or.inl rfl)⟩
    by_cases h47 : c = 47
    · subst h47
      exact ⟨rfl, by decide, Or.inr (Or.inr rfl)⟩
    simp [swap, h43, h45, h47, h61, h95, hc]
  have hno : (61 : UInt8) ∉ (body.map (swap 43 45)).map (swap 47 95) := by
    simp only [map_map, mem_map, not_exists, not_and]
    exact fun c hc => (halpha c (hbody c hc)).2.1
  have hback : (((body.map (swap 43 45)).map (swap 47 95)).map (swap 45 43)).map (swap 95 47) = body := by
    simp only [map_map]
    refine (map_congr_left (g := id) fun c hc => ?_).trans (map_id body)
    simp only [Function.comp_apply, (halpha c (hbody c hc)).1, id]
  have hdecode := base64Decode_base64Encode b
  refine ⟨(body.map (swap 43 45)).map (swap 47 95), ?_, ?_, ?_⟩
  · simp only [base64UrlEncode, henc, replace_one, Option.bind_eq_bind, Option.bind_some,
      map_append, map_replicate]
    have hpad : swap 47 95 (swap 43 45 61) = 61 := by decide
    rw [hpad]
    interval_cases k
    · rw [replicate_zero, append_nil, removeSuffix_of_not_mem hno,
        removeSuffix_of_not_mem hno]
    · rw [replicate_one, removeSuffix_append, removeSuffix_of_not_mem hno]
    · rw [show List.replicate 2 (61 : UInt8) = [61] ++ [61] from rfl, ← append_assoc,
        removeSuffix_append, removeSuffix_append]
  · simp only [base64UrlDecode, replace_one, Option.bind_eq_bind, Option.bind_some, hback]
    rw [henc] at hdecode
    interval_cases k
    · rw [if_neg (by omega), if_neg (by omega), if_neg (by omega)]
      simpa using hdecode
    · rw [replicate_one] at hdecode
      rwa [if_neg (by omega), if_pos (by omega), if_neg (by omega)]
    · rw [replicate_succ, replicate_one] at hdecode
      rwa [if_neg (by omega), if_neg (by omega), if_pos (by omega)]
  · simp only [map_map, mem_map, forall_exists_index, and_imp]
    rintro c c' hc' rfl
    exact (halpha c' (hbody c' hc')).2.2

/-- **The encodings invert.**  Every decoder gives back what its encoder was given, every encoder
keeps to its alphabet, and no decoder raises or runs on, whatever it is given. -/
theorem encodings_invert (b : Bytes) :
    hexDecode (hexEncode b) = some (some b) ∧ base64Decode (base64Encode b) = some (some b) ∧
    (∃ e, base64UrlEncode b = some e ∧ base64UrlDecode e = some (some b) ∧
      ∀ c ∈ e, (c ∈ alpha ∧ c ≠ 43 ∧ c ≠ 47) ∨ c = 45 ∨ c = 95) ∧
    percentDecode (percentEncode b) = some (some b) ∧
    (∀ c ∈ hexEncode b, c ∈ digits) ∧ (∀ c ∈ base64Encode b, c ∈ alpha ∨ c = 61) ∧
    (∃ units : List Bytes, percentEncode b = units.flatten ∧ ∀ u ∈ units,
      (∃ c, u = [c] ∧ pctUnreserved c.toNat = true) ∨
        ∃ h ∈ upperDigits, ∃ l ∈ upperDigits, u = [37, h, l]) ∧
    ∀ s, (∃ r, hexDecode s = some r) ∧ (∃ r, base64Decode s = some r) ∧
      (∃ r, base64UrlDecode s = some r) ∧ ∃ r, percentDecode s = some r := by
  have hdigit : ∀ k < 16, charOf digits k ∈ digits ∧ charOf upperDigits k ∈ upperDigits := by
    decide +kernel
  refine ⟨?_, base64Decode_base64Encode b, base64Url b, ?_, ?_, ?_, ?_, fun s => ⟨?_, ?_, ?_, ?_⟩⟩
  · have hlen : (hexEncode b).length % 2 = 0 := by
      rw [hexEncode, length_flatMap]
      simp
    rw [hexDecode_eq, if_neg (by simp [hlen]), hexBytes_hexEncode]
  · rw [percentDecode_eq, percentBytes_percentEncode]
  · intro c hc
    obtain ⟨x, -, hc⟩ := List.mem_flatMap.mp hc
    obtain ⟨hhi, hlo, -⟩ := nibbles x
    rcases List.mem_pair.mp hc with rfl | rfl
    · exact (hdigit _ hhi).1
    · exact (hdigit _ hlo).1
  · obtain ⟨body, k, -, henc, hbody, -⟩ := base64Encode_shape b
    intro c hc
    rw [henc] at hc
    exact (List.mem_append.mp hc).imp (hbody c) eq_of_mem_replicate
  · refine ⟨b.map _, flatMap_def, fun u hu => ?_⟩
    obtain ⟨x, -, rfl⟩ := List.mem_map.mp hu
    obtain ⟨hhi, hlo, -⟩ := nibbles x
    by_cases hx : pctUnreserved x.toNat = true
    · exact Or.inl ⟨x, by simp [hx, byteToString], hx⟩
    · exact Or.inr ⟨_, (hdigit _ hhi).2, _, (hdigit _ hlo).2, if_neg hx⟩
  · exact ⟨_, hexDecode_eq s⟩
  · exact ⟨_, base64Decode_eq s⟩
  · simp only [base64UrlDecode, replace_one, Option.bind_eq_bind, Option.bind_some]
    split
    · exact ⟨_, rfl⟩
    · exact ⟨_, base64Decode_eq _⟩
  · exact ⟨_, percentDecode_eq s⟩

/-! ## Other spellings of the same bytes -/

/-- The bits of the last character before the padding that `base64Decode` drops. -/
def droppedBits : Bytes → Nat
  | _ :: c1 :: c2 :: c3 :: rest =>
    if rest ≠ [] then droppedBits rest
    else if c2 = 61 then (b64Val c1.toNat).toNat % 16
    else if c3 = 61 then (b64Val c2.toNat).toNat % 4
    else 0
  | _ => 0

/-- What a group that is decoded is made of. -/
theorem of_base64Group {c0 c1 c2 c3 : UInt8} {last : Bool} {out : Bytes}
    (h : base64Group c0.toNat c1.toNat c2.toNat c3.toNat last = some out) :
    ∃ v0 < 64, c0 = charOf alpha v0 ∧ ∃ v1 < 64, c1 = charOf alpha v1 ∧
      ((last = true ∧ c2 = 61 ∧ c3 = 61) ∨ ∃ v2 < 64, c2 = charOf alpha v2 ∧
        ((last = true ∧ c3 = 61) ∨ ∃ v3 < 64, c3 = charOf alpha v3)) := by
  have hpad : ∀ {c : UInt8}, c.toNat = 61 → c = 61 := fun hc => UInt8.toNat_inj.mp hc
  unfold base64Group at h
  dsimp only at h
  split_ifs at h with hv hc2 hlast hv2 hc3 hlast hv3
  · obtain ⟨v0, h0, e0⟩ := of_b64Val fun h => hv (Or.inl h)
    obtain ⟨v1, h1, e1⟩ := of_b64Val fun h => hv (Or.inr h)
    exact ⟨v0, h0, e0, v1, h1, e1, Or.inl ⟨by simp_all, hpad hc2, hpad (by simp_all)⟩⟩
  · obtain ⟨v0, h0, e0⟩ := of_b64Val fun h => hv (Or.inl h)
    obtain ⟨v1, h1, e1⟩ := of_b64Val fun h => hv (Or.inr h)
    obtain ⟨v2, h2, e2⟩ := of_b64Val hv2
    exact ⟨v0, h0, e0, v1, h1, e1, Or.inr ⟨v2, h2, e2, Or.inl ⟨by simp_all, hpad hc3⟩⟩⟩
  · obtain ⟨v0, h0, e0⟩ := of_b64Val fun h => hv (Or.inl h)
    obtain ⟨v1, h1, e1⟩ := of_b64Val fun h => hv (Or.inr h)
    obtain ⟨v2, h2, e2⟩ := of_b64Val hv2
    obtain ⟨v3, h3, e3⟩ := of_b64Val hv3
    exact ⟨v0, h0, e0, v1, h1, e1, Or.inr ⟨v2, h2, e2, Or.inr ⟨v3, h3, e3⟩⟩⟩

theorem charOf_alpha_inj {v w : Nat} (hv : v < 64) (hw : w < 64) :
    charOf alpha v = charOf alpha w ↔ v = w := by
  refine ⟨fun h => ?_, congrArg _⟩
  have hval := (alpha_spec v hv).1
  rw [h, (alpha_spec w hw).1] at hval
  omega

theorem toNat_ofNat {n : Nat} (h : n < 256) : (UInt8.ofNat n).toNat = n :=
  UInt8.toNat_ofNat_of_lt' h

theorem base64Bytes_canonical {s b : Bytes} (h : base64Bytes s = some b) :
    s = base64Encode b ↔ droppedBits s = 0 := by
  induction s using base64Bytes.induct generalizing b with
  | case1 c0 c1 c2 c3 rest ih =>
    rw [base64Bytes] at h
    obtain ⟨out, hgroup, hrest⟩ := Option.bind_eq_some_iff.mp h
    obtain ⟨b', hb', rfl⟩ := Option.map_eq_some_iff.mp hrest
    obtain ⟨v0, h0, rfl, v1, h1, rfl, ⟨hlast, rfl, rfl⟩ | ⟨v2, h2, rfl, htail⟩⟩ :=
      of_base64Group hgroup
    · obtain rfl := List.isEmpty_iff.mp hlast
      obtain rfl : [] = b' := Option.some.inj hb'
      obtain rfl := Option.some.inj ((group_one h0 h1).symm.trans hgroup)
      have e0 : (v0 * 4 + v1 / 16) / 4 = v0 := by omega
      have e1 := charOf_alpha_inj h1 (w := (v0 * 4 + v1 / 16) % 4 * 16) (by omega)
      rw [append_nil, base64Encode_one, toNat_ofNat (by omega), e0]
      simp only [droppedBits, (alpha_spec v1 h1).1, List.cons.injEq, true_and, and_true, e1]
      simp only [ne_eq, not_true_eq_false, if_false, if_true, Int.toNat_natCast]
      omega
    rcases htail with ⟨hlast, rfl⟩ | ⟨v3, h3, rfl⟩
    · obtain rfl := List.isEmpty_iff.mp hlast
      obtain rfl : [] = b' := Option.some.inj hb'
      obtain rfl := Option.some.inj ((group_two h0 h1 h2).symm.trans hgroup)
      have e0 : (v0 * 4 + v1 / 16) / 4 = v0 := by omega
      have e1 : (v0 * 4 + v1 / 16) % 4 * 16 + (v1 % 16 * 16 + v2 / 4) / 16 = v1 := by omega
      have e2 := charOf_alpha_inj h2 (w := (v1 % 16 * 16 + v2 / 4) % 16 * 4) (by omega)
      have h61 : charOf alpha v2 ≠ 61 := fun h => (alpha_spec v2 h2).2.2 (by rw [h]; rfl)
      rw [append_nil, base64Encode_two, toNat_ofNat (by omega), toNat_ofNat (by omega), e0, e1]
      simp only [droppedBits, (alpha_spec v2 h2).1, List.cons.injEq, true_and, and_true, e2]
      simp only [ne_eq, not_true_eq_false, if_false, if_true, if_neg h61, Int.toNat_natCast]
      omega
    · obtain rfl := Option.some.inj ((group_full h0 h1 h2 h3 _).symm.trans hgroup)
      have e0 : (v0 * 4 + v1 / 16) / 4 = v0 := by omega
      have e1 : (v0 * 4 + v1 / 16) % 4 * 16 + (v1 % 16 * 16 + v2 / 4) / 16 = v1 := by omega
      have e2 : (v1 % 16 * 16 + v2 / 4) % 16 * 4 + (v2 % 4 * 64 + v3) / 64 = v2 := by omega
      have e3 : (v2 % 4 * 64 + v3) % 64 = v3 := by omega
      have h61 : ∀ v < 64, charOf alpha v ≠ 61 := fun v hv h => (alpha_spec v hv).2.2 (by rw [h]; rfl)
      simp only [cons_append, nil_append]
      rw [base64Encode_cons, toNat_ofNat (by omega), toNat_ofNat (by omega),
        toNat_ofNat (by omega), e0, e1, e2, e3]
      simp only [List.cons.injEq, true_and, ih hb', droppedBits, if_neg (h61 v2 h2),
        if_neg (h61 v3 h3)]
      by_cases hrest : rest = []
      · simp [hrest, droppedBits]
      · simp [hrest]
  | case2 =>
    obtain rfl : [] = b := Option.some.inj h
    simp [droppedBits, base64Encode]
  | case3 s hgroup hnil => simp [base64Bytes] at h

/-- **Base64 with padding is malleable.**  A text comes back from its bytes exactly if the bits are
zero that the decoder drops, and only then no other such text has the same bytes. -/
theorem base64_canonical_iff {s b : Bytes} (h : base64Decode s = some (some b)) :
    (s = base64Encode b ↔ droppedBits s = 0) ∧
      ∀ t, base64Decode t = some (some b) → droppedBits s = 0 → droppedBits t = 0 → s = t := by
  have hcanonical : ∀ {s}, base64Decode s = some (some b) → (s = base64Encode b ↔ droppedBits s = 0) := by
    intro s h
    rw [base64Decode_eq] at h
    split_ifs at h with hlen
    · cases h
    · exact base64Bytes_canonical (Option.some.inj h)
  exact ⟨hcanonical h, fun t ht hs hzero =>
    ((hcanonical h).mpr hs).trans ((hcanonical ht).mpr hzero).symm⟩

theorem base64_canonical_iff_one : ([81, 81, 61, 61] : Bytes) = base64Encode [65] ↔
    droppedBits [81, 81, 61, 61] = 0 :=
  (base64_canonical_iff (s := [81, 81, 61, 61]) (b := [65]) (by decide +kernel)).1

/-- Two spellings of one byte. -/
theorem not_base64_canonical : ¬ ∀ s t b : Bytes, base64Decode s = some (some b) →
    base64Decode t = some (some b) → s = t := by
  intro h
  exact absurd (h [81, 81, 61, 61] [81, 82, 61, 61] [65] (by decide +kernel) (by decide +kernel))
    (by decide)

end Leviathan.Prelude
