import Leviathan.Lib.Text

/-!
# The values of literals

From `Token.cpp`: the number an integer literal stands for, and the bytes a string literal stands
for.  The text of a literal is a byte string; it need not come from the lexer.

Main results: `parseIntLiteral_decimal` and `decodeStringLiteral_escaped`, for texts that are
written from a value.
-/

namespace Leviathan.Frontend

/-! ### Integers -/

/-- The value of a digit, in any base. -/
def digitValue (c : Char) : Nat :=
  if c.isDigit then c.toNat - 48
  else if 'a' ≤ c ∧ c ≤ 'z' then c.toNat - 87
  else if 'A' ≤ c ∧ c ≤ 'Z' then c.toNat - 55
  else 36

/-- `strtoull`: blanks, a sign, for base 16 a `0x`, and the leading digits; it saturates. -/
def strtoull (base : Nat) (s : Str) : UInt64 :=
  let digits (s : Str) : Nat :=
    (s.takeWhile fun c => digitValue c < base).foldl (fun n c => n * base + digitValue c) 0
  let unsigned (s : Str) : UInt64 :=
    match s with
    | '0' :: x :: d :: rest =>
      if base = 16 ∧ (x = 'x' ∨ x = 'X') ∧ digitValue d < 16 then
        UInt64.ofNat (min (digits (d :: rest)) (2 ^ 64 - 1))
      else UInt64.ofNat (min (digits s) (2 ^ 64 - 1))
    | s => UInt64.ofNat (min (digits s) (2 ^ 64 - 1))
  match s.dropWhile Text.isSpace with
  | '-' :: rest => -unsigned rest
  | '+' :: rest => unsigned rest
  | rest => unsigned rest

/-- `atoll`: leading blanks, an optional sign, the leading digit run; it saturates. -/
def atoll (s : Str) : Int64 :=
  match s.dropWhile Text.isSpace with
  | '-' :: rest => Int64.ofInt (Text.clampLong (-(Text.digitsValue rest : Int)))
  | '+' :: rest => Int64.ofInt (Text.clampLong (Text.digitsValue rest))
  | rest => Int64.ofInt (Text.clampLong (Text.digitsValue rest))

/-- `parseIntLiteral`. -/
def parseIntLiteral (text : Str) : Int64 :=
  match text.filter fun c => c ≠ '_' with
  | '0' :: x :: d :: rest =>
    if x = 'x' ∨ x = 'X' then (strtoull 16 (d :: rest)).toInt64
    else if x = 'b' ∨ x = 'B' then (strtoull 2 (d :: rest)).toInt64
    else atoll ('0' :: x :: d :: rest)
  | clean => atoll clean

/-- A number is not cut down. -/
theorem ofInt_clampLong (n : Int64) : Int64.ofInt (Text.clampLong n.toInt) = n := by
  have hlo := n.le_toInt
  have hhi := n.toInt_lt
  have hclamp : Text.clampLong n.toInt = n.toInt := by
    unfold Text.clampLong
    omega
  rw [hclamp, Int64.ofInt_toInt]

theorem atoll_decimal (n : Int64) : atoll (Text.decimal n.toInt) = n := by
  have hn := ofInt_clampLong n
  cases hval : n.toInt with
  | ofNat k =>
    obtain ⟨d, ds, hds, hd⟩ := Text.toDigits_cons k
    obtain ⟨hspace, hminus, hplus⟩ := Text.not_isSpace_of_isDigit hd
    have hdrop : (Nat.toDigits 10 k).dropWhile Text.isSpace = Nat.toDigits 10 k := by
      rw [hds, List.dropWhile_cons, if_neg (by simp [hspace])]
    rw [Text.decimal, atoll, hdrop]
    rw [hval] at hn
    split
    · rename_i heq
      rw [hds] at heq
      exact absurd (List.cons.inj heq).1 hminus
    · rename_i heq
      rw [hds] at heq
      exact absurd (List.cons.inj heq).1 hplus
    · rw [Text.digitsValue_toDigits_self]
      exact hn
  | negSucc k =>
    have hspace : Text.isSpace '-' = false := by decide
    have hneg : -((k + 1 : Nat) : Int) = Int.negSucc k := rfl
    rw [hval] at hn
    simp only [atoll, Text.decimal, List.dropWhile_cons, hspace, Text.digitsValue_toDigits_self,
      Bool.false_eq_true, if_false, hneg]
    exact hn

/-- A printed number has no underscore, and its second byte is a digit if its first one is. -/
theorem decimal_shape (n : Int) : (∀ c ∈ Text.decimal n, c ≠ '_') ∧
    ∀ c d rest, Text.decimal n = c :: d :: rest → d.isDigit = true := by
  have hdigits : ∀ {k : Nat} {c : Char}, c ∈ Nat.toDigits 10 k → c ≠ '_' := by
    rintro k c hc rfl
    exact absurd (Text.isDigit_of_mem_toDigits hc) (by decide)
  cases n with
  | ofNat k =>
    refine ⟨fun c hc => hdigits hc, fun c d rest h => ?_⟩
    rw [Text.decimal] at h
    exact Text.isDigit_of_mem_toDigits (n := k) (by rw [h]; simp)
  | negSucc k =>
    refine ⟨fun c hc => ?_, fun c d rest h => ?_⟩
    · rcases List.mem_cons.mp hc with rfl | hc
      · decide
      · exact hdigits hc
    · rw [Text.decimal] at h
      exact Text.isDigit_of_mem_toDigits (n := k + 1) (by rw [(List.cons.inj h).2]; simp)

/-- **Integers.**  A literal with the text `std::to_string` writes has the value it is written
from. -/
theorem parseIntLiteral_decimal (n : Int64) : parseIntLiteral (Text.decimal n.toInt) = n := by
  obtain ⟨hunder, hsecond⟩ := decimal_shape n.toInt
  have hclean : (Text.decimal n.toInt).filter (fun c => c ≠ '_') = Text.decimal n.toInt :=
    List.filter_eq_self.mpr fun c hc => by simpa using hunder c hc
  rw [parseIntLiteral, hclean]
  split
  · rename_i x d rest heq
    have hdigit := hsecond _ _ _ heq
    have hno : ∀ y : Char, y.isDigit = false → x ≠ y := by
      rintro y hy rfl
      rw [hy] at hdigit
      cases hdigit
    rw [if_neg (not_or.mpr ⟨hno 'x' rfl, hno 'X' rfl⟩),
      if_neg (not_or.mpr ⟨hno 'b' rfl, hno 'B' rfl⟩), ← heq]
    exact atoll_decimal n
  · exact atoll_decimal n

/-! ### Strings -/

/-- `isHexDigitChar`. -/
def isHexDigitChar (c : Char) : Bool :=
  ('0' ≤ c && c ≤ '9') || ('a' ≤ c && c ≤ 'f') || ('A' ≤ c && c ≤ 'F')

/-- `hexDigitValue`, of a hexadecimal digit. -/
def hexDigitValue (c : Char) : Nat := if c ≤ '9' then c.toNat - 48 else (c.toNat ||| 0x20) - 87

/-- `appendUtf8`: the bytes of a code point. -/
def utf8Bytes (c : Nat) : Str :=
  if c ≤ 0x7F then [Char.ofNat c]
  else if c ≤ 0x7FF then [Char.ofNat (0xC0 ||| c >>> 6), Char.ofNat (0x80 ||| c &&& 0x3F)]
  else if c ≤ 0xFFFF then
    [Char.ofNat (0xE0 ||| c >>> 12), Char.ofNat (0x80 ||| c >>> 6 &&& 0x3F),
      Char.ofNat (0x80 ||| c &&& 0x3F)]
  else
    [Char.ofNat (0xF0 ||| c >>> 18), Char.ofNat (0x80 ||| c >>> 12 &&& 0x3F),
      Char.ofNat (0x80 ||| c >>> 6 &&& 0x3F), Char.ofNat (0x80 ||| c &&& 0x3F)]

/-- The digits of a `\u` escape, at most six of them. -/
def unicodeDigits (s : Str) : Str := (s.take 6).takeWhile isHexDigitChar

/-- The code point of a `\u` escape. -/
def codePoint (digits : Str) : Nat :=
  let cp := digits.foldl (fun n c => n <<< 4 ||| hexDigitValue c) 0
  if cp > 0x10FFFF ∨ 0xD800 ≤ cp ∧ cp ≤ 0xDFFF then 0xFFFD else cp

/-- The byte of an escape of one letter. -/
def simpleEscape (n : Char) : Char :=
  if n = 'n' then '\n'
  else if n = 't' then '\t'
  else if n = 'r' then '\r'
  else if n = '0' then '\x00'
  else n

/-- An escape: the bytes it stands for, and how many bytes after the letter belong to it. -/
def decodeEscape (n : Char) (rest : Str) : Str × Nat :=
  match n, rest with
  | 'x', h :: l :: _ =>
    if isHexDigitChar h && isHexDigitChar l then
      ([Char.ofNat (hexDigitValue h <<< 4 ||| hexDigitValue l)], 2)
    else (['x'], 0)
  | 'u', '{' :: rest =>
    let digits := unicodeDigits rest
    if digits ≠ [] ∧ (rest.drop digits.length).head? = some '}' then
      (utf8Bytes (codePoint digits), digits.length + 2)
    else (['u'], 0)
  | n, _ => ([simpleEscape n], 0)

/-- `decodeEscapes`. -/
def decodeEscapes : Str → Str
  | [] => []
  | '\\' :: n :: rest => (decodeEscape n rest).1 ++ decodeEscapes (rest.drop (decodeEscape n rest).2)
  | c :: rest => c :: decodeEscapes rest
termination_by s => s.length

/-- `decodeStringLiteral`. -/
def decodeStringLiteral (raw : Str) : Str :=
  if raw.length < 2 then [] else decodeEscapes ((raw.drop 1).take (raw.length - 2))

/-- A byte as `reify` writes it. -/
def escapeOf (c : Char) : Str :=
  if c = '"' then ['\\', '"']
  else if c = '\\' then ['\\', '\\']
  else if c = '\n' then ['\\', 'n']
  else if c = '\t' then ['\\', 't']
  else if c = '\r' then ['\\', 'r']
  else [c]

/-- A byte that is no backslash stands for itself. -/
theorem decodeEscapes_cons {c : Char} (hc : c ≠ '\\') (rest : Str) :
    decodeEscapes (c :: rest) = c :: decodeEscapes rest := by
  rw [decodeEscapes]
  rintro n rest' rfl
  exact absurd rfl hc

/-- An escape of one letter. -/
theorem decodeEscapes_simple {n : Char} (hx : n ≠ 'x') (hu : n ≠ 'u') (rest : Str) :
    decodeEscapes ('\\' :: n :: rest) = simpleEscape n :: decodeEscapes rest := by
  have hescape : decodeEscape n rest = ([simpleEscape n], 0) := by
    unfold decodeEscape
    split
    · exact absurd rfl hx
    · exact absurd rfl hu
    · rfl
  rw [decodeEscapes, hescape]
  rfl

/-- The escape of a byte is read back as the byte. -/
theorem decodeEscapes_escapeOf (c : Char) (rest : Str) :
    decodeEscapes (escapeOf c ++ rest) = c :: decodeEscapes rest := by
  unfold escapeOf
  split_ifs with hquote hslash hnewline htab hreturn
  · subst hquote
    exact decodeEscapes_simple (by decide) (by decide) rest
  · subst hslash
    exact decodeEscapes_simple (by decide) (by decide) rest
  · subst hnewline
    exact decodeEscapes_simple (by decide) (by decide) rest
  · subst htab
    exact decodeEscapes_simple (by decide) (by decide) rest
  · subst hreturn
    exact decodeEscapes_simple (by decide) (by decide) rest
  · exact decodeEscapes_cons hslash rest

theorem decodeEscapes_flatMap (s : Str) : decodeEscapes (s.flatMap escapeOf) = s := by
  induction s with
  | nil => rw [List.flatMap_nil, decodeEscapes]
  | cons c cs ih => rw [List.flatMap_cons, decodeEscapes_escapeOf, ih]

/-- **Strings.**  A literal that is written byte by byte has the bytes it is written from, whatever
they are. -/
theorem decodeStringLiteral_escaped (s : Str) :
    decodeStringLiteral ('"' :: (s.flatMap escapeOf ++ ['"'])) = s := by
  have hlength : ('"' :: (s.flatMap escapeOf ++ ['"'])).length = (s.flatMap escapeOf).length + 2 := by
    simp
  rw [decodeStringLiteral, hlength, if_neg (by omega), Nat.add_sub_cancel, List.drop_one,
    List.tail_cons, List.take_left, decodeEscapes_flatMap]

end Leviathan.Frontend
