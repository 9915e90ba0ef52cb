import Mathlib

/-!
# Text: byte strings, decimal numerals and blank-separated words

The text formats of the toolchain are written by string concatenation and read
back by small cursors.  This file collects what those formats share and names
nothing of the program: a string is the list of its bytes (one `Char` for one
byte), `decimal` prints an integer the way `std::to_string` does, `atoi` reads
one the way C does, and `digitsValue` is the value of the maximal digit run
every numeral reader starts from.

The two facts used everywhere are that a printed numeral is read back exactly
(`atoi_decimal`) and that a digit run stops at the first non-digit
(`takeWhile_digits_append`).
-/

namespace Leviathan

/-- A byte string: one `Char` for each byte. -/
abbrev Str := List Char

namespace Text

/-- C's `isspace` in the default locale. -/
def isSpace (c : Char) : Bool :=
  c = ' ' || c = '\t' || c = '\n' || c = '\x0b' || c = '\x0c' || c = '\r'

/-- `std::to_string` of an integer. -/
def decimal : Int → Str
  | .ofNat n => Nat.toDigits 10 n
  | .negSucc n => '-' :: Nat.toDigits 10 (n + 1)

/-- The value of the leading digit run of a string. -/
def digitsValue (s : Str) : Nat := Nat.ofDigitChars 10 (s.takeWhile Char.isDigit) 0

/-- `strtol` saturates at the bounds of a 64-bit `long`. -/
def clampLong (n : Int) : Int := max (-2 ^ 63) (min n (2 ^ 63 - 1))

/-- `atoi`: leading blanks, an optional sign, the leading digit run; as in glibc
it is `strtol` cut down to the low bits of an `int`. -/
def atoi (s : Str) : Int32 :=
  match s.dropWhile isSpace with
  | '-' :: rest => Int32.ofInt (clampLong (-(digitsValue rest : Int)))
  | '+' :: rest => Int32.ofInt (clampLong (digitsValue rest))
  | rest => Int32.ofInt (clampLong (digitsValue rest))

/-- An `int` passes `atoi`'s conversions unchanged. -/
theorem ofInt_clampLong (n : Int32) : Int32.ofInt (clampLong n.toInt) = n := by
  have hlo := n.le_toInt
  have hhi := n.toInt_lt
  have hclamp : clampLong n.toInt = n.toInt := by
    unfold clampLong
    omega
  rw [hclamp, Int32.ofInt_toInt]

/-- `rfind`: the text before and after the last occurrence of a pattern. -/
def splitLast (pat : Str) : Str → Option (Str × Str)
  | [] => none
  | c :: cs =>
    match splitLast pat cs with
    | some (before, after) => some (c :: before, after)
    | none => if pat.isPrefixOf (c :: cs) then some ([], (c :: cs).drop pat.length) else none

/-- A string literal: quotes and backslashes get a backslash in front. -/
def quote (s : Str) : Str :=
  '"' :: (s.flatMap (fun c => if c = '"' ∨ c = '\\' then ['\\', c] else [c]) ++ ['"'])

/-- Every character of a printed natural number is a digit. -/
theorem isDigit_of_mem_toDigits {c : Char} {n : Nat} (h : c ∈ Nat.toDigits 10 n) :
    c.isDigit = true :=
  Nat.isDigit_of_mem_toDigits (by decide) (by decide) h

/-- A digit is neither a blank nor a sign. -/
theorem not_isSpace_of_isDigit {c : Char} (h : c.isDigit = true) :
    isSpace c = false ∧ c ≠ '-' ∧ c ≠ '+' := by
  refine ⟨?_, ?_, ?_⟩
  · by_contra hs
    simp only [isSpace, Bool.or_eq_true, decide_eq_true_eq, Bool.not_eq_false] at hs
    rcases hs with ((((rfl | rfl) | rfl) | rfl) | rfl) | rfl <;> exact absurd h (by decide)
  · rintro rfl; exact absurd h (by decide)
  · rintro rfl; exact absurd h (by decide)

/-- A digit run ends exactly where a non-digit starts. -/
theorem takeWhile_digits_append {ds rest : Str} (hd : ∀ c ∈ ds, c.isDigit = true)
    (hr : ∀ c, rest.head? = some c → c.isDigit = false) :
    (ds ++ rest).takeWhile Char.isDigit = ds ∧ (ds ++ rest).dropWhile Char.isDigit = rest := by
  induction ds with
  | nil =>
    cases rest with
    | nil => simp
    | cons c rest => simp [hr c rfl]
  | cons d ds ih =>
    have hcd : d.isDigit = true := hd d List.mem_cons_self
    obtain ⟨ht, hdrop⟩ := ih (fun c hc => hd c (List.mem_cons_of_mem d hc))
    exact ⟨by simp [hcd, ht], by simp [hcd, hdrop]⟩

/-- A printed natural number, followed by a non-digit, is read back exactly. -/
theorem digitsValue_toDigits (n : Nat) (rest : Str)
    (hr : ∀ c, rest.head? = some c → c.isDigit = false) :
    digitsValue (Nat.toDigits 10 n ++ rest) = n := by
  unfold digitsValue
  rw [(takeWhile_digits_append (fun c hc => isDigit_of_mem_toDigits hc) hr).1]
  exact Nat.ofDigitChars_toDigits (by decide) (by decide)

/-- A printed natural number starts with a digit. -/
theorem toDigits_cons (n : Nat) :
    ∃ d ds, Nat.toDigits 10 n = d :: ds ∧ d.isDigit = true := by
  cases h : Nat.toDigits 10 n with
  | nil => exact absurd h Nat.toDigits_ne_nil
  | cons d ds =>
    exact ⟨d, ds, rfl, isDigit_of_mem_toDigits (n := n) (by rw [h]; exact List.mem_cons_self)⟩

/-- `atoi` reads a digit run as the number it writes, cut down to `int`. -/
theorem atoi_digits {s : Str} (hd : ∀ c ∈ s, c.isDigit = true) :
    atoi s = Int32.ofInt (clampLong (digitsValue s)) := by
  unfold atoi
  cases s with
  | nil => rfl
  | cons d ds =>
    obtain ⟨hsp, hminus, hplus⟩ := not_isSpace_of_isDigit (hd d List.mem_cons_self)
    have hdrop : (d :: ds).dropWhile isSpace = d :: ds := by simp [hsp]
    rw [hdrop]
    split
    · rename_i heq; exact absurd (List.cons.inj heq).1 hminus
    · rename_i heq; exact absurd (List.cons.inj heq).1 hplus
    · rfl

/-- The digits of a printed natural number are worth the number. -/
theorem digitsValue_toDigits_self (n : Nat) : digitsValue (Nat.toDigits 10 n) = n := by
  simpa using digitsValue_toDigits n [] (by simp)

/-- **Numerals round-trip.**  `atoi` undoes `std::to_string` on an `int`. -/
theorem atoi_decimal (n : Int32) : atoi (decimal n.toInt) = n := by
  have hn := ofInt_clampLong n
  cases hval : n.toInt with
  | ofNat k =>
    rw [decimal, atoi_digits fun c hc => isDigit_of_mem_toDigits hc, digitsValue_toDigits_self]
    rw [hval] at hn
    exact hn
  | negSucc k =>
    have hsp : isSpace '-' = false := by decide
    have hneg : -((k + 1 : Nat) : Int) = Int.negSucc k := rfl
    simp only [atoi, decimal, List.dropWhile_cons, hsp, digitsValue_toDigits_self,
      Bool.false_eq_true, if_false, hneg]
    rw [hval] at hn
    exact hn

/-- Printing an integer uses no blank. -/
theorem decimal_not_isSpace {n : Int} {c : Char} (h : c ∈ decimal n) : isSpace c = false := by
  cases n with
  | ofNat n => exact (not_isSpace_of_isDigit (isDigit_of_mem_toDigits h)).1
  | negSucc n =>
    rcases List.mem_cons.mp h with rfl | h
    · decide
    · exact (not_isSpace_of_isDigit (isDigit_of_mem_toDigits h)).1

/-- Printing an integer prints something. -/
theorem decimal_ne_nil (n : Int) : decimal n ≠ [] := by
  cases n with
  | ofNat n => exact Nat.toDigits_ne_nil
  | negSucc n => exact List.cons_ne_nil _ _

/-- Where the head of the pattern does not occur, the pattern does not. -/
theorem splitLast_eq_none {p : Char} {ps s : Str} (h : p ∉ s) : splitLast (p :: ps) s = none := by
  induction s with
  | nil => rfl
  | cons c cs ih =>
    obtain ⟨hc, hcs⟩ := not_or.mp (fun hmem => h (List.mem_cons.mpr hmem))
    simp [splitLast, ih hcs, hc]

/-- The last occurrence is the one after which the head of the pattern is gone. -/
theorem splitLast_append (p : Char) (ps : Str) {after : Str} (before : Str) (hps : p ∉ ps)
    (hafter : p ∉ after) :
    splitLast (p :: ps) (before ++ (p :: ps ++ after)) = some (before, after) := by
  induction before with
  | nil =>
    have hnone : splitLast (p :: ps) (ps ++ after) = none :=
      splitLast_eq_none (by simp [hps, hafter])
    have hpre : (p :: ps).isPrefixOf (p :: ps ++ after) = true := by
      rw [List.isPrefixOf_iff_prefix]
      exact List.prefix_append _ _
    rw [List.nil_append, List.cons_append, splitLast, hnone]
    rw [List.cons_append] at hpre
    simp only [hpre, if_true]
    simp
  | cons c cs ih => simp only [List.cons_append, splitLast] at ih ⊢; simp [ih]

/-- What `splitLast` cuts out is the pattern. -/
theorem splitLast_some {pat s before after : Str} (h : splitLast pat s = some (before, after)) :
    s = before ++ (pat ++ after) := by
  induction s generalizing before with
  | nil => cases h
  | cons c cs ih =>
    rw [splitLast] at h
    cases hcs : splitLast pat cs with
    | some q =>
      obtain ⟨b, a⟩ := q
      simp only [hcs, Option.some.injEq, Prod.mk.injEq] at h
      obtain ⟨rfl, rfl⟩ := h
      rw [ih hcs]
      rfl
    | none =>
      simp only [hcs, Option.ite_none_right_eq_some, Option.some.injEq, Prod.mk.injEq] at h
      obtain ⟨hpre, rfl, rfl⟩ := h
      obtain ⟨t, ht⟩ := List.isPrefixOf_iff_prefix.mp hpre
      rw [← ht]
      simp

end Text

end Leviathan
