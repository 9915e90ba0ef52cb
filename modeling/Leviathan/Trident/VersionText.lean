import Leviathan.Trident.SemVer

/-!
# What a version text says

A version text writes three numbers, each a digit run of any length.  `Writes` says which, without
a reader; `parseSemVer` accepts exactly the texts that write some numbers, and cuts each of them
down to an `int`.  So the reader is faithful for the numbers below `2 ^ 31` and for no others:
past that bound a version changes its place in the order, or no longer prints.
-/

namespace Leviathan.Trident

/-- The numbers that a version text writes. -/
structure Numbers where
  major : Nat
  minor : Nat
  patch : Nat
deriving DecidableEq, Repr

/-- The lexicographic order of written numbers. -/
def Numbers.Before (n m : Numbers) : Prop :=
  n.major < m.major ∨ n.major = m.major ∧
    (n.minor < m.minor ∨ n.minor = m.minor ∧ n.patch < m.patch)

/-- Every number is an `int`. -/
def Numbers.Fits (n : Numbers) : Prop := n.major < 2 ^ 31 ∧ n.minor < 2 ^ 31 ∧ n.patch < 2 ^ 31

/-- A digit run. -/
def Digits (x : Str) : Prop := x ≠ [] ∧ ∀ c ∈ x, c.isDigit = true

/-- A text writes three numbers, with a tag letter or without. -/
def Writes (text : Str) (n : Numbers) : Prop :=
  ∃ tag x y z : Str, (tag = [] ∨ tag = ['v'] ∨ tag = ['V']) ∧ Digits x ∧ Digits y ∧ Digits z ∧
    text = tag ++ (x ++ '.' :: (y ++ '.' :: z)) ∧
    n = ⟨Text.digitsValue x, Text.digitsValue y, Text.digitsValue z⟩

/-- The numbers of a version are the written ones. -/
def Version.Is (v : Version) (n : Numbers) : Prop :=
  v.major.toInt = n.major ∧ v.minor.toInt = n.minor ∧ v.patch.toInt = n.patch

/-- The comparison of two versions is the one of the written numbers. -/
def ComparesAs (v w : Version) (n m : Numbers) : Prop :=
  (compareSemVer v w < 0 ↔ n.Before m) ∧ (compareSemVer v w = 0 ↔ n = m) ∧
    (0 < compareSemVer v w ↔ m.Before n)

/-- `atoi` of a digit run, by the number it writes. -/
def cutDown (n : Nat) : Int32 := Int32.ofInt (Text.clampLong n)

section Numbers

theorem cutDown_toInt (n : Nat) (hn : n < 2 ^ 31) : (cutDown n).toInt = n := by
  have hclamp : Text.clampLong n = n := by
    unfold Text.clampLong
    omega
  rw [cutDown, hclamp]
  exact Int32.toInt_ofInt_of_le (by omega) (by omega)

/-- **Only an `int` survives.** -/
theorem cutDown_toInt_iff (n : Nat) : (cutDown n).toInt = n ↔ n < 2 ^ 31 := by
  refine ⟨fun h => ?_, cutDown_toInt n⟩
  have hlt := (cutDown n).toInt_lt
  omega

theorem compareSemVer_neg_iff (v w : Version) : compareSemVer v w < 0 ↔ v < w := by
  have hpos := compareSemVer_pos_iff v w
  have hzero := compareSemVer_eq_zero_iff v w
  constructor
  · intro h
    refine lt_of_le_of_ne (not_lt.mp fun hlt => ?_) fun heq => ?_
    · have := hpos.mpr hlt
      omega
    · have := hzero.mpr heq
      omega
  · intro h
    have hnot : ¬0 < compareSemVer v w := fun hp => lt_asymm h (hpos.mp hp)
    have hne : compareSemVer v w ≠ 0 := fun h0 => ne_of_lt h (hzero.mp h0)
    omega

/-- Versions that are their numbers compare as the numbers do. -/
theorem Version.Is.compares {v w : Version} {n m : Numbers} (hv : v.Is n) (hw : w.Is m) :
    ComparesAs v w n m := by
  obtain ⟨hv₁, hv₂, hv₃⟩ := hv
  obtain ⟨hw₁, hw₂, hw₃⟩ := hw
  have hlt : ∀ {a b : Version} {i j : Numbers}, a.Is i → b.Is j → (a < b ↔ i.Before j) := by
    intro a b i j ha hb
    obtain ⟨ha₁, ha₂, ha₃⟩ := ha
    obtain ⟨hb₁, hb₂, hb₃⟩ := hb
    rw [Version.lt_iff, Numbers.Before]
    simp only [Int32.lt_iff_toInt_lt, ← Int32.toInt_inj, ha₁, ha₂, ha₃, hb₁, hb₂, hb₃]
    omega
  refine ⟨?_, ?_, ?_⟩
  · rw [compareSemVer_neg_iff]
    exact hlt ⟨hv₁, hv₂, hv₃⟩ ⟨hw₁, hw₂, hw₃⟩
  · rw [compareSemVer_eq_zero_iff]
    obtain ⟨v₁, v₂, v₃⟩ := v
    obtain ⟨w₁, w₂, w₃⟩ := w
    obtain ⟨n₁, n₂, n₃⟩ := n
    obtain ⟨m₁, m₂, m₃⟩ := m
    simp only [Version.mk.injEq, Numbers.mk.injEq, ← Int32.toInt_inj] at *
    omega
  · rw [compareSemVer_pos_iff]
    exact hlt ⟨hw₁, hw₂, hw₃⟩ ⟨hv₁, hv₂, hv₃⟩

end Numbers

section Reader

variable {text s rest : Str} {n m : Numbers}

theorem Digits.split {x : Str} (hx : Digits x)
    (hrest : ∀ c, rest.head? = some c → c.isDigit = false) :
    parseUInt (x ++ rest) = some (cutDown (Text.digitsValue x), rest) := by
  obtain ⟨htake, hdrop⟩ := Text.takeWhile_digits_append hx.2 hrest
  have hne : x.isEmpty = false := by
    rw [List.isEmpty_eq_false_iff]
    exact hx.1
  rw [parseUInt, htake, hdrop, hne, Text.atoi_digits hx.2]
  rfl

theorem parseUInt_some {k : Int32} (h : parseUInt s = some (k, rest)) :
    ∃ x, Digits x ∧ s = x ++ rest ∧ k = cutDown (Text.digitsValue x) := by
  unfold parseUInt at h
  by_cases hempty : (s.takeWhile Char.isDigit).isEmpty
  · rw [if_pos hempty] at h
    cases h
  · rw [if_neg hempty] at h
    cases h
    have hdigits : ∀ c ∈ s.takeWhile Char.isDigit, c.isDigit = true := fun c hc =>
      List.mem_takeWhile_imp hc
    refine ⟨s.takeWhile Char.isDigit, ⟨fun h => hempty ?_, hdigits⟩, ?_, ?_⟩
    · rw [h]
      rfl
    · exact List.takeWhile_append_dropWhile.symm
    · exact Text.atoi_digits hdigits

theorem dropDot_some (h : dropDot s = some rest) : s = '.' :: rest := by
  cases s with
  | nil => cases h
  | cons c cs =>
    rw [dropDot] at h
    by_cases hc : c = '.'
    · rw [if_pos hc] at h
      cases h
      rw [hc]
    · rw [if_neg hc] at h
      cases h

theorem dot_ends (rest : Str) : ∀ c, ('.' :: rest).head? = some c → c.isDigit = false := by
  intro c hc
  cases hc
  rfl

/-- What `parseTriple` accepts. -/
theorem parseTriple_some_iff {v : Version} :
    parseTriple s = some v ↔ ∃ x y z, Digits x ∧ Digits y ∧ Digits z ∧
      s = x ++ '.' :: (y ++ '.' :: z) ∧
      v = ⟨cutDown (Text.digitsValue x), cutDown (Text.digitsValue y),
        cutDown (Text.digitsValue z)⟩ := by
  constructor
  · intro h
    unfold parseTriple at h
    simp only [bind, Option.bind_eq_some_iff] at h
    obtain ⟨⟨k₁, s₁⟩, h₁, s₂, h₂, ⟨k₂, s₃⟩, h₃, s₄, h₄, ⟨k₃, s₅⟩, h₅, hend⟩ := h
    obtain ⟨x, hx, hsx, hkx⟩ := parseUInt_some h₁
    obtain ⟨y, hy, hsy, hky⟩ := parseUInt_some h₃
    obtain ⟨z, hz, hsz, hkz⟩ := parseUInt_some h₅
    have hdot₂ : s₁ = '.' :: s₂ := dropDot_some h₂
    have hdot₄ : s₃ = '.' :: s₄ := dropDot_some h₄
    simp only at hend
    by_cases hempty : s₅.isEmpty
    · rw [if_pos hempty] at hend
      cases hend
      have hs₅ : s₅ = [] := List.isEmpty_iff.mp hempty
      refine ⟨x, y, z, hx, hy, hz, ?_, ?_⟩
      · rw [hsx, hdot₂, hsy, hdot₄, hsz, hs₅, List.append_nil]
      · rw [hkx, hky, hkz]
    · rw [if_neg hempty] at hend
      cases hend
  · intro h
    obtain ⟨x, y, z, hx, hy, hz, hs, hv⟩ := h
    have hlast : parseUInt (z ++ []) = some (cutDown (Text.digitsValue z), []) :=
      hz.split fun c hc => nomatch hc
    rw [List.append_nil] at hlast
    simp [hs, hv, parseTriple, hx.split (dot_ends _), hy.split (dot_ends _), dropDot, hlast]

/-- A tag letter is dropped, a digit is not. -/
theorem dropTagLetter_append {tag x : Str} (htag : tag = [] ∨ tag = ['v'] ∨ tag = ['V'])
    (hx : Digits x) : dropTagLetter (tag ++ (x ++ rest)) = x ++ rest := by
  obtain htag | htag | htag := htag
  · subst htag
    match x, hx with
    | [], hx => exact absurd rfl hx.1
    | c :: cs, hx =>
      have hdigit := hx.2 c List.mem_cons_self
      have hletter : ¬(c = 'v' ∨ c = 'V') := by
        intro h
        obtain h | h := h
        · subst h
          exact absurd hdigit (by decide)
        · subst h
          exact absurd hdigit (by decide)
      show dropTagLetter (c :: (cs ++ rest)) = c :: (cs ++ rest)
      rw [dropTagLetter, if_neg hletter]
  · rw [htag]
    rfl
  · rw [htag]
    rfl

theorem exists_tag (text : Str) : ∃ tag : Str, (tag = [] ∨ tag = ['v'] ∨ tag = ['V']) ∧
    text = tag ++ dropTagLetter text := by
  cases text with
  | nil => exact ⟨[], Or.inl rfl, rfl⟩
  | cons c cs =>
    by_cases hv : c = 'v'
    · subst hv
      exact ⟨['v'], Or.inr (Or.inl rfl), rfl⟩
    · by_cases hV : c = 'V'
      · subst hV
        exact ⟨['V'], Or.inr (Or.inr rfl), rfl⟩
      · refine ⟨[], Or.inl rfl, ?_⟩
        rw [dropTagLetter, if_neg fun h => h.elim hv hV]
        rfl

/-- **The reader accepts the texts that write numbers**, and cuts the numbers down. -/
theorem parseSemVer_ok_iff {v : Version} :
    parseSemVer text = .ok v ↔ ∃ n : Numbers, Writes text n ∧
      v = ⟨cutDown n.major, cutDown n.minor, cutDown n.patch⟩ := by
  have hparse : parseSemVer text = .ok v ↔ parseTriple (dropTagLetter text) = some v := by
    rw [parseSemVer]
    cases parseTriple (dropTagLetter text) with
    | none => exact ⟨(fun h => by cases h), fun h => by cases h⟩
    | some w => exact ⟨fun h => congrArg some (Except.ok.inj h),
        fun h => congrArg Except.ok (Option.some.inj h)⟩
  rw [hparse, parseTriple_some_iff]
  constructor
  · intro h
    obtain ⟨x, y, z, hx, hy, hz, hs, hv⟩ := h
    obtain ⟨tag, htag, htext⟩ := exists_tag text
    exact ⟨_, ⟨tag, x, y, z, htag, hx, hy, hz, hs ▸ htext, rfl⟩, hv⟩
  · intro h
    obtain ⟨n, ⟨tag, x, y, z, htag, hx, hy, hz, htext, hn⟩, hv⟩ := h
    refine ⟨x, y, z, hx, hy, hz, ?_, ?_⟩
    · rw [htext, dropTagLetter_append htag hx]
    · rw [hv, hn]

/-- A digit run up to a dot is read off. -/
theorem Digits.inj {x x' rest' : Str} (hx : Digits x) (hx' : Digits x')
    (hrest : ∀ c, rest.head? = some c → c.isDigit = false)
    (hrest' : ∀ c, rest'.head? = some c → c.isDigit = false)
    (h : x ++ rest = x' ++ rest') : x = x' ∧ rest = rest' := by
  obtain ⟨htake, hdrop⟩ := Text.takeWhile_digits_append hx.2 hrest
  obtain ⟨htake', hdrop'⟩ := Text.takeWhile_digits_append hx'.2 hrest'
  rw [h] at htake hdrop
  exact ⟨htake.symm.trans htake', hdrop.symm.trans hdrop'⟩

/-- A text writes its numbers only. -/
theorem Writes.unique (hn : Writes text n) (hm : Writes text m) : n = m := by
  obtain ⟨tag, x, y, z, htag, hx, hy, hz, htext, hn⟩ := hn
  obtain ⟨tag', x', y', z', htag', hx', hy', hz', htext', hm⟩ := hm
  have heq : x ++ '.' :: (y ++ '.' :: z) = x' ++ '.' :: (y' ++ '.' :: z') := by
    rw [← dropTagLetter_append htag hx, ← dropTagLetter_append htag' hx', ← htext, ← htext']
  obtain ⟨hxx, hrest⟩ := hx.inj hx' (dot_ends _) (dot_ends _) heq
  obtain ⟨hyy, hrest'⟩ := hy.inj hy' (dot_ends _) (dot_ends _) (List.cons.inj hrest).2
  rw [hn, hm, hxx, hyy, (List.cons.inj hrest').2]

/-- The reader keeps the written numbers when they fit, and only then. -/
theorem is_iff_fits {v : Version} (hv : parseSemVer text = .ok v) (hn : Writes text n) :
    v.Is n ↔ n.Fits := by
  obtain ⟨n', hn', hvn⟩ := parseSemVer_ok_iff.mp hv
  cases hn.unique hn'
  subst hvn
  rw [Version.Is, Numbers.Fits, cutDown_toInt_iff, cutDown_toInt_iff, cutDown_toInt_iff]

/-- **Reading a version is faithful exactly below `2 ^ 31`.**  The compare is the total order of
the versions for all inputs; two accepted texts are read as the numbers they write, are read
again from their printed form, and compare as they are written if and only if every number is
an `int`. -/
theorem parseSemVer_faithful_iff {text text' : Str} {v w : Version}
    (hv : parseSemVer text = .ok v) (hw : parseSemVer text' = .ok w) :
    ((compareSemVer v w < 0 ↔ v < w) ∧ (compareSemVer v w = 0 ↔ v = w) ∧
      (0 < compareSemVer v w ↔ w < v)) ∧
    ∃ n m : Numbers, Writes text n ∧ Writes text' m ∧
      ((v.Is n ∧ w.Is m ∧ v.PrintsBack ∧ w.PrintsBack ∧ ComparesAs v w n m) ↔
        n.Fits ∧ m.Fits) := by
  obtain ⟨n, hn, _⟩ := parseSemVer_ok_iff.mp hv
  obtain ⟨m, hm, _⟩ := parseSemVer_ok_iff.mp hw
  refine ⟨⟨compareSemVer_neg_iff v w, compareSemVer_eq_zero_iff v w, compareSemVer_pos_iff v w⟩,
    n, m, hn, hm, ?_⟩
  rw [← is_iff_fits hv hn, ← is_iff_fits hw hm]
  constructor
  · intro h
    exact ⟨h.1, h.2.1⟩
  · intro h
    obtain ⟨hvn, hwm⟩ := h
    have hprints : ∀ {u : Version} {k : Numbers}, u.Is k → u.PrintsBack := by
      intro u k hu
      obtain ⟨h₁, h₂, h₃⟩ := hu
      exact parseSemVer_formatSemVer (by omega) (by omega) (by omega)
    exact ⟨hvn, hwm, hprints hvn, hprints hwm, hvn.compares hwm⟩

/-- Two tags of one version. -/
theorem parseSemVer_faithful_tag : ∃ n m : Numbers,
    Writes "v1.02.3".toList n ∧ Writes "1.2.4".toList m ∧
      (((⟨1, 2, 3⟩ : Version).Is n ∧ (⟨1, 2, 4⟩ : Version).Is m ∧
        (⟨1, 2, 3⟩ : Version).PrintsBack ∧ (⟨1, 2, 4⟩ : Version).PrintsBack ∧
        ComparesAs ⟨1, 2, 3⟩ ⟨1, 2, 4⟩ n m) ↔ n.Fits ∧ m.Fits) :=
  (parseSemVer_faithful_iff
    (by decide : parseSemVer "v1.02.3".toList = .ok ⟨1, 2, 3⟩)
    (by decide : parseSemVer "1.2.4".toList = .ok ⟨1, 2, 4⟩)).2

/-- A number past the range of `int` is cut down, and the version moves below a lower one. -/
theorem parseSemVer_wraps :
    parseSemVer "4294967297.0.0".toList = .ok ⟨1, 0, 0⟩ ∧ parseSemVer "2.0.0".toList = .ok ⟨2, 0, 0⟩ ∧
    compareSemVer ⟨1, 0, 0⟩ ⟨2, 0, 0⟩ < 0 ∧
    ∀ n m : Numbers, Writes "4294967297.0.0".toList n → Writes "2.0.0".toList m →
      ¬(⟨1, 0, 0⟩ : Version).Is n ∧ m.Before n := by
  have hv : parseSemVer "4294967297.0.0".toList = .ok ⟨1, 0, 0⟩ := by decide
  have hw : parseSemVer "2.0.0".toList = .ok ⟨2, 0, 0⟩ := by decide
  have hn : Writes "4294967297.0.0".toList ⟨4294967297, 0, 0⟩ :=
    ⟨[], "4294967297".toList, ['0'], ['0'], Or.inl rfl, by simp [Digits], by simp [Digits],
      by simp [Digits], rfl, by decide⟩
  have hm : Writes "2.0.0".toList ⟨2, 0, 0⟩ :=
    ⟨[], ['2'], ['0'], ['0'], Or.inl rfl, by simp [Digits], by simp [Digits], by simp [Digits],
      rfl, by decide⟩
  refine ⟨hv, hw, by decide, fun n m hn' hm' => ?_⟩
  cases hn.unique hn'
  cases hm.unique hm'
  refine ⟨fun h => ?_, Or.inl (by decide)⟩
  exact absurd ((is_iff_fits hv hn).mp h).1 (by decide)

end Reader

end Leviathan.Trident
