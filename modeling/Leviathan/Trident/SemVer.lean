import Leviathan.Lib.Text

/-!
# Modules, versions and requirements

The values trident's resolver works on (`provider.hpp`, `manifest.hpp`) and the
version syntax of `semver.cpp`: a version is read from `MAJOR.MINOR.PATCH` with
an optional leading `v`, printed without one, and compared number by number.

The numbers of a version are `int`s.  A digit run past the range of `int` is cut
down by `atoi`, and the number it leaves can be negative; such a version prints
with a minus sign, which the reader refuses.  So reading undoes printing exactly
for the versions without a negative number (`parseSemVer_formatSemVer`,
`Version.printsBack_iff`), and the three-way compare is the lexicographic order
(`compareSemVer_pos_iff`).
-/

namespace Leviathan.Trident

/-- `struct Version`. -/
structure Version where
  major : Int32 := 0
  minor : Int32 := 0
  patch : Int32 := 0
deriving DecidableEq, Repr

/-- `struct ModuleId`: a module is a VCS path together with a major. -/
structure ModuleId where
  path : Str
  major : Int32 := 0
deriving DecidableEq, Repr

/-- `struct Require`: a requirer needs `mod` at least at `min`. -/
structure Require where
  mod : ModuleId
  min : Version
  as_ : Str := []
  dev : Bool := false
deriving DecidableEq, Repr

/-- `struct BuildListEntry`: one selected module. -/
structure BuildListEntry where
  mod : ModuleId
  selected : Version
  contentHash : Str := []
  storeDir : Str := []
  requires_ : List Require := []
deriving DecidableEq, Repr

/-- `enum class DepKind`. -/
inductive DepKind where
  | Local
  | Vcs
deriving DecidableEq, Repr

/-- `struct Dependency`. -/
structure Dependency where
  path : Str
  version : Str := []
  as_ : Str := []
  dev : Bool := false
  kind : DepKind := .Local
deriving DecidableEq, Repr

/-- `struct ProjectManifest`. -/
structure ProjectManifest where
  name : Str := []
  entry : Str := []
  sources : List Str := []
  assets : List Str := []
  deps : List Dependency := []
  version : Str := []
  out : Str := []
deriving DecidableEq, Repr

/-- Versions are ordered number by number. -/
instance : LinearOrder Version :=
  LinearOrder.lift'
    (fun v : Version => toLex (v.major.toInt, toLex (v.minor.toInt, v.patch.toInt))) (by
      intro a b h
      cases a
      cases b
      simpa [Int32.toInt_inj] using h)

/-- Modules are ordered by path, then by major: `ModuleId::operator<`. -/
instance : LinearOrder ModuleId :=
  LinearOrder.lift' (fun m : ModuleId => toLex (m.path, m.major.toInt)) (by
    intro a b h
    cases a
    cases b
    simpa [Int32.toInt_inj] using h)

instance : Std.LawfulEqCmp (compare : ModuleId → ModuleId → Ordering) :=
  ⟨compare_eq_iff_eq.mp⟩

/-- `compareSemVer`: negative, zero or positive. -/
def compareSemVer (a b : Version) : Int :=
  if a.major ≠ b.major then (if a.major < b.major then -1 else 1)
  else if a.minor ≠ b.minor then (if a.minor < b.minor then -1 else 1)
  else if a.patch ≠ b.patch then (if a.patch < b.patch then -1 else 1)
  else 0

/-- The order on versions, number by number. -/
theorem Version.lt_iff (a b : Version) :
    a < b ↔ a.major < b.major ∨ a.major = b.major ∧
      (a.minor < b.minor ∨ a.minor = b.minor ∧ a.patch < b.patch) := by
  show toLex (a.major.toInt, toLex (a.minor.toInt, a.patch.toInt)) <
    toLex (b.major.toInt, toLex (b.minor.toInt, b.patch.toInt)) ↔ _
  rw [Prod.Lex.toLex_lt_toLex, Prod.Lex.toLex_lt_toLex]
  simp only [Int32.lt_iff_toInt_lt, Int32.toInt_inj]

/-- A positive comparison says that the first version is the higher one. -/
theorem compareSemVer_pos_iff (a b : Version) : 0 < compareSemVer a b ↔ b < a := by
  rw [Version.lt_iff]
  unfold compareSemVer
  simp only [ne_eq, Int32.lt_iff_toInt_lt, ← Int32.toInt_inj]
  generalize a.major.toInt = a₁, a.minor.toInt = a₂, a.patch.toInt = a₃
  generalize b.major.toInt = b₁, b.minor.toInt = b₂, b.patch.toInt = b₃
  split_ifs <;> simp <;> omega

/-- A zero comparison says that the versions are equal. -/
theorem compareSemVer_eq_zero_iff (a b : Version) : compareSemVer a b = 0 ↔ a = b := by
  obtain ⟨a₁, a₂, a₃⟩ := a
  obtain ⟨b₁, b₂, b₃⟩ := b
  simp only [compareSemVer, Version.mk.injEq, ne_eq, Int32.lt_iff_toInt_lt, ← Int32.toInt_inj]
  generalize a₁.toInt = a₁, a₂.toInt = a₂, a₃.toInt = a₃
  generalize b₁.toInt = b₁, b₂.toInt = b₂, b₃.toInt = b₃
  split_ifs <;> simp <;> omega

/-- `parseUInt`: a non-empty digit run and what follows it. -/
def parseUInt (s : Str) : Option (Int32 × Str) :=
  if (s.takeWhile Char.isDigit).isEmpty then none
  else some (Text.atoi (s.takeWhile Char.isDigit), s.dropWhile Char.isDigit)

/-- The error text of `parseSemVer`. -/
def badVersion (text : Str) : Str :=
  "'".toList ++ text ++
    "' is not a valid version (expected MAJOR.MINOR.PATCH, e.g. \"1.2.0\" or \"v1.2.0\")".toList

/-- The text without the optional leading `v` or `V` of a git tag. -/
def dropTagLetter : Str → Str
  | [] => []
  | c :: cs => if c = 'v' ∨ c = 'V' then cs else c :: cs

/-- The text after one `.`. -/
def dropDot : Str → Option Str
  | [] => none
  | c :: cs => if c = '.' then some cs else none

/-- The three numbers of a version and nothing after them. -/
def parseTriple (s : Str) : Option Version := do
  let (major, s) ← parseUInt s
  let s ← dropDot s
  let (minor, s) ← parseUInt s
  let s ← dropDot s
  let (patch, s) ← parseUInt s
  if s.isEmpty then some ⟨major, minor, patch⟩ else none

/-- `parseSemVer`. -/
def parseSemVer (text : Str) : Except Str Version :=
  match parseTriple (dropTagLetter text) with
  | some v => .ok v
  | none => .error (badVersion text)

/-- `formatSemVer`. -/
def formatSemVer (v : Version) : Str :=
  Text.decimal v.major.toInt ++ ".".toList ++ Text.decimal v.minor.toInt ++ ".".toList ++
    Text.decimal v.patch.toInt

/-- A printed version is read back as it was. -/
def Version.PrintsBack (v : Version) : Prop := parseSemVer (formatSemVer v) = .ok v

instance (v : Version) : Decidable v.PrintsBack :=
  inferInstanceAs (Decidable (parseSemVer (formatSemVer v) = .ok v))

/-- A printed number followed by a non-digit is one `parseUInt` away. -/
theorem parseUInt_decimal {n : Int32} (hn : 0 ≤ n.toInt) (rest : Str)
    (hr : ∀ c, rest.head? = some c → c.isDigit = false) :
    parseUInt (Text.decimal n.toInt ++ rest) = some (n, rest) := by
  obtain ⟨k, hk⟩ := Int.eq_ofNat_of_zero_le hn
  have hdigits : ∀ c ∈ Text.decimal n.toInt, c.isDigit = true := by
    rw [hk]
    exact fun c hc => Text.isDigit_of_mem_toDigits hc
  obtain ⟨htake, hdrop⟩ := Text.takeWhile_digits_append hdigits hr
  have hne : (Text.decimal n.toInt).isEmpty = false := by
    simp [Text.decimal_ne_nil]
  rw [parseUInt, htake, hdrop, hne, Text.atoi_decimal]
  simp

/-- A negative number is not one `parseUInt` reads. -/
theorem parseUInt_decimal_neg {n : Int} (hn : n < 0) (rest : Str) :
    parseUInt (Text.decimal n ++ rest) = none := by
  obtain ⟨k, rfl⟩ := Int.eq_negSucc_of_lt_zero hn
  have hminus : Char.isDigit '-' = false := by decide
  simp [parseUInt, Text.decimal, hminus]

/-- A printed version starts with a digit or a sign, so no tag letter is dropped. -/
private theorem dropTagLetter_decimal (n : Int) (rest : Str) :
    dropTagLetter (Text.decimal n ++ rest) = Text.decimal n ++ rest := by
  cases n with
  | ofNat n =>
    obtain ⟨d, ds, hd, hdigit⟩ := Text.toDigits_cons n
    have hletter : ¬ (d = 'v' ∨ d = 'V') := by
      rintro (rfl | rfl) <;> exact absurd hdigit (by decide)
    rw [Text.decimal, hd, List.cons_append, dropTagLetter, if_neg hletter]
  | negSucc n => rfl

/-- A printed version, cut at its dots. -/
private theorem formatSemVer_eq (v : Version) : formatSemVer v = Text.decimal v.major.toInt ++ '.' ::
    (Text.decimal v.minor.toInt ++ '.' :: (Text.decimal v.patch.toInt ++ [])) := by
  simp [formatSemVer]

/-- Reading a printed version is reading its three numbers. -/
private theorem parseSemVer_formatSemVer_eq (v : Version) :
    parseSemVer (formatSemVer v) = match parseTriple (formatSemVer v) with
      | some v => .ok v
      | none => .error (badVersion (formatSemVer v)) := by
  rw [parseSemVer, formatSemVer_eq, dropTagLetter_decimal]

/-- A printed version has no `@`. -/
theorem at_not_mem_formatSemVer (v : Version) : '@' ∉ formatSemVer v := by
  have hdecimal : ∀ n : Int, '@' ∉ Text.decimal n := by
    intro n hmem
    cases n with
    | ofNat n => exact absurd (Text.isDigit_of_mem_toDigits hmem) (by decide)
    | negSucc n =>
      rcases List.mem_cons.mp hmem with h | h
      · exact absurd h (by decide)
      · exact absurd (Text.isDigit_of_mem_toDigits h) (by decide)
  simp [formatSemVer, hdecimal]

/-- No digit run goes on past a dot. -/
private theorem dot_not_digit (rest : Str) :
    ∀ c, ('.' :: rest).head? = some c → c.isDigit = false := by
  intro c hc
  obtain rfl : '.' = c := by simpa using hc
  decide

/-- **Versions round-trip.**  `parseSemVer` undoes `formatSemVer` where no number is
negative. -/
theorem parseSemVer_formatSemVer {v : Version} (hmajor : 0 ≤ v.major.toInt)
    (hminor : 0 ≤ v.minor.toInt) (hpatch : 0 ≤ v.patch.toInt) : v.PrintsBack := by
  have hlast : parseUInt (Text.decimal v.patch.toInt) = some (v.patch, []) := by
    simpa using parseUInt_decimal hpatch [] (by simp)
  have htriple : parseTriple (formatSemVer v) = some v := by
    rw [formatSemVer_eq]
    simp [parseTriple, dropDot, parseUInt_decimal hmajor _ (dot_not_digit _),
      parseUInt_decimal hminor _ (dot_not_digit _), hlast]
  rw [Version.PrintsBack, parseSemVer_formatSemVer_eq, htriple]

/-- What `parseUInt` reads from a printed number is the number, which is not negative. -/
private theorem parseUInt_decimal_some {n m : Int32} {rest rest' : Str}
    (hr : ∀ c, rest.head? = some c → c.isDigit = false)
    (h : parseUInt (Text.decimal n.toInt ++ rest) = some (m, rest')) :
    0 ≤ n.toInt ∧ m = n ∧ rest' = rest := by
  have hn : 0 ≤ n.toInt := by
    by_contra hneg
    rw [parseUInt_decimal_neg (by omega)] at h
    cases h
  rw [parseUInt_decimal hn rest hr] at h
  obtain ⟨rfl, rfl⟩ := Prod.mk.inj (Option.some.inj h)
  exact ⟨hn, rfl, rfl⟩

/-- The three numbers of a version, one after the other. -/
private theorem parseTriple_some {s : Str} {v : Version} (h : parseTriple s = some v) :
    ∃ s₁ s₂ s₃ s₄ s₅, parseUInt s = some (v.major, s₁) ∧ dropDot s₁ = some s₂ ∧
      parseUInt s₂ = some (v.minor, s₃) ∧ dropDot s₃ = some s₄ ∧
      parseUInt s₄ = some (v.patch, s₅) := by
  unfold parseTriple at h
  simp only [bind, Option.bind_eq_some_iff] at h
  obtain ⟨⟨major, s₁⟩, h₁, s₂, h₂, ⟨minor, s₃⟩, h₃, s₄, h₄, ⟨patch, s₅⟩, h₅, hend⟩ := h
  split at hend
  · obtain rfl := Option.some.inj hend
    exact ⟨s₁, s₂, s₃, s₄, s₅, h₁, h₂, h₃, h₄, h₅⟩
  · cases hend

/-- A printed version that can be read has no negative number and is read back. -/
theorem parseSemVer_formatSemVer_ok {v w : Version} (h : parseSemVer (formatSemVer v) = .ok w) :
    w = v ∧ 0 ≤ v.major.toInt ∧ 0 ≤ v.minor.toInt ∧ 0 ≤ v.patch.toInt := by
  rw [parseSemVer_formatSemVer_eq] at h
  cases htriple : parseTriple (formatSemVer v) with
  | none => rw [htriple] at h; cases h
  | some v' =>
    rw [htriple] at h
    obtain rfl := Except.ok.inj h
    obtain ⟨s₁, s₂, s₃, s₄, s₅, h₁, h₂, h₃, h₄, h₅⟩ := parseTriple_some htriple
    rw [formatSemVer_eq] at h₁
    obtain ⟨hmajor, hmaj, rfl⟩ := parseUInt_decimal_some (dot_not_digit _) h₁
    obtain rfl := Option.some.inj h₂
    obtain ⟨hminor, hmin, rfl⟩ := parseUInt_decimal_some (dot_not_digit _) h₃
    obtain rfl := Option.some.inj h₄
    obtain ⟨hpatch, hpat, rfl⟩ := parseUInt_decimal_some (by simp) h₅
    refine ⟨?_, hmajor, hminor, hpatch⟩
    cases v
    cases v'
    simp_all

/-- A printed version without a negative number, and no other, is read back. -/
theorem Version.printsBack_iff (v : Version) :
    v.PrintsBack ↔ 0 ≤ v.major.toInt ∧ 0 ≤ v.minor.toInt ∧ 0 ≤ v.patch.toInt :=
  ⟨fun h => (parseSemVer_formatSemVer_ok h).2, fun ⟨hmajor, hminor, hpatch⟩ =>
    parseSemVer_formatSemVer hmajor hminor hpatch⟩

/-- A printed number has no dot. -/
private theorem dot_not_mem_decimal (n : Int) : ∀ c ∈ Text.decimal n, (c == '.') = false := by
  intro c hc
  rw [beq_eq_false_iff_ne]
  rintro rfl
  cases n with
  | ofNat n => exact absurd (Text.isDigit_of_mem_toDigits hc) (by decide)
  | negSucc n =>
    rcases List.mem_cons.mp hc with h | h
    · exact absurd h (by decide)
    · exact absurd (Text.isDigit_of_mem_toDigits h) (by decide)

/-- The parts of a printed version are its numbers. -/
private theorem splitOnP_formatSemVer (v : Version) : (formatSemVer v).splitOnP (· == '.') =
    [Text.decimal v.major.toInt, Text.decimal v.minor.toInt, Text.decimal v.patch.toInt] := by
  rw [formatSemVer_eq, List.append_nil,
    List.splitOnP_append_cons_of_forall_mem (dot_not_mem_decimal _) '.' rfl,
    List.splitOnP_append_cons_of_forall_mem (dot_not_mem_decimal _) '.' rfl,
    List.splitOnP_eq_singleton (dot_not_mem_decimal _)]

/-- Different versions print differently. -/
theorem formatSemVer_injective {v w : Version} (h : formatSemVer v = formatSemVer w) : v = w := by
  have hparts := splitOnP_formatSemVer v
  rw [h, splitOnP_formatSemVer w] at hparts
  simp only [List.cons.injEq, and_true] at hparts
  have hnum : ∀ {m n : Int32}, Text.decimal m.toInt = Text.decimal n.toInt → n = m := by
    intro m n hmn
    rw [← Text.atoi_decimal m, ← Text.atoi_decimal n, hmn]
  obtain ⟨hmajor, hminor, hpatch⟩ := hparts
  cases v
  cases w
  rw [Version.mk.injEq]
  exact ⟨hnum hmajor, hnum hminor, hnum hpatch⟩

end Leviathan.Trident
