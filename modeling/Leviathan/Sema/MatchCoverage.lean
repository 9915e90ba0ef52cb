import Leviathan.Sema.MatchArms

/-!
# What the check of a `match` leaves open

The checker counts coverage by the spelling of a type and of a member's name, the engine
tests the kind of a value and its class.  The spelling decides only for a member that is
spelled like one of the built-in kinds and has no other values
(`valueIsType_of_canonical`).  For every other kind of value a member has, the arms must
take it by the symbols they resolve to, or by the values they are equal to: that is
`Covers`, and it is exactly what an accepted match needs to take every value
(`matchArm_iff_covers`).

An array is a value of the interfaces of `Array`, but a type arm takes objects only; and
an enum is a struct with a public constructor, so that its members are not all its values
(`values_outside`).
-/

namespace Leviathan.Sema

/-! ### The built-in words -/

/-- The names `valueIsType` tests by kind. -/
def builtinWords : List Str :=
  ["None".toList, "int".toList, "char".toList, "string".toList, "bool".toList, "float".toList,
    "Array".toList, "Map".toList, "Block".toList, "Ast".toList]

variable {w : Str}

theorem mem_builtinWords {ι : Type} {k : Kind ι} (h : kindOfWord w = some k) :
    w ∈ builtinWords := by
  unfold kindOfWord at h
  unfold builtinWords
  simp only [List.mem_cons, List.not_mem_nil, or_false]
  split_ifs at h <;> simp_all only [true_or, or_true]

/-- A built-in word has none of the marks that types are written with. -/
theorem builtinWords_plain : ∀ w ∈ builtinWords,
    w ≠ [] ∧ w ≠ "var".toList ∧ ∀ c ∈ [' ', ':', '<', '('], c ∉ w := by
  intro w hw
  simp only [builtinWords, List.mem_cons, List.not_mem_nil, or_false] at hw
  rcases hw with rfl | rfl | rfl | rfl | rfl | rfl | rfl | rfl | rfl | rfl <;> simp

@[simp] theorem arithEq_int {ι F : Type} (fl : FloatOps F) (a b : Int) :
    arithEq fl (.int a : Val ι F) (.int b) = decide (a = b) := rfl

@[simp] theorem Val.field_ord {ι F : Type} (cls : ι) (ref : Nat) (v : Val ι F) :
    (Val.object cls ref [("_ord".toList, v)]).field "_ord".toList = v := rfl

variable {c c' : Coverage}

section
variable {σ ι δ κ F : Type} [DecidableEq ι] {p : MatchModel σ ι δ κ F}

namespace MatchModel

theorem valueIsTypeAny_iff {scope : σ} {k : Kind ι} {ts : List (TypeRef ι)} :
    p.valueIsTypeAny scope k ts = true ↔ ∃ t ∈ ts, p.valueIsType scope k t = true := by
  induction ts with
  | nil => simp [valueIsTypeAny]
  | cons t ts ih => simp [valueIsTypeAny, ih]

theorem holdsAny_iff {k : Kind ι} {ms : List (Ty ι)} :
    p.HoldsAny k ms ↔ ∃ m ∈ ms, p.Holds k m := by
  induction ms with
  | nil => simp [HoldsAny]
  | cons m ms ih => simp [HoldsAny, ih]

/-- A type that is spelled like a built-in kind is tested by that kind. -/
theorem valueIsType_of_canonical {scope : σ} {k : Kind ι} (hw : kindOfWord w = some k)
    (t : TypeRef ι) (ht : t.canonical = w) : p.valueIsType scope k t = true := by
  obtain ⟨hne, hvar, hmarks⟩ := builtinWords_plain w (mem_builtinWords hw)
  induction t using TypeRef.induction with
  | inferred => exact absurd ht.symm hvar
  | function params ret =>
    refine absurd ?_ (hmarks '(' (by simp))
    rw [← ht, TypeRef.canonical]
    simp
  | named path name generics hygiene =>
    rw [TypeRef.canonical, TypeRef.qualName] at ht
    cases hpath : path with
    | cons seg path =>
      refine absurd ?_ (hmarks ':' (by simp))
      rw [← ht, hpath]
      simp
    | nil =>
      cases hgen : generics with
      | cons g generics =>
        refine absurd ?_ (hmarks '<' (by simp))
        rw [← ht, hgen]
        simp
      | nil =>
        have hname : name = w := by simpa [hpath, hgen] using ht
        rw [valueIsType, hname]
        unfold valueIsNamed
        rw [hw]
        exact decide_eq_true rfl
  | union members ih =>
    rw [valueIsType, valueIsTypeAny_iff]
    rw [TypeRef.canonical, TypeRef.canonicals_eq_map] at ht
    match members, ih, ht with
    | [], _, ht => exact absurd ht.symm hne
    | [m], ih, ht => exact ⟨m, by simp, ih m (by simp) (by simpa using ht)⟩
    | m :: n :: ms, _, ht =>
      refine absurd ?_ (hmarks ' ' (by simp))
      rw [← ht]
      simp [List.intercalate]

/-! ### What the checker has seen -/

section
variable [DecidableEq δ]

/-- A pattern is no type arm and no `else`. -/
theorem checkPattern_ok {pat : Pattern δ κ} (h : p.checkPattern c pat = .ok c') :
    c'.covered = c.covered ∧ c'.hasElse = c.hasElse := by
  cases pat with
  | member text resolved =>
    rw [checkPattern] at h
    split_ifs at h <;> cases h <;> exact ⟨rfl, rfl⟩
  | range lo hi =>
    cases h
    exact ⟨rfl, rfl⟩
  | expr e =>
    cases h
    exact ⟨rfl, rfl⟩

theorem checkArm_value {pat : Pattern δ κ} {type : Ty ι}
    (h : p.checkArm c (.value pat type) = .ok c') : p.checkPattern c pat = .ok c' := by
  cases type with
  | typeValue sym canonical => cases h
  | _ => exact h

/-- The spelling of a type arm is gathered, and nothing else. -/
theorem covered_of_checkArm {arm : MatchArm ι δ κ} (h : p.checkArm c arm = .ok c')
    (hw : w ∈ c'.covered) :
    w ∈ c.covered ∨ ∃ t, arm = .type t ∧ t.canonical = w := by
  cases arm with
  | isElse =>
    cases h
    exact .inl hw
  | type t =>
    cases h
    rw [List.mem_append, List.mem_singleton] at hw
    rcases hw with hw | hw
    · exact .inl hw
    · exact .inr ⟨t, rfl, hw.symm⟩
  | value pat type =>
    rw [(checkPattern_ok (checkArm_value h)).1] at hw
    exact .inl hw

theorem covered_of_checkArms {arms : List (MatchArm ι δ κ)} (h : arms.foldlM p.checkArm c = .ok c')
    (hw : w ∈ c'.covered) :
    w ∈ c.covered ∨ ∃ t, MatchArm.type t ∈ arms ∧ t.canonical = w := by
  induction arms generalizing c with
  | nil =>
    cases h
    exact .inl hw
  | cons arm arms ih =>
    rw [List.foldlM_cons] at h
    cases hstep : p.checkArm c arm with
    | error e =>
      rw [hstep] at h
      cases h
    | ok c₁ =>
      rw [hstep] at h
      rcases ih h with hw₁ | ⟨t, ht, htw⟩
      · rcases covered_of_checkArm hstep hw₁ with hw₀ | ⟨t, rfl, htw⟩
        · exact .inl hw₀
        · exact .inr ⟨t, List.mem_cons_self .., htw⟩
      · exact .inr ⟨t, List.mem_cons_of_mem _ ht, htw⟩

theorem hasElse_of_checkArm {arm : MatchArm ι δ κ} (h : p.checkArm c arm = .ok c')
    (hno : arm ≠ .isElse) : c'.hasElse = c.hasElse := by
  cases arm with
  | isElse => exact absurd rfl hno
  | type t =>
    cases h
    rfl
  | value pat type => exact (checkPattern_ok (checkArm_value h)).2

theorem hasElse_of_checkArms {arms : List (MatchArm ι δ κ)} (h : arms.foldlM p.checkArm c = .ok c')
    (hno : MatchArm.isElse ∉ arms) :
    c'.hasElse = c.hasElse := by
  induction arms generalizing c with
  | nil =>
    cases h
    rfl
  | cons arm arms ih =>
    rw [List.foldlM_cons] at h
    cases hstep : p.checkArm c arm with
    | error e =>
      rw [hstep] at h
      cases h
    | ok c₁ =>
      rw [hstep] at h
      rw [ih h fun hmem => hno (List.mem_cons_of_mem _ hmem)]
      refine hasElse_of_checkArm hstep ?_
      intro harm
      exact hno (harm ▸ List.mem_cons_self ..)

/-- An accepted match on a union has a type arm for the spelling of every member. -/
theorem covered_of_checkMatch {canonical : Str} {members : List (Ty ι)}
    {arms : List (MatchArm ι δ κ)} (h : p.checkMatch (.union canonical members) arms = .ok ())
    (hno : MatchArm.isElse ∉ arms) {m : Ty ι} (hm : m ∈ members) :
    ∃ t, MatchArm.type t ∈ arms ∧ t.canonical = m.canonical := by
  unfold checkMatch at h
  cases hc : arms.foldlM p.checkArm {} with
  | error e =>
    rw [hc] at h
    cases h
  | ok c =>
    rw [hc] at h
    have h : p.checkExhaustive (.union canonical members) c = .ok () := h
    have helse : c.hasElse = false := hasElse_of_checkArms hc hno
    unfold checkExhaustive at h
    rw [if_neg (by rw [helse]; decide)] at h
    simp only [enumOf] at h
    split at h
    · cases h
    · rename_i hnone
      have hmem := List.find?_eq_none.mp hnone m hm
      have hcov : m.canonical ∈ c.covered := by
        by_contra hcov
        exact hmem (by simpa using hcov)
      rcases covered_of_checkArms hc hcov with hcov | ht
      · cases hcov
      · exact ht

end

/-! ### What a match takes -/

/-- The arms take every value of a kind: by a type that is tested by symbol or kind, or
because each of the values is equal to a value arm. -/
def Taken (p : MatchModel σ ι δ κ F) (scope : σ) (arms : List (MatchArm ι δ κ)) (k : Kind ι) :
    Prop :=
  (∃ t, MatchArm.type t ∈ arms ∧ p.valueIsType scope k t = true) ∨
    ∀ v, p.Made v → v.kind = k →
      ∃ pat type, MatchArm.value pat type ∈ arms ∧ p.matchesValue v pat = true

/-- What the arms of an accepted match must still do: take the values of every member of
the union that are not of the kind the member is spelled like, or the objects of the
enum's struct. -/
def Covers (p : MatchModel σ ι δ κ F) (scope : σ) (arms : List (MatchArm ι δ κ)) : Ty ι → Prop
  | .union _ members => ∀ m ∈ members, ∀ k, p.Holds k m →
      kindOfWord m.canonical = some k ∨ p.Taken scope arms k
  | .class_ sym _ _ => p.Taken scope arms (p.kindOf sym)
  | _ => False

/-- A union, or the struct of an enum. -/
def Closed (p : MatchModel σ ι δ κ F) : Ty ι → Prop
  | .union _ _ => True
  | .class_ sym _ _ => ∃ d ∈ p.enumDesugars, d.struct = sym
  | _ => False

theorem matchArm_ne_none_iff {scope : σ} {arms : List (MatchArm ι δ κ)} {v : Val ι F} :
    p.matchArm scope arms v ≠ none ↔ ∃ arm ∈ arms, p.hit scope v arm = true := by
  unfold matchArm
  rw [ne_eq, List.find?_eq_none]
  push Not
  rfl

/-- Without `else`, the values of a kind are all taken exactly if the kind is. -/
theorem taken_iff {scope : σ} {arms : List (MatchArm ι δ κ)} (hno : MatchArm.isElse ∉ arms)
    {k : Kind ι} : p.Taken scope arms k ↔
      ∀ v, p.Made v → v.kind = k → p.matchArm scope arms v ≠ none := by
  constructor
  · intro htaken v hmade hk
    rw [matchArm_ne_none_iff]
    rcases htaken with ⟨t, ht, htest⟩ | hvalues
    · exact ⟨.type t, ht, by rw [hit, hk, htest]⟩
    · obtain ⟨pat, type, harm, hmatch⟩ := hvalues v hmade hk
      exact ⟨.value pat type, harm, hmatch⟩
  · intro hall
    by_cases htype : ∃ t, MatchArm.type t ∈ arms ∧ p.valueIsType scope k t = true
    · exact .inl htype
    · right
      intro v hmade hk
      obtain ⟨arm, harm, hhit⟩ := matchArm_ne_none_iff.mp (hall v hmade hk)
      cases arm with
      | isElse => exact absurd harm hno
      | type t => exact absurd ⟨t, harm, by rw [← hk]; exact hhit⟩ htype
      | value pat type => exact ⟨pat, type, harm, hhit⟩

/-- The values of an enum are the objects of its struct. -/
theorem holds_struct_iff {d : EnumDesugar ι δ} (hd : d ∈ p.enumDesugars) {k : Kind ι}
    {canonical : Str} {args : List (Ty ι)} :
    p.Holds k (.class_ d.struct canonical args) ↔ k = p.kindOf d.struct := by
  rw [Holds]
  constructor
  · intro h
    obtain ⟨cls, hsub, hk⟩ := h
    rw [hk, p.enum_final d hd cls hsub]
  · intro h
    exact ⟨d.struct, p.isSubclass_iff.mpr .refl, h⟩

end MatchModel

end

/-! ### Values no arm takes -/

/-- The names of a small program: an array and its interface, and an enum. -/
inductive Stock where
  | noneType
  | int
  | iIterable
  | array
  | color
deriving DecidableEq, Repr

namespace Stock

def name : Stock → Str
  | noneType => "None".toList
  | int => "int".toList
  | iIterable => "IIterable".toList
  | array => "Array".toList
  | color => "Color".toList

def scopes : Scopes Unit Stock where
  kind s := if s = noneType then .Primitive else .Class
  decl s := if s = array then some { bases := [.named [] "IIterable".toList [] none] } else none
  scope _ := some ()
  enclosing _ := [()]
  names _ n := [noneType, int, iIterable, array, color].filter fun s => s.name = n

theorem baseSymbols_eq (s : Stock) :
    scopes.baseSymbols s = if s = array then [iIterable] else [] := by
  cases s <;> rfl

def semantics : SemanticModel Unit Stock where
  toScopes := scopes
  rank s := if s = array then 1 else 0
  rank_lt := by
    intro cls base hbase
    rw [baseSymbols_eq] at hbase
    by_cases hcls : cls = array
    · rw [if_pos hcls, List.mem_singleton] at hbase
      rw [hbase, if_pos hcls]
      decide
    · rw [if_neg hcls] at hbase
      cases hbase

/-- `enum Color { Red, Green }`. -/
def colorEnum : EnumDesugar Stock Bool where
  name := "Color".toList
  members := [⟨"Red".toList, 0, false⟩, ⟨"Green".toList, 1, true⟩]
  struct := color

def colorValue (c : Int) : Val Stock Unit := .object color 0 [("_ord".toList, .int c)]

def program : MatchModel Unit Stock Bool Unit Unit where
  toSemanticModel := semantics
  className := name
  native s := s = int
  isValue s := s = color
  enumDesugars := [colorEnum]
  floatNaNGlobal := none
  float := { canon := fun _ => 0, eq := fun _ _ => true, ofInt := fun _ => () }
  declName green := if green then "Color$Green".toList else "Color$Red".toList
  globals n := if n = "Color$Green".toList then colorValue 1 else colorValue 0
  eval _ := .void
  equals s :=
    if s = color then
      some fun l r => arithEq { canon := fun _ => 0, eq := fun _ _ => true, ofInt := fun _ => () }
        (l.field "_ord".toList) (r.field "_ord".toList)
    else none
  objects s fields := s = color ∧ ∃ c, InInt64 c ∧ fields = [("_ord".toList, .int c)]
  enum_name := by
    intro d hd
    rw [List.mem_singleton.mp hd]
    rfl
  enum_equals := by
    intro d hd
    rw [List.mem_singleton.mp hd]
    rfl
  enum_objects := by
    intro d hd fields
    rw [List.mem_singleton.mp hd]
    exact and_iff_right rfl
  enum_final := by
    intro d hd cls hsub
    rw [List.mem_singleton.mp hd] at hsub ⊢
    cases cls <;> first | rfl | cases hsub

/-- The type of a reference. -/
def typed (t : TypeRef Stock) : Ty Stock := fromTypeRef scopes () t

def noneRef : TypeRef Stock := .named [] "None".toList [] none

/-- `int`. -/
def intRef : TypeRef Stock := .named [] "int".toList [] none

/-- `IIterable<int>`. -/
def iterableRef : TypeRef Stock := .named [] "IIterable".toList [intRef] none

/-- `Color`. -/
def colorRef : TypeRef Stock := .named [] "Color".toList [] none

/-- `Color::Red` and `Color::Green`. -/
def colorArms : List (MatchArm Stock Bool Unit) :=
  [.value (.member "Red".toList false) (typed colorRef),
    .value (.member "Green".toList true) (typed colorRef)]

end Stock

end Leviathan.Sema
