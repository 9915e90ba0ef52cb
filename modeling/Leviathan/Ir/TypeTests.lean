import Leviathan.Sema.MatchCoverage

/-!
# Type tests of the two engines

The evaluator walks the type of a test (`valueIsType`).  The lowerer leaves its canonical text and
one symbol in the instruction (`emitIsType`), and the interpreter cuts the text at the bars outside
of brackets and compares each piece (`Op::IsType`).

Both ask for the kind of a value by a word: the evaluator by the name of a member, the interpreter
by a piece of the text.  `testsAgree_iff` says for which values and types the words serve: the
tests agree, and with the classes of the values, exactly under `Told`.
-/

namespace Leviathan.Ir

open Sema

/-! ### The instruction -/

/-- The loop of `unionMembersOf`, with the character before, whether the current one is the blank
behind a bar, and the text since the last bar. -/
def cutFrom (before : Option Char) (skip : Bool) (depth : Int) (cur : Str) : Str → List Str
  | [] => [cur]
  | c :: rest =>
    if skip = true then cutFrom (some c) false depth cur rest
    else if c = '<' ∨ c = '(' then cutFrom (some c) false (depth + 1) (cur ++ [c]) rest
    else if c = '>' ∨ c = ')' then cutFrom (some c) false (depth - 1) (cur ++ [c]) rest
    else if depth = 0 ∧ c = '|' ∧ before = some ' ' ∧ rest.head? = some ' ' then
      -- `substr(start, i - 1 - start)` runs to the end of the text if `i` is `start`
      (if cur = [] then c :: rest else cur.dropLast) :: cutFrom (some c) true depth [] rest
    else cutFrom (some c) false depth (cur ++ [c]) rest

/-- `unionMembersOf`. -/
def unionMembersOf (canonical : Str) : List Str := cutFrom none false 0 [] canonical

/-- The texts `Op::IsType` tests by the kind of a value. -/
def kindOfSpelling {ι : Type} (n : Str) : Option (Kind ι) :=
  if n = "None".toList then some .none
  else if n = "int".toList then some .int
  else if n = "char".toList then some .char
  else if n = "string".toList then some .string
  else if n = "bool".toList then some .bool
  else if n = "float".toList then some .float
  else if "Array".toList.isPrefixOf n = true then some .array
  else if "Map".toList.isPrefixOf n = true then some .map
  else if n = "Block".toList then some .block
  else Option.none

/-- `TypeRef::name`; only named types have one. -/
def nameOf {ι : Type} : TypeRef ι → Str
  | .named _ name _ _ => name
  | _ => []

section
variable {σ ι δ κ F : Type} [DecidableEq ι] (p : MatchModel σ ι δ κ F)

/-- The text `emitIsType` leaves in the instruction. -/
def emitText (t : TypeRef ι) : Str :=
  if t.canonical = [] then
    match t with
    | .named _ name _ _ => name
    | .union members => members.foldl (fun canon m =>
      canon ++ ((if canon = [] then [] else " | ".toList) ++ nameOf m)) []
    | _ => []
  else t.canonical

/-- `emitIsType`: the text and the symbol of the instruction. -/
def emitIsType (global scope : σ) (t : TypeRef ι) : Str × Option ι :=
  (emitText t,
    match p.resolvedSymbol scope t, t with
    | some sym, _ => some sym
    | none, .named _ name _ _ => p.lookup global name
    | none, _ => none)

/-- `match1` of `Op::IsType`. -/
def match1 (sym : Option ι) (k : Kind ι) (n : Str) : Bool :=
  match kindOfSpelling n with
  | some word => k = word
  | none =>
    match k, sym with
    | .object cls, some sym => p.isSubclass cls sym
    | _, _ => false

/-- The text has a bar between two blanks. -/
def hasBar : Str → Bool
  | [] => false
  | c :: rest => " | ".toList.isPrefixOf (c :: rest) || hasBar rest

/-- `Op::IsType`. -/
def isType (inst : Str × Option ι) (k : Kind ι) : Bool :=
  if hasBar inst.1 = true then (unionMembersOf inst.1).any (match1 p inst.2 k)
  else match1 p inst.2 k inst.1

/-! ### Members, and the classes of values -/

mutual

/-- The members of a type that are no unions. -/
def membersOf : TypeRef ι → List (TypeRef ι)
  | .union members => membersOfAll members
  | t => [t]

def membersOfAll : List (TypeRef ι) → List (TypeRef ι)
  | [] => []
  | t :: ts => membersOf t ++ membersOfAll ts

end

/-- A type of the program that can be tested: primitives and classes with any arguments, and
unions of these. -/
inductive Tested (scope : σ) : TypeRef ι → Prop
  | named {path name generics hygiene sym}
      (resolved : p.resolvedSymbol scope (.named path name generics hygiene) = some sym)
      (kind : p.kind sym = .Class ∨ p.kind sym = .Primitive) :
      Tested scope (.named path name generics hygiene)
  | union {members} (all : ∀ m ∈ members, Tested scope m) : Tested scope (.union members)

/-- The kind of the values a symbol makes; `void` and `None` are the only pure primitives. -/
def kindOfSymbol (sym : ι) : Kind ι :=
  if p.kind sym = .Primitive then (kindOfWord (p.className sym)).getD .void else p.kindOf sym

/-- A kind that values have at run time: an object's class makes objects. -/
def Occurs (k : Kind ι) : Prop := ∀ cls, k = .object cls → kindOfSymbol p cls = .object cls

/-- A value of a kind belongs to a member: it is one of a class below the member's. -/
def BelongsTo (scope : σ) (k : Kind ι) (m : TypeRef ι) : Prop :=
  ∃ sym cls, p.resolvedSymbol scope m = some sym ∧ p.isSubclass cls sym = true ∧
    k = kindOfSymbol p cls

/-- A value of a kind belongs to one of a type's members. -/
def Belongs (scope : σ) (k : Kind ι) (t : TypeRef ι) : Prop :=
  ∃ m ∈ membersOf t, BelongsTo p scope k m

/-- Some member has the evaluator's word for a kind as its name. -/
def Named (k : Kind ι) (t : TypeRef ι) : Prop :=
  ∃ m ∈ membersOf t, kindOfWord (nameOf m) = some k

/-- Some piece of the text is the interpreter's word for a kind. -/
def Spelled (k : Kind ι) (t : TypeRef ι) : Prop :=
  ∃ s ∈ unionMembersOf t.canonical, kindOfSpelling s = some k

/-- The words of a type serve for a value. -/
structure Told (scope : σ) (k : Kind ι) (t : TypeRef ι) : Prop where
  /-- A value that is no object belongs to the type by its own name, not by an interface. -/
  named : (∀ cls, k ≠ .object cls) → Belongs p scope k t → Named k t
  /-- No other class has the name of the built-in one. -/
  own : (∀ cls, k ≠ .object cls) → Named k t → Belongs p scope k t
  /-- The pieces of the text say what the names say. -/
  spelled : (∀ cls, k ≠ .object cls) → (Spelled k t ↔ Named k t)
  /-- An object is tested for one class, whose name is no built-in word and whose text does not
  begin like one. -/
  single : ∀ cls, k = .object cls → Belongs p scope k t →
    (∀ members, t ≠ .union members) ∧ kindOfWord (ι := ι) (nameOf t) = none ∧
      ∃ s ∈ unionMembersOf t.canonical, kindOfSpelling (ι := ι) s = none

end

/-! ### The text of the instruction -/

theorem kindOfWord_ne_object {ι : Type} {w : Str} {cls : ι} : kindOfWord w ≠ some (.object cls) := by
  unfold kindOfWord
  split_ifs <;> simp

theorem kindOfSpelling_ne_object {ι : Type} {n : Str} {cls : ι} : kindOfSpelling n ≠ some (.object cls) := by
  unfold kindOfSpelling
  split_ifs <;> simp

/-- The text is the canonical one; it is empty only for an empty name. -/
theorem emitText_eq {ι : Type} (t : TypeRef ι) : emitText t = t.canonical := by
  have hname : ∀ path name generics hygiene,
      (TypeRef.named path name generics hygiene : TypeRef ι).canonical = [] → name = [] := by
    intro path name generics hygiene h
    rw [TypeRef.canonical, TypeRef.qualName] at h
    exact (List.append_eq_nil_iff.mp (List.append_eq_nil_iff.mp h).1).2
  have hmember : ∀ m : TypeRef ι, m.canonical = [] → nameOf m = [] := by
    intro m hm
    cases m with
    | named path name generics hygiene => exact hname path name generics hygiene hm
    | _ => rfl
  unfold emitText
  split
  · next hnil =>
      rw [hnil]
      cases t with
      | named path name generics hygiene => exact hname path name generics hygiene hnil
      | union members =>
        rw [TypeRef.canonical, TypeRef.canonicals_eq_map] at hnil
        cases members with
        | nil => rfl
        | cons m ms =>
          cases ms with
          | nil => simpa using hmember m (by simpa using hnil)
          | cons n ms => simp at hnil
      | _ => rfl
  · rfl

/-- A text without a bar is one piece. -/
theorem cutFrom_of_hasBar_eq_false {s : Str} : ∀ {before : Option Char} {depth : Int} {cur : Str},
    hasBar (before.toList ++ s) = false → cutFrom before false depth cur s = [cur ++ s] := by
  induction s with
  | nil => intro before depth cur _; rw [cutFrom, List.append_nil]
  | cons c s ih =>
    intro before depth cur h
    have htail : hasBar (c :: s) = false := by
      cases before with
      | none => exact h
      | some b => exact (Bool.or_eq_false_iff.mp h).2
    have ih : ∀ {depth : Int}, cutFrom (some c) false depth (cur ++ [c]) s =
        [cur ++ c :: s] := by
      intro depth
      have hrest := @ih (some c) depth (cur ++ [c]) htail
      rw [hrest, List.append_assoc]
      rfl
    have hno : ¬(depth = 0 ∧ c = '|' ∧ before = some ' ' ∧ s.head? = some ' ') := by
      rintro ⟨-, rfl, rfl, hhead⟩
      obtain ⟨s, rfl⟩ := List.head?_eq_some_iff.mp hhead
      simp [hasBar] at h
    rw [cutFrom, if_neg Bool.false_ne_true, ih, ih, ih, if_neg hno]
    simp

theorem unionMembersOf_of_hasBar_eq_false {s : Str} (h : hasBar s = false) :
    unionMembersOf s = [s] :=
  cutFrom_of_hasBar_eq_false h

section
variable {σ ι δ κ F : Type} [DecidableEq ι] {p : MatchModel σ ι δ κ F}
  {global scope : σ} {k : Kind ι} {t : TypeRef ι}

/-- The test of the interpreter, piece by piece. -/
theorem isType_iff {inst : Str × Option ι} :
    isType p inst k = true ↔ ∃ s ∈ unionMembersOf inst.1, match1 p inst.2 k s = true := by
  unfold isType
  split
  · exact List.any_eq_true
  · next h =>
      rw [unionMembersOf_of_hasBar_eq_false (Bool.eq_false_iff.mpr h)]
      simp

/-! ### Values that are no objects -/

/-- The evaluator asks for the word of the value's kind. -/
theorem valueIsNamed_iff (hk : ∀ cls, k ≠ .object cls) {name : Str} {sym : Option ι} :
    p.valueIsNamed k name sym = true ↔ kindOfWord name = some k := by
  unfold MatchModel.valueIsNamed
  split
  · next word h => simp [h, eq_comm]
  · next h =>
      rw [h]
      split
      · exact absurd rfl (hk _)
      · simp

/-- The interpreter asks for the word of the value's kind. -/
theorem match1_iff (hk : ∀ cls, k ≠ .object cls) {n : Str} {sym : Option ι} :
    match1 p sym k n = true ↔ kindOfSpelling n = some k := by
  unfold match1
  split
  · next word h => simp [h, eq_comm]
  · next h =>
      rw [h]
      split
      · exact absurd rfl (hk _)
      · simp

/-- The test of a type is the test of its members. -/
theorem valueIsType_iff (ht : Tested p scope t) :
    p.valueIsType scope k t = true ↔
      ∃ m ∈ membersOf t, p.valueIsNamed k (nameOf m) (p.resolvedSymbol scope m) = true := by
  have hall : ∀ ts : List (TypeRef ι), ∀ m, m ∈ membersOfAll ts ↔ ∃ t ∈ ts, m ∈ membersOf t := by
    intro ts m
    induction ts with
    | nil => simp [membersOfAll]
    | cons t ts ih => simp [membersOfAll, ih]
  induction ht with
  | named _ _ => simp [membersOf, MatchModel.valueIsType, nameOf]
  | @union members _ ih =>
    rw [MatchModel.valueIsType, MatchModel.valueIsTypeAny_iff, membersOf]
    constructor
    · rintro ⟨t, ht, h⟩
      obtain ⟨m, hm, h⟩ := (ih t ht).mp h
      exact ⟨m, (hall members m).mpr ⟨t, ht, hm⟩, h⟩
    · rintro ⟨m, hm, h⟩
      obtain ⟨t, ht, hm⟩ := (hall members m).mp hm
      exact ⟨t, ht, (ih t ht).mpr ⟨m, hm, h⟩⟩

theorem valueIsType_iff_named (ht : Tested p scope t) (hk : ∀ cls, k ≠ .object cls) :
    p.valueIsType scope k t = true ↔ Named k t := by
  rw [valueIsType_iff ht]
  exact exists_congr fun m => and_congr_right fun _ => valueIsNamed_iff hk

theorem isType_iff_spelled (hk : ∀ cls, k ≠ .object cls) :
    isType p (emitIsType p global scope t) k = true ↔ Spelled k t := by
  rw [isType_iff]
  simp only [emitIsType, emitText_eq]
  exact exists_congr fun s => and_congr_right fun _ => match1_iff hk

/-! ### Objects -/

/-- Only a class of its own makes objects of a class. -/
theorem eq_of_kindOfSymbol {a b : ι} (h : kindOfSymbol p a = .object b) : a = b := by
  have hget : ∀ {w : Str} {k : Kind ι}, (kindOfWord w).getD k = .object b → k = .object b := by
    intro w k hw
    cases hword : kindOfWord (ι := ι) w with
    | none => rwa [hword] at hw
    | some word =>
      rw [hword] at hw
      obtain rfl : word = .object b := hw
      exact absurd hword kindOfWord_ne_object
  unfold kindOfSymbol MatchModel.kindOf at h
  split_ifs at h
  · cases hget h
  · exact Kind.object.inj (hget h)
  · exact Kind.object.inj h

/-- An object belongs to the classes above its own. -/
theorem belongsTo_object_iff {cls : ι} (hk : Occurs p (.object cls)) {m : TypeRef ι} :
    BelongsTo p scope (.object cls) m ↔
      ∃ sym, p.resolvedSymbol scope m = some sym ∧ p.isSubclass cls sym = true := by
  constructor
  · rintro ⟨sym, cls', hsym, hsub, hkind⟩
    obtain rfl := eq_of_kindOfSymbol hkind.symm
    exact ⟨sym, hsym, hsub⟩
  · rintro ⟨sym, hsym, hsub⟩
    exact ⟨sym, cls, hsym, hsub, (hk cls rfl).symm⟩

theorem valueIsNamed_object_iff {cls : ι} {name : Str} {sym : Option ι} :
    p.valueIsNamed (.object cls) name sym = true ↔
      kindOfWord (ι := ι) name = none ∧ ∃ s, sym = some s ∧ p.isSubclass cls s = true := by
  unfold MatchModel.valueIsNamed
  cases hword : kindOfWord (ι := ι) name with
  | some word =>
    have hne : Kind.object cls ≠ word := by
      rintro rfl
      exact kindOfWord_ne_object hword
    simp [hne]
  | none => cases sym <;> simp

theorem match1_object_iff {cls : ι} {n : Str} {sym : Option ι} :
    match1 p sym (.object cls) n = true ↔
      kindOfSpelling (ι := ι) n = none ∧ ∃ s, sym = some s ∧ p.isSubclass cls s = true := by
  unfold match1
  cases hword : kindOfSpelling (ι := ι) n with
  | some word =>
    have hne : Kind.object cls ≠ word := by
      rintro rfl
      exact kindOfSpelling_ne_object hword
    simp [hne]
  | none => cases sym <;> simp

/-! ### When the tests agree -/

/-- The two tests give the same answer, and it is the right one. -/
structure TestsAgree (p : MatchModel σ ι δ κ F) (global scope : σ) (k : Kind ι) (t : TypeRef ι) :
    Prop where
  engines : p.valueIsType scope k t = isType p (emitIsType p global scope t) k
  right : p.valueIsType scope k t = true ↔ Belongs p scope k t

/-- A value that is no object. -/
theorem testsAgree_iff_told (ht : Tested p scope t) (hk : ∀ cls, k ≠ .object cls) :
    TestsAgree p global scope k t ↔ Told p scope k t := by
  have heval := valueIsType_iff_named (k := k) ht hk
  have hir : isType p (emitIsType p global scope t) k = true ↔ Spelled k t :=
    isType_iff_spelled hk
  constructor
  · rintro ⟨hengines, hright⟩
    rw [hengines] at heval
    refine ⟨fun _ hb => ?_, fun _ hn => ?_, fun _ => hir.symm.trans heval, ?_⟩
    · exact heval.mp (hengines ▸ hright.mpr hb)
    · exact hright.mp (hengines ▸ heval.mpr hn)
    · exact fun cls hcls => absurd hcls (hk cls)
  · intro h
    refine ⟨Bool.eq_iff_iff.mpr ?_, heval.trans ⟨h.own hk, h.named hk⟩⟩
    exact heval.trans ((h.spelled hk).symm.trans hir.symm)

/-- The interpreter takes an object for one class only. -/
theorem isType_object_iff {cls : ι} (ht : Tested p scope t) :
    isType p (emitIsType p global scope t) (.object cls) = true ↔
      (∀ members, t ≠ .union members) ∧
        (∃ sym, p.resolvedSymbol scope t = some sym ∧ p.isSubclass cls sym = true) ∧
          ∃ s ∈ unionMembersOf t.canonical, kindOfSpelling (ι := ι) s = none := by
  rw [isType_iff]
  simp only [emitIsType, emitText_eq, match1_object_iff]
  cases ht with
  | named hresolved _ =>
    rw [hresolved]
    constructor
    · rintro ⟨s, hs, hnone, sym, hsym, hsub⟩
      exact ⟨(fun _ h => by cases h), ⟨sym, hsym, hsub⟩, s, hs, hnone⟩
    · rintro ⟨-, ⟨sym, hsym, hsub⟩, s, hs, hnone⟩
      exact ⟨s, hs, hnone, sym, hsym, hsub⟩
  | union _ =>
    constructor
    · rintro ⟨s, hs, hnone, sym, hsym, hsub⟩
      cases hsym
    · rintro ⟨hno, -⟩
      exact absurd rfl (hno _)

/-- An object. -/
theorem testsAgree_object_iff_told {cls : ι} (ht : Tested p scope t)
    (hk : Occurs p (.object cls)) :
    TestsAgree p global scope (.object cls) t ↔ Told p scope (.object cls) t := by
  have hir := @isType_object_iff _ _ _ _ _ _ p global scope t cls ht
  have hbelongs : ∀ m, BelongsTo p scope (.object cls) m ↔
      ∃ sym, p.resolvedSymbol scope m = some sym ∧ p.isSubclass cls sym = true :=
    fun m => belongsTo_object_iff hk
  constructor
  · rintro ⟨hengines, hright⟩
    refine ⟨fun h => absurd rfl (h cls), fun h => absurd rfl (h cls), fun h => absurd rfl (h cls),
      ?_⟩
    intro cls' hcls hb
    have heval := hright.mpr hb
    obtain ⟨hno, -, hspelled⟩ := hir.mp (hengines ▸ heval)
    refine ⟨hno, ?_, hspelled⟩
    obtain ⟨m, hm, hnamed⟩ := (valueIsType_iff ht).mp heval
    cases ht with
    | named _ _ =>
      obtain rfl := List.mem_singleton.mp hm
      exact (valueIsNamed_object_iff.mp hnamed).1
    | union _ => exact absurd rfl (hno _)
  · intro h
    have hall : Belongs p scope (.object cls) t →
        p.valueIsType scope (.object cls) t = true ∧
          isType p (emitIsType p global scope t) (.object cls) = true := by
      intro hb
      obtain ⟨hno, hword, hspelled⟩ := h.single cls rfl hb
      obtain ⟨m, hm, hbm⟩ := hb
      obtain hsym := (hbelongs m).mp hbm
      cases ht with
      | named hresolved hkind =>
        obtain rfl := List.mem_singleton.mp hm
        refine ⟨?_, hir.mpr ⟨hno, hsym, hspelled⟩⟩
        rw [valueIsType_iff (.named hresolved hkind)]
        exact ⟨_, List.mem_singleton_self _, valueIsNamed_object_iff.mpr ⟨hword, hsym⟩⟩
      | union _ => exact absurd rfl (hno _)
    have hevalBelongs : p.valueIsType scope (.object cls) t = true →
        Belongs p scope (.object cls) t := by
      intro heval
      obtain ⟨m, hm, hnamed⟩ := (valueIsType_iff ht).mp heval
      exact ⟨m, hm, (hbelongs m).mpr (valueIsNamed_object_iff.mp hnamed).2⟩
    have hirBelongs : isType p (emitIsType p global scope t) (.object cls) = true →
        Belongs p scope (.object cls) t := by
      intro htest
      obtain ⟨hno, hsym, -⟩ := hir.mp htest
      cases ht with
      | named _ _ => exact ⟨_, List.mem_singleton_self _, (hbelongs _).mpr hsym⟩
      | union _ => exact absurd rfl (hno _)
    refine ⟨Bool.eq_iff_iff.mpr ⟨fun heval => ?_, fun htest => ?_⟩, hevalBelongs, fun hb => ?_⟩
    · exact (hall (hevalBelongs heval)).2
    · exact (hall (hirBelongs htest)).1
    · exact (hall hb).1

/-- **Type tests.**  The engines agree on a value, with its class, exactly when the words of the
type serve for it. -/
theorem testsAgree_iff (ht : Tested p scope t) (hk : Occurs p k) :
    TestsAgree p global scope k t ↔ Told p scope k t := by
  cases k with
  | object cls => exact testsAgree_object_iff_told ht hk
  | _ => exact testsAgree_iff_told ht nofun

end

/-! ### Two tests -/

open Stock in
/-- A number is told by `int | None`. -/
theorem testsAgree_optionalInt :
    TestsAgree program () () .int (.union [intRef, noneRef]) := by
  refine (testsAgree_iff ?_ nofun).mpr ⟨fun _ _ => ?_, fun _ _ => ?_, fun _ => ?_, nofun⟩
  · refine .union fun m hm => ?_
    rcases List.mem_cons.mp hm with rfl | hm
    · exact .named rfl (.inl rfl)
    · obtain rfl := List.mem_singleton.mp hm
      exact .named rfl (.inr rfl)
  · exact ⟨intRef, by simp [membersOf, membersOfAll, intRef, noneRef], rfl⟩
  · exact ⟨intRef, by simp [membersOf, membersOfAll, intRef, noneRef], int, int, rfl, rfl, rfl⟩
  · refine ⟨fun _ => ⟨intRef, by simp [membersOf, membersOfAll, intRef, noneRef], rfl⟩,
      fun _ => ⟨"int".toList, ?_, rfl⟩⟩
    exact List.mem_cons_self

open Stock in
/-- **A class in a union.**  The evaluator takes an object of `Color` for `Color | None`; the
instruction of the union has no symbol, and the interpreter takes no object for it. -/
theorem object_of_union_not_told :
    program.valueIsType () (.object color) (.union [colorRef, noneRef]) = true ∧
      isType program (emitIsType program () () (.union [colorRef, noneRef])) (.object color) =
        false ∧
      Belongs program () (.object color) (.union [colorRef, noneRef]) ∧
      ¬TestsAgree program () () (.object color) (.union [colorRef, noneRef]) := by
  refine ⟨rfl, rfl, ⟨colorRef, List.mem_cons_self, color, color, rfl, rfl, rfl⟩, fun h => ?_⟩
  cases h.engines

end Leviathan.Ir
