import Leviathan.Sema.Types

/-!
# `match`: the arms, the engine's test and the checker's

The engine looks for the first arm that takes the subject (`Evaluator::eval`, case
`Match`): a type arm by `valueIsType`, a value arm by `matchesValue`.  The checker
(`typeOfInner`, case `Match`) decides whether the arms leave a value of the subject's
type out: by the spelling of the arms' types if the subject is a union, by the
spelling of the members if the subject's class has the name of an enum.

A value is what the engine holds: an object carries its class, its address and its
fields.  Patterns are evaluated by a parameter, which stands for expressions that do
not throw.
-/

namespace Leviathan.Sema

/-- `VKind`, an object with its class. -/
inductive Kind (ι : Type) where
  | void
  | none
  | int
  | char
  | string
  | bool
  | float
  | array
  | map
  | block
  | ast
  | closure
  | object (cls : ι)
deriving DecidableEq, Repr

/-- `struct Value`. -/
inductive Val (ι F : Type) where
  | void
  | none
  | int (i : Int)
  | char (i : Int)
  | string (s : Str)
  | bool (b : Bool)
  | float (f : F)
  | array
  | map
  | block (ref : Nat)
  | ast
  | closure
  | object (cls : ι) (ref : Nat) (fields : List (Str × Val ι F))

/-- The names `valueIsType` tests by the kind of a value. -/
def kindOfWord {ι : Type} (n : Str) : Option (Kind ι) :=
  if n = "None".toList then some .none
  else if n = "int".toList then some .int
  else if n = "char".toList then some .char
  else if n = "string".toList then some .string
  else if n = "bool".toList then some .bool
  else if n = "float".toList then some .float
  else if n = "Array".toList then some .array
  else if n = "Map".toList then some .map
  else if n = "Block".toList then some .block
  else if n = "Ast".toList then some .ast
  else Option.none

namespace Val

variable {ι F : Type}

/-- `Value::kind`, an object with its class. -/
def kind : Val ι F → Kind ι
  | void => .void
  | none => .none
  | int _ => .int
  | char _ => .char
  | string _ => .string
  | bool _ => .bool
  | float _ => .float
  | array => .array
  | map => .map
  | block _ => .block
  | ast => .ast
  | closure => .closure
  | object cls _ _ => .object cls

/-- `Value::i`. -/
def i : Val ι F → Int
  | int i => i
  | char i => i
  | _ => 0

/-- `Value::s`. -/
def s : Val ι F → Str
  | string s => s
  | _ => []

/-- `memberRead` of a field; void for what has no such field. -/
def field (name : Str) : Val ι F → Val ι F
  | object _ _ fields => ((fields.find? fun f => f.1 = name).map Prod.snd).getD void
  | _ => void

end Val

/-- `EnumDesugar::Member`. -/
structure EnumMember (δ : Type) where
  name : Str
  carrier : Int
  global : δ

/-- `EnumDesugar`, with the symbol of the struct that stands for the enum. -/
structure EnumDesugar (ι δ : Type) where
  name : Str
  members : List (EnumMember δ)
  struct : ι

/-- The expression of a value arm: a constant reached through `::`, a range, or any
other expression. -/
inductive Pattern (δ κ : Type) where
  | member (text : Str) (resolved : δ)
  | range (lo hi : κ)
  | expr (e : κ)

/-- `MatchArm`: its pattern.  A value pattern has the type the checker gives it. -/
inductive MatchArm (ι δ κ : Type) where
  | isElse
  | type (t : TypeRef ι)
  | value (pat : Pattern δ κ) (type : Ty ι)

/-- A 64-bit number. -/
def InInt64 (n : Int) : Prop := -2 ^ 63 ≤ n ∧ n < 2 ^ 63

/-- Arithmetic on floats, as far as the equality of values needs it. -/
structure FloatOps (F : Type) where
  canon : F → Nat
  eq : F → F → Bool
  ofInt : Int → F

/-- `arithPrim` for `==`. -/
def arithEq {ι F : Type} (fl : FloatOps F) (l r : Val ι F) : Bool :=
  match l, r with
  | .none, .none => true
  | .none, _ => false
  | _, .none => false
  | .bool a, .bool b => a = b
  | .block a, .block b => a = b
  | .char a, .char b => a = b
  | .float a, .float b => fl.eq a b
  | .float a, .int b => fl.eq a (fl.ofInt b)
  | .int a, .float b => fl.eq (fl.ofInt a) b
  | .string a, r => a = r.s
  | l, .string b => l.s = b
  | l, r => l.i = r.i

/-- An accepted program at run time: its symbols, its enums, the constants and the
objects it makes, and what the `(==)` of a class answers.

`desugarEnums` gives an enum a struct with a public constructor that takes any number,
and compares two of them by that number; a struct has no subclass.  `native` are the
classes of the prelude whose values are no objects: the primitives and `Ast`. -/
structure MatchModel (σ ι δ κ F : Type) [DecidableEq ι] extends SemanticModel σ ι where
  className : ι → Str
  native : ι → Bool
  isValue : ι → Bool
  enumDesugars : List (EnumDesugar ι δ)
  floatNaNGlobal : Option δ
  float : FloatOps F
  declName : δ → Str
  globals : Str → Val ι F
  eval : κ → Val ι F
  equals : ι → Option (Val ι F → Val ι F → Bool)
  objects : ι → List (Str × Val ι F) → Prop
  enum_name : ∀ d ∈ enumDesugars, className d.struct = d.name
  enum_equals : ∀ d ∈ enumDesugars, equals d.struct =
    some fun l r => arithEq float (l.field "_ord".toList) (r.field "_ord".toList)
  enum_objects : ∀ d ∈ enumDesugars, ∀ fields, objects d.struct fields ↔
    ∃ c, InInt64 c ∧ fields = [("_ord".toList, .int c)]
  enum_final : ∀ d ∈ enumDesugars, ∀ cls, toSemanticModel.isSubclass cls d.struct = true →
    cls = d.struct

namespace MatchModel

variable {σ ι δ κ F : Type} [DecidableEq ι] [DecidableEq δ] (p : MatchModel σ ι δ κ F)

/-! ### The engine -/

/-- `rtObjectArith` for `==`; it raises for a struct without `(==)`. -/
def objectEq (cls : ι) (ref : Nat) (l r : Val ι F) : Bool :=
  match p.equals cls with
  | some eq => eq l r
  | none =>
    if p.isValue cls then false
    else match r with
      | .object _ other _ => ref = other
      | _ => false

/-- `combine` for `==`. -/
def combineEq (l r : Val ι F) : Bool :=
  if r.kind = .none then arithEq p.float l r
  else match l with
    | .object cls ref _ =>
      if p.className cls ≠ "Range".toList then p.objectEq cls ref l r
      else arithEq p.float l r
    | _ => arithEq p.float l r

/-- The value of a pattern that is no range. -/
def patternValue : Pattern δ κ → Val ι F
  | .member _ resolved => p.globals (p.declName resolved)
  | .range lo _ => p.eval lo
  | .expr e => p.eval e

/-- `matchesValue`. -/
def matchesValue (subj : Val ι F) (pat : Pattern δ κ) : Bool :=
  match pat with
  | .range lo hi =>
    decide (subj.kind = .int) && decide ((p.eval lo).i ≤ subj.i) &&
      decide (subj.i ≤ (p.eval hi).i)
  | pat =>
    match subj, p.patternValue pat with
    | .float a, .float b => p.float.canon a = p.float.canon b
    | l, r => p.combineEq l r

/-- `valueIsType` for a named type: by kind for the built-in names, else by class. -/
def valueIsNamed (k : Kind ι) (name : Str) (sym : Option ι) : Bool :=
  match kindOfWord name with
  | some word => k = word
  | none =>
    match k, sym with
    | .object cls, some sym => p.isSubclass cls sym
    | _, _ => false

mutual

/-- `valueIsType`, for a type resolved in the scope of the match. -/
def valueIsType (scope : σ) (k : Kind ι) : TypeRef ι → Bool
  | .union members => valueIsTypeAny scope k members
  | .named path name generics hygiene =>
    p.valueIsNamed k name (p.resolvedSymbol scope (.named path name generics hygiene))
  | .inferred => false
  | .function _ _ => false

/-- `valueIsType` for some member of a union. -/
def valueIsTypeAny (scope : σ) (k : Kind ι) : List (TypeRef ι) → Bool
  | [] => false
  | t :: ts => valueIsType scope k t || valueIsTypeAny scope k ts

end

/-- An arm takes a value. -/
def hit (scope : σ) (subj : Val ι F) : MatchArm ι δ κ → Bool
  | .isElse => true
  | .type t => p.valueIsType scope subj.kind t
  | .value pat _ => p.matchesValue subj pat

/-- The arm a match goes on with; none is the fall-through. -/
def matchArm (scope : σ) (arms : List (MatchArm ι δ κ)) (subj : Val ι F) :
    Option (MatchArm ι δ κ) :=
  arms.find? (p.hit scope subj)

/-! ### The checker -/

/-- What the checker has gathered from the arms before. -/
structure Coverage where
  covered : List Str := []
  enumCovered : List Str := []
  hasElse : Bool := false
  sawNaNArm : Bool := false

/-- The pattern of a value arm: a constant reached through `::` is gathered, and
`float::NaN` may stand once and before `else`. -/
def checkPattern (c : Coverage) : Pattern δ κ → Except Str Coverage
  | .member text resolved =>
    if p.floatNaNGlobal = some resolved then
      if c.hasElse then .error "unreachable 'float::NaN' arm after 'else'".toList
      else if c.sawNaNArm then .error "duplicate 'float::NaN' arm".toList
      else .ok { c with enumCovered := c.enumCovered ++ [text], sawNaNArm := true }
    else .ok { c with enumCovered := c.enumCovered ++ [text] }
  | .range _ _ => .ok c
  | .expr _ => .ok c

/-- One arm, or the error reported. -/
def checkArm (c : Coverage) : MatchArm ι δ κ → Except Str Coverage
  | .isElse => .ok { c with hasElse := true }
  | .type t => .ok { c with covered := c.covered ++ [t.canonical] }
  | .value pat type =>
    match type with
    | .typeValue _ canonical =>
      .error ("match pattern is a type ('".toList ++ canonical ++
        "') used as a value — this arm can never match".toList)
    | _ => p.checkPattern c pat

/-- The enum whose name the subject's class has. -/
def enumOf : Ty ι → Option (EnumDesugar ι δ)
  | .class_ sym _ _ => p.enumDesugars.find? fun d => d.name = p.className sym
  | _ => none

/-- The check for exhaustiveness. -/
def checkExhaustive (subj : Ty ι) (c : Coverage) : Except Str Unit :=
  if c.hasElse then .ok ()
  else match p.enumOf subj, subj with
    | some d, _ =>
      let missing := (d.members.map EnumMember.name).filter fun n => !c.enumCovered.contains n
      if missing.isEmpty then .ok ()
      else .error ("non-exhaustive match on enum '".toList ++ d.name ++ "': missing ".toList ++
        List.intercalate ", ".toList (missing.map fun n => d.name ++ "::".toList ++ n) ++
        " (add the arm(s) or an 'else')".toList)
    | none, .union _ members =>
      match members.find? fun m => !c.covered.contains m.canonical with
      | some m => .error ("non-exhaustive match: '".toList ++ m.canonical ++
          "' is not covered (add it or an 'else')".toList)
      | none => .ok ()
    | none, _ => .error "match must be exhaustive: add an 'else' arm".toList

/-- `typeOfInner`, case `Match`: the patterns and the coverage, not the bodies. -/
def checkMatch (subj : Ty ι) (arms : List (MatchArm ι δ κ)) : Except Str Unit := do
  let c ← arms.foldlM p.checkArm {}
  p.checkExhaustive subj c

/-! ### The values of a type -/

/-- The kind of the values a class has: `construct` makes an array for every class of
the name `Array`, and the native classes of the prelude have no objects. -/
def kindOf (cls : ι) : Kind ι :=
  if ["Array".toList, "Map".toList, "Block".toList].contains (p.className cls) ∨
      p.native cls = true then
    (kindOfWord (p.className cls)).getD (.object cls)
  else .object cls

mutual

/-- The kinds of the values a type has. -/
def Holds (k : Kind ι) : Ty ι → Prop
  | .primitive canonical =>
    (canonical = "None".toList ∧ k = .none) ∨ (canonical = "void".toList ∧ k = .void)
  | .class_ sym _ _ => ∃ cls, p.isSubclass cls sym = true ∧ k = p.kindOf cls
  | .funcRef _ _ => k = .closure
  | .union _ members => HoldsAny k members
  | .typeValue _ _ => False
  | .unknown => True
  | .error => False

/-- The kinds of the values of some member of a union. -/
def HoldsAny (k : Kind ι) : List (Ty ι) → Prop
  | [] => False
  | m :: ms => Holds k m ∨ HoldsAny k ms

end

/-- A value the program can make. -/
def Made : Val ι F → Prop
  | .object cls _ fields => p.objects cls fields
  | _ => True

/-- A value of a type. -/
def HasType (v : Val ι F) (type : Ty ι) : Prop := p.Made v ∧ p.Holds v.kind type

end MatchModel

end Leviathan.Sema
