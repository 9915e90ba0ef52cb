import Leviathan.Sema.MatchArms

/-!
# Derived struct equality

The resolver gives a struct of the program a `(==)` that compares field by field, if every field
has a type that can be compared (`EqLadder`, `synthesizeStructEquality`).  A field of the plain
type `float` is compared by its canonical pattern, every other field by `==`.

A map compares its keys by `keyEquals`, which looks at the values alone: numbers by kind and value,
floats by their canonical pattern, structs field by field, objects by identity.
-/

namespace Leviathan.Sema

/-- A program as far as equality goes.  `equality` is the `(==)` that is declared: for a static
type and the class of the left operand, what its body answers; it stands for overloads and
overrides, and is none where only a derived `(==)` is found.  `classAt` is the class of the object
at an address. -/
structure EqModel (σ ι F : Type) [DecidableEq ι] extends SemanticModel σ ι where
  global : σ
  classScope : ι → σ
  className : ι → Str
  native : ι → Bool
  isPrimitive : ι → Bool
  isValue : ι → Bool
  inProgram : ι → Bool
  explicitEq : ι → Bool
  dataFields : ι → List (Str × TypeRef ι)
  structs : Nat
  equality : TypeRef ι → ι → Option (Val ι F → Val ι F → Bool)
  classAt : Nat → ι
  float : FloatOps F
  nan : F
  nan_ne : float.eq nan nan = false

/-- What a field of an object holds is smaller than the object. -/
theorem Val.sizeOf_field {ι F : Type} (cls : ι) (ref : Nat) (fields : List (Str × Val ι F))
    (name : Str) : sizeOf ((Val.object cls ref fields).field name) <
      sizeOf (Val.object cls ref fields) := by
  have hfield : (Val.object cls ref fields).field name =
      ((fields.find? fun f => f.1 = name).map Prod.snd).getD .void := rfl
  rw [hfield, Val.object.sizeOf_spec]
  cases h : fields.find? fun f => f.1 = name with
  | none =>
    have hpos : 0 < sizeOf fields := by cases fields <;> simp
    rw [Option.map_none, Option.getD_none, Val.void.sizeOf_spec]
    omega
  | some e =>
    have hmem := List.sizeOf_lt_of_mem (List.mem_of_find?_eq_some h)
    have hsnd : sizeOf e.2 < sizeOf e := by
      cases e
      simp only [Prod.mk.sizeOf_spec]
      omega
    rw [Option.map_some, Option.getD_some]
    omega

namespace EqModel

variable {σ ι F : Type} [DecidableEq ι] (p : EqModel σ ι F)

/-! ### Which structs have a derived `(==)` -/

/-- `kBanned`. -/
def bannedNames : List (Str × Str) :=
  [("Array".toList, "an Array".toList), ("Map".toList, "a Map".toList),
    ("Block".toList, "a Block".toList), ("Ast".toList, "an Ast".toList),
    ("Promise".toList, "a Promise".toList), ("Channel".toList, "a Channel".toList)]

/-- The note of a banned prelude class. -/
def banned (sym : ι) : Option Str :=
  (bannedNames.find? fun n => p.findLocal p.global n.1 .Class = some sym).map Prod.snd

/-- `EqLadder::classify` for a named type, with what is known of structs. -/
def classifySymbol (comparable : ι → Bool) : Option ι → Str
  | none => "an unresolvable type".toList
  | some sym =>
    if p.kind sym = .TypeParam then "a type parameter".toList
    else if p.kind sym ≠ .Class then "a non-comparable type".toList
    else match p.banned sym with
      | some note => note
      | none =>
        if p.isPrimitive sym then []
        else if p.isValue sym then
          if comparable sym then []
          else "a non-comparable struct ('".toList ++ p.className sym ++ "')".toList
        else []

mutual

/-- `EqLadder::classify`: empty for a type that can be compared. -/
def classify (comparable : ι → Bool) (scope : σ) : TypeRef ι → Str
  | .inferred => "an inferred type".toList
  | .function _ _ => "a function value".toList
  | .union members => classifyAny comparable scope members
  | .named path name generics hygiene =>
    if path = [] ∧ name = "None".toList then []
    else p.classifySymbol comparable (p.resolvedSymbol scope (.named path name generics hygiene))

/-- The first member that cannot be compared. -/
def classifyAny (comparable : ι → Bool) (scope : σ) : List (TypeRef ι) → Str
  | [] => []
  | t :: ts =>
    match classify comparable scope t with
    | [] => classifyAny comparable scope ts
    | bad => bad

end

/-- `EqLadder::structComparable`; the fuel is the number of structs, so that only a struct that
nests itself runs out of it. -/
def structComparable : Nat → ι → Bool
  | 0, _ => false
  | n + 1, sym =>
    if p.explicitEq sym then true
    else if ((p.decl sym).map ClassDecl.generics).getD [] ≠ [] then false
    else (p.dataFields sym).all fun f =>
      p.classify (structComparable n) (p.classScope sym) f.2 = []

/-- `synthesizeStructEquality`: the struct is given a `(==)`. -/
def derives (sym : ι) : Bool :=
  p.inProgram sym && p.isValue sym && !p.isAttribute sym && !p.explicitEq sym &&
    ((p.decl sym).map ClassDecl.generics).getD [] = [] &&
      (p.dataFields sym).all fun f =>
        p.classify (p.structComparable p.structs) (p.classScope sym) f.2 = []

/-- The test of `synthesizeStructEquality` for a plain `float` field. -/
def isFloat (scope : σ) : TypeRef ι → Bool
  | .named [] name generics hygiene =>
    name = "float".toList &&
      match p.resolvedSymbol scope (.named [] name generics hygiene) with
      | none => true
      | some sym => p.isPrimitive sym
  | _ => false

/-! ### The two relations -/

/-- `float.canonEq`; the number in what is no float is zero. -/
def canonEq (l r : Val ι F) : Bool :=
  match l, r with
  | .float a, .float b => p.float.canon a = p.float.canon b
  | .float a, _ => p.float.canon a = p.float.canon (p.float.ofInt 0)
  | _, _ => false

/-- `combine` for `==`, for a left operand of a static type: tags, the `(==)` of an object's class,
else `arithPrim`.  A struct without a `(==)` raises, and gives no answer. -/
def combineEq (t : TypeRef ι) (l r : Val ι F) : Bool :=
  if l.kind = .none ∨ r.kind = .none then arithEq p.float l r
  else
    match l with
    | .object cls ref fields =>
      if p.className cls = "Range".toList then arithEq p.float (.object cls ref fields) r
      else
        match p.equality t cls with
        | some eq => eq (.object cls ref fields) r
        | none =>
          if p.derives cls then
            (p.dataFields cls).all fun f =>
              if p.isFloat (p.classScope cls) f.2 then
                p.canonEq ((Val.object cls ref fields).field f.1) (r.field f.1)
              else combineEq f.2 ((Val.object cls ref fields).field f.1) (r.field f.1)
          else if p.isValue cls then false
          else
            match r with
            | .object _ ref' _ => ref = ref'
            | _ => false
    | l => arithEq p.float l r
termination_by sizeOf l
decreasing_by exact Val.sizeOf_field cls ref fields f.1

/-- One field of a derived `(==)`. -/
def fieldEq (cls : ι) (f : Str × TypeRef ι) (x y : Val ι F) : Bool :=
  if p.isFloat (p.classScope cls) f.2 then p.canonEq x y else p.combineEq f.2 x y

/-- The derived `(==)` of a struct. -/
def derivedEq (cls : ι) (l r : Val ι F) : Bool :=
  (p.dataFields cls).all fun f => p.fieldEq cls f (l.field f.1) (r.field f.1)

/-- `keyEquals`. -/
def keyEquals (a b : Val ι F) : Bool :=
  match a, b with
  | .int i, .int j => i = j
  | .char i, .char j => i = j
  | .string s, .string t => s = t
  | .bool a, .bool b => a = b
  | .float x, .float y => p.float.canon x = p.float.canon y
  | .object cls ref fields, .object cls' ref' fields' =>
    if cls = cls' ∧ p.isValue cls = true then
      fields.length = fields'.length && fields.attach.all fun e =>
        match fields'.find? fun f => f.1 = e.1.1 with
        | none => false
        | some f => keyEquals e.1.2 f.2
    else ref = ref'
  | .none, .none => true
  | .block r, .block r' => r = r'
  -- an `Ast` field is never derived
  | .ast, .ast => true
  | _, _ => false
termination_by sizeOf a
decreasing_by
  obtain ⟨⟨name, value⟩, hmem⟩ := e
  have hlt := List.sizeOf_lt_of_mem hmem
  simp only [Prod.mk.sizeOf_spec, Val.object.sizeOf_spec] at hlt ⊢
  omega

/-! ### The values of a struct -/

/-- The kind of the values a class makes. -/
def kindOf (cls : ι) : Kind ι :=
  if p.kind cls = .Primitive then (kindOfWord (p.className cls)).getD .void
  else if ["Array".toList, "Map".toList, "Block".toList].contains (p.className cls) ∨
      p.native cls = true then
    (kindOfWord (p.className cls)).getD (.object cls)
  else .object cls

mutual

/-- A kind of values that a type has. -/
def HasKind (scope : σ) (k : Kind ι) : TypeRef ι → Prop
  | .inferred => False
  | .function _ _ => k = .closure
  | .union members => HasKindAny scope k members
  | .named path name generics hygiene => ∃ sym cls,
      p.resolvedSymbol scope (.named path name generics hygiene) = some sym ∧
        p.isSubclass cls sym = true ∧ k = p.kindOf cls

def HasKindAny (scope : σ) (k : Kind ι) : List (TypeRef ι) → Prop
  | [] => False
  | t :: ts => HasKind scope k t ∨ HasKindAny scope k ts

end

/-- A value the program can make: an object has the class of its address, and a struct has its
fields, each of its type. -/
inductive Made : Val ι F → Prop
  | plain {v} (h : ∀ cls, v.kind ≠ .object cls) : Made v
  | reference {cls ref fields} (at_ : p.classAt ref = cls) (h : p.isValue cls = false) :
      Made (.object cls ref fields)
  | value {cls ref fields} (at_ : p.classAt ref = cls) (h : p.isValue cls = true)
      (names : fields.map Prod.fst = (p.dataFields cls).map Prod.fst)
      (nodup : (fields.map Prod.fst).Nodup)
      (kinds : ∀ f ∈ p.dataFields cls, p.HasKind (p.classScope cls)
        ((Val.object cls ref fields).field f.1).kind f.2)
      (made : ∀ e ∈ fields, Made e.2) : Made (.object cls ref fields)

/-- A value of a struct. -/
def Value (cls : ι) (v : Val ι F) : Prop := v.kind = .object cls ∧ p.Made v

/-- What a field of a struct may hold. -/
def FieldValue (cls : ι) (f : Str × TypeRef ι) (x : Val ι F) : Prop :=
  p.Made x ∧ p.HasKind (p.classScope cls) x.kind f.2

/-- The derived `(==)` is an equivalence, and agrees with map keys. -/
structure KeyLike (cls : ι) : Prop where
  refl : ∀ v, p.Value cls v → p.derivedEq cls v v = true
  symm : ∀ v w, p.Value cls v → p.Value cls w → p.derivedEq cls v w = true →
    p.derivedEq cls w v = true
  trans : ∀ u v w, p.Value cls u → p.Value cls v → p.Value cls w → p.derivedEq cls u v = true →
    p.derivedEq cls v w = true → p.derivedEq cls u w = true
  keys : ∀ v w, p.Value cls v → p.Value cls w →
    (p.derivedEq cls v w = true ↔ p.keyEquals v w = true)

/-! ### The condition -/

/-- A derived `(==)` takes an object of another class for one of its own: it reads the same in every
field. -/
def Mistakes (c d : ι) : Prop :=
  c ≠ d ∧ ∃ x y, p.Value c x ∧ p.Value d y ∧ p.derivedEq c x y = true

/-- Two objects in a field: the `(==)` that is declared answers as for keys.  A class without one is
compared by identity, a struct by its derived one, which knows its own objects. -/
def ClassFine (t : TypeRef ι) (c d : ι) (x y : Val ι F) : Prop :=
  if p.className c = "Range".toList then p.keyEquals x y = true
  else
    match p.equality t c with
    | some eq => eq x x = true ∧ eq x y = p.keyEquals x y
    | none => p.isValue c = false ∨ (p.derives c = true ∧ ¬p.Mistakes c d)

/-- A field that is not a plain `float`. -/
structure FieldFine (cls : ι) (f : Str × TypeRef ι) : Prop where
  /-- It holds no float, and nothing that is never equal as a key. -/
  scalar : ∀ x, p.FieldValue cls f x → x.kind ∉ [.float, .array, .map, .closure, .void]
  /-- Besides `None` it holds one kind of scalar, or objects. -/
  unmixed : ∀ x y, p.FieldValue cls f x → p.FieldValue cls f y → x.kind = y.kind ∨
    x.kind = .none ∨ y.kind = .none ∨ ∃ c d, x.kind = .object c ∧ y.kind = .object d
  classes : ∀ x y c d, p.FieldValue cls f x → p.FieldValue cls f y → x.kind = .object c →
    y.kind = .object d → p.ClassFine f.2 c d x y

/-- A struct whose derived `(==)` is asked for a field of another. -/
def Nests (c c' : ι) : Prop :=
  ∃ f ∈ p.dataFields c, p.isFloat (p.classScope c) f.2 = false ∧ p.className c' ≠ "Range".toList ∧
    p.equality f.2 c' = none ∧ p.derives c' = true ∧
      ∃ x, p.FieldValue c f x ∧ x.kind = .object c'

/-- The fields of a struct, and of the structs nested in it. -/
def Fine (cls : ι) : Prop :=
  ∀ c, Relation.ReflTransGen p.Nests cls c → ∀ f ∈ p.dataFields c,
    p.isFloat (p.classScope c) f.2 = false → p.FieldFine c f

end EqModel

/-- An accepted program: a primitive that is called `float` is the floats. -/
structure EqProgram (σ ι F : Type) [DecidableEq ι] extends EqModel σ ι F where
  float_kind : ∀ scope generics hygiene sym cls,
    toScopes.resolvedSymbol scope (.named [] "float".toList generics hygiene) = some sym →
      isPrimitive sym = true → toSemanticModel.isSubclass cls sym = true →
        toEqModel.kindOf cls = .float

end Leviathan.Sema
