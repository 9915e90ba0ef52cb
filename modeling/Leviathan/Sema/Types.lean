import Leviathan.Sema.Symbols

/-!
# Types of the checker and assignability

`struct Type` and, from `Checker.cpp`, `fromTypeRef`, `isSubclass`,
`sameNominalType` and `assignable`.  A type keeps the text of the reference it was
made from; `assignable` compares types by these texts first, and by symbols only if
the texts differ.

`isSubclass` walks the base clauses.  It follows every chain of bases
(`isSubclass_iff`), since a class ranks above its bases.
-/

namespace Leviathan.Sema

/-- `struct Type`. -/
inductive Ty (ι : Type) where
  | primitive (canonical : Str)
  | class_ (sym : ι) (canonical : Str) (args : List (Ty ι))
  | typeValue (sym : ι) (canonical : Str)
  | funcRef (canonical : Str) (ret : Option (Ty ι))
  | union (canonical : Str) (members : List (Ty ι))
  | unknown
  | error

/-- `Type::canonical`. -/
def Ty.canonical {ι : Type} : Ty ι → Str
  | .primitive canonical => canonical
  | .class_ _ canonical _ => canonical
  | .typeValue _ canonical => canonical
  | .funcRef canonical _ => canonical
  | .union canonical _ => canonical
  | .unknown => []
  | .error => []

section
variable {σ ι : Type} (s : Scopes σ ι) (scope : σ)

mutual

/-- `fromTypeRef`, for a reference resolved in a scope. -/
def fromTypeRef : TypeRef ι → Ty ι
  | .inferred => .unknown
  | .union members => .union (TypeRef.canonical (.union members)) (fromTypeRefs members)
  | .function params ret =>
    .funcRef (TypeRef.canonical (.function params ret)) (some (fromTypeRef ret))
  | .named path name generics hygiene =>
    match s.resolvedSymbol scope (.named path name generics hygiene) with
    | some sym =>
      if s.kind sym = .Primitive then
        .primitive (TypeRef.canonical (.named path name generics hygiene))
      else if s.kind sym = .Class then
        .class_ sym (TypeRef.canonical (.named path name generics hygiene))
          (fromTypeRefs generics)
      else .unknown
    | none => .unknown

/-- The types of several references. -/
def fromTypeRefs : List (TypeRef ι) → List (Ty ι)
  | [] => []
  | t :: ts => fromTypeRef t :: fromTypeRefs ts

end

theorem fromTypeRefs_eq_map (ts : List (TypeRef ι)) :
    fromTypeRefs s scope ts = ts.map (fromTypeRef s scope) := by
  induction ts with
  | nil => rfl
  | cons t ts ih => rw [fromTypeRefs, ih, List.map_cons]

end

section
variable {ι : Type} [DecidableEq ι]

mutual

/-- `sameNominalType`. -/
def sameNominalType : Ty ι → Ty ι → Bool
  | .class_ a ca as, .class_ b cb bs => ca = cb || (a = b && sameNominalTypes as bs)
  | a, b => a.canonical = b.canonical

/-- `sameNominalType` argument by argument. -/
def sameNominalTypes : List (Ty ι) → List (Ty ι) → Bool
  | [], [] => true
  | a :: as, b :: bs => sameNominalType a b && sameNominalTypes as bs
  | _, _ => false

end

end

namespace SemanticModel

variable {σ ι : Type} [DecidableEq ι] (s : SemanticModel σ ι)

/-- `isSubclass`, over at most `n` base clauses. -/
def isSubclassIn : Nat → ι → ι → Bool
  | 0, a, b => a = b
  | n + 1, a, b => a = b || (s.baseSymbols a).any (fun base => isSubclassIn n base b)

/-- `isSubclass`; a class has at most as many classes above it as its rank. -/
def isSubclass (a b : ι) : Bool := s.isSubclassIn (s.rank a) a b

/-- A text without an opening bracket: the class is given without arguments. -/
def isRaw (canonical : Str) : Bool := !canonical.contains '<'

/-- `assignable` for a target that is neither lenient nor a union. -/
def assignableTo (source target : Ty ι) : Bool :=
  source.canonical = target.canonical ||
    match source, target with
    | .class_ a ca as, .class_ b cb bs =>
      if a = b then isRaw ca || isRaw cb || sameNominalTypes as bs
      else s.isSubclass a b
    | _, _ => false

mutual

/-- `assignable` for a source that is neither lenient nor a union. -/
def assignableInto (source : Ty ι) : Ty ι → Bool
  | .unknown => true
  | .error => true
  | .union canonical members => assignableIntoAny source members || source.canonical = canonical
  | .primitive canonical => s.assignableTo source (.primitive canonical)
  | .class_ sym canonical args => s.assignableTo source (.class_ sym canonical args)
  | .typeValue sym canonical => s.assignableTo source (.typeValue sym canonical)
  | .funcRef canonical ret => s.assignableTo source (.funcRef canonical ret)

/-- Some member of a union takes the source. -/
def assignableIntoAny (source : Ty ι) : List (Ty ι) → Bool
  | [] => false
  | m :: ms => assignableInto source m || assignableIntoAny source ms

end

/-- `assignable` from a union to a target that is not one. -/
def unionAssignable (canonical : Str) : Ty ι → Bool
  | .unknown => true
  | .error => true
  | target => canonical = target.canonical

mutual

/-- `assignable`. -/
def assignable : Ty ι → Ty ι → Bool
  | .unknown, _ => true
  | .error, _ => true
  | .typeValue _ _, _ => true
  | .funcRef _ _, _ => true
  | .union _ members, .union canonical targets =>
    assignableAll members (.union canonical targets)
  | .union canonical _, target => unionAssignable canonical target
  | .primitive canonical, target => s.assignableInto (.primitive canonical) target
  | .class_ sym canonical args, target => s.assignableInto (.class_ sym canonical args) target

/-- Every member of a union is assignable to the target. -/
def assignableAll : List (Ty ι) → Ty ι → Bool
  | [], _ => true
  | m :: ms, target => assignable m target && assignableAll ms target

end

/-- `b` stands in the base clause of `a`. -/
def Base (a b : ι) : Prop := b ∈ s.baseSymbols a

omit [DecidableEq ι] in
/-- A class ranks above everything it inherits from. -/
theorem rank_lt_of_transGen {a b : ι} (h : Relation.TransGen s.Base a b) : s.rank b < s.rank a := by
  induction h with
  | single h => exact s.rank_lt _ _ h
  | tail _ h ih => exact (s.rank_lt _ _ h).trans ih

/-- What the walk finds is above the class. -/
theorem reflTransGen_of_isSubclassIn {n : Nat} {a b : ι} (h : s.isSubclassIn n a b = true) :
    Relation.ReflTransGen s.Base a b := by
  induction n generalizing a with
  | zero =>
    rw [isSubclassIn, decide_eq_true_eq] at h
    rw [h]
  | succ n ih =>
    rw [isSubclassIn, Bool.or_eq_true, decide_eq_true_eq, List.any_eq_true] at h
    rcases h with rfl | ⟨base, hbase, h⟩
    · exact .refl
    · exact .head hbase (ih h)

/-- A walk over as many base clauses as the rank of the class misses nothing. -/
theorem isSubclassIn_of_reflTransGen {a b : ι} (h : Relation.ReflTransGen s.Base a b) {n : Nat}
    (hn : s.rank a ≤ n) : s.isSubclassIn n a b = true := by
  induction h using Relation.ReflTransGen.head_induction_on generalizing n with
  | refl =>
    cases n <;> simp [isSubclassIn]
  | head hbase _ ih =>
    have hlt := s.rank_lt _ _ hbase
    cases n with
    | zero => omega
    | succ n =>
      rw [isSubclassIn, Bool.or_eq_true, List.any_eq_true]
      exact .inr ⟨_, hbase, ih (by omega)⟩

/-- **Subclasses.**  `isSubclass` holds exactly of a class and what it inherits from. -/
theorem isSubclass_iff {a b : ι} : s.isSubclass a b = true ↔ Relation.ReflTransGen s.Base a b :=
  ⟨s.reflTransGen_of_isSubclassIn, fun h => s.isSubclassIn_of_reflTransGen h le_rfl⟩

/-- Two classes that inherit from each other are one. -/
theorem isSubclass_antisymm {a b : ι} (hab : s.isSubclass a b = true)
    (hba : s.isSubclass b a = true) : a = b := by
  rw [isSubclass_iff, Relation.reflTransGen_iff_eq_or_transGen] at hab hba
  rcases hab with hab | hab
  · exact hab.symm
  · rcases hba with hba | hba
    · exact hba
    · have hlt := s.rank_lt_of_transGen (hab.trans hba)
      omega

end SemanticModel

end Leviathan.Sema
