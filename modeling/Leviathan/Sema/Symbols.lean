import Leviathan.Lib.Fallible
import Leviathan.Lib.Spelling

/-!
# Scopes, symbols and type references

`core/Symbols.hpp`, `core/Ast.hpp` and `Resolver::resolveType`: a scope maps a name
to the symbols it offers, nearest first, and a type reference is resolved in the
scope it is written in.

Symbols and scopes are pointers in the source and arbitrary types here.  A scope's
chain of parents is the list `enclosing`, from the inside out.  The canonical text
of a reference is made of the words it is written with, not of the symbols they
stand for: `canonical` does not look at a scope.
-/

namespace Leviathan.Sema

/-- `enum class SymbolKind`. -/
inductive SymbolKind where
  | Namespace
  | Class
  | Function
  | Var
  | TypeParam
  | Primitive
deriving DecidableEq, Repr

/-- `isTypeKind`. -/
def isTypeKind (k : SymbolKind) : Bool := k = .Class || k = .TypeParam || k = .Primitive

/-- `struct TypeRef`, as it is written.  `hygiene` is the symbol a rule may have put
into `resolvedSymbol` before resolution. -/
inductive TypeRef (ι : Type) where
  | inferred
  | named (path : List Str) (name : Str) (generics : List (TypeRef ι)) (hygiene : Option ι)
  | union (members : List (TypeRef ι))
  | function (params : List (TypeRef ι)) (ret : TypeRef ι)

namespace TypeRef

variable {ι : Type}

/-- Induction over a reference: what holds of the parts holds of the whole. -/
theorem induction {P : TypeRef ι → Prop} (inferred : P .inferred)
    (named : ∀ path name generics hygiene, (∀ g ∈ generics, P g) →
      P (.named path name generics hygiene))
    (union : ∀ members, (∀ m ∈ members, P m) → P (.union members))
    (function : ∀ params ret, (∀ p ∈ params, P p) → P ret → P (.function params ret)) :
    ∀ t, P t := by
  intro t
  refine @TypeRef.rec ι P (fun ts => ∀ t ∈ ts, P t) inferred named union function ?_ ?_ t
  · intro t ht
    cases ht
  · intro t ts ht hts u hu
    rcases List.mem_cons.mp hu with rfl | hu
    · exact ht
    · exact hts u hu

/-- The words of a qualified name. -/
def qualName (path : List Str) (name : Str) : Str :=
  path.flatMap (fun seg => seg ++ "::".toList) ++ name

mutual

/-- The text `resolveType` leaves in `canonical`. -/
def canonical : TypeRef ι → Str
  | .inferred => "var".toList
  | .union members => List.intercalate " | ".toList (canonicals members)
  | .function params ret =>
    "(".toList ++ List.intercalate ", ".toList (canonicals params) ++ ") => ".toList ++
      canonical ret
  | .named path name generics _ =>
    qualName path name ++
      if generics.isEmpty then []
      else "<".toList ++ List.intercalate ", ".toList (canonicals generics) ++ ">".toList

/-- The texts of several references. -/
def canonicals : List (TypeRef ι) → List Str
  | [] => []
  | t :: ts => canonical t :: canonicals ts

end

theorem canonicals_eq_map (ts : List (TypeRef ι)) : canonicals ts = ts.map canonical := by
  induction ts with
  | nil => rfl
  | cons t ts ih => rw [canonicals, ih, List.map_cons]

end TypeRef

/-- A class declaration: its type parameters and its base clause. -/
structure ClassDecl (ι : Type) where
  generics : List ι := []
  bases : List (TypeRef ι) := []
  isAttribute : Bool := false

/-- The symbols and scopes of a program. -/
structure Scopes (σ ι : Type) where
  kind : ι → SymbolKind
  decl : ι → Option (ClassDecl ι)
  scope : ι → Option σ
  enclosing : σ → List σ
  names : σ → Str → List ι

namespace Scopes

variable {σ ι : Type} (s : Scopes σ ι)

/-- `findLocal`. -/
def findLocal (scope : σ) (name : Str) (k : SymbolKind) : Option ι :=
  (s.names scope name).find? (fun sym => s.kind sym = k)

/-- `Scope::lookup`: the first symbol of the nearest scope that offers the name. -/
def lookup (scope : σ) (name : Str) : Option ι :=
  (s.enclosing scope).findSome? (fun sc => (s.names sc name).head?)

/-- The class declared by an attribute. -/
def isAttribute (sym : ι) : Bool := (s.decl sym).any ClassDecl.isAttribute

/-- A type that is not an attribute. -/
def isPlainType (sym : ι) : Bool := isTypeKind (s.kind sym) && !s.isAttribute sym

/-- The symbol of an unqualified name: an attribute gives way to a type of its name
that is none, and the symbol a rule has put in is used if no type is found. -/
def unqualified (scope : σ) (name : Str) (hygiene : Option ι) : Option ι :=
  let hygieneSym := hygiene.filter (fun sym => isTypeKind (s.kind sym))
  let found := match s.lookup scope name with
    | none => none
    | some sym =>
      if s.isAttribute sym then
        match (s.enclosing scope).findSome? (fun sc => (s.names sc name).find? s.isPlainType) with
        | some nonAttr => some nonAttr
        | none => some sym
      else some sym
  match hygieneSym, found with
  | some h, none => some h
  | some h, some sym => if isTypeKind (s.kind sym) then some sym else some h
  | none, found => found

/-- The namespace a path leads to: its first word from the inside out, the others
one inside the other. -/
def navigate (scope : σ) : List Str → Except Str ι
  | [] => .error []
  | seg :: segs => do
    let step (ns : Option ι) (seg : Str) : Except Str ι :=
      match ns with
      | some ns => .ok ns
      | none => .error ("unknown namespace '".toList ++ seg ++ "'".toList)
    let first ← step ((s.enclosing scope).findSome? (fun sc => s.findLocal sc seg .Namespace)) seg
    segs.foldlM (fun ns seg =>
      step ((s.scope ns).bind (fun sc => s.findLocal sc seg .Namespace)) seg) first

/-- The type of a name in the scope a path has led to. -/
def typeIn (sc : σ) (name : Str) : Option ι :=
  match (s.names sc name).find? s.isPlainType with
  | some sym => some sym
  | none => (s.names sc name).find? (fun sym => isTypeKind (s.kind sym))

/-- `resolveType` on a named type: its symbol, or the error reported. -/
def resolveNamed (scope : σ) (path : List Str) (name : Str) (hygiene : Option ι) :
    Except Str ι := do
  let found ← match path with
    | [] => .ok (s.unqualified scope name hygiene)
    | _ => do
      let ns ← s.navigate scope path
      .ok ((s.scope ns).bind (fun sc => s.typeIn sc name))
  match found with
  | none => .error ("unknown type '".toList ++ TypeRef.qualName path name ++ "'".toList)
  | some sym =>
    if isTypeKind (s.kind sym) then .ok sym
    else .error ("'".toList ++ TypeRef.qualName path name ++ "' is not a type".toList)

/-- The symbol a reference is resolved to; only named types have one. -/
def resolvedSymbol (scope : σ) : TypeRef ι → Option ι
  | .named path name _ hygiene => (s.resolveNamed scope path name hygiene).toOption
  | _ => none

/-- The symbols of a class's base clause, which is resolved in the class's scope. -/
def baseSymbols (cls : ι) : List ι :=
  match s.decl cls, s.scope cls with
  | some d, some sc => d.bases.filterMap (s.resolvedSymbol sc)
  | _, _ => []

end Scopes

/-- The symbols of an accepted program.  The resolver refuses a class that inherits
from itself, so the classes can be ranked above their bases. -/
structure SemanticModel (σ ι : Type) extends Scopes σ ι where
  rank : ι → Nat
  rank_lt : ∀ cls, ∀ base ∈ toScopes.baseSymbols cls, rank base < rank cls

end Leviathan.Sema
