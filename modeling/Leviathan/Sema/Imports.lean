import Leviathan.Sema.Gather

/-!
# Carrying out the imports

`processImports` and what follows it in `Resolver::run`.  Every `use` at the top of a
file comes first, into the overlay of its file; then the items are taken in order: a
`uses` fills the overlay of its file, a namespace block carries out the imports in it.
At last every namespace gets the overlays of the files it has blocks in, and the type
references are resolved (`Item.resolve`).
-/

namespace Leviathan.Sema

open Interleave (Effect Action after seq effects run own Apart)

/-- Where an import comes from: the top of a file, or a namespace block. -/
inductive Origin where
  | file (id : Nat)
  | block (node : Nat)
deriving DecidableEq

/-- A `use`, as an import into a scope. -/
def Item.useInto (into : ScopeId) : Item → Option (Action (ScopeId × Str) Sym Str)
  | .import_ (.use path bound) => some (importAction into (.use path bound))
  | _ => none

mutual

/-- What `processImports` does for an item of a namespace body after all `use`. -/
def Item.blockActions (path : List Str) : Item → List (Action (ScopeId × Str) Sym Str)
  | .import_ (.uses ns) => [importAction (.space path) (.uses ns)]
  | .namespace_ _ name body =>
    body.filterMap (Item.useInto (.space (name :: path))) ++ blockActionsAll (name :: path) body
  | _ => []

/-- The same for several items. -/
def blockActionsAll (path : List Str) : List Item → List (Action (ScopeId × Str) Sym Str)
  | [] => []
  | item :: items => item.blockActions path ++ blockActionsAll path items

end

/-- The first round of `processImports` at the top. -/
def useAction (x : Nat × Item) : Option (Origin × Action (ScopeId × Str) Sym Str) :=
  (x.2.useInto (.file x.1)).map (fun a => (.file x.1, a))

/-- The second round: a `uses`, or a whole namespace block. -/
def usesAction (x : Nat × Item) : Option (Origin × Action (ScopeId × Str) Sym Str) :=
  match x.2 with
  | .import_ (.uses path) => some (.file x.1, importAction (.file x.1) (.uses path))
  | .namespace_ node name body =>
    some (.block node, seq ((Item.namespace_ node name body).blockActions []))
  | _ => none

/-- The file an item stands in, if it is a block of the namespace. -/
def blockFile (name : Str) (x : Nat × Item) : Option Nat :=
  match x.2 with
  | .namespace_ _ n _ => if n = name then some x.1 else none
  | _ => none

namespace Program

variable (p : Program)

/-- The tables after all `use` at the top of a file. -/
def withUse : Names := run (p.items.filterMap useAction) p.withStd

/-- The tables after all imports. -/
def withImports : Names := run (p.items.filterMap usesAction) p.withUse

/-- What the imports report. -/
def importErrors : List Str :=
  ((effects (p.items.filterMap useAction) p.withStd).flatMap (fun e => e.2.reports)) ++
    (effects (p.items.filterMap usesAction) p.withUse).flatMap (fun e => e.2.reports)

/-- The files that have a block of a namespace, in the order of their first ones. -/
def blockFiles (name : Str) : List Nat :=
  (p.items.filterMap (blockFile name)).foldl (fun fs f => if f ∈ fs then fs else fs ++ [f]) []

/-- The tables types are resolved in. -/
def names : Names := fun k =>
  match k.1 with
  | .aggregate name =>
    p.withImports k ++ (p.blockFiles name).flatMap (fun f => p.withImports (.file f, k.2))
  | _ => p.withImports k

end Program

/-! ### Type references -/

mutual

/-- `resolveType`: what each name in a reference is resolved to. -/
def resolveType (s : Scopes ScopeId Sym) (scope : ScopeId) : TypeRef Sym → List (Except Str Sym)
  | .inferred => []
  | .union members => resolveTypes s scope members
  | .function params ret => resolveTypes s scope params ++ resolveType s scope ret
  | .named path name generics hygiene =>
    s.resolveNamed scope path name hygiene :: resolveTypes s scope generics

/-- `resolveType` on several references. -/
def resolveTypes (s : Scopes ScopeId Sym) (scope : ScopeId) :
    List (TypeRef Sym) → List (Except Str Sym)
  | [] => []
  | t :: ts => resolveType s scope t ++ resolveTypes s scope ts

end

/-- An import of the bulk kind. -/
def Import.isUses : Import → Bool
  | .uses _ => true
  | .use _ _ => false

mutual

/-- `resolveStmtTypes`; a block with imports has a scope of its own. -/
def Body.resolve (names : Names) (scope : ScopeId) : Body → List (Except Str Sym)
  | .ref type => resolveType (scopesOf names) scope type
  | .block node imports body =>
    if imports = [] then resolveBodies names scope body
    else
      let inner := .inner scope node
      let ordered := imports.filter (fun i => !i.isUses) ++ imports.filter Import.isUses
      let effect := (seq (ordered.map (importAction inner))).effect names
      effect.reports.map .error ++ resolveBodies (after names effect) inner body

/-- `resolveStmtTypes` on several statements. -/
def resolveBodies (names : Names) (scope : ScopeId) : List Body → List (Except Str Sym)
  | [] => []
  | b :: bs => b.resolve names scope ++ resolveBodies names scope bs

end

/-- `resolveMember`: a generic member has a scope for its type parameters. -/
def resolveMember (names : Names) (scope : ScopeId) (m : MemberBody) : List (Except Str Sym) :=
  if m.generics = [] then resolveBodies names scope m.body
  else
    let inner := .inner scope m.node
    let params := m.generics.map (fun g => (⟨(inner, g), .typeParam m.node g⟩ : Declaration))
    resolveBodies (params.foldl declare names) inner m.body

mutual

/-- `resolveTypesIn` on an item of a scope, whose own types are resolved in `lex`. -/
def Item.resolve (names : Names) (scope lex : ScopeId) : Item → List (Except Str Sym)
  | .namespace_ _ name body =>
    resolveItems names (.space (spaceIn scope name)) (.space (spaceIn scope name)) body
  | .class_ _ name _ _ bases members =>
    let classScope :=
      (((scopesOf names).findLocal scope name .Class).bind Sym.scope).getD lex
    resolveTypes (scopesOf names) classScope bases ++
      members.flatMap (resolveMember names classScope)
  | .function _ member => resolveMember names lex member
  | .var _ _ body => resolveBodies names lex body
  | .import_ _ => []
  | .other body => resolveBodies names lex body

/-- `resolveTypesIn` on several items. -/
def resolveItems (names : Names) (scope lex : ScopeId) : List Item → List (Except Str Sym)
  | [] => []
  | item :: items => item.resolve names scope lex ++ resolveItems names scope lex items

end

/-- The message of a reference that is not resolved. -/
def errorOf : Except Str Sym → Option Str
  | .ok _ => none
  | .error msg => some msg

namespace Program

variable (p : Program)

/-- What the references in an item of a file are resolved to. -/
def resolutions (x : Nat × Item) : List (Except Str Sym) :=
  x.2.resolve p.names .global (.file x.1)

/-- Everything that is reported. -/
def errors : List Str :=
  p.gathered.2 ++ p.importErrors ++ p.items.flatMap (fun x => (p.resolutions x).filterMap errorOf)

end Program

end Leviathan.Sema
