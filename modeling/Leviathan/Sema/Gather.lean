import Leviathan.Lib.Interleave
import Leviathan.Sema.Symbols

/-!
# Gathering and importing names

The first half of `Resolver::run`: the declarations of the prelude and of every file
are gathered into one tree of scopes, `std` is put into the global scope, and the
imports are carried out, each into the overlay of its file or into the namespace it
stands in.  A namespace sees the overlays of all files that have a block of it, through
an overlay of its own (`aggregate`).  Type references are resolved in the tables that
result.

An import copies what the tables hold when it is carried out.  So it is an action on
append-only tables, with the entries it looks at as its reads (`importAction`).

What `run` does before (enums, constants it adds) and after (binds, equality of
structs, shapes) is not part of this.  The offsets of the source, from which the file
of an item is found, are the `id` of a file here.
-/

namespace Leviathan.Sema

open Interleave (Effect Action after seq)

/-- The scopes of a program.  The path of a namespace has its own name first. -/
inductive ScopeId where
  | global
  | file (id : Nat)
  | aggregate (name : Str)
  | space (path : List Str)
  | inner (parent : ScopeId) (node : Nat)
deriving DecidableEq

/-- The symbols of a program; `node` is the declaration. -/
inductive Sym where
  | primitive (name : Str)
  | space (path : List Str)
  | cls (parent : ScopeId) (node : Nat) (isAttribute : Bool)
  | function (node : Nat)
  | var (node : Nat)
  | typeParam (node : Nat) (name : Str)
deriving DecidableEq

/-- The kind of a symbol. -/
def Sym.kind : Sym → SymbolKind
  | .primitive _ => .Primitive
  | .space _ => .Namespace
  | .cls _ _ _ => .Class
  | .function _ => .Function
  | .var _ => .Var
  | .typeParam _ _ => .TypeParam

/-- The inner scope of a namespace or a class. -/
def Sym.scope : Sym → Option ScopeId
  | .space path => some (.space path)
  | .cls parent node _ => some (.inner parent node)
  | _ => none

/-- An attribute's class. -/
def Sym.isAttribute : Sym → Bool
  | .cls _ _ isAttribute => isAttribute
  | _ => false

/-- The table of a scope, for every scope. -/
abbrev Names := ScopeId × Str → List Sym

/-- The scopes from one inside a namespace outwards. -/
def spaceChain : List Str → List ScopeId
  | [] => [.global]
  | [name] => [.space [name], .aggregate name, .global]
  | name :: outer => .space (name :: outer) :: spaceChain outer

/-- The chain of `parent` scopes. -/
def enclosing : ScopeId → List ScopeId
  | .global => [.global]
  | .file id => [.file id, .global]
  | .aggregate name => [.aggregate name, .global]
  | .space path => spaceChain path
  | .inner parent node => .inner parent node :: enclosing parent

/-- The symbols and scopes with these tables. -/
def scopesOf (names : Names) : Scopes ScopeId Sym where
  kind := Sym.kind
  decl
    | .cls _ _ isAttribute => some { isAttribute := isAttribute }
    | _ => none
  scope := Sym.scope
  enclosing := enclosing
  names scope name := names (scope, name)

/-! ### The program -/

/-- `use Path::name (as bound);` and `uses Path;`. -/
inductive Import where
  | use (path : List Str) (bound : Str)
  | uses (path : List Str)
deriving DecidableEq

/-- What stands in a body, as far as names are resolved in it: references to types, and
blocks with imports of their own. -/
inductive Body where
  | ref (type : TypeRef Sym)
  | block (node : Nat) (imports : List Import) (body : List Body)

/-- A member of a class or a free function. -/
structure MemberBody where
  node : Nat
  generics : List Str := []
  body : List Body := []

/-- A declaration or a statement outside of bodies. -/
inductive Item where
  | namespace_ (node : Nat) (name : Str) (body : List Item)
  | class_ (node : Nat) (name : Str) (isAttribute : Bool) (generics : List Str)
      (bases : List (TypeRef Sym)) (members : List MemberBody)
  | function (name : Str) (member : MemberBody)
  | var (node : Nat) (name : Str) (body : List Body)
  | import_ (stmt : Import)
  | other (body : List Body)

/-- A source file. -/
structure SourceFile where
  id : Nat
  items : List Item

/-- An item that is an import. -/
def Item.isImport : Item → Bool
  | .import_ _ => true
  | _ => false

/-- The node of a namespace block. -/
def Item.blockNode : Item → Option Nat
  | .namespace_ node _ _ => some node
  | _ => none

/-- A program: the prelude and the files.  Files are told apart, and so are blocks. -/
structure Program where
  prelude : List Item
  files : List SourceFile
  files_nodup : (files.map SourceFile.id).Nodup
  blocks_nodup : (files.flatMap (fun f => f.items.filterMap Item.blockNode)).Nodup

/-- The items of all files, each with its file. -/
def Program.items (p : Program) : List (Nat × Item) :=
  p.files.flatMap (fun f => f.items.map (fun item => (f.id, item)))

/-! ### Gathering -/

/-- A name that `gatherInto` adds to a scope. -/
structure Declaration where
  key : ScopeId × Str
  sym : Sym
deriving DecidableEq

/-- The scope of a namespace that is declared in a scope. -/
def spaceIn : ScopeId → Str → List Str
  | .space path, name => name :: path
  | _, name => [name]

mutual

/-- What `gatherInto` adds for an item, in order.  A class is the child of `parent`: of
the scope it is declared in, or of the overlay of its file. -/
def Item.declarations (scope parent : ScopeId) : Item → List Declaration
  | .namespace_ _ name body =>
    ⟨(scope, name), .space (spaceIn scope name)⟩ ::
      declarationsAll (.space (spaceIn scope name)) (.space (spaceIn scope name)) body
  | .class_ node name isAttribute generics _ _ =>
    ⟨(scope, name), .cls parent node isAttribute⟩ ::
      generics.map (fun g => ⟨(.inner parent node, g), .typeParam node g⟩)
  | .function name member => [⟨(scope, name), .function member.node⟩]
  | .var node name _ => [⟨(scope, name), .var node⟩]
  | .import_ _ => []
  | .other _ => []

/-- What `gatherInto` adds for several items. -/
def declarationsAll (scope parent : ScopeId) : List Item → List Declaration
  | [] => []
  | item :: items => item.declarations scope parent ++ declarationsAll scope parent items

end

/-- A symbol more under a name; a namespace that is there already is reopened. -/
def addSym (syms : List Sym) (sym : Sym) : List Sym :=
  if sym.kind = .Namespace ∧ syms.any (fun s => s.kind = .Namespace) = true then syms
  else syms ++ [sym]

/-- One name is added. -/
def declare (names : Names) (d : Declaration) : Names :=
  fun k => if k = d.key then addSym (names k) d.sym else names k

/-- What is reported then. -/
def duplicate (names : Names) (d : Declaration) : List Str :=
  if d.sym.kind = .Class ∧ (names d.key).any (fun s => s.kind = .Class) = true then
    ["duplicate class '".toList ++ d.key.2 ++ "'".toList]
  else []

/-- `gatherInto`: the tables with these names, and what is reported. -/
def gatherInto : List Declaration → Names → Names × List Str
  | [], names => (names, [])
  | d :: ds, names =>
    let rest := gatherInto ds (declare names d)
    (rest.1, duplicate names d ++ rest.2)

/-- The global scope before anything is gathered. -/
def primitives : Names := fun k =>
  if k = (.global, "void".toList) then [.primitive "void".toList]
  else if k = (.global, "None".toList) then [.primitive "None".toList]
  else []

namespace Program

variable (p : Program)

/-- The names of the files, in order. -/
def fileDeclarations : List Declaration :=
  p.items.flatMap (fun x => x.2.declarations .global (.file x.1))

/-- All names, in order. -/
def declarations : List Declaration :=
  declarationsAll .global .global p.prelude ++ p.fileDeclarations

/-- The tables when everything is gathered, with what is reported. -/
def gathered : Names × List Str := gatherInto p.declarations primitives

/-- The names of `std` are in the global scope. -/
def withStd : Names :=
  let names := p.gathered.1
  match ((scopesOf names).findLocal .global "std".toList .Namespace).bind Sym.scope with
  | some std => fun k => if k.1 = .global then names k ++ names (std, k.2) else names k
  | none => names

end Program

/-! ### Imports -/

/-- What a `use` finds: the last word of its path and the symbols it stands for.  A
single word is looked up from the inside out, the others in the namespace they name. -/
def useFound (names : Names) (into : ScopeId) (path : List Str) :
    Except Str (Option (Str × List Sym)) :=
  match path.getLast?, path.dropLast with
  | none, _ => .ok none
  | some name, [] =>
    .ok (some (name, ((enclosing into).findSome? (fun sc =>
      if names (sc, name) = [] then none else some (names (sc, name)))).getD []))
  | some name, segs => do
    let ns ← (scopesOf names).navigate into segs
    .ok (some (name, (ns.scope.map (fun sc => names (sc, name))).getD []))

/-- What an import copies: the entries it appends to the scope it is for, or the error
reported. -/
def Import.found (names : Names) (into : ScopeId) : Import → Except Str (Str → List Sym)
  | .uses [] => .ok fun _ => []
  | .uses path => do
    let ns ← (scopesOf names).navigate into path
    match ns.scope with
    | some sc => .ok fun name => (names (sc, name)).filter (fun sym => !sym.isAttribute)
    | none => .ok fun _ => []
  | .use path bound => do
    match ← useFound names into path with
    | none => .ok fun _ => []
    | some (name, []) => .error ("unknown name '".toList ++ name ++ "'".toList)
    | some (_, found) => .ok fun x => if x = bound then found else []

/-- `importOne` and `useOne`. -/
def importEffect (into : ScopeId) (stmt : Import) (names : Names) :
    Effect (ScopeId × Str) Sym Str :=
  match stmt.found names into with
  | .ok found => ⟨fun k => if k.1 = into then found k.2 else [], []⟩
  | .error msg => ⟨fun _ => [], [msg]⟩

/-- The entries looked at on the way through nested namespaces. -/
def stepReads (names : Names) : Sym → List Str → List (ScopeId × Str)
  | _, [] => []
  | ns, seg :: segs =>
    match ns.scope with
    | some sc =>
      (sc, seg) :: match (scopesOf names).findLocal sc seg .Namespace with
        | some inner => stepReads names inner segs
        | none => []
    | none => []

/-- The entries `navigate` looks at. -/
def navReads (names : Names) (scope : ScopeId) : List Str → List (ScopeId × Str)
  | [] => []
  | seg :: segs =>
    (enclosing scope).map (fun sc => (sc, seg)) ++
      match (enclosing scope).findSome? (fun sc => (scopesOf names).findLocal sc seg .Namespace) with
      | some ns => stepReads names ns segs
      | none => []

/-- The entries an import looks at. -/
def Import.Reads (names : Names) (into : ScopeId) (k : ScopeId × Str) : Import → Prop
  | .uses path =>
    k ∈ navReads names into path ∨
      ∃ ns, (scopesOf names).navigate into path = .ok ns ∧ ns.scope = some k.1
  | .use path _ =>
    (k.1 ∈ enclosing into ∧ path.dropLast = [] ∧ path.getLast? = some k.2) ∨
      k ∈ navReads names into path.dropLast ∨
      ∃ ns, (scopesOf names).navigate into path.dropLast = .ok ns ∧ ns.scope = some k.1 ∧
        path.getLast? = some k.2

theorem findSome?_congr {α β : Type} {f g : α → Option β} {l : List α}
    (h : ∀ x ∈ l, f x = g x) : l.findSome? f = l.findSome? g := by
  induction l with
  | nil => rfl
  | cons x l ih =>
    rw [List.findSome?_cons, List.findSome?_cons, h x List.mem_cons_self,
      ih fun y hy => h y (List.mem_cons_of_mem _ hy)]

theorem findLocal_congr {names names' : Names} {sc : ScopeId} {seg : Str}
    (h : names (sc, seg) = names' (sc, seg)) (k : SymbolKind) :
    (scopesOf names).findLocal sc seg k = (scopesOf names').findLocal sc seg k := by
  unfold Scopes.findLocal scopesOf
  dsimp only
  rw [h]

/-- One step inside a namespace. -/
def stepInto (names : Names) (ns : Sym) (seg : Str) : Except Str Sym :=
  match ns.scope.bind (fun sc => (scopesOf names).findLocal sc seg .Namespace) with
  | some inner => .ok inner
  | none => .error ("unknown namespace '".toList ++ seg ++ "'".toList)

theorem navigate_cons (names : Names) (scope : ScopeId) (seg : Str) (segs : List Str) :
    (scopesOf names).navigate scope (seg :: segs) =
      match (enclosing scope).findSome? (fun sc => (scopesOf names).findLocal sc seg .Namespace) with
      | some ns => segs.foldlM (stepInto names) ns
      | none => .error ("unknown namespace '".toList ++ seg ++ "'".toList) := by
  have henclosing : (scopesOf names).enclosing scope = enclosing scope := rfl
  cases h : (enclosing scope).findSome?
      (fun sc => (scopesOf names).findLocal sc seg .Namespace) with
  | none => simp only [Scopes.navigate, henclosing, h, error_bind]
  | some ns =>
    simp only [Scopes.navigate, henclosing, h, ok_bind]
    congr 1
    funext ns seg
    unfold stepInto
    have hscope : (scopesOf names).scope ns = ns.scope := rfl
    rw [hscope]
    cases ns.scope.bind (fun sc => (scopesOf names).findLocal sc seg .Namespace) with
    | none => rfl
    | some inner => rfl

theorem foldlM_stepInto_congr {names names' : Names} {segs : List Str} {ns : Sym}
    (h : ∀ k ∈ stepReads names ns segs, names k = names' k) :
    segs.foldlM (stepInto names) ns = segs.foldlM (stepInto names') ns := by
  induction segs generalizing ns with
  | nil => rfl
  | cons seg segs ih =>
    rw [List.foldlM_cons, List.foldlM_cons]
    unfold stepInto
    rw [stepReads] at h
    cases hscope : ns.scope with
    | none => rfl
    | some sc =>
      rw [hscope] at h
      have hfound := findLocal_congr (h (sc, seg) List.mem_cons_self) .Namespace
      rw [Option.bind_some, Option.bind_some, ← hfound]
      cases hinner : (scopesOf names).findLocal sc seg .Namespace with
      | none => rfl
      | some inner =>
        dsimp only at h
        rw [hinner] at h
        exact ih fun k hk => h k (List.mem_cons_of_mem _ hk)

/-- Navigation depends on the entries it looks at. -/
theorem navigate_congr {names names' : Names} {scope : ScopeId} {path : List Str}
    (h : ∀ k ∈ navReads names scope path, names k = names' k) :
    (scopesOf names).navigate scope path = (scopesOf names').navigate scope path := by
  cases path with
  | nil => rfl
  | cons seg segs =>
    rw [navReads] at h
    have hhead : (enclosing scope).findSome?
          (fun sc => (scopesOf names).findLocal sc seg .Namespace) =
        (enclosing scope).findSome?
          (fun sc => (scopesOf names').findLocal sc seg .Namespace) := by
      apply findSome?_congr
      intro sc hsc
      apply findLocal_congr
      apply h
      exact List.mem_append_left _ (List.mem_map_of_mem hsc)
    rw [navigate_cons, navigate_cons, ← hhead]
    cases hns : (enclosing scope).findSome?
        (fun sc => (scopesOf names).findLocal sc seg .Namespace) with
    | none => rfl
    | some ns =>
      rw [hns] at h
      exact foldlM_stepInto_congr fun k hk => h k (List.mem_append_right _ hk)

/-- What a `use` finds depends on the entries it looks at. -/
theorem useFound_congr {names names' : Names} {into : ScopeId} {path : List Str} {bound : Str}
    (h : ∀ k, (Import.use path bound).Reads names into k → names k = names' k) :
    useFound names into path = useFound names' into path := by
  unfold useFound
  cases hlast : path.getLast? with
  | none => rfl
  | some name =>
    cases hsegs : path.dropLast with
    | nil =>
      have hentry : ∀ sc ∈ enclosing into, names (sc, name) = names' (sc, name) :=
        fun sc hsc => h (sc, name) (.inl ⟨hsc, hsegs, hlast⟩)
      dsimp only
      congr 4
      apply findSome?_congr
      intro sc hsc
      rw [hentry sc hsc]
    | cons seg segs =>
      have hnav := navigate_congr fun k hk => h k (.inr (.inl hk))
      rw [hsegs] at hnav
      dsimp only
      rw [← hnav]
      cases hns : (scopesOf names).navigate into (seg :: segs) with
      | error msg => rfl
      | ok ns =>
        rw [ok_bind, ok_bind]
        cases hscope : ns.scope with
        | none => rfl
        | some sc =>
          rw [Option.map_some, Option.map_some,
            h (sc, name) (.inr (.inr ⟨ns, by rw [hsegs]; exact hns, hscope, hlast⟩))]

/-- What an import copies depends on the entries it looks at. -/
theorem Import.found_congr {names names' : Names} {into : ScopeId} {stmt : Import}
    (h : ∀ k, stmt.Reads names into k → names k = names' k) :
    stmt.found names into = stmt.found names' into := by
  cases stmt with
  | uses path =>
    cases path with
    | nil => rfl
    | cons seg segs =>
      have hnav := navigate_congr fun k hk => h k (.inl hk)
      dsimp only [Import.found]
      rw [← hnav]
      cases hns : (scopesOf names).navigate into (seg :: segs) with
      | error msg => rfl
      | ok ns =>
        cases hscope : ns.scope with
        | none => rw [ok_bind, ok_bind, hscope]
        | some sc =>
          rw [ok_bind, ok_bind, hscope]
          have hentry : ∀ name, names (sc, name) = names' (sc, name) :=
            fun name => h (sc, name) (.inr ⟨ns, hns, hscope⟩)
          simp only [hentry]
  | use path bound =>
    dsimp only [Import.found]
    rw [useFound_congr h]

/-- An import as an action on the tables. -/
def importAction (into : ScopeId) (stmt : Import) : Action (ScopeId × Str) Sym Str where
  effect := importEffect into stmt
  reads names k := stmt.Reads names into k
  framed names names' h := by
    unfold importEffect
    rw [Import.found_congr h]

end Leviathan.Sema
