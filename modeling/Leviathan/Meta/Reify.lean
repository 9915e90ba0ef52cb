import Leviathan.Frontend.Literals
import Leviathan.Sema.Types

/-!
# Folding a value into a literal

`RuleEngine::reify` writes the value of a `comptime` expression as a literal, which stands in its
place from then on: it is checked there with the rest of the program, and evaluated when the program
runs.

A struct is written as a call of its bare name.  What comes of that call is up to the place of the
fold (`Site`): which class the name has there, whether a local of that name is called, whether the
place is in a constructor of the class.

Main result: `comesBack_iff`.
-/

namespace Leviathan.Meta

open Sema Frontend List

/-- `struct Value`, as far as it is built from what is written without rounding; anything else is
`other`. -/
inductive FoldValue (ι : Type) where
  | void
  | int (i : Int64)
  | bool (b : Bool)
  | string (s : Str)
  | none
  | array (xs : List (FoldValue ι))
  | object (cls : ι) (fields : List (Str × FoldValue ι))
  | other

/-- The expressions that `reify` makes. -/
inductive Literal where
  | intLit (text : Str)
  | boolLit (text : Str)
  | stringLit (text : Str)
  | name (text : Str)
  | array (list : List Literal)
  | call (callee : Str) (list : List Literal)

namespace FoldValue

variable {ι : Type}

/-- A field of an object; void if it has none of that name. -/
def field (name : Str) : FoldValue ι → FoldValue ι
  | object _ fields => ((fields.find? fun f => f.1 = name).map Prod.snd).getD void
  | _ => void

/-- `Value::i`. -/
def i : FoldValue ι → Int
  | int i => i.toInt
  | _ => 0

/-- What a field of an object holds is smaller than the object. -/
theorem sizeOf_field (cls : ι) (fields : List (Str × FoldValue ι)) (name : Str) :
    sizeOf ((object cls fields).field name) < sizeOf (object cls fields) := by
  have hfield : (object cls fields).field name =
      ((fields.find? fun f => f.1 = name).map Prod.snd).getD void := rfl
  rw [hfield, object.sizeOf_spec]
  cases h : fields.find? fun f => f.1 = name with
  | none =>
    have hpos : 0 < sizeOf fields := by cases fields <;> simp
    rw [Option.map_none, Option.getD_none, void.sizeOf_spec]
    omega
  | some e =>
    have hmem := sizeOf_lt_of_mem (mem_of_find?_eq_some h)
    have hsnd : sizeOf e.2 < sizeOf e := by
      cases e
      simp only [Prod.mk.sizeOf_spec]
      omega
    rw [Option.map_some, Option.getD_some]
    omega

end FoldValue

/-- A constructor: what it leaves in the fields of a new object, with whatever fills the parameters
that have no argument.  None if it throws. -/
structure Ctor (ι : Type) where
  label : Str
  params : List Str
  body : List (Str × FoldValue ι) → List (FoldValue ι) → Option (List (Str × FoldValue ι))

/-- A program as far as its literals go: the data members and the constructors a class declares, the
fields of a new object, and which of its constructors the checker picks for a call (an error if none
takes the arguments, none if there is none). -/
structure FoldModel (σ ι : Type) [DecidableEq ι] extends SemanticModel σ ι where
  name : ι → Str
  isValue : ι → Bool
  members : ι → List Str
  ctors : ι → List (Ctor ι)
  slots : ι → List (Str × FoldValue ι)
  pick : σ → List (Ctor ι) → List Literal → Except Str (Option (Ctor ι))

/-- The place of a fold: its scope, the locals that hold closures, the values of other names, the
class whose constructor it is in, and what a call answers whose name is no class in scope. -/
structure Site (σ ι : Type) where
  scope : σ
  closures : Str → Option (List (FoldValue ι) → Option (FoldValue ι))
  read : Str → FoldValue ι
  inCtor : Option ι
  other : Str → List (FoldValue ι) → Option (FoldValue ι)

namespace FoldModel

variable {σ ι : Type} [DecidableEq ι] (p : FoldModel σ ι)

/-! ### Writing -/

/-- The constructor whose parameters are the fields. -/
def matching (cls : ι) : Option (Ctor ι) := (p.ctors cls).find? fun c => c.params = p.members cls

/-- `RuleEngine::reify`. -/
def reify : FoldValue ι → Option Literal
  | .int i => some (.intLit (Text.decimal i.toInt))
  | .bool b => some (.boolLit (if b then "true".toList else "false".toList))
  | .string s => some (.stringLit ('"' :: (s.flatMap escapeOf ++ ['"'])))
  | .none => some (.name "None".toList)
  | .array xs => (xs.attach.mapM fun x => reify x.1).map .array
  | .object cls fields =>
    if p.isValue cls = true ∧ (p.decl cls).isSome ∧ (p.matching cls).isSome then
      ((p.members cls).mapM fun n => reify ((FoldValue.object cls fields).field n)).map
        (.call (p.name cls))
    else none
  | .void => none
  | .other => none
termination_by v => sizeOf v
decreasing_by
  · have := sizeOf_lt_of_mem x.2
    simp only [FoldValue.array.sizeOf_spec]
    omega
  · exact FoldValue.sizeOf_field cls fields n

/-! ### Reading -/

/-- The class a bare name stands for in a call. -/
def calleeClass (sc : σ) (callee : Str) : Option ι :=
  (p.lookup sc callee).filter fun s => p.kind s = .Class

/-- The fields of a new object are given by position. -/
def positional : List (Str × FoldValue ι) → List (FoldValue ι) → List (Str × FoldValue ι)
  | f :: fields, a :: args => (f.1, a) :: positional fields args
  | fields, _ => fields

/-- `runCtor` on a new object: the constructor that is picked, or one with that label and as many
parameters, or none. -/
def runCtor (cls : ι) (label : Str) (ctor : Option (Ctor ι)) (args : List (FoldValue ι)) :
    Option (List (Str × FoldValue ι)) :=
  match ctor.or ((p.ctors cls).find? fun c => c.label = label ∧ c.params.length = args.length) with
  | some c => c.body (p.slots cls) args
  | none => some (positional (p.slots cls) args)

/-- `Array(n, fill)`. -/
def newArray : List (FoldValue ι) → List (FoldValue ι)
  | [n, fill] => List.replicate n.i.toNat fill
  | _ => []

/-- `Evaluator::construct`; the collections are told by their name. -/
def construct (cls : ι) (label : Str) (ctor : Option (Ctor ι)) (args : List (FoldValue ι)) :
    Option (FoldValue ι) :=
  if p.name cls = "Array".toList then some (.array (newArray args))
  else if p.name cls = "Map".toList ∨ p.name cls = "Block".toList then some .other
  else (p.runCtor cls label ctor args).map (.object cls)

/-- The constructor the checker picks for a call of a class. -/
def picked (sc : σ) (cls : ι) (list : List Literal) : Except Str (Option (Ctor ι)) :=
  p.pick sc ((p.ctors cls).filter fun c => c.label = p.name cls) list

/-- `typeOfCallInner` and `evalCall` for a bare callee.  In a constructor of the class, the call
initialises the object that is being made, and has no value. -/
def evalCall (site : Site σ ι) (callee : Str) (list : List Literal) (args : List (FoldValue ι)) :
    Option (FoldValue ι) :=
  match p.calleeClass site.scope callee with
  | none =>
    match site.closures callee with
    | some f => f args
    | none => site.other callee args
  | some cls =>
    match p.picked site.scope cls list with
    | .error _ => none
    | .ok ctor =>
      match site.closures callee with
      | some f => f args
      | none =>
        if site.inCtor.any fun self => p.isSubclass self cls then some .void
        else p.construct cls callee ctor args

mutual

/-- `Evaluator::eval` of a literal; none if it is not accepted, or throws. -/
def evalLiteral (site : Site σ ι) : Literal → Option (FoldValue ι)
  | .intLit text => some (.int (parseIntLiteral text))
  | .boolLit text => some (.bool (text = "true".toList))
  | .stringLit text => some (.string (decodeStringLiteral text))
  | .name text => some (if text = "None".toList then .none else site.read text)
  | .array list => (evalLiterals site list).map .array
  | .call callee list => (evalLiterals site list).bind (p.evalCall site callee list)

def evalLiterals (site : Site σ ι) : List Literal → Option (List (FoldValue ι))
  | [] => some []
  | l :: ls => (evalLiteral site l).bind fun v => (evalLiterals site ls).map (v :: ·)

end

/-! ### What comes back -/

/-- The literal of a value is evaluated to the value. -/
def ComesBack (site : Site σ ι) (v : FoldValue ι) : Prop :=
  ∃ e, p.reify v = some e ∧ p.evalLiteral site e = some v

/-- A value, and what its literal holds the literals of. -/
inductive Part : FoldValue ι → FoldValue ι → Prop
  | self (v) : Part v v
  | element {u x xs} (hx : x ∈ xs) (h : Part u x) : Part u (.array xs)
  | member {u cls fields n} (hn : n ∈ p.members cls)
      (h : Part u ((FoldValue.object cls fields).field n)) : Part u (.object cls fields)

/-- The values of the data members of a struct. -/
def memberValues (cls : ι) (fields : List (Str × FoldValue ι)) : List (FoldValue ι) :=
  (p.members cls).map fun n => (FoldValue.object cls fields).field n

/-- The bare name of a struct, called with its fields, makes the struct: it is the name of the
struct in that place, no closure is called instead, the place is not in a constructor of the struct,
and the constructor that is picked leaves these fields.  Where the name is that of something else,
it answers the struct. -/
def Rebuilds (site : Site σ ι) (cls : ι) (fields : List (Str × FoldValue ι)) : Prop :=
  ∃ list, (p.memberValues cls fields).mapM p.reify = some list ∧
    match p.calleeClass site.scope (p.name cls), site.closures (p.name cls) with
    | none, some f => f (p.memberValues cls fields) = some (.object cls fields)
    | none, none =>
      site.other (p.name cls) (p.memberValues cls fields) = some (.object cls fields)
    | some d, some f => (∃ ctor, p.picked site.scope d list = .ok ctor) ∧
        f (p.memberValues cls fields) = some (.object cls fields)
    | some d, none => d = cls ∧ ¬(site.inCtor.any fun self => p.isSubclass self cls) = true ∧
        p.name cls ∉ ["Array".toList, "Map".toList, "Block".toList] ∧
        ∃ ctor, p.picked site.scope cls list = .ok ctor ∧
          p.runCtor cls (p.name cls) ctor (p.memberValues cls fields) = some fields

variable {p}

theorem reify_array (xs : List (FoldValue ι)) :
    p.reify (.array xs) = (xs.mapM p.reify).map .array := by
  conv_rhs => rw [← attach_map_subtype_val xs, mapM_map]
  rw [reify]
  rfl

theorem reify_object (cls : ι) (fields : List (Str × FoldValue ι)) :
    p.reify (.object cls fields) =
      if p.isValue cls = true ∧ (p.decl cls).isSome ∧ (p.matching cls).isSome then
        ((p.memberValues cls fields).mapM p.reify).map (.call (p.name cls))
      else none := by
  rw [reify, memberValues, mapM_map]
  rfl

theorem Part.trans {u v w : FoldValue ι} (huv : p.Part u v) (hvw : p.Part v w) : p.Part u w := by
  induction hvw with
  | self => exact huv
  | element hx _ ih => exact .element hx ih
  | member hn _ ih => exact .member hn ih

/-- The literals of a list come back if each of them does. -/
theorem evalLiterals_iff (site : Site σ ι) {xs : List (FoldValue ι)} {list : List Literal}
    (h : xs.mapM p.reify = some list) :
    p.evalLiterals site list = some xs ↔ ∀ x ∈ xs, p.ComesBack site x := by
  induction xs generalizing list with
  | nil =>
    obtain rfl : [] = list := by simpa using h
    simp [evalLiterals]
  | cons x xs ih =>
    rw [mapM_cons] at h
    obtain ⟨e, he, h⟩ := Option.bind_eq_some_iff.mp h
    obtain ⟨es, hes, h⟩ := Option.bind_eq_some_iff.mp h
    obtain rfl : e :: es = list := Option.some.inj h
    have hx : p.ComesBack site x ↔ p.evalLiteral site e = some x := by
      constructor
      · rintro ⟨e', he', hback⟩
        obtain rfl := Option.some.inj (he.symm.trans he')
        exact hback
      · exact fun hback => ⟨e, he, hback⟩
    rw [forall_mem_cons, ← ih hes, hx, evalLiterals]
    constructor
    · intro hall
      obtain ⟨v, hv, hall⟩ := Option.bind_eq_some_iff.mp hall
      obtain ⟨vs, hvs, hall⟩ := Option.map_eq_some_iff.mp hall
      obtain ⟨rfl, rfl⟩ := List.cons.inj hall
      exact ⟨hv, hvs⟩
    · rintro ⟨hv, hvs⟩
      rw [hv, hvs]
      rfl

theorem construct_eq_object {d cls : ι} {label : Str} {ctor : Option (Ctor ι)}
    {args : List (FoldValue ι)} {fields : List (Str × FoldValue ι)} :
    p.construct d label ctor args = some (.object cls fields) ↔
      d = cls ∧ p.name d ∉ ["Array".toList, "Map".toList, "Block".toList] ∧
        p.runCtor d label ctor args = some fields := by
  rw [construct]
  split_ifs with harray hother
  · refine iff_of_false nofun fun h => h.2.1 ?_
    rw [harray]
    exact mem_cons_self
  · refine iff_of_false nofun fun h => h.2.1 (mem_cons_of_mem _ ?_)
    simpa only [mem_cons, not_mem_nil, or_false] using hother
  · have hname : p.name d ∉ ["Array".toList, "Map".toList, "Block".toList] := by
      simp only [mem_cons, not_mem_nil, or_false]
      exact not_or.mpr ⟨harray, hother⟩
    rw [Option.map_eq_some_iff]
    constructor
    · rintro ⟨fs, hfs, heq⟩
      obtain ⟨rfl, rfl⟩ := FoldValue.object.inj heq
      exact ⟨rfl, hname, hfs⟩
    · rintro ⟨rfl, -, hfs⟩
      exact ⟨fields, hfs, rfl⟩

/-- A struct is rebuilt if the call of its name answers it. -/
theorem rebuilds_iff (site : Site σ ι) {cls : ι} {fields : List (Str × FoldValue ι)}
    {list : List Literal} (hlist : (p.memberValues cls fields).mapM p.reify = some list) :
    p.Rebuilds site cls fields ↔
      p.evalCall site (p.name cls) list (p.memberValues cls fields) =
        some (.object cls fields) := by
  have hsingle : ∀ {q : List Literal → Prop},
      (∃ list', (p.memberValues cls fields).mapM p.reify = some list' ∧ q list') ↔ q list := by
    intro q
    constructor
    · rintro ⟨list', hlist', h⟩
      obtain rfl := Option.some.inj (hlist.symm.trans hlist')
      exact h
    · exact fun h => ⟨list, hlist, h⟩
  rw [Rebuilds, hsingle, evalCall]
  cases hclass : p.calleeClass site.scope (p.name cls) with
  | none => cases site.closures (p.name cls) <;> rfl
  | some d =>
    cases hclosure : site.closures (p.name cls) with
    | some f =>
      dsimp only
      cases hpicked : p.picked site.scope d list with
      | error message => simp
      | ok ctor => simp
    | none =>
      dsimp only
      cases hpicked : p.picked site.scope d list with
      | error message =>
        refine iff_of_false ?_ nofun
        rintro ⟨rfl, -, -, ctor, hctor, -⟩
        rw [hpicked] at hctor
        cases hctor
      | ok ctor =>
        dsimp only
        by_cases hctor : (site.inCtor.any fun self => p.isSubclass self d) = true
        · rw [if_pos hctor]
          refine iff_of_false ?_ nofun
          rintro ⟨rfl, h, -⟩
          exact h hctor
        · rw [if_neg hctor, construct_eq_object]
          constructor
          · rintro ⟨rfl, -, hname, ctor', hctor', hrun⟩
            obtain rfl := Except.ok.inj (hpicked.symm.trans hctor')
            exact ⟨rfl, hname, hrun⟩
          · rintro ⟨rfl, hname, hrun⟩
            exact ⟨rfl, hctor, hname, ctor, hpicked, hrun⟩

/-- The literal of a struct whose fields come back. -/
theorem comesBack_object (site : Site σ ι) {cls : ι} {fields : List (Str × FoldValue ι)}
    (h : (p.reify (.object cls fields)).isSome)
    (hfields : ∀ x ∈ p.memberValues cls fields, p.ComesBack site x) :
    p.ComesBack site (.object cls fields) ↔ p.Rebuilds site cls fields := by
  obtain ⟨e, he⟩ := Option.isSome_iff_exists.mp h
  have hreify := he
  rw [reify_object] at he
  split_ifs at he with hcls
  obtain ⟨list, hlist, rfl⟩ := Option.map_eq_some_iff.mp he
  have heval : p.evalLiteral site (.call (p.name cls) list) =
      p.evalCall site (p.name cls) list (p.memberValues cls fields) := by
    rw [evalLiteral, (evalLiterals_iff site hlist).mpr hfields]
    rfl
  rw [rebuilds_iff site hlist, ← heval, ComesBack, hreify]
  constructor
  · rintro ⟨e', he', hback⟩
    obtain rfl := Option.some.inj he'
    exact hback
  · exact fun hback => ⟨_, rfl, hback⟩

/-- The parts of a value that has a literal have one. -/
theorem isSome_of_part {u v : FoldValue ι} (hpart : p.Part u v) (h : (p.reify v).isSome) :
    (p.reify u).isSome := by
  have hmem : ∀ {xs : List (FoldValue ι)} {list : List Literal}, xs.mapM p.reify = some list →
      ∀ x ∈ xs, (p.reify x).isSome := by
    intro xs
    induction xs with
    | nil => intro list _ x hx; cases hx
    | cons x xs ih =>
      intro list h y hy
      rw [mapM_cons] at h
      obtain ⟨e, he, h⟩ := Option.bind_eq_some_iff.mp h
      obtain ⟨es, hes, h⟩ := Option.bind_eq_some_iff.mp h
      rcases List.mem_cons.mp hy with rfl | hy
      · exact Option.isSome_iff_exists.mpr ⟨e, he⟩
      · exact ih hes y hy
  induction hpart with
  | self => exact h
  | element hx _ ih =>
    rw [reify_array, Option.isSome_map] at h
    obtain ⟨list, hlist⟩ := Option.isSome_iff_exists.mp h
    exact ih (hmem hlist _ hx)
  | member hn _ ih =>
    rw [reify_object] at h
    split_ifs at h
    · rw [Option.isSome_map] at h
      obtain ⟨list, hlist⟩ := Option.isSome_iff_exists.mp h
      exact ih (hmem hlist _ (mem_map_of_mem hn))
    · cases h

/-- **Folding.**  A value and all it holds come back from their literals exactly if, in the place of
the fold, each struct in it is rebuilt by a call of its bare name. -/
theorem comesBack_iff (site : Site σ ι) {v : FoldValue ι} (h : (p.reify v).isSome) :
    (∀ u, p.Part u v → p.ComesBack site u) ↔
      ∀ cls fields, p.Part (.object cls fields) v → p.Rebuilds site cls fields := by
  have hmembers : ∀ {cls fields x}, x ∈ p.memberValues cls fields →
      p.Part x (.object cls fields) := by
    intro cls fields x hx
    obtain ⟨n, hn, rfl⟩ := List.mem_map.mp hx
    exact .member hn (.self _)
  constructor
  · intro hback cls fields hpart
    exact (comesBack_object site (isSome_of_part hpart h) fun x hx =>
      hback x ((hmembers hx).trans hpart)).mp (hback _ hpart)
  · intro hrebuilds u hpart
    induction hn : sizeOf u using Nat.strong_induction_on generalizing u with
    | _ n ih =>
      have hsome := isSome_of_part hpart h
      cases u with
      | void => simp [reify] at hsome
      | other => simp [reify] at hsome
      | int i =>
        refine ⟨_, by rw [reify], ?_⟩
        rw [evalLiteral, parseIntLiteral_decimal]
      | bool b =>
        refine ⟨_, by rw [reify], ?_⟩
        cases b <;> rfl
      | string s =>
        refine ⟨_, by rw [reify], ?_⟩
        rw [evalLiteral, decodeStringLiteral_escaped]
      | none => exact ⟨_, by rw [reify], rfl⟩
      | array xs =>
        rw [reify_array, Option.isSome_map] at hsome
        obtain ⟨list, hlist⟩ := Option.isSome_iff_exists.mp hsome
        refine ⟨.array list, by rw [reify_array, hlist]; rfl, ?_⟩
        rw [evalLiteral, (evalLiterals_iff site hlist).mpr fun x hx => ?_]
        · rfl
        · have hlt := sizeOf_lt_of_mem hx
          rw [FoldValue.array.sizeOf_spec] at hn
          exact ih _ (by omega) _ ((Part.element hx (.self x)).trans hpart) rfl
      | object cls fields =>
        refine (comesBack_object site hsome fun x hx => ?_).mpr (hrebuilds cls fields hpart)
        obtain ⟨m, hm, rfl⟩ := List.mem_map.mp hx
        have hlt := FoldValue.sizeOf_field cls fields m
        exact ih _ (by omega) _ ((hmembers hx).trans hpart) rfl

end FoldModel

/-! ### Two structs of one name -/

/-- The symbols of `struct Point { … }` and of `namespace Geo { struct Point { … } }`, both with the
fields `int x; int y;` and a constructor that stores them. -/
inductive Points where
  | point
  | geoPoint
deriving DecidableEq

namespace Points

/-- A constructor that stores each parameter in the field of its name. -/
def storing (label : Str) (params : List Str) : Ctor Points where
  label := label
  params := params
  body fields args :=
    some (fields.map fun f => (f.1, ((params.zip args).lookup f.1).getD f.2))

/-- Scopes are told by whether they are in `Geo`. -/
def program : FoldModel Bool Points where
  kind _ := .Class
  decl _ := some {}
  scope _ := some true
  enclosing geo := if geo then [true, false] else [false]
  names geo name :=
    if name = "Point".toList then if geo then [geoPoint] else [point] else []
  rank _ := 0
  rank_lt := nofun
  name _ := "Point".toList
  isValue _ := true
  members _ := ["x".toList, "y".toList]
  ctors _ := [storing "Point".toList ["x".toList, "y".toList]]
  slots _ := [("x".toList, .int 0), ("y".toList, .int 0)]
  pick _ cands _ := .ok cands.head?

/-- A place outside of all constructors. -/
def site (geo : Bool) : Site Bool Points where
  scope := geo
  closures _ := none
  read _ := .void
  inCtor := none
  other _ _ := none

/-- The fields of `Point(3, -4)`. -/
def corner : List (Str × FoldValue Points) := [("x".toList, .int 3), ("y".toList, .int (-4))]

/-- What `Geo` makes at compile time: a text and a point. -/
def folded : FoldValue Points := .array [.string "\"$\x7b\\".toList, .object geoPoint corner]

theorem reify_corner : program.reify (.object geoPoint corner) = some (.call "Point".toList
    [.intLit "3".toList, .intLit "-4".toList]) := by
  rw [FoldModel.reify_object, if_pos (by decide)]
  have hvalues : program.memberValues geoPoint corner = [.int 3, .int (-4)] := rfl
  rw [hvalues, mapM_cons, mapM_cons, mapM_nil, FoldModel.reify, FoldModel.reify]
  rfl

theorem reify_folded : (program.reify folded).isSome := by
  rw [folded, FoldModel.reify_array, mapM_cons, mapM_cons, mapM_nil, reify_corner,
    FoldModel.reify]
  rfl

/-- Within its namespace the value comes back. -/
theorem folded_comesBack : program.ComesBack (site true) folded ∧
    program.ComesBack (site true) (.object geoPoint corner) := by
  have hparts : ∀ u, program.Part u folded → program.ComesBack (site true) u := by
    refine (FoldModel.comesBack_iff (site true) reify_folded).mpr fun cls fields hpart => ?_
    have hcorner : FoldValue.object cls fields = .object geoPoint corner := by
      cases hpart with
      | element hx hpart =>
        rcases List.mem_cons.mp hx with rfl | hx
        · cases hpart
        · obtain rfl := List.mem_singleton.mp hx
          cases hpart with
          | self => rfl
          | member hn hpart =>
            rcases List.mem_cons.mp hn with rfl | hn
            · cases hpart
            · obtain rfl := List.mem_singleton.mp hn
              cases hpart
    obtain ⟨rfl, rfl⟩ := FoldValue.object.inj hcorner
    have hlist := reify_corner
    refine ⟨[.intLit "3".toList, .intLit "-4".toList], ?_, rfl, ?_, by decide, _, rfl, rfl⟩
    · rw [FoldModel.reify_object, if_pos (by decide)] at hlist
      obtain ⟨list, hlist, heq⟩ := Option.map_eq_some_iff.mp hlist
      rw [hlist, (Literal.call.inj heq).2]
    · exact Bool.false_ne_true
  have hpoint : program.Part (.object geoPoint corner) folded :=
    .element (mem_cons_of_mem _ mem_cons_self) (.self _)
  exact ⟨hparts _ (.self _), hparts _ hpoint⟩

/-- **A struct of a namespace.**  A fold outside of `Geo` makes a `Point` of the `Geo::Point` that
was computed. -/
theorem corner_of_other_struct : ∃ e, program.reify (.object geoPoint corner) = some e ∧
    program.evalLiteral (site false) e = some (.object point corner) ∧
    ¬program.ComesBack (site false) (.object geoPoint corner) := by
  have heval : program.evalLiteral (site false) (.call "Point".toList
      [.intLit "3".toList, .intLit "-4".toList]) = some (.object point corner) := rfl
  refine ⟨_, reify_corner, heval, ?_⟩
  rintro ⟨e, he, hback⟩
  obtain rfl := Option.some.inj (reify_corner.symm.trans he)
  cases Option.some.inj (heval.symm.trans hback)

end Points

end Leviathan.Meta
