import Leviathan.Sema.Generics

/-!
# Calls of declared functions, methods and constructors

From `CheckerOverload.cpp` and `CheckerInfer.cpp`: `filterExplicitCandidates`,
`callGenericSeed`, `pickOverload`, `pickInjecting`, `genericReturn` and
`inferConstruction`, as `typeOfCallInner` puts them together.

A candidate is compared with the arguments row by row: each parameter with what fills
it, an argument, its default or a binding in scope.  The type of an argument that is a
lambda is only known when its body is checked, which `genericReturn` does last; what
comes out of that (`ArgForm.lambda`) is any function of the parameter types here.
-/

namespace Leviathan.Sema

/-- A parameter of a declaration. -/
structure Param (ι : Type) where
  name : Str
  type : Option (TypeRef ι)
  hasDefault : Bool := false

/-- The declaration of a function, method or constructor; its types are resolved in
`scope`. -/
structure Signature (σ ι : Type) where
  scope : σ
  generics : List Str := []
  params : List (Param ι)
  ret : Option (TypeRef ι) := none

/-- What an argument is.  A lambda that has been typed already, in place of a reference
to a method, has its type in `walked`. -/
inductive ArgForm (ι : Type) where
  | value (type : Ty ι)
  | charLiteral (type : Ty ι)
  | methodRef
  | lambda (walked : Option (Str × Option (Ty ι))) (params : List (Option (Ty ι)))
      (body : List (Ty ι) → Ty ι)

/-- The type of an argument before a candidate is chosen. -/
def ArgForm.type {ι : Type} : ArgForm ι → Ty ι
  | .value type => type
  | .charLiteral type => type
  | .methodRef => .unknown
  | .lambda (some (canonical, ret)) _ _ => .funcRef canonical ret
  | .lambda none _ _ => .unknown

/-- An argument of a call. -/
structure Arg (ι : Type) where
  label : Option Str := none
  form : ArgForm ι

/-- A call: its arguments and the types given explicitly. -/
structure Call (ι : Type) where
  args : List (Arg ι)
  explicit : List (Ty ι) := []
  argsNormalized : Bool := false

/-- What a call sees around it: the class `expr::Expr`, the types with a binding in
scope, and the type `char`. -/
structure Site (ι : Type) where
  exprClass : Option ι
  hasBind : Str → Bool
  charType : Ty ι
  charType_eq : charType = .primitive "char".toList ∨ ∃ sym, charType = .class_ sym "char".toList []

/-- What fills a parameter. -/
inductive Filled (ι : Type) where
  | arg (index : Nat) (form : ArgForm ι)
  | default
  | inject

/-- A parameter, its type before inference, and what fills it. -/
structure Row (ι : Type) where
  param : Param ι
  type : Ty ι
  filled : Filled ι

/-- `expectsChar`. -/
def expectsChar {ι : Type} : Option (TypeRef ι) → Bool
  | some (.named [] name _ _) => name = "char".toList
  | some (.union members) => members.any (fun m => match m with
      | .named [] name _ _ => name = "char".toList
      | _ => false)
  | _ => false

/-- `Type::kind` is `FuncRef`. -/
def Ty.isFuncRef {ι : Type} : Ty ι → Bool
  | .funcRef _ _ => true
  | _ => false

/-- `Type::kind` is `Error`. -/
def Ty.isError {ι : Type} : Ty ι → Bool
  | .error => true
  | _ => false

/-- `Type::kind` is `Union`. -/
def Ty.isUnion {ι : Type} : Ty ι → Bool
  | .union _ _ => true
  | _ => false

/-- The type with which an argument goes into the call: that of a character literal is
`char` where one is expected. -/
def Row.argType {ι : Type} (site : Site ι) (explicit : Bool) (row : Row ι) : Ty ι :=
  match row.filled with
  | .arg _ (.charLiteral type) =>
    if (if explicit then decide (row.type.canonical = "char".toList)
        else expectsChar row.param.type) then site.charType else type
  | .arg _ form => form.type
  | .default => row.type
  | .inject => row.type

namespace ClassTable

variable {σ ι : Type} [DecidableEq ι] (p : ClassTable σ ι)

/-- The names of the type parameters of a class. -/
def genericsOf (cls : ι) : List Str := ((p.decl cls).map (fun d => d.generics.map p.symName)).getD []

/-- `callGenericSeed`: the arguments of the receiver by the parameters of its class, and
the explicit ones by those of the candidate. -/
def callGenericSeed (receiver : Option (ι × Ty ι)) (params : List Str) (explicit : List (Ty ι)) :
    Subst ι :=
  (params.zip explicit).reverse ++
    match receiver with
    | some (cls, .class_ _ _ args) => ((p.genericsOf cls).zip args).reverse
    | _ => []

/-- `exprTargetFn`: the parameters of the function type in an `expr::Expr`. -/
def exprTargetFn (site : Site ι) (sc : σ) : Option (TypeRef ι) → Option (List (TypeRef ι))
  | some (.named path name [.function params ret] hygiene) =>
    if site.exprClass.isSome ∧
        p.resolvedSymbol sc (.named path name [.function params ret] hygiene) = site.exprClass then
      some params
    else none
  | _ => none

/-- The type of a parameter before inference. -/
def paramType (sc : σ) (seed : Option (Subst ι)) (param : Param ι) : Ty ι :=
  match param.type with
  | some t => match seed with
    | some subst => p.substitute sc subst t
    | none => fromTypeRef p.toScopes sc t
  | none => .unknown

/-- The declared type of a parameter has a type variable. -/
def mentions (sc : σ) (param : Param ι) : Bool := param.type.any (p.mentionsTypeParam sc)

/-- What an argument scores against a parameter, if it is compatible with it.
`injecting` is set in `pickInjecting`. -/
def scoreArg (site : Site ι) (sc : σ) (injecting explicit : Bool) (param : Param ι) (pt : Ty ι)
    (form : ArgForm ι) : Option Nat :=
  if !explicit && p.mentions sc param then some 1
  else match form with
    | .methodRef => if pt.isFuncRef then some 1 else none
    | .lambda _ params _ =>
      if pt.isFuncRef then some 1
      else if injecting && (p.exprTargetFn site sc param.type).any
          (fun fn => fn.length = params.length) then some 1
      else none
    | .value _ | .charLiteral _ =>
      if pt.isUnknown || form.type.isUnknown || form.type.isError then some 1
      else if pt.canonical = form.type.canonical then some 2
      else if injecting && (pt.canonical = "char".toList && (match form with
          | .charLiteral _ => true
          | _ => false)) then some 1
      else if p.assignable form.type pt then some 1
      else none

/-! ### `pickOverload` -/

/-- An argument of a call seen before, in which a character literal has its type. -/
def ArgForm.normalized : ArgForm ι → ArgForm ι
  | .charLiteral type => .value type
  | form => form

/-- The rows of a candidate with one parameter for each argument. -/
def overloadRows (call : Call ι) (c : Signature σ ι) : List (Row ι) :=
  (c.params.zip call.args).zipIdx.map (fun x =>
    { param := x.1.1, type := p.paramType c.scope none x.1.1, filled := .arg x.2 (ArgForm.normalized x.1.2.form) })

/-- What fills a row scores, or nothing does. -/
def rowScore (site : Site ι) (sc : σ) (injecting explicit : Bool) (row : Row ι) : Option Nat :=
  match row.filled with
  | .arg _ form => p.scoreArg site sc injecting explicit row.param row.type form
  | .default => some 0
  | .inject => some 0

/-- The score of rows that all fit. -/
def rowsScore (site : Site ι) (sc : σ) (injecting explicit : Bool) (rows : List (Row ι)) : Nat :=
  (rows.map (fun row => (p.rowScore site sc injecting explicit row).getD 0)).sum

/-- A candidate that takes the arguments, with its score and the number of parameters
that no argument fills. -/
structure Binding (σ ι : Type) where
  fn : Signature σ ι
  rows : List (Row ι)
  score : Nat
  omitted : Nat := 0

/-- A candidate of `pickOverload` that takes the arguments. -/
def overloadBinding (site : Site ι) (call : Call ι) (c : Signature σ ι) : Option (Binding σ ι) :=
  let rows := p.overloadRows call c
  if c.params.length = call.args.length ∧
      rows.all (fun row => (p.rowScore site c.scope false false row).isSome) = true then
    some { fn := c, rows := rows, score := p.rowsScore site c.scope false false rows }
  else none

/-- The first of the best candidates: those with a higher score are better, and with the
same score those with fewer parameters that no argument fills. -/
def bestBinding (bindings : List (Binding σ ι)) : Option (Binding σ ι) :=
  bindings.foldl (fun (best : Option (Binding σ ι)) cur => match best with
    | none => some cur
    | some b =>
      if b.score < cur.score ∨ (cur.score = b.score ∧ cur.omitted < b.omitted) then some cur
      else some b) none

/-- `pickOverload`. -/
def pickOverload (site : Site ι) (call : Call ι) (cands : List (Signature σ ι)) :
    Option (Binding σ ι) :=
  bestBinding (cands.filterMap (p.overloadBinding site call))

/-! ### `pickInjecting` -/

/-- The arguments by the parameters they are for. -/
def supply (params : List (Param ι)) :
    List (Arg ι) → Nat → Nat → List (Option Nat) → Except Str (List (Option Nat))
  | [], _, _, supplied => .ok supplied
  | a :: args, index, positional, supplied =>
    match a.label with
    | none =>
      if positional < params.length then
        supply params args (index + 1) (positional + 1) (supplied.set positional (some index))
      else .error []
    | some label =>
      match params.findIdx? (fun q => q.name = label) with
      | none => .error ("no parameter named '".toList ++ label ++ "'".toList)
      | some i =>
        if (supplied[i]?).join.isSome then
          .error ("parameter '".toList ++ label ++
            "' is bound both positionally and by name".toList)
        else supply params args (index + 1) positional (supplied.set i (some index))

/-- What fills a parameter: its argument, its default, or a binding for its type. -/
def fill (site : Site ι) (call : Call ι) (param : Param ι) (pt : Ty ι) (supplied : Option Nat) :
    Except Str (Filled ι) :=
  match supplied with
  | some index => match call.args[index]? with
    | some a => .ok (.arg index a.form)
    | none => .error []
  | none =>
    if param.hasDefault then .ok .default
    else if !pt.canonical.isEmpty && site.hasBind pt.canonical then .ok .inject
    else .error ("missing required argument '".toList ++ param.name ++ "'".toList)

/-- Why an argument does not fit; only said for explicit types. -/
def mismatch (explicit : Bool) (row : Row ι) : Str :=
  match row.filled with
  | .arg _ (.value t) | .arg _ (.charLiteral t) =>
    if explicit then
      "argument for parameter '".toList ++ row.param.name ++ "' has type '".toList ++ t.canonical ++
        "', expected '".toList ++ row.type.canonical ++ "'".toList
    else []
  | _ => []

/-- One candidate against the arguments. -/
def bindCandidate (site : Site ι) (call : Call ι) (receiver : Option (ι × Ty ι))
    (explicitParams : Option (List Str)) (c : Signature σ ι) : Except Str (Binding σ ι) := do
  let explicit := !call.explicit.isEmpty
  let seed := if explicit then
      some (p.callGenericSeed receiver (explicitParams.getD c.generics) call.explicit)
    else none
  let supplied ← supply c.params call.args 0 0 (c.params.map fun _ => none)
  let rows ← (c.params.zip supplied).mapM (fun x => do
    let pt := p.paramType c.scope seed x.1
    let filled ← fill site call x.1 pt x.2
    .ok ({ param := x.1, type := pt, filled := filled } : Row ι))
  match rows.find? (fun row => (p.rowScore site c.scope true explicit row).isNone) with
  | some row => .error (mismatch explicit row)
  | none => .ok {
      fn := c
      rows := rows
      score := p.rowsScore site c.scope true explicit rows
      omitted := (rows.filter (fun row => match row.filled with
        | .arg _ _ => false
        | _ => true)).length }

/-- A lambda in a row that counts as a function, or as a reified expression. -/
def lambdaTarget (site : Site ι) (sc : σ) (explicit : Bool) (row : Row ι) : Option (Bool × Nat) :=
  if !explicit && p.mentions sc row.param then none
  else match row.filled with
    | .arg index (.lambda _ _ _) =>
      if row.type.isFuncRef then some (true, index)
      else if (p.exprTargetFn site sc row.param.type).isSome then some (false, index)
      else none
    | _ => none

/-- `pickInjecting`. -/
def pickInjecting (site : Site ι) (call : Call ι) (receiver : Option (ι × Ty ι))
    (explicitParams : Option (List Str)) (cands : List (Signature σ ι)) :
    Except Str (Signature σ ι × List (Row ι)) :=
  let explicit := !call.explicit.isEmpty
  if call.argsNormalized && !explicit then
    match p.pickOverload site call cands with
    | some b => .ok (b.fn, b.rows)
    | none => .error []
  else
    let bindings := cands.filterMap (fun c =>
      (p.bindCandidate site call receiver explicitParams c).toOption)
    match bestBinding bindings with
    | none => match cands with
      | [c] => match p.bindCandidate site call receiver explicitParams c with
        | .error failure => .error failure
        | .ok _ => .error []
      | _ => .error []
    | some b =>
      let targets := (bindings.filter (fun t => t.score = b.score)).flatMap (fun t =>
        t.rows.filterMap (p.lambdaTarget site t.fn.scope explicit))
      if targets.any (fun t => !t.1 && targets.contains (true, t.2)) then
        .error "ambiguous lambda argument: matches both a function parameter and an expr::Expr parameter; extract a typed local to select".toList
      else if b.rows.any (fun row => (p.exprTargetFn site b.fn.scope row.param.type).isSome &&
          match row.filled with
          | .arg _ (.lambda _ _ _) => false
          | .arg _ form => form.type.isFuncRef
          | _ => false) then
        .error "only a lambda literal can be reified to expr::Expr<F>".toList
      else .ok (b.fn, b.rows)

/-- `filterExplicitCandidates`. -/
def filterExplicitCandidates (call : Call ι) (constructionParams : Option (List Str)) (owner : Str)
    (cands : List (Signature σ ι)) : Except Str (List (Signature σ ι)) :=
  let got := call.explicit.length
  let count (n : Nat) : Str :=
    Nat.toDigits 10 n ++ " explicit type ".toList ++
      if n = 1 then "argument".toList else "arguments".toList
  if call.explicit.isEmpty then .ok cands
  else match constructionParams with
    | some params =>
      if got = params.length then .ok cands
      else .error ("construction of '".toList ++ owner ++ "' expects ".toList ++
        count params.length ++ ", got ".toList ++ Nat.toDigits 10 got)
    | none =>
      match cands.filter (fun c => c.generics.length = got) with
      | [] => match cands with
        | [c] => .error ("call to '".toList ++ owner ++ "' expects ".toList ++
            count c.generics.length ++ ", got ".toList ++ Nat.toDigits 10 got)
        | _ => .error ("no overload of '".toList ++ owner ++ "' accepts ".toList ++ count got)
      | matching => .ok matching

/-- What is called: a function or method, on a receiver or not, or a constructor.  A
constructor may have a type expected of it. -/
inductive Target (σ ι : Type) where
  | function (receiver : Option (ι × Ty ι))
  | construction (cls : ι) (expected : Option (σ × TypeRef ι))

/-- The receiver of a call. -/
def Target.receiver : Target σ ι → Option (ι × Ty ι)
  | .function receiver => receiver
  | .construction _ _ => none

/-- The parameters that explicit types are for, if not those of the candidate. -/
def explicitParams : Target σ ι → Option (List Str)
  | .function _ => none
  | .construction cls _ => some (p.genericsOf cls)

/-- `resolve` in `typeOfCallInner`: the candidate chosen, with its rows. -/
def resolveCall (site : Site ι) (call : Call ι) (target : Target σ ι) (owner what : Str)
    (cands : List (Signature σ ι)) : Except Str (Signature σ ι × List (Row ι)) := do
  let cands ← filterExplicitCandidates call (p.explicitParams target) owner cands
  match p.pickInjecting site call target.receiver (p.explicitParams target) cands with
  | .ok picked => .ok picked
  | .error [] => .error ("no overload of '".toList ++ what ++ "' matches the arguments".toList)
  | .error failure => .error failure

end ClassTable

end Leviathan.Sema
