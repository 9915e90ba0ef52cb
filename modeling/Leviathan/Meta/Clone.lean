import Leviathan.Syntax.Traverse

/-!
# Cloning a template

`RulesClone.cpp`.  A rule or a macro clones its template into the program: names, members and
types that are holes are filled from the bindings of the match, `$for` and `$if` are expanded,
the locals of the template are renamed, free names are qualified with the namespace of the rule,
and `$body` is the body that the rule replaces.

The evaluator, the reifier and the scopes of the engine are parameters.  A clone follows bound
trees, so the recursion has fuel; running out of it is `none`.  A null pointer in a list of
children, which only stands beside an error, is left out of the list.
-/

namespace Leviathan.Meta

open Syntax
open Frontend (SourceSpan Diagnostic)

/-- `Value`, as far as a clone looks at it. -/
inductive Value where
  | object (fields : Option (List (Str × Value)))
  | string (s : Str)
  | bool (b : Bool)
  | array (items : Option (List Value))
  | other (tag : Nat)

/-- `struct Binding`; `val` is set where `hasVal` is. -/
structure Binding where
  val : Option Value := none
  declStmt : Option (DeclId × Stmt) := none
  declSym : Option Symbol := none
  selectorText : Str := []
  exprNode : Option Expr := none

/-- The bindings of a match, the latest first. -/
abbrev Bindings := List (Str × Binding)

/-- The state of the engine that a clone reads. -/
structure RuleEngine where
  renames : Str → Option Str
  curRuleNs : Str
  curRuleName : Str
  /-- the symbols that a name has in a namespace -/
  namespaceScope : Str → Option (Str → List SymbolKind)
  replaceBodyOrig : Option Stmt := none
  evalComptimeAt : Expr → Bindings → Except Str Value
  reify : Value → SourceSpan → Option Expr
  valueToString : Value → Str

/-- A clone reports errors and may run out of fuel. -/
abbrev CloneM := StateT (List Diagnostic) Option

def report (span : SourceSpan) (message : Str) : CloneM Unit :=
  modify fun errs => errs ++ [⟨span, message⟩]

/-! ### Names -/

def isHole (t : Str) : Bool := t.head? = some '$'

def hasHole (t : Str) : Bool := t.contains '$'

def isIdentContChar (c : Char) : Bool :=
  ('a' ≤ c && c ≤ 'z') || ('A' ≤ c && c ≤ 'Z') || ('0' ≤ c && c ≤ '9') || c = '_'

def isLegalIdent (s : Str) : Bool :=
  match s with
  | [] => false
  | c :: _ => !('0' ≤ c && c ≤ '9') && s.all isIdentContChar

namespace Binding

/-- `declRefName`. -/
def declRefName (bnd : Binding) : Str :=
  match bnd.declStmt with
  | some (_, d) => if bnd.selectorText = [] then d.info.name else bnd.selectorText
  | none => []

/-- The fields of an object value. -/
def fields (bnd : Binding) : Option (List (Str × Value)) :=
  match bnd.val with
  | some (.object fields) => fields
  | _ => none

/-- The `name` of an object value, if it is a string. -/
def metaName (bnd : Binding) : Option Str :=
  match bnd.fields.bind (List.lookup "name".toList) with
  | some (.string s) => some s
  | _ => none

end Binding

namespace RuleEngine

variable (eng : RuleEngine)

def holeNameString (hole : Str) (b : Bindings) (span : SourceSpan) : CloneM (Option Str) :=
  match b.lookup (hole.drop 1) with
  | none => do
    report span ("'".toList ++ hole ++ "' is not bound by this rule".toList)
    pure none
  | some bn =>
    if bn.declStmt.isSome then pure (some bn.declRefName)
    else
      match bn.val with
      | some (.object (some fields)) =>
        match fields.lookup "name".toList with
        | some (.string s) => pure (some s)
        | _ => do
          report span ("'".toList ++ hole ++
            "' has no 'name' field to form an identifier".toList)
          pure none
      | some (.string s) => pure (some s)
      | some v => pure (some (eng.valueToString v))
      | none => do
        report span ("'".toList ++ hole ++
          "' is an attribute value, not usable inside an identifier".toList)
        pure none

/-- The loop of `spliceCompositeName`; every round takes at least one character. -/
def spliceLoop (b : Bindings) (span : SourceSpan) : Nat → Str → Str → CloneM (Option Str)
  | 0, _, acc => pure (some acc)
  | _, [], acc => pure (some acc)
  | n + 1, c :: rest, acc =>
    if c = '$' then do
      let hole := c :: rest.takeWhile isIdentContChar
      match ← eng.holeNameString hole b span with
      | none => pure none
      | some piece =>
        spliceLoop b span n (rest.dropWhile isIdentContChar) (acc ++ piece)
    else
      spliceLoop b span n (rest.dropWhile (· != '$'))
        (acc ++ c :: rest.takeWhile (· != '$'))

def spliceCompositeName (name : Str) (b : Bindings) (span : SourceSpan) : CloneM Str := do
  match ← eng.spliceLoop b span name.length name [] with
  | none => pure name
  | some acc =>
    if isLegalIdent acc then pure acc
    else
      report span ("composite name '".toList ++ name ++ "' produced '".toList ++ acc ++
        "', not a legal identifier".toList)
      pure name

/-- The loop of `synthIdentName` over the arguments. -/
def synthPieces (b : Bindings) : Nat → List Expr → Str → CloneM (Option Str)
  | _, [], acc => pure (some acc)
  | k, arg :: args, acc =>
    match eng.evalComptimeAt arg b with
    | .error evErr => do
      report arg.info.span ("$ident argument ".toList ++ (toString (k + 1)).toList ++
        " failed to evaluate: ".toList ++ evErr)
      pure none
    | .ok (.string s) => synthPieces b (k + 1) args (acc ++ s)
    | .ok v => do
      report arg.info.span ("$ident argument ".toList ++ (toString (k + 1)).toList ++
        " is not a comptime string (got '".toList ++ eng.valueToString v ++ "')".toList)
      pure none

def synthIdentName (nameSynthArgs : List Expr) (b : Bindings) (span : SourceSpan) :
    CloneM Str := do
  match ← eng.synthPieces b 0 nameSynthArgs [] with
  | none => pure []
  | some acc =>
    if isLegalIdent acc then pure acc
    else
      report span ("$ident produced '".toList ++ acc ++ "', not a legal identifier".toList)
      pure []

/-- The namespace that a free name of the template is qualified with. -/
def qualifyDefSite (name : Str) : Option Str :=
  if eng.curRuleNs = "<root>".toList then none
  else
    match eng.namespaceScope eng.curRuleNs with
    | none => none
    | some localLookup =>
      if (localLookup name).any fun k => k = .Function || k = .Class || k = .Var then
        some eng.curRuleNs
      else
        none

end RuleEngine

/-- The words of `A::B::C`. -/
def segments : Str → List Str
  | ':' :: ':' :: rest => [] :: segments rest
  | c :: rest =>
    match segments rest with
    | seg :: segs => (c :: seg) :: segs
    | [] => [[c]]
  | [] => [[]]

/-- `A::B::C` as a chain of members. -/
def qualifier (span : SourceSpan) (ns : Str) : Option Expr :=
  (segments ns).foldl (fun left seg =>
    match left with
    | none => some (Expr.leaf { kind := .Name, span := span, text := seg })
    | some l => some (.mk { kind := .Member, span := span, colon := true, text := seg }
        (some l) none none [] [] [] none [] none)) none

/-- `declKindWord`. -/
def declKindWord : Option Stmt → Str
  | none => "?".toList
  | some s =>
    match s.info.kind with
    | .Class =>
      if s.info.isInterface then "interface".toList
      else if s.info.isValue then "struct".toList else "class".toList
    | .Namespace => "namespace".toList
    | .Member =>
      if !s.info.callable then "field".toList
      else if s.info.isCtor then "constructor".toList
      else if s.info.isGet || s.info.isSet then "accessor".toList
      else "method".toList
    | _ => "declaration".toList

def subjectOf (b : Bindings) : Option Stmt :=
  ((b.lookup "$subject".toList).bind Binding.declStmt).map Prod.snd

/-- `singleValueBodyExpr`: the value of an arrow body or of `return e;` alone in a block. -/
def singleValueBodyExpr (body : Stmt) : Option Expr :=
  let value (inner : Stmt) : Option Expr := if inner.info.kind = .Return then inner.expr else none
  if body.info.kind = .Block then
    match body.body with
    | [inner] => value inner
    | _ => none
  else
    value body

/-! ### Types -/

mutual

def cloneType (b : Bindings) : TypeRef → CloneM TypeRef
  | .mk info generics members funcParams funcRet => do
    let out : TypeInfo :=
      { kind := info.kind, span := info.span, path := info.path, name := info.name }
    if info.holeField ≠ [] then
      let bound := b.lookup (info.holeBind.drop 1)
      match (bound.bind Binding.fields).bind (List.lookup info.holeField) with
      | some (.string s) =>
        if (info.holeField = "type".toList ∨ info.holeField = "name".toList) ∧ s ≠ [] then
          return TypeRef.ofInfo { out with name := s }
      | _ => pure ()
      report info.span ("'".toList ++ info.holeBind ++ ".".toList ++ info.holeField ++
        "' has no reifiable type/name field usable as a type".toList)
      return TypeRef.ofInfo out
    else
      let out :=
        if isHole info.name then
          match b.lookup (info.name.drop 1) with
          | some bn =>
            if bn.declStmt.isSome then
              { out with name := bn.declRefName, resolvedSymbol := bn.declSym }
            else out
          | none => out
        else out
      return .mk out (← cloneTypes b generics) (← cloneTypes b members)
        (← cloneTypes b funcParams) (← cloneTypeOpt b funcRet)

def cloneTypes (b : Bindings) : List TypeRef → CloneM (List TypeRef)
  | [] => pure []
  | t :: ts => do return (← cloneType b t) :: (← cloneTypes b ts)

def cloneTypeOpt (b : Bindings) : Option TypeRef → CloneM (Option TypeRef)
  | none => pure none
  | some t => do return some (← cloneType b t)

end

/-! ### Expressions -/

/-- `this.$m`: the text of a member. -/
def memberSelector (b : Bindings) (info : ExprInfo) : CloneM Str :=
  if info.kind = .Member ∧ isHole info.text then
    match b.lookup (info.text.drop 1) with
    | none => do
      report info.span ("'".toList ++ info.text ++ "' is not bound by this rule".toList)
      pure info.text
    | some bn =>
      if bn.declStmt.isSome then pure bn.declRefName
      else if bn.fields.isSome then
        match bn.metaName with
        | some s => pure s
        | none => do
          report info.span ("'".toList ++ info.text ++
            "' is not a member name (no reifiable 'name' field)".toList)
          pure info.text
      else do
        report info.span ("'".toList ++ info.text ++
          "' is an attribute value, not a member name".toList)
        pure info.text
  else pure info.text

/-- What a node becomes before its fields are copied. -/
inductive Early where
  | node
  | literal (lit : Expr)
  | failed (message : Str)
  /-- another tree is cloned in its place -/
  | follow (verbatim : Bool) (e : Expr)

/-- What the text of a name becomes. -/
inductive NameSplice where
  | text (t : Str) (hygienicDecl : Option DeclId)
  | literal (lit : Expr)
  | qualified (ns : Str)

namespace RuleEngine

variable (eng : RuleEngine)

/-- `$r.method`: the field of an attribute, or the name of a declaration, as a literal. -/
def fieldSplice (b : Bindings) (info : ExprInfo) : Option Expr → Option Early
  | none => none
  | some base =>
    if info.kind = .Member ∧ base.info.kind = .Name ∧ isHole base.info.text then
      match b.lookup (base.info.text.drop 1) with
      | none => none
      | some bn =>
        let named :=
          if bn.declStmt.isSome ∧ bn.val.isNone ∧ info.text = "name".toList then
            eng.reify (.string bn.declRefName) info.span
          else none
        match named, bn.fields with
        | some lit, _ => some (.literal lit)
        | none, none => none
        | none, some fields =>
          match fields.lookup info.text with
          | none => some (.failed ("no field '".toList ++ info.text ++
              "' on this attribute".toList))
          | some v =>
            match eng.reify v info.span with
            | some lit => some (.literal lit)
            | none => some (.failed ("attribute field '".toList ++ info.text ++
                "' is not reifiable".toList))
    else none

/-- The branches of `cloneExpr` that return before the copy is made. -/
def early (verbatim : Bool) (b : Bindings) (info : ExprInfo) (a : Option Expr) : Early :=
  if eng.replaceBodyOrig.isSome ∧ !verbatim ∧ info.kind = .Name ∧
      info.text = "$body".toList then
    match eng.replaceBodyOrig.bind singleValueBodyExpr with
    | some value => .follow true value
    | none => .failed ("'$body' is used as an expression, but the method's body is a statement " ++
        "block, not a single value expression — capture it in statement position, or give " ++
        "the method an arrow body").toList
  else
    match eng.fieldSplice b info a with
    | some found => found
    | none =>
      if info.kind = .Name ∧ isHole info.text then
        match (b.lookup (info.text.drop 1)).bind Binding.exprNode with
        | some arg => .follow verbatim arg
        | none => .node
      else .node

/-- `$C`, `copy_$f`, a renamed local, or a free name of the template. -/
def nameSplice (verbatim : Bool) (b : Bindings) (info : ExprInfo) (text : Str) :
    CloneM NameSplice :=
  if info.kind ≠ .Name then pure (.text text none)
  else if isHole info.text then
    match b.lookup (info.text.drop 1) with
    | none => do
      report info.span ("'".toList ++ info.text ++ "' is not bound by this rule".toList)
      pure (.text text none)
    | some bn =>
      match bn.declStmt, bn.val with
      | some (id, d), _ =>
        pure (.text bn.declRefName (if d.info.kind = .Class then some id else none))
      | none, none | none, some (.object _) => do
        report info.span ("'".toList ++ info.text ++
          "' is an attribute value; splice a field (e.g. ".toList ++ info.text ++
          ".name)".toList)
        pure (.text text none)
      | none, some v =>
        match eng.reify v info.span with
        | some lit => pure (.literal lit)
        | none => do
          report info.span ("'".toList ++ info.text ++ "' is not reifiable (got '".toList ++
            eng.valueToString v ++ "')".toList)
          pure (.text text none)
  else if hasHole info.text then do
    return .text (← eng.spliceCompositeName info.text b info.span) none
  else if verbatim then pure (.text text none)
  else
    match eng.renames info.text, eng.qualifyDefSite info.text with
    | some fresh, _ => pure (.text fresh none)
    | none, some ns => pure (.qualified ns)
    | none, none => pure (.text text none)

/-- The condition of a `$if`. -/
def evalForkCond (cond : Expr) (b : Bindings) : CloneM (Option Bool) :=
  match eng.evalComptimeAt cond b with
  | .error evErr => do
    report cond.info.span ("rule '".toList ++ eng.curRuleName ++
      "' $if-condition evaluation failed: ".toList ++ evErr)
    pure none
  | .ok (.bool taken) => pure (some taken)
  | .ok v => do
    report cond.info.span ("rule '".toList ++ eng.curRuleName ++
      "' $if-condition must be bool (got '".toList ++ eng.valueToString v ++ "')".toList)
    pure none

/-- The items of a `$for`. -/
def iterItems (iter : Expr) (b : Bindings) : CloneM (List Value) :=
  match eng.evalComptimeAt iter b with
  | .error evErr => do
    report iter.info.span ("'$for' iterator evaluation failed: ".toList ++ evErr)
    pure []
  | .ok (.array items) => pure (items.getD [])
  | .ok v => do
    report iter.info.span ("'$for' iterator didn't yield an array (got '".toList ++
      eng.valueToString v ++ "')".toList)
    pure []

end RuleEngine

/-- The fields of an expression that are copied. -/
def copyExprInfo (info : ExprInfo) : ExprInfo where
  kind := info.kind
  span := info.span
  text := info.text
  op := info.op
  colon := info.colon
  optChain := info.optChain
  isMacroCall := info.isMacroCall
  isComptime := info.isComptime
  argLabel := info.argLabel
  isRawSegment := info.isRawSegment
  isQuasiPayload := info.isQuasiPayload
  isRawString := info.isRawString
  singleQuoted := info.singleQuoted
  charLit := info.charLit

/-- `$C()` becomes `C::C()`.  The declaration of a name is only ever set for a class. -/
def constructorLabel (kind : ExprKind) : Option Expr → Option Expr
  | none => none
  | some callee =>
    if kind = .Call ∧ callee.info.kind = .Name ∧ callee.info.hygienicDecl.isSome then
      some (.mk { kind := .Member, span := callee.info.span, text := callee.info.text,
                  colon := true } (some callee) none none [] [] [] none [] none)
    else some callee

/-- The fields of a statement that are copied as they are. -/
def copyStmtInfo (info : StmtInfo) : StmtInfo where
  kind := info.kind
  span := info.span
  access := info.access
  name := info.name
  isInterface := info.isInterface
  isValue := info.isValue
  isAttribute := info.isAttribute
  isMacroDecl := info.isMacroDecl
  isProceduralMacro := info.isProceduralMacro
  generics := info.generics
  isCtor := info.isCtor
  isGet := info.isGet
  isSet := info.isSet
  isMutating := info.isMutating
  distinct := info.distinct
  callable := info.callable
  selector := info.selector
  inferred := info.inferred
  isComptime := info.isComptime
  isConst := info.isConst
  isUsing := info.isUsing
  usingClose := info.usingClose
  label := info.label

/-- A fresh attribute: the rule stage resolves it again. -/
def copyAttrInfo (info : AttrInfo) : AttrInfo where
  path := info.path
  name := info.name
  span := info.span

/-- A `$name` in the position of a declaration's name or of its selector. -/
def declName (b : Bindings) (name : Str) : Str :=
  match b.lookup (name.drop 1) with
  | none => name
  | some bn =>
    if bn.declStmt.isSome then bn.declRefName else bn.metaName.getD name

namespace RuleEngine

variable (eng : RuleEngine)

/-- The name of a declaration. -/
def nameField (verbatim : Bool) (b : Bindings) (info : StmtInfo) (nameSynthArgs : List Expr) :
    CloneM StmtInfo :=
  let copy := copyStmtInfo info
  if info.hasNameSynth then do
    let name ← eng.synthIdentName nameSynthArgs b info.span
    return { copy with name := name, selector := { copy.selector with text := name },
                       hasNameSynth := true }
  else if isHole info.name then pure { copy with name := declName b info.name }
  else if hasHole info.name then do
    let name ← eng.spliceCompositeName info.name b info.span
    return { copy with name := name }
  else if info.kind = .Var ∧ !verbatim then
    pure { copy with name := (eng.renames info.name).getD info.name }
  else pure copy

/-- The selector of a declaration; `hasNameSynth` is that of the template. -/
def selectorField (b : Bindings) (hasNameSynth : Bool) (out : StmtInfo) : CloneM StmtInfo :=
  let selector := out.selector
  if isHole selector.text then
    pure { out with selector := { selector with text := declName b selector.text } }
  else if hasHole selector.text ∧ !hasNameSynth then do
    let text ← eng.spliceCompositeName selector.text b out.span
    return { out with selector := { selector with text := text } }
  else pure out

/-- The name and the selector of a declaration. -/
def declFields (verbatim : Bool) (b : Bindings) (info : StmtInfo) (nameSynthArgs : List Expr) :
    CloneM StmtInfo := do
  let out ← eng.nameField verbatim b info nameSynthArgs
  eng.selectorField b info.hasNameSynth out

end RuleEngine

/-- A child that may be missing. -/
def cloneOpt {α : Type} (clone : α → CloneM (Option α)) : Option α → CloneM (Option α)
  | none => pure none
  | some x => clone x

/-- Children that each leave any number of nodes. -/
def gather {α β : Type} (clone : α → CloneM (List β)) : List α → CloneM (List β)
  | [] => pure []
  | x :: xs => do
    let head ← clone x
    let tail ← gather clone xs
    return head ++ tail

/-- Children that each leave one node, or none where there was an error. -/
def gatherOne {α β : Type} (clone : α → CloneM (Option β)) : List α → CloneM (List β) :=
  gather fun x => do
    let copy ← clone x
    return copy.toList

/-- `$_params`. -/
def cloneParamList (clone : Param → CloneM (Option Param)) (b : Bindings) :
    List Param → CloneM (List Param) :=
  gather fun
    | .mk info type value =>
      if info.name ≠ "$_params".toList then do
        let copy ← clone (.mk info type value)
        return copy.toList
      else
        match subjectOf b with
        | some (.mk sinfo _ _ _ _ _ params _ _ _ _ _ _ _ _) =>
          if sinfo.callable then gatherOne clone params
          else do
            report info.span ("'$_params' needs a callable subject; '".toList ++ sinfo.name ++
              "' is a ".toList ++ declKindWord (subjectOf b))
            return []
        | none => do
          report info.span ("'$_params' needs a callable subject; '?' is a ".toList ++
            declKindWord none)
          return []

/-- `$_args`. -/
def cloneArgList (clone : Expr → CloneM (Option Expr)) (b : Bindings) :
    List Expr → CloneM (List Expr) :=
  gather fun x =>
    if x.info.kind ≠ .Name ∨ x.info.text ≠ "$_args".toList then do
      let copy ← clone x
      return copy.toList
    else
      match subjectOf b with
      | some (.mk sinfo _ _ _ _ _ params _ _ _ _ _ _ _ _) =>
        if sinfo.callable then
          return params.map fun
            | .mk p _ _ => Expr.leaf { kind := .Name, span := x.info.span, text := p.name }
        else do
          report x.info.span ("'$_args' needs a callable subject; '".toList ++ sinfo.name ++
            "' is a ".toList ++ declKindWord (subjectOf b))
          return []
      | none => do
        report x.info.span ("'$_args' needs a callable subject; '?' is a ".toList ++
          declKindWord none)
        return []

/-- The children of a call, of an array literal, and of any other node. -/
def childList {α : Type} (kind : ExprKind) (call array other : α) : α :=
  match kind with
  | .Call => call
  | .Array => array
  | _ => other

/-- The bindings of one round of a `$for`. -/
def withItem (name : Str) (item : Value) (b : Bindings) : Bindings :=
  (name, { val := some item }) :: b

/-- A bare `$body;`. -/
def isBodyHole (s : Stmt) : Bool :=
  s.info.kind = .ExprStmt ∧
    (s.expr.any fun e => e.info.kind = .Name ∧ e.info.text = "$body".toList)

mutual

def cloneExpr (eng : RuleEngine) : Nat → Bool → Bindings → Expr → CloneM (Option Expr)
  | 0, _, _, _ => failure
  | n + 1, verbatim, b, .mk info a e₂ e₃ list targs ps block as type => do
    match eng.early verbatim b info a with
    | .literal lit => return some lit
    | .failed message => do
      report info.span message
      return none
    | .follow verbatim' e => cloneExpr eng n verbatim' b e
    | .node =>
      let selected ← memberSelector b info
      match ← eng.nameSplice verbatim b info selected with
      | .literal lit => return some lit
      | .qualified ns =>
        return some (.mk { copyExprInfo info with kind := .Member, colon := true }
          (qualifier info.span ns) none none [] [] [] none [] none)
      | .text text hygienicDecl =>
        let a' ← cloneOpt (cloneExpr eng n verbatim b) a
        let b' ← cloneOpt (cloneExpr eng n verbatim b) e₂
        let c' ← cloneOpt (cloneExpr eng n verbatim b) e₃
        let targs' ← cloneTypes b targs
        let list' ← childList info.kind
          (cloneArgList (cloneExpr eng n verbatim b) b list)
          (gather (cloneArrayElement eng n verbatim b) list)
          (gatherOne (cloneExpr eng n verbatim b) list)
        let ps' ← cloneParamList (cloneParam eng n verbatim b) b ps
        let block' ← cloneOpt (cloneStmt eng n verbatim b) block
        let type' ← cloneTypeOpt b type
        let as' ← gatherOne (cloneArm eng n verbatim b) as
        return some (.mk { copyExprInfo info with text := text, hygienicDecl := hygienicDecl }
          (constructorLabel info.kind a') b' c' list' targs' ps' block' as' type')

/-- One element of an array literal: a `$for`, a `$if`, or itself. -/
def cloneArrayElement (eng : RuleEngine) : Nat → Bool → Bindings → Expr → CloneM (List Expr)
  | 0, _, _, _ => failure
  | n + 1, verbatim, b, .mk info a e₂ e₃ list targs ps block as type =>
    match info.kind, a with
    | .ForSplice, some iter => do
      let items ← eng.iterItems iter b
      gather (fun item =>
        match e₂ with
        | some element =>
          cloneArrayElementInto eng n verbatim (withItem info.text item b) element
        | none => pure []) items
    | .ForkSplice, _ =>
      cloneArrayElementInto eng n verbatim b (.mk info a e₂ e₃ list targs ps block as type)
    | _, _ => do
      let copy ← cloneExpr eng n verbatim b (.mk info a e₂ e₃ list targs ps block as type)
      return copy.toList

/-- The taken leaf of a chain of `$if`. -/
def cloneArrayElementInto (eng : RuleEngine) :
    Nat → Bool → Bindings → Expr → CloneM (List Expr)
  | 0, _, _, _ => failure
  | n + 1, verbatim, b, .mk info a e₂ e₃ list targs ps block as type =>
    match info.kind, a with
    | .ForkSplice, some cond => do
      match ← eng.evalForkCond cond b with
      | none => return []
      | some taken =>
        match if taken then e₂ else e₃ with
        | some branch => cloneArrayElementInto eng n verbatim b branch
        | none => return []
    | _, _ => do
      let copy ← cloneExpr eng n verbatim b (.mk info a e₂ e₃ list targs ps block as type)
      return copy.toList

def cloneParam (eng : RuleEngine) : Nat → Bool → Bindings → Param → CloneM (Option Param)
  | 0, _, _, _ => failure
  | n + 1, verbatim, b, .mk info type value => do
    let type' ← cloneTypeOpt b type
    let value' ← cloneOpt (cloneExpr eng n verbatim b) value
    return some (.mk info type' value')

def cloneArm (eng : RuleEngine) : Nat → Bool → Bindings → MatchArm → CloneM (Option MatchArm)
  | 0, _, _, _ => failure
  | n + 1, verbatim, b, .mk info type value bodyExpr bodyBlock => do
    let type' ← cloneTypeOpt b type
    let value' ← cloneOpt (cloneExpr eng n verbatim b) value
    let bodyExpr' ← cloneOpt (cloneExpr eng n verbatim b) bodyExpr
    let bodyBlock' ← cloneOpt (cloneStmt eng n verbatim b) bodyBlock
    return some (.mk info type' value' bodyExpr' bodyBlock')

def cloneAttr (eng : RuleEngine) : Nat → Bool → Bindings → AttrUse → CloneM (Option AttrUse)
  | 0, _, _, _ => failure
  | n + 1, verbatim, b, .mk info args => do
    let args' ← gatherOne (cloneExpr eng n verbatim b) args
    return some (.mk (copyAttrInfo info) args')

def cloneCatch (eng : RuleEngine) :
    Nat → Bool → Bindings → CatchClause → CloneM (Option CatchClause)
  | 0, _, _, _ => failure
  | n + 1, verbatim, b, .mk name type body => do
    let type' ← cloneTypeOpt b type
    let body' ← cloneOpt (cloneStmt eng n verbatim b) body
    return some (.mk name type' body')

def cloneStmt (eng : RuleEngine) : Nat → Bool → Bindings → Stmt → CloneM (Option Stmt)
  | 0, _, _, _ => failure
  | n + 1, verbatim, b, .mk info synth attrs body bases type ps memberBody init e thenBranch
      elseBranch forInit forStep catches => do
      let attrs' ← gatherOne (cloneAttr eng n verbatim b) attrs
      let info' ← eng.declFields verbatim b info synth
      let type' ← cloneTypeOpt b type
      let ps' ← cloneParamList (cloneParam eng n verbatim b) b ps
      let memberBody' ← cloneOpt (cloneStmt eng n verbatim b) memberBody
      let init' ← cloneOpt (cloneExpr eng n verbatim b) init
      let e' ← cloneOpt (cloneExpr eng n verbatim b) e
      let body' ← gather (cloneListItem eng n verbatim b) body
      let bases' ← cloneTypes b bases
      let thenBranch' ← cloneOpt (cloneStmt eng n verbatim b) thenBranch
      let elseBranch' ← cloneOpt (cloneStmt eng n verbatim b) elseBranch
      let forInit' ← cloneOpt (cloneStmt eng n verbatim b) forInit
      let forStep' ← cloneOpt (cloneExpr eng n verbatim b) forStep
      let catches' ← gatherOne (cloneCatch eng n verbatim b) catches
      return some (.mk info' [] attrs' body' bases' type' ps' memberBody' init' e' thenBranch'
        elseBranch' forInit' forStep' catches')

/-- One statement of a list: `$body;` is the statements of the original body, as they are. -/
def cloneListItem (eng : RuleEngine) : Nat → Bool → Bindings → Stmt → CloneM (List Stmt)
  | 0, _, _, _ => failure
  | n + 1, verbatim, b, s =>
    match eng.replaceBodyOrig with
    | some orig =>
      if !verbatim ∧ isBodyHole s then gatherOne (cloneStmt eng n true b) orig.body
      else cloneStmtInto eng n verbatim b s
    | none => cloneStmtInto eng n verbatim b s

/-- One statement of a template: a `$if`, a `$for`, or itself. -/
def cloneStmtInto (eng : RuleEngine) : Nat → Bool → Bindings → Stmt → CloneM (List Stmt)
  | 0, _, _, _ => failure
  | n + 1, verbatim, b, .mk info synth attrs body bases type ps memberBody init e thenBranch
      elseBranch forInit forStep catches =>
      match info.kind, e with
      | .ForkSplice, some cond => do
        match ← eng.evalForkCond cond b with
        | none => return []
        | some taken =>
          cloneBranch eng n verbatim b (if taken then thenBranch else elseBranch)
      | .ForSplice, some iter => do
        let items ← eng.iterItems iter b
        gather (fun item =>
          cloneBranch eng n verbatim (withItem info.name item b) thenBranch) items
      | _, _ => do
        let copy ← cloneStmt eng n verbatim b (.mk info synth attrs body bases type ps
          memberBody init e thenBranch elseBranch forInit forStep catches)
        return copy.toList

/-- The statements of a branch; a block is spliced flat. -/
def cloneBranch (eng : RuleEngine) :
    Nat → Bool → Bindings → Option Stmt → CloneM (List Stmt)
  | 0, _, _, _ => failure
  | _ + 1, _, _, none => pure []
  | n + 1, verbatim, b, some s =>
    if s.info.kind = .Block then gather (cloneStmtInto eng n verbatim b) s.body
    else cloneStmtInto eng n verbatim b s

end

end Leviathan.Meta
