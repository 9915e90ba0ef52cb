import Leviathan.Syntax.Traverse

/-!
# Specialised bodies

`SpecializationCloner` and `materializeSpecializations` of `CheckerGenerics.cpp`.  A generic
callable that names a static member of a type parameter is copied once for each tuple of types
it is called with.

The copy should be the body with the parameters replaced (`substituted`).  It is, up to
annotations, exactly for the bodies that use none of the fields the cloner forgets
(`specialization_faithful_iff`): a loop label, the path of a `use`, a splice site, an attribute.
-/

namespace Leviathan.Specialize

open Syntax
open Frontend (SourceSpan)

/-- `enum class TKind`. -/
inductive TKind where
  | Primitive | Class | TypeValue | FuncRef | Union | Unknown | Error
deriving DecidableEq, Repr

/-- `struct Type` of the checker; the return type of a function value is not read here. -/
inductive CheckedType where
  | mk (kind : TKind) (sym : Option Symbol) (canonical : Str)
      (unionMembers args : List CheckedType)

namespace CheckedType

def sym : CheckedType → Option Symbol
  | .mk _ sym .. => sym

end CheckedType

/-- The `subst` map. -/
abbrev Substitution := Str → Option CheckedType

mutual

def typeFrom (span : SourceSpan) : CheckedType → TypeRef
  | .mk kind sym canonical unionMembers args =>
    if kind = .Union then
      .mk { kind := .Union, span := span, canonical := canonical } []
        (typesFrom span unionMembers) [] none
    else
      .mk { kind := .Named, span := span, canonical := canonical, resolvedSymbol := sym,
            name := (sym.map Symbol.name).getD canonical }
        (typesFrom span args) [] [] none

def typesFrom (span : SourceSpan) : List CheckedType → List TypeRef
  | [] => []
  | t :: ts => typeFrom span t :: typesFrom span ts

end

/-- The type that stands for a reference: the reference is a bare type parameter. -/
def replacement (subst : Substitution) (info : TypeInfo) (generics : List TypeRef) :
    Option CheckedType :=
  if info.kind = .Named ∧ (info.resolvedSymbol.map Symbol.kind) = some .TypeParam ∧
      generics.isEmpty then
    subst info.name
  else
    none

namespace Cloner

mutual

def type (subst : Substitution) : TypeRef → TypeRef
  | .mk info generics members funcParams funcRet =>
    match replacement subst info generics with
    | some t => typeFrom info.span t
    | none =>
      .mk { kind := info.kind, span := info.span, path := info.path, name := info.name,
            canonical := info.canonical, resolvedSymbol := info.resolvedSymbol }
        (types subst generics) (types subst members) (types subst funcParams)
        (typeOpt subst funcRet)

def types (subst : Substitution) : List TypeRef → List TypeRef
  | [] => []
  | t :: ts => type subst t :: types subst ts

def typeOpt (subst : Substitution) : Option TypeRef → Option TypeRef
  | none => none
  | some t => some (type subst t)

end

/-- The fields of an expression that are copied. -/
def exprInfo (info : ExprInfo) : ExprInfo where
  kind := info.kind
  span := info.span
  text := info.text
  op := info.op
  colon := info.colon
  optChain := info.optChain
  isComptime := info.isComptime
  isMacroCall := info.isMacroCall
  isRawSegment := info.isRawSegment
  isQuasiPayload := info.isQuasiPayload
  isRawString := info.isRawString
  singleQuoted := info.singleQuoted
  charLit := info.charLit
  argLabel := info.argLabel
  weakField := info.weakField
  weakDirect := info.weakDirect
  argsNormalized := info.argsNormalized
  hygienicDecl := info.hygienicDecl
  genericStaticSite := info.genericStaticSite
  genericStaticParam := info.genericStaticParam

/-- The fields of a statement that are copied. -/
def stmtInfo (info : StmtInfo) : StmtInfo where
  kind := info.kind
  span := info.span
  access := info.access
  name := info.name
  blockScope := info.blockScope
  enclosingNs := info.enclosingNs
  isInterface := info.isInterface
  isValue := info.isValue
  isAttribute := info.isAttribute
  isCtor := info.isCtor
  isGet := info.isGet
  isSet := info.isSet
  isMutating := info.isMutating
  distinct := info.distinct
  isConst := info.isConst
  isReadonly := info.isReadonly
  isWeak := info.isWeak
  isUsing := info.isUsing
  usingClose := info.usingClose
  callable := info.callable
  selector := info.selector
  inferred := info.inferred
  isComptime := info.isComptime
  forInProtocol := info.forInProtocol

/-- The left operand of `T::member`: the class that `T` stands for. -/
def staticName (subst : Substitution) (above info : ExprInfo) : ExprInfo :=
  if above.genericStaticSite ∧ info.kind = .Name then
    match (subst above.genericStaticParam).bind CheckedType.sym with
    | some sym =>
      { info with text := sym.name, hygienicDecl := sym.decl.orElse fun _ => info.hygienicDecl }
    | none => info
  else
    info

/-- Only the marked left operand is rewritten. -/
def rewriteStatic (subst : Substitution) (above : ExprInfo) : Option Expr → Option Expr
  | none => none
  | some (.mk info a b c list targs params block arms type) =>
    some (.mk (staticName subst above info) a b c list targs params block arms type)

mutual

def param (subst : Substitution) : Param → Param
  | .mk info type value => .mk info (typeOpt subst type) (exprOpt subst value)

def params (subst : Substitution) : List Param → List Param
  | [] => []
  | p :: ps => param subst p :: params subst ps

def expr (subst : Substitution) : Expr → Expr
  | .mk info a b c list targs ps block as type =>
    .mk (exprInfo info) (rewriteStatic subst (exprInfo info) (exprOpt subst a))
      (exprOpt subst b) (exprOpt subst c) (exprs subst list) (types subst targs)
      (params subst ps) (stmtOpt subst block) (arms subst as) (typeOpt subst type)

def exprOpt (subst : Substitution) : Option Expr → Option Expr
  | none => none
  | some e => some (expr subst e)

def exprs (subst : Substitution) : List Expr → List Expr
  | [] => []
  | e :: es => expr subst e :: exprs subst es

def arm (subst : Substitution) : MatchArm → MatchArm
  | .mk info type value bodyExpr bodyBlock =>
    .mk info (typeOpt subst type) (exprOpt subst value) (exprOpt subst bodyExpr)
      (stmtOpt subst bodyBlock)

def arms (subst : Substitution) : List MatchArm → List MatchArm
  | [] => []
  | a :: as => arm subst a :: arms subst as

def clause (subst : Substitution) : CatchClause → CatchClause
  | .mk name type body => .mk name (typeOpt subst type) (stmtOpt subst body)

def clauses (subst : Substitution) : List CatchClause → List CatchClause
  | [] => []
  | c :: cs => clause subst c :: clauses subst cs

def stmt (subst : Substitution) : Stmt → Stmt
  | .mk info _ _ body bases type ps memberBody init e thenBranch elseBranch forInit forStep
      catches =>
      -- the arguments of a synthesized name and the attributes are not copied
      .mk (stmtInfo info) [] [] (stmts subst body) (types subst bases) (typeOpt subst type)
        (params subst ps) (stmtOpt subst memberBody) (exprOpt subst init) (exprOpt subst e)
        (stmtOpt subst thenBranch) (stmtOpt subst elseBranch) (stmtOpt subst forInit)
        (exprOpt subst forStep) (clauses subst catches)

def stmtOpt (subst : Substitution) : Option Stmt → Option Stmt
  | none => none
  | some s => some (stmt subst s)

def stmts (subst : Substitution) : List Stmt → List Stmt
  | [] => []
  | s :: ss => stmt subst s :: stmts subst ss

end

end Cloner

/-! ### The substitution on its own -/

mutual

/-- A type reference with the parameters replaced. -/
def substType (subst : Substitution) : TypeRef → TypeRef
  | .mk info generics members funcParams funcRet =>
    match replacement subst info generics with
    | some t => typeFrom info.span t
    | none =>
      .mk info (substTypes subst generics) (substTypes subst members)
        (substTypes subst funcParams) (substTypeOpt subst funcRet)

def substTypes (subst : Substitution) : List TypeRef → List TypeRef
  | [] => []
  | t :: ts => substType subst t :: substTypes subst ts

def substTypeOpt (subst : Substitution) : Option TypeRef → Option TypeRef
  | none => none
  | some t => some (substType subst t)

end

/-- The tree with the parameters replaced in its type references, of which the left side of
`T::member` is one, and with nothing else changed. -/
def substituted (subst : Substitution) : Rebuild where
  type := substType subst
  exprInfo above info := (above.map fun p => Cloner.staticName subst p info).getD info
  stmtInfo := id
  attrInfo := id

/-! ### The cloner as a pass -/

/-- What the cloner does at each node. -/
def cloned (subst : Substitution) : Rebuild where
  type := Cloner.type subst
  exprInfo above info :=
    (above.map fun p => Cloner.staticName subst p (Cloner.exprInfo info)).getD
      (Cloner.exprInfo info)
  stmtInfo := Cloner.stmtInfo
  attrInfo := id
  attrs := false
  nameSynth := false

theorem types_eq_map (subst : Substitution) (ts : List TypeRef) :
    Cloner.types subst ts = ts.map (cloned subst).type := by
  induction ts with
  | nil => rfl
  | cons t ts ih => rw [Cloner.types, ih, List.map_cons]; rfl

theorem typeOpt_eq_map (subst : Substitution) (t : Option TypeRef) :
    Cloner.typeOpt subst t = t.map (cloned subst).type := by
  cases t <;> rfl

/-- Rewriting the copy of the left operand is copying it under its parent. -/
theorem rewriteStatic_exprOpt (subst : Substitution) (above : ExprInfo) (e : Option Expr) :
    Cloner.rewriteStatic subst (Cloner.exprInfo above) ((cloned subst).exprOpt none e) =
      (cloned subst).exprOpt (some above) e := by
  cases e with
  | none => rfl
  | some e =>
    cases e with
    | mk info a b c list targs ps block as type => rfl

section
variable (subst : Substitution)

mutual

theorem param_eq : ∀ p, Cloner.param subst p = (cloned subst).param p
  | .mk info type value => by
    simp only [Cloner.param, Rebuild.param, typeOpt_eq_map, exprOpt_eq value]

theorem params_eq : ∀ ps, Cloner.params subst ps = (cloned subst).params ps
  | [] => rfl
  | p :: ps => by simp only [Cloner.params, Rebuild.params, param_eq p, params_eq ps]

theorem expr_eq : ∀ e, Cloner.expr subst e = (cloned subst).expr none e
  | .mk info a b c list targs ps block as type => by
    simp only [Cloner.expr, Rebuild.expr, exprOpt_eq a, exprOpt_eq b, exprOpt_eq c,
      exprs_eq list, types_eq_map, params_eq ps, stmtOpt_eq block, arms_eq as,
      typeOpt_eq_map, rewriteStatic_exprOpt]
    rfl

theorem exprOpt_eq : ∀ e, Cloner.exprOpt subst e = (cloned subst).exprOpt none e
  | none => rfl
  | some e => by simp only [Cloner.exprOpt, Rebuild.exprOpt, expr_eq e]

theorem exprs_eq : ∀ es, Cloner.exprs subst es = (cloned subst).exprs es
  | [] => rfl
  | e :: es => by simp only [Cloner.exprs, Rebuild.exprs, expr_eq e, exprs_eq es]

theorem arm_eq : ∀ a, Cloner.arm subst a = (cloned subst).arm a
  | .mk info type value bodyExpr bodyBlock => by
    simp only [Cloner.arm, Rebuild.arm, typeOpt_eq_map, exprOpt_eq value, exprOpt_eq bodyExpr,
      stmtOpt_eq bodyBlock]

theorem arms_eq : ∀ as, Cloner.arms subst as = (cloned subst).arms as
  | [] => rfl
  | a :: as => by simp only [Cloner.arms, Rebuild.arms, arm_eq a, arms_eq as]

theorem clause_eq : ∀ c, Cloner.clause subst c = (cloned subst).clause c
  | .mk name type body => by
    simp only [Cloner.clause, Rebuild.clause, typeOpt_eq_map, stmtOpt_eq body]

theorem clauses_eq : ∀ cs, Cloner.clauses subst cs = (cloned subst).clauses cs
  | [] => rfl
  | c :: cs => by simp only [Cloner.clauses, Rebuild.clauses, clause_eq c, clauses_eq cs]

/-- The cloner is a pass over the tree. -/
theorem stmt_eq : ∀ s, Cloner.stmt subst s = (cloned subst).stmt s
  | .mk info synth attrs body bases type ps memberBody init e thenBranch elseBranch forInit
      forStep catches => by
      simp only [Cloner.stmt, Rebuild.stmt, stmts_eq body, types_eq_map, typeOpt_eq_map,
        params_eq ps, stmtOpt_eq memberBody, exprOpt_eq init, exprOpt_eq e,
        stmtOpt_eq thenBranch, stmtOpt_eq elseBranch, stmtOpt_eq forInit, exprOpt_eq forStep,
        clauses_eq catches]
      rfl

theorem stmtOpt_eq : ∀ s, Cloner.stmtOpt subst s = (cloned subst).stmtOpt s
  | none => rfl
  | some s => by simp only [Cloner.stmtOpt, Rebuild.stmtOpt, stmt_eq s]

theorem stmts_eq : ∀ ss, Cloner.stmts subst ss = (cloned subst).stmts ss
  | [] => rfl
  | s :: ss => by simp only [Cloner.stmts, Rebuild.stmts, stmt_eq s, stmts_eq ss]

end

end

/-! ### What is lost -/

mutual

/-- No dotted hole is left in a type reference, but in one that is replaced. -/
def NoDottedHole (subst : Substitution) : TypeRef → Prop
  | .mk info generics members funcParams funcRet =>
    match replacement subst info generics with
    | some _ => True
    | none => info.holeBind = [] ∧ info.holeField = [] ∧ NoDottedHoles subst generics ∧
        NoDottedHoles subst members ∧ NoDottedHoles subst funcParams ∧
        NoDottedHoleOpt subst funcRet

def NoDottedHoles (subst : Substitution) : List TypeRef → Prop
  | [] => True
  | t :: ts => NoDottedHole subst t ∧ NoDottedHoles subst ts

def NoDottedHoleOpt (subst : Substitution) : Option TypeRef → Prop
  | none => True
  | some t => NoDottedHole subst t

end

/-- The fields that the cloner forgets have the value of a new node. -/
def NothingForgotten (subst : Substitution) : NodeTest where
  type := NoDottedHole subst
  expr _ _ := True
  stmt info synth attrs :=
    (info.label = [] ∧ info.generics = [] ∧ info.isSpliceSite = false ∧
      info.isMacroDecl = false ∧ info.isProceduralMacro = false ∧ info.hasNameSynth = false) ∧
    synth = [] ∧ attrs = []
  attr _ := True

mutual

theorem type_authored_iff (subst : Substitution) : ∀ t,
    (Cloner.type subst t).authored = (substType subst t).authored ↔ NoDottedHole subst t
  | .mk info generics members funcParams funcRet => by
    rw [Cloner.type, substType, NoDottedHole]
    cases replacement subst info generics with
    | some t => simp
    | none =>
      simp only [TypeRef.authored, TypeRef.mk.injEq, types_authored_iff subst generics,
        types_authored_iff subst members, types_authored_iff subst funcParams,
        typeOpt_authored_iff subst funcRet]
      simp [TypeInfo.authored, and_assoc, eq_comm]

theorem types_authored_iff (subst : Substitution) : ∀ ts,
    TypeRef.authoredList (Cloner.types subst ts) = TypeRef.authoredList (substTypes subst ts) ↔
      NoDottedHoles subst ts
  | [] => by simp [Cloner.types, substTypes, NoDottedHoles]
  | t :: ts => by
    simp only [Cloner.types, substTypes, TypeRef.authoredList, NoDottedHoles,
      List.cons.injEq, type_authored_iff subst t, types_authored_iff subst ts]

theorem typeOpt_authored_iff (subst : Substitution) : ∀ t,
    TypeRef.authoredOpt (Cloner.typeOpt subst t) =
      TypeRef.authoredOpt (substTypeOpt subst t) ↔ NoDottedHoleOpt subst t
  | none => by simp [Cloner.typeOpt, substTypeOpt, NoDottedHoleOpt]
  | some t => by
    simp only [Cloner.typeOpt, substTypeOpt, TypeRef.authoredOpt, NoDottedHoleOpt,
      Option.some.injEq, type_authored_iff subst t]

end

/-- Every field of an expression that is written is copied. -/
theorem exprInfo_authored (info : ExprInfo) :
    (Cloner.exprInfo info).authored = info.authored := rfl

theorem staticName_authored (subst : Substitution) (above info : ExprInfo) :
    (Cloner.staticName subst above (Cloner.exprInfo info)).authored =
      (Cloner.staticName subst above info).authored := by
  have hkind : (Cloner.exprInfo info).kind = info.kind := rfl
  unfold Cloner.staticName
  rw [hkind]
  split
  · cases (subst above.genericStaticParam).bind CheckedType.sym with
    | none => rfl
    | some sym => rfl
  · rfl

theorem stmtInfo_authored_iff (info : StmtInfo) :
    (Cloner.stmtInfo info).authored = info.authored ↔
      info.label = [] ∧ info.generics = [] ∧ info.isSpliceSite = false ∧
        info.isMacroDecl = false ∧ info.isProceduralMacro = false ∧
        info.hasNameSynth = false := by
  simp only [Cloner.stmtInfo, StmtInfo.authored, StmtInfo.mk.injEq]
  constructor
  · intro h
    simp_all
  · intro h
    simp_all

/-- Where the cloner and the substitution agree, the forgotten fields are empty. -/
theorem agree_eq (subst : Substitution) :
    ((cloned subst).andThen authored).agree ((substituted subst).andThen authored) =
      NothingForgotten subst := by
  apply NodeTest.ext
  · funext t
    exact propext (type_authored_iff subst t)
  · funext above info
    cases above with
    | none => exact eq_true (exprInfo_authored info)
    | some p => exact eq_true (staticName_authored subst p info)
  · funext info synth attrs
    apply propext
    show ((Cloner.stmtInfo info).authored = info.authored ∧ _ ∧ _) ↔ _
    rw [stmtInfo_authored_iff]
    simp [NothingForgotten, Rebuild.andThen, cloned]
  · funext info
    exact eq_true rfl
  · rfl

/-- The specialised body is the body with the type parameters replaced, and nothing else
changed in what is written, exactly when the body uses no forgotten field. -/
theorem specialization_faithful_iff (subst : Substitution) (body : Stmt) :
    authored.stmt (Cloner.stmt subst body) = authored.stmt ((substituted subst).stmt body) ↔
      (NothingForgotten subst).onStmt body := by
  rw [stmt_eq, Rebuild.stmt_andThen authored_plain, Rebuild.stmt_andThen authored_plain]
  have hwhole : ((substituted subst).andThen authored).Whole :=
    Rebuild.Whole.andThen ⟨rfl, rfl⟩ authored_whole
  rw [Rebuild.stmt_eq_iff hwhole, agree_eq]

/-- `outer: while (true) while (true) break outer;` -/
def leaveOuterLoop : Stmt :=
  let cond := Expr.leaf { kind := .BoolLit, text := "true".toList }
  let leave := Stmt.leaf { kind := .Break, label := "outer".toList }
  let inner := Stmt.mk { kind := .While } [] [] [] [] none [] none none (some cond) (some leave)
    none none none []
  .mk { kind := .While, label := "outer".toList } [] [] [] [] none [] none none (some cond)
    (some inner) none none none []

/-- In the copy the inner `break` no longer says which loop it leaves. -/
theorem specialization_forgets_label :
    ¬ ∀ (subst : Substitution) (body : Stmt),
      authored.stmt (Cloner.stmt subst body) = authored.stmt ((substituted subst).stmt body) := by
  intro h
  have hlabel : authored.stmt (Cloner.stmt (fun _ => none) leaveOuterLoop) =
      authored.stmt ((substituted fun _ => none).stmt leaveOuterLoop) :=
    h (fun _ => none) leaveOuterLoop
  simp [leaveOuterLoop, Cloner.stmt, substituted, Rebuild.stmt, authored, Cloner.stmtInfo,
    StmtInfo.authored] at hlabel

end Leviathan.Specialize
