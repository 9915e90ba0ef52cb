import Leviathan.Syntax.Ast

/-!
# Rebuilding a tree

A pass that copies a tree node by node is a `Rebuild`: what it makes of the plain fields of a
node and of a type reference.  Two passes give the same tree exactly when they agree at every
node (`Rebuild.stmt_eq_iff`), so what a copy loses can be read off from its fields alone.
-/

namespace Leviathan.Syntax

/-- A pass over the tree.  `exprInfo` is also given the fields of the node that the expression
is the left operand of.  `attrs` and `nameSynth` say whether these children are copied. -/
structure Rebuild where
  type : TypeRef → TypeRef
  exprInfo : Option ExprInfo → ExprInfo → ExprInfo
  stmtInfo : StmtInfo → StmtInfo
  attrInfo : AttrInfo → AttrInfo
  attrs : Bool := true
  nameSynth : Bool := true

namespace Rebuild

variable (r : Rebuild)

mutual

def expr (r : Rebuild) (above : Option ExprInfo) : Expr → Expr
  | .mk info a b c list targs params block arms type =>
    .mk (r.exprInfo above info) (r.exprOpt (some info) a) (r.exprOpt none b)
      (r.exprOpt none c) (r.exprs list) (targs.map r.type) (r.params params)
      (r.stmtOpt block) (r.arms arms) (type.map r.type)

def exprOpt (r : Rebuild) (above : Option ExprInfo) : Option Expr → Option Expr
  | none => none
  | some e => some (r.expr above e)

def exprs (r : Rebuild) : List Expr → List Expr
  | [] => []
  | e :: es => r.expr none e :: r.exprs es

def param (r : Rebuild) : Param → Param
  | .mk info type value => .mk info (type.map r.type) (r.exprOpt none value)

def params (r : Rebuild) : List Param → List Param
  | [] => []
  | p :: ps => r.param p :: r.params ps

def arm (r : Rebuild) : MatchArm → MatchArm
  | .mk info type value bodyExpr bodyBlock =>
    .mk info (type.map r.type) (r.exprOpt none value) (r.exprOpt none bodyExpr)
      (r.stmtOpt bodyBlock)

def arms (r : Rebuild) : List MatchArm → List MatchArm
  | [] => []
  | a :: as => r.arm a :: r.arms as

def attr (r : Rebuild) : AttrUse → AttrUse
  | .mk info args => .mk (r.attrInfo info) (r.exprs args)

def attrList (r : Rebuild) : List AttrUse → List AttrUse
  | [] => []
  | a :: as => r.attr a :: r.attrList as

def clause (r : Rebuild) : CatchClause → CatchClause
  | .mk name type body => .mk name (type.map r.type) (r.stmtOpt body)

def clauses (r : Rebuild) : List CatchClause → List CatchClause
  | [] => []
  | c :: cs => r.clause c :: r.clauses cs

def stmt (r : Rebuild) : Stmt → Stmt
  | .mk info synth attrs body bases type params memberBody init expr thenBranch elseBranch
      forInit forStep catches =>
      .mk (r.stmtInfo info) (if r.nameSynth then r.exprs synth else [])
        (if r.attrs then r.attrList attrs else []) (r.stmts body) (bases.map r.type)
        (type.map r.type) (r.params params) (r.stmtOpt memberBody) (r.exprOpt none init)
        (r.exprOpt none expr) (r.stmtOpt thenBranch) (r.stmtOpt elseBranch)
        (r.stmtOpt forInit) (r.exprOpt none forStep) (r.clauses catches)

def stmtOpt (r : Rebuild) : Option Stmt → Option Stmt
  | none => none
  | some s => some (r.stmt s)

def stmts (r : Rebuild) : List Stmt → List Stmt
  | [] => []
  | s :: ss => r.stmt s :: r.stmts ss

end

end Rebuild

/-- A property of the single nodes of a tree. -/
@[ext]
structure NodeTest where
  type : TypeRef → Prop
  expr : Option ExprInfo → ExprInfo → Prop
  stmt : StmtInfo → List Expr → List AttrUse → Prop
  attr : AttrInfo → Prop
  param : ParamInfo → Prop := fun _ => True

namespace NodeTest

/-- Every type reference of a list. -/
def types (t : NodeTest) (refs : List TypeRef) : Prop := ∀ ref ∈ refs, t.type ref

/-- A type reference, if there is one. -/
def typeOpt (t : NodeTest) (ref : Option TypeRef) : Prop := ∀ x ∈ ref, t.type x

mutual

/-- The test holds at every node of an expression. -/
def onExpr (t : NodeTest) (above : Option ExprInfo) : Expr → Prop
  | .mk info a b c list targs params block arms type =>
    t.expr above info ∧ t.onExprOpt (some info) a ∧ t.onExprOpt none b ∧ t.onExprOpt none c ∧
      t.onExprs list ∧ t.types targs ∧ t.onParams params ∧ t.onStmtOpt block ∧
      t.onArms arms ∧ t.typeOpt type

def onExprOpt (t : NodeTest) (above : Option ExprInfo) : Option Expr → Prop
  | none => True
  | some e => t.onExpr above e

def onExprs (t : NodeTest) : List Expr → Prop
  | [] => True
  | e :: es => t.onExpr none e ∧ t.onExprs es

def onParam (t : NodeTest) : Param → Prop
  | .mk info type value => t.param info ∧ t.typeOpt type ∧ t.onExprOpt none value

def onParams (t : NodeTest) : List Param → Prop
  | [] => True
  | p :: ps => t.onParam p ∧ t.onParams ps

def onArm (t : NodeTest) : MatchArm → Prop
  | .mk _ type value bodyExpr bodyBlock =>
    t.typeOpt type ∧ t.onExprOpt none value ∧ t.onExprOpt none bodyExpr ∧
      t.onStmtOpt bodyBlock

def onArms (t : NodeTest) : List MatchArm → Prop
  | [] => True
  | a :: as => t.onArm a ∧ t.onArms as

def onAttr (t : NodeTest) : AttrUse → Prop
  | .mk info args => t.attr info ∧ t.onExprs args

def onAttrs (t : NodeTest) : List AttrUse → Prop
  | [] => True
  | a :: as => t.onAttr a ∧ t.onAttrs as

def onClause (t : NodeTest) : CatchClause → Prop
  | .mk _ type body => t.typeOpt type ∧ t.onStmtOpt body

def onClauses (t : NodeTest) : List CatchClause → Prop
  | [] => True
  | c :: cs => t.onClause c ∧ t.onClauses cs

/-- The test holds at every node of a statement. -/
def onStmt (t : NodeTest) : Stmt → Prop
  | .mk info synth attrs body bases type params memberBody init expr thenBranch elseBranch
      forInit forStep catches =>
      t.stmt info synth attrs ∧ t.onExprs synth ∧ t.onAttrs attrs ∧ t.onStmts body ∧
        t.types bases ∧ t.typeOpt type ∧ t.onParams params ∧ t.onStmtOpt memberBody ∧
        t.onExprOpt none init ∧ t.onExprOpt none expr ∧ t.onStmtOpt thenBranch ∧
        t.onStmtOpt elseBranch ∧ t.onStmtOpt forInit ∧ t.onExprOpt none forStep ∧
        t.onClauses catches

def onStmtOpt (t : NodeTest) : Option Stmt → Prop
  | none => True
  | some s => t.onStmt s

def onStmts (t : NodeTest) : List Stmt → Prop
  | [] => True
  | s :: ss => t.onStmt s ∧ t.onStmts ss

end

end NodeTest

namespace Rebuild

variable (r w : Rebuild)

/-- Two passes agree at a node.  The second one is taken to copy all children. -/
def agree : NodeTest where
  type t := r.type t = w.type t
  expr above info := r.exprInfo above info = w.exprInfo above info
  stmt info synth attrs := r.stmtInfo info = w.stmtInfo info ∧
    (r.nameSynth = false → synth = []) ∧ (r.attrs = false → attrs = [])
  attr info := r.attrInfo info = w.attrInfo info

/-- The pass copies all children. -/
def Whole : Prop := w.nameSynth = true ∧ w.attrs = true

theorem types_eq_iff (refs : List TypeRef) :
    refs.map r.type = refs.map w.type ↔ (r.agree w).types refs := by
  rw [List.map_inj_left]
  rfl

theorem typeOpt_eq_iff (ref : Option TypeRef) :
    ref.map r.type = ref.map w.type ↔ (r.agree w).typeOpt ref := by
  cases ref with
  | none => simp [NodeTest.typeOpt]
  | some t => simp [NodeTest.typeOpt, agree]

variable {r w}

/-- A list of children that one pass leaves out is the same in both when it is empty. -/
theorem kept_eq_iff {α : Type} (keep : Bool) {source mine theirs : List α} {P : Prop}
    (hiff : mine = theirs ↔ P) (hnil : theirs = [] ↔ source = []) (hempty : source = [] → P) :
    (if keep = true then mine else []) = theirs ↔ (keep = false → source = []) ∧ P := by
  cases keep with
  | true => simp [hiff]
  | false =>
    constructor
    · intro h
      have hs : source = [] := hnil.mp h.symm
      exact ⟨fun _ => hs, hempty hs⟩
    · intro h
      exact (hnil.mpr (h.1 rfl)).symm

theorem exprs_nil_iff (w : Rebuild) (es : List Expr) : w.exprs es = [] ↔ es = [] := by
  cases es <;> simp [exprs]

theorem attrList_nil_iff (w : Rebuild) (as : List AttrUse) : w.attrList as = [] ↔ as = [] := by
  cases as <;> simp [attrList]

-- one case for each kind of node: the passes agree on a node and on all its children
mutual

theorem expr_eq_iff (hw : w.Whole) (above : Option ExprInfo) :
    ∀ e, r.expr above e = w.expr above e ↔ (r.agree w).onExpr above e
  | .mk info a b c list targs ps block as type => by
    simp only [expr, NodeTest.onExpr, Expr.mk.injEq, exprOpt_eq_iff hw (some info) a,
      exprOpt_eq_iff hw none b, exprOpt_eq_iff hw none c, exprs_eq_iff hw list,
      types_eq_iff, params_eq_iff hw ps, stmtOpt_eq_iff hw block, arms_eq_iff hw as,
      typeOpt_eq_iff]
    rfl

theorem exprOpt_eq_iff (hw : w.Whole) (above : Option ExprInfo) :
    ∀ e, r.exprOpt above e = w.exprOpt above e ↔ (r.agree w).onExprOpt above e
  | none => by simp [exprOpt, NodeTest.onExprOpt]
  | some e => by
    simp only [exprOpt, NodeTest.onExprOpt, Option.some.injEq, expr_eq_iff hw above e]

theorem exprs_eq_iff (hw : w.Whole) :
    ∀ es, r.exprs es = w.exprs es ↔ (r.agree w).onExprs es
  | [] => by simp [exprs, NodeTest.onExprs]
  | e :: es => by
    simp only [exprs, NodeTest.onExprs, List.cons.injEq, expr_eq_iff hw none e,
      exprs_eq_iff hw es]

theorem param_eq_iff (hw : w.Whole) :
    ∀ p, r.param p = w.param p ↔ (r.agree w).onParam p
  | .mk info type value => by
    simp only [param, NodeTest.onParam, Param.mk.injEq, typeOpt_eq_iff,
      exprOpt_eq_iff hw none value]
    simp [agree]

theorem params_eq_iff (hw : w.Whole) :
    ∀ ps, r.params ps = w.params ps ↔ (r.agree w).onParams ps
  | [] => by simp [params, NodeTest.onParams]
  | p :: ps => by
    simp only [params, NodeTest.onParams, List.cons.injEq, param_eq_iff hw p,
      params_eq_iff hw ps]

theorem arm_eq_iff (hw : w.Whole) :
    ∀ a, r.arm a = w.arm a ↔ (r.agree w).onArm a
  | .mk info type value bodyExpr bodyBlock => by
    simp only [arm, NodeTest.onArm, MatchArm.mk.injEq, true_and, typeOpt_eq_iff,
      exprOpt_eq_iff hw none value, exprOpt_eq_iff hw none bodyExpr,
      stmtOpt_eq_iff hw bodyBlock]

theorem arms_eq_iff (hw : w.Whole) :
    ∀ as, r.arms as = w.arms as ↔ (r.agree w).onArms as
  | [] => by simp [arms, NodeTest.onArms]
  | a :: as => by
    simp only [arms, NodeTest.onArms, List.cons.injEq, arm_eq_iff hw a, arms_eq_iff hw as]

theorem attr_eq_iff (hw : w.Whole) :
    ∀ a, r.attr a = w.attr a ↔ (r.agree w).onAttr a
  | .mk info args => by
    simp only [attr, NodeTest.onAttr, AttrUse.mk.injEq, exprs_eq_iff hw args]
    rfl

theorem attrList_eq_iff (hw : w.Whole) :
    ∀ as, r.attrList as = w.attrList as ↔ (r.agree w).onAttrs as
  | [] => by simp [attrList, NodeTest.onAttrs]
  | a :: as => by
    simp only [attrList, NodeTest.onAttrs, List.cons.injEq, attr_eq_iff hw a,
      attrList_eq_iff hw as]

theorem clause_eq_iff (hw : w.Whole) :
    ∀ c, r.clause c = w.clause c ↔ (r.agree w).onClause c
  | .mk name type body => by
    simp only [clause, NodeTest.onClause, CatchClause.mk.injEq, true_and, typeOpt_eq_iff,
      stmtOpt_eq_iff hw body]

theorem clauses_eq_iff (hw : w.Whole) :
    ∀ cs, r.clauses cs = w.clauses cs ↔ (r.agree w).onClauses cs
  | [] => by simp [clauses, NodeTest.onClauses]
  | c :: cs => by
    simp only [clauses, NodeTest.onClauses, List.cons.injEq, clause_eq_iff hw c,
      clauses_eq_iff hw cs]

/-- Two passes give the same tree exactly when they agree at every node of it. -/
theorem stmt_eq_iff (hw : w.Whole) :
    ∀ s, r.stmt s = w.stmt s ↔ (r.agree w).onStmt s
  | .mk info synth attrs body bases type ps memberBody init e thenBranch elseBranch
      forInit forStep catches => by
      have hsynth := kept_eq_iff r.nameSynth (exprs_eq_iff hw synth) (exprs_nil_iff w synth)
        (by intro h; subst h; simp [NodeTest.onExprs])
      have hattrs := kept_eq_iff r.attrs (attrList_eq_iff hw attrs) (attrList_nil_iff w attrs)
        (by intro h; subst h; simp [NodeTest.onAttrs])
      simp only [stmt, NodeTest.onStmt, Stmt.mk.injEq, hw.1, hw.2, if_true, hsynth, hattrs,
        stmts_eq_iff hw body, types_eq_iff, typeOpt_eq_iff, params_eq_iff hw ps,
        stmtOpt_eq_iff hw memberBody, exprOpt_eq_iff hw none init, exprOpt_eq_iff hw none e,
        stmtOpt_eq_iff hw thenBranch, stmtOpt_eq_iff hw elseBranch, stmtOpt_eq_iff hw forInit,
        exprOpt_eq_iff hw none forStep, clauses_eq_iff hw catches]
      simp only [agree]
      tauto

theorem stmtOpt_eq_iff (hw : w.Whole) :
    ∀ s, r.stmtOpt s = w.stmtOpt s ↔ (r.agree w).onStmtOpt s
  | none => by simp [stmtOpt, NodeTest.onStmtOpt]
  | some s => by
    simp only [stmtOpt, NodeTest.onStmtOpt, Option.some.injEq, stmt_eq_iff hw s]

theorem stmts_eq_iff (hw : w.Whole) :
    ∀ ss, r.stmts ss = w.stmts ss ↔ (r.agree w).onStmts ss
  | [] => by simp [stmts, NodeTest.onStmts]
  | s :: ss => by
    simp only [stmts, NodeTest.onStmts, List.cons.injEq, stmt_eq_iff hw s,
      stmts_eq_iff hw ss]

end

/-- One pass after another. -/
def andThen (r w : Rebuild) : Rebuild where
  type t := w.type (r.type t)
  exprInfo above info := w.exprInfo none (r.exprInfo above info)
  stmtInfo info := w.stmtInfo (r.stmtInfo info)
  attrInfo info := w.attrInfo (r.attrInfo info)
  attrs := r.attrs && w.attrs
  nameSynth := r.nameSynth && w.nameSynth

/-- The pass does not look at the node above. -/
def Plain (w : Rebuild) : Prop := ∀ above info, w.exprInfo above info = w.exprInfo none info

theorem Whole.andThen (hr : r.Whole) (hw : w.Whole) : (r.andThen w).Whole := by
  constructor
  · simp [Rebuild.andThen, hr.1, hw.1]
  · simp [Rebuild.andThen, hr.2, hw.2]

theorem types_andThen (r w : Rebuild) (refs : List TypeRef) :
    (refs.map r.type).map w.type = refs.map (r.andThen w).type := by
  rw [List.map_map]
  rfl

theorem typeOpt_andThen (r w : Rebuild) (ref : Option TypeRef) :
    (ref.map r.type).map w.type = ref.map (r.andThen w).type := by
  rw [Option.map_map]
  rfl

mutual

theorem expr_andThen (hw : w.Plain) (above above' : Option ExprInfo) :
    ∀ e, w.expr above' (r.expr above e) = (r.andThen w).expr above e
  | .mk info a b c list targs ps block as type => by
    simp only [expr, exprOpt_andThen hw (some info) _ a, exprOpt_andThen hw none none b,
      exprOpt_andThen hw none none c, exprs_andThen hw list, types_andThen,
      params_andThen hw ps, stmtOpt_andThen hw block, arms_andThen hw as, typeOpt_andThen,
      hw above']
    rfl

theorem exprOpt_andThen (hw : w.Plain) (above above' : Option ExprInfo) :
    ∀ e, w.exprOpt above' (r.exprOpt above e) = (r.andThen w).exprOpt above e
  | none => rfl
  | some e => by simp only [exprOpt, expr_andThen hw above above' e]

theorem exprs_andThen (hw : w.Plain) :
    ∀ es, w.exprs (r.exprs es) = (r.andThen w).exprs es
  | [] => rfl
  | e :: es => by simp only [exprs, expr_andThen hw none none e, exprs_andThen hw es]

theorem param_andThen (hw : w.Plain) :
    ∀ p, w.param (r.param p) = (r.andThen w).param p
  | .mk info type value => by
    simp only [param, typeOpt_andThen, exprOpt_andThen hw none none value]

theorem params_andThen (hw : w.Plain) :
    ∀ ps, w.params (r.params ps) = (r.andThen w).params ps
  | [] => rfl
  | p :: ps => by simp only [params, param_andThen hw p, params_andThen hw ps]

theorem arm_andThen (hw : w.Plain) :
    ∀ a, w.arm (r.arm a) = (r.andThen w).arm a
  | .mk info type value bodyExpr bodyBlock => by
    simp only [arm, typeOpt_andThen, exprOpt_andThen hw none none value,
      exprOpt_andThen hw none none bodyExpr, stmtOpt_andThen hw bodyBlock]

theorem arms_andThen (hw : w.Plain) :
    ∀ as, w.arms (r.arms as) = (r.andThen w).arms as
  | [] => rfl
  | a :: as => by simp only [arms, arm_andThen hw a, arms_andThen hw as]

theorem attr_andThen (hw : w.Plain) :
    ∀ a, w.attr (r.attr a) = (r.andThen w).attr a
  | .mk info args => by
    simp only [attr, exprs_andThen hw args]
    rfl

theorem attrList_andThen (hw : w.Plain) :
    ∀ as, w.attrList (r.attrList as) = (r.andThen w).attrList as
  | [] => rfl
  | a :: as => by simp only [attrList, attr_andThen hw a, attrList_andThen hw as]

theorem clause_andThen (hw : w.Plain) :
    ∀ c, w.clause (r.clause c) = (r.andThen w).clause c
  | .mk name type body => by
    simp only [clause, typeOpt_andThen, stmtOpt_andThen hw body]

theorem clauses_andThen (hw : w.Plain) :
    ∀ cs, w.clauses (r.clauses cs) = (r.andThen w).clauses cs
  | [] => rfl
  | c :: cs => by simp only [clauses, clause_andThen hw c, clauses_andThen hw cs]

/-- Two passes in a row are one pass. -/
theorem stmt_andThen (hw : w.Plain) :
    ∀ s, w.stmt (r.stmt s) = (r.andThen w).stmt s
  | .mk info synth attrs body bases type ps memberBody init e thenBranch elseBranch
      forInit forStep catches => by
      have hsynth : (if w.nameSynth then w.exprs (if r.nameSynth then r.exprs synth else [])
          else []) = if (r.andThen w).nameSynth then (r.andThen w).exprs synth else [] := by
        rw [← exprs_andThen hw synth]
        cases hr : r.nameSynth <;> cases hw' : w.nameSynth <;> simp [andThen, hr, hw', exprs]
      have hattrs : (if w.attrs then w.attrList (if r.attrs then r.attrList attrs else [])
          else []) = if (r.andThen w).attrs then (r.andThen w).attrList attrs else [] := by
        rw [← attrList_andThen hw attrs]
        cases hr : r.attrs <;> cases hw' : w.attrs <;> simp [andThen, hr, hw', attrList]
      simp only [stmt, hsynth, hattrs, stmts_andThen hw body, types_andThen, typeOpt_andThen,
        params_andThen hw ps, stmtOpt_andThen hw memberBody, exprOpt_andThen hw none none init,
        exprOpt_andThen hw none none e, stmtOpt_andThen hw thenBranch,
        stmtOpt_andThen hw elseBranch, stmtOpt_andThen hw forInit,
        exprOpt_andThen hw none none forStep, clauses_andThen hw catches]
      rfl

theorem stmtOpt_andThen (hw : w.Plain) :
    ∀ s, w.stmtOpt (r.stmtOpt s) = (r.andThen w).stmtOpt s
  | none => rfl
  | some s => by simp only [stmtOpt, stmt_andThen hw s]

theorem stmts_andThen (hw : w.Plain) :
    ∀ ss, w.stmts (r.stmts ss) = (r.andThen w).stmts ss
  | [] => rfl
  | s :: ss => by simp only [stmts, stmt_andThen hw s, stmts_andThen hw ss]

end

end Rebuild

/-! ### Tests on whole trees -/

namespace NodeTest

variable {p q k : NodeTest}

/-- Two tests at a node give a third one. -/
structure Entails (p q k : NodeTest) : Prop where
  type : ∀ t, p.type t → q.type t → k.type t
  expr : ∀ above info, p.expr above info → q.expr above info → k.expr above info
  stmt : ∀ info synth attrs, p.stmt info synth attrs → q.stmt info synth attrs →
    k.stmt info synth attrs
  attr : ∀ info, p.attr info → q.attr info → k.attr info
  param : ∀ info, p.param info → q.param info → k.param info

theorem Entails.types (h : Entails p q k) {refs : List TypeRef} (hp : p.types refs)
    (hq : q.types refs) : k.types refs :=
  fun t ht => h.type t (hp t ht) (hq t ht)

theorem Entails.typeOpt (h : Entails p q k) {ref : Option TypeRef} (hp : p.typeOpt ref)
    (hq : q.typeOpt ref) : k.typeOpt ref :=
  fun t ht => h.type t (hp t ht) (hq t ht)

mutual

theorem Entails.onExpr (h : Entails p q k) (above : Option ExprInfo) :
    ∀ e, p.onExpr above e → q.onExpr above e → k.onExpr above e
  | .mk info a b c list targs ps block as type => by
    intro ⟨hp, pa, pb, pc, plist, ptargs, pps, pblock, pas, ptype⟩
      ⟨hq, qa, qb, qc, qlist, qtargs, qps, qblock, qas, qtype⟩
    exact ⟨h.expr above info hp hq, h.onExprOpt (some info) a pa qa, h.onExprOpt none b pb qb,
      h.onExprOpt none c pc qc, h.onExprs list plist qlist, h.types ptargs qtargs,
      h.onParams ps pps qps, h.onStmtOpt block pblock qblock, h.onArms as pas qas,
      h.typeOpt ptype qtype⟩

theorem Entails.onExprOpt (h : Entails p q k) (above : Option ExprInfo) :
    ∀ e, p.onExprOpt above e → q.onExprOpt above e → k.onExprOpt above e
  | none => fun _ _ => trivial
  | some e => h.onExpr above e

theorem Entails.onExprs (h : Entails p q k) :
    ∀ es, p.onExprs es → q.onExprs es → k.onExprs es
  | [] => fun _ _ => trivial
  | e :: es => fun hp hq => ⟨h.onExpr none e hp.1 hq.1, h.onExprs es hp.2 hq.2⟩

theorem Entails.onParam (h : Entails p q k) : ∀ x, p.onParam x → q.onParam x → k.onParam x
  | .mk info _ value => fun hp hq =>
    ⟨h.param info hp.1 hq.1, h.typeOpt hp.2.1 hq.2.1, h.onExprOpt none value hp.2.2 hq.2.2⟩

theorem Entails.onParams (h : Entails p q k) :
    ∀ ps, p.onParams ps → q.onParams ps → k.onParams ps
  | [] => fun _ _ => trivial
  | x :: xs => fun hp hq => ⟨h.onParam x hp.1 hq.1, h.onParams xs hp.2 hq.2⟩

theorem Entails.onArm (h : Entails p q k) : ∀ a, p.onArm a → q.onArm a → k.onArm a
  | .mk info type value bodyExpr bodyBlock => by
    intro ⟨ptype, pvalue, pexpr, pblock⟩ ⟨qtype, qvalue, qexpr, qblock⟩
    exact ⟨h.typeOpt ptype qtype, h.onExprOpt none value pvalue qvalue,
      h.onExprOpt none bodyExpr pexpr qexpr, h.onStmtOpt bodyBlock pblock qblock⟩

theorem Entails.onArms (h : Entails p q k) : ∀ as, p.onArms as → q.onArms as → k.onArms as
  | [] => fun _ _ => trivial
  | a :: as => fun hp hq => ⟨h.onArm a hp.1 hq.1, h.onArms as hp.2 hq.2⟩

theorem Entails.onAttr (h : Entails p q k) : ∀ a, p.onAttr a → q.onAttr a → k.onAttr a
  | .mk info args => fun hp hq => ⟨h.attr info hp.1 hq.1, h.onExprs args hp.2 hq.2⟩

theorem Entails.onAttrs (h : Entails p q k) :
    ∀ as, p.onAttrs as → q.onAttrs as → k.onAttrs as
  | [] => fun _ _ => trivial
  | a :: as => fun hp hq => ⟨h.onAttr a hp.1 hq.1, h.onAttrs as hp.2 hq.2⟩

theorem Entails.onClause (h : Entails p q k) :
    ∀ c, p.onClause c → q.onClause c → k.onClause c
  | .mk _ _ body => fun hp hq => ⟨h.typeOpt hp.1 hq.1, h.onStmtOpt body hp.2 hq.2⟩

theorem Entails.onClauses (h : Entails p q k) :
    ∀ cs, p.onClauses cs → q.onClauses cs → k.onClauses cs
  | [] => fun _ _ => trivial
  | c :: cs => fun hp hq => ⟨h.onClause c hp.1 hq.1, h.onClauses cs hp.2 hq.2⟩

/-- What two tests give at every node they give on the tree. -/
theorem Entails.onStmt (h : Entails p q k) : ∀ s, p.onStmt s → q.onStmt s → k.onStmt s
  | .mk info synth attrs body bases type ps memberBody init e thenBranch elseBranch
      forInit forStep catches => by
      intro ⟨hp, psynth, pattrs, pbody, pbases, ptype, pps, pmember, pinit, pe, pthen, pelse,
          pforInit, pforStep, pcatches⟩
        ⟨hq, qsynth, qattrs, qbody, qbases, qtype, qps, qmember, qinit, qe, qthen, qelse,
          qforInit, qforStep, qcatches⟩
      exact ⟨h.stmt info synth attrs hp hq, h.onExprs synth psynth qsynth,
        h.onAttrs attrs pattrs qattrs, h.onStmts body pbody qbody, h.types pbases qbases,
        h.typeOpt ptype qtype, h.onParams ps pps qps, h.onStmtOpt memberBody pmember qmember,
        h.onExprOpt none init pinit qinit, h.onExprOpt none e pe qe,
        h.onStmtOpt thenBranch pthen qthen, h.onStmtOpt elseBranch pelse qelse,
        h.onStmtOpt forInit pforInit qforInit, h.onExprOpt none forStep pforStep qforStep,
        h.onClauses catches pcatches qcatches⟩

theorem Entails.onStmtOpt (h : Entails p q k) :
    ∀ s, p.onStmtOpt s → q.onStmtOpt s → k.onStmtOpt s
  | none => fun _ _ => trivial
  | some s => h.onStmt s

theorem Entails.onStmts (h : Entails p q k) :
    ∀ ss, p.onStmts ss → q.onStmts ss → k.onStmts ss
  | [] => fun _ _ => trivial
  | s :: ss => fun hp hq => ⟨h.onStmt s hp.1 hq.1, h.onStmts ss hp.2 hq.2⟩

end

variable {t : NodeTest}

theorem onExprs_iff {es : List Expr} : t.onExprs es ↔ ∀ e ∈ es, t.onExpr none e := by
  induction es with
  | nil => simp [onExprs]
  | cons e es ih => simp [onExprs, ih]

theorem onParams_iff {ps : List Param} : t.onParams ps ↔ ∀ p ∈ ps, t.onParam p := by
  induction ps with
  | nil => simp [onParams]
  | cons p ps ih => simp [onParams, ih]

theorem onArms_iff {as : List MatchArm} : t.onArms as ↔ ∀ a ∈ as, t.onArm a := by
  induction as with
  | nil => simp [onArms]
  | cons a as ih => simp [onArms, ih]

theorem onAttrs_iff {as : List AttrUse} : t.onAttrs as ↔ ∀ a ∈ as, t.onAttr a := by
  induction as with
  | nil => simp [onAttrs]
  | cons a as ih => simp [onAttrs, ih]

theorem onClauses_iff {cs : List CatchClause} : t.onClauses cs ↔ ∀ c ∈ cs, t.onClause c := by
  induction cs with
  | nil => simp [onClauses]
  | cons c cs ih => simp [onClauses, ih]

theorem onStmts_iff {ss : List Stmt} : t.onStmts ss ↔ ∀ s ∈ ss, t.onStmt s := by
  induction ss with
  | nil => simp [onStmts]
  | cons s ss ih => simp [onStmts, ih]

end NodeTest

namespace Rebuild

variable {r : Rebuild}

theorem exprs_eq_map (es : List Expr) : r.exprs es = es.map (r.expr none) := by
  induction es with
  | nil => rfl
  | cons e es ih => rw [exprs, ih, List.map_cons]

theorem params_eq_map (ps : List Param) : r.params ps = ps.map r.param := by
  induction ps with
  | nil => rfl
  | cons p ps ih => rw [params, ih, List.map_cons]

theorem arms_eq_map (as : List MatchArm) : r.arms as = as.map r.arm := by
  induction as with
  | nil => rfl
  | cons a as ih => rw [arms, ih, List.map_cons]

theorem attrList_eq_map (as : List AttrUse) : r.attrList as = as.map r.attr := by
  induction as with
  | nil => rfl
  | cons a as ih => rw [attrList, ih, List.map_cons]

theorem clauses_eq_map (cs : List CatchClause) : r.clauses cs = cs.map r.clause := by
  induction cs with
  | nil => rfl
  | cons c cs ih => rw [clauses, ih, List.map_cons]

theorem stmts_eq_map (ss : List Stmt) : r.stmts ss = ss.map r.stmt := by
  induction ss with
  | nil => rfl
  | cons s ss ih => rw [stmts, ih, List.map_cons]

theorem exprOpt_eq_map (above : Option ExprInfo) (e : Option Expr) :
    r.exprOpt above e = e.map (r.expr above) := by
  cases e <;> rfl

theorem stmtOpt_eq_map (s : Option Stmt) : r.stmtOpt s = s.map r.stmt := by
  cases s <;> rfl

end Rebuild

/-! ### What the author wrote -/

namespace TypeInfo

/-- The fields without the annotations. -/
def authored (info : TypeInfo) : TypeInfo :=
  { info with canonical := [], resolvedSymbol := none }

end TypeInfo

namespace TypeRef

mutual

/-- The reference without the annotations. -/
def authored : TypeRef → TypeRef
  | .mk info generics members funcParams funcRet =>
    .mk info.authored (authoredList generics) (authoredList members)
      (authoredList funcParams) (authoredOpt funcRet)

def authoredList : List TypeRef → List TypeRef
  | [] => []
  | t :: ts => authored t :: authoredList ts

def authoredOpt : Option TypeRef → Option TypeRef
  | none => none
  | some t => some (authored t)

end

end TypeRef

namespace ExprInfo

/-- The fields without the annotations. -/
def authored (info : ExprInfo) : ExprInfo where
  kind := info.kind
  span := info.span
  text := info.text
  op := info.op
  colon := info.colon
  optChain := info.optChain
  isComptime := info.isComptime
  isMacroCall := info.isMacroCall
  isRawSegment := info.isRawSegment
  isQuasiPayload := info.isQuasiPayload
  isRawString := info.isRawString
  singleQuoted := info.singleQuoted
  argLabel := info.argLabel

end ExprInfo

namespace StmtInfo

/-- The fields without the annotations. -/
def authored (info : StmtInfo) : StmtInfo :=
  { info with
    blockScope := none
    enclosingNs := none
    useResolvedNs := none
    useResolvedTypeKey := []
    usingClose := none
    labelTarget := none
    isSynthEq := false
    specializationRequired := false
    isSpecialization := false
    specializationOf := none
    specializationClass := none
    instantiationSpan := ⟨0, 0⟩
    forInProtocol := false }

end StmtInfo

namespace AttrInfo

/-- The fields without the annotations. -/
def authored (info : AttrInfo) : AttrInfo :=
  { info with resolved := none, consumed := false, considered := false }

end AttrInfo

/-- The tree as it is written: the pass that clears every annotation. -/
def authored : Rebuild where
  type := TypeRef.authored
  exprInfo _ := ExprInfo.authored
  stmtInfo := StmtInfo.authored
  attrInfo := AttrInfo.authored

theorem authored_plain : authored.Plain := fun _ _ => rfl

theorem authored_whole : authored.Whole := ⟨rfl, rfl⟩

end Leviathan.Syntax
