import Leviathan.Meta.Clone

/-!
# What cloning leaves unchanged

Where a template has no hole and no name of it is renamed or qualified, the clone is a plain copy
of the tree (`Copies`).  The copy forgets three fields that are written in the source, so it says
what the template says exactly when no declaration in it is `readonly` or `weak` and it holds no
splice site (`clone_faithful_iff`).  The same is true of the body that `$body` puts back.
-/

variable {α β : Type} {xs : List α} {info : ExprInfo} {a : Option Expr} {above : Option ExprInfo}
  {es : List Expr} {s : Stmt}

namespace Leviathan.Meta

open Syntax
open Frontend (SourceSpan Diagnostic)

/-! ### Clones without errors -/

/-- The clone returns a value and reports nothing. -/
def Quiet {α : Type} (m : CloneM α) (a : α) : Prop := ∀ errs, m.run errs = some (a, errs)

theorem Quiet.pure (a : α) : Quiet (pure a) a := fun _ => rfl

theorem Quiet.bind {m : CloneM α} {f : α → CloneM β} {a : α} {c : β} (hm : Quiet m a)
    (hf : Quiet (f a) c) : Quiet (m >>= f) c := by
  intro errs
  rw [StateT.run_bind, hm errs]
  exact hf errs

theorem Quiet.cloneOpt {clone : α → CloneM (Option α)} {copy : α → α} {x : Option α}
    (h : ∀ y ∈ x, Quiet (clone y) (some (copy y))) :
    Quiet (cloneOpt clone x) (x.map copy) := by
  cases x with
  | none => exact Quiet.pure none
  | some y => exact h y rfl

theorem Quiet.gather {clone : α → CloneM (List β)} {copy : α → β}
    (h : ∀ x ∈ xs, Quiet (clone x) [copy x]) : Quiet (gather clone xs) (xs.map copy) := by
  induction xs with
  | nil => exact Quiet.pure []
  | cons x xs ih =>
    have htail : Quiet (Meta.gather clone xs) (xs.map copy) :=
      ih fun y hy => h y (List.mem_cons_of_mem x hy)
    exact (h x List.mem_cons_self).bind (htail.bind (Quiet.pure _))

theorem Quiet.toList {m : CloneM (Option α)} {a : α} (h : Quiet m (some a)) :
    Quiet (do let copy ← m; return copy.toList) [a] :=
  h.bind (Quiet.pure _)

theorem Quiet.gatherOne {clone : α → CloneM (Option β)} {copy : α → β}
    (h : ∀ x ∈ xs, Quiet (clone x) (some (copy x))) :
    Quiet (gatherOne clone xs) (xs.map copy) :=
  Quiet.gather fun x hx => (h x hx).toList

/-! ### Templates that are copied -/

mutual

/-- A type reference without a hole. -/
def TypeHoleFree : TypeRef → Prop
  | .mk info generics members funcParams funcRet =>
    info.holeBind = [] ∧ info.holeField = [] ∧ isHole info.name = false ∧
      TypesHoleFree generics ∧ TypesHoleFree members ∧ TypesHoleFree funcParams ∧
      TypeOptHoleFree funcRet

def TypesHoleFree : List TypeRef → Prop
  | [] => True
  | t :: ts => TypeHoleFree t ∧ TypesHoleFree ts

def TypeOptHoleFree : Option TypeRef → Prop
  | none => True
  | some t => TypeHoleFree t

end

/-- Nothing in the tree is a hole. -/
def HoleFree : NodeTest where
  type := TypeHoleFree
  expr _ info := info.kind ≠ .ForSplice ∧ info.kind ≠ .ForkSplice ∧
    (info.kind = .Member → isHole info.text = false) ∧
    (info.kind = .Name → hasHole info.text = false)
  stmt info synth _ := (info.kind ≠ .ForSplice ∧ info.kind ≠ .ForkSplice) ∧
    (info.hasNameSynth = false ∧ synth = []) ∧
    hasHole info.name = false ∧ hasHole info.selector.text = false
  attr _ := True
  param info := info.name ≠ "$_params".toList

/-- No name of the tree is renamed, and none is qualified. -/
def NamesStay (eng : RuleEngine) : NodeTest where
  type _ := True
  expr _ info := info.kind = .Name →
    eng.renames info.text = none ∧ eng.qualifyDefSite info.text = none
  stmt info _ _ := info.kind = .Var → eng.renames info.name = none
  attr _ := True

/-- The tree is copied as it is; in an original body every name stays. -/
def CopiedAsIs (eng : RuleEngine) (verbatim : Bool) : NodeTest where
  type := TypeHoleFree
  expr above info := HoleFree.expr above info ∧
    (verbatim = false → (NamesStay eng).expr above info)
  stmt info synth attrs := HoleFree.stmt info synth attrs ∧
    (verbatim = false → (NamesStay eng).stmt info synth attrs)
  attr _ := True
  param := HoleFree.param

theorem template_copiedAsIs (eng : RuleEngine) :
    NodeTest.Entails HoleFree (NamesStay eng) (CopiedAsIs eng false) where
  type _ h _ := h
  expr _ _ h hn := ⟨h, fun _ => hn⟩
  stmt _ _ _ h hn := ⟨h, fun _ => hn⟩
  attr _ _ _ := trivial
  param _ h _ := h

theorem original_copiedAsIs (eng : RuleEngine) :
    NodeTest.Entails HoleFree HoleFree (CopiedAsIs eng true) where
  type _ h _ := h
  expr _ _ h _ := ⟨h, fun hv => absurd hv (by decide)⟩
  stmt _ _ _ h _ := ⟨h, fun hv => absurd hv (by decide)⟩
  attr _ _ _ := trivial
  param _ h _ := h

mutual

/-- The copy of a type reference. -/
def copyType : TypeRef → TypeRef
  | .mk info generics members funcParams funcRet =>
    .mk { kind := info.kind, span := info.span, path := info.path, name := info.name }
      (copyTypes generics) (copyTypes members) (copyTypes funcParams) (copyTypeOpt funcRet)

def copyTypes : List TypeRef → List TypeRef
  | [] => []
  | t :: ts => copyType t :: copyTypes ts

def copyTypeOpt : Option TypeRef → Option TypeRef
  | none => none
  | some t => some (copyType t)

end

/-- The plain copy. -/
def copied : Rebuild where
  type := copyType
  exprInfo _ := copyExprInfo
  stmtInfo := copyStmtInfo
  attrInfo := copyAttrInfo
  nameSynth := false

mutual

theorem cloneType_quiet (b : Bindings) :
    ∀ t, TypeHoleFree t → Quiet (cloneType b t) (copyType t)
  | .mk info generics members funcParams funcRet => by
    intro ⟨_, hfield, hname, hgenerics, hmembers, hparams, hret⟩
    rw [cloneType, if_neg (by simp [hfield]), hname]
    exact (cloneTypes_quiet b generics hgenerics).bind
      ((cloneTypes_quiet b members hmembers).bind
        ((cloneTypes_quiet b funcParams hparams).bind
          ((cloneTypeOpt_quiet b funcRet hret).bind (Quiet.pure _))))

theorem cloneTypes_quiet (b : Bindings) :
    ∀ ts, TypesHoleFree ts → Quiet (cloneTypes b ts) (copyTypes ts)
  | [] => fun _ => Quiet.pure []
  | t :: ts => fun h =>
    (cloneType_quiet b t h.1).bind ((cloneTypes_quiet b ts h.2).bind (Quiet.pure _))

theorem cloneTypeOpt_quiet (b : Bindings) :
    ∀ t, TypeOptHoleFree t → Quiet (cloneTypeOpt b t) (copyTypeOpt t)
  | none => fun _ => Quiet.pure none
  | some t => fun h => (cloneType_quiet b t h).bind (Quiet.pure _)

end

theorem typesHoleFree_of {ts : List TypeRef} (h : ∀ t ∈ ts, TypeHoleFree t) :
    TypesHoleFree ts := by
  induction ts with
  | nil => trivial
  | cons t ts ih =>
    exact ⟨h t List.mem_cons_self, ih fun u hu => h u (List.mem_cons_of_mem t hu)⟩

theorem copyTypes_eq_map (ts : List TypeRef) : copyTypes ts = ts.map copied.type := by
  induction ts with
  | nil => rfl
  | cons t ts ih => rw [copyTypes, ih, List.map_cons]; rfl

theorem refs_quiet (b : Bindings) {eng : RuleEngine} {v : Bool} {ts : List TypeRef}
    (h : (CopiedAsIs eng v).types ts) : Quiet (cloneTypes b ts) (ts.map copied.type) := by
  rw [← copyTypes_eq_map]
  exact cloneTypes_quiet b ts (typesHoleFree_of h)

theorem refOpt_quiet (b : Bindings) {eng : RuleEngine} {v : Bool} {t : Option TypeRef}
    (h : (CopiedAsIs eng v).typeOpt t) : Quiet (cloneTypeOpt b t) (t.map copied.type) := by
  cases t with
  | none => exact Quiet.pure none
  | some t => exact cloneTypeOpt_quiet b (some t) (h t rfl)

/-! ### Nodes without holes -/

theorem isHole_of_not_hasHole {t : Str} (h : hasHole t = false) : isHole t = false := by
  cases t with
  | nil => rfl
  | cons c t =>
    by_cases hc : c = '$'
    · subst hc
      simp [hasHole] at h
    · simp [isHole, hc]

theorem ne_body_of_not_hasHole {t : Str} (h : hasHole t = false) : t ≠ "$body".toList := by
  intro hbody
  subst hbody
  exact absurd h (by decide)

section
variable {eng : RuleEngine} {verbatim : Bool} {b : Bindings}

theorem fieldSplice_none
    (ha : ∀ base ∈ a, base.info.kind = .Name → hasHole base.info.text = false) :
    eng.fieldSplice b info a = none := by
  cases a with
  | none => rfl
  | some base =>
    have hbase := ha base rfl
    rw [RuleEngine.fieldSplice, if_neg]
    rintro ⟨-, hname, hhole⟩
    rw [isHole_of_not_hasHole (hbase hname)] at hhole
    exact absurd hhole (by decide)

theorem early_node (h : HoleFree.expr none info)
    (ha : ∀ base ∈ a, base.info.kind = .Name → hasHole base.info.text = false) :
    eng.early verbatim b info a = .node := by
  obtain ⟨-, -, -, hname⟩ := h
  have hbody : ¬ (eng.replaceBodyOrig.isSome ∧ !verbatim ∧ info.kind = .Name ∧
      info.text = "$body".toList) :=
    fun ⟨_, _, hk, ht⟩ => ne_body_of_not_hasHole (hname hk) ht
  have hparam : ¬ (info.kind = .Name ∧ isHole info.text) := by
    intro ⟨hk, ht⟩
    rw [isHole_of_not_hasHole (hname hk)] at ht
    exact absurd ht (by decide)
  rw [RuleEngine.early, if_neg hbody, fieldSplice_none ha]
  exact if_neg hparam

theorem memberSelector_quiet (h : HoleFree.expr none info) :
    Quiet (memberSelector b info) info.text := by
  have hmember : ¬ (info.kind = .Member ∧ isHole info.text) := by
    intro ⟨hk, ht⟩
    rw [h.2.2.1 hk] at ht
    exact absurd ht (by decide)
  rw [memberSelector, if_neg hmember]
  exact Quiet.pure _

theorem nameSplice_quiet (h : (CopiedAsIs eng verbatim).expr above info) :
    Quiet (eng.nameSplice verbatim b info info.text) (.text info.text none) := by
  by_cases hk : info.kind = .Name
  · have hhole : hasHole info.text = false := h.1.2.2.2 hk
    have hbare : isHole info.text = false := isHole_of_not_hasHole hhole
    rw [RuleEngine.nameSplice, if_neg (not_not_intro hk), if_neg (by simp [hbare]),
      if_neg (by simp [hhole])]
    cases verbatim with
    | true => exact Quiet.pure _
    | false =>
      obtain ⟨hrename, hqualify⟩ := h.2 rfl hk
      rw [hrename, hqualify]
      exact Quiet.pure _
  · rw [RuleEngine.nameSplice, if_pos hk]
    exact Quiet.pure _

theorem nameField_quiet {info : StmtInfo} {synth : List Expr} {attrs : List AttrUse}
    (h : (CopiedAsIs eng verbatim).stmt info synth attrs) :
    Quiet (eng.nameField verbatim b info synth) (copyStmtInfo info) := by
  obtain ⟨⟨-, ⟨hsynth, -⟩, hname, -⟩, hstay⟩ := h
  have hbare : isHole info.name = false := isHole_of_not_hasHole hname
  unfold RuleEngine.nameField
  rw [if_neg (by simp [hsynth]), if_neg (by simp [hbare]), if_neg (by simp [hname])]
  by_cases hvar : info.kind = .Var ∧ !verbatim
  · rw [if_pos hvar]
    have hrename : eng.renames info.name = none := hstay (by simpa using hvar.2) hvar.1
    rw [hrename]
    exact Quiet.pure _
  · rw [if_neg hvar]
    exact Quiet.pure _

theorem selectorField_quiet {synthesized : Bool} {out : StmtInfo}
    (h : hasHole out.selector.text = false) :
    Quiet (eng.selectorField b synthesized out) out := by
  have hbare : isHole out.selector.text = false := isHole_of_not_hasHole h
  unfold RuleEngine.selectorField
  rw [if_neg (by simp [hbare]), if_neg (by simp [h])]
  exact Quiet.pure _

theorem declFields_quiet {info : StmtInfo} {synth : List Expr} {attrs : List AttrUse}
    (h : (CopiedAsIs eng verbatim).stmt info synth attrs) :
    Quiet (eng.declFields verbatim b info synth) (copyStmtInfo info) :=
  (nameField_quiet h).bind (selectorField_quiet h.1.2.2.2)

end

/-! ### The copy -/

theorem copied_exprOpt (above : Option ExprInfo) (e : Option Expr) :
    copied.exprOpt above e = e.map (copied.expr none) := by
  cases e with
  | none => rfl
  | some e =>
    cases e
    rfl

/-- In a copy no name denotes a class by itself. -/
theorem constructorLabel_copied (kind : ExprKind) (above : Option ExprInfo) (a : Option Expr) :
    constructorLabel kind (copied.exprOpt above a) = copied.exprOpt above a := by
  cases a with
  | none => rfl
  | some e =>
    cases e
    exact if_neg (fun h => absurd h.2.2 Bool.false_ne_true)

/-- With this much fuel every clone of a tree without holes is the plain copy. -/
structure Copies (eng : RuleEngine) (n : Nat) : Prop where
  expr : ∀ v b above e, 2 * sizeOf e ≤ n → (CopiedAsIs eng v).onExpr above e →
    Quiet (cloneExpr eng n v b e) (some (copied.expr none e))
  element : ∀ v b e, 2 * sizeOf e + 1 ≤ n → (CopiedAsIs eng v).onExpr none e →
    Quiet (cloneArrayElement eng n v b e) [copied.expr none e]
  param : ∀ v b p, 2 * sizeOf p ≤ n → (CopiedAsIs eng v).onParam p →
    Quiet (cloneParam eng n v b p) (some (copied.param p))
  arm : ∀ v b a, 2 * sizeOf a ≤ n → (CopiedAsIs eng v).onArm a →
    Quiet (cloneArm eng n v b a) (some (copied.arm a))
  attr : ∀ v b a, 2 * sizeOf a ≤ n → (CopiedAsIs eng v).onAttr a →
    Quiet (cloneAttr eng n v b a) (some (copied.attr a))
  clause : ∀ v b c, 2 * sizeOf c ≤ n → (CopiedAsIs eng v).onClause c →
    Quiet (cloneCatch eng n v b c) (some (copied.clause c))
  stmt : ∀ v b s, 2 * sizeOf s ≤ n → (CopiedAsIs eng v).onStmt s →
    Quiet (cloneStmt eng n v b s) (some (copied.stmt s))
  into : ∀ v b s, 2 * sizeOf s + 1 ≤ n → (CopiedAsIs eng v).onStmt s →
    Quiet (cloneStmtInto eng n v b s) [copied.stmt s]
  item : ∀ v b s, 2 * sizeOf s + 2 ≤ n → (CopiedAsIs eng v).onStmt s →
    Quiet (cloneListItem eng n v b s) [copied.stmt s]

namespace Copies

variable {eng : RuleEngine} {n : Nat} {v : Bool} {b : Bindings}

theorem exprOpt (h : Copies eng n) {e : Option Expr} (hsize : 2 * sizeOf e ≤ n)
    (he : (CopiedAsIs eng v).onExprOpt above e) :
    Quiet (cloneOpt (cloneExpr eng n v b) e) (copied.exprOpt above e) := by
  rw [copied_exprOpt]
  apply Quiet.cloneOpt
  intro y hy
  cases hy
  have hlt : 2 * sizeOf y ≤ n := by
    simp at hsize
    omega
  exact h.expr v b above y hlt he

theorem stmtOpt (h : Copies eng n) {s : Option Stmt} (hsize : 2 * sizeOf s ≤ n)
    (hs : (CopiedAsIs eng v).onStmtOpt s) :
    Quiet (cloneOpt (cloneStmt eng n v b) s) (copied.stmtOpt s) := by
  rw [Rebuild.stmtOpt_eq_map]
  apply Quiet.cloneOpt
  intro y hy
  cases hy
  have hlt : 2 * sizeOf y ≤ n := by
    simp at hsize
    omega
  exact h.stmt v b y hlt hs

/-- A list of children that are copied one by one. -/
theorem ofList [SizeOf α] {clone : α → CloneM (Option α)} {copy : α → α} {test : α → Prop}
    (hsize : 2 * sizeOf xs ≤ n)
    (hclone : ∀ x, 2 * sizeOf x ≤ n → test x → Quiet (clone x) (some (copy x)))
    (htest : ∀ x ∈ xs, test x) : Quiet (Meta.gatherOne clone xs) (xs.map copy) := by
  apply Quiet.gatherOne
  intro x hx
  have hlt := List.sizeOf_lt_of_mem hx
  exact hclone x (by omega) (htest x hx)

theorem paramList (h : Copies eng n) {ps : List Param} (hsize : 2 * sizeOf ps ≤ n)
    (hps : (CopiedAsIs eng v).onParams ps) :
    Quiet (cloneParamList (cloneParam eng n v b) b ps) (copied.params ps) := by
  rw [Rebuild.params_eq_map]
  apply Quiet.gather
  intro p hp
  have hlt := List.sizeOf_lt_of_mem hp
  have htest := NodeTest.onParams_iff.mp hps p hp
  cases p with
  | mk info type value =>
    have hname : info.name ≠ "$_params".toList := htest.1
    show Quiet (if info.name ≠ "$_params".toList then _ else _) _
    rw [if_pos hname]
    exact (h.param v b (.mk info type value) (by omega) htest).toList

section
variable (h : Copies eng n) (hsize : 2 * sizeOf es ≤ n) (hes : (CopiedAsIs eng v).onExprs es)
include h hsize hes

theorem exprList : Quiet (Meta.gatherOne (cloneExpr eng n v b) es) (copied.exprs es) := by
  rw [Rebuild.exprs_eq_map]
  exact ofList hsize (fun e => h.expr v b none e) (NodeTest.onExprs_iff.mp hes)

theorem argList : Quiet (cloneArgList (cloneExpr eng n v b) b es) (copied.exprs es) := by
  rw [Rebuild.exprs_eq_map]
  apply Quiet.gather
  intro e he
  have hlt := List.sizeOf_lt_of_mem he
  have htest := NodeTest.onExprs_iff.mp hes e he
  have harg : e.info.kind ≠ .Name ∨ e.info.text ≠ "$_args".toList := by
    by_cases hk : e.info.kind = .Name
    · right
      intro ht
      cases e with
      | mk info a b c list targs ps block as type =>
        have hhole : hasHole info.text = false := htest.1.1.2.2.2 hk
        rw [show info.text = "$_args".toList from ht] at hhole
        exact absurd hhole (by decide)
    · exact Or.inl hk
  show Quiet (if _ then _ else _) _
  rw [if_pos harg]
  exact (h.expr v b none e (by omega) htest).toList

theorem elementList : Quiet (Meta.gather (cloneArrayElement eng n v b) es) (copied.exprs es) := by
  rw [Rebuild.exprs_eq_map]
  apply Quiet.gather
  intro e he
  have hlt := List.sizeOf_lt_of_mem he
  exact h.element v b e (by omega) (NodeTest.onExprs_iff.mp hes e he)

end

theorem itemList (h : Copies eng n) {ss : List Stmt} (hsize : 2 * sizeOf ss ≤ n)
    (hss : (CopiedAsIs eng v).onStmts ss) :
    Quiet (Meta.gather (cloneListItem eng n v b) ss) (copied.stmts ss) := by
  rw [Rebuild.stmts_eq_map]
  apply Quiet.gather
  intro s hs
  have hlt := List.sizeOf_lt_of_mem hs
  exact h.item v b s (by omega) (NodeTest.onStmts_iff.mp hss s hs)

/-- The text of a left operand is not a hole. -/
theorem left_not_hole (ha : (CopiedAsIs eng v).onExprOpt above a) :
    ∀ base ∈ a, base.info.kind = .Name → hasHole base.info.text = false := by
  intro base hbase hk
  cases hbase
  cases base with
  | mk info a b c list targs ps block as type => exact ha.1.1.2.2.2 hk

theorem stepExpr (h : Copies eng n) (v : Bool) (b : Bindings) (above : Option ExprInfo)
    (e : Expr) (hsize : 2 * sizeOf e ≤ n + 1) (he : (CopiedAsIs eng v).onExpr above e) :
    Quiet (cloneExpr eng (n + 1) v b e) (some (copied.expr none e)) := by
  cases e with
  | mk info a e₂ e₃ list targs ps block as type =>
    obtain ⟨hinfo, ha, hb, hc, hlist, htargs, hps, hblock, has, htype⟩ := he
    simp only [Expr.mk.sizeOf_spec] at hsize
    rw [cloneExpr, early_node hinfo.1 (left_not_hole ha)]
    refine (memberSelector_quiet hinfo.1).bind ((nameSplice_quiet hinfo).bind ?_)
    refine (h.exprOpt (by omega) ha).bind ((h.exprOpt (by omega) hb).bind
      ((h.exprOpt (by omega) hc).bind ((refs_quiet b htargs).bind ?_)))
    have hchildren : Quiet (childList info.kind (cloneArgList (cloneExpr eng n v b) b list)
        (Meta.gather (cloneArrayElement eng n v b) list)
        (Meta.gatherOne (cloneExpr eng n v b) list)) (copied.exprs list) := by
      unfold childList
      split
      · exact h.argList (by omega) hlist
      · exact h.elementList (by omega) hlist
      · exact h.exprList (by omega) hlist
    refine hchildren.bind ((h.paramList (by omega) hps).bind
      ((h.stmtOpt (by omega) hblock).bind ((refOpt_quiet b htype).bind ?_)))
    rw [constructorLabel_copied]
    refine Quiet.bind (a := copied.arms as) ?_ (Quiet.pure _)
    rw [Rebuild.arms_eq_map]
    exact ofList (by omega) (fun a => h.arm v b a) (NodeTest.onArms_iff.mp has)

theorem stepElement (h : Copies eng n) (v : Bool) (b : Bindings) (e : Expr)
    (hsize : 2 * sizeOf e + 1 ≤ n + 1) (he : (CopiedAsIs eng v).onExpr none e) :
    Quiet (cloneArrayElement eng (n + 1) v b e) [copied.expr none e] := by
  have hcopy : Quiet (cloneExpr eng n v b e) (some (copied.expr none e)) :=
    h.expr v b none e (by omega) he
  cases e with
  | mk info a e₂ e₃ list targs ps block as type =>
    obtain ⟨⟨⟨hfor, hfork, -, -⟩, -⟩, -⟩ := he
    unfold cloneArrayElement
    split
    · next hk => exact absurd hk hfor
    · next hk => exact absurd hk hfork
    · exact hcopy.toList

theorem stepParam (h : Copies eng n) (v : Bool) (b : Bindings) (p : Param)
    (hsize : 2 * sizeOf p ≤ n + 1) (hp : (CopiedAsIs eng v).onParam p) :
    Quiet (cloneParam eng (n + 1) v b p) (some (copied.param p)) := by
  cases p with
  | mk info type value =>
    obtain ⟨-, htype, hvalue⟩ := hp
    simp only [Param.mk.sizeOf_spec] at hsize
    rw [cloneParam]
    exact (refOpt_quiet b htype).bind ((h.exprOpt (by omega) hvalue).bind (Quiet.pure _))

theorem stepArm (h : Copies eng n) (v : Bool) (b : Bindings) (a : MatchArm)
    (hsize : 2 * sizeOf a ≤ n + 1) (ha : (CopiedAsIs eng v).onArm a) :
    Quiet (cloneArm eng (n + 1) v b a) (some (copied.arm a)) := by
  cases a with
  | mk info type value bodyExpr bodyBlock =>
    obtain ⟨htype, hvalue, hexpr, hblock⟩ := ha
    simp only [MatchArm.mk.sizeOf_spec] at hsize
    rw [cloneArm]
    exact (refOpt_quiet b htype).bind ((h.exprOpt (by omega) hvalue).bind
      ((h.exprOpt (by omega) hexpr).bind ((h.stmtOpt (by omega) hblock).bind (Quiet.pure _))))

theorem stepAttr (h : Copies eng n) (v : Bool) (b : Bindings) (a : AttrUse)
    (hsize : 2 * sizeOf a ≤ n + 1) (ha : (CopiedAsIs eng v).onAttr a) :
    Quiet (cloneAttr eng (n + 1) v b a) (some (copied.attr a)) := by
  cases a with
  | mk info args =>
    simp only [AttrUse.mk.sizeOf_spec] at hsize
    rw [cloneAttr]
    exact (h.exprList (by omega) ha.2).bind (Quiet.pure _)

theorem stepClause (h : Copies eng n) (v : Bool) (b : Bindings) (c : CatchClause)
    (hsize : 2 * sizeOf c ≤ n + 1) (hc : (CopiedAsIs eng v).onClause c) :
    Quiet (cloneCatch eng (n + 1) v b c) (some (copied.clause c)) := by
  cases c with
  | mk name type body =>
    simp only [CatchClause.mk.sizeOf_spec] at hsize
    rw [cloneCatch]
    exact (refOpt_quiet b hc.1).bind ((h.stmtOpt (by omega) hc.2).bind (Quiet.pure _))

theorem stepStmt (h : Copies eng n) (v : Bool) (b : Bindings) (s : Stmt)
    (hsize : 2 * sizeOf s ≤ n + 1) (hs : (CopiedAsIs eng v).onStmt s) :
    Quiet (cloneStmt eng (n + 1) v b s) (some (copied.stmt s)) := by
  cases s with
  | mk info synth attrs body bases type ps memberBody init e thenBranch elseBranch forInit
      forStep catches =>
    obtain ⟨hinfo, -, hattrs, hbody, hbases, htype, hps, hmember, hinit, he, hthen, helse,
      hforInit, hforStep, hcatches⟩ := hs
    simp only [Stmt.mk.sizeOf_spec] at hsize
    have hattrList : Quiet (Meta.gatherOne (cloneAttr eng n v b) attrs)
        (copied.attrList attrs) := by
      rw [Rebuild.attrList_eq_map]
      exact ofList (by omega) (fun a => h.attr v b a) (NodeTest.onAttrs_iff.mp hattrs)
    have hclauses : Quiet (Meta.gatherOne (cloneCatch eng n v b) catches)
        (copied.clauses catches) := by
      rw [Rebuild.clauses_eq_map]
      exact ofList (by omega) (fun c => h.clause v b c) (NodeTest.onClauses_iff.mp hcatches)
    rw [cloneStmt]
    refine hattrList.bind ((declFields_quiet hinfo).bind ((refOpt_quiet b htype).bind ?_))
    refine (h.paramList (by omega) hps).bind ((h.stmtOpt (by omega) hmember).bind
      ((h.exprOpt (by omega) hinit).bind ((h.exprOpt (by omega) he).bind ?_)))
    refine (h.itemList (by omega) hbody).bind ((refs_quiet b hbases).bind
      ((h.stmtOpt (by omega) hthen).bind ((h.stmtOpt (by omega) helse).bind ?_)))
    exact (h.stmtOpt (by omega) hforInit).bind ((h.exprOpt (by omega) hforStep).bind
      (hclauses.bind (Quiet.pure _)))

theorem stepInto (h : Copies eng n) (v : Bool) (b : Bindings) (s : Stmt)
    (hsize : 2 * sizeOf s + 1 ≤ n + 1) (hs : (CopiedAsIs eng v).onStmt s) :
    Quiet (cloneStmtInto eng (n + 1) v b s) [copied.stmt s] := by
  have hcopy : Quiet (cloneStmt eng n v b s) (some (copied.stmt s)) :=
    h.stmt v b s (by omega) hs
  cases s with
  | mk info synth attrs body bases type ps memberBody init e thenBranch elseBranch forInit
      forStep catches =>
    obtain ⟨⟨⟨⟨hfor, hfork⟩, -⟩, -⟩, -⟩ := hs
    unfold cloneStmtInto
    split
    · next hk => exact absurd hk hfork
    · next hk => exact absurd hk hfor
    · exact hcopy.toList

/-- A statement without holes is not `$body;`. -/
theorem not_bodyHole (hs : (CopiedAsIs eng v).onStmt s) : isBodyHole s = false := by
  cases s with
  | mk info synth attrs body bases type ps memberBody init e thenBranch elseBranch forInit
      forStep catches =>
    have he : (CopiedAsIs eng v).onExprOpt none e := hs.2.2.2.2.2.2.2.2.2.1
    cases e with
    | none => simp [isBodyHole, Stmt.expr]
    | some x =>
      have htext : x.info.kind = .Name → x.info.text ≠ "$body".toList :=
        fun hk => ne_body_of_not_hasHole (left_not_hole he x rfl hk)
      simp only [isBodyHole, Stmt.expr, Option.any_some, decide_eq_false_iff_not,
        decide_eq_true_eq]
      intro hbody
      exact htext hbody.2.1 hbody.2.2

theorem stepItem (h : Copies eng n) (v : Bool) (b : Bindings) (s : Stmt)
    (hsize : 2 * sizeOf s + 2 ≤ n + 1) (hs : (CopiedAsIs eng v).onStmt s) :
    Quiet (cloneListItem eng (n + 1) v b s) [copied.stmt s] := by
  have hinto : Quiet (cloneStmtInto eng n v b s) [copied.stmt s] :=
    h.into v b s (by omega) hs
  rw [cloneListItem]
  split
  · rw [if_neg (by simp [not_bodyHole hs])]
    exact hinto
  · exact hinto

/-- Every clone of a tree without holes is the plain copy. -/
theorem all (eng : RuleEngine) : ∀ n, Copies eng n := by
  intro n
  induction n with
  | zero =>
    constructor
    · intro v b above e hsize
      cases e
      simp at hsize
    · intro v b e hsize
      omega
    · intro v b p hsize
      cases p
      simp at hsize
    · intro v b a hsize
      cases a
      simp at hsize
    · intro v b a hsize
      cases a
      simp at hsize
    · intro v b c hsize
      cases c
      simp at hsize
    · intro v b s hsize
      cases s
      simp at hsize
    · intro v b s hsize
      omega
    · intro v b s hsize
      omega
  | succ n ih =>
    exact {
      expr := ih.stepExpr
      element := ih.stepElement
      param := ih.stepParam
      arm := ih.stepArm
      attr := ih.stepAttr
      clause := ih.stepClause
      stmt := ih.stepStmt
      into := ih.stepInto
      item := ih.stepItem }

end Copies

/-! ### What the copy says -/

/-- The fields that the clone forgets have the value of a new node. -/
def NothingLost : NodeTest where
  type _ := True
  expr _ _ := True
  stmt info _ _ := info.isReadonly = false ∧ info.isWeak = false ∧ info.isSpliceSite = false
  attr _ := True

mutual

theorem copyType_authored : ∀ t, TypeHoleFree t → (copyType t).authored = t.authored
  | .mk info generics members funcParams funcRet => by
    intro ⟨hbind, hfield, _, hgenerics, hmembers, hparams, hret⟩
    rw [copyType, TypeRef.authored, TypeRef.authored, copyTypes_authored generics hgenerics,
      copyTypes_authored members hmembers, copyTypes_authored funcParams hparams,
      copyTypeOpt_authored funcRet hret]
    cases info
    simp_all [TypeInfo.authored]

theorem copyTypes_authored : ∀ ts, TypesHoleFree ts →
    TypeRef.authoredList (copyTypes ts) = TypeRef.authoredList ts
  | [] => fun _ => rfl
  | t :: ts => by
    intro h
    rw [copyTypes, TypeRef.authoredList, TypeRef.authoredList, copyType_authored t h.1,
      copyTypes_authored ts h.2]

theorem copyTypeOpt_authored : ∀ t, TypeOptHoleFree t →
    TypeRef.authoredOpt (copyTypeOpt t) = TypeRef.authoredOpt t
  | none => fun _ => rfl
  | some t => by
    intro h
    rw [copyTypeOpt, TypeRef.authoredOpt, TypeRef.authoredOpt, copyType_authored t h]

end

theorem copyStmtInfo_authored_iff (info : StmtInfo) (hsynth : info.hasNameSynth = false) :
    (copyStmtInfo info).authored = info.authored ↔
      info.isReadonly = false ∧ info.isWeak = false ∧ info.isSpliceSite = false := by
  simp only [copyStmtInfo, StmtInfo.authored, StmtInfo.mk.injEq]
  constructor
  · intro h
    simp_all
  · intro h
    simp_all

/-- A copy and its source agree at a node that is free of holes when nothing is lost there. -/
theorem nothingLost_agrees :
    NodeTest.Entails HoleFree NothingLost ((copied.andThen authored).agree authored) where
  type t h _ := copyType_authored t h
  expr _ _ _ _ := rfl
  stmt info synth _ h hlost :=
    ⟨(copyStmtInfo_authored_iff info h.2.1.1).mpr hlost, fun _ => h.2.1.2,
      fun hattrs => absurd hattrs (by decide)⟩
  attr _ _ _ := rfl
  param _ _ _ := trivial

theorem agrees_nothingLost :
    NodeTest.Entails HoleFree ((copied.andThen authored).agree authored) NothingLost where
  type _ _ _ := trivial
  expr _ _ _ _ := trivial
  stmt info _ _ h hagree := (copyStmtInfo_authored_iff info h.2.1.1).mp hagree.1
  attr _ _ _ := trivial
  param _ _ _ := trivial

theorem copied_stmt_iff (h : HoleFree.onStmt s) :
    authored.stmt (copied.stmt s) = authored.stmt s ↔ NothingLost.onStmt s := by
  rw [Rebuild.stmt_andThen authored_plain, Rebuild.stmt_eq_iff authored_whole]
  exact ⟨agrees_nothingLost.onStmt s h, nothingLost_agrees.onStmt s h⟩

theorem copied_stmts_iff {ss : List Stmt} (h : HoleFree.onStmts ss) :
    authored.stmts (copied.stmts ss) = authored.stmts ss ↔ NothingLost.onStmts ss := by
  rw [Rebuild.stmts_andThen authored_plain, Rebuild.stmts_eq_iff authored_whole]
  exact ⟨agrees_nothingLost.onStmts ss h, nothingLost_agrees.onStmts ss h⟩

theorem copied_expr_iff {e : Expr} (h : HoleFree.onExpr none e) :
    authored.expr none (copied.expr none e) = authored.expr none e ↔
      NothingLost.onExpr none e := by
  rw [Rebuild.expr_andThen authored_plain, Rebuild.expr_eq_iff authored_whole]
  exact ⟨agrees_nothingLost.onExpr none e h, nothingLost_agrees.onExpr none e h⟩

/-! ### The four places of a clone -/

section
variable (eng : RuleEngine) (b : Bindings)

/-- The clone of a statement of a template. -/
theorem stmt_clone (hs : HoleFree.onStmt s) (hstay : (NamesStay eng).onStmt s) {n : Nat}
    (hn : 2 * sizeOf s ≤ n) :
    Quiet (cloneStmt eng n false b s) (some (copied.stmt s)) :=
  (Copies.all eng n).stmt false b s hn ((template_copiedAsIs eng).onStmt s hs hstay)

theorem expr_clone {e : Expr} (he : HoleFree.onExpr none e) (hstay : (NamesStay eng).onExpr none e)
    {n : Nat} (hn : 2 * sizeOf e ≤ n) :
    Quiet (cloneExpr eng n false b e) (some (copied.expr none e)) :=
  (Copies.all eng n).expr false b none e hn ((template_copiedAsIs eng).onExpr none e he hstay)

/-- What stands in place of `$body;`. -/
theorem body_clone {orig hole : Stmt} (horig : eng.replaceBodyOrig = some orig)
    (hfree : HoleFree.onStmts orig.body) (hhole : isBodyHole hole = true) {n : Nat}
    (hn : 2 * sizeOf orig.body + 1 ≤ n) :
    Quiet (cloneListItem eng n false b hole) (copied.stmts orig.body) := by
  obtain ⟨m, rfl⟩ : ∃ m, n = m + 1 := ⟨n - 1, by omega⟩
  have hcopied := (original_copiedAsIs eng).onStmts orig.body hfree hfree
  rw [cloneListItem, horig]
  dsimp only
  rw [if_pos ⟨rfl, hhole⟩, Rebuild.stmts_eq_map]
  exact Copies.ofList (by omega) (fun s => (Copies.all eng m).stmt true b s)
    (NodeTest.onStmts_iff.mp hcopied)

/-- What stands in place of `$body` in an expression. -/
theorem bodyValue_clone {orig : Stmt} {value : Expr} (horig : eng.replaceBodyOrig = some orig)
    (hvalue : singleValueBodyExpr orig = some value) (hfree : HoleFree.onExpr none value)
    {hole : ExprInfo} (hkind : hole.kind = .Name) (htext : hole.text = "$body".toList) {n : Nat}
    (hn : 2 * sizeOf value + 1 ≤ n) :
    Quiet (cloneExpr eng n false b (Expr.leaf hole)) (some (copied.expr none value)) := by
  obtain ⟨m, rfl⟩ : ∃ m, n = m + 1 := ⟨n - 1, by omega⟩
  have hcopied := (original_copiedAsIs eng).onExpr none value hfree hfree
  have hearly : eng.early false b hole none = .follow true value := by
    rw [RuleEngine.early, if_pos ⟨by rw [horig]; rfl, rfl, hkind, htext⟩, horig]
    dsimp only [Option.bind_some]
    rw [hvalue]
  rw [Expr.leaf, cloneExpr, hearly]
  exact (Copies.all eng m).expr true b none value (by omega) hcopied

end

/-- A clone of a template without holes and without names to change, and the body that `$body`
puts back, say what their source says exactly when nothing in it is `readonly`, `weak` or a
splice site. -/
theorem clone_faithful_iff (eng : RuleEngine) (b : Bindings) :
    (∀ s, HoleFree.onStmt s → (NamesStay eng).onStmt s → ∃ fuel, ∀ n ≥ fuel, ∃ out,
      (cloneStmt eng n false b s).run [] = some (some out, []) ∧
        (authored.stmt out = authored.stmt s ↔ NothingLost.onStmt s)) ∧
    (∀ e, HoleFree.onExpr none e → (NamesStay eng).onExpr none e → ∃ fuel, ∀ n ≥ fuel, ∃ out,
      (cloneExpr eng n false b e).run [] = some (some out, []) ∧
        (authored.expr none out = authored.expr none e ↔ NothingLost.onExpr none e)) ∧
    (∀ orig hole, eng.replaceBodyOrig = some orig → HoleFree.onStmts orig.body →
      isBodyHole hole = true → ∃ fuel, ∀ n ≥ fuel, ∃ out,
      (cloneListItem eng n false b hole).run [] = some (out, []) ∧
        (authored.stmts out = authored.stmts orig.body ↔ NothingLost.onStmts orig.body)) ∧
    (∀ orig value hole, eng.replaceBodyOrig = some orig →
      singleValueBodyExpr orig = some value → HoleFree.onExpr none value →
      hole.kind = .Name → hole.text = "$body".toList → ∃ fuel, ∀ n ≥ fuel, ∃ out,
      (cloneExpr eng n false b (Expr.leaf hole)).run [] = some (some out, []) ∧
        (authored.expr none out = authored.expr none value ↔
          NothingLost.onExpr none value)) := by
  refine ⟨?_, ?_, ?_, ?_⟩
  · intro s hs hstay
    exact ⟨2 * sizeOf s, fun n hn =>
      ⟨_, stmt_clone eng b hs hstay hn [], copied_stmt_iff hs⟩⟩
  · intro e he hstay
    exact ⟨2 * sizeOf e, fun n hn =>
      ⟨_, expr_clone eng b he hstay hn [], copied_expr_iff he⟩⟩
  · intro orig hole horig hfree hhole
    exact ⟨2 * sizeOf orig.body + 1, fun n hn =>
      ⟨_, body_clone eng b horig hfree hhole hn [], copied_stmts_iff hfree⟩⟩
  · intro orig value hole horig hvalue hfree hkind htext
    exact ⟨2 * sizeOf value + 1, fun n hn =>
      ⟨_, bodyValue_clone eng b horig hvalue hfree hkind htext hn [], copied_expr_iff hfree⟩⟩

/-- An engine that renames and qualifies nothing. -/
def quietEngine (orig : Option Stmt) : RuleEngine where
  renames _ := none
  curRuleNs := "<root>".toList
  curRuleName := []
  namespaceScope _ := none
  replaceBodyOrig := orig
  evalComptimeAt _ _ := .error []
  reify _ _ := none
  valueToString _ := []

/-- The name `x`. -/
def nameX : Expr := Expr.leaf { kind := .Name, text := "x".toList }

/-- `return x;` -/
def returnX : Stmt :=
  .mk { kind := .Return } [] [] [] [] none [] none none (some nameX) none none none none []

/-- The name `$body`. -/
def bodyName : ExprInfo := { kind := .Name, text := "$body".toList }

/-- `$body;` -/
def bodyHole : Stmt :=
  .mk { kind := .ExprStmt } [] [] [] [] none [] none none (some (Expr.leaf bodyName)) none none
    none none []

theorem nameX_holeFree : HoleFree.onExpr none nameX := by
  simp [nameX, Expr.leaf, NodeTest.onExpr, NodeTest.onExprOpt, NodeTest.onExprs,
    NodeTest.onParams, NodeTest.onArms, NodeTest.onStmtOpt, NodeTest.types, NodeTest.typeOpt,
    HoleFree, hasHole]

theorem returnX_holeFree : HoleFree.onStmt returnX :=
  ⟨⟨⟨by decide, by decide⟩, ⟨rfl, rfl⟩, rfl, rfl⟩, trivial, trivial, trivial,
    fun t ht => absurd ht (by simp), fun t ht => absurd ht (by simp), trivial, trivial, trivial,
    nameX_holeFree, trivial, trivial, trivial, trivial, trivial⟩

theorem nameX_stays (orig : Option Stmt) : (NamesStay (quietEngine orig)).onExpr none nameX :=
  ⟨fun _ => ⟨rfl, rfl⟩, trivial, trivial, trivial, trivial, fun t ht => absurd ht (by simp),
    trivial, trivial, trivial, fun t ht => absurd ht (by simp)⟩

theorem returnX_stays (orig : Option Stmt) : (NamesStay (quietEngine orig)).onStmt returnX :=
  ⟨fun h => absurd h (by decide), trivial, trivial, trivial, fun t ht => absurd ht (by simp),
    fun t ht => absurd ht (by simp), trivial, trivial, trivial, nameX_stays orig, trivial,
    trivial, trivial, trivial, trivial⟩

/-- `return x;` as a template, and as the body that `$body;` and `$body` put back. -/
theorem clone_faithful_iff_returnX :
    let eng := quietEngine (some (Stmt.block [returnX]))
    (∃ fuel, ∀ n ≥ fuel, ∃ out, (cloneStmt eng n false [] returnX).run [] = some (some out, []) ∧
      (authored.stmt out = authored.stmt returnX ↔ NothingLost.onStmt returnX)) ∧
    (∃ fuel, ∀ n ≥ fuel, ∃ out, (cloneExpr eng n false [] nameX).run [] = some (some out, []) ∧
      (authored.expr none out = authored.expr none nameX ↔ NothingLost.onExpr none nameX)) ∧
    (∃ fuel, ∀ n ≥ fuel, ∃ out,
      (cloneListItem eng n false [] bodyHole).run [] = some (out, []) ∧
        (authored.stmts out = authored.stmts [returnX] ↔ NothingLost.onStmts [returnX])) ∧
    (∃ fuel, ∀ n ≥ fuel, ∃ out,
      (cloneExpr eng n false [] (Expr.leaf bodyName)).run [] = some (some out, []) ∧
        (authored.expr none out = authored.expr none nameX ↔
          NothingLost.onExpr none nameX)) := by
  intro eng
  obtain ⟨hstmt, hexpr, hbody, hvalue⟩ := clone_faithful_iff eng []
  refine ⟨hstmt returnX returnX_holeFree (returnX_stays _),
    hexpr nameX nameX_holeFree (nameX_stays _), ?_, ?_⟩
  · exact hbody (Stmt.block [returnX]) bodyHole rfl ⟨returnX_holeFree, trivial⟩ (by decide)
  · exact hvalue (Stmt.block [returnX]) nameX bodyName rfl rfl nameX_holeFree rfl rfl

/-- `readonly int total;` -/
def readonlyTotal : Stmt :=
  .mk { kind := .Member, name := "total".toList, selector := { text := "total".toList },
        isReadonly := true } [] [] [] []
    (some (.mk { kind := .Named, name := "int".toList } [] [] [] none)) [] none none none none
    none none none []

theorem readonlyTotal_holeFree : HoleFree.onStmt readonlyTotal := by
  refine ⟨⟨⟨by decide, by decide⟩, ⟨rfl, rfl⟩, rfl, rfl⟩, trivial, trivial, trivial,
    fun t ht => absurd ht (by simp), ?_, trivial, trivial, trivial, trivial, trivial, trivial,
    trivial, trivial, trivial⟩
  intro t ht
  cases ht
  exact ⟨rfl, rfl, rfl, trivial, trivial, trivial, trivial⟩

/-- A `readonly` field of a template is a plain field in every clone. -/
theorem clone_forgets_readonly :
    ¬ ∀ (eng : RuleEngine) (b : Bindings) (s : Stmt), HoleFree.onStmt s →
      (NamesStay eng).onStmt s → ∃ fuel, ∀ n ≥ fuel, ∃ out,
        (cloneStmt eng n false b s).run [] = some (some out, []) ∧
          authored.stmt out = authored.stmt s := by
  intro h
  have hstay : (NamesStay (quietEngine none)).onStmt readonlyTotal :=
    ⟨fun h => absurd h (by decide), trivial, trivial, trivial, fun t ht => absurd ht (by simp),
      fun _ _ => trivial, trivial, trivial, trivial, trivial, trivial, trivial, trivial, trivial,
      trivial⟩
  obtain ⟨fuel, hfuel⟩ := h (quietEngine none) [] readonlyTotal readonlyTotal_holeFree hstay
  obtain ⟨out, hrun, hsame⟩ := hfuel (max fuel (2 * sizeOf readonlyTotal)) (Nat.le_max_left _ _)
  have hcopy := stmt_clone (quietEngine none) [] readonlyTotal_holeFree hstay
    (Nat.le_max_right fuel (2 * sizeOf readonlyTotal)) []
  rw [hcopy] at hrun
  cases hrun
  have hkept := (copied_stmt_iff readonlyTotal_holeFree).mp hsame
  exact absurd hkept.1.1 (by decide)

end Leviathan.Meta
