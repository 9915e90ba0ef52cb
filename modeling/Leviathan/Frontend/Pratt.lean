import Leviathan.Frontend.ParserSteps
import Leviathan.Syntax.Traverse

/-!
# Binding powers

What it means that a text is read back as an expression: `BaseReads` for the postfix level of the
parser, `UnaryReads` for the prefix level, `ExprReads` for the infix level.  The last one carries
the least binding power the text is read under, and the power from which on an operator behind the
text would be taken by its right end.  One rule for each operator puts texts together.

The word `comptime` is a name only where no expression follows it, so a text in which it stands
directly before the start of an expression is read in another way.
-/

namespace Leviathan.Frontend.Pratt

open Syntax List

/-! ### Spellings -/

/-- A token as it is written: its kind, and its text where the text matters. -/
abbrev Spelling := TokenKind × Option Str

/-- The token has this spelling, wherever it stands in the file. -/
def Says (t : Token) (s : Spelling) : Prop := t.kind = s.1 ∧ ∀ x ∈ s.2, t.text = x

/-- The tokens are written like this. -/
abbrev Spells (ts : List Token) (ks : List Spelling) : Prop := List.Forall₂ Says ts ks

variable {ts : List Token}

theorem Spells.append {ks₁ ks₂ : List Spelling} (h : Spells ts (ks₁ ++ ks₂)) :
    ∃ ts₁ ts₂, ts = ts₁ ++ ts₂ ∧ Spells ts₁ ks₁ ∧ Spells ts₂ ks₂ :=
  ⟨ts.take ks₁.length, ts.drop ks₁.length, (take_append_drop _ ts).symm,
    forall₂_take_append ts ks₁ ks₂ h, forall₂_drop_append ts ks₁ ks₂ h⟩

variable {k : Spelling}

theorem Spells.cons {ks : List Spelling} (h : Spells ts (k :: ks)) :
    ∃ t ts', ts = t :: ts' ∧ Says t k ∧ Spells ts' ks := by
  cases h with
  | cons hk hks => exact ⟨_, _, rfl, hk, hks⟩

theorem Spells.single (h : Spells ts [k]) : ∃ t, ts = [t] ∧ Says t k := by
  obtain ⟨t, ts', rfl, ht, hts⟩ := h.cons
  cases hts
  exact ⟨t, rfl, ht⟩

/-- The word `comptime` directly before the start of an expression. -/
def Clash (t u : Token) : Prop :=
  t.kind = .Identifier ∧ t.text = "comptime".toList ∧ canStartExpr u.kind = true

/-- `comptime` stands nowhere directly before the start of an expression. -/
def Clear : List Token → Prop
  | t :: u :: ts => ¬ Clash t u ∧ Clear (u :: ts)
  | _ => True

theorem Clear.tail {t : Token} (h : Clear (t :: ts)) : Clear ts := by
  cases ts with
  | nil => trivial
  | cons u ts => exact h.2

theorem Clear.snoc {u : Token} (h : Clear ts) (hu : canStartExpr u.kind = false) :
    Clear (ts ++ [u]) := by
  have hend : ∀ t, ¬ Clash t u := by
    intro t hclash
    have hstart := hclash.2.2
    rw [hu] at hstart
    cases hstart
  induction ts with
  | nil => trivial
  | cons t ts ih =>
    cases ts with
    | nil => exact ⟨hend t, trivial⟩
    | cons v ts => exact ⟨h.1, ih h.2⟩

theorem Clear.drop {us : List Token} (h : Clear (ts ++ us)) : Clear us := by
  induction ts with
  | nil => exact h
  | cons t ts ih => exact ih h.tail

/-! ### Texts -/

/-- The text begins like an expression. -/
def Starts (ks : List Spelling) : Prop := ∃ k tail, ks = k :: tail ∧ canStartExpr k.1 = true

/-- In the text `=>` stands in type arguments only. -/
def WovenText (ks : List Spelling) : Prop :=
  ∀ ts rest, Spells ts ks → Woven rest → Woven (ts ++ rest)

/-- The text does not begin with a label and a colon. -/
def NotLabelled (ks : List Spelling) : Prop :=
  ∀ ts rest ds, Spells ts ks → headKind rest ≠ .Colon → ¬ Labelled ⟨ts ++ rest, ds⟩

/-- What the text of every expression is like. -/
structure Formed (ks : List Spelling) : Prop where
  starts : Starts ks
  woven : WovenText ks
  label : NotLabelled ks

section
variable {ks ks₁ ks₂ : List Spelling}

theorem Starts.headKind {rest : List Token} (h : Starts ks) (hts : Spells ts ks) :
    canStartExpr (headKind (ts ++ rest)) = true := by
  obtain ⟨k, tail, rfl, hk⟩ := h
  obtain ⟨t, ts, rfl, ht, -⟩ := hts.cons
  show canStartExpr t.kind = true
  rw [ht.1]
  exact hk

theorem Starts.ne_nil {r : List Token} (h : Starts ks) (hts : Spells ts ks) : ts ++ r ≠ [] := by
  obtain ⟨k, tail, rfl, hk⟩ := h
  obtain ⟨t, ts, rfl, ht, -⟩ := hts.cons
  simp

theorem WovenText.nil : WovenText [] := by
  intro ts rest hts hrest
  cases hts
  exact hrest

theorem WovenText.cons (hk : k.1 ≠ .Arrow) (h : WovenText ks) : WovenText (k :: ks) := by
  intro ts rest hts hrest
  obtain ⟨t, ts, rfl, ht, hts⟩ := hts.cons
  exact .token (by rw [ht.1]; exact hk) (h ts rest hts hrest)

theorem WovenText.append (h₁ : WovenText ks₁) (h₂ : WovenText ks₂) : WovenText (ks₁ ++ ks₂) := by
  intro ts rest hts hrest
  obtain ⟨ts₁, ts₂, rfl, hts₁, hts₂⟩ := hts.append
  rw [append_assoc]
  exact h₁ ts₁ _ hts₁ (h₂ ts₂ rest hts₂ hrest)

end

/-! ### Trees without their places -/

mutual

def bareType : TypeRef → TypeRef
  | .mk info generics members funcParams funcRet =>
    .mk { info with span := ⟨0, 0⟩ } (bareTypes generics) (bareTypes members)
      (bareTypes funcParams) (bareTypeOpt funcRet)

def bareTypes : List TypeRef → List TypeRef
  | [] => []
  | t :: ts => bareType t :: bareTypes ts

def bareTypeOpt : Option TypeRef → Option TypeRef
  | none => none
  | some t => some (bareType t)

end

/-- The tree without the places in the file. -/
def bare : Rebuild where
  type := bareType
  exprInfo _ info := { info with span := ⟨0, 0⟩ }
  stmtInfo info := { info with span := ⟨0, 0⟩ }
  attrInfo info := { info with span := ⟨0, 0⟩ }

theorem bare_above (above : Option ExprInfo) (e : Expr) :
    bare.expr above e = bare.expr none e := by
  cases e
  rfl

theorem bare_operands (info : ExprInfo) (a b c : Option Expr) :
    bare.expr none (operands info a b c) = operands { info with span := ⟨0, 0⟩ }
      (a.map (bare.expr none)) (b.map (bare.expr none)) (c.map (bare.expr none)) := by
  have ha : bare.exprOpt (some info) a = a.map (bare.expr none) := by
    cases a with
    | none => rfl
    | some e => exact congrArg some (bare_above (some info) e)
  show Expr.mk _ (bare.exprOpt (some info) a) (bare.exprOpt none b) (bare.exprOpt none c) [] []
    [] none [] none = _
  rw [ha, Rebuild.exprOpt_eq_map, Rebuild.exprOpt_eq_map]
  rfl

theorem bare_callNode (info : ExprInfo) (callee : Expr) (targs : List TypeRef)
    (list : List Expr) :
    bare.expr none (callNode info callee targs list) = callNode { info with span := ⟨0, 0⟩ }
      (bare.expr none callee) (targs.map bareType) (list.map (bare.expr none)) := by
  show Expr.mk _ (some (bare.expr (some info) callee)) none none (bare.exprs list)
    (targs.map bareType) [] none [] none = _
  rw [bare_above, Rebuild.exprs_eq_map]
  rfl

theorem bare_withTypeArgs (targs : List TypeRef) (e : Expr) :
    bare.expr none (withTypeArgs targs e) =
      withTypeArgs (targs.map bareType) (bare.expr none e) := by
  cases e
  rfl

theorem bare_withLabel (label : Str) (e : Expr) :
    bare.expr none (withLabel label e) = withLabel label (bare.expr none e) := by
  cases e with
  | mk info a b c list targs ps block as type =>
    cases a with
    | none => rfl
    | some e =>
      cases e
      rfl

theorem macroCallable_bare (e : Expr) : macroCallable (bare.expr none e) = macroCallable e := by
  cases e with
  | mk info a b c list targs ps block as type =>
    cases targs <;> rfl

/-! ### What reads back -/

section
variable (els : Elsewhere)

/-- The text of a postfix form: read as a prefix form it leaves the parser in the postfix loop
with `x`.  A text that ends in type arguments (`pinned`) is not to be followed by `(`. -/
def BaseReads (pinned : Bool) (ks : List Spelling) (x : Expr) : Prop :=
  ∀ ts rest ds, Spells ts ks → Woven rest → Clear (ts ++ rest) → rest ≠ [] →
    (pinned = true → headKind rest ≠ .LParen) →
    ∃ e, bare.expr none e = x ∧
      ∀ res, Settles (fun n => parsePostfix els n e ⟨rest, ds⟩) res →
        Settles (fun n => parseUnary els n ⟨ts ++ rest, ds⟩) res

/-- The text of a prefix form. -/
def UnaryReads (ks : List Spelling) (x : Expr) : Prop :=
  ∀ ts rest ds, Spells ts ks → Woven rest → Clear (ts ++ rest) → rest ≠ [] →
    startsPostfix (headKind rest) = false →
    ∃ e, bare.expr none e = x ∧
      Settles (fun n => parseUnary els n ⟨ts ++ rest, ds⟩) (e, ⟨rest, ds⟩)

/-- The text of an expression where the least binding power is `m`, and where nothing follows
that its right end, which takes operators from `o` on, would take. -/
def ExprReads (m o : Nat) (ks : List Spelling) (x : Expr) : Prop :=
  ∀ ts rest ds, Spells ts ks → Woven rest → Clear (ts ++ rest) → rest ≠ [] →
    startsPostfix (headKind rest) = false → power (headKind rest) < o →
    ∃ e, bare.expr none e = x ∧
      ∀ res, Settles (fun n => exprLoop els n m e ⟨rest, ds⟩) res →
        Settles (fun n => parseExpr els n m ⟨ts ++ rest, ds⟩) res

variable {els} {m o : Nat} {ks : List Spelling} {x : Expr}

/-- A postfix form is a prefix form. -/
theorem BaseReads.unary {pinned : Bool} (h : BaseReads els pinned ks x) : UnaryReads els ks x := by
  intro ts rest ds hts hwoven hclear hrest hstop
  have hparen : headKind rest ≠ .LParen := by
    intro hk
    rw [hk] at hstop
    exact absurd hstop (by decide)
  obtain ⟨e, he, hread⟩ := h ts rest ds hts hwoven hclear hrest fun _ => hparen
  refine ⟨e, he, hread _ ?_⟩
  exact Settles.succ (Settles.pure _) fun n => parsePostfix_stop hstop

/-- A prefix form is an expression with a firm right end. -/
theorem UnaryReads.expr (h : UnaryReads els ks x) (m o : Nat) : ExprReads els m o ks x := by
  intro ts rest ds hts hwoven hclear hrest hstop _
  obtain ⟨e, he, hread⟩ := h ts rest ds hts hwoven hclear hrest hstop
  refine ⟨e, he, fun res hloop => ?_⟩
  refine Settles.succ (hread.bind (f := fun n r => exprLoop els n m r.1 r.2) hloop) fun n => ?_
  rw [parseExpr]

/-- A text that nothing after it goes on with is read to its end. -/
theorem ExprReads.done (h : ExprReads els m o ks x) {rest : List Token} {d : List Diagnostic}
    (hts : Spells ts ks) (hwoven : Woven rest) (hclear : Clear (ts ++ rest)) (hrest : rest ≠ [])
    (hstop : startsPostfix (headKind rest) = false) (ho : power (headKind rest) < o)
    (hm : power (headKind rest) = 0 ∨ power (headKind rest) < m) :
    ∃ e, bare.expr none e = x ∧
      Settles (fun n => parseExpr els n m ⟨ts ++ rest, d⟩) (e, ⟨rest, d⟩) := by
  obtain ⟨e, he, hread⟩ := h ts rest d hts hwoven hclear hrest hstop ho
  refine ⟨e, he, hread _ ?_⟩
  exact Settles.succ (Settles.pure _) fun n => exprLoop_stop hm

/-- An expression in parentheses is a postfix form. -/
theorem ExprReads.paren (h : ExprReads els 0 o ks x) (ho : 0 < o) (hks : WovenText ks) :
    BaseReads els false ((.LParen, none) :: ks ++ [(.RParen, none)]) x := by
  intro ts rest ds hts hwoven hclear hrest _
  obtain ⟨l, ts, rfl, hl, hts⟩ := Spells.cons hts
  obtain ⟨body, close, rfl, hbody, hclose⟩ := hts.append
  obtain ⟨r, rfl, hr⟩ := hclose.single
  rw [cons_append, append_assoc] at hclear ⊢
  have hkind : headKind ([r] ++ rest) = .RParen := hr.1
  have hne : [r] ++ rest ≠ [] := by simp
  have hclosing : Woven ([r] ++ rest) := .token (by rw [hr.1]; decide) hwoven
  have hopening : Woven (l :: (body ++ ([r] ++ rest))) :=
    .token (by rw [hl.1]; decide) (hks body _ hbody hclosing)
  obtain ⟨e, he, hread⟩ := h.done (d := ds) hbody hclosing hclear.tail hne
    (by rw [hkind]; rfl)
    (by rw [hkind]; exact ho) (by rw [hkind]; exact Or.inl rfl)
  refine ⟨e, he, fun res hpost => ?_⟩
  have hinner : body ++ ([r] ++ rest) ≠ [] := by simp
  have hclosed : (⟨[r] ++ rest, ds⟩ : Cursor).expect .RParen "')'" = ⟨rest, ds⟩ :=
    Cursor.expect_of_kind hr.1 hrest
  have hprimary : Settles (fun n => parsePrimary els n ⟨l :: (body ++ ([r] ++ rest)), ds⟩)
      (e, ⟨rest, ds⟩) := by
    refine Settles.shift 2 (hread.bind (f := fun _ r => some (r.1, r.2.expect .RParen "')'")) ?_)
      fun n => parsePrimary_paren hl.1 hinner hopening
    rw [hclosed]
    exact Settles.pure _
  refine Settles.succ (hprimary.bind (f := fun n r => parsePostfix els n r.1 r.2) hpost)
    fun n => parseUnary_primary ?_ ?_
  · have hkl : (⟨l :: (body ++ ([r] ++ rest)), ds⟩ : Cursor).kind = .LParen := hl.1
    rw [hkl]
    decide
  · have hkl : (⟨l :: (body ++ ([r] ++ rest)), ds⟩ : Cursor).kind = .LParen := hl.1
    rw [hkl]
    exact fun h => absurd h.1 (by decide)

/-! ### Infix forms -/

/-- An operator of the table. -/
structure InfixOp where
  kind : TokenKind
  isInfix : infixBP kind ≠ 0

namespace InfixOp

def power (op : InfixOp) : Nat := infixBP op.kind

/-- The least binding power of the right operand. -/
def rightMin (op : InfixOp) : Nat := if isRightAssoc op.kind then op.power else op.power + 1

section
variable (op : InfixOp)

theorem power_pos : 0 < op.power := Nat.pos_of_ne_zero op.isInfix

theorem power_le : op.power ≤ 10 := by
  unfold power
  cases op.kind <;> decide

theorem rightMin_pos : 0 < op.rightMin := by
  have h := op.power_pos
  unfold rightMin
  split <;> omega

theorem not_postfix : startsPostfix op.kind = false := by
  have h := op.isInfix
  cases hk : op.kind <;> first | rfl | (rw [hk] at h; exact absurd rfl h)

theorem not_arrow : op.kind ≠ .Arrow := by
  intro hk
  have h := op.isInfix
  rw [hk] at h
  exact absurd rfl h

theorem not_colon : op.kind ≠ .Colon := by
  intro hk
  have h := op.isInfix
  rw [hk] at h
  exact absurd rfl h

theorem rightMin_le : op.rightMin ≤ 11 := by
  have h := op.power_le
  unfold rightMin
  split <;> omega

theorem power_eq : Frontend.power op.kind = op.power := by
  obtain ⟨hquestion, his, hdots⟩ := infixBP_of_special op.isInfix
  unfold Frontend.power power
  split <;> first | contradiction | rfl

end

end InfixOp

theorem ExprReads.binary {kl kr : List Spelling} {xl xr : Expr} {ol right : Nat} (op : InfixOp)
    (hl : ExprReads els m ol kl xl) (hr : ExprReads els op.rightMin right kr xr)
    (hol : op.power < ol) (hm : m ≤ op.power) (hkr : Formed kr) :
    ExprReads els m (min op.rightMin right) (kl ++ (op.kind, none) :: kr)
      (operands { kind := .Binary, op := op.kind } (some xl) (some xr) none) := by
  intro ts rest ds hts hwoven hclear hrest hstop ho
  obtain ⟨tl, ts, rfl, htl, hts⟩ := hts.append
  obtain ⟨t, tr, rfl, ht, htr⟩ := hts.cons
  have htk : t.kind = op.kind := ht.1
  rw [append_assoc, cons_append] at hclear ⊢
  have hright : power (headKind rest) < right := by omega
  have hmin : power (headKind rest) = 0 ∨ power (headKind rest) < op.rightMin := by omega
  have hafter : Woven (t :: (tr ++ rest)) :=
    .token (by rw [htk]; exact op.not_arrow) (hkr.woven tr rest htr hwoven)
  obtain ⟨el, hel, hreadl⟩ := hl tl (t :: (tr ++ rest)) ds htl hafter hclear (by simp)
    (by rw [headKind_cons, htk]; exact op.not_postfix)
    (by rw [headKind_cons, htk, op.power_eq]; exact hol)
  obtain ⟨er, her, hreadr⟩ := hr.done (d := ds) htr hwoven hclear.drop.tail hrest hstop hright hmin
  refine ⟨operands { kind := .Binary, span := el.info.span, op := t.kind } (some el) (some er)
    none, ?_, fun res hloop => hreadl res ?_⟩
  · rw [bare_operands, htk]
    simp [hel, her]
  · have hadvance : (⟨t :: (tr ++ rest), ds⟩ : Cursor).advance = ⟨tr ++ rest, ds⟩ :=
      Cursor.advance_of_ne (hkr.starts.ne_nil htr)
    have hkind : (⟨t :: (tr ++ rest), ds⟩ : Cursor).kind = op.kind := htk
    refine Settles.succ (hreadr.bind (f := fun n r => exprLoop els n m (operands
      { kind := .Binary, span := el.info.span, op := t.kind } (some el) (some r.1) none) r.2)
      hloop) fun n => ?_
    rw [exprLoop_binary (c := ⟨t :: (tr ++ rest), ds⟩) (by rw [hkind]; exact op.isInfix)
      (by rw [hkind]; exact hm) (by rw [hadvance]; exact hkr.starts.headKind htr), hadvance, hkind, htk]
    rfl

theorem ExprReads.ternary {kc kt ke : List Spelling} {xc xt xe : Expr} {oc ot oe : Nat}
    (hc : ExprReads els m oc kc xc) (ht : ExprReads els 0 ot kt xt)
    (he : ExprReads els 2 oe ke xe) (hoc : 2 < oc) (hot : 0 < ot) (hm : m ≤ 2)
    (hkt : WovenText kt) (hke : WovenText ke) :
    ExprReads els m (min 2 oe) (kc ++ (.Question, none) :: (kt ++ (.Colon, none) :: ke))
      (operands { kind := .Ternary } (some xc) (some xt) (some xe)) := by
  intro ts rest ds hts hwoven hclear hrest hstop ho
  obtain ⟨tc, ts, rfl, htc, hts⟩ := hts.append
  obtain ⟨q, ts, rfl, hq, hts⟩ := hts.cons
  obtain ⟨tt, ts, rfl, htt, hts⟩ := hts.append
  obtain ⟨colon, te, rfl, hcolon, hte⟩ := hts.cons
  have hqk : q.kind = .Question := hq.1
  have hck : colon.kind = .Colon := hcolon.1
  rw [append_assoc, cons_append, append_assoc, cons_append] at hclear ⊢
  have hclear₂ := hclear.drop.tail
  have hclear₃ := hclear₂.drop.tail
  have hwoven₂ : Woven (colon :: (te ++ rest)) :=
    .token (by rw [hck]; decide) (hke te rest hte hwoven)
  have hwoven₁ : Woven (q :: (tt ++ colon :: (te ++ rest))) :=
    .token (by rw [hqk]; decide) (hkt tt _ htt hwoven₂)
  by_cases hte' : te ++ rest = []
  · exact absurd (List.append_eq_nil_iff.mp hte').2 hrest
  obtain ⟨ec, hec, hreadc⟩ := hc tc (q :: (tt ++ colon :: (te ++ rest))) ds htc hwoven₁ hclear (by simp)
    (by rw [headKind_cons, hqk]; rfl) (by rw [headKind_cons, hqk]; exact hoc)
  obtain ⟨et, het, hreadt⟩ := ht.done (d := ds) htt hwoven₂ hclear₂ (by simp)
    (by rw [headKind_cons, hck]; rfl) (by rw [headKind_cons, hck]; exact hot)
    (by rw [headKind_cons, hck]; exact Or.inl rfl)
  obtain ⟨ee, hee, hreade⟩ := he.done (d := ds) hte hwoven hclear₃ hrest hstop (by omega)
    (by omega)
  refine ⟨operands { kind := .Ternary, span := ec.info.span } (some ec) (some et) (some ee), ?_,
    fun res hloop => hreadc res ?_⟩
  · rw [bare_operands]
    simp [hec, het, hee]
  · have hclosed : (⟨colon :: (te ++ rest), ds⟩ : Cursor).expect .Colon "':'" =
        ⟨te ++ rest, ds⟩ := Cursor.expect_of_kind hck hte'
    refine Settles.succ (hreadt.bind (f := fun n r =>
      parseExpr els n 2 (r.2.expect .Colon "':'") >>= fun other =>
        exprLoop els n m (operands { kind := .Ternary, span := ec.info.span } (some ec)
          (some r.1) (some other.1)) other.2) ?_) fun n => ?_
    · rw [hclosed]
      exact hreade.bind (f := fun n r => exprLoop els n m
        (operands { kind := .Ternary, span := ec.info.span } (some ec) (some et) (some r.1)) r.2)
        hloop
    · exact exprLoop_ternary hqk hm (by simp)

theorem ExprReads.range {kl kr : List Spelling} {xl xr : Expr} {ol right : Nat}
    (hl : ExprReads els m ol kl xl) (hr : ExprReads els 9 right kr xr) (hol : 2 < ol)
    (hm : m ≤ 2) (hkr : WovenText kr) :
    ExprReads els m (min 9 right) (kl ++ (.DotDot, none) :: kr)
      (operands { kind := .Range } (some xl) (some xr) none) := by
  intro ts rest ds hts hwoven hclear hrest hstop ho
  obtain ⟨tl, ts, rfl, htl, hts⟩ := hts.append
  obtain ⟨t, tr, rfl, ht, htr⟩ := hts.cons
  have htk : t.kind = .DotDot := ht.1
  rw [append_assoc, cons_append] at hclear ⊢
  have hne : tr ++ rest ≠ [] := fun h => hrest (List.append_eq_nil_iff.mp h).2
  have hafter : Woven (t :: (tr ++ rest)) :=
    .token (by rw [htk]; decide) (hkr tr rest htr hwoven)
  obtain ⟨el, hel, hreadl⟩ := hl tl (t :: (tr ++ rest)) ds htl hafter hclear (by simp)
    (by rw [headKind_cons, htk]; rfl) (by rw [headKind_cons, htk]; exact hol)
  obtain ⟨er, her, hreadr⟩ := hr.done (d := ds) htr hwoven hclear.drop.tail hrest hstop (by omega)
    (by omega)
  refine ⟨operands { kind := .Range, span := el.info.span } (some el) (some er) none, ?_,
    fun res hloop => hreadl res ?_⟩
  · rw [bare_operands]
    simp [hel, her]
  · exact Settles.succ (hreadr.bind (f := fun n r => exprLoop els n m
      (operands { kind := .Range, span := el.info.span } (some el) (some r.1) none) r.2) hloop)
      fun n => exprLoop_range htk hm hne

/-! ### Prefix forms -/

/-- A prefix operator. -/
structure PrefixOp where
  kind : TokenKind
  isPrefix : kind = .Bang ∨ kind = .Minus ∨ kind = .Tilde

theorem UnaryReads.operator (op : PrefixOp) (h : UnaryReads els ks x) :
    UnaryReads els ((op.kind, none) :: ks)
      (operands { kind := .Unary, op := op.kind } (some x) none none) := by
  intro ts rest ds hts hwoven hclear hrest hstop
  obtain ⟨t, ts, rfl, ht, hts⟩ := hts.cons
  have htk : t.kind = op.kind := ht.1
  rw [cons_append] at hclear ⊢
  have hne : ts ++ rest ≠ [] := fun h => hrest (List.append_eq_nil_iff.mp h).2
  obtain ⟨e, he, hread⟩ := h ts rest ds hts hwoven hclear.tail hrest hstop
  refine ⟨operands { kind := .Unary, span := t.span, op := t.kind } (some e) none none, ?_, ?_⟩
  · rw [bare_operands, htk]
    simp [he]
  · refine Settles.succ (hread.bind (f := fun _ r => some (operands
      { kind := .Unary, span := t.span, op := t.kind } (some r.1) none none, r.2))
      (Settles.pure _)) fun n => ?_
    rw [parseUnary_operator (c := ⟨t :: (ts ++ rest), ds⟩)
      (by rw [Cursor.kind_cons, htk]; exact op.isPrefix), Cursor.advance_of_ne hne]
    rfl

theorem UnaryReads.await (h : UnaryReads els ks x) :
    UnaryReads els ((.KwAwait, none) :: ks)
      (operands { kind := .Await } (some x) none none) := by
  intro ts rest ds hts hwoven hclear hrest hstop
  obtain ⟨t, ts, rfl, ht, hts⟩ := hts.cons
  have htk : t.kind = .KwAwait := ht.1
  rw [cons_append] at hclear ⊢
  have hne : ts ++ rest ≠ [] := fun h => hrest (List.append_eq_nil_iff.mp h).2
  obtain ⟨e, he, hread⟩ := h ts rest ds hts hwoven hclear.tail hrest hstop
  have hprimary : Settles (fun n => parsePrimary els n ⟨t :: (ts ++ rest), ds⟩)
      (operands { kind := .Await, span := t.span } (some e) none none, ⟨rest, ds⟩) :=
    Settles.succ (hread.bind (f := fun _ r => some (operands
      { kind := .Await, span := t.span } (some r.1) none none, r.2)) (Settles.pure _))
      fun n => parsePrimary_await htk hne
  refine ⟨operands { kind := .Await, span := t.span } (some e) none none, ?_, ?_⟩
  · rw [bare_operands]
    simp [he]
  · refine Settles.succ (hprimary.bind (f := fun n r => parsePostfix els n r.1 r.2)
      (Settles.succ (Settles.pure _) fun n =>
        parsePostfix_stop (c := ⟨rest, ds⟩) hstop)) fun n => ?_
    rw [parseUnary_primary (c := ⟨t :: (ts ++ rest), ds⟩)]
    · rw [Cursor.kind_cons, htk]
      decide
    · rw [Cursor.kind_cons, htk]
      exact fun h => absurd h.1 (by decide)

end

end Leviathan.Frontend.Pratt
