import Leviathan.Frontend.PrattPostfix

/-!
# Operator trees and their texts

A tree over the infix, prefix and postfix forms, its text with parentheses only where they are
needed, and the theorem that `parseExpr` reads the text back as the tree.

A text carries two numbers.  Its `floor` is the greatest least binding power under which it is read
as a whole; an operator is read by its right end if the operator's power is not below `reach`.
Both are the greatest number where the form has no operator on that side.
-/

namespace Leviathan.Frontend.Pratt

open Syntax

/-! ### Texts with their powers -/

/-- The text of an expression; `pinned` where it ends in type arguments. -/
structure Piece where
  text : List Spelling
  floor : Nat
  reach : Nat
  pinned : Bool

namespace Piece

/-- The floor of prefix forms. -/
def prefixed : Nat := 11

/-- The floor of postfix forms. -/
def tight : Nat := 12

def parens (p : Piece) : Piece :=
  ⟨(.LParen, none) :: p.text ++ [(.RParen, none)], tight, tight, false⟩

/-- In front of an operator of this power. -/
def before (p : Piece) (power : Nat) : Piece := if power < p.reach then p else p.parens

/-- Where the least binding power is this. -/
def above (p : Piece) (least : Nat) : Piece := if least ≤ p.floor then p else p.parens

/-- In front of the parenthesis of a call. -/
def callee (p : Piece) : Piece := if tight ≤ p.floor ∧ p.pinned = false then p else p.parens

/-- A postfix form of this text. -/
def postfixed (text : List Spelling) : Piece := ⟨text, tight, tight, false⟩

end Piece

/-- A name, a literal or `this`. -/
structure Atom where
  kind : TokenKind
  text : Str
  info : ExprInfo
  isAtom : atomOf ⟨kind, ⟨0, 0⟩, text⟩ = some info

/-- The name as an atom. -/
def Atom.name (text : Str) : Atom := ⟨.Identifier, text, { kind := .Name, text := text }, rfl⟩

mutual

/-- An expression over the operators. -/
inductive Tree where
  | atom (a : Atom)
  | unary (op : PrefixOp) (operand : Tree)
  | await (operand : Tree)
  | binary (op : InfixOp) (left right : Tree)
  | ternary (cond taken other : Tree)
  | range (low high : Tree)
  | member (base : Tree) (dots : Dots) (word : Word)
  | index (base place : Tree)
  | call (callee : Tree) (args : Args false)
  | pinnedCall (callee : Tree) (first : TypeText) (more : List TypeText) (args : Args false)
  | pin (base : Tree) (first : TypeText) (more : List TypeText)
  | macroCall (name : Str) (args : Args false)
  | memberMacro (base : Tree) (dots : Dots) (word : Word) (args : Args false)

/-- Arguments; after a named one all are named. -/
inductive Args : Bool → Type where
  | nil {named : Bool} : Args named
  | positional (arg : Tree) (more : Args false) : Args false
  | named {named : Bool} (label : Str) (arg : Tree) (more : Args true) : Args named

end

mutual

def Tree.expr : Tree → Expr
  | .atom a => .leaf a.info
  | .unary op e => operands { kind := .Unary, op := op.kind } (some e.expr) none none
  | .await e => operands { kind := .Await } (some e.expr) none none
  | .binary op l r => operands { kind := .Binary, op := op.kind } (some l.expr) (some r.expr) none
  | .ternary c t e => operands { kind := .Ternary } (some c.expr) (some t.expr) (some e.expr)
  | .range l h => operands { kind := .Range } (some l.expr) (some h.expr) none
  | .member base dots word => memberNode base.expr dots word
  | .index base place => operands { kind := .Index } (some base.expr) (some place.expr) none
  | .call callee args => callNode { kind := .Call } callee.expr [] args.exprs
  | .pinnedCall callee first more args =>
    callNode { kind := .Call } callee.expr ((first :: more).map TypeText.type) args.exprs
  | .pin base first more => withTypeArgs ((first :: more).map TypeText.type) base.expr
  | .macroCall name args =>
    callNode { kind := .Call, isMacroCall := true } (.leaf (Atom.name name).info) [] args.exprs
  | .memberMacro base dots word args =>
    callNode { kind := .Call, isMacroCall := true } (memberNode base.expr dots word) []
      args.exprs

def Args.exprs : {named : Bool} → Args named → List Expr
  | _, .nil => []
  | _, .positional arg more => arg.expr :: more.exprs
  | _, .named label arg more => withLabel label arg.expr :: more.exprs

end

/-- The text after an argument. -/
def afterComma : List Spelling → List Spelling
  | [] => []
  | ks => (.Comma, none) :: ks

mutual

/-- The text of a tree, with parentheses only where they are needed. -/
def Tree.piece : Tree → Piece
  | .atom a => .postfixed [(a.kind, some a.text)]
  | .unary op e =>
    let e := e.piece.above Piece.prefixed
    ⟨(op.kind, none) :: e.text, Piece.prefixed, Piece.tight, false⟩
  | .await e =>
    let e := e.piece.above Piece.prefixed
    ⟨(.KwAwait, none) :: e.text, Piece.prefixed, Piece.tight, false⟩
  | .binary op l r =>
    let l := l.piece.before op.power
    let r := r.piece.above op.rightMin
    ⟨l.text ++ (op.kind, none) :: r.text, min op.power l.floor, min op.rightMin r.reach, false⟩
  | .ternary c t e =>
    let c := c.piece.before 2
    let e := e.piece.above 2
    ⟨c.text ++ (.Question, none) :: (t.piece.text ++ (.Colon, none) :: e.text),
      min 2 c.floor, min 2 e.reach, false⟩
  | .range l h =>
    let l := l.piece.before 2
    let h := h.piece.above 9
    ⟨l.text ++ (.DotDot, none) :: h.text, min 2 l.floor, min 9 h.reach, false⟩
  | .member base dots word =>
    .postfixed ((base.piece.above Piece.tight).text ++
      [(dots.kind, none), (word.kind, some word.text)])
  | .index base place =>
    .postfixed ((base.piece.above Piece.tight).text ++
      (.LBracket, none) :: (place.piece.text ++ [(.RBracket, none)]))
  | .call callee args =>
    .postfixed (callee.piece.callee.text ++ (.LParen, none) :: (args.text ++ [(.RParen, none)]))
  | .pinnedCall callee first more args =>
    .postfixed ((callee.piece.above Piece.tight).text ++ (targsSpelled first more ++
      (.LParen, none) :: (args.text ++ [(.RParen, none)])))
  | .pin base first more =>
    ⟨(base.piece.above Piece.tight).text ++ targsSpelled first more, Piece.tight, Piece.tight,
      true⟩
  | .macroCall name args =>
    .postfixed ([(.Identifier, some name)] ++
      (.Bang, none) :: (.LParen, none) :: (args.text ++ [(.RParen, none)]))
  | .memberMacro base dots word args =>
    .postfixed ((base.piece.above Piece.tight).text ++
      [(dots.kind, none), (word.kind, some word.text)] ++
      (.Bang, none) :: (.LParen, none) :: (args.text ++ [(.RParen, none)]))

def Args.text : {named : Bool} → Args named → List Spelling
  | _, .nil => []
  | _, .positional arg more => arg.piece.text ++ afterComma more.text
  | _, .named label arg more =>
    [(.Identifier, some label), (.Colon, none)] ++ arg.piece.text ++ afterComma more.text

end

/-- The text of a tree. -/
def Tree.render (t : Tree) : List Spelling := t.piece.text

/-! ### What the text of a tree reads as -/

section
variable {els : Elsewhere} {p : Piece} {x : Expr} {ks k₁ k₂ : List Spelling}

theorem Formed.of_cons {k : Spelling} {ks : List Spelling} (hk : canStartExpr k.1 = true)
    (hks : WovenText ks) (hlabel : k.1 = .Identifier → ∃ u us, ks = u :: us ∧ u.1 ≠ .Colon) :
    Formed (k :: ks) := by
  refine ⟨⟨k, ks, rfl, hk⟩, hks.cons fun h => ?_, ?_⟩
  · rw [h] at hk
    exact absurd hk (by decide)
  · intro ts rest ds hts _ hlabelled
    obtain ⟨t, ts, rfl, ht, hts⟩ := hts.cons
    have hname : k.1 = .Identifier := by
      rw [← ht.1]
      exact hlabelled.1
    obtain ⟨u, us, rfl, hu⟩ := hlabel hname
    obtain ⟨v, ts, rfl, hv, -⟩ := hts.cons
    refine hu ?_
    rw [← hv.1]
    exact hlabelled.2

theorem Formed.append (h : Formed k₁) (hwoven : WovenText k₂)
    (hfirst : ∀ k tail, k₂ = k :: tail → k.1 ≠ .Colon) : Formed (k₁ ++ k₂) := by
  refine ⟨?_, h.woven.append hwoven, ?_⟩
  · obtain ⟨k, tail, rfl, hk⟩ := h.starts
    exact ⟨k, tail ++ k₂, rfl, hk⟩
  · intro ts rest ds hts hrest
    obtain ⟨ts₁, ts₂, rfl, hts₁, hts₂⟩ := hts.append
    rw [List.append_assoc]
    refine h.label ts₁ (ts₂ ++ rest) ds hts₁ ?_
    cases k₂ with
    | nil =>
      cases hts₂
      exact hrest
    | cons k tail =>
      obtain ⟨t, ts₂, rfl, ht, -⟩ := hts₂.cons
      rw [List.cons_append, headKind_cons, ht.1]
      exact hfirst k tail rfl

variable (els) in
/-- The text of the piece reads as the expression, as far as its numbers say. -/
structure Reads (p : Piece) (x : Expr) : Prop where
  formed : Formed p.text
  reach_pos : 0 < p.reach
  unlabelled : withLabel [] x = x
  expr : ∀ m, m ≤ p.floor → ExprReads els m p.reach p.text x
  unary : Piece.prefixed ≤ p.floor → UnaryReads els p.text x
  base : Piece.tight ≤ p.floor → BaseReads els p.pinned p.text x

namespace Reads

/-- A postfix form is an expression under every power. -/
theorem of_base {pinned : Bool} (hks : Formed ks) (hlabel : withLabel [] x = x)
    (h : BaseReads els pinned ks x) : Reads els ⟨ks, Piece.tight, Piece.tight, pinned⟩ x where
  formed := hks
  reach_pos := Nat.succ_pos _
  unlabelled := hlabel
  expr m _ := h.unary.expr m Piece.tight
  unary _ := h.unary
  base _ := h

theorem of_unary (hks : Formed ks) (hlabel : withLabel [] x = x) (h : UnaryReads els ks x) :
    Reads els ⟨ks, Piece.prefixed, Piece.tight, false⟩ x where
  formed := hks
  reach_pos := Nat.succ_pos _
  unlabelled := hlabel
  expr m _ := h.expr m Piece.tight
  unary _ := h
  base h' := absurd (show Piece.tight ≤ Piece.prefixed from h') (by decide)

theorem parens (h : Reads els p x) : Reads els p.parens x := by
  have hread := (h.expr 0 (Nat.zero_le _)).paren h.reach_pos h.formed.woven
  refine of_base ?_ h.unlabelled hread
  refine .of_cons rfl (h.formed.woven.append (.cons (by simp) .nil)) fun hk => ?_
  exact absurd hk (by decide)

theorem before (h : Reads els p x) (power : Nat) : Reads els (p.before power) x := by
  unfold Piece.before
  split
  · exact h
  · exact h.parens

theorem above (h : Reads els p x) (least : Nat) : Reads els (p.above least) x := by
  unfold Piece.above
  split
  · exact h
  · exact h.parens

theorem callee (h : Reads els p x) : Reads els p.callee x := by
  unfold Piece.callee
  split
  · exact h
  · exact h.parens

end Reads

theorem Piece.lt_reach_before {power : Nat} (h : power < Piece.tight) :
    power < (p.before power).reach := by
  unfold Piece.before
  split
  · next hlt => exact hlt
  · exact h

theorem Piece.le_floor_above {least : Nat} (h : least ≤ Piece.tight) :
    least ≤ (p.above least).floor := by
  unfold Piece.above
  split
  · next hle => exact hle
  · exact h

theorem Piece.callee_spec : Piece.tight ≤ p.callee.floor ∧ p.callee.pinned = false := by
  unfold Piece.callee
  split
  · next h => exact h
  · exact ⟨Nat.le_refl _, rfl⟩

namespace Reads

variable {l r : Piece} {xl xr : Expr}

theorem atom (a : Atom) : Reads els (.postfixed [(a.kind, some a.text)]) (.leaf a.info) := by
  have hatom := a.isAtom
  refine of_base ⟨⟨_, _, rfl, ?_⟩, .cons ?_ .nil, ?_⟩ ?_ (atom_reads fun t ht => ?_)
  · show canStartExpr a.kind = true
    unfold atomOf at hatom
    split at hatom <;> simp_all [canStartExpr]
  · intro hk
    rw [show a.kind = .Arrow from hk] at hatom
    cases hatom
  · intro ts rest ds hts hrest hlabelled
    obtain ⟨t, rfl, ht⟩ := hts.single
    cases rest with
    | nil =>
      -- the last token stands for those past it
      have hname : t.kind = .Identifier := hlabelled.1
      have hcolon : t.kind = .Colon := hlabelled.2
      rw [hname] at hcolon
      cases hcolon
    | cons u us => exact hrest hlabelled.2
  · unfold atomOf at hatom
    split at hatom <;> first | cases hatom | (rw [← Option.some.inj hatom]; rfl)
  · exact atomOf_moved hatom ht.1 (ht.2 _ rfl)

theorem of_expr {f o : Nat} (hks : Formed ks) (hpos : 0 < o) (hlabel : withLabel [] x = x)
    (hf : f < Piece.prefixed) (h : ∀ m, m ≤ f → ExprReads els m o ks x) :
    Reads els ⟨ks, f, o, false⟩ x where
  formed := hks
  reach_pos := hpos
  unlabelled := hlabel
  expr := h
  unary h' := absurd h' (Nat.not_le.mpr hf)
  base h' := absurd (Nat.le_trans (by decide : Piece.prefixed ≤ Piece.tight) h')
    (Nat.not_le.mpr hf)

theorem operator (op : PrefixOp) (h : Reads els p x) (hp : Piece.prefixed ≤ p.floor) :
    Reads els ⟨(op.kind, none) :: p.text, Piece.prefixed, Piece.tight, false⟩
      (operands { kind := .Unary, op := op.kind } (some x) none none) := by
  refine of_unary (.of_cons ?_ h.formed.woven fun hk => ?_) rfl ((h.unary hp).operator op)
  · show canStartExpr op.kind = true
    rcases op.isPrefix with hop | hop | hop <;> rw [hop] <;> rfl
  · rcases op.isPrefix with hop | hop | hop <;>
      exact absurd (show op.kind = .Identifier from hk) (by rw [hop]; decide)

theorem await (h : Reads els p x) (hp : Piece.prefixed ≤ p.floor) :
    Reads els ⟨(.KwAwait, none) :: p.text, Piece.prefixed, Piece.tight, false⟩
      (operands { kind := .Await } (some x) none none) :=
  of_unary (.of_cons rfl h.formed.woven fun hk => absurd hk (by decide)) rfl (h.unary hp).await

theorem binary (op : InfixOp) (hl : Reads els l xl) (hr : Reads els r xr)
    (hlop : op.power < l.reach) (hrop : op.rightMin ≤ r.floor) :
    Reads els ⟨l.text ++ (op.kind, none) :: r.text, min op.power l.floor,
        min op.rightMin r.reach, false⟩
      (operands { kind := .Binary, op := op.kind } (some xl) (some xr) none) := by
  have hle : op.power ≤ 10 := op.power_le
  refine of_expr ?_ (Nat.lt_min.mpr ⟨op.rightMin_pos, hr.reach_pos⟩) rfl ?_ fun m hm => ?_
  · refine hl.formed.append (hr.formed.woven.cons op.not_arrow) fun k tail hk => ?_
    cases hk
    exact op.not_colon
  · show min op.power l.floor < 11
    omega
  · exact .binary op (hl.expr m (by omega)) (hr.expr _ hrop) hlop (by omega) hr.formed

theorem ternary {c t e : Piece} {xc xt xe : Expr} (hc : Reads els c xc) (ht : Reads els t xt)
    (he : Reads els e xe) (hcop : 2 < c.reach) (heop : 2 ≤ e.floor) :
    Reads els ⟨c.text ++ (.Question, none) :: (t.text ++ (.Colon, none) :: e.text),
        min 2 c.floor, min 2 e.reach, false⟩
      (operands { kind := .Ternary } (some xc) (some xt) (some xe)) := by
  refine of_expr ?_ (Nat.lt_min.mpr ⟨by decide, he.reach_pos⟩) rfl ?_ fun m hm => ?_
  · have hbranches := ht.formed.woven.append
      (he.formed.woven.cons (k := (.Colon, none)) (by decide))
    refine hc.formed.append (hbranches.cons (by decide)) fun k tail hk => ?_
    cases hk
    decide
  · show min 2 c.floor < 11
    omega
  · exact .ternary (hc.expr m (by omega)) (ht.expr 0 (Nat.zero_le _)) (he.expr 2 heop) hcop
      ht.reach_pos (by omega) ht.formed.woven he.formed.woven

theorem range (hl : Reads els l xl) (hr : Reads els r xr) (hlop : 2 < l.reach)
    (hrop : 9 ≤ r.floor) :
    Reads els ⟨l.text ++ (.DotDot, none) :: r.text, min 2 l.floor, min 9 r.reach, false⟩
      (operands { kind := .Range } (some xl) (some xr) none) := by
  refine of_expr ?_ (Nat.lt_min.mpr ⟨by decide, hr.reach_pos⟩) rfl ?_ fun m hm => ?_
  · refine hl.formed.append (hr.formed.woven.cons (by decide)) fun k tail hk => ?_
    cases hk
    decide
  · show min 2 l.floor < 11
    omega
  · exact .range (hl.expr m (by omega)) (hr.expr 9 hrop) hlop (by omega) hr.formed.woven

theorem member_formed (h : Formed ks) (dots : Dots) (word : Word) :
    Formed (ks ++ [(dots.kind, none), (word.kind, some word.text)]) := by
  refine h.append (.cons ?_ (.cons (fun hk => ?_) .nil)) fun k tail hk => ?_
  · cases dots <;> decide
  · have hword := word.isWord
    rw [show word.kind = .Arrow from hk] at hword
    exact absurd hword (by decide)
  · cases hk
    cases dots <;> decide

theorem member (h : Reads els p x) (hp : Piece.tight ≤ p.floor) (dots : Dots) (word : Word) :
    Reads els (.postfixed (p.text ++ [(dots.kind, none), (word.kind, some word.text)]))
      (memberNode x dots word) :=
  of_base (member_formed h.formed dots word) rfl ((h.base hp).member dots word)

theorem index (h : Reads els p x) (hp : Piece.tight ≤ p.floor) (hr : Reads els r xr) :
    Reads els (.postfixed (p.text ++ (.LBracket, none) :: (r.text ++ [(.RBracket, none)])))
      (operands { kind := .Index } (some x) (some xr) none) := by
  refine of_base ?_ rfl
    ((h.base hp).index (hr.expr 0 (Nat.zero_le _)) hr.reach_pos hr.formed.woven)
  refine h.formed.append (.cons (by decide) (hr.formed.woven.append (.cons (by decide) .nil)))
    fun k tail hk => ?_
  cases hk
  decide

end Reads

/-! ### Arguments -/

variable (els) in
/-- The text of arguments reads as the expressions. -/
structure ArgsReads (named : Bool) (ks : List Spelling) (xs : List Expr) : Prop where
  woven : WovenText ks
  reads : (ks = [] ∧ xs = []) ∨
    (∃ k tail, ks = k :: tail ∧ k.1 ≠ .RParen) ∧ ArgsRead els named ks xs

namespace ArgsReads

variable {named : Bool} {xs : List Expr}

theorem nil (named : Bool) : ArgsReads els named [] [] := ⟨.nil, Or.inl ⟨rfl, rfl⟩⟩

theorem more_woven (h : ArgsReads els named ks xs) : WovenText (afterComma ks) := by
  cases ks with
  | nil => exact .nil
  | cons k tail => exact h.woven.cons (k := (.Comma, none)) (by decide)

theorem more (h : ArgsReads els named ks xs) : ArgsMore els named (afterComma ks) xs := by
  rcases h.reads with hnil | hargs
  · rw [hnil.1, hnil.2]
    exact .nil named
  · obtain ⟨⟨k, tail, rfl, -⟩, hread⟩ := hargs
    exact hread.more

theorem call (h : ArgsReads els false ks xs) : CallReads els ks xs := by
  rcases h.reads with hnil | hargs
  · rw [hnil.1, hnil.2]
    exact .nil
  · exact hargs.2.call hargs.1

theorem positional (h : Reads els p x) (hmore : ArgsReads els false ks xs) :
    ArgsReads els false (p.text ++ afterComma ks) (x :: xs) := by
  refine ⟨h.formed.woven.append hmore.more_woven, Or.inr ⟨?_, ?_⟩⟩
  · obtain ⟨k, tail, htext, hk⟩ := h.formed.starts
    refine ⟨k, tail ++ afterComma ks, by rw [htext]; rfl, fun hparen => ?_⟩
    rw [hparen] at hk
    exact absurd hk (by decide)
  · exact .positional (h.expr 0 (Nat.zero_le _)) h.reach_pos h.formed h.unlabelled hmore.more

theorem labelled (named : Bool) (label : Str) (h : Reads els p x)
    (hmore : ArgsReads els true ks xs) :
    ArgsReads els named
      ([(.Identifier, some label), (.Colon, none)] ++ p.text ++ afterComma ks)
      (withLabel label x :: xs) := by
  have hfront : WovenText ([(.Identifier, some label), (.Colon, none)] ++ p.text) :=
    .cons (by simp) (.cons (by simp) h.formed.woven)
  refine ⟨hfront.append hmore.more_woven, Or.inr ⟨⟨_, _, rfl, by simp⟩, ?_⟩⟩
  exact .named label named (h.expr 0 (Nat.zero_le _)) h.reach_pos h.formed hmore.more

theorem parens_woven (h : ArgsReads els named ks xs) :
    WovenText ((.LParen, none) :: (ks ++ [(.RParen, none)])) :=
  .cons (by simp) (h.woven.append (.cons (by simp) .nil))

end ArgsReads

/-! ### Calls -/

theorem targs_woven (first : TypeText) (more : List TypeText) :
    WovenText (targsSpelled first more) := by
  intro ts rest hts hrest
  obtain ⟨front, back, rfl, hfront, hback⟩ := hts.append
  obtain ⟨colons, front, rfl, hcolons, hfront⟩ := hfront.cons
  obtain ⟨lt, rfl, hlt⟩ := hfront.single
  obtain ⟨body, gts, rfl, hbody, hgts⟩ := hback.append
  obtain ⟨gt, rfl, hgt⟩ := hgts.single
  have hclosed := (typeList_reads more first body [gt] [] hbody hgt.1).1
  have htext : [colons, lt] ++ (body ++ [gt]) ++ rest = colons :: lt :: (body ++ gt :: rest) := by
    simp
  rw [htext]
  exact .types hcolons.1 hlt.1 hgt.1 hclosed hrest

namespace Reads

variable {ka : List Spelling} {xa : List Expr}

theorem call (h : Reads els p x) (hp : Piece.tight ≤ p.floor ∧ p.pinned = false)
    (ha : ArgsReads els false ka xa) :
    Reads els (.postfixed (p.text ++ (.LParen, none) :: (ka ++ [(.RParen, none)])))
      (callNode { kind := .Call } x [] xa) := by
  have hbase := h.base hp.1
  rw [hp.2] at hbase
  refine of_base ?_ rfl (hbase.call ha.call)
  refine h.formed.append ha.parens_woven fun k tail hk => ?_
  cases hk
  decide

theorem macroCall (h : BaseReads els false ks x) (hks : Formed ks)
    (hx : macroCallable x = true) (ha : ArgsReads els false ka xa) :
    Reads els (.postfixed (ks ++ (.Bang, none) :: (.LParen, none) :: (ka ++ [(.RParen, none)])))
      (callNode { kind := .Call, isMacroCall := true } x [] xa) := by
  refine of_base ?_ rfl (h.macroCall hx ha.call)
  refine hks.append (ha.parens_woven.cons (by decide)) fun k tail hk => ?_
  cases hk
  decide

theorem pin (first : TypeText) (more : List TypeText) (h : Reads els p x)
    (hp : Piece.tight ≤ p.floor) :
    Reads els ⟨p.text ++ targsSpelled first more, Piece.tight, Piece.tight, true⟩
      (withTypeArgs ((first :: more).map TypeText.type) x) := by
  refine of_base ?_ ?_ ((h.base hp).pin first more)
  · refine h.formed.append (targs_woven first more) fun k tail hk => ?_
    cases hk
    decide
  · have hx := h.unlabelled
    cases x
    simp only [withLabel, Expr.mk.injEq] at hx
    simp only [withLabel, withTypeArgs, hx.1]

theorem pinnedCall (first : TypeText) (more : List TypeText) (h : Reads els p x)
    (hp : Piece.tight ≤ p.floor) (ha : ArgsReads els false ka xa) :
    Reads els (.postfixed (p.text ++ (targsSpelled first more ++
        (.LParen, none) :: (ka ++ [(.RParen, none)]))))
      (callNode { kind := .Call } x ((first :: more).map TypeText.type) xa) := by
  refine of_base ?_ rfl ((h.base hp).pinnedCall first more ha.call)
  refine h.formed.append ((targs_woven first more).append ha.parens_woven) fun k tail hk => ?_
  cases hk
  decide

end Reads

/-! ### Every tree -/

mutual

theorem tree_reads (els : Elsewhere) : ∀ t : Tree, Reads els t.piece t.expr
  | .atom a => .atom a
  | .unary op e => ((tree_reads els e).above _).operator op (Piece.le_floor_above (by decide))
  | .await e => ((tree_reads els e).above _).await (Piece.le_floor_above (by decide))
  | .binary op l r =>
    have hpower : op.power < Piece.tight := Nat.lt_of_le_of_lt op.power_le (by decide)
    .binary op ((tree_reads els l).before _) ((tree_reads els r).above _)
      (Piece.lt_reach_before hpower) (Piece.le_floor_above (Nat.le_succ_of_le op.rightMin_le))
  | .ternary c t e =>
    .ternary ((tree_reads els c).before _) (tree_reads els t) ((tree_reads els e).above _)
      (Piece.lt_reach_before (by decide)) (Piece.le_floor_above (by decide))
  | .range l h =>
    .range ((tree_reads els l).before _) ((tree_reads els h).above _)
      (Piece.lt_reach_before (by decide)) (Piece.le_floor_above (by decide))
  | .member base dots word =>
    ((tree_reads els base).above _).member (Piece.le_floor_above (Nat.le_refl _)) dots word
  | .index base place =>
    ((tree_reads els base).above _).index (Piece.le_floor_above (Nat.le_refl _))
      (tree_reads els place)
  | .call callee args =>
    (tree_reads els callee).callee.call Piece.callee_spec (args_read els args)
  | .pinnedCall callee first more args =>
    .pinnedCall first more ((tree_reads els callee).above _)
      (Piece.le_floor_above (Nat.le_refl _)) (args_read els args)
  | .pin base first more =>
    .pin first more ((tree_reads els base).above _) (Piece.le_floor_above (Nat.le_refl _))
  | .macroCall name args =>
    have hname : Reads els (.postfixed [(.Identifier, some name)]) _ := .atom (Atom.name name)
    .macroCall (hname.base (Nat.le_refl _)) hname.formed rfl (args_read els args)
  | .memberMacro base dots word args =>
    have hmember := ((tree_reads els base).above _).member
      (Piece.le_floor_above (Nat.le_refl _)) dots word
    .macroCall (hmember.base (Nat.le_refl _)) hmember.formed rfl (args_read els args)

theorem args_read (els : Elsewhere) : ∀ {named : Bool} (args : Args named),
    ArgsReads els named args.text args.exprs
  | named, .nil => .nil named
  | _, .positional arg more => .positional (tree_reads els arg) (args_read els more)
  | named, .named label arg more => .labelled named label (tree_reads els arg) (args_read els more)

end

end

/-- **What is printed is read.**  The text of a tree up to the end of the file reads as the tree
and nothing else, unless it has the name `comptime` directly before a token that may begin an
expression. -/
theorem parseExpr_render (els : Elsewhere) (t : Tree) (ts : List Token) (ending : Token)
    (ds : List Diagnostic) (hending : ending.kind = .End) (hts : Spells ts t.render)
    (hclear : Clear ts) :
    ∃ e, bare.expr none e = t.expr ∧
      Settles (fun n => parseExpr els n 0 ⟨ts ++ [ending], ds⟩) (e, ⟨[ending], ds⟩) := by
  have hreads := tree_reads els t
  have hwoven : Woven [ending] := .token (by rw [hending]; decide) .nil
  have hall : Clear (ts ++ [ending]) := hclear.snoc (by rw [hending]; rfl)
  refine (hreads.expr 0 (Nat.zero_le _)).done hts hwoven hall (by simp) ?_ ?_ (Or.inl ?_)
  · rw [headKind_cons, hending]
    rfl
  · rw [headKind_cons, hending]
    exact hreads.reach_pos
  · rw [headKind_cons, hending]
    rfl

/-- A token of this kind and text. -/
def word (kind : TokenKind) (text : String) : Token := ⟨kind, ⟨0, 0⟩, text.toList⟩

/-- Nothing is parsed elsewhere. -/
def nowhere : Elsewhere where
  parseBlock _ _ := none
  parseInterpolatedString t c := (.leaf { kind := .StringLit, span := t.span }, c)

def one : Atom := ⟨.IntLiteral, "1".toList, { kind := .IntLit, text := "1".toList }, rfl⟩

/-- `name - 1`. -/
def minusOne (name : String) : Tree :=
  .binary ⟨.Minus, by decide⟩ (.atom (Atom.name name.toList)) (.atom one)

def minusOneTokens (name : String) : List Token :=
  [word .Identifier name, word .Minus "-", word .IntLiteral "1"]

theorem minusOne_spelled (name : String) : Spells (minusOneTokens name) (minusOne name).render :=
  List.Forall₂.cons ⟨rfl, by simp [word, Atom.name]⟩ (List.Forall₂.cons ⟨rfl, by simp⟩
    (List.Forall₂.cons ⟨rfl, by simp [word, one]⟩ List.Forall₂.nil))

/-- `x - 1` is read as a difference. -/
theorem parseExpr_render_minus : ∃ e, bare.expr none e = (minusOne "x").expr ∧
    Settles (fun n => parseExpr nowhere n 0 ⟨minusOneTokens "x" ++ [word .End ""], []⟩)
      (e, ⟨[word .End ""], []⟩) :=
  parseExpr_render nowhere (minusOne "x") (minusOneTokens "x") (word .End "") [] rfl
    (minusOne_spelled "x")
    ⟨fun h => absurd h.2.1 (by decide), fun h => absurd h.1 (by decide), trivial⟩

theorem comptime_read : Settles
    (fun n => parseExpr nowhere n 0 ⟨minusOneTokens "comptime" ++ [word .End ""], []⟩)
    (withComptime (operands { kind := .Unary, op := .Minus } (some (.leaf one.info)) none none),
      ⟨[word .End ""], []⟩) := by
  refine ⟨8, fun n hn => ?_⟩
  obtain ⟨k, rfl⟩ : ∃ k, n = k + 8 := ⟨n - 8, by omega⟩
  rfl

/-- `comptime - 1` is read as the expression `-1` at compile time, not as a difference. -/
theorem comptime_swallows : ¬ ∀ (els : Elsewhere) (t : Tree) (ts : List Token) (ending : Token)
    (ds : List Diagnostic), ending.kind = .End → Spells ts t.render →
    ∃ e, bare.expr none e = t.expr ∧
      Settles (fun n => parseExpr els n 0 ⟨ts ++ [ending], ds⟩) (e, ⟨[ending], ds⟩) := by
  intro h
  obtain ⟨e, he, hread⟩ := h nowhere (minusOne "comptime") (minusOneTokens "comptime")
    (word .End "") [] rfl (minusOne_spelled "comptime")
  have heq := hread.unique comptime_read
  rw [(Prod.mk.inj heq).1] at he
  have hkind := congrArg (fun e => e.info.kind) he
  exact absurd hkind (by decide)

end Leviathan.Frontend.Pratt
