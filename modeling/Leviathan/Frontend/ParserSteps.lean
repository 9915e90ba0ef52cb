import Leviathan.Frontend.ParserLookahead
import Leviathan.Lib.Fuel

/-!
# Single steps of the expression parser

One lemma for each branch of the prefix, postfix and infix levels: what the parser does where the
next tokens select that branch.
-/

namespace Leviathan.Frontend

open Syntax

variable {els : Elsewhere} {ds : List Diagnostic} {t u : Token} {rest : List Token}

/-- The kind of the next token. -/
def headKind (ts : List Token) : TokenKind := (⟨ts, []⟩ : Cursor).kind

@[simp] theorem headKind_cons : headKind (t :: rest) = t.kind := rfl

/-- The tokens that go on with a postfix form. -/
def startsPostfix : TokenKind → Bool
  | .ColonColon | .Dot | .QuestionDot | .LParen | .LBracket | .Bang => true
  | _ => false

/-- The binding power of a token that goes on with an infix form; 0 is none. -/
def power : TokenKind → Nat
  | .Question => 2
  | .KwIs => 6
  | .DotDot => 2
  | k => infixBP k

/-! ### The infix level -/

variable {n m : Nat} {left : Expr} {c : Cursor}

theorem exprLoop_stop (h : power c.kind = 0 ∨ power c.kind < m) :
    exprLoop els (n + 1) m left c = some (left, c) := by
  rw [exprLoop]
  dsimp only
  by_cases hquestion : c.kind = .Question
  · rw [hquestion] at h
    rw [if_pos hquestion, if_pos (by simp [power] at h; omega)]
  · rw [if_neg hquestion]
    by_cases his : c.kind = .KwIs
    · rw [his] at h
      rw [if_pos his, if_pos (by simp [power] at h; omega)]
    · rw [if_neg his]
      by_cases hdots : c.kind = .DotDot
      · rw [hdots] at h
        rw [if_pos hdots, if_pos (by simp [power] at h; omega)]
      · rw [if_neg hdots, if_pos]
        have hpower : power c.kind = infixBP c.kind := by
          unfold power
          split <;> first | contradiction | rfl
        rw [← hpower]
        exact h

theorem infixBP_of_special {k : TokenKind} (h : infixBP k ≠ 0) :
    k ≠ .Question ∧ k ≠ .KwIs ∧ k ≠ .DotDot := by
  refine ⟨?_, ?_, ?_⟩ <;> intro hk <;> subst hk <;> exact h rfl

theorem exprLoop_binary (hop : infixBP c.kind ≠ 0) (hm : m ≤ infixBP c.kind)
    (hstart : canStartExpr c.advance.kind = true) :
    exprLoop els (n + 1) m left c =
      parseExpr els n (if isRightAssoc c.kind then infixBP c.kind else infixBP c.kind + 1)
        c.advance >>= fun right =>
      exprLoop els n m (operands { kind := .Binary, span := left.info.span, op := c.kind }
        (some left) (some right.1) none) right.2 := by
  obtain ⟨hquestion, his, hdots⟩ := infixBP_of_special hop
  have hext : ¬ (c.kind = .GtGt ∧ (!canStartExpr c.advance.kind) = true) := by
    intro ⟨_, h⟩
    rw [hstart] at h
    exact absurd h (by decide)
  rw [exprLoop]
  dsimp only
  rw [if_neg hquestion, if_neg his, if_neg hdots, if_neg (by omega), if_neg hext]

theorem exprLoop_ternary (hk : t.kind = .Question) (hm : m ≤ 2) (hrest : rest ≠ []) :
    exprLoop els (n + 1) m left ⟨t :: rest, ds⟩ =
      parseExpr els n 0 ⟨rest, ds⟩ >>= fun taken =>
      parseExpr els n 2 (taken.2.expect .Colon "':'") >>= fun other =>
      exprLoop els n m (operands { kind := .Ternary, span := left.info.span } (some left)
        (some taken.1) (some other.1)) other.2 := by
  rw [exprLoop]
  simp only [Cursor.kind_cons, Cursor.advance_of_ne hrest, hk, if_true]
  rw [if_neg (by omega)]

theorem exprLoop_range (hk : t.kind = .DotDot) (hm : m ≤ 2) (hrest : rest ≠ []) :
    exprLoop els (n + 1) m left ⟨t :: rest, ds⟩ =
      parseExpr els n 9 ⟨rest, ds⟩ >>= fun bound =>
      exprLoop els n m (operands { kind := .Range, span := left.info.span } (some left)
        (some bound.1) none) bound.2 := by
  rw [exprLoop]
  simp only [Cursor.kind_cons, Cursor.advance_of_ne hrest, hk, reduceCtorEq, if_false, if_true]
  rw [if_neg (by omega)]

/-! ### The prefix level -/

theorem parseUnary_operator (hk : c.kind = .Bang ∨ c.kind = .Minus ∨ c.kind = .Tilde) :
    parseUnary els (n + 1) c =
      parseUnary els n c.advance >>= fun e =>
      some (operands { kind := .Unary, span := c.cur.span, op := c.kind } (some e.1) none none,
        e.2) := by
  rw [parseUnary, if_pos hk]
  rfl

theorem parseUnary_primary (hk : ¬ (c.kind = .Bang ∨ c.kind = .Minus ∨ c.kind = .Tilde))
    (hcomptime : ¬ (c.kind = .Identifier ∧ c.cur.text = "comptime".toList ∧
      c.nextStartsExpr 1 = true)) :
    parseUnary els (n + 1) c =
      parsePrimary els n c >>= fun e => parsePostfix els n e.1 e.2 := by
  rw [parseUnary, if_neg hk, if_neg hcomptime]

/-! ### The postfix level -/

variable {base : Expr}

theorem parsePostfix_stop (h : startsPostfix c.kind = false) :
    parsePostfix els (n + 1) base c = some (base, c) := by
  rw [parsePostfix]
  dsimp only
  have hne : ∀ k, startsPostfix k = true → c.kind ≠ k := by
    intro k hk hkk
    rw [hkk, hk] at h
    exact absurd h (by decide)
  have hdots : ¬ (c.kind = .Dot ∨ c.kind = .ColonColon ∨
      c.kind = .QuestionDot) := by
    intro hk
    rcases hk with hk | hk | hk
    · exact hne .Dot rfl hk
    · exact hne .ColonColon rfl hk
    · exact hne .QuestionDot rfl hk
  rw [if_neg (fun hk => hne .ColonColon rfl hk.1), if_neg hdots, if_neg (hne .LParen rfl),
    if_neg (fun hk => hne .Bang rfl hk.1), if_neg (hne .LBracket rfl)]

/-- `.`, `::` and `?.`. -/
inductive Dots where
  | dot | colons | optional
deriving DecidableEq, Repr

namespace Dots

def kind : Dots → TokenKind
  | dot => .Dot
  | colons => .ColonColon
  | optional => .QuestionDot

end Dots

theorem parsePostfix_member {dots : Dots} (ht : t.kind = dots.kind)
    (hu : u.kind = .Identifier ∨ isContextualName u.kind = true) (hrest : rest ≠ []) :
    parsePostfix els (n + 1) base ⟨t :: u :: rest, ds⟩ = parsePostfix els n
      (operands { kind := .Member, span := base.info.span, text := u.text,
                  colon := dots = .colons, optChain := dots = .optional }
        (some base) none none) ⟨rest, ds⟩ := by
  have hlt : u.kind ≠ .Lt := by
    intro h
    rw [h] at hu
    exact absurd hu (by decide)
  have hname : (u.kind = .Identifier ∨ isContextualName u.kind = true) = True := eq_true hu
  rw [parsePostfix]
  cases dots <;>
    simp [ht, Dots.kind, hlt, hname, Cursor.advance_of_ne hrest]

theorem parsePostfix_call (ht : t.kind = .LParen) :
    parsePostfix els (n + 1) base ⟨t :: rest, ds⟩ =
      parseArgs els n ⟨t :: rest, ds⟩ >>= fun args =>
      parsePostfix els n (callNode { kind := .Call, span := base.info.span } base [] args.1)
        args.2 := by
  rw [parsePostfix]
  simp [ht]

theorem parsePostfix_index (ht : t.kind = .LBracket) (hrest : rest ≠ []) :
    parsePostfix els (n + 1) base ⟨t :: rest, ds⟩ =
      parseExpr els n 0 ⟨rest, ds⟩ >>= fun index =>
      parsePostfix els n (operands { kind := .Index, span := base.info.span } (some base)
        (some index.1) none) (index.2.expect .RBracket "']'") := by
  rw [parsePostfix]
  simp [ht, Cursor.advance_of_ne hrest]

theorem parsePostfix_macro (ht : t.kind = .Bang) (hu : u.kind = .LParen)
    (hbase : macroCallable base = true) :
    parsePostfix els (n + 1) base ⟨t :: u :: rest, ds⟩ =
      parseMacroArgs els n ⟨u :: rest, ds⟩ >>= fun args =>
      parsePostfix els n
        (callNode { kind := .Call, span := base.info.span, isMacroCall := true } base [] args.1)
        args.2 := by
  rw [parsePostfix]
  simp [ht, hu, hbase]

theorem parsePostfix_types (ht : t.kind = .ColonColon) (hu : u.kind = .Lt) :
    parsePostfix els (n + 1) base ⟨t :: u :: rest, ds⟩ =
      parseExplicitTypeArgs n ⟨t :: u :: rest, ds⟩ >>= fun targs =>
      if targs.2.kind = .LParen then
        parseArgs els n targs.2 >>= fun args =>
        parsePostfix els n
          (callNode { kind := .Call, span := base.info.span } base targs.1 args.1) args.2
      else parsePostfix els n (withTypeArgs targs.1 base) targs.2 := by
  rw [parsePostfix]
  simp [ht, hu]

/-! ### Primary expressions -/

/-- The primary expressions of one token. -/
def atomOf (t : Token) : Option ExprInfo :=
  match t.kind with
  | .IntLiteral => some { kind := .IntLit, span := t.span, text := t.text }
  | .FloatLiteral => some { kind := .FloatLit, span := t.span, text := t.text }
  | .KwTrue | .KwFalse => some { kind := .BoolLit, span := t.span, text := t.text }
  | .KwThis => some { kind := .This, span := t.span }
  | .Identifier => some { kind := .Name, span := t.span, text := t.text }
  | _ => none

theorem parsePrimary_atom {info : ExprInfo} (h : atomOf t = some info) (hrest : rest ≠ []) :
    parsePrimary els (n + 1) ⟨t :: rest, ds⟩ = some (.leaf info, ⟨rest, ds⟩) := by
  rw [parsePrimary]
  simp only [Cursor.cur_cons, Cursor.advance_of_ne hrest]
  unfold atomOf at h
  split at h <;> first | (cases h; simp [*]) | cases h

theorem parsePrimary_paren (ht : t.kind = .LParen) (hrest : rest ≠ [])
    (hwoven : Woven (t :: rest)) :
    parsePrimary els (n + 2) ⟨t :: rest, ds⟩ =
      parseExpr els n 0 ⟨rest, ds⟩ >>= fun e => some (e.1, e.2.expect .RParen "')'") := by
  have hlambda : looksLikeLambda ⟨t :: rest, ds⟩ = false := looksLikeLambda_false hwoven
  rw [parsePrimary]
  simp only [Cursor.cur_cons, ht]
  rw [parseParenOrLambda, if_neg (by simp [hlambda])]
  rw [Cursor.advance_of_ne hrest]
  rfl

theorem parsePrimary_await (ht : t.kind = .KwAwait) (hrest : rest ≠ []) :
    parsePrimary els (n + 1) ⟨t :: rest, ds⟩ =
      parseUnary els n ⟨rest, ds⟩ >>= fun e =>
      some (operands { kind := .Await, span := t.span } (some e.1) none none, e.2) := by
  rw [parsePrimary]
  simp only [Cursor.cur_cons, ht, Cursor.advance_of_ne hrest]
  rfl

/-! ### Arguments -/

theorem parseArgs_succ (n : Nat) (c : Cursor) :
    parseArgs els (n + 1) c =
      (if (c.expect .LParen "'('").kind = .RParen then some ([], c.expect .LParen "'('")
        else argList els n false (c.expect .LParen "'('")) >>= fun args =>
      some (args.1, args.2.expect .RParen "')'") := by
  rw [parseArgs]
  by_cases h : (c.expect .LParen "'('").kind = .RParen
  · rw [if_pos h]
    simp only [if_pos h]
    rfl
  · rw [if_neg h]
    simp only [if_neg h]
    rfl

theorem parseMacroArgs_succ (n : Nat) (c : Cursor) :
    parseMacroArgs els (n + 1) c =
      (if (c.expect .LParen "'('").kind = .RParen then some ([], c.expect .LParen "'('")
        else macroArgList els n false (c.expect .LParen "'('")) >>= fun args =>
      some (args.1, args.2.expect .RParen "')'") := by
  rw [parseMacroArgs]
  by_cases h : (c.expect .LParen "'('").kind = .RParen
  · rw [if_pos h]
    simp only [if_pos h]
    rfl
  · rw [if_neg h]
    simp only [if_neg h]
    rfl

/-- The next tokens are a label and a colon. -/
def Labelled (c : Cursor) : Prop := c.kind = .Identifier ∧ (c.peek 1).kind = .Colon

theorem argList_positional (h : ¬ Labelled c) :
    argList els (n + 1) false c = parseExpr els n 0 c >>= fun arg =>
      if arg.2.kind = .Comma then
        argList els n false arg.2.advance >>= fun more => some (arg.1 :: more.1, more.2)
      else some ([arg.1], arg.2) := by
  rw [argList]
  simp only [show (c.kind = .Identifier ∧ (c.peek 1).kind = .Colon) = False from eq_false h]
  rfl

theorem argList_named {named : Bool} (h : Labelled c) :
    argList els (n + 1) named c = parseExpr els n 0 c.advance.advance >>= fun arg =>
      if arg.2.kind = .Comma then
        argList els n true arg.2.advance >>= fun more =>
        some (withLabel c.cur.text arg.1 :: more.1, more.2)
      else some ([withLabel c.cur.text arg.1], arg.2) := by
  rw [argList]
  simp only [show (c.kind = .Identifier ∧ (c.peek 1).kind = .Colon) = True from eq_true h]
  cases parseExpr els n 0 c.advance.advance with
  | none => rfl
  | some arg => simp

theorem macroArgList_positional (h : ¬ Labelled c) (hquasi : c.kind ≠ .QuasiLiteral) :
    macroArgList els (n + 1) false c = parseExpr els n 0 c >>= fun arg =>
      if arg.2.kind = .Comma then
        macroArgList els n false arg.2.advance >>= fun more =>
        some (withLabel [] arg.1 :: more.1, more.2)
      else some ([withLabel [] arg.1], arg.2) := by
  rw [macroArgList]
  simp only [show (c.kind = .Identifier ∧ (c.peek 1).kind = .Colon) = False from eq_false h]
  simp [hquasi]

theorem macroArgList_named {named : Bool} (h : Labelled c)
    (hquasi : c.advance.advance.kind ≠ .QuasiLiteral) :
    macroArgList els (n + 1) named c = parseExpr els n 0 c.advance.advance >>= fun arg =>
      if arg.2.kind = .Comma then
        macroArgList els n true arg.2.advance >>= fun more =>
        some (withLabel c.cur.text arg.1 :: more.1, more.2)
      else some ([withLabel c.cur.text arg.1], arg.2) := by
  rw [macroArgList]
  simp only [show (c.kind = .Identifier ∧ (c.peek 1).kind = .Colon) = True from eq_true h]
  simp [hquasi]

end Leviathan.Frontend
