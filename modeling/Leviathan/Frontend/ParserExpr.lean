import Leviathan.Frontend.Parser

/-!
# The parser of expressions

`ParserExpr.cpp`: the Pratt loop with its table of binding powers, the prefix and postfix levels,
the primary expressions, and the lookahead that tells a lambda from a parenthesis.

Blocks of statements and interpolated strings are parsed elsewhere; they are parameters.  Every
function has a number of rounds, and a loop of the source is a function of its own.
-/

namespace Leviathan.Frontend

open Syntax

/-- The parts of the parser that expressions call. -/
structure Elsewhere where
  parseBlock : Nat → Cursor → Option (Stmt × Cursor)
  parseInterpolatedString : Token → Cursor → Expr × Cursor

/-- The binding power of an infix operator; 0 is no operator. -/
def infixBP : TokenKind → Nat
  | .Eq | .PlusEq | .MinusEq | .StarEq | .SlashEq | .PercentEq => 1
  | .PipePipe => 3
  | .QuestionQuestion => 3
  | .AmpAmp => 4
  | .Pipe => 5
  | .Amp => 5
  | .Caret => 5
  | .EqEq | .BangEq => 6
  | .Lt | .Gt | .Le | .Ge => 7
  | .LtLt | .GtGt => 8
  | .Plus | .Minus => 9
  | .Star | .Slash | .Percent => 10
  | _ => 0

def isRightAssoc : TokenKind → Bool
  | .Eq | .PlusEq | .MinusEq | .StarEq | .SlashEq | .PercentEq => true
  | _ => false

/-! ### Lookahead -/

/-- The next tokens are of these kinds. -/
def startsWith (ks : List TokenKind) (ts : List Token) : Bool :=
  (ts.map Token.kind).take ks.length = ks

/-- Past a balanced parenthesis, the first of which is at the front. -/
def skipParens : Nat → List Token → List Token
  | _, [] => []
  | depth, t :: ts =>
    let depth :=
      if t.kind = .LParen then depth + 1 else if t.kind = .RParen then depth - 1 else depth
    if depth = 0 then ts else skipParens depth ts

/-- Past a balanced `<...>`; `>>` closes two. -/
def skipAngles : Int → List Token → List Token
  | _, [] => []
  | depth, t :: ts =>
    let depth :=
      if t.kind = .Lt then depth + 1
      else if t.kind = .Gt then depth - 1
      else if t.kind = .GtGt then depth - 2
      else depth
    if depth ≤ 0 then ts else skipAngles depth ts

/-- The words after `::`; nothing where a word is missing. -/
def skipPath : List Token → Option (List Token)
  | c :: t :: ts =>
    if c.kind = .ColonColon then
      if t.kind = .Identifier then skipPath ts else none
    else some (c :: t :: ts)
  | [c] => if c.kind = .ColonColon then none else some [c]
  | [] => some []

/-- The tokens after a type, if one starts here. -/
def skipTypeLA : Nat → List Token → Option (List Token)
  | 0, _ => none
  | _ + 1, [] => none
  | n + 1, t :: ts =>
    if t.kind = .LParen then
      match skipParens 0 (t :: ts) with
      | arrow :: rest => if arrow.kind = .Arrow then skipTypeLA n rest else none
      | [] => none
    else if t.kind = .Identifier then
      match skipPath ts with
      | none => none
      | some path =>
        let rest : List Token := if startsWith [.Lt] path then skipAngles 0 path else path
        some (if startsWith [.Question] rest then rest.drop 1 else rest)
    else none

/-- One parameter of a lambda: `type name` or `name`. -/
def skipLambdaParam (ts : List Token) : Option (List Token) :=
  let untyped :=
    match ts with
    | t :: rest => if t.kind = .Identifier then some rest else none
    | [] => none
  match skipTypeLA (ts.length + 1) ts with
  | some (t :: rest) => if t.kind = .Identifier then some rest else untyped
  | _ => untyped

/-- The parameters of a lambda, and what follows them. -/
def skipLambdaParams : Nat → List Token → Option (List Token)
  | 0, _ => none
  | n + 1, ts =>
    match skipLambdaParam ts with
    | some (t :: rest) => if t.kind = .Comma then skipLambdaParams n rest else some (t :: rest)
    | some [] => some []
    | none => none

def looksLikeLambda (c : Cursor) : Bool :=
  match c.rest with
  | l :: ts =>
    if l.kind ≠ .LParen then false
    else
      if startsWith [.RParen] ts then startsWith [.RParen, .Arrow] ts
      else
        match skipLambdaParams (ts.length + 1) ts with
        | some rest => startsWith [.RParen, .Arrow] rest
        | none => false
  | [] => false

/-- The tokens here read as `type name`. -/
def typedParamAhead (c : Cursor) : Bool :=
  match skipTypeLA (c.rest.length + 1) c.rest with
  | some rest => startsWith [.Identifier] rest
  | none => false

/-- A qualified name that goes on with `<`. -/
def qualifiedHeadIsGeneric : List Token → Bool
  | a :: b :: rest =>
    if a.kind = .Identifier ∧ b.kind = .ColonColon then qualifiedHeadIsGeneric rest
    else a.kind = .Identifier ∧ b.kind = .Lt
  | _ => false

/-! ### Nodes -/

def withLabel (label : Str) : Expr → Expr
  | .mk info a b c list targs params block arms type =>
    .mk { info with argLabel := label } a b c list targs params block arms type

def withComptime : Expr → Expr
  | .mk info a b c list targs params block arms type =>
    .mk { info with isComptime := true } a b c list targs params block arms type

def withTypeArgs (targs : List TypeRef) : Expr → Expr
  | .mk info a b c list _ params block arms type =>
    .mk info a b c list targs params block arms type

/-- A node over up to three operands. -/
def operands (info : ExprInfo) (a b c : Option Expr) : Expr :=
  .mk info a b c [] [] [] none [] none

def callNode (info : ExprInfo) (callee : Expr) (targs : List TypeRef) (list : List Expr) : Expr :=
  .mk info (some callee) none none list targs [] none [] none

/-- A callee that `!(` may follow. -/
def macroCallable : Expr → Bool
  | .mk info _ _ _ _ targs _ _ _ _ => (info.kind = .Name ∨ info.kind = .Member) ∧ targs.isEmpty

/-- The literal of a raw string: without the prefix and the quotes. -/
def rawText (t : Token) : Str := (t.text.drop 2).take (t.text.length - 3)

/-- The payload of a quasiquote: without the two quotes. -/
def quasiText (t : Token) : Str :=
  if 2 ≤ t.span.length then (t.text.drop 1).take (t.span.length - 2) else []

/-! ### The grammar -/

/-- `::<T, U>`; the cursor is at the `::`. -/
def parseExplicitTypeArgs (n : Nat) (c : Cursor) : Option (List TypeRef × Cursor) := do
  let c := c.advance.advance
  let args ←
    if c.kind = .Gt ∨ c.kind = .GtGt then some ([], c.error "type argument after '<'")
    else typeList n c
  return (args.1, args.2.expectGt)

/-- The parameters of a lambda. -/
def lambdaParams : Nat → Cursor → Option (List Param × Cursor)
  | 0, _ => none
  | n + 1, c => do
    let span := c.cur.span
    let type ←
      if typedParamAhead c then do
        let t ← parseType n c
        pure (some t.1, t.2)
      else some (none, c)
    let c := type.2
    let name : Str × Cursor :=
      if c.kind = .Identifier then (c.cur.text, c.advance) else ([], c)
    let p : Param := .mk { name := name.1, span := span } type.1 none
    if name.2.kind = .Comma then
      let more ← lambdaParams n name.2.advance
      return (p :: more.1, more.2)
    else return ([p], name.2)

mutual

/-- The arguments of a call. -/
def parseArgs (els : Elsewhere) : Nat → Cursor → Option (List Expr × Cursor)
  | 0, _ => none
  | n + 1, c => do
    let c := c.expect .LParen "'('"
    let args ← if c.kind = .RParen then some ([], c) else argList els n false c
    return (args.1, args.2.expect .RParen "')'")

/-- Arguments up to the closing parenthesis; `sawNamed` is set after a named one. -/
def argList (els : Elsewhere) : Nat → Bool → Cursor → Option (List Expr × Cursor)
  | 0, _, _ => none
  | n + 1, sawNamed, c => do
    let named := c.kind = .Identifier ∧ (c.peek 1).kind = .Colon
    let arg ←
      if named then do
        let e ← parseExpr els n 0 c.advance.advance
        pure (withLabel c.cur.text e.1, e.2)
      else
        parseExpr els n 0
          (if sawNamed then c.report "positional argument after named argument".toList else c)
    if arg.2.kind = .Comma then
      let more ← argList els n (sawNamed || named) arg.2.advance
      return (arg.1 :: more.1, more.2)
    else return ([arg.1], arg.2)

/-- The arguments of a macro call. -/
def parseMacroArgs (els : Elsewhere) : Nat → Cursor → Option (List Expr × Cursor)
  | 0, _ => none
  | n + 1, c => do
    let c := c.expect .LParen "'('"
    let args ← if c.kind = .RParen then some ([], c) else macroArgList els n false c
    return (args.1, args.2.expect .RParen "')'")

def macroArgList (els : Elsewhere) : Nat → Bool → Cursor → Option (List Expr × Cursor)
  | 0, _, _ => none
  | n + 1, sawNamed, c => do
    let named := c.kind = .Identifier ∧ (c.peek 1).kind = .Colon
    let label := if named then c.cur.text else []
    let c :=
      if named then c.advance.advance
      else if sawNamed then c.report "positional argument after named argument".toList
      else c
    let arg ←
      if c.kind = .QuasiLiteral then
        some (Expr.leaf { kind := .StringLit, span := c.cur.span, text := quasiText c.cur,
                          isQuasiPayload := true }, c.advance)
      else parseExpr els n 0 c
    let e := withLabel label arg.1
    if arg.2.kind = .Comma then
      let more ← macroArgList els n (sawNamed || named) arg.2.advance
      return (e :: more.1, more.2)
    else return ([e], arg.2)

/-- One element of an array literal. -/
def parseArrayElement (els : Elsewhere) : Nat → Cursor → Option (Expr × Cursor)
  | 0, _ => none
  | n + 1, c =>
    if c.kind = .Identifier ∧ c.cur.text = "$for".toList then do
      let span := c.cur.span
      let c := c.advance
      let name : Str × Cursor :=
        if c.kind = .Identifier then (c.cur.text, c.advance)
        else ([], c.error "a loop variable name")
      let iter ← parseExpr els n 0 (name.2.expect .KwIn "'in'")
      let c := iter.2.expect .Colon "':'"
      let element ←
        if c.kind = .Identifier ∧ c.cur.text = "$if".toList then
          parseForkSpliceExpr els n c.cur.span c.advance
        else parseExpr els n 0 c
      return (operands { kind := .ForSplice, span := span, text := name.1 } (some iter.1)
        (some element.1) none, element.2)
    else if c.kind = .Identifier ∧ c.cur.text = "$if".toList then
      parseForkSpliceExpr els n c.cur.span c.advance
    else if c.kind = .Identifier ∧ c.cur.text = "$else".toList then
      parseExpr els n 0 (c.report "$else without a preceding $if".toList).advance
    else parseExpr els n 0 c

/-- The elements of an array literal. -/
def elementList (els : Elsewhere) : Nat → Cursor → Option (List Expr × Cursor)
  | 0, _ => none
  | n + 1, c => do
    let e ← parseArrayElement els n c
    if e.2.kind = .Comma then
      let more ← elementList els n e.2.advance
      return (e.1 :: more.1, more.2)
    else return ([e.1], e.2)

def parseForkSpliceExpr (els : Elsewhere) : Nat → SourceSpan → Cursor → Option (Expr × Cursor)
  | 0, _, _ => none
  | n + 1, span, c => do
    let cond ← parseExpr els n 0 (c.expect .LParen "'('")
    let taken ← parseForkBranchExpr els n (cond.2.expect .RParen "')'")
    let c := taken.2
    if c.kind = .Identifier ∧ c.cur.text = "$else".toList then
      let elseSpan := c.cur.span
      let c := c.advance
      let other ←
        if c.kind = .KwIf then parseForkSpliceExpr els n elseSpan c.advance
        else parseForkBranchExpr els n c
      return (operands { kind := .ForkSplice, span := span } (some cond.1) (some taken.1)
        (some other.1), other.2)
    else
      return (operands { kind := .ForkSplice, span := span } (some cond.1) (some taken.1) none,
        c)

def parseForkBranchExpr (els : Elsewhere) : Nat → Cursor → Option (Expr × Cursor)
  | 0, _ => none
  | n + 1, c => do
    let c := c.expect .LBrace "'\x7b'"
    let e ←
      if c.kind = .Identifier ∧ c.cur.text = "$if".toList then
        parseForkSpliceExpr els n c.cur.span c.advance
      else parseExpr els n 0 c
    return (e.1, e.2.expect .RBrace "'\x7d'")

/-- The body of a lambda or of a match arm: a block or an expression. -/
def parseBody (els : Elsewhere) : Nat → Cursor → Option ((Option Expr × Option Stmt) × Cursor)
  | 0, _ => none
  | n + 1, c =>
    if c.kind = .LBrace then do
      let block ← els.parseBlock n c
      return ((none, some block.1), block.2)
    else do
      let e ← parseExpr els n 0 c
      return ((some e.1, none), e.2)

def parseParenOrLambda (els : Elsewhere) : Nat → Cursor → Option (Expr × Cursor)
  | 0, _ => none
  | n + 1, c =>
    if looksLikeLambda c then do
      let span := c.cur.span
      let c := c.advance
      let params ← if c.kind = .RParen then some ([], c) else lambdaParams n c
      let c := (params.2.expect .RParen "')'").expect .Arrow "'=>'"
      let body ← parseBody els n c
      return (.mk { kind := .Lambda, span := span } body.1.1 none none [] [] params.1 body.1.2
        [] none, body.2)
    else do
      let e ← parseExpr els n 0 c.advance
      return (e.1, e.2.expect .RParen "')'")

/-- The arms of a match up to the closing brace. -/
def matchArms (els : Elsewhere) : Nat → Cursor → Option (List MatchArm × Cursor)
  | 0, _ => none
  | n + 1, c =>
    if c.kind = .RBrace ∨ c.kind = .End then some ([], c)
    else do
      let span := c.cur.span
      let valueLed := c.kind = .IntLiteral ∨ c.kind = .FloatLiteral ∨
        c.kind = .StringLiteral ∨ c.kind = .RawStringLiteral ∨ c.kind = .KwTrue ∨
        c.kind = .KwFalse ∨ c.kind = .Minus ∨
        (c.kind = .Identifier ∧ (c.peek 1).kind = .ColonColon ∧
          !qualifiedHeadIsGeneric c.rest)
      let pattern : (Option TypeRef × Option Expr) × Cursor ←
        if c.kind = .KwElse then some ((none, none), c.advance)
        else if valueLed then do
          let e ← parseExpr els n 2 c
          pure ((none, some e.1), e.2)
        else do
          let t ← parseType n c
          pure ((some t.1, none), t.2)
      let body ← parseBody els n (pattern.2.expect .Arrow "'=>'")
      let semicolon := if body.2.kind = .Semicolon then body.2.advance else body.2
      let comma := if semicolon.kind = .Comma then semicolon.advance else semicolon
      let more ← matchArms els n comma
      return (.mk { isElse := c.kind = .KwElse, span := span } pattern.1.1 pattern.1.2
        body.1.1 body.1.2 :: more.1, more.2)

def parseMatch (els : Elsewhere) : Nat → Cursor → Option (Expr × Cursor)
  | 0, _ => none
  | n + 1, c => do
    let span := c.cur.span
    let subject ← parseExpr els n 0 (c.advance.expect .LParen "'('")
    let c := (subject.2.expect .RParen "')'").expect .LBrace "'\x7b'"
    let arms ← matchArms els n c
    return (.mk { kind := .Match, span := span } (some subject.1) none none [] [] [] none arms.1
      none, arms.2.expect .RBrace "'\x7d'")

def parsePrimary (els : Elsewhere) : Nat → Cursor → Option (Expr × Cursor)
  | 0, _ => none
  | n + 1, c =>
    let t := c.cur
    match t.kind with
    | .IntLiteral =>
      some (.leaf { kind := .IntLit, span := t.span, text := t.text }, c.advance)
    | .FloatLiteral =>
      some (.leaf { kind := .FloatLit, span := t.span, text := t.text }, c.advance)
    | .StringLiteral => some (els.parseInterpolatedString t c.advance)
    | .RawStringLiteral =>
      some (.leaf { kind := .StringLit, span := t.span, text := rawText t,
                    isRawString := true }, c.advance)
    | .KwTrue | .KwFalse =>
      some (.leaf { kind := .BoolLit, span := t.span, text := t.text }, c.advance)
    | .KwThis => some (.leaf { kind := .This, span := t.span }, c.advance)
    | .Identifier => some (.leaf { kind := .Name, span := t.span, text := t.text }, c.advance)
    | .KwAwait => do
      let e ← parseUnary els n c.advance
      return (operands { kind := .Await, span := t.span } (some e.1) none none, e.2)
    | .KwMatch => parseMatch els n c
    | .KwInject => do
      let type ← parseType n c.advance
      return (.mk { kind := .Inject, span := t.span } none none none [] [] [] none []
        (some type.1), type.2)
    | .LParen => parseParenOrLambda els n c
    | .LBracket => do
      let c := c.advance
      let list ← if c.kind = .RBracket then some ([], c) else elementList els n c
      return (.mk { kind := .Array, span := t.span } none none none list.1 [] [] none [] none,
        list.2.expect .RBracket "']'")
    | _ =>
      let c := c.error "expression"
      some (.leaf { kind := .Name, span := t.span }, if c.kind = .End then c else c.advance)

/-- The postfix operators after `base`. -/
def parsePostfix (els : Elsewhere) : Nat → Expr → Cursor → Option (Expr × Cursor)
  | 0, _, _ => none
  | n + 1, base, c =>
    let span := base.info.span
    if c.kind = .ColonColon ∧ (c.peek 1).kind = .Lt then do
      let targs ← parseExplicitTypeArgs n c
      let c := targs.2
      if c.kind = .LParen then
        let args ← parseArgs els n c
        parsePostfix els n (callNode { kind := .Call, span := span } base targs.1 args.1) args.2
      else parsePostfix els n (withTypeArgs targs.1 base) c
    else if c.kind = .Dot ∨ c.kind = .ColonColon ∨ c.kind = .QuestionDot then
      let colon := c.kind = .ColonColon
      let opt := c.kind = .QuestionDot
      let c := c.advance
      let name : Str × Cursor :=
        if c.kind = .Identifier ∨ isContextualName c.kind then (c.cur.text, c.advance)
        else ([], c.error "member name")
      let info : ExprInfo :=
        { kind := .Member, span := span, text := name.1, colon := colon, optChain := opt }
      parsePostfix els n (operands info (some base) none none) name.2
    else if c.kind = .LParen then do
      let args ← parseArgs els n c
      parsePostfix els n (callNode { kind := .Call, span := span } base [] args.1) args.2
    else if c.kind = .Bang ∧ (c.peek 1).kind = .LParen ∧ macroCallable base then do
      let args ← parseMacroArgs els n c.advance
      parsePostfix els n
        (callNode { kind := .Call, span := span, isMacroCall := true } base [] args.1) args.2
    else if c.kind = .LBracket then do
      let index ← parseExpr els n 0 c.advance
      parsePostfix els n
        (operands { kind := .Index, span := span } (some base) (some index.1) none)
        (index.2.expect .RBracket "']'")
    else some (base, c)

def parseUnary (els : Elsewhere) : Nat → Cursor → Option (Expr × Cursor)
  | 0, _ => none
  | n + 1, c =>
    if c.kind = .Bang ∨ c.kind = .Minus ∨ c.kind = .Tilde then do
      let e ← parseUnary els n c.advance
      return (operands { kind := .Unary, span := c.cur.span, op := c.kind } (some e.1) none
        none, e.2)
    else if c.kind = .Identifier ∧ c.cur.text = "comptime".toList ∧ c.nextStartsExpr 1 then do
      let e ← parseExpr els n 0 c.advance
      return (withComptime e.1, e.2)
    else do
      let e ← parsePrimary els n c
      parsePostfix els n e.1 e.2

def parseExpr (els : Elsewhere) : Nat → Nat → Cursor → Option (Expr × Cursor)
  | 0, _, _ => none
  | n + 1, minBP, c => do
    let left ← parseUnary els n c
    exprLoop els n minBP left.1 left.2

/-- The loop of `parseExpr`. -/
def exprLoop (els : Elsewhere) : Nat → Nat → Expr → Cursor → Option (Expr × Cursor)
  | 0, _, _, _ => none
  | n + 1, minBP, left, c =>
    let k := c.kind
    let span := left.info.span
    if k = .Question then
      if 2 < minBP then some (left, c)
      else do
        let taken ← parseExpr els n 0 c.advance
        let other ← parseExpr els n 2 (taken.2.expect .Colon "':'")
        exprLoop els n minBP (operands { kind := .Ternary, span := span } (some left)
          (some taken.1) (some other.1)) other.2
    else if k = .KwIs then
      if 6 < minBP then some (left, c)
      else do
        let type ← parseType n c.advance
        exprLoop els n minBP (.mk { kind := .Is, span := span } (some left) none none [] [] []
          none [] (some type.1)) type.2
    else if k = .DotDot then
      if 2 < minBP then some (left, c)
      else do
        let bound ← parseExpr els n 9 c.advance
        exprLoop els n minBP (operands { kind := .Range, span := span } (some left)
          (some bound.1) none) bound.2
    else
      let bp := infixBP k
      if bp = 0 ∨ bp < minBP then some (left, c)
      else if k = .GtGt ∧ !canStartExpr c.advance.kind then
        exprLoop els n minBP (operands { kind := .Extract, span := span } (some left) none none)
          c.advance
      else do
        let right ← parseExpr els n (if isRightAssoc k then bp else bp + 1) c.advance
        exprLoop els n minBP (operands { kind := .Binary, span := span, op := k } (some left)
          (some right.1) none) right.2

end

end Leviathan.Frontend
