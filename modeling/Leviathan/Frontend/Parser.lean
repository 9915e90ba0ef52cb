import Leviathan.Syntax.Ast

/-!
# The token cursor and the parser of types

`Parser.cpp`, as far as expressions need it.  The cursor of the model holds the tokens from the
current one on; the last of them is the `End` token, which `advance` never passes.
-/

namespace Leviathan.Frontend

open Syntax

/-- A state of the parser. -/
structure Cursor where
  rest : List Token
  diags : List Diagnostic

namespace Cursor

/-- The token `ahead` places on; past the last token it is the last token. -/
def peek (c : Cursor) (ahead : Nat) : Token :=
  c.rest.getD ahead (c.rest.getLastD ⟨.End, ⟨0, 0⟩, []⟩)

def cur (c : Cursor) : Token := c.peek 0

def kind (c : Cursor) : TokenKind := c.cur.kind

def advance (c : Cursor) : Cursor :=
  match c.rest with
  | _ :: t :: ts => { c with rest := t :: ts }
  | _ => c

/-- `sink_.error` at the current token. -/
def report (c : Cursor) (message : Str) : Cursor :=
  { c with diags := c.diags ++ [⟨c.cur.span, message⟩] }

def error (c : Cursor) (message : String) : Cursor :=
  c.report ("expected ".toList ++ message.toList)

def expect (c : Cursor) (k : TokenKind) (what : String) : Cursor :=
  if c.kind = k then c.advance else c.error what

/-- The closing of a list of type arguments; of `>>` only one half is taken. -/
def expectGt (c : Cursor) : Cursor :=
  if c.kind = .Gt then c.advance
  else if c.kind = .GtGt then
    match c.rest with
    | t :: ts =>
      { c with rest := ⟨.Gt, ⟨t.span.offset + 1, 1⟩, (t.text.drop 1).take 1⟩ :: ts }
    | [] => c
  else c.error "'>'"

end Cursor

/-- A keyword that may stand for a member name. -/
def isContextualName : TokenKind → Bool
  | .KwGet | .KwSet | .KwIs | .KwIn | .KwUse | .KwUses | .KwNew | .KwBind | .KwInject => true
  | _ => false

def canStartExpr : TokenKind → Bool
  | .Identifier | .IntLiteral | .FloatLiteral | .StringLiteral | .RawStringLiteral | .LParen
  | .LBracket | .Bang | .Minus | .Tilde | .KwThis | .KwAwait | .KwInject | .KwMatch | .KwTrue
  | .KwFalse => true
  | _ => false

/-- `nextStartsExpr`. -/
def Cursor.nextStartsExpr (c : Cursor) (ahead : Nat) : Bool := canStartExpr (c.peek ahead).kind

/-! ### Types -/

/-- `T?` is `T | None`. -/
def wrapNullable (t : TypeRef) (c : Cursor) : TypeRef × Cursor :=
  if c.kind = .Question then
    let none' := TypeRef.ofInfo { kind := .Named, span := t.info.span, name := "None".toList }
    (.mk { kind := .Union, span := t.info.span } [] [t, none'] [] none, c.advance)
  else (t, c)

/-- The words after `::` of a type name: the path so far, the last word. -/
def typePath : Nat → List Str → Str → Cursor → List Str × Str × Cursor
  | 0, path, name, c => (path, name, c)
  | n + 1, path, name, c =>
    if c.kind = .ColonColon then
      let c := c.advance
      if c.kind = .Identifier then typePath n (path ++ [name]) c.cur.text c.advance
      else (path ++ [name], name, c.error "type name after '::'")
    else (path, name, c)

mutual

def parseType : Nat → Cursor → Option (TypeRef × Cursor)
  | 0, _ => none
  | n + 1, c => do
    let first ← parseTypePrimary n c
    if first.2.kind = .Pipe then
      let more ← typeAlternatives n first.2
      return (.mk { kind := .Union, span := first.1.info.span } [] (first.1 :: more.1) []
        none, more.2)
    else return first

/-- `| T | U ...`. -/
def typeAlternatives : Nat → Cursor → Option (List TypeRef × Cursor)
  | 0, _ => none
  | n + 1, c =>
    if c.kind = .Pipe then do
      let t ← parseTypePrimary n c.advance
      let more ← typeAlternatives n t.2
      return (t.1 :: more.1, more.2)
    else some ([], c)

/-- `T, U, ...`. -/
def typeList : Nat → Cursor → Option (List TypeRef × Cursor)
  | 0, _ => none
  | n + 1, c => do
    let t ← parseType n c
    if t.2.kind = .Comma then
      let more ← typeList n t.2.advance
      return (t.1 :: more.1, more.2)
    else return ([t.1], t.2)

def parseTypePrimary : Nat → Cursor → Option (TypeRef × Cursor)
  | 0, _ => none
  | n + 1, c =>
    if c.kind = .KwVar ∨ c.kind = .KwLet then
      some (.ofInfo { kind := .Inferred, span := c.cur.span }, c.advance)
    else if c.kind = .LParen then do
      -- the parameters of a function type, or a type in parentheses
      let lp := c.cur.span
      let parts ←
        if c.advance.kind = .RParen then some ([], c.advance) else typeList n c.advance
      let after := parts.2.expect .RParen "')'"
      if after.kind = .Arrow then
        let ret ← parseType n after.advance
        return wrapNullable
          (.mk { kind := .Function, span := lp } [] [] parts.1 (some ret.1)) ret.2
      else
        match parts.1 with
        | [t] => return wrapNullable t after
        | _ => return (.ofInfo { kind := .Named, span := lp },
            after.error "'=>' after a parenthesized parameter list")
    else do
      let span := c.cur.span
      let head : Str × Cursor :=
        if c.kind = .Identifier then (c.cur.text, c.advance) else ([], c.error "type name")
      let c := head.2
      if head.1.head? = some '$' ∧ c.kind = .Dot ∧ (c.peek 1).kind = .Identifier then
        let field := c.advance.cur.text
        return wrapNullable (.ofInfo
          { kind := .Named, span := span, name := head.1, holeBind := head.1,
            holeField := field }) c.advance.advance
      else
        let name := typePath c.rest.length [] head.1 c
        let c := name.2.2
        let generics ←
          if c.kind = .Lt then
            if c.advance.kind = .Gt ∨ c.advance.kind = .GtGt then
              some ([], c.advance.expectGt)
            else do
              let list ← typeList n c.advance
              pure (list.1, list.2.expectGt)
          else some ([], c)
        let info : TypeInfo :=
          { kind := .Named, span := span, path := name.1, name := name.2.1 }
        return wrapNullable (.mk info generics.1 [] [] none) generics.2

end

end Leviathan.Frontend
