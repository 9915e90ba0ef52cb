import Leviathan.Lib.Text

/-!
# The lexer

`Token.cpp` and `Lexer.cpp`.  A source file is a byte string and a token is a
kind, a span and the text at that span.  The lexer keeps an absolute position in
the file; next to it the model keeps `rest`, the bytes from that position to the
end of the lexed range, which is what `peek` and `atEnd` look at.  `peek` yields
NUL past the end, and no test of the lexer is true of NUL, so a missing byte and
a byte that fails the test are the same.

Every scanner is given the position of the token and the bytes after it and
returns the kind, the number of bytes of the token and the errors it reports.
-/

namespace Leviathan.Frontend

/-- The kinds of token, in the order of `Token.hpp`. -/
inductive TokenKind where
  | End | Error
  | Identifier | IntLiteral | FloatLiteral | StringLiteral | RawStringLiteral | QuasiLiteral
  | KwNamespace | KwClass | KwStruct | KwInterface | KwPublic | KwPrivate | KwNew | KwMutating
  | KwDistinct | KwConst | KwReadonly | KwWeak | KwGet | KwSet | KwReturn | KwVar | KwLet
  | KwAwait | KwBind | KwInject | KwUse | KwUses | KwIf | KwElse | KwTry | KwCatch | KwThrow
  | KwWhile | KwFor | KwIn | KwIs | KwMatch | KwThis | KwTrue | KwFalse | KwBreak | KwContinue
  | KwDo | KwUsing | KwEnum
  | ColonColon | Colon | Semicolon | Comma | Dot | DotDot | LParen | RParen | LBrace | RBrace
  | LBracket | RBracket | Arrow | Eq | EqEq | BangEq | Bang | Lt | Gt | Le | Ge | Plus | Minus
  | Star | Slash | Percent | PlusEq | MinusEq | StarEq | SlashEq | PercentEq | LtLt | GtGt
  | AmpAmp | PipePipe | Amp | Pipe | Question | QuestionQuestion | QuestionDot | At | Caret
  | Tilde
deriving DecidableEq, Repr

/-- A half-open byte range of a source file. -/
structure SourceSpan where
  offset : Nat
  length : Nat
deriving DecidableEq, Repr

/-- A token: its kind, its place and its text. -/
structure Token where
  kind : TokenKind
  span : SourceSpan
  text : Str
deriving DecidableEq

/-- An error in a diagnostic sink. -/
structure Diagnostic where
  span : SourceSpan
  message : Str
deriving DecidableEq

/-- An exception thrown by the standard library. -/
inductive Thrown where
  /-- `substr` from a position past the end of the text -/
  | out_of_range
deriving DecidableEq

/-- The keyword table. -/
def keywordTable : List (Str × TokenKind) :=
  [("namespace".toList, .KwNamespace), ("class".toList, .KwClass), ("struct".toList, .KwStruct),
   ("interface".toList, .KwInterface), ("mutating".toList, .KwMutating),
   ("public".toList, .KwPublic), ("private".toList, .KwPrivate), ("new".toList, .KwNew),
   ("distinct".toList, .KwDistinct), ("const".toList, .KwConst),
   ("readonly".toList, .KwReadonly), ("weak".toList, .KwWeak), ("get".toList, .KwGet),
   ("set".toList, .KwSet), ("return".toList, .KwReturn), ("var".toList, .KwVar),
   ("let".toList, .KwLet), ("await".toList, .KwAwait), ("bind".toList, .KwBind),
   ("inject".toList, .KwInject), ("use".toList, .KwUse), ("uses".toList, .KwUses),
   ("if".toList, .KwIf), ("else".toList, .KwElse), ("try".toList, .KwTry),
   ("catch".toList, .KwCatch), ("throw".toList, .KwThrow), ("while".toList, .KwWhile),
   ("for".toList, .KwFor), ("in".toList, .KwIn), ("is".toList, .KwIs), ("match".toList, .KwMatch),
   ("this".toList, .KwThis), ("true".toList, .KwTrue), ("false".toList, .KwFalse),
   ("break".toList, .KwBreak), ("continue".toList, .KwContinue), ("do".toList, .KwDo),
   ("using".toList, .KwUsing), ("enum".toList, .KwEnum)]

/-- The kind of a word: a keyword or an identifier. -/
def keywordKind (word : Str) : TokenKind := (keywordTable.lookup word).getD .Identifier

def isIdentStart (c : Char) : Bool :=
  ('a' ≤ c && c ≤ 'z') || ('A' ≤ c && c ≤ 'Z') || c = '_'

def isIdentCont (c : Char) : Bool := isIdentStart c || ('0' ≤ c && c ≤ '9')

def isDigit (c : Char) : Bool := '0' ≤ c && c ≤ '9'

def isHexDigit (c : Char) : Bool := isDigit c || ('a' ≤ c && c ≤ 'f') || ('A' ≤ c && c ≤ 'F')

def isBinDigit (c : Char) : Bool := c = '0' || c = '1'

/-- What a scanner makes of the bytes of one token. -/
structure Scan where
  kind : TokenKind
  length : Nat
  diags : List Diagnostic := []

/-- The three loops of `skipTrivia`. -/
inductive Trivia where
  | blanks
  | line
  /-- inside a block comment that starts at `start` -/
  | block (start : Nat)

/-- `skipTrivia`: the position and the bytes after white space and comments, and
the error of a block comment that does not end. -/
def skipTrivia : Trivia → Nat → Str → Nat × Str × List Diagnostic
  | .blanks, pos, [] => (pos, [], [])
  | .line, pos, [] => (pos, [], [])
  | .block start, pos, [] => (pos, [], [⟨⟨start, 2⟩, "unterminated block comment".toList⟩])
  | .blanks, pos, '/' :: '/' :: cs => skipTrivia .line (pos + 2) cs
  | .blanks, pos, '/' :: '*' :: cs => skipTrivia (.block pos) (pos + 2) cs
  | .blanks, pos, c :: cs =>
    if c = ' ' ∨ c = '\t' ∨ c = '\r' ∨ c = '\n' then skipTrivia .blanks (pos + 1) cs
    else (pos, c :: cs, [])
  | .line, pos, c :: cs =>
    if c = '\n' then skipTrivia .blanks (pos + 1) cs else skipTrivia .line (pos + 1) cs
  | .block _, pos, '*' :: '/' :: cs => skipTrivia .blanks (pos + 2) cs
  | .block start, pos, _ :: cs => skipTrivia (.block start) (pos + 1) cs

/-- Two separators next to each other. -/
def doubled : Str → Bool
  | [] => false
  | '_' :: '_' :: _ => true
  | _ :: cs => doubled cs

/-- `scanDigitRun`: the bytes of the run, the number of its digits, and the error
of a misplaced separator. -/
def scanDigitRun (pred : Char → Bool) (baseName : Str) (start : Nat) (rest : Str) :
    Nat × Nat × List Diagnostic :=
  let run := rest.takeWhile (fun c => pred c || c = '_')
  let digits := run.countP (fun c => c ≠ '_')
  let misplaced := run.head? = some '_' || run.getLast? = some '_' || doubled run
  (run.length, digits,
    if misplaced then
      [⟨⟨start, run.length⟩, "misplaced digit separator in ".toList ++ baseName ++
        " literal".toList⟩]
    else [])

/-- A dot with a digit after it. -/
def startsFraction (rest : Str) : Bool :=
  match rest with
  | '.' :: d :: _ => isDigit d
  | _ => false

/-- A hexadecimal or binary literal; `ds` is what follows its two-byte mark. -/
def lexBased (pred : Char → Bool) (baseName : Str) (start : Nat) (ds : Str) : Scan :=
  let (len, digits, misplaced) := scanDigitRun pred baseName (start + 2) ds
  { kind := .IntLiteral
    length := 2 + len
    diags := misplaced ++
      (if digits = 0 then [⟨⟨start, 2 + len⟩, baseName ++ " literal has no digits".toList⟩]
       else []) ++
      (if startsFraction (ds.drop len) then
        [⟨⟨start, 2 + len + 1⟩, baseName ++ " literals cannot have a fractional part".toList⟩]
       else []) }

/-- A decimal literal, with its fraction if it has one. -/
def lexDecimal (start : Nat) (rest : Str) : Scan :=
  let (len, _, misplaced) := scanDigitRun isDigit "decimal".toList start rest
  let after := rest.drop len
  if startsFraction after then
    let (len', _, misplaced') := scanDigitRun isDigit "decimal".toList (start + len + 1)
      (after.drop 1)
    ⟨.FloatLiteral, len + 1 + len', misplaced ++ misplaced'⟩
  else ⟨.IntLiteral, len, misplaced⟩

/-- `lexNumber`, from the first digit on. -/
def lexNumber (start : Nat) (rest : Str) : Scan :=
  match rest with
  | '0' :: x :: ds =>
    if x = 'x' ∨ x = 'X' then lexBased isHexDigit "hex".toList start ds
    else if x = 'b' ∨ x = 'B' then lexBased isBinDigit "binary".toList start ds
    else lexDecimal start rest
  | _ => lexDecimal start rest

/-- `lexIdentifier`, from the first byte of the word on. -/
def lexIdentifier (allowHoles : Bool) (rest : Str) : Scan :=
  let word := rest.takeWhile (fun c => isIdentCont c || (allowHoles && c = '$'))
  { kind := keywordKind word, length := word.length }

/-- The bytes of a quasiquote after its opening backtick, and whether it is closed. -/
def quasiBody : Str → Nat × Bool
  | [] => (0, false)
  | '\\' :: '`' :: cs => let (n, closed) := quasiBody cs; (n + 2, closed)
  | c :: cs =>
    if c = '`' then (1, true) else let (n, closed) := quasiBody cs; (n + 1, closed)

/-- The bytes of a string after its opening quote, and whether it is closed.  The
byte after a backslash is skipped unread, past the end of the range too. -/
def stringBody (quote : Char) : Str → Nat × Bool
  | [] => (0, false)
  | ['\\'] => (2, false)
  | '\\' :: _ :: cs => let (n, closed) := stringBody quote cs; (n + 2, closed)
  | c :: cs =>
    if c = '\n' then (0, false)
    else if c = quote then (1, true)
    else let (n, closed) := stringBody quote cs; (n + 1, closed)

/-- The bytes of a raw string after its opening quote, and whether it is closed. -/
def rawStringBody (quote : Char) : Str → Nat × Bool
  | [] => (0, false)
  | c :: cs =>
    if c = quote then (1, true)
    else if c = '\n' then (0, false)
    else let (n, closed) := rawStringBody quote cs; (n + 1, closed)

/-- The bytes of a multiline string after its three opening quotes, and whether it
is closed. -/
def tripleStringBody (quote : Char) : Str → Nat × Bool
  | [] => (0, false)
  | ['\\'] => (2, false)
  | '\\' :: _ :: cs => let (n, closed) := tripleStringBody quote cs; (n + 2, closed)
  | c :: cs =>
    if [quote, quote, quote].isPrefixOf (c :: cs) then (3, true)
    else let (n, closed) := tripleStringBody quote cs; (n + 1, closed)

/-- A delimited literal: `opening` bytes and the body; the error token and the
error of one that is not closed. -/
def lexDelimited (kind : TokenKind) (what : Str) (start opening : Nat) (body : Nat × Bool) :
    Scan :=
  if body.2 then { kind, length := opening + body.1 }
  else
    { kind := .Error
      length := opening + body.1
      diags := [⟨⟨start, opening + body.1⟩, "unterminated ".toList ++ what ++
        " literal".toList⟩] }

def lexQuasi (start : Nat) (cs : Str) : Scan :=
  lexDelimited .QuasiLiteral "quasiquote".toList start 1 (quasiBody cs)

def lexString (start : Nat) (quote : Char) (cs : Str) : Scan :=
  lexDelimited .StringLiteral "string".toList start 1 (stringBody quote cs)

def lexRawString (start : Nat) (quote : Char) (cs : Str) : Scan :=
  lexDelimited .RawStringLiteral "raw string".toList start 2 (rawStringBody quote cs)

def lexTripleString (start : Nat) (quote : Char) (cs : Str) : Scan :=
  lexDelimited .StringLiteral "multiline string".toList start 3 (tripleStringBody quote cs)

/-- The first of the two-byte operators that the byte after the first one makes,
else the one-byte operator. -/
def operator (cs : Str) (longer : List (Char × TokenKind)) (single : TokenKind) : Scan :=
  match cs with
  | [] => ⟨single, 1, []⟩
  | d :: _ =>
    match longer.lookup d with
    | some kind => ⟨kind, 2, []⟩
    | none => ⟨single, 1, []⟩

/-- The `$` of a quasiquote hole, with its name. -/
def lexHole (allowHoles : Bool) (start : Nat) (cs : Str) : Scan :=
  if allowHoles && (cs.head?.map isIdentStart).getD false then
    ⟨.Identifier, 1 + (cs.takeWhile (fun c => isIdentCont c || c = '$')).length, []⟩
  else
    ⟨.Error, 1,
      [⟨⟨start, 1⟩,
        if allowHoles then "expected a name after '$'".toList
        else "unexpected character '$' (holes only exist inside quasiquotes)".toList⟩]⟩

/-- A byte that starts no operator: a number, a raw string, a word, or an error. -/
def lexDefault (allowHoles : Bool) (start : Nat) (c : Char) (cs : Str) : Scan :=
  if isDigit c then lexNumber start (c :: cs)
  else if c = 'r' ∧ (cs.head? = some '"' ∨ cs.head? = some '\'') then
    lexRawString start (cs.headD '"') cs.tail
  else if isIdentStart c then lexIdentifier allowHoles (c :: cs)
  else ⟨.Error, 1, [⟨⟨start, 1⟩, "unexpected character '".toList ++ [c, '\'']⟩]⟩

/-- The switch of `tokenize`: the token that starts with `c` at `start`, where `cs`
follows. -/
def scanToken (allowHoles : Bool) (start : Nat) (c : Char) (cs : Str) : Scan :=
  match c with
  | '(' => ⟨.LParen, 1, []⟩
  | ')' => ⟨.RParen, 1, []⟩
  | '{' => ⟨.LBrace, 1, []⟩
  | '}' => ⟨.RBrace, 1, []⟩
  | '[' => ⟨.LBracket, 1, []⟩
  | ']' => ⟨.RBracket, 1, []⟩
  | ',' => ⟨.Comma, 1, []⟩
  | '.' => operator cs [('.', .DotDot)] .Dot
  | ';' => ⟨.Semicolon, 1, []⟩
  | '?' => operator cs [('?', .QuestionQuestion), ('.', .QuestionDot)] .Question
  | '+' => operator cs [('=', .PlusEq)] .Plus
  | '-' => operator cs [('=', .MinusEq)] .Minus
  | '*' => operator cs [('=', .StarEq)] .Star
  | '/' => operator cs [('=', .SlashEq)] .Slash
  | '%' => operator cs [('=', .PercentEq)] .Percent
  | ':' => operator cs [(':', .ColonColon)] .Colon
  | '=' => operator cs [('>', .Arrow), ('=', .EqEq)] .Eq
  | '!' => operator cs [('=', .BangEq)] .Bang
  | '<' => operator cs [('<', .LtLt), ('=', .Le)] .Lt
  | '>' => operator cs [('>', .GtGt), ('=', .Ge)] .Gt
  | '&' => operator cs [('&', .AmpAmp)] .Amp
  | '|' => operator cs [('|', .PipePipe)] .Pipe
  | '^' => ⟨.Caret, 1, []⟩
  | '~' => ⟨.Tilde, 1, []⟩
  | '"' =>
    if ['"', '"'].isPrefixOf cs then lexTripleString start '"' (cs.drop 2)
    else lexString start '"' cs
  | '\'' =>
    if ['\'', '\''].isPrefixOf cs then lexTripleString start '\'' (cs.drop 2)
    else lexString start '\'' cs
  | '@' => ⟨.At, 1, []⟩
  | '`' => lexQuasi start cs
  | '$' => lexHole allowHoles start cs
  | c => lexDefault allowHoles start c cs

/-- A lexer: the file's text, fragment mode, and the end of the range if it is not
the whole file (`limit_`, 0 for the whole file). -/
structure Lexer where
  text : Str
  allowHoles : Bool := false
  limit : Nat := 0

namespace Lexer

/-- The end of the lexed range; the size of the text is kept in 32 bits. -/
def stop (L : Lexer) : Nat := if L.limit = 0 then L.text.length % 2 ^ 32 else L.limit

/-- The bytes of the range from a position on. -/
def rest (L : Lexer) (pos : Nat) : Str := (L.text.take L.stop).drop pos

/-- `make`: the text is `substr` of the whole file, which throws from a position
past its end. -/
def make (L : Lexer) (kind : TokenKind) (start pos : Nat) : Except Thrown Token :=
  if L.text.length < start then .error .out_of_range
  else .ok ⟨kind, ⟨start, pos - start⟩, (L.text.drop start).take (pos - start)⟩

/-- The loop of `tokenize` from a position on.  Each round takes at least one byte,
so the number of bytes left is enough fuel. -/
def tokenizeFrom (L : Lexer) : Nat → Nat → Str → Except Thrown (List Token × List Diagnostic)
  | fuel, pos, rest =>
    match skipTrivia .blanks pos rest with
    | (pos, [], skipped) => do
      let last ← L.make .End pos pos
      .ok ([last], skipped)
    | (pos, c :: cs, skipped) =>
      match fuel with
      | 0 => .ok ([], skipped)
      | fuel + 1 => do
        let scan := scanToken L.allowHoles pos c cs
        let token ← L.make scan.kind pos (pos + scan.length)
        let (tokens, diags) ← L.tokenizeFrom fuel (pos + scan.length)
          ((c :: cs).drop scan.length)
        .ok (token :: tokens, skipped ++ scan.diags ++ diags)

/-- `tokenize` from a position on: the tokens and the errors. -/
def tokenizeAt (L : Lexer) (pos : Nat) : Except Thrown (List Token × List Diagnostic) :=
  L.tokenizeFrom (L.rest pos).length pos (L.rest pos)

/-- `tokenize` of a fresh lexer. -/
def tokenize (L : Lexer) : Except Thrown (List Token × List Diagnostic) := L.tokenizeAt 0

/-- `tokenizeRange`: an end of 0 stands for the end of the file here too. -/
def tokenizeRange (L : Lexer) (first last : Nat) :
    Except Thrown (List Token × List Diagnostic) :=
  { L with limit := last }.tokenizeAt first

end Lexer

end Leviathan.Frontend
