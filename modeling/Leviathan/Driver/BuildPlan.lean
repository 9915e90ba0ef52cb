import Leviathan.Frontend.Lexer
import Leviathan.Lib.Fallible

/-!
# The build-plan reader

`BuildPlan.cpp` of the compiler driver.  A plan is one block of fields and rows
over the compiler's own tokens.  Errors go to a sink and reading stops where the
source returns early; a plan that was read without any error, from the lexer or
from the reader, is `ok`.
-/

namespace Leviathan.Driver

open Frontend

/-- How a program starts. -/
inductive PlanEntryKind where
  | Script | File | Function
deriving DecidableEq, Repr

structure PlanSource where
  path : Str := []
  moduleId : Str := []
  origin : Str := []
deriving DecidableEq

/-- The module `from_` may use what `to_` declares. -/
structure PlanEdge where
  from_ : Str := []
  to_ : Str := []
deriving DecidableEq

structure PlanAsset where
  rel : Str := []
  path : Str := []
  moduleId : Str := []
  hash : Str := []
deriving DecidableEq

structure SourceFile where
  name : Str
  text : Str
deriving DecidableEq

structure BuildPlan where
  ok : Bool := false
  planFile : SourceFile
  out : Str := []
  mode : Str := []
  target : Str := []
  optLevel : Int32 := 2
  entryKind : PlanEntryKind := .Script
  entryTarget : Str := []
  sources : List PlanSource := []
  edges : List PlanEdge := []
  assets : List PlanAsset := []
deriving DecidableEq

/-- `unquote`: a string token without its quotes, the text between them as it is. -/
def unquote (tok : Str) : Str :=
  if 2 ≤ tok.length ∧ (tok.head? = some '"' ∨ tok.head? = some '\'') then
    (tok.drop 1).take (tok.length - 2)
  else tok

/-- The reader's cursor: the tokens from the current one on, and the sink. -/
structure PlanReader where
  toks : List Token
  sink : List Diagnostic

namespace PlanReader

def cur (r : PlanReader) : Token := r.toks.headD ⟨.End, ⟨0, 0⟩, []⟩

/-- The source's `at`. -/
def isAt (r : PlanReader) (k : TokenKind) : Bool := r.cur.kind = k

def advance (r : PlanReader) : PlanReader :=
  if r.cur.kind = .End then r else { r with toks := r.toks.tail }

/-- `sink.error` at the current token. -/
def error (r : PlanReader) (message : Str) : PlanReader :=
  { r with sink := r.sink ++ [⟨r.cur.span, message⟩] }

/-- The reader after a step that went through, or the reader where it stopped. -/
abbrev Result (α : Type) := Except PlanReader α

def expect (r : PlanReader) (k : TokenKind) (what : Str) : Result PlanReader :=
  if r.isAt k then .ok r.advance else .error (r.error ("expected ".toList ++ what))

def expectIdent (r : PlanReader) (text : Str) : Result PlanReader :=
  if r.isAt .Identifier ∧ r.cur.text = text then .ok r.advance
  else .error (r.error ("expected '".toList ++ text ++ "'".toList))

def scalar (r : PlanReader) : Result (Str × PlanReader) :=
  if r.isAt .StringLiteral then .ok (unquote r.cur.text, r.advance)
  else if r.isAt .IntLiteral then .ok (r.cur.text, r.advance)
  else .error (r.error "expected a string or a number".toList)

/-- The semicolon that may follow a value. -/
def skipSemicolon (r : PlanReader) : PlanReader :=
  if r.isAt .Semicolon then r.advance else r

/-- The fields of a block as its row takes them: the row with the field set, or the
error of a field it does not have. -/
abbrev OnField (α : Type) := α → Str → Str → Except Str α

/-- One turn of the loop of `fieldBlock`, at a field name.  An unknown field is
reported and left out. -/
def field {α : Type} (onField : OnField α) (row : α) (r : PlanReader) :
    Result (α × PlanReader) :=
  if r.isAt .Identifier then do
    let name := r.cur.text
    let r ← r.advance.expect .Eq "'='".toList
    let (value, r) ← r.scalar
    match onField row name value with
    | .ok row => .ok (row, r.skipSemicolon)
    | .error message => .ok (row, (r.error message).skipSemicolon)
  else .error (r.error "expected a field name".toList)

/-- The loop of `fieldBlock`.  Each turn takes a token, so the number of tokens is
enough fuel. -/
def fields {α : Type} (onField : OnField α) : Nat → α → PlanReader → Result (α × PlanReader)
  | fuel, row, r =>
    if r.isAt .RBrace || r.isAt .End then .ok (row, r)
    else
      match fuel with
      | 0 => .ok (row, r)
      | fuel + 1 => do
        let (row, r) ← r.field onField row
        fields onField fuel row r

/-- `fieldBlock`: the fields of one row, between braces. -/
def fieldBlock {α : Type} (onField : OnField α) (row : α) (r : PlanReader) :
    Result (α × PlanReader) := do
  let r ← r.expect .LBrace "'\x7b'".toList
  let (row, r) ← fields onField r.toks.length row r
  let r ← r.expect .RBrace "'\x7d'".toList
  .ok (row, r)

end PlanReader

/-- The error of a field that a row does not have. -/
def unknownField (row name : Str) : Str :=
  "unknown '".toList ++ row ++ "' field '".toList ++ name ++ "'".toList

/-- The fields of an `entry` row: its kind and its target. -/
def onEntryField : PlanReader.OnField (Str × Str) := fun (kind, target) f v =>
  if f = "kind".toList then .ok (v, target)
  else if f = "target".toList then .ok (kind, v)
  else .error (unknownField "entry".toList f)

def onSrcField : PlanReader.OnField PlanSource := fun s f v =>
  if f = "path".toList then .ok { s with path := v }
  else if f = "moduleId".toList then .ok { s with moduleId := v }
  else if f = "origin".toList then .ok { s with origin := v }
  else .error (unknownField "src".toList f)

def onEdgeField : PlanReader.OnField PlanEdge := fun e f v =>
  if f = "from".toList then .ok { e with from_ := v }
  else if f = "to".toList then .ok { e with to_ := v }
  else .error (unknownField "edge".toList f)

def onAssetField : PlanReader.OnField PlanAsset := fun a f v =>
  if f = "rel".toList then .ok { a with rel := v }
  else if f = "path".toList then .ok { a with path := v }
  else if f = "moduleId".toList then .ok { a with moduleId := v }
  else if f = "hash".toList then .ok { a with hash := v }
  else .error (unknownField "asset".toList f)

/-- The entry kind a plan names. -/
def entryKindOf (kind : Str) : Option PlanEntryKind :=
  if kind = "script".toList then some .Script
  else if kind = "file".toList then some .File
  else if kind = "function".toList then some .Function
  else none

/-- The plan so far, whether its entry was seen, and the reader. -/
structure PlanState where
  plan : BuildPlan
  sawEntry : Bool
  reader : PlanReader

namespace PlanState

/-- A step that went through, or the state where the source returns. -/
abbrev Result := Except PlanState PlanState

/-- A step of the reader inside the plan: a failure keeps the plan so far. -/
def lift {α : Type} (st : PlanState) (x : PlanReader.Result α) : Except PlanState α :=
  x.mapError (fun r => { st with reader := r })

/-- An error at the current token, and return. -/
def fail {α : Type} (st : PlanState) (message : Str) : Except PlanState α :=
  .error { st with reader := st.reader.error message }

def entryRow (st : PlanState) : Result := do
  let ((kind, target), r) ← st.lift (st.reader.fieldBlock onEntryField ([], []))
  let st := { st with reader := r }
  match entryKindOf kind with
  | some entryKind =>
    .ok { st with plan := { st.plan with entryKind, entryTarget := target }, sawEntry := true }
  | none => st.fail "entry.kind must be 'script', 'file', or 'function'".toList

def srcRow (st : PlanState) : Result := do
  let (s, r) ← st.lift (st.reader.fieldBlock onSrcField {})
  let st := { st with reader := r }
  if s.path.isEmpty then st.fail "'src' is missing 'path'".toList
  else .ok { st with plan := { st.plan with sources := st.plan.sources ++ [s] } }

def edgeRow (st : PlanState) : Result := do
  let (e, r) ← st.lift (st.reader.fieldBlock onEdgeField {})
  .ok { st with plan := { st.plan with edges := st.plan.edges ++ [e] }, reader := r }

def assetRow (st : PlanState) : Result := do
  let (a, r) ← st.lift (st.reader.fieldBlock onAssetField {})
  let st := { st with reader := r }
  if a.rel.isEmpty then st.fail "'asset' is missing 'rel'".toList
  else if a.path.isEmpty then st.fail "'asset' is missing 'path'".toList
  else .ok { st with plan := { st.plan with assets := st.plan.assets ++ [a] } }

/-- A field of the plan itself, after its name. -/
def planField (name : Str) (st : PlanState) : Result := do
  let r ← st.lift (st.reader.expect .Eq "'='".toList)
  let (v, r) ← { st with reader := r }.lift r.scalar
  let plan :=
    if name = "out".toList then { st.plan with out := v }
    else if name = "mode".toList then { st.plan with mode := v }
    else if name = "target".toList then { st.plan with target := v }
    else { st.plan with optLevel := Text.atoi v }
  .ok { st with plan, reader := r.skipSemicolon }

/-- One turn of the plan's loop: a field or a row. -/
def item (st : PlanState) : Result :=
  if st.reader.isAt .Identifier then
    let name := st.reader.cur.text
    let st := { st with reader := st.reader.advance }
    if name = "entry".toList then st.entryRow
    else if name = "src".toList then st.srcRow
    else if name = "edge".toList then st.edgeRow
    else if name = "asset".toList then st.assetRow
    else if name = "out".toList ∨ name = "mode".toList ∨ name = "target".toList ∨
        name = "optLevel".toList then st.planField name
    else st.fail ("unknown plan field or block '".toList ++ name ++ "'".toList)
  else st.fail "expected a field or block name".toList

/-- The plan's loop.  Each turn takes a token, so the number of tokens is enough
fuel. -/
def items : Nat → PlanState → Result
  | fuel, st =>
    if st.reader.isAt .RBrace || st.reader.isAt .End then .ok st
    else
      match fuel with
      | 0 => .ok st
      | fuel + 1 => do
        let st ← st.item
        items fuel st

/-- The whole plan. -/
def block (st : PlanState) : Result := do
  let r ← st.lift (st.reader.expectIdent "plan".toList)
  let r ← { st with reader := r }.lift (r.expect .LBrace "'\x7b'".toList)
  let st ← items r.toks.length { st with reader := r }
  let r ← st.lift (st.reader.expect .RBrace "'\x7d'".toList)
  .ok { st with reader := r }

end PlanState

/-- An error without a place. -/
def bareError (message : Str) : Diagnostic := ⟨⟨0, 0⟩, message⟩

/-- `readBuildPlan`: the plan and the sink.  `file` is the text of the plan file, if
it can be read. -/
def readBuildPlan (planPath : Str) (file : Option Str) :
    Except Thrown (BuildPlan × List Diagnostic) :=
  match file with
  | none =>
    .ok ({ planFile := ⟨planPath, []⟩ },
      [bareError ("cannot read build plan '".toList ++ planPath ++ "'".toList)])
  | some text => do
    let (toks, sink) ← { text : Lexer }.tokenize
    let start : PlanState := ⟨{ planFile := ⟨planPath, text⟩ }, false, ⟨toks, sink⟩⟩
    match start.block with
    | .error st => .ok (st.plan, st.reader.sink)
    | .ok st =>
      let sink := st.reader.sink ++
        (if st.plan.sources.isEmpty then
          [bareError "build plan lists no 'src' rows — nothing to compile".toList]
         else []) ++
        (if st.sawEntry then []
         else [bareError "build plan is missing an 'entry \x7b ... \x7d' block".toList])
      .ok ({ st.plan with ok := sink.isEmpty }, sink)

end Leviathan.Driver
