import Mathlib

/-!
# Expression reification

A lambda literal in a position typed `expr::Expr<F>` becomes two things: the closure, and a
tree of `expr::` nodes that mirrors its body, with an array of the values it captures.
This module is the reifier of `CheckerReify.cpp` with the meaning of both sides.

The types that the checker has found are a parameter.  A call whose callee is a member is
`method`; every other call, and every construct that the reifier knows only to refuse, is
kept with its parts.  An enum member carries the carrier of the constant it resolves to.

A `Field` node holds a member path and not the parameter that it was written on.  The model
keeps the parameter beside the path, for the meaning of the tree.
-/

namespace Leviathan.Sema.Reify

/-- A word that the lexer reads as one name. -/
structure Ident where
  text : String
  plain : '.' ∉ text.toList
  nonempty : text ≠ ""
  notThis : text ≠ "this"
  deriving DecidableEq

/-- The operator tokens. -/
inductive Op
  | eqEq
  | bangEq
  | lt
  | gt
  | le
  | ge
  | ampAmp
  | pipePipe
  | plus
  | minus
  | star
  | slash
  | percent
  | bang
  | tilde
  | ltLt
  | gtGt
  | pipe
  | amp
  | caret
  | eq
  | compound
  | other
  deriving DecidableEq, Repr

/-- `opSymbol`. -/
def opSymbol : Op → String
  | .plus => "+"
  | .minus => "-"
  | .star => "*"
  | .slash => "/"
  | .percent => "%"
  | .eqEq => "=="
  | .bangEq => "!="
  | .lt => "<"
  | .gt => ">"
  | .le => "<="
  | .ge => ">="
  | .ltLt => "<<"
  | .gtGt => ">>"
  | .pipe => "|"
  | .amp => "&"
  | .caret => "^"
  | .tilde => "~"
  | .bang => "!"
  | _ => "?"

/-- `reifyOp`. -/
def reifyOp : Op → String
  | .ampAmp => "&&"
  | .pipePipe => "||"
  | op => opSymbol op

/-- `reifyBinaryOk`. -/
def reifyBinaryOk : Op → Bool
  | .eqEq => true
  | .bangEq => true
  | .lt => true
  | .gt => true
  | .le => true
  | .ge => true
  | .ampAmp => true
  | .pipePipe => true
  | .plus => true
  | .minus => true
  | .star => true
  | .slash => true
  | .percent => true
  | _ => false

/-- A literal, numbers and strings as written. -/
inductive Literal
  | int (n : Int)
  | float (text : String)
  | bool (b : Bool)
  | string (text : String)
  | none
  deriving DecidableEq

/-- The constructs that are not reified. -/
inductive Construct
  | await
  | lambda
  | is
  | match
  | index
  | range
  | ternary
  | other (kind : Nat)
  deriving DecidableEq, Repr

/-- How a member is written: `a.x`, `a?.x` or `a::x`, the last with the carrier of the enum
member that it resolves to. -/
inductive Link
  | dot
  | optChain
  | colon (carrier : Option Int)
  deriving DecidableEq, Repr

/-- `Expr`, as checked. -/
inductive Ex
  | lit (v : Literal)
  | name (x : Ident) (weak : Bool)
  | this
  | member (a : Ex) (x : Ident) (link : Link) (weak : Bool)
  | unary (op : Op) (a : Ex)
  | binary (op : Op) (a b : Ex)
  | method (recv : Ex) (name : Ident) (optChain : Bool) (args : List Ex)
  | call (callee : Ex) (args : List Ex)
  | construct (kind : Construct) (parts : List Ex)

/-- What the reifier asks of a type: `isDbValueType`, `string` or an array. -/
inductive Ty
  | string
  | value
  | array
  | other
  | error
  deriving DecidableEq, Repr

/-- `isDbValueType`. -/
def Ty.isDbValue : Ty → Bool
  | .string => true
  | .value => true
  | _ => false

/-- `Checker::pathOf`. -/
def pathOf : Ex → String
  | .name x weak => if weak then "" else x.text
  | .this => "this"
  | .member a x link weak =>
    if weak then ""
    else if link = .dot then
      if pathOf a = "" then "" else pathOf a ++ "." ++ x.text
    else ""
  | _ => ""

/-! ### Nodes -/

/-- The nodes of `expr::`, with the parameter that a field was written on. -/
inductive Node
  | field (root : Ident) (path : List Ident)
  | lit (v : Literal)
  | bind (slot : Nat)
  | un (op : String) (e : Node)
  | bin (op : String) (l r : Node)
  | call (name : String) (recv : Node) (args : List Node)
  | assign (root : Ident) (path : List Ident) (value : Node)

/-- `ReifyCtx::BindEntry`. -/
structure BindEntry where
  key : String
  capture : Ex
  storeNone : Bool

/-- `findOrAddSlot`. -/
def findOrAddSlot (key : String) (capture : Ex) (storeNone : Bool) (binds : List BindEntry) :
    Nat × List BindEntry :=
  match binds.findIdx? fun b => b.key = key with
  | some i => (i, binds)
  | none => (binds.length, binds ++ [⟨key, capture, storeNone⟩])

/-- The receivers of the whitelist. -/
inductive Recv
  | str
  | arrayT
  deriving DecidableEq, Repr

/-- `ExprCallRow`. -/
structure ExprCallRow where
  name : String
  recv : Recv
  arity : Nat

/-- `kExprWhitelist`. -/
def kExprWhitelist : List ExprCallRow :=
  [⟨"like", .str, 1⟩, ⟨"ilike", .str, 1⟩, ⟨"startsWith", .str, 1⟩, ⟨"endsWith", .str, 1⟩,
    ⟨"contains", .str, 1⟩, ⟨"contains", .arrayT, 1⟩]

/-- `whitelistAllowLine`. -/
def whitelistAllowLine : String :=
  "reifiable calls: " ++ String.intercalate ", " (kExprWhitelist.map fun r =>
    (match r.recv with
      | .str => "string."
      | .arrayT => "Array.") ++ r.name ++ "/" ++ toString r.arity)

/-- A diagnostic with its notes, or a body that the checker has rejected before. -/
inductive Reject
  | diag (message : String) (notes : List String)
  | checked

/-- `reifyReject`. -/
def reifyReject (construct : String) : Reject :=
  .diag ("cannot reify " ++ construct ++ ": outside the LA-31 reifiable subset")
    [whitelistAllowLine, "in this lambda reified to expr::Expr<F>"]

/-- `exprKindConstruct`, with the text used where it has none. -/
def exprKindConstruct : Construct → String
  | .await => "await"
  | .lambda => "nested lambda"
  | .is => "'is' expression"
  | .match => "'match' expression"
  | .index => "indexing"
  | .range => "range"
  | .ternary => "conditional expression"
  | .other _ => "unsupported construct"

/-- What a chain of members starts from. -/
def Ex.root : Ex → Ex
  | .member a _ _ _ => a.root
  | e => e

/-- The members of a chain, from the root outwards. -/
def Ex.segs : Ex → List Ident
  | .member a x _ _ => a.segs ++ [x]
  | _ => []

/-- A link of the chain is written with `::`. -/
def Ex.anyColon : Ex → Bool
  | .member _ _ (.colon _) _ => true
  | .member a _ _ _ => a.anyColon
  | _ => false

/-- The carrier of an enum member. -/
def Link.carrier : Link → Option Int
  | .colon carrier => carrier
  | _ => none

/-- The parameter that a chain is rooted at. -/
def paramRoot (params : List Ident) (e : Ex) : Option Ident :=
  match e.root with
  | .name x _ => if x ∈ params then some x else none
  | _ => none

section Reifier

variable (ty : Ex → Ty) (params : List Ident)

/-- A captured value: its slot, shared by what is spelled alike. -/
def reifyCapture (e : Ex) (binds : List BindEntry) : Except Reject (Node × List BindEntry) :=
  if (ty e).isDbValue then
    let (slot, binds) := findOrAddSlot (pathOf e) e false binds
    .ok (.bind slot, binds)
  else .error (reifyReject "capture of a non-value type")

/-- `reifyArrayReceiver`. -/
def reifyArrayReceiver (e : Ex) (binds : List BindEntry) :
    Except Reject (Node × List BindEntry) :=
  if pathOf e = "" then .error (reifyReject "capture of a non-value type")
  else
    let (slot, binds) := findOrAddSlot (pathOf e) e true binds
    .ok (.bind slot, binds)

/-- The row of the whitelist for a call. -/
def findRow (name : Ident) (arity : Nat) (recv : Ty) : Option ExprCallRow :=
  kExprWhitelist.find? fun r => r.name = name.text && r.arity = arity &&
    (r.recv = .str && recv = .string || r.recv = .arrayT && recv = .array)

mutual

/-- `reifyNode`. -/
def reifyNode : Ex → List BindEntry → Except Reject (Node × List BindEntry)
  | .lit v, binds => .ok (.lit v, binds)
  | .name x weak, binds =>
    if x.text = "None" then .ok (.lit .none, binds)
    else if x ∈ params then .error (reifyReject "bare lambda parameter")
    else reifyCapture ty (.name x weak) binds
  | .this, _ => .error (reifyReject "capture of a non-value type")
  | .member a x link weak, binds =>
    if (Ex.member a x link weak).anyColon then
      match link.carrier with
      | some n => .ok (.lit (.int n), binds)
      | none => .error (reifyReject "unsupported construct 'qualified member'")
    else
      match paramRoot params a with
      | some root => .ok (.field root (a.segs ++ [x]), binds)
      | none => reifyCapture ty (.member a x link weak) binds
  | .unary op a, binds =>
    if op ≠ .bang ∧ op ≠ .minus then .error (reifyReject "unsupported construct 'unary'")
    else
      match reifyNode a binds with
      | .error r => .error r
      | .ok (inner, binds) => .ok (.un (reifyOp op) inner, binds)
  | .binary op a b, binds =>
    if op = .eq ∨ op = .compound then
      .error (reifyReject "assignment outside a set-shaped lambda")
    else if !reifyBinaryOk op then .error (reifyReject "unsupported construct 'binary'")
    else
      match reifyNode a binds with
      | .error r => .error r
      | .ok (l, binds) =>
        match reifyNode b binds with
        | .error r => .error r
        | .ok (r, binds) => .ok (.bin (reifyOp op) l r, binds)
  | .method recv name _ args, binds =>
    match findRow name args.length (ty recv) with
    | none => .error (reifyReject ("non-whitelisted call '" ++ name.text ++ "'"))
    | some row =>
      match (if row.recv = .arrayT then reifyArrayReceiver recv binds
        else reifyNode recv binds) with
      | .error r => .error r
      | .ok (recvNode, binds) =>
        match reifyArgs args binds with
        | .error r => .error r
        | .ok (argNodes, binds) => .ok (.call name.text recvNode argNodes, binds)
  | .call _ _, _ => .error (reifyReject "unsupported construct 'call'")
  | .construct kind _, _ => .error (reifyReject (exprKindConstruct kind))

/-- The arguments of a whitelisted call. -/
def reifyArgs : List Ex → List BindEntry → Except Reject (List Node × List BindEntry)
  | [], binds => .ok ([], binds)
  | e :: es, binds =>
    match reifyNode e binds with
    | .error r => .error r
    | .ok (n, binds) =>
      match reifyArgs es binds with
      | .error r => .error r
      | .ok (ns, binds) => .ok (n :: ns, binds)

end

/-- The body of a lambda. -/
inductive Body
  | block
  | expr (e : Ex)

/-- `reifyLambda`: the tree and the entries of the binds array.  The target type has `arity`
parameters, and returns an `int` if `setShaped`. -/
def reifyLambda (arity : Nat) (setShaped : Bool) :
    Body → Except Reject (Node × List BindEntry)
  | body =>
    if params.length ≠ arity then
      .error (.diag ("lambda has " ++ toString params.length ++
        " parameter(s) but expr::Expr<F> expects " ++ toString arity) [])
    else
      match body with
      | .block => .error (reifyReject "block body")
      | .expr e =>
        if ty e = .error then .error .checked
        else
          match e with
          | .binary .eq lhs rhs =>
            if setShaped then
              match lhs with
              | .member a x link weak =>
                if (Ex.member a x link weak).anyColon then
                  .error (reifyReject "mutation of a capture")
                else
                  match paramRoot params a with
                  | none => .error (reifyReject "mutation of a capture")
                  | some root =>
                    match reifyNode ty params rhs [] with
                    | .error r => .error r
                    | .ok (n, binds) => .ok (.assign root (a.segs ++ [x]) n, binds)
              | _ => .error (reifyReject "mutation of a capture")
            else reifyNode ty params (.binary .eq lhs rhs) []
          | e => reifyNode ty params e []

end Reifier

end Leviathan.Sema.Reify
