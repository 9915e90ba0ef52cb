import Leviathan.Lib.Fallible
import Leviathan.Lib.SqlText
import Leviathan.Orm.Model

/-!
# Queries

`SqlRender` and `Query` of Atlantis: a chain of calls collects predicates, order keys and bounds,
and a terminal renders one statement with its parameters.  Predicates, keys and assignments are
the trees of reified lambdas; what a lambda captures lies in its `binds`.

The code appends the parameters by side effect while it puts the text together.  Beside each
parameter the model keeps the place in the statement's trees that it was appended for.
-/

namespace Leviathan.Orm

/-! ## Trees -/

/-- The operators of `expr::Bin` that a lambda is reified to. -/
inductive BinOp where
  | eq
  | ne
  | lt
  | gt
  | le
  | ge
  | and
  | or
  | add
  | sub
  | mul
  | div
  | mod
deriving DecidableEq, Repr

/-- `Bin::op`. -/
def BinOp.symbol : BinOp → Str
  | .eq => "==".toList
  | .ne => "!=".toList
  | .lt => "<".toList
  | .gt => ">".toList
  | .le => "<=".toList
  | .ge => ">=".toList
  | .and => "&&".toList
  | .or => "||".toList
  | .add => "+".toList
  | .sub => "-".toList
  | .mul => "*".toList
  | .div => "/".toList
  | .mod => "%".toList

/-- The operators of `expr::Un`. -/
inductive UnOp where
  | not
  | neg
deriving DecidableEq, Repr

/-- The names of `expr::Call`: the whitelist of the reifier, and any other name. -/
inductive Method where
  | like
  | ilike
  | startsWith
  | endsWith
  | contains
  | other (name : Str)
deriving DecidableEq, Repr

/-- `Call::name`. -/
def Method.name : Method → Str
  | .like => "like".toList
  | .ilike => "ilike".toList
  | .startsWith => "startsWith".toList
  | .endsWith => "endsWith".toList
  | .contains => "contains".toList
  | .other name => name

/-- `expr::Node`.  Every call of the whitelist has one argument. -/
inductive Node where
  | field (path : List Str)
  | lit (v : DbValue)
  | bind (slot : Nat)
  | bin (op : BinOp) (l r : Node)
  | un (op : UnOp) (e : Node)
  | call (m : Method) (recv arg : Node)
  | assign (target : List Str) (value : Node)

/-- A captured value, as the receiver of an `Array.contains` is. -/
def Node.isBind : Node → Bool
  | .bind _ => true
  | _ => false

/-- `expr::Expr`, without the closure and the site. -/
structure Expr where
  tree : Node
  binds : List DbValue

/-! ## Places -/

/-- The part of a statement that is being rendered. -/
inductive Clause where
  | filter (i : Nat)
  | order
  | set
  | tombstone

/-- What a parameter stands for: a captured value, the pattern composed for a call, an element of
the list of a call, or the time of a tombstone. -/
inductive Source where
  | captured (slot : Nat)
  | pattern (call : Node)
  | element (call : Node) (i : Nat)
  | now

structure Place where
  clause : Clause
  source : Source

/-- A parameter with the place it was appended for. -/
structure Param where
  value : DbValue
  place : Place

/-! ## Rendering -/

/-- `float.toString` writes digits and signs, and words for what is not a number. -/
structure FloatText where
  text : Float → Str
  nonempty : ∀ x, text x ≠ []
  bare : ∀ x, SqlText.Bare (text x)

/-- `sqlQuote`. -/
def sqlQuote (s : Str) : Str :=
  "'".toList ++ s.flatMap (fun ch =>
    if ch = '\'' then "''".toList else if ch = '\\' then "\\\\".toList else [ch]) ++ "'".toList

/-- `likeEscape`. -/
def likeEscape (s : Str) : Str :=
  s.flatMap fun ch => if ch = '%' ∨ ch = '_' ∨ ch = '\\' then ['\\', ch] else [ch]

/-- The state of `SqlRender`, with the clause that is being rendered. -/
structure SqlRender where
  binds : List DbValue
  clause : Clause
  params : List Param := []
  inList : List DbValue := []
  hasInList : Bool := false

/-- `Array.at`. -/
def elementAt {α : Type} (xs : List α) (i : Nat) : Except Raised α :=
  match xs[i]? with
  | some v => .ok v
  | none => .error .bounds

/-- The operator in SQL. -/
def sqlOp (op : BinOp) : Str :=
  if op = .and then "AND".toList
  else if op = .or then "OR".toList
  else if op = .eq then "=".toList
  else if op = .ne then "<>".toList
  else op.symbol

namespace SqlRender

/-- `this.params = this.params.add(v)`. -/
def push (r : SqlRender) (v : DbValue) (s : Source) : SqlRender :=
  { r with params := r.params ++ [⟨v, ⟨r.clause, s⟩⟩] }

/-- The loop over the list of an `Array.contains`. -/
def pushAll (r : SqlRender) (call : Node) : List DbValue → Nat → SqlRender
  | [], _ => r
  | v :: vs, i => pushAll (r.push v (.element call i)) call vs (i + 1)

/-- `isNoneLit`. -/
def isNoneLit : Node → Bool
  | .lit .none => true
  | _ => false

/-- `argValue`. -/
def argValue (r : SqlRender) : Node → Except Raised DbValue
  | .lit v => .ok v
  | .bind slot => elementAt r.binds slot
  | _ => .error (.logic
      "query render: pattern argument must be a literal or a captured value".toList)

/-- `argStr`. -/
def argStr (r : SqlRender) (n : Node) (what : Str) : Except Raised Str := do
  match ← r.argValue n with
  | .string s => .ok s
  | _ => .error (.logic ("query render: ".toList ++ what ++ " wants a string".toList))

/-- The pattern of `startsWith`, `endsWith` and `string.contains`. -/
def pattern (m : Method) (v : Str) : Str :=
  match m with
  | .startsWith => likeEscape v ++ "%".toList
  | .endsWith => "%".toList ++ likeEscape v
  | _ => "%".toList ++ likeEscape v ++ "%".toList

section Render

variable (ft : FloatText)

/-- `lit`. -/
def lit : DbValue → Str
  | .int n => Text.decimal n
  | .float x => ft.text x
  | .bool b => if b then "1".toList else "0".toList
  | .string s => sqlQuote s
  | .none => "NULL".toList

/-- `render`. -/
def render : Node → SqlRender → Except Raised (Str × SqlRender)
  | .field path, r =>
    match path with
    | [c] => .ok (qcol c, r)
    | _ => .error (.logic ("query render: nested member path '".toList ++
        List.intercalate ".".toList path ++
        "' is not renderable in v1 — only direct entity fields".toList))
  | .lit v, r => .ok (lit ft v, r)
  | .bind slot, r => do
    let v ← elementAt r.binds slot
    .ok ("?".toList, r.push v (.captured slot))
  | .bin op a b, r =>
    if (op = .eq ∨ op = .ne) ∧ isNoneLit b = true then do
      let (s, r) ← render a r
      .ok ("(".toList ++ s ++ (if op = .eq then " IS NULL)".toList else " IS NOT NULL)".toList), r)
    else if (op = .eq ∨ op = .ne) ∧ isNoneLit a = true then do
      let (s, r) ← render b r
      .ok ("(".toList ++ s ++ (if op = .eq then " IS NULL)".toList else " IS NOT NULL)".toList), r)
    else do
      let (s, r) ← render a r
      let (t, r) ← render b r
      .ok ("(".toList ++ s ++ " ".toList ++ sqlOp op ++ " ".toList ++ t ++ ")".toList, r)
  | .un op e, r => do
    let (s, r) ← render e r
    .ok ((if op = .not then "(NOT ".toList else "(-".toList) ++ s ++ ")".toList, r)
  | .call m recv arg, r =>
    match m with
    | .like => do
      let (s, r) ← render recv r
      let (t, r) ← render arg r
      .ok ("(".toList ++ s ++ " LIKE BINARY ".toList ++ t ++ ")".toList, r)
    | .ilike => do
      let (s, r) ← render recv r
      let (t, r) ← render arg r
      .ok ("(LOWER(".toList ++ s ++ ") LIKE LOWER(".toList ++ t ++ "))".toList, r)
    | .startsWith => do
      let v ← r.argStr arg "startsWith".toList
      let r := r.push (.string (pattern .startsWith v)) (.pattern (.call .startsWith recv arg))
      let (s, r) ← render recv r
      .ok ("(".toList ++ s ++ " LIKE BINARY ?)".toList, r)
    | .endsWith => do
      let v ← r.argStr arg "endsWith".toList
      let r := r.push (.string (pattern .endsWith v)) (.pattern (.call .endsWith recv arg))
      let (s, r) ← render recv r
      .ok ("(".toList ++ s ++ " LIKE BINARY ?)".toList, r)
    | .contains =>
      if recv.isBind = true then
        if r.hasInList = false then
          .error (.logic ("query render: Array.contains needs the array passed alongside — " ++
            "use .whereIn(predicate, array) (LA-31 R17: the binds slot carries only a " ++
            "marker)").toList)
        else if r.inList.length = 0 then .ok ("(1 = 0)".toList, r)
        else do
          let ph := List.intercalate ",".toList (r.inList.map fun _ => "?".toList)
          let r := r.pushAll (.call .contains recv arg) r.inList 0
          let (s, r) ← render arg r
          .ok ("(".toList ++ s ++ " IN (".toList ++ ph ++ "))".toList, r)
      else do
        let v ← r.argStr arg "contains".toList
        let r := r.push (.string (pattern .contains v)) (.pattern (.call .contains recv arg))
        let (s, r) ← render recv r
        .ok ("(".toList ++ s ++ " LIKE BINARY ?)".toList, r)
    | .other name => .error (.logic ("query render: call '".toList ++ name ++
        "' is outside the reifiable whitelist (§3.3)".toList))
  | .assign target value, r =>
    match target with
    | [c] => do
      let (s, r) ← render value r
      .ok (qcol c ++ " = ".toList ++ s, r)
    | _ => .error (.logic
        "query render: assignment target must be a direct entity field".toList)

end Render

end SqlRender

/-! ## Chains -/

/-- `Query`: its predicates, each with the values it captures and with its list, the rendered
order keys and the bounds.  `proto` is `repo.protoModel()`. -/
structure Query where
  proto : Entity
  wheres : List Node := []
  whereBinds : List (List DbValue) := []
  whereIns : List (List DbValue) := []
  whereHasIn : List Bool := []
  orderParts : List Str := []
  takeN : Int := -1
  skipN : Int := -1
  includeDeleted : Bool := false

/-- The calls of a chain. -/
inductive ChainCall where
  | where_ (p : Expr)
  | whereIn (p : Expr) (contents : List DbValue)
  | orderBy (k : Expr)
  | orderByDesc (k : Expr)
  | thenBy (k : Expr)
  | thenByDesc (k : Expr)
  | take (n : Int)
  | skip (n : Int)
  | withDeleted

/-- The terminals. -/
inductive Terminal where
  | select
  | count
  | exists_
  | set (assignment : Expr)
  | delete

namespace Query

variable (ft : FloatText)

/-- `__orderByTree`. -/
def orderByTree (q : Query) (t : Node) (desc : Bool) : Except Raised Query := do
  let (col, _) ← SqlRender.render ft t { binds := [], clause := .order }
  .ok { q with orderParts :=
    q.orderParts ++ [col ++ (if desc then " DESC".toList else " ASC".toList)] }

/-- One call of a chain. -/
def call (q : Query) : ChainCall → Except Raised Query
  | .where_ p => .ok { q with
      wheres := q.wheres ++ [p.tree], whereBinds := q.whereBinds ++ [p.binds],
      whereIns := q.whereIns ++ [[]], whereHasIn := q.whereHasIn ++ [false] }
  | .whereIn p contents => .ok { q with
      wheres := q.wheres ++ [p.tree], whereBinds := q.whereBinds ++ [p.binds],
      whereIns := q.whereIns ++ [contents], whereHasIn := q.whereHasIn ++ [true] }
  | .orderBy k => q.orderByTree ft k.tree false
  | .orderByDesc k => q.orderByTree ft k.tree true
  | .thenBy k => q.orderByTree ft k.tree false
  | .thenByDesc k => q.orderByTree ft k.tree true
  | .take n => .ok { q with takeN := n }
  | .skip n => .ok { q with skipN := n }
  | .withDeleted => .ok { q with includeDeleted := true }

/-- A chain, from `Query(repo)`. -/
def chain (proto : Entity) (calls : List ChainCall) : Except Raised Query :=
  calls.foldlM (call ft) { proto := proto }

/-! ## Statements -/

/-- The loop of `__whereSql` over the predicates. -/
def whereParts (q : Query) : Nat → List Node → SqlRender → Except Raised (List Str × SqlRender)
  | _, [], r => .ok ([], r)
  | i, n :: ns, r => do
    let binds ← elementAt q.whereBinds i
    let hasInList ← elementAt q.whereHasIn i
    let inList ← elementAt q.whereIns i
    let (s, r) ← SqlRender.render ft n { r with
      binds := binds, hasInList := hasInList, inList := inList, clause := .filter i }
    let (ss, r) ← whereParts q (i + 1) ns r
    .ok (s :: ss, r)

/-- `__whereSql`. -/
def whereSql (q : Query) (r : SqlRender) : Except Raised (Str × SqlRender) := do
  let (parts, r) ← q.whereParts ft 0 q.wheres r
  let parts := if q.proto.cls.softDelete && !q.includeDeleted then
    parts ++ ["(".toList ++ qcol "deletedAt".toList ++ " IS NULL)".toList] else parts
  match parts with
  | [] => .ok ([], r)
  | p :: ps => .ok (ps.foldl (fun sql part => sql ++ " AND ".toList ++ part)
      (" WHERE ".toList ++ p), r)

/-- `__tailSql`. -/
def tailSql (q : Query) : Str :=
  let sql := if q.orderParts.length > 0 then
    " ORDER BY ".toList ++ List.intercalate ", ".toList q.orderParts else []
  if q.takeN ≥ 0 then
    let sql := sql ++ " LIMIT ".toList ++ Text.decimal q.takeN
    if q.skipN > 0 then sql ++ " OFFSET ".toList ++ Text.decimal q.skipN else sql
  else if q.skipN > 0 then
    sql ++ " LIMIT 18446744073709551615 OFFSET ".toList ++ Text.decimal q.skipN
  else sql

/-- `__colsSql`. -/
def colsSql (q : Query) : Str := List.intercalate ", ".toList (q.proto.allCols.map qcol)

/-- `__selectSql`. -/
def selectSql (q : Query) (forcedLimit : Int) : Except Raised (Str × List Param) := do
  let r : SqlRender := { binds := [], clause := .order }
  let from_ := " FROM ".toList ++ qpath q.proto.cls.ormPath
  let (w, r) ← q.whereSql ft r
  let sql := "SELECT ".toList ++ q.colsSql ++ from_ ++ w
  if forcedLimit ≥ 0 then
    if q.orderParts.length > 0 then
      .ok ("SELECT ".toList ++ q.colsSql ++ from_ ++ w ++
        " ORDER BY ".toList ++ List.intercalate ", ".toList q.orderParts ++
        " LIMIT ".toList ++ Text.decimal forcedLimit, r.params)
    else .ok (sql ++ " LIMIT ".toList ++ Text.decimal forcedLimit, r.params)
  else .ok (sql ++ q.tailSql, r.params)

/-- The statement of `count`. -/
def countSql (q : Query) : Except Raised (Str × List Param) := do
  let (w, r) ← q.whereSql ft { binds := [], clause := .order }
  .ok ("SELECT COUNT(*) AS c FROM ".toList ++ qpath q.proto.cls.ormPath ++ w, r.params)

/-- The statement of `exists`. -/
def existsSql (q : Query) : Except Raised (Str × List Param) := do
  let (w, r) ← q.whereSql ft { binds := [], clause := .order }
  .ok ("SELECT 1 AS e FROM ".toList ++ qpath q.proto.cls.ormPath ++ w ++ " LIMIT 1".toList,
    r.params)

/-- The statement of `set`. -/
def setSql (q : Query) (assignment : Expr) : Except Raised (Str × List Param) := do
  let (set, r) ← SqlRender.render ft assignment.tree { binds := assignment.binds, clause := .set }
  let setParams := r.params
  let (w, r) ← q.whereSql ft { r with params := [] }
  .ok ("UPDATE ".toList ++ qpath q.proto.cls.ormPath ++ " SET ".toList ++ set ++ w,
    setParams ++ r.params)

/-- The statement of `delete`; `now` is `DateTime::now()`. -/
def deleteSql (q : Query) (now : DateTime) : Except Raised (Str × List Param) :=
  if q.proto.cls.softDelete then do
    let (w, r) ← q.whereSql ft { binds := [], clause := .order }
    .ok ("UPDATE ".toList ++ qpath q.proto.cls.ormPath ++ " SET ".toList ++
        qcol "deletedAt".toList ++ " = ?".toList ++ w,
      [⟨.string (fmtDateTime now), ⟨.tombstone, .now⟩⟩] ++ r.params)
  else do
    let (w, r) ← q.whereSql ft { binds := [], clause := .order }
    .ok ("DELETE FROM ".toList ++ qpath q.proto.cls.ormPath ++ w, r.params)

/-- The statement of a terminal. -/
def statement (q : Query) (now : DateTime) : Terminal → Except Raised (Str × List Param)
  | .select => q.selectSql ft (0 - 1)
  | .count => q.countSql ft
  | .exists_ => q.existsSql ft
  | .set assignment => q.setSql ft assignment
  | .delete => q.deleteSql ft now

/-- A chain and its terminal. -/
def execute (proto : Entity) (calls : List ChainCall) (t : Terminal) (now : DateTime) :
    Except Raised (Str × List Param) := do
  let q ← chain ft proto calls
  q.statement ft now t

end Query

end Leviathan.Orm
