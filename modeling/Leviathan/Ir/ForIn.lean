import Leviathan.Lib.Fuel
import Leviathan.Lib.Text

/-!
# `for`-`in`, walked and lowered

The evaluator computes what a loop iterates once, and goes through that value (`Evaluator::exec`,
case `ForIn`).  The lowerer (`lowerStmt`, case `ForIn`) makes a counted loop of a range that is
written out, and otherwise a loop over an index (`iterLen`, `iterAt`).

The body of a loop is anything that ends normally or by `continue`.  For the lowered program that is
a change of the registers that are bound to names, and of the rest of the program's state; what the
loop keeps in registers of its own, the code of a body does not reach.

A loop visits the values the loop variable has when its body starts.
-/

namespace Leviathan.Ir.ForIn

open Leviathan

/-- `struct Value`, as far as loops look at it. -/
inductive Val (U : Type) where
  | void
  | int (i : Int64)
  | bool (b : Bool)
  | array (xs : List (Val U))
  | range (start end_ : Int64)
  | other (u : U)

namespace Val

variable {U : Type}

/-- `Value::i`. -/
def i : Val U → Int64
  | int i => i
  | _ => 0

/-- `Value::b`. -/
def b : Val U → Bool
  | bool b => b
  | _ => false

end Val

/-- An expression: a name, or anything else, by the value it has for the values of the names. -/
inductive Expr (U ω : Type) where
  | name (x : Str)
  | other (value : (Str → Val U) → ω → Val U × ω)

/-- What a loop goes through: a range that is written out, or the value of an expression. -/
inductive Iterable (U ω : Type) where
  | range (lo hi : Expr U ω)
  | expr (e : Expr U ω)

/-- `env_`: the innermost scope comes first. -/
abbrev Env (U : Type) := List (Str → Option (Val U))

/-- The registers that are bound to names. -/
abbrev Locals (U : Type) := Nat → Val U

/-- A `for`-`in` statement; its body as the evaluator runs it, and as it is lowered. -/
structure Stmt (U ω : Type) where
  name : Str
  iterable : Iterable U ω
  exec : Env U → ω → Env U × ω
  code : Locals U → ω → Locals U × ω

/-- The numbers of a range. -/
def rangeElems {U : Type} (lo hi : Int64) : List (Val U) :=
  (List.range (hi.toInt - lo.toInt + 1).toNat).map fun (n : Nat) =>
    .int (Int64.ofInt (lo.toInt + (n : Int)))

/-- What a value gives when it is iterated. -/
def elems {U : Type} : Val U → List (Val U)
  | .range lo hi => rangeElems lo hi
  | .array xs => xs
  | _ => []

variable {U ω : Type}

/-! ### The evaluator -/

/-- `localLookup`. -/
def localLookup (env : Env U) (x : Str) : Val U := (env.findSome? (· x)).getD .void

/-- `env_.back()[name] = v`. -/
def bind (name : Str) (v : Val U) : Env U → Env U
  | [] => [fun x => if x = name then some v else none]
  | frame :: env => (fun x => if x = name then some v else frame x) :: env

/-- `Evaluator::eval`. -/
def evalExpr (env : Env U) (w : ω) : Expr U ω → Val U × ω
  | .name x => (localLookup env x, w)
  | .other value => value (localLookup env) w

/-- `Evaluator::eval` of what is iterated. -/
def evalIterable (env : Env U) (w : ω) : Iterable U ω → Val U × ω
  | .range lo hi =>
    let (a, w) := evalExpr env w lo
    let (b, w) := evalExpr env w hi
    (.range a.i b.i, w)
  | .expr e => evalExpr env w e

/-- The loop over a `Range`; the largest number wraps around to the smallest. -/
def rangeLoop (s : Stmt U ω) (hi : Int64) :
    Nat → Int64 → Env U → ω → List (Val U) → Option (List (Val U))
  | 0, _, _, _, _ => none
  | n + 1, k, env, w, visits =>
    if k ≤ hi then
      let env := bind s.name (.int k) env
      let (env', w) := s.exec env w
      rangeLoop s hi n (k + 1) env' w (visits ++ [localLookup env s.name])
    else some visits

/-- The loop over an array. -/
def arrayLoop (s : Stmt U ω) : List (Val U) → Env U → ω → List (Val U) → List (Val U)
  | [], _, _, visits => visits
  | x :: xs, env, w, visits =>
    let env := bind s.name x env
    let (env', w) := s.exec env w
    arrayLoop s xs env' w (visits ++ [localLookup env s.name])

/-- `Evaluator::exec` of a loop: what it visits, if it ends. -/
def evalForIn (s : Stmt U ω) (n : Nat) (env : Env U) (w : ω) : Option (List (Val U)) :=
  let (iter, w) := evalIterable env w s.iterable
  let env := (fun _ => none) :: env
  match iter with
  | .range lo hi => rangeLoop s hi n lo env w []
  | .array xs => some (arrayLoop s xs env w [])
  | _ => some []

/-! ### The lowered program -/

/-- A register: one that a name is bound to, or one that only the loop knows. -/
inductive Reg where
  | local (n : Nat)
  | temp (n : Nat)
deriving DecidableEq

/-- `struct Inst`, for a loop.  `compute` stands for the code of an expression, `body` for that of
the body. -/
inductive Inst (U ω : Type) where
  | LoadConst (a : Reg) (v : Val U)
  | Move (a b : Reg)
  | Le (a b c : Reg)
  | Lt (a b c : Reg)
  | Plus (a b c : Reg)
  | JumpIfFalse (a : Reg) (target : Nat)
  | Jump (target : Nat)
  | IterLen (a b : Reg)
  | IterAt (a b c : Reg)
  | compute (a : Reg) (value : Locals U → ω → Val U × ω)
  | body

/-- The state of the interpreter, with what the loop has visited. -/
structure State (U ω : Type) where
  pc : Nat
  locals : Locals U
  temps : Nat → Val U
  world : ω
  visits : List (Val U)

/-- A register's value. -/
def State.get (st : State U ω) : Reg → Val U
  | .local n => st.locals n
  | .temp n => st.temps n

/-- A register is set, and the next instruction comes. -/
def State.set (st : State U ω) (r : Reg) (v : Val U) : State U ω :=
  match r with
  | .local n => { st with pc := st.pc + 1, locals := Function.update st.locals n v }
  | .temp n => { st with pc := st.pc + 1, temps := Function.update st.temps n v }

/-- `iterLen`. -/
def iterLen : Val U → Int64
  | .array xs => Int64.ofNat xs.length
  | .range lo hi => if hi ≥ lo then hi - lo + 1 else 0
  | _ => 0

/-- `iterAt`. -/
def iterAt (iter : Val U) (idx : Int64) : Val U :=
  match iter with
  | .array xs => if 0 ≤ idx ∧ idx < Int64.ofNat xs.length then (xs[idx.toInt.toNat]?).getD .void
      else .void
  | .range lo _ => .int (lo + idx)
  | _ => .void

/-- One instruction.  Operands of arithmetic are numbers here, by type; a register that is not set
counts as zero. -/
def step (s : Stmt U ω) (elem : Nat) (code : List (Inst U ω)) (st : State U ω) :
    Option (State U ω) :=
  match code[st.pc]? with
  | none => none
  | some (.LoadConst a v) => some (st.set a v)
  | some (.Move a b) => some (st.set a (st.get b))
  | some (.Le a b c) => some (st.set a (.bool ((st.get b).i ≤ (st.get c).i)))
  | some (.Lt a b c) => some (st.set a (.bool ((st.get b).i < (st.get c).i)))
  | some (.Plus a b c) => some (st.set a (.int ((st.get b).i + (st.get c).i)))
  | some (.JumpIfFalse a target) =>
    some { st with pc := if (st.get a).b then st.pc + 1 else target }
  | some (.Jump target) => some { st with pc := target }
  | some (.IterLen a b) => some (st.set a (.int (iterLen (st.get b))))
  | some (.IterAt a b c) => some (st.set a (iterAt (st.get b) (st.get c).i))
  | some (.compute a value) =>
    let (v, w) := value st.locals st.world
    some { st.set a v with world := w }
  | some .body =>
    let (locals, w) := s.code st.locals st.world
    some { st with
      pc := st.pc + 1
      locals := locals
      world := w
      visits := st.visits ++ [st.locals elem] }

/-- The interpreter; none if the steps do not suffice. -/
def run (s : Stmt U ω) (elem : Nat) (code : List (Inst U ω)) : Nat → State U ω → Option (State U ω)
  | 0, _ => none
  | n + 1, st =>
    match step s elem code st with
    | none => some st
    | some st' => run s elem code n st'

/-- `scopes_`, as `findLocal` looks names up. -/
abbrev Scopes := Str → Option Nat

/-- The values of names, by their registers. -/
def values (sc : Scopes) (locals : Locals U) (x : Str) : Val U :=
  match sc x with
  | some r => locals r
  | none => .void

/-- `lowerExpr`: a name that is a local is its register. -/
def lowerExpr (sc : Scopes) (t : Nat) : Expr U ω → List (Inst U ω) × Reg
  | .name x =>
    match sc x with
    | some r => ([], .local r)
    | none => ([.LoadConst (.temp t) .void], .temp t)
  | .other value => ([.compute (.temp t) fun locals w => value (values sc locals) w], .temp t)

/-- The counted loop, after `p` instructions that compute the bounds. -/
def countedLoop (elem : Nat) (lo hi : Reg) (p : Nat) : List (Inst U ω) :=
  [ .Move (.local elem) lo,
    .Move (.temp 2) hi,
    .Le (.temp 3) (.local elem) (.temp 2),
    .JumpIfFalse (.temp 3) (p + 8),
    .body,
    .LoadConst (.temp 4) (.int 1),
    .Plus (.local elem) (.local elem) (.temp 4),
    .Jump (p + 2) ]

/-- The loop over an index, after `p` instructions that compute what is iterated. -/
def indexLoop (elem : Nat) (iter : Reg) (p : Nat) : List (Inst U ω) :=
  [ .IterLen (.temp 1) iter,
    .LoadConst (.temp 2) (.int 0),
    .Lt (.temp 3) (.temp 2) (.temp 1),
    .JumpIfFalse (.temp 3) (p + 9),
    .IterAt (.local elem) iter (.temp 2),
    .body,
    .LoadConst (.temp 4) (.int 1),
    .Plus (.temp 2) (.temp 2) (.temp 4),
    .Jump (p + 2) ]

/-- `lowerStmt` of a loop; `elem` is the register of the loop variable.  The name of a counted loop
is bound before its bounds are lowered. -/
def lowerForIn (s : Stmt U ω) (sc : Scopes) (elem : Nat) : List (Inst U ω) :=
  match s.iterable with
  | .range lo hi =>
    let sc : Scopes := fun x => if x = s.name then some elem else sc x
    let (loCode, loReg) := lowerExpr sc 0 lo
    let (hiCode, hiReg) := lowerExpr sc 1 hi
    loCode ++ hiCode ++ countedLoop elem loReg hiReg (loCode.length + hiCode.length)
  | .expr e =>
    let (code, iter) := lowerExpr sc 0 e
    code ++ indexLoop elem iter code.length

/-! ### Visiting a snapshot -/

/-- The evaluator visits the elements, and ends. -/
def EvalVisits (s : Stmt U ω) (env : Env U) (w : ω) (xs : List (Val U)) : Prop :=
  Settles (fun n => evalForIn s n env w) xs

/-- A state of the lowered program comes to an end, and has visited the elements then. -/
def Visits (s : Stmt U ω) (elem : Nat) (code : List (Inst U ω)) (st : State U ω)
    (xs : List (Val U)) : Prop :=
  Settles (fun n => (run s elem code n st).map State.visits) xs

/-- The lowered program visits the elements, and ends. -/
def RunVisits (s : Stmt U ω) (sc : Scopes) (elem : Nat) (locals : Locals U) (w : ω)
    (xs : List (Val U)) : Prop :=
  ∀ temps, Visits s elem (lowerForIn s sc elem) ⟨0, locals, temps, w, []⟩ xs

/-! ### The conditions -/

/-- The value of an expression in the lowered program. -/
def loweredValue (sc : Scopes) (locals : Locals U) (w : ω) : Expr U ω → Val U × ω
  | .name x => (values sc locals x, w)
  | .other value => value (values sc locals) w

/-- The bounds of a counted loop, as they come out where its name is bound already.  An upper bound
that is a name is read after the loop variable has been set to the lower one. -/
def boundsInside (s : Stmt U ω) (sc : Scopes) (elem : Nat) (locals : Locals U) (w : ω)
    (lo hi : Expr U ω) : Val U × Val U × ω :=
  let sc : Scopes := fun x => if x = s.name then some elem else sc x
  let (a, w) := loweredValue sc locals w lo
  let (b, w) := loweredValue sc locals w hi
  match hi with
  | .name x => (a, values sc (Function.update locals elem a) x, w)
  | .other _ => (a, b, w)

/-- The body, started with each of the numbers in turn, leaves the number in the loop variable; the
last time, a number whose successor is above the upper bound. -/
def Keeps (s : Stmt U ω) (elem : Nat) (top : Int64) : List (Val U) → Locals U → ω → Prop
  | [], _, _ => True
  | [k], locals, w =>
    top < ((s.code (Function.update locals elem k) w).1 elem).i + 1
  | k :: ks, locals, w =>
    ((s.code (Function.update locals elem k) w).1 elem).i = k.i ∧
      Keeps s elem top ks (s.code (Function.update locals elem k) w).1
        (s.code (Function.update locals elem k) w).2

/-- Before its turn comes, each element stands in its place in what the loop reads; `j` is the
number of the next turn. -/
def Holds (s : Stmt U ω) (elem : Nat) (src : Locals U → Val U) :
    List (Val U) → Int64 → Locals U → ω → Prop
  | [], _, _, _ => True
  | x :: xs, j, locals, w =>
    iterAt (src locals) j = x ∧
      Holds s elem src xs (j + 1) (s.code (Function.update locals elem x) w).1
        (s.code (Function.update locals elem x) w).2

/-- A counted loop from `lo` to `hi`: its bounds are the same where its name is bound, and its body
leaves the loop variable alone. -/
structure CountsFine (s : Stmt U ω) (elem : Nat) (locals : Locals U) (lo hi : Int64)
    (inside : Val U × Val U × ω) : Prop where
  empty : hi < lo → inside.2.1.i < inside.1.i
  lower : lo ≤ hi → inside.1 = .int lo
  upper : lo ≤ hi → hi ≤ inside.2.1.i
  keeps : lo ≤ hi → Keeps s elem inside.2.1.i (rangeElems lo hi) locals inside.2.2

/-- A loop over an index: the number of the elements is a number, and a local that is iterated keeps
each element until its turn. -/
structure IndexFine (s : Stmt U ω) (sc : Scopes) (elem : Nat) (locals : Locals U) (w : ω)
    (e : Expr U ω) (xs : List (Val U)) : Prop where
  length : xs.length < 2 ^ 63
  holds : ∀ x r, e = .name x → sc x = some r → Holds s elem (fun locals => locals r) xs 0 locals w

/-- The largest number is not in the range. -/
def EvalFine (iter : Val U) : Prop :=
  ∀ lo hi, iter = .range lo hi → lo ≤ hi → hi ≠ Int64.maxValue

/-- What the lowered program needs; `iter` is what the loop goes through. -/
def LoweredFine (s : Stmt U ω) (sc : Scopes) (elem : Nat) (locals : Locals U) (w : ω)
    (iter : Val U) : Prop :=
  match s.iterable with
  | .range lo hi => ∀ a b, iter = .range a b →
      CountsFine s elem locals a b (boundsInside s sc elem locals w lo hi)
  | .expr e => IndexFine s sc elem locals (loweredValue sc locals w e).2 e (elems iter)

end Leviathan.Ir.ForIn
