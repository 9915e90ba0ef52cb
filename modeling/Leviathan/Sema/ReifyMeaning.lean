import Leviathan.Sema.Reify

/-!
# What a reified lambda means

The closure and the tree are given a meaning over the same values and operators, whatever
these are (`Meaning`).  Results are options: `none` is a throw.

A captured expression is evaluated where the `Expr` is made, outside of the lambda; the
closure evaluates it in its body, where the parameters are in scope.  What makes the two
agree is said by `Captured`: which parts of a body become a `Bind`.
-/

namespace Leviathan.Sema.Reify

/-- The values of the language and what its operators do to them.  Operators, calls and
constructs receive the results of their operands, so that they may be lazy. -/
structure Meaning (V : Type) where
  lit : Literal → V
  isNone : V → Bool
  field : V → Ident → Option V
  un : Op → V → Option V
  short : Op → V → Option V
  bin : Op → V → V → Option V
  method : V → String → List (Option V) → Option V
  apply : Option V → List (Option V) → Option V
  qualified : Ex → Option V
  construct : Construct → List (Option V) → Option V

/-- The variables in scope. -/
structure Env (V : Type) where
  var : Ident → Option V
  this : Option V

variable {V : Type} (M : Meaning V)

namespace Meaning

/-- A member of a value.  `a?.x` of `None` is `None`; the checker refuses `a.x` where `a` may
be `None`. -/
def member (v : V) (x : Ident) : Option V :=
  if M.isNone v then some (M.lit .none) else M.field v x

/-- A binary operator, which may not need its right operand. -/
def binary (op : Op) (l r : Option V) : Option V :=
  l.bind fun a =>
    match M.short op a with
    | some v => some v
    | none => r.bind fun b => M.bin op a b

/-- A method call. -/
def call (recv : Option V) (name : String) (args : List (Option V)) : Option V :=
  recv.bind fun v => if M.isNone v then some (M.lit .none) else M.method v name args

end Meaning

mutual

/-- The value of an expression. -/
def eval (env : Env V) : Ex → Option V
  | .lit v => some (M.lit v)
  | .name x _ => if x.text = "None" then some (M.lit .none) else env.var x
  | .this => env.this
  | .member _ _ (.colon (some n)) _ => some (M.lit (.int n))
  | .member a x (.colon none) weak => M.qualified (.member a x (.colon none) weak)
  | .member a x _ _ => (eval env a).bind fun v => M.member v x
  | .unary op a => (eval env a).bind (M.un op)
  | .binary op a b => M.binary op (eval env a) (eval env b)
  | .method recv name _ args => M.call (eval env recv) name.text (evalAll env args)
  | .call callee args => M.apply (eval env callee) (evalAll env args)
  | .construct kind parts => M.construct kind (evalAll env parts)

def evalAll (env : Env V) : List Ex → List (Option V)
  | [] => []
  | e :: es => eval env e :: evalAll env es

end

/-- The operator that a node names. -/
def opNamed : String → Op
  | "==" => .eqEq
  | "!=" => .bangEq
  | "<" => .lt
  | ">" => .gt
  | "<=" => .le
  | ">=" => .ge
  | "&&" => .ampAmp
  | "||" => .pipePipe
  | "+" => .plus
  | "-" => .minus
  | "*" => .star
  | "/" => .slash
  | "%" => .percent
  | "!" => .bang
  | _ => .other

/-- What the tree is evaluated with: the records of the parameters, the binds array, and the
array of each receiver whose slot holds a marker. -/
structure Frame (V : Type) where
  recs : Ident → Option V
  binds : List V
  arrays : Nat → Option (Option V)

/-- The member path of a record. -/
def readPath (v : Option V) (path : List Ident) : Option V :=
  path.foldl (fun v x => v.bind fun v => M.member v x) v

mutual

/-- The value of a node. -/
def evalNode (f : Frame V) : Node → Option V
  | .field root path => readPath M (f.recs root) path
  | .lit v => some (M.lit v)
  | .bind slot => f.binds[slot]?
  | .un op e => (evalNode f e).bind (M.un (opNamed op))
  | .bin op l r => M.binary (opNamed op) (evalNode f l) (evalNode f r)
  | .call name (.bind slot) args =>
    M.call ((f.arrays slot).getD f.binds[slot]?) name (evalNodes f args)
  | .call name recv args => M.call (evalNode f recv) name (evalNodes f args)
  | .assign _ _ _ => none

def evalNodes (f : Frame V) : List Node → List (Option V)
  | [] => []
  | n :: ns => evalNode f n :: evalNodes f ns

end

/-- What a call of the closure, or a run over the tree, comes to: a value, or a store to a
member of a record. -/
inductive Result (V : Type)
  | value (v : V)
  | store (root : Ident) (path : List Ident) (v : V)

/-- Run over the whole tree. -/
def runTree (f : Frame V) : Node → Option (Result V)
  | .assign root path value => (evalNode M f value).map (.store root path)
  | n => (evalNode M f n).map .value

/-- A lambda with an expression for its body.  `None` names a type, so no parameter is called
so. -/
structure Lambda where
  params : List Ident
  named : ∀ p ∈ params, p.text ≠ "None"
  arity : Nat
  setShaped : Bool
  body : Ex

namespace Lambda

variable (lam : Lambda)

/-- The variables in scope of the body. -/
def callEnv (outer : Env V) (recs : Ident → Option V) : Env V where
  var x := if x ∈ lam.params then recs x else outer.var x
  this := outer.this

/-- The part of the body that is read: all of it, or the right side of an assignment. -/
def reads : Ex :=
  if lam.setShaped then
    match lam.body with
    | .binary .eq _ rhs => rhs
    | e => e
  else lam.body

/-- Call the closure. -/
def run (env : Env V) : Option (Result V) :=
  if lam.setShaped then
    match lam.body with
    | .binary .eq lhs rhs =>
      match paramRoot lam.params lhs with
      | some root => (eval M env rhs).map (.store root lhs.segs)
      | none => none
    | e => (eval M env e).map .value
  else (eval M env lam.body).map .value

end Lambda

/-- What a slot of the binds array is filled with. -/
def BindEntry.outcome (outer : Env V) (b : BindEntry) : Option V :=
  if b.storeNone then some (M.lit .none) else eval M outer b.capture

/-- The `Expr` is made: every captured expression has a value. -/
def Created (outer : Env V) (binds : List BindEntry) (vs : List V) : Prop :=
  List.Forall₂ (fun b v => b.outcome M outer = some v) binds vs

/-- The arrays of the receivers whose slots hold a marker. -/
def arraysOf (env : Env V) (binds : List BindEntry) (slot : Nat) : Option (Option V) :=
  match binds[slot]? with
  | some b => if b.storeNone then some (eval M env b.capture) else none
  | none => none

/-! ### Variables -/

mutual

/-- The variables that an expression reads. -/
def Ex.vars : Ex → List Ident
  | .lit _ => []
  | .name x _ => if x.text = "None" then [] else [x]
  | .this => []
  | .member _ _ (.colon _) _ => []
  | .member a _ _ _ => a.vars
  | .unary _ a => a.vars
  | .binary _ a b => a.vars ++ b.vars
  | .method recv _ _ args => recv.vars ++ varsAll args
  | .call callee args => callee.vars ++ varsAll args
  | .construct _ parts => varsAll parts

def varsAll : List Ex → List Ident
  | [] => []
  | e :: es => e.vars ++ varsAll es

end

mutual

/-- An expression depends on its variables only. -/
theorem eval_congr {env env' : Env V} (hthis : env.this = env'.this) :
    ∀ e : Ex, (∀ x ∈ e.vars, env.var x = env'.var x) → eval M env e = eval M env' e
  | .lit _, _ => rfl
  | .name x weak, h => by
    unfold eval
    by_cases hx : x.text = "None"
    · rw [if_pos hx, if_pos hx]
    · rw [if_neg hx, if_neg hx]
      refine h x ?_
      unfold Ex.vars
      rw [if_neg hx]
      exact List.mem_singleton.mpr rfl
  | .this, _ => hthis
  | .member a x (.colon (some n)) weak, _ => rfl
  | .member a x (.colon none) weak, _ => rfl
  | .member a x .dot weak, h => by
    unfold eval
    rw [eval_congr hthis a h]
  | .member a x .optChain weak, h => by
    unfold eval
    rw [eval_congr hthis a h]
  | .unary op a, h => by
    unfold eval
    rw [eval_congr hthis a h]
  | .binary op a b, h => by
    unfold eval
    rw [eval_congr hthis a fun x hx => h x (List.mem_append_left _ hx),
      eval_congr hthis b fun x hx => h x (List.mem_append_right _ hx)]
  | .method recv name opt args, h => by
    unfold eval
    rw [eval_congr hthis recv fun x hx => h x (List.mem_append_left _ hx),
      evalAll_congr hthis args fun x hx => h x (List.mem_append_right _ hx)]
  | .call callee args, h => by
    unfold eval
    rw [eval_congr hthis callee fun x hx => h x (List.mem_append_left _ hx),
      evalAll_congr hthis args fun x hx => h x (List.mem_append_right _ hx)]
  | .construct kind parts, h => by
    unfold eval
    rw [evalAll_congr hthis parts h]

theorem evalAll_congr {env env' : Env V} (hthis : env.this = env'.this) :
    ∀ es : List Ex, (∀ x ∈ varsAll es, env.var x = env'.var x) →
      evalAll M env es = evalAll M env' es
  | [], _ => rfl
  | e :: es, h => by
    unfold evalAll
    rw [eval_congr hthis e fun x hx => h x (List.mem_append_left _ hx),
      evalAll_congr hthis es fun x hx => h x (List.mem_append_right _ hx)]

end

/-! ### Chains -/

theorem readPath_snoc (v : Option V) (path : List Ident) (x : Ident) :
    readPath M v (path ++ [x]) = (readPath M v path).bind fun v => M.member v x := by
  unfold readPath
  rw [List.foldl_append]
  rfl

/-- A chain that is rooted at a variable and has no `::` reads its members one after the
other. -/
theorem eval_chain (env : Env V) {x : Ident} (hx : x.text ≠ "None") :
    ∀ (e : Ex) {weak : Bool}, e.root = .name x weak → e.anyColon = false →
      eval M env e = readPath M (env.var x) e.segs
  | .name y weak', _, hroot, _ => by
    cases hroot
    unfold eval
    rw [if_neg hx]
    rfl
  | .member a y .dot _, _, hroot, hcolon => by
    unfold eval
    rw [eval_chain env hx a hroot hcolon]
    exact (readPath_snoc M _ _ _).symm
  | .member a y .optChain _, _, hroot, hcolon => by
    unfold eval
    rw [eval_chain env hx a hroot hcolon]
    exact (readPath_snoc M _ _ _).symm
  | .member _ _ (.colon _) _, _, _, hcolon => by cases hcolon
  | .lit _, _, hroot, _ => by cases hroot
  | .this, _, hroot, _ => by cases hroot
  | .unary _ _, _, hroot, _ => by cases hroot
  | .binary _ _ _, _, hroot, _ => by cases hroot
  | .method _ _ _ _, _, hroot, _ => by cases hroot
  | .call _ _, _, hroot, _ => by cases hroot
  | .construct _ _, _, hroot, _ => by cases hroot

end Leviathan.Sema.Reify
