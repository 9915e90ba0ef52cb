import Leviathan.Frontend.Lexer

/-!
# The ownership analysis

`analyzeFn` keeps, for each register of a function, the allocation sites and the parameters that
it may hold, and runs over the code until these sets are stable; then it marks the sites and the
parameters that flow into a sink.  What it finds about the parameters is the function's summary.
`analyzeOwnership` runs `analyzeFn` over all functions, again and again, because a call uses the
summary of its callee: until a round changes no summary, or for 32 rounds.

A site is its `pc`, a parameter `p` is `-(p + 1)`.  A `std::vector<bool>` of a summary is the set
of the positions that are true.
-/

namespace Leviathan.Ir

/-- `enum class Op`. -/
inductive Op where
  | LoadConst | Default | Move | MoveClear | CopyVal | Arith | Not | Neg
  | Jump | JumpIfFalse | JumpIfTrue | Ret | RetVoid | Throw
  | Call | CallDyn | CallValue | CallNativeFn
  | NewObject | GetMember | SetMember | RawGet | RawSet | RawGetWeak | RawSetWeak
  | NewArray | NewArraySized | NewMap | NewBlock | NewBlockStr | MakeRange
  | GetIndex | IndexStore | IterLen | IterAt | ColGet | IsType | Await | LoadGlobal | StoreGlobal
  | MakeClosure | CaptureVar | LoadCapture
  | Print | PrintNl | VFree
deriving DecidableEq, Repr

/-- `struct Inst`; `symIsValue` says that `sym` is set and a value struct. -/
structure Inst where
  op : Op
  a : Nat := 0
  b : Nat := 0
  c : Nat := 0
  d : Nat := 0
  tk : Frontend.TokenKind := .End
  sname : Str := []
  symIsValue : Bool := false
  decl : Option Nat := none
deriving DecidableEq, Repr

/-- `struct IrFunction`. -/
structure IrFunction where
  nparams : Nat := 0
  nregs : Nat := 0
  code : List Inst := []
deriving Repr

/-- `struct IrModule`; a declaration is a number. -/
structure IrModule where
  functions : List IrFunction := []
  byDecl : List (Nat × Nat) := []
deriving Repr

/-- A function of the module. -/
def IrModule.function (mod : IrModule) (fi : Nat) : IrFunction := (mod.functions[fi]?).getD {}

/-- `isAlloc`. -/
def isAlloc : Op → Bool
  | .NewObject | .NewArray | .NewArraySized | .NewMap | .MakeRange | .MakeClosure => true
  | _ => false

/-- A definite copy of a value struct. -/
def Inst.cvAlloc (i : Inst) : Bool := i.op = .CopyVal && i.c = 1

/-- `struct Summary`. -/
structure Summary where
  paramEscapes : Finset Nat := ∅
  paramToRet : Finset Nat := ∅
deriving DecidableEq

/-- `struct NativeInfo`. -/
structure NativeInfo where
  selfToResult : Bool := false
  argsToResult : Bool := false

/-- `nativeInfo`. -/
def nativeInfo (name : Str) : Option NativeInfo :=
  if name ∈ ["add".toList, "with".toList] then some ⟨true, true⟩
  else if name = "without".toList then some ⟨true, false⟩
  else if name ∈ ["length", "at", "has", "keys", "values", "isEmpty", "contains", "indexOf",
      "toString", "charAt", "subStr", "toUpper", "toLower", "trim", "startsWith", "endsWith",
      "abs", "max", "min"].map String.toList then some {}
  else none

/-- The callee of a `CallDyn` or an `Arith`, by its declaration. -/
def IrModule.callee (mod : IrModule) (i : Inst) : Option Nat :=
  i.decl.bind fun d => mod.byDecl.lookup d

/-- The state of `analyzeFn`: the sets of the registers, the escapes of the sites, the summaries,
and the two flags. -/
structure Flow where
  regs : Nat → Finset Int
  esc : Nat → Option Str
  sums : Nat → Summary
  changed : Bool := false
  summaryChanged : Bool := false

/-- The id of a parameter. -/
def paramId (p : Nat) : Int := -((p : Int) + 1)

section AnalyzeFn

variable (mod : IrModule) (fi : Nat)

/-- The lambda `escapeSet`: sites of the set get a reason, parameters are marked. -/
def escapeSet (s : Finset Int) (why : Str) (w : Flow) : Flow :=
  let sum := w.sums fi
  let marked := (Finset.range (mod.function fi).nparams).filter fun p =>
    paramId p ∈ s ∧ p ∉ sum.paramEscapes
  { w with
    esc := fun pc => if w.esc pc = none ∧ (pc : Int) ∈ s then some why else w.esc pc
    sums := Function.update w.sums fi { sum with paramEscapes := sum.paramEscapes ∪ marked }
    summaryChanged := w.summaryChanged || marked ≠ ∅ }

/-- The lambda `merge`. -/
def merge (into : Nat) (other : Finset Int) (w : Flow) : Flow :=
  { w with
    regs := Function.update w.regs into (w.regs into ∪ other)
    changed := w.changed || ¬other ⊆ w.regs into }

/-- The lambda `callSinks`, with the aliases that it collects. -/
def callSinks (callee base argc : Nat) (w : Flow) : Flow × Finset Int :=
  (List.range argc).foldl (fun (acc : Flow × Finset Int) k =>
    let cs := acc.1.sums callee
    (if k ∈ cs.paramEscapes then
        escapeSet mod fi (acc.1.regs (base + k)) "passed to a retaining callee".toList acc.1
      else acc.1,
      if k ∈ cs.paramToRet then acc.2 ∪ acc.1.regs (base + k) else acc.2)) (w, ∅)

/-- The site of an id holds a value struct. -/
def valueStructSite (id : Int) : Bool :=
  match (mod.function fi).code[id.toNat]? with
  | some si => decide (0 ≤ id) && (si.cvAlloc || (si.op = .NewObject && si.symIsValue))
  | none => false

/-- The lambda `argIsValueStruct`. -/
def argIsValueStruct (s : Finset Int) : Bool :=
  s ≠ ∅ ∧ ∀ id ∈ s, valueStructSite mod fi id = true

/-- One instruction of the local fixpoint. -/
def flowInst (w : Flow) (pi : Nat × Inst) : Flow :=
  let pc := pi.1
  let i := pi.2
  if isAlloc i.op || i.cvAlloc then
    let w := merge i.a {(pc : Int)} w
    -- elements alias the array
    let w := if i.op = .NewArray then
        (List.range i.d).foldl (fun w k => merge i.a (w.regs (i.c + k)) w) w
      else w
    -- the fill value aliases the array
    if i.op = .NewArraySized ∧ i.d = 2 then merge i.a (w.regs (i.c + 1)) w else w
  else match i.op with
    | .Move | .MoveClear | .CopyVal | .IndexStore => merge i.a (w.regs i.b) w
    | .Call =>
      let (w, alias_) := callSinks mod fi i.b i.c i.d w
      merge i.a alias_ w
    | .CallDyn =>
      match mod.callee i with
      | some callee =>
        let (w, alias_) := callSinks mod fi callee i.c i.d w
        merge i.a alias_ w
      | none =>
        match nativeInfo i.sname with
        | some ni =>
          let self := if ni.selfToResult then w.regs i.c else ∅
          let args := if ni.argsToResult then
              (List.range i.d).foldl (fun acc k =>
                if 1 ≤ k ∧ ¬argIsValueStruct mod fi (w.regs (i.c + k)) then
                  acc ∪ w.regs (i.c + k)
                else acc) ∅
            else ∅
          merge i.a (self ∪ args) w
        | none => w
    | _ => w

/-- One pass of the local fixpoint. -/
def flowPass (w : Flow) : Flow :=
  (mod.function fi).code.zipIdx.foldl (fun w ip => flowInst mod fi w (ip.2, ip.1))
    { w with changed := false }

/-- The `while (changed)` of the local fixpoint. -/
def flowLoop : Nat → Flow → Flow
  | 0, w => w
  | fuel + 1, w =>
    let w := flowPass mod fi w
    if w.changed then flowLoop fuel w else w

/-- The escapes of the arguments of a call, by the callee's summary. -/
def escapeArgs (callee base argc : Nat) (w : Flow) : Flow :=
  (List.range argc).foldl (fun w k =>
    if k ∈ (w.sums callee).paramEscapes then
      escapeSet mod fi (w.regs (base + k)) "passed to a retaining callee".toList w
    else w) w

/-- The escapes of all the arguments of a call. -/
def escapeAll (base argc : Nat) (why : Str) (w : Flow) : Flow :=
  (List.range argc).foldl (fun w k => escapeSet mod fi (w.regs (base + k)) why w) w

/-- The sink `Ret`: sites escape, parameters flow to the result. -/
def returnSet (s : Finset Int) (w : Flow) : Flow :=
  let sum := w.sums fi
  let marked := (Finset.range (mod.function fi).nparams).filter fun p =>
    paramId p ∈ s ∧ p ∉ sum.paramToRet
  { w with
    esc := fun pc => if w.esc pc = none ∧ (pc : Int) ∈ s then some "returned to caller".toList
      else w.esc pc
    sums := Function.update w.sums fi { sum with paramToRet := sum.paramToRet ∪ marked }
    summaryChanged := w.summaryChanged || marked ≠ ∅ }

/-- One instruction of the sink pass. -/
def sinkInst (w : Flow) (i : Inst) : Flow :=
  match i.op with
  | .Ret => returnSet mod fi (w.regs i.a) w
  | .Throw => escapeSet mod fi (w.regs i.a) "thrown".toList w
  | .SetMember | .RawSet => escapeSet mod fi (w.regs i.a) "stored in an object".toList w
  | .IndexStore => escapeSet mod fi (w.regs i.d) "stored by index".toList w
  | .CaptureVar => escapeSet mod fi (w.regs i.b) "captured by a closure".toList w
  | .StoreGlobal => escapeSet mod fi (w.regs i.a) "stored in a global".toList w
  | .CallNativeFn => escapeAll mod fi i.c i.d "passed to a native".toList w
  | .Call => escapeArgs mod fi i.b i.c i.d w
  | .CallDyn =>
    match mod.callee i with
    | some callee => escapeArgs mod fi callee i.c i.d w
    | none =>
      if (nativeInfo i.sname).isNone then
        escapeAll mod fi i.c i.d "passed to an unknown callee".toList w
      else w
  | .CallValue => escapeAll mod fi i.c i.d "passed through a function value".toList w
  | .Arith =>
    match i.decl with
    | none =>
      -- an operator that may dispatch to a method, with an unknown target
      if (w.regs i.b ≠ ∅ ∨ w.regs i.c ≠ ∅) ∧ i.tk ≠ .End then
        escapeSet mod fi (w.regs i.c) "operand of an unresolved operator".toList
          (escapeSet mod fi (w.regs i.b) "operand of an unresolved operator".toList w)
      else w
    | some _ =>
      match mod.callee i with
      | some callee =>
        let w := if 0 ∈ (w.sums callee).paramEscapes then
            escapeSet mod fi (w.regs i.b) "passed to a retaining operator".toList w
          else w
        if 1 ∈ (w.sums callee).paramEscapes then
          escapeSet mod fi (w.regs i.c) "passed to a retaining operator".toList w
        else w
      | none => w
  | _ => w

/-- The registers before the first pass: the parameters. -/
def entryRegs (fn : IrFunction) (r : Nat) : Finset Int :=
  if r < fn.nparams ∧ r < fn.nregs then {paramId r} else ∅

/-- More passes than the sets of one function can grow. -/
def flowFuel (fn : IrFunction) : Nat := fn.code.length * (fn.code.length + fn.nparams) + 1

/-- `analyzeFn`, from the summaries and the function's escapes. -/
def analyzeFn (sums : Nat → Summary) (esc : Nat → Option Str) : Flow :=
  let w := flowLoop mod fi (flowFuel (mod.function fi))
    { regs := entryRegs (mod.function fi), esc := esc, sums := sums }
  (mod.function fi).code.foldl (sinkInst mod fi) w

end AnalyzeFn

/-- `struct Analyzer`. -/
structure Analyzer where
  summaries : Nat → Summary := fun _ => {}
  siteEscape : Nat → Nat → Option Str := fun _ _ => none

/-- One function of a round, with its escapes cleared. -/
def Analyzer.visit (mod : IrModule) (acc : Analyzer × Bool) (fi : Nat) : Analyzer × Bool :=
  let w := analyzeFn mod fi acc.1.summaries fun _ => none
  ({ summaries := w.sums, siteEscape := Function.update acc.1.siteEscape fi w.esc },
    acc.2 || w.summaryChanged)

/-- One round over all functions, and whether it changed a summary. -/
def Analyzer.round (mod : IrModule) (a : Analyzer) : Analyzer × Bool :=
  (List.range mod.functions.length).foldl (Analyzer.visit mod) (a, false)

/-- The rounds of `analyzeOwnership`. -/
def Analyzer.run (mod : IrModule) : Nat → Analyzer → Analyzer
  | 0, a => a
  | rounds + 1, a =>
    let (a', changed) := a.round mod
    if changed then run mod rounds a' else a'

/-- The most rounds that `analyzeOwnership` makes. -/
def maxRounds : Nat := 32

/-- The analyzer when the rounds of `analyzeOwnership` are over. -/
def analyzed (mod : IrModule) : Analyzer := Analyzer.run mod maxRounds {}

/-- `struct AllocSite`. -/
structure AllocSite where
  fn : Nat
  pc : Nat
  op : Op
  escapes : Bool := false
  reason : Str := []
deriving Repr

/-- `struct OwnershipInfo`. -/
structure OwnershipInfo where
  sites : List AllocSite := []
  scopeOwned : List (Nat × Nat) := []
deriving Repr

/-- One allocation site of the report. -/
def reportSite (a : Analyzer) (fi : Nat) (info : OwnershipInfo) (ip : Inst × Nat) : OwnershipInfo :=
  let i := ip.1
  let pc := ip.2
  if isAlloc i.op || i.cvAlloc then
    let reason := a.siteEscape fi pc
    let valueStruct := (i.op = .NewObject && i.symIsValue) || i.cvAlloc
    -- a value struct is copied by the callee that it is passed to
    let realEscape := match reason with
      | some why => !("passed t".toList.isPrefixOf why)
      | none => false
    let own := if valueStruct then !realEscape else reason.isNone
    { sites := info.sites ++ [if own then { fn := fi, pc := pc, op := i.op }
        else { fn := fi, pc := pc, op := i.op, escapes := true, reason := reason.getD [] }]
      scopeOwned := if own then info.scopeOwned ++ [(fi, pc)] else info.scopeOwned }
  else info

/-- `analyzeOwnership`. -/
def analyzeOwnership (mod : IrModule) : OwnershipInfo :=
  (List.range mod.functions.length).foldl (fun info fi =>
    (mod.function fi).code.zipIdx.foldl (reportSite (analyzed mod) fi) info) {}

end Leviathan.Ir
