import Leviathan.Sema.Shape

/-!
# Property accessors

A read or a write of a property runs the property's accessor, if the object's class declares one or
inherits it; inside an accessor the bare name of the property is the field itself.

The evaluator looks the accessor up at each access, unless `rawField_` names the property
(`memberRead`, `memberWrite`).  The lowerer decides for each access in the source whether to emit
`GetMember` and `SetMember`, which look the accessor up, or an access to the slot itself; it asks
`packedSlot` whether an accessor can stand in the way.

A run is a sequence of accesses, calls and returns.  Both engines keep a stack of the code that is
running, and so does the language: `specStep` says when an accessor runs.  Which object an access
goes to does not matter to any of them, only its class does.
-/

namespace Leviathan.Ir.Accessors

open Leviathan.Sema

/-- The classes of a program; members are those of declared classes. -/
structure Hierarchy (σ ι : Type) extends ClassTable σ ι where
  class_of_member : ∀ sym, ∀ m ∈ members sym, kind sym = .Class ∧ (decl sym).isSome

namespace Hierarchy

variable {σ ι : Type} [DecidableEq ι] (p : Hierarchy σ ι)

/-! ### Looking accessors up -/

/-- An accessor of this name, as `packedSlot` asks for it. -/
def isAccessor (name : Str) (m : Member ι) : Bool := (m.isGet || m.isSet) && m.name = name

/-- A getter, or a setter, of this name. -/
def isWanted (name : Str) (wantGet : Bool) (m : Member ι) : Bool :=
  ((wantGet && m.isGet) || (!wantGet && m.isSet)) && m.name = name

/-- The accessor that a class declares. -/
def ownAccessor (name : Str) (wantGet : Bool) (cls : ι) : Option (Member ι) :=
  if (p.decl cls).isSome then (p.members cls).find? (isWanted name wantGet) else none

/-- `findAccessor`, over at most `n` generations of bases. -/
def findAccessorIn (name : Str) (wantGet : Bool) : Nat → ι → Option (ι × Member ι)
  | 0, cls => (p.ownAccessor name wantGet cls).map (cls, ·)
  | n + 1, cls =>
    match p.ownAccessor name wantGet cls with
    | some m => some (cls, m)
    | none => (p.baseSymbols cls).findSome? (findAccessorIn name wantGet n)

/-- `findAccessor`: the accessor, and the class that declares it. -/
def findAccessor (cls : ι) (name : Str) (wantGet : Bool) : Option (ι × Member ι) :=
  p.findAccessorIn name wantGet (p.rank cls) cls

omit [DecidableEq ι] in
/-- What is found is declared by the class or above it. -/
theorem findAccessorIn_spec {name : Str} {wantGet : Bool} {n : Nat} {cls c : ι} {m : Member ι}
    (h : p.findAccessorIn name wantGet n cls = some (c, m)) :
    Relation.ReflTransGen p.Base cls c ∧ m ∈ p.members c ∧ isWanted name wantGet m = true := by
  have hown : ∀ {cls}, (p.ownAccessor name wantGet cls = some m) →
      m ∈ p.members cls ∧ isWanted name wantGet m = true := by
    intro cls h
    unfold ownAccessor at h
    split_ifs at h
    exact ⟨List.mem_of_find?_eq_some h, List.find?_some h⟩
  induction n generalizing cls with
  | zero =>
    obtain ⟨m', hm', heq⟩ := Option.map_eq_some_iff.mp h
    obtain ⟨rfl, rfl⟩ := Prod.mk.inj heq
    exact ⟨.refl, hown hm'⟩
  | succ n ih =>
    rw [findAccessorIn] at h
    cases hcls : p.ownAccessor name wantGet cls with
    | some m' =>
      rw [hcls] at h
      obtain ⟨rfl, rfl⟩ := Prod.mk.inj (Option.some.inj h)
      exact ⟨.refl, hown hcls⟩
    | none =>
      rw [hcls] at h
      obtain ⟨base, hbase, hfound⟩ := List.exists_of_findSome?_eq_some h
      obtain ⟨habove, hm⟩ := ih hfound
      exact ⟨.head hbase habove, hm⟩

theorem findAccessor_spec {cls c : ι} {name : Str} {wantGet : Bool} {m : Member ι}
    (h : p.findAccessor cls name wantGet = some (c, m)) :
    p.isSubclass cls c = true ∧ m ∈ p.members c ∧ isWanted name wantGet m = true := by
  obtain ⟨habove, hm⟩ := p.findAccessorIn_spec h
  exact ⟨p.isSubclass_iff.mpr habove, hm⟩

/-! ### Slots -/

/-- `fieldSlotOf`; `none` where it gives -1. -/
def fieldSlotOf (cls : ι) (key : Str) : Option Nat :=
  ((p.shape cls).filter (fun s => !s.isMethod)).findIdx? (fun s => !s.distinct && s.name = key)

/-- A class at which `packedSlot` goes on. -/
def packs (key : Str) (requireNoAccessor : Bool) (slot : Nat) (sub : ι) : Bool :=
  p.fieldSlotOf sub key = some slot && !(requireNoAccessor && (p.members sub).any (isAccessor key))

/-- `packedSlot`: the slot plus one, or zero for the path that looks accessors up. -/
def packedSlot (cls : ι) (key : Str) (requireNoAccessor : Bool) : Nat :=
  match p.fieldSlotOf cls key with
  | none => 0
  | some slot =>
    if p.symbols.all (fun sub =>
        !(p.kind sub = .Class && p.isSubclass sub cls) || p.packs key requireNoAccessor slot sub)
    then slot + 1
    else 0

/-- `classHasMember`. -/
def classHasMember (cls : ι) (name : Str) : Bool :=
  (p.shape cls).any (fun s => s.name = name) || (p.members cls).any (isAccessor name)

/-- The evaluator reads a bare name as a property if there is a field of that name. -/
def hasField (cls : ι) (name : Str) : Bool :=
  (p.shape cls).any (fun s => !s.isMethod && s.name = name)

/-- `weakField` of a bare name: its only field is weak. -/
def weakName (cls : ι) (name : Str) : Bool :=
  match (p.shape cls).filter (fun s => !s.isMethod && s.name = name) with
  | [s] => s.isWeak
  | _ => false

/-- `weakField` of a member access: its only slot is weak. -/
def weakMember (cls : ι) (name : Str) : Bool :=
  match (p.shape cls).filter (fun s => s.name = name) with
  | [s] => s.isWeak
  | _ => false

/-- `weakDirect`, from `weakField`: no accessor for what the class is known to be. -/
def weakDirect (weakField : Bool) (cls : ι) (name : Str) : Bool :=
  weakField && (p.findAccessor cls name true).isNone && (p.findAccessor cls name false).isNone

/-! ### Code that is running, and accesses -/

/-- The receiver of a member's code: its class, the class the code belongs to (`curClass_`), and
`thisClass_`. -/
structure Self where
  receiver : ι
  lexical : ι
  thisClass : ι
  inherits : p.isSubclass receiver lexical = true

/-- Code that is running.  `accessor` is `curAccessor_`: the property whose accessor it is.  The code
of a lambda is that of no accessor, also if the lambda stands in one. -/
structure Frame where
  self : Option p.Self
  accessor : Option Str

/-- The way to an object: a bare name, `this`, an expression of a class that is known or not, or an
element of an array that is kept in columns. -/
inductive Form (ι : Type) where
  | bare (isLocal : Bool)
  | self
  | member (receiver : ι) (known : Option ι)
  | element (cls : ι)

/-- A read or a write of a property. -/
structure Access (ι : Type) where
  name : Str
  write : Bool
  form : Form ι

/-- The code that is not in any member. -/
def main : p.Frame := ⟨none, none⟩

variable {p} in
/-- The class of the object. -/
def Frame.receiver (f : p.Frame) (a : Access ι) : Option ι :=
  match a.form with
  | .bare _ => f.self.map Self.receiver
  | .self => f.self.map Self.receiver
  | .member receiver _ => some receiver
  | .element cls => some cls

/-- The code of an accessor, where it is run on an object. -/
def accessorOn (receiver : ι) (name : Str) (wantGet : Bool) : Option p.Frame :=
  match h : p.findAccessor receiver name wantGet with
  | some (cls, _) => some ⟨some ⟨receiver, cls, receiver, (p.findAccessor_spec h).1⟩, some name⟩
  | none => none

/-- The accessor of the property, if it has one. -/
def accessorFrame (f : p.Frame) (a : Access ι) : Option p.Frame :=
  (f.receiver a).bind fun receiver => p.accessorOn receiver a.name (!a.write)

/-! ### Who asks for the accessor -/

/-- The language: always, except for the bare name of a property in its own accessor.  The name of
a local is not a property. -/
def specConsults (f : p.Frame) (a : Access ι) : Bool :=
  match a.form with
  | .bare isLocal => !isLocal && f.accessor ≠ some a.name
  | _ => true

/-- The evaluator: `memberRead`, `memberWrite`, and names (`eval`, `evalAssign`).  `rawField` is
`rawField_`, none if that is empty. -/
def evalConsults (rawField : Option Str) (f : p.Frame) (a : Access ι) : Bool :=
  match a.form with
  | .bare isLocal =>
    if a.write then !isLocal && rawField ≠ some a.name
    else rawField ≠ some a.name && !isLocal &&
      f.self.any (fun s => p.hasField s.thisClass a.name)
  | _ => rawField ≠ some a.name

/-- The instructions of an access. -/
inductive Op where
  | RawWeak
  | Raw
  | Column
  | Member
deriving DecidableEq

variable {p} in
/-- `weakDirect` of an access. -/
def Frame.weakDirect (f : p.Frame) (a : Access ι) : Bool :=
  match a.form with
  | .bare _ => f.self.any fun s => p.weakDirect (p.weakName s.lexical a.name) s.lexical a.name
  | .self => f.self.any fun s => p.weakDirect (p.weakMember s.lexical a.name) s.lexical a.name
  | .member _ known => known.any fun cls => p.weakDirect (p.weakMember cls a.name) cls a.name
  | .element cls => p.weakDirect (p.weakMember cls a.name) cls a.name

/-- The instruction of a bare name that is a member. -/
def nameOp (f : p.Frame) (s : p.Self) (a : Access ι) : Op :=
  let selfAcc : Bool := f.accessor = some a.name
  let slot := p.packedSlot s.lexical a.name (!selfAcc)
  if f.weakDirect a || (p.weakName s.lexical a.name && selfAcc) then .RawWeak
  else if selfAcc || 0 < slot then .Raw
  else .Member

/-- The instruction of an access; none for a name that is a local, or no member. -/
def lowerAccess (f : p.Frame) (a : Access ι) : Option Op :=
  match a.form with
  | .bare isLocal =>
    if isLocal then none
    else f.self.bind fun s =>
      if p.classHasMember s.lexical a.name then some (p.nameOp f s a) else none
  | .self =>
    some <|
      if f.weakDirect a then .RawWeak
      else if f.self.any (fun s => 0 < p.packedSlot s.lexical a.name true) then .Raw
      else .Member
  | .member _ _ => some (if f.weakDirect a then .RawWeak else .Member)
  | .element cls =>
    some <|
      if !a.write && 0 < p.packedSlot cls a.name true then .Column
      else if f.weakDirect a then .RawWeak
      else .Member

/-- The lowered program: `getMember` and `setMember` look the accessor up. -/
def lowConsults (f : p.Frame) (a : Access ι) : Bool := p.lowerAccess f a = some .Member

/-! ### Runs -/

/-- What happens in a run.  What is called is the code of a function, a method or a lambda. -/
inductive Event where
  | access (a : Access ι)
  | call (f : p.Frame) (h : f.accessor = none)
  | ret

variable {p}

/-- The code that is running now. -/
def top (stack : List p.Frame) : p.Frame := stack.headD p.main

/-- The property of the accessor that was entered last and has not returned. -/
def running (stack : List p.Frame) : Option Str := stack.findSome? Frame.accessor

/-- An event, where accessors are asked for as told. -/
def stepWith (consults : List p.Frame → Access ι → Bool) (stack : List p.Frame) :
    p.Event → List p.Frame
  | .access a =>
    if consults stack a then
      match p.accessorFrame (top stack) a with
      | some f => f :: stack
      | none => stack
    else stack
  | .call f _ => f :: stack
  | .ret => stack.tail

/-- An event, as the language has it. -/
def specStep : List p.Frame → p.Event → List p.Frame :=
  stepWith fun stack a => p.specConsults (top stack) a

/-- An event, as the lowered program takes it. -/
def lowStep : List p.Frame → p.Event → List p.Frame :=
  stepWith fun stack a => p.lowConsults (top stack) a

variable (p) in
/-- The state of the evaluator: `rawField_`, and the code that is running, each with what is put
back into `rawField_` when an accessor returns. -/
structure EvalState where
  rawField : Option Str
  calls : List (p.Frame × Option (Option Str))

/-- The code that is running. -/
def EvalState.stack (st : p.EvalState) : List p.Frame := st.calls.map Prod.fst

/-- An event in the evaluator. -/
def evalStep (st : p.EvalState) : p.Event → p.EvalState
  | .access a =>
    if p.evalConsults st.rawField (top st.stack) a then
      match p.accessorFrame (top st.stack) a with
      | some f => ⟨some a.name, (f, some st.rawField) :: st.calls⟩
      | none => st
    else st
  | .call f _ => ⟨st.rawField, (f, none) :: st.calls⟩
  | .ret =>
    match st.calls with
    | [] => st
    | (_, saved) :: calls => ⟨saved.getD st.rawField, calls⟩

variable (p) in
/-- The start of a run. -/
def start : p.EvalState := ⟨none, []⟩

/-! ### What is claimed, and what is needed -/

variable (p)

/-- A slot that is given out is that of a field without accessors, for every class below. -/
def PackedSound : Prop :=
  ∀ cls key, p.packedSlot cls key true ≠ 0 → ∀ sub, p.isSubclass sub cls = true →
    ∀ wantGet, p.findAccessor sub key wantGet = none

/-- Both engines run the accessors that the language runs, up to each point of the run. -/
def EnginesAgree (events : List p.Event) : Prop :=
  ∀ done, done <+: events → (done.foldl evalStep p.start).stack = done.foldl specStep [] ∧
    done.foldl lowStep [] = done.foldl specStep []

/-- The class declares an accessor for the name. -/
def Declares (cls : ι) (name : Str) : Prop := ∃ m ∈ p.members cls, isAccessor name m = true

/-- The field has one slot in the class and the classes below. -/
def Stable (cls : ι) (key : Str) : Prop :=
  ∃ slot, ∀ sub, p.kind sub = .Class ∧ p.isSubclass sub cls = true ∨ sub = cls →
    p.fieldSlotOf sub key = some slot

/-- No accessor comes from elsewhere alone: if a class below has one, for a field with one slot, then
the class or one below it declares one. -/
def AccessorsBelow : Prop :=
  ∀ cls key, p.Stable cls key → ∀ sub above, p.isSubclass sub cls = true →
    p.isSubclass sub above = true → p.Declares above key →
    ∃ below, p.isSubclass below cls = true ∧ p.Declares below key

/-- An access that runs an accessor. -/
def Dispatched (f : p.Frame) (a : Access ι) : Prop :=
  p.specConsults f a = true ∧ ∃ callee, p.accessorFrame f a = some callee

/-- What an access needs that runs an accessor: no accessor for the same name is running, a bare name
is known for a member and read as a field, and the field is not taken for a weak one without
accessors. -/
structure AccessFine (rawField : Option Str) (f : p.Frame) (a : Access ι) : Prop where
  guard : rawField ≠ some a.name
  field : ∀ isLocal, a.form = .bare isLocal → a.write = false →
    f.self.any (fun s => p.hasField s.thisClass a.name) = true
  member : ∀ isLocal, a.form = .bare isLocal →
    f.self.any (fun s => p.classHasMember s.lexical a.name) = true
  strong : f.weakDirect a = false

/-- All accesses of a run that run an accessor are fine. -/
def RunFine (events : List p.Event) : Prop :=
  ∀ done a, done ++ [.access a] <+: events →
    p.Dispatched (top (done.foldl specStep [])) a →
    p.AccessFine (running (done.foldl specStep [])) (top (done.foldl specStep [])) a

end Hierarchy

end Leviathan.Ir.Accessors
