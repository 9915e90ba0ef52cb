import Leviathan.Sema.Shape

/-!
# Generic inference

From `CheckerOverload.cpp`: `unify` matches a declared type against the type of an
argument and binds the type variables it meets, each to the first type it is met with;
`substitute` puts the bindings into a declared type.  Both go by the names of the
variables.

A substitution is a list of bindings, the newest first.  What `unify` does to it is
said by the matches of the declared type, in order (`get_unify`): a variable keeps its
binding, and gets the first match otherwise.
-/

namespace Leviathan.Sema

/-- The bindings of type variables. -/
abbrev Subst (ι : Type) := List (Str × Ty ι)

namespace Subst

variable {ι : Type}

/-- The type a variable is bound to. -/
def get (subst : Subst ι) (name : Str) : Option (Ty ι) :=
  (subst.find? (fun entry => entry.1 = name)).map Prod.snd

/-- A variable is bound unless it is already. -/
def bindNew (subst : Subst ι) (name : Str) (type : Ty ι) : Subst ι :=
  if (subst.get name).isSome then subst else (name, type) :: subst

theorem get_cons (subst : Subst ι) (entry : Str × Ty ι) (name : Str) :
    Subst.get (entry :: subst) name = if entry.1 = name then some entry.2 else subst.get name := by
  unfold get
  rw [List.find?_cons]
  by_cases h : entry.1 = name
  · simp [h]
  · simp [h]

theorem get_append (subst subst' : Subst ι) (name : Str) :
    Subst.get (subst ++ subst') name = (subst.get name).or (subst'.get name) := by
  unfold get
  rw [List.find?_append]
  cases subst.find? (fun entry => entry.1 = name) with
  | none => rfl
  | some entry => rfl

theorem get_bindNew (subst : Subst ι) (name : Str) (type : Ty ι) (x : Str) :
    (subst.bindNew name type).get x = (subst.get x).or (Subst.get [(name, type)] x) := by
  unfold bindNew
  rw [get_cons]
  by_cases hx : name = x
  · subst hx
    cases h : subst.get name with
    | none => simp [get_cons]
    | some t => simp [h]
  · have hnil : Subst.get ([] : Subst ι) x = none := rfl
    rw [if_neg hx, hnil, Option.or_none]
    split
    · rfl
    · rw [get_cons, if_neg hx]

theorem get_foldl_bindNew (pairs subst : Subst ι) (x : Str) :
    (pairs.foldl (fun subst pair => subst.bindNew pair.1 pair.2) subst).get x =
      Subst.get (subst ++ pairs) x := by
  induction pairs generalizing subst with
  | nil => simp
  | cons pair pairs ih =>
    have hsplit := get_append [pair] pairs x
    rw [List.foldl_cons, ih, get_append, get_bindNew, get_append, Option.or_assoc, ← hsplit]
    rfl

end Subst

/-- `Type::kind` is `Unknown`. -/
def Ty.isUnknown {ι : Type} : Ty ι → Bool
  | .unknown => true
  | _ => false

/-- `Type::sym`. -/
def Ty.sym {ι : Type} : Ty ι → Option ι
  | .class_ sym _ _ => some sym
  | .typeValue sym _ => some sym
  | _ => none

/-- The class and the arguments of a class type. -/
def Ty.asClass {ι : Type} : Ty ι → Option (ι × List (Ty ι))
  | .class_ head _ args => some (head, args)
  | _ => none

/-- The text of a union, from the texts of its members: a bar only after a text. -/
def unionText (texts : List Str) : Str :=
  texts.foldl (fun text t => (if text.isEmpty then text else text ++ " | ".toList) ++ t) []

namespace ClassTable

section
variable {σ ι : Type} (p : ClassTable σ ι)

/-- A class with arguments; raw if one of them is unknown. -/
def applied (head : ι) (args : List (Ty ι)) : Ty ι :=
  if args.any Ty.isUnknown then .class_ head (p.symName head) []
  else .class_ head (p.symName head ++
    if args.isEmpty then []
    else "<".toList ++ List.intercalate ", ".toList (args.map Ty.canonical) ++ ">".toList) args

variable (sc : σ)

mutual

/-- `mentionsTypeParam`. -/
def mentionsTypeParam : TypeRef ι → Bool
  | .inferred => false
  | .union members => mentionsAny members
  | .function params ret => mentionsAny params || mentionsTypeParam ret
  | .named path name generics hygiene =>
    ((p.resolvedSymbol sc (.named path name generics hygiene)).any
      (fun sym => p.kind sym = .TypeParam)) || mentionsAny generics

/-- One of several types does. -/
def mentionsAny : List (TypeRef ι) → Bool
  | [] => false
  | t :: ts => mentionsTypeParam t || mentionsAny ts

end

mutual

/-- `substitute`. -/
def substitute (subst : Subst ι) : TypeRef ι → Ty ι
  | .inferred => fromTypeRef p.toScopes sc .inferred
  | .function params ret => fromTypeRef p.toScopes sc (.function params ret)
  | .union members =>
    .union (unionText ((substituteEach subst members).map Ty.canonical))
      (substituteEach subst members)
  | .named path name generics hygiene =>
    match subst.get name with
    | some type =>
      if generics.isEmpty then type
      else match type.sym with
        | some head => p.applied head (substituteEach subst generics)
        | none => .unknown
    | none =>
      match p.resolvedSymbol sc (.named path name generics hygiene) with
      | some sym =>
        if p.kind sym = .Primitive then
          .primitive (TypeRef.canonical (.named path name generics hygiene))
        else if p.kind sym = .Class then p.applied sym (substituteEach subst generics)
        else .unknown
      | none => .unknown

/-- `substitute` on several types. -/
def substituteEach (subst : Subst ι) : List (TypeRef ι) → List (Ty ι)
  | [] => []
  | t :: ts => substitute subst t :: substituteEach subst ts

end

/-! ### What a substitution depends on -/

mutual

/-- The names in a type that `substitute` looks up. -/
def lookedUp : TypeRef ι → List Str
  | .inferred => []
  | .function _ _ => []
  | .union members => lookedUpAll members
  | .named _ name generics _ => name :: lookedUpAll generics

/-- The names in several types. -/
def lookedUpAll : List (TypeRef ι) → List Str
  | [] => []
  | t :: ts => lookedUp t ++ lookedUpAll ts

end

mutual

/-- Substitutions with the same bindings of the names in a type give the same type. -/
theorem substitute_congr {subst subst' : Subst ι} (t : TypeRef ι)
    (h : ∀ x ∈ lookedUp t, subst.get x = subst'.get x) :
    p.substitute sc subst t = p.substitute sc subst' t := by
  cases t with
  | inferred => rfl
  | function params ret => rfl
  | union members =>
    rw [lookedUp] at h
    rw [substitute, substitute, substituteEach_congr members h]
  | named path name generics hygiene =>
    rw [lookedUp] at h
    rw [substitute, substitute, h name List.mem_cons_self,
      substituteEach_congr generics fun x hx => h x (List.mem_cons_of_mem _ hx)]

theorem substituteEach_congr {subst subst' : Subst ι} (ts : List (TypeRef ι))
    (h : ∀ x ∈ lookedUpAll ts, subst.get x = subst'.get x) :
    p.substituteEach sc subst ts = p.substituteEach sc subst' ts := by
  cases ts with
  | nil => rfl
  | cons t ts =>
    rw [lookedUpAll] at h
    rw [substituteEach, substituteEach,
      substitute_congr t fun x hx => h x (List.mem_append_left _ hx),
      substituteEach_congr ts fun x hx => h x (List.mem_append_right _ hx)]

end

end

section
variable {σ ι : Type} [DecidableEq ι] (p : ClassTable σ ι) (sc : σ)

mutual

/-- `unify`. -/
def unify : TypeRef ι → Ty ι → Subst ι → Subst ι
  | .named path name generics hygiene, arg, subst =>
    match p.resolvedSymbol sc (.named path name generics hygiene) with
    | some sym =>
      if p.kind sym = .TypeParam then
        if generics.isEmpty then subst.bindNew name arg
        else match arg.asClass with
          | some (head, args) =>
            unifyAll generics args (subst.bindNew name (.typeValue head (p.symName head)))
          | none => subst
      else match arg.asClass with
        | some (head, args) => if sym = head then unifyAll generics args subst else subst
        | none => subst
    | none => subst
  | _, _, subst => subst

/-- `unify` argument by argument. -/
def unifyAll : List (TypeRef ι) → List (Ty ι) → Subst ι → Subst ι
  | t :: ts, a :: as, subst => unifyAll ts as (unify t a subst)
  | _, _, subst => subst

end

/-! ### Matches -/

mutual

/-- The variables that a declared type has where an argument has a type, in the order
in which `unify` meets them. -/
def matchesOf : TypeRef ι → Ty ι → Subst ι
  | .named path name generics hygiene, arg =>
    match p.resolvedSymbol sc (.named path name generics hygiene) with
    | some sym =>
      if p.kind sym = .TypeParam then
        if generics.isEmpty then [(name, arg)]
        else match arg.asClass with
          | some (head, args) =>
            (name, .typeValue head (p.symName head)) :: matchesAll generics args
          | none => []
      else match arg.asClass with
        | some (head, args) => if sym = head then matchesAll generics args else []
        | none => []
    | none => []
  | _, _ => []

/-- The matches of several types. -/
def matchesAll : List (TypeRef ι) → List (Ty ι) → Subst ι
  | t :: ts, a :: as => matchesOf t a ++ matchesAll ts as
  | _, _ => []

end

mutual

/-- **Unification.**  A variable keeps its binding; one without gets its first match. -/
theorem get_unify (t : TypeRef ι) (arg : Ty ι) (subst : Subst ι) (x : Str) :
    (p.unify sc t arg subst).get x = (subst.get x).or ((p.matchesOf sc t arg).get x) := by
  have hkeep : (subst.get x).or (Subst.get ([] : Subst ι) x) = subst.get x := Option.or_none
  cases t with
  | named path name generics hygiene =>
    rw [unify, matchesOf]
    cases p.resolvedSymbol sc (.named path name generics hygiene) with
    | none => exact hkeep.symm
    | some sym =>
      dsimp only
      split
      · split
        · exact subst.get_bindNew name arg x
        · cases arg.asClass with
          | none => exact hkeep.symm
          | some found =>
            dsimp only
            have hsplit := Subst.get_append [(name, .typeValue found.1 (p.symName found.1))]
              (p.matchesAll sc generics found.2) x
            rw [get_unifyAll, Subst.get_bindNew, Option.or_assoc, ← hsplit]
            rfl
      · cases arg.asClass with
        | none => exact hkeep.symm
        | some found =>
          dsimp only
          split
          · exact get_unifyAll generics found.2 subst x
          · exact hkeep.symm
  | inferred => exact hkeep.symm
  | union members => exact hkeep.symm
  | function params ret => exact hkeep.symm

theorem get_unifyAll (ts : List (TypeRef ι)) (args : List (Ty ι)) (subst : Subst ι) (x : Str) :
    (p.unifyAll sc ts args subst).get x = (subst.get x).or ((p.matchesAll sc ts args).get x) := by
  have hkeep : (subst.get x).or (Subst.get ([] : Subst ι) x) = subst.get x := Option.or_none
  cases ts with
  | nil => exact hkeep.symm
  | cons t ts =>
    cases args with
    | nil => exact hkeep.symm
    | cons a args =>
      rw [unifyAll, matchesAll, get_unifyAll, get_unify, Subst.get_append, Option.or_assoc]

end

end

end ClassTable

end Leviathan.Sema
