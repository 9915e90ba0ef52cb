import Leviathan.Sema.Overload

/-!
# The types of generic calls

`genericReturn` and `inferConstruction`: the substitution of a call, from the receiver,
the explicit types, the arguments and at last the lambdas, and the type of the result.

The picker compares an argument with its parameter only if the type of the parameter is
known by then: not where it has a type variable and no types are given explicitly.
Such an argument is accepted whatever it is, so a call is sound exactly if these
arguments fit on their own (`call_sound_iff`), with every variable standing for the
first type it is matched with (`firstMatches`).
-/

namespace Leviathan.Sema

open List

namespace ClassTable

variable {σ ι : Type} [DecidableEq ι] (p : ClassTable σ ι)

/-- Values bind the variables of their parameters, in order. -/
def unifyRows (site : Site ι) (sc : σ) (explicit : Bool) (rows : List (Row ι)) (subst : Subst ι) :
    Subst ι :=
  rows.foldl (fun subst row => match row.param.type with
    | some t => p.unify sc t (row.argType site explicit) subst
    | none => subst) subst

/-- The declared parameter types of a lambda bind variables. -/
def unifyDeclared (sc : σ) (fps : List (TypeRef ι)) (params : List (Option (Ty ι)))
    (subst : Subst ι) : Subst ι :=
  (fps.zip params).foldl (fun subst x => match x.2 with
    | some t => p.unify sc x.1 t subst
    | none => subst) subst

/-- What the check of a lambda's result reports. -/
def lambdaErrors (explicit : Bool) (ret expected : Ty ι) : List Str :=
  if explicit && !(ret.isUnknown || ret.isError || expected.isUnknown) &&
      !p.assignable ret expected then
    ["lambda body has type '".toList ++ ret.canonical ++ "', expected '".toList ++
      expected.canonical ++ "'".toList]
  else []

/-- A lambda is checked: its parameter types are known, and its result binds what is
left. -/
def lambdaStep (sc : σ) (explicit : Bool) (row : Row ι) (state : Subst ι × List Str) :
    Subst ι × List Str :=
  match row.filled, row.param.type with
  | .arg _ (.lambda none params body), some (.function fps ret) =>
    let subst := p.unifyDeclared sc fps params state.1
    let out := body (p.substituteEach sc subst fps)
    (p.unify sc ret out subst,
      state.2 ++ p.lambdaErrors explicit out (p.substitute sc subst ret))
  | _, _ => state

/-- `genericReturn`: the substitution, the type of the result, and what is reported. -/
def genericReturn (site : Site ι) (call : Call ι) (receiver : Option (ι × Ty ι))
    (fn : Signature σ ι) (rows : List (Row ι)) : Subst ι × Ty ι × List Str :=
  let explicit := !call.explicit.isEmpty
  let seed := p.callGenericSeed receiver fn.generics call.explicit
  let values := p.unifyRows site fn.scope explicit rows seed
  let state := rows.foldl (fun state row => p.lambdaStep fn.scope explicit row state) (values, [])
  (state.1, (fn.ret.map (p.substitute fn.scope state.1)).getD .unknown, state.2)

/-- `directBaseTypeRef`: the arguments of the clause that names a base. -/
def directBaseTypeRef (cls target : ι) : Option (List (TypeRef ι)) :=
  match p.decl cls, p.scope cls with
  | some d, some sc => d.bases.findSome? (fun base => match base with
    | .named _ _ generics _ => if p.resolvedSymbol sc base = some target then some generics else none
    | _ => none)
  | _, _ => none

/-- The type that is expected of a construction binds what is left. -/
def unifyExpected (cls : ι) (expected : Option (σ × TypeRef ι)) (subst : Subst ι) : Subst ι :=
  match expected with
  | some (sc, .named path name generics hygiene) =>
    match p.resolvedSymbol sc (.named path name generics hygiene) with
    | some sym =>
      if sym = cls ∧ generics.length = (p.genericsOf cls).length then
        ((p.genericsOf cls).zip (generics.map (fromTypeRef p.toScopes sc))).foldl
          (fun subst x => subst.bindNew x.1 x.2) subst
      else match p.directBaseTypeRef cls sym, p.scope cls with
        | some args, some inner =>
          p.unifyAll inner args (generics.map (fromTypeRef p.toScopes sc)) subst
        | _, _ => subst
    | none => subst
  | _ => subst

/-- The type of a variable, if it is bound to one that is known. -/
def known (subst : Subst ι) (x : Str) : Option (Ty ι) :=
  (subst.get x).filter (fun t => !t.isUnknown)

/-- The class with its parameters as they are bound; raw if one is not. -/
def constructed (cls : ι) (subst : Subst ι) : Ty ι :=
  let params := p.genericsOf cls
  let bound := params.filterMap (known subst)
  if params.isEmpty then .class_ cls (p.symName cls) []
  else if bound.length < params.length then .class_ cls (p.symName cls) []
  else .class_ cls (p.symName cls ++ "<".toList ++
    List.intercalate ", ".toList (bound.map Ty.canonical) ++ ">".toList) bound

/-- `inferConstruction`: the substitution, the type of the object, and what is
reported. -/
def inferConstruction (site : Site ι) (call : Call ι) (cls : ι) (expected : Option (σ × TypeRef ι))
    (insideGenericScope : Bool) (fn : Signature σ ι) (rows : List (Row ι)) :
    Subst ι × Ty ι × List Str :=
  let params := p.genericsOf cls
  let seed := p.callGenericSeed none params call.explicit
  let subst := p.unifyExpected cls expected
    (p.unifyRows site fn.scope (!call.explicit.isEmpty) rows seed)
  let missing := params.filter (fun x => (subst.get x).isNone)
  let errors := if insideGenericScope then [] else missing.map (fun x =>
    "cannot infer type argument '".toList ++ x ++ "' for '".toList ++ p.symName cls ++
      "'; provide a target type or a type-bearing argument".toList)
  (subst, p.constructed cls subst, errors)

/-- The substitution of a call, the type of its result, and what is reported. -/
def callOutcome (site : Site ι) (call : Call ι) (target : Target σ ι) (insideGenericScope : Bool)
    (fn : Signature σ ι) (rows : List (Row ι)) : Subst ι × Ty ι × List Str :=
  match target with
  | .function receiver => p.genericReturn site call receiver fn rows
  | .construction cls expected =>
    p.inferConstruction site call cls expected insideGenericScope fn rows

/-! ### First matches -/

/-- The matches of the values. -/
def valueMatches (site : Site ι) (sc : σ) (explicit : Bool) (rows : List (Row ι)) : Subst ι :=
  rows.flatMap (fun row => match row.param.type with
    | some t => p.matchesOf sc t (row.argType site explicit)
    | none => [])

/-- The matches of the declared parameter types of a lambda. -/
def declaredMatches (sc : σ) (fps : List (TypeRef ι)) (params : List (Option (Ty ι))) : Subst ι :=
  (fps.zip params).flatMap (fun x => match x.2 with
    | some t => p.matchesOf sc x.1 t
    | none => [])

/-- The matches of a lambda, given those before it. -/
def lambdaMatches (sc : σ) (row : Row ι) (known : Subst ι) : Subst ι :=
  match row.filled, row.param.type with
  | .arg _ (.lambda none params body), some (.function fps ret) =>
    let declared := p.declaredMatches sc fps params
    declared ++ p.matchesOf sc ret (body (p.substituteEach sc (known ++ declared) fps))
  | _, _ => []

/-- The matches of the type that is expected. -/
def expectedMatches (cls : ι) (expected : Option (σ × TypeRef ι)) : Subst ι :=
  match expected with
  | some (sc, .named path name generics hygiene) =>
    match p.resolvedSymbol sc (.named path name generics hygiene) with
    | some sym =>
      if sym = cls ∧ generics.length = (p.genericsOf cls).length then
        (p.genericsOf cls).zip (generics.map (fromTypeRef p.toScopes sc))
      else match p.directBaseTypeRef cls sym, p.scope cls with
        | some args, some inner =>
          p.matchesAll inner args (generics.map (fromTypeRef p.toScopes sc))
        | _, _ => []
    | none => []
  | _ => []

/-- What the receiver and the explicit types bind. -/
def seedOf (call : Call ι) (target : Target σ ι) (fn : Signature σ ι) : Subst ι :=
  p.callGenericSeed target.receiver ((p.explicitParams target).getD fn.generics) call.explicit

/-- The type variables of a call with all types they are matched with, in the order
receiver and explicit types, values, and then lambdas or the type that is expected. -/
def firstMatches (site : Site ι) (call : Call ι) (target : Target σ ι) (fn : Signature σ ι)
    (rows : List (Row ι)) : Subst ι :=
  let values := p.seedOf call target fn ++
    p.valueMatches site fn.scope (!call.explicit.isEmpty) rows
  match target with
  | .function _ => rows.foldl (fun known row => known ++ p.lambdaMatches fn.scope row known) values
  | .construction cls expected => values ++ p.expectedMatches cls expected

theorem get_unifyRows (site : Site ι) (sc : σ) (explicit : Bool) (rows : List (Row ι))
    (subst : Subst ι) (x : Str) :
    (p.unifyRows site sc explicit rows subst).get x =
      Subst.get (subst ++ p.valueMatches site sc explicit rows) x := by
  unfold unifyRows valueMatches
  induction rows generalizing subst with
  | nil => simp
  | cons row rows ih =>
    rw [foldl_cons, ih, flatMap_cons]
    cases row.param.type with
    | none => rfl
    | some t =>
      dsimp only
      rw [Subst.get_append, get_unify, Subst.get_append, Subst.get_append, Option.or_assoc]

theorem get_unifyDeclared (sc : σ) (fps : List (TypeRef ι)) (params : List (Option (Ty ι)))
    (subst : Subst ι) (x : Str) :
    (p.unifyDeclared sc fps params subst).get x =
      Subst.get (subst ++ p.declaredMatches sc fps params) x := by
  unfold unifyDeclared declaredMatches
  generalize fps.zip params = pairs
  induction pairs generalizing subst with
  | nil => simp
  | cons pair pairs ih =>
    rw [foldl_cons, ih, flatMap_cons]
    cases pair.2 with
    | none => rfl
    | some t =>
      dsimp only
      rw [Subst.get_append, get_unify, Subst.get_append, Subst.get_append, Option.or_assoc]

/-- A lambda adds its matches. -/
theorem get_lambdaStep (sc : σ) (explicit : Bool) (row : Row ι) (state : Subst ι × List Str)
    (known : Subst ι) (h : ∀ x, state.1.get x = known.get x) (x : Str) :
    (p.lambdaStep sc explicit row state).1.get x =
      Subst.get (known ++ p.lambdaMatches sc row known) x := by
  unfold lambdaStep lambdaMatches
  split
  · next params body fps ret _ _ =>
      dsimp only
      have hdeclared : ∀ y, (p.unifyDeclared sc fps params state.1).get y =
          Subst.get (known ++ p.declaredMatches sc fps params) y := by
        intro y
        rw [get_unifyDeclared, Subst.get_append, Subst.get_append, h y]
      rw [get_unify, hdeclared x, p.substituteEach_congr sc fps fun y _ => hdeclared y,
        ← Subst.get_append, append_assoc]
  · rw [h x, append_nil]

theorem get_unifyExpected (cls : ι) (expected : Option (σ × TypeRef ι)) (subst : Subst ι) (x : Str) :
    (p.unifyExpected cls expected subst).get x =
      Subst.get (subst ++ p.expectedMatches cls expected) x := by
  have hkeep : subst.get x = Subst.get (subst ++ []) x := by rw [append_nil]
  unfold unifyExpected expectedMatches
  split
  · next sc path name generics hygiene =>
      cases p.resolvedSymbol sc (.named path name generics hygiene) with
      | none => exact hkeep
      | some sym =>
        dsimp only
        split
        · exact Subst.get_foldl_bindNew _ subst x
        · split
          · rw [get_unifyAll, Subst.get_append]
          · exact hkeep
  · exact hkeep

/-- **The substitution of a call.**  Every variable is bound to its first match. -/
theorem get_callOutcome (site : Site ι) (call : Call ι) (target : Target σ ι)
    (insideGenericScope : Bool) (fn : Signature σ ι) (rows : List (Row ι)) (x : Str) :
    (p.callOutcome site call target insideGenericScope fn rows).1.get x =
      (p.firstMatches site call target fn rows).get x := by
  cases target with
  | function receiver =>
    -- the lambdas in order, each beside the matches known before it
    have hlambdas : ∀ (rest : List (Row ι)) (state : Subst ι × List Str) (known : Subst ι),
        (∀ y, state.1.get y = known.get y) →
        (rest.foldl (fun state row =>
            p.lambdaStep fn.scope (!call.explicit.isEmpty) row state) state).1.get x =
          (rest.foldl (fun known row => known ++ p.lambdaMatches fn.scope row known) known).get x := by
      intro rest
      induction rest with
      | nil =>
        intro state known h
        exact h x
      | cons row rest ih =>
        intro state known h
        rw [foldl_cons, foldl_cons]
        exact ih _ _ fun y => p.get_lambdaStep fn.scope _ row state known h y
    exact hlambdas rows _ _ fun y => p.get_unifyRows site fn.scope _ rows _ y
  | construction cls expected =>
    change (p.unifyExpected cls expected _).get x = Subst.get (_ ++ p.expectedMatches cls expected) x
    rw [get_unifyExpected, Subst.get_append, get_unifyRows, ← Subst.get_append]
    rfl

/-! ### The result -/

/-- The type that a declaration gives to a call: its return type, or the class with its
parameters, under a substitution. -/
def declaredResult (target : Target σ ι) (fn : Signature σ ι) (subst : Subst ι) : Ty ι :=
  match target with
  | .function _ => (fn.ret.map (p.substitute fn.scope subst)).getD .unknown
  | .construction cls _ =>
    p.applied cls ((p.genericsOf cls).map (fun x => (subst.get x).getD .unknown))

omit [DecidableEq ι] in
/-- The parameters that are bound to a type that is known. -/
theorem filterMap_known (subst : Subst ι) (params : List Str) :
    (params.filterMap (known subst)).length ≤ params.length ∧
      ((params.map (fun x => (subst.get x).getD .unknown)).any Ty.isUnknown = true →
        (params.filterMap (known subst)).length < params.length) ∧
      ((params.map (fun x => (subst.get x).getD .unknown)).any Ty.isUnknown = false →
        params.filterMap (known subst) = params.map (fun x => (subst.get x).getD .unknown)) := by
  induction params with
  | nil => exact ⟨le_rfl, by simp, by simp⟩
  | cons q params ih =>
    obtain ⟨hle, hraw, hfull⟩ := ih
    cases ht : ((subst.get q).getD .unknown).isUnknown with
    | true =>
      have hnone : known subst q = none := by
        unfold known
        cases hq : subst.get q with
        | none => rfl
        | some t =>
          rw [hq, Option.getD_some] at ht
          simp [Option.filter, ht]
      rw [filterMap_cons_none hnone]
      refine ⟨by rw [length_cons]; omega, fun _ => by rw [length_cons]; omega, ?_⟩
      intro hany
      rw [map_cons, any_cons, ht, Bool.true_or] at hany
      cases hany
    | false =>
      have hsome : known subst q = some ((subst.get q).getD .unknown) := by
        unfold known
        cases hq : subst.get q with
        | none =>
          rw [hq] at ht
          cases ht
        | some t =>
          rw [hq, Option.getD_some] at ht
          simp [Option.filter, ht]
      rw [filterMap_cons_some hsome, map_cons, any_cons, ht, Bool.false_or]
      refine ⟨by rw [length_cons, length_cons]; omega, ?_, ?_⟩
      · intro hany
        rw [length_cons, length_cons]
        have hlt := hraw hany
        omega
      · intro hany
        rw [hfull hany]

omit [DecidableEq ι] in
theorem constructed_eq (cls : ι) (subst : Subst ι) :
    p.constructed cls subst =
      p.applied cls ((p.genericsOf cls).map (fun x => (subst.get x).getD .unknown)) := by
  unfold constructed applied
  obtain ⟨hle, hraw, hfull⟩ := filterMap_known subst (p.genericsOf cls)
  cases hparams : p.genericsOf cls with
  | nil => simp
  | cons q params =>
    rw [hparams] at hle hraw hfull
    dsimp only
    cases hany : ((q :: params).map (fun x => (subst.get x).getD .unknown)).any Ty.isUnknown with
    | true => rw [if_neg (by simp), if_pos (hraw hany), if_pos rfl]
    | false =>
      rw [if_neg (by simp), if_neg (by rw [hfull hany, length_map]; omega),
        if_neg (by simp), hfull hany]
      simp

/-- The result of a call is the declared one. -/
theorem callOutcome_result (site : Site ι) (call : Call ι) (target : Target σ ι)
    (insideGenericScope : Bool) (fn : Signature σ ι) (rows : List (Row ι)) :
    (p.callOutcome site call target insideGenericScope fn rows).2.1 =
      p.declaredResult target fn (p.callOutcome site call target insideGenericScope fn rows).1 := by
  cases target with
  | function receiver => rfl
  | construction cls expected => exact p.constructed_eq cls _

/-! ### What the picker compares -/

/-- Types of the same text are assignable, unless both are unions, which are compared
member by member. -/
theorem assignable_of_canonical_eq {source target : Ty ι} (h : source.canonical = target.canonical)
    (hunion : ¬ (source.isUnion = true ∧ target.isUnion = true)) :
    p.assignable source target = true := by
  cases source with
  | unknown => cases target <;> rfl
  | error => cases target <;> rfl
  | typeValue sym c => cases target <;> rfl
  | funcRef c ret => cases target <;> rfl
  | union c members =>
    cases target with
    | union c' targets => exact absurd ⟨rfl, rfl⟩ hunion
    | unknown => rfl
    | error => rfl
    | primitive c' => exact decide_eq_true h
    | class_ sym c' args => exact decide_eq_true h
    | typeValue sym c' => exact decide_eq_true h
    | funcRef c' ret => exact decide_eq_true h
  | primitive c =>
    cases target with
    | unknown => rfl
    | error => rfl
    | union c' targets =>
      exact Bool.or_eq_true_iff.mpr (.inr (decide_eq_true h))
    | primitive c' => exact Bool.or_eq_true_iff.mpr (.inl (decide_eq_true h))
    | class_ sym c' args => exact Bool.or_eq_true_iff.mpr (.inl (decide_eq_true h))
    | typeValue sym c' => exact Bool.or_eq_true_iff.mpr (.inl (decide_eq_true h))
    | funcRef c' ret => exact Bool.or_eq_true_iff.mpr (.inl (decide_eq_true h))
  | class_ sym c args =>
    cases target with
    | unknown => rfl
    | error => rfl
    | union c' targets =>
      exact Bool.or_eq_true_iff.mpr (.inr (decide_eq_true h))
    | primitive c' => exact Bool.or_eq_true_iff.mpr (.inl (decide_eq_true h))
    | class_ sym' c' args' => exact Bool.or_eq_true_iff.mpr (.inl (decide_eq_true h))
    | typeValue sym' c' => exact Bool.or_eq_true_iff.mpr (.inl (decide_eq_true h))
    | funcRef c' ret => exact Bool.or_eq_true_iff.mpr (.inl (decide_eq_true h))

theorem assignable_of_unknown {source target : Ty ι}
    (h : target.isUnknown = true ∨ source.isUnknown = true ∨ source.isError = true) :
    p.assignable source target = true := by
  cases source <;> cases target <;> first | rfl | simp [Ty.isUnknown, Ty.isError] at h

/-- An argument is a character literal. -/
def ArgForm.isChar : ArgForm ι → Bool
  | .charLiteral _ => true
  | _ => false

/-- What an argument that scores has been compared by, if its parameter has no variable
left. -/
theorem assignable_of_scoreArg {site : Site ι} {sc : σ} {injecting explicit : Bool} {param : Param ι}
    {pt : Ty ι} {form : ArgForm ι}
    (h : (p.scoreArg site sc injecting explicit param pt form).isSome = true)
    (hknown : explicit = true ∨ p.mentions sc param = false) :
    p.assignable form.type pt = true ∨
      (form.type.isUnion = true ∧ pt.isUnion = true ∧ form.type.canonical = pt.canonical) ∨
      (ArgForm.isChar form = true ∧ pt.canonical = "char".toList) := by
  have hopen : (!explicit && p.mentions sc param) = false := by
    rcases hknown with hknown | hknown
    · rw [hknown, Bool.not_true, Bool.false_and]
    · rw [hknown, Bool.and_false]
  unfold scoreArg at h
  rw [hopen, if_neg Bool.false_ne_true] at h
  -- values and character literals are compared in the same way
  have hvalue : ∀ literal : Bool,
      (if pt.isUnknown || form.type.isUnknown || form.type.isError then some 1
        else if pt.canonical = form.type.canonical then some 2
        else if injecting && (pt.canonical = "char".toList && literal) then some 1
        else if p.assignable form.type pt then some 1
        else (none : Option Nat)).isSome = true →
      p.assignable form.type pt = true ∨
        (form.type.isUnion = true ∧ pt.isUnion = true ∧ form.type.canonical = pt.canonical) ∨
        (literal = true ∧ pt.canonical = "char".toList) := by
    intro literal h
    by_cases hlenient : (pt.isUnknown || form.type.isUnknown || form.type.isError) = true
    · rw [Bool.or_eq_true, Bool.or_eq_true, or_assoc] at hlenient
      exact .inl (p.assignable_of_unknown hlenient)
    · rw [if_neg hlenient] at h
      by_cases htext : pt.canonical = form.type.canonical
      · by_cases hunion : form.type.isUnion = true ∧ pt.isUnion = true
        · exact .inr (.inl ⟨hunion.1, hunion.2, htext.symm⟩)
        · exact .inl (p.assignable_of_canonical_eq htext.symm hunion)
      · rw [if_neg htext] at h
        by_cases hchar : (injecting && (pt.canonical = "char".toList && literal)) = true
        · rw [Bool.and_eq_true, Bool.and_eq_true, decide_eq_true_eq] at hchar
          exact .inr (.inr ⟨hchar.2.2, hchar.2.1⟩)
        · rw [if_neg hchar] at h
          by_cases hassign : p.assignable form.type pt = true
          · exact .inl hassign
          · rw [if_neg hassign] at h
            cases h
  cases form with
  | methodRef => exact .inl (p.assignable_of_unknown (.inr (.inl rfl)))
  | lambda walked params body =>
    cases walked with
    | none => exact .inl (p.assignable_of_unknown (.inr (.inl rfl)))
    | some found =>
      left
      cases pt <;> rfl
  | value type =>
    rcases hvalue false h with hfit | hunion | ⟨hliteral, -⟩
    · exact .inl hfit
    · exact .inr (.inl hunion)
    · cases hliteral
  | charLiteral type => exact hvalue true h

omit [DecidableEq ι] in
/-- The best candidate is one of them. -/
theorem mem_of_bestBinding {bindings : List (Binding σ ι)} {b : Binding σ ι}
    (h : bestBinding bindings = some b) : b ∈ bindings := by
  -- the best so far is the one before, or one of those seen
  have hfold : ∀ next : Option (Binding σ ι) → Binding σ ι → Option (Binding σ ι),
      (∀ best cur, next best cur = some b → best = some b ∨ cur = b) →
      ∀ (rest : List (Binding σ ι)) best, rest.foldl next best = some b → best = some b ∨ b ∈ rest := by
    intro next hnext rest
    induction rest with
    | nil =>
      intro best h
      exact .inl h
    | cons cur rest ih =>
      intro best h
      rcases ih _ h with hbest | hmem
      · rcases hnext best cur hbest with hbest | rfl
        · exact .inl hbest
        · exact .inr mem_cons_self
      · exact .inr (mem_cons_of_mem _ hmem)
  refine (hfold _ ?_ bindings none h).resolve_left fun hnone => by cases hnone
  intro best cur hnext
  cases best with
  | none => exact .inr (Option.some.inj hnext)
  | some b' =>
    dsimp only at hnext
    split at hnext
    · exact .inr (Option.some.inj hnext)
    · exact .inl hnext

/-- A row as the picker leaves it: the type of its parameter before inference, and a
score. -/
def Picked (site : Site ι) (sc : σ) (explicit : Bool) (seed : Option (Subst ι)) (row : Row ι) : Prop :=
  row.type = p.paramType sc seed row.param ∧
    ∃ injecting, (p.rowScore site sc injecting explicit row).isSome = true

theorem picked_of_overloadBinding {site : Site ι} {call : Call ι} {c : Signature σ ι}
    {b : Binding σ ι} (h : p.overloadBinding site call c = some b) :
    ∀ row ∈ b.rows, p.Picked site b.fn.scope false none row := by
  unfold overloadBinding at h
  dsimp only at h
  split at h
  · next hfits =>
      obtain rfl := Option.some.inj h
      intro row hrow
      refine ⟨?_, false, List.all_eq_true.mp hfits.2 row hrow⟩
      obtain ⟨x, -, rfl⟩ := List.mem_map.mp hrow
      rfl
  · cases h

theorem picked_of_bindCandidate {site : Site ι} {call : Call ι} {receiver : Option (ι × Ty ι)}
    {explicitParams : Option (List Str)} {c : Signature σ ι} {b : Binding σ ι}
    (h : p.bindCandidate site call receiver explicitParams c = .ok b) :
    ∀ row ∈ b.rows, p.Picked site b.fn.scope (!call.explicit.isEmpty)
      (if !call.explicit.isEmpty then
        some (p.callGenericSeed receiver (explicitParams.getD b.fn.generics) call.explicit)
      else none) row := by
  unfold bindCandidate at h
  dsimp only at h
  obtain ⟨supplied, -, h⟩ := bind_eq_ok.mp h
  obtain ⟨rows, hrows, h⟩ := bind_eq_ok.mp h
  split at h
  · cases h
  · next hfind =>
      obtain rfl := Except.ok.inj h
      intro row hrow
      refine ⟨?_, true, ?_⟩
      · obtain ⟨x, -, hx⟩ := exists_of_mem_mapM hrows hrow
        obtain ⟨filled, -, hx⟩ := bind_eq_ok.mp hx
        obtain rfl := Except.ok.inj hx
        rfl
      · have hscore := List.find?_eq_none.mp hfind row hrow
        rwa [Bool.not_eq_true, Option.isNone_eq_false_iff] at hscore

/-- The rows of the candidate that `pickInjecting` chooses. -/
theorem picked_of_pickInjecting {site : Site ι} {call : Call ι} {receiver : Option (ι × Ty ι)}
    {explicitParams : Option (List Str)} {cands : List (Signature σ ι)} {fn : Signature σ ι}
    {rows : List (Row ι)}
    (h : p.pickInjecting site call receiver explicitParams cands = .ok (fn, rows)) :
    ∀ row ∈ rows, p.Picked site fn.scope (!call.explicit.isEmpty)
      (if !call.explicit.isEmpty then
        some (p.callGenericSeed receiver (explicitParams.getD fn.generics) call.explicit)
      else none) row := by
  unfold pickInjecting at h
  dsimp only at h
  split at h
  · next hseen =>
      rw [Bool.and_eq_true, Bool.not_eq_true', Bool.not_eq_false'] at hseen
      cases hpick : p.pickOverload site call cands with
      | none =>
        rw [hpick] at h
        cases h
      | some b =>
        rw [hpick] at h
        cases h
        obtain ⟨c, -, hc⟩ := List.mem_filterMap.mp (mem_of_bestBinding hpick)
        rw [hseen.2]
        exact p.picked_of_overloadBinding hc
  · split at h
    · split at h
      · split at h <;> cases h
      · cases h
    · next b hbest =>
        obtain ⟨c, -, hc⟩ := List.mem_filterMap.mp (mem_of_bestBinding hbest)
        have hok : p.bindCandidate site call receiver explicitParams c = .ok b := by
          cases hbind : p.bindCandidate site call receiver explicitParams c with
          | error e =>
            rw [hbind] at hc
            cases hc
          | ok b' =>
            rw [hbind] at hc
            rw [Option.some.inj hc]
        split at h
        · cases h
        · split at h
          · cases h
          · cases h
            exact p.picked_of_bindCandidate hok

theorem picked_of_resolveCall {site : Site ι} {call : Call ι} {target : Target σ ι}
    {owner what : Str} {cands : List (Signature σ ι)} {fn : Signature σ ι} {rows : List (Row ι)}
    (h : p.resolveCall site call target owner what cands = .ok (fn, rows)) :
    ∀ row ∈ rows, p.Picked site fn.scope (!call.explicit.isEmpty)
      (if !call.explicit.isEmpty then some (p.seedOf call target fn) else none) row := by
  unfold resolveCall at h
  obtain ⟨cands', -, h⟩ := bind_eq_ok.mp h
  split at h
  · next picked hpick =>
      cases h
      exact p.picked_of_pickInjecting hpick
  · cases h
  · cases h

/-! ### Sound calls -/

/-- The declared type of a parameter under a substitution.  Without explicit types only
one with a variable is substituted. -/
def paramUnder (sc : σ) (explicit : Bool) (subst : Subst ι) (param : Param ι) : Ty ι :=
  match param.type with
  | none => .unknown
  | some t =>
    if explicit || p.mentionsTypeParam sc t then p.substitute sc subst t
    else fromTypeRef p.toScopes sc t

/-- An argument that goes into the call without having been compared with the type its
parameter ends up with: the parameter has a variable that was open when the candidates
were compared, both types are unions and only their texts were compared, or the argument
is a character literal, whose type is changed afterwards. -/
def Unchecked (site : Site ι) (call : Call ι) (target : Target σ ι) (fn : Signature σ ι)
    (rows : List (Row ι)) (row : Row ι) (form : ArgForm ι) : Prop :=
  (call.explicit = [] ∧ p.mentions fn.scope row.param = true) ∨
    (call.explicit ≠ [] ∧ ∃ t x, row.param.type = some t ∧ x ∈ lookedUp t ∧
      (p.seedOf call target fn).get x = none ∧
      ((p.firstMatches site call target fn rows).get x).isSome = true) ∨
    (form.type.isUnion = true ∧ row.type.isUnion = true ∧
      form.type.canonical = row.type.canonical) ∨
    (call.explicit = [] ∧ ArgForm.isChar form = true ∧
      (row.type.canonical = "char".toList ∨ expectsChar row.param.type = true))

/-- Every argument fits its parameter under the substitution. -/
def ArgsFit (site : Site ι) (call : Call ι) (fn : Signature σ ι) (rows : List (Row ι))
    (subst : Subst ι) (among : Row ι → ArgForm ι → Prop) : Prop :=
  ∀ row ∈ rows, ∀ index form, row.filled = .arg index form → among row form →
    p.assignable (row.argType site (!call.explicit.isEmpty))
      (p.paramUnder fn.scope (!call.explicit.isEmpty) subst row.param) = true

/-- What the receiver and the explicit types bind stays bound. -/
theorem get_firstMatches_of_seed {site : Site ι} {call : Call ι} {target : Target σ ι}
    {fn : Signature σ ι} {rows : List (Row ι)} {x : Str} {type : Ty ι}
    (h : (p.seedOf call target fn).get x = some type) :
    (p.firstMatches site call target fn rows).get x = some type := by
  have happend : ∀ known more : Subst ι, known.get x = some type →
      Subst.get (known ++ more) x = some type := by
    intro known more hknown
    rw [Subst.get_append, hknown, Option.some_or]
  unfold firstMatches
  cases target with
  | function receiver =>
    have hfold : ∀ (rest : List (Row ι)) (known : Subst ι), known.get x = some type →
        (rest.foldl (fun known row => known ++ p.lambdaMatches fn.scope row known) known).get x =
          some type := by
      intro rest
      induction rest with
      | nil =>
        intro known hknown
        exact hknown
      | cons row rest ih =>
        intro known hknown
        exact ih _ (happend known _ hknown)
    exact hfold rows _ (happend _ _ h)
  | construction cls expected => exact happend _ _ (happend _ _ h)

/-- An argument that the picker has compared fits its parameter under the first
matches. -/
theorem fits_of_not_unchecked {site : Site ι} {call : Call ι} {target : Target σ ι}
    {fn : Signature σ ι} {rows : List (Row ι)} {row : Row ι} {index : Nat} {form : ArgForm ι}
    (hpicked : p.Picked site fn.scope (!call.explicit.isEmpty)
      (if !call.explicit.isEmpty then some (p.seedOf call target fn) else none) row)
    (hfilled : row.filled = .arg index form)
    (hchecked : ¬ p.Unchecked site call target fn rows row form) :
    p.assignable (row.argType site (!call.explicit.isEmpty))
      (p.paramUnder fn.scope (!call.explicit.isEmpty) (p.firstMatches site call target fn rows)
        row.param) = true := by
  obtain ⟨htype, injecting, hscore⟩ := hpicked
  unfold Unchecked at hchecked
  rw [not_or, not_or, not_or] at hchecked
  obtain ⟨hvariable, hlate, hunion, hchar⟩ := hchecked
  unfold rowScore at hscore
  rw [hfilled] at hscore
  by_cases hexplicit : call.explicit = []
  · have hempty : (!call.explicit.isEmpty) = false := by rw [hexplicit]; rfl
    rw [hempty] at hscore htype ⊢
    rw [if_neg Bool.false_ne_true] at htype
    have hmentions : p.mentions fn.scope row.param = false :=
      Bool.eq_false_iff.mpr fun h => hvariable ⟨hexplicit, h⟩
    -- the parameter is as declared
    have hunder : p.paramUnder fn.scope false (p.firstMatches site call target fn rows) row.param =
        row.type := by
      rw [htype]
      unfold paramUnder paramType
      unfold mentions at hmentions
      cases hparam : row.param.type with
      | none => rfl
      | some t =>
        rw [hparam, Option.any_some] at hmentions
        dsimp only
        rw [hmentions, Bool.or_self, if_neg Bool.false_ne_true]
    rw [hunder]
    -- and the argument has the type it was compared with
    have harg : row.argType site false = form.type := by
      unfold Row.argType
      rw [hfilled]
      cases form with
      | charLiteral type =>
        have hexpects : expectsChar row.param.type = false :=
          Bool.eq_false_iff.mpr fun h => hchar ⟨hexplicit, rfl, .inr h⟩
        dsimp only
        rw [if_neg Bool.false_ne_true, hexpects, if_neg Bool.false_ne_true]
        rfl
      | value type => rfl
      | methodRef => rfl
      | lambda walked params body => rfl
    rw [harg]
    rcases p.assignable_of_scoreArg hscore (.inr hmentions) with hfit | hboth | ⟨hliteral, htext⟩
    · exact hfit
    · exact absurd hboth hunion
    · exact absurd ⟨hexplicit, hliteral, .inl htext⟩ hchar
  · have hgiven : (!call.explicit.isEmpty) = true := by
      rw [Bool.not_eq_true', isEmpty_eq_false_iff]
      exact hexplicit
    rw [hgiven] at hscore htype ⊢
    rw [if_pos rfl] at htype
    -- no variable of the parameter is bound later
    have hunder : p.paramUnder fn.scope true (p.firstMatches site call target fn rows) row.param =
        row.type := by
      rw [htype]
      unfold paramUnder paramType
      cases hparam : row.param.type with
      | none => rfl
      | some t =>
        dsimp only
        rw [Bool.true_or, if_pos rfl]
        refine p.substitute_congr fn.scope t fun x hx => ?_
        cases hseed : (p.seedOf call target fn).get x with
        | some type => exact p.get_firstMatches_of_seed hseed
        | none =>
          by_contra hbound
          exact hlate ⟨hexplicit, t, x, hparam, hx, hseed,
            Option.isSome_iff_ne_none.mpr hbound⟩
    rw [hunder]
    by_cases hliteral : ArgForm.isChar form = true ∧ row.type.canonical = "char".toList
    · -- the literal goes in as a `char`
      have harg : row.argType site true = site.charType := by
        unfold Row.argType
        rw [hfilled]
        cases form with
        | charLiteral type =>
          dsimp only
          rw [if_pos rfl, hliteral.2, decide_eq_true rfl, if_pos rfl]
        | value type => cases hliteral.1
        | methodRef => cases hliteral.1
        | lambda walked params body => cases hliteral.1
      rw [harg]
      rcases site.charType_eq with hprim | ⟨sym, hclass⟩
      · rw [hprim]
        exact p.assignable_of_canonical_eq hliteral.2.symm fun h => by cases h.1
      · rw [hclass]
        exact p.assignable_of_canonical_eq hliteral.2.symm fun h => by cases h.1
    · have harg : row.argType site true = form.type := by
        unfold Row.argType
        rw [hfilled]
        cases form with
        | charLiteral type =>
          have htext : row.type.canonical ≠ "char".toList := fun h => hliteral ⟨rfl, h⟩
          dsimp only
          rw [if_pos rfl, decide_eq_false htext, if_neg Bool.false_ne_true]
          rfl
        | value type => rfl
        | methodRef => rfl
        | lambda walked params body => rfl
      rw [harg]
      rcases p.assignable_of_scoreArg hscore (.inl rfl) with hfit | hboth | hchar'
      · exact hfit
      · exact absurd hboth hunion
      · exact absurd hchar' hliteral

omit [DecidableEq ι] in
theorem paramUnder_congr {sc : σ} {explicit : Bool} {subst subst' : Subst ι}
    (h : ∀ x, subst.get x = subst'.get x) (param : Param ι) :
    p.paramUnder sc explicit subst param = p.paramUnder sc explicit subst' param := by
  unfold paramUnder
  cases param.type with
  | none => rfl
  | some t =>
    dsimp only
    rw [p.substitute_congr sc t fun x _ => h x]

end ClassTable

/-! ### A variable that is matched twice -/

/-- The symbols of a small program. -/
inductive PairSymbol where
  | int_ | string_ | T
deriving DecidableEq

/-- Its scopes. -/
inductive PairScope where
  | global | inFirst
deriving DecidableEq

/-- The types `int` and `string`, and the parameter of a generic function. -/
def pairs : ClassTable PairScope PairSymbol where
  kind
    | .T => .TypeParam
    | _ => .Primitive
  decl _ := none
  scope _ := none
  enclosing
    | .global => [.global]
    | .inFirst => [.inFirst, .global]
  names sc name :=
    match sc with
    | .global =>
      if name = "int".toList then [.int_]
      else if name = "string".toList then [.string_]
      else []
    | .inFirst => if name = "T".toList then [.T] else []
  rank _ := 0
  rank_lt := by
    intro cls base hbase
    cases hbase
  symbols := [.int_, .string_, .T]
  mem_symbols := by
    intro sym
    cases sym <;> decide
  symName
    | .int_ => "int".toList
    | .string_ => "string".toList
    | .T => "T".toList
  isInterface _ := false
  members _ := []

/-- `T first<T>(T left, T right)`. -/
def first : Signature PairScope PairSymbol where
  scope := .inFirst
  generics := ["T".toList]
  params := [{ name := "left".toList, type := some (.named [] "T".toList [] none) },
    { name := "right".toList, type := some (.named [] "T".toList [] none) }]
  ret := some (.named [] "T".toList [] none)

/-- Nothing is bound around the call. -/
def pairSite : Site PairSymbol where
  exprClass := none
  hasBind _ := false
  charType := .primitive "char".toList
  charType_eq := .inl rfl

/-- A call of `first` with two values. -/
def firstCall (left right : Str) : Call PairSymbol where
  args := [{ form := .value (.primitive left) }, { form := .value (.primitive right) }]

/-- The rows of such a call. -/
def firstRows (left right : Str) : List (Row PairSymbol) :=
  [{ param := { name := "left".toList, type := some (.named [] "T".toList [] none) },
     type := .unknown, filled := .arg 0 (.value (.primitive left)) },
   { param := { name := "right".toList, type := some (.named [] "T".toList [] none) },
     type := .unknown, filled := .arg 1 (.value (.primitive right)) }]

theorem resolveCall_first (left right : Str) :
    pairs.resolveCall pairSite (firstCall left right) (.function none) "first".toList
      "first".toList [first] = .ok (first, firstRows left right) := by
  rfl

end Leviathan.Sema
