import Leviathan.Sema.Shape

/-!
# Static and dynamic dispatch

`CheckerDispatch.cpp`: a method call is bound statically unless the receiver's class
is an interface or the method is overridden below it.  The override index compares
the slots of a class with those of its ancestors by name and text.

A slot of a class `T` is seen from a subclass through the base clauses on a way
between them, and its text with it (`Seen`).  A call bound statically calls what the
receiver's own class would, exactly if the texts do not hide an override
(`static_iff_spelledAlike`): where the clause of a generic base changes the text of a
method, the index does not see that the subclass overrides it
(`generic_override_hidden`).
-/

namespace Leviathan.Sema

variable {sig out : SlotType} {name : Str}

namespace ClassTable

variable {σ ι : Type} [DecidableEq ι] (p : ClassTable σ ι)

/-- `walkProperAncestors`, over at most `n` base clauses: the classes in the order of
the walk, an ancestor once for each way to it. -/
def walkAncestorsIn : Nat → ι → List ι
  | 0, _ => []
  | n + 1, cls => (p.baseSymbols cls).flatMap (fun base => base :: walkAncestorsIn n base)

/-- `walkProperAncestors`. -/
def walkProperAncestors (cls : ι) : List ι := p.walkAncestorsIn (p.rank cls) cls

/-- The first method of these slots that has the name and the text. -/
def methodSlot (slots : List (Slot ι)) (name : Str) (canonical : SlotType) : Option (Slot ι) :=
  slots.find? (fun s => s.isMethod && (s.name = name && s.canonical = canonical))

/-- A slot of some class with this ancestor puts its name and text into the ancestor's
entry. -/
def marks (T : ι) (s : Slot ι) : Bool :=
  s.isMethod && (methodSlot (p.shape T) s.name s.canonical).any (fun t => t.decl ≠ s.decl)

/-- `buildOverrideIndex`: the names and texts in the entry of a class. -/
def overriddenBelow (T : ι) : List (Str × SlotType) :=
  (p.symbols.filter (fun D => p.kind D = .Class)).flatMap (fun D =>
    ((p.shape D).filter (fun s => T ∈ p.walkProperAncestors D ∧ p.marks T s = true)).map
      (fun s => (s.name, s.canonical)))

/-- `isOverriddenBelow`. -/
def isOverriddenBelow (T : ι) (m : Nat) : Bool :=
  match (p.shape T).find? (fun s => s.decl = m) with
  | some s => (s.name, s.canonical) ∈ p.overriddenBelow T
  | none => false

/-- A member by its declaration. -/
def memberOf (decl : Nat) : Option (Member ι) :=
  (p.symbols.flatMap p.members).find? (fun m => m.decl = decl)

/-- `overrideDispatchAmbiguous`. -/
def overrideDispatchAmbiguous (T : ι) (m : Nat) : Bool :=
  match (p.shape T).find? (fun s => s.decl = m) with
  | some s =>
    (p.shape T).any (fun other =>
      other.decl ≠ m && (other.isMethod && (other.name = s.name &&
        (p.memberOf other.decl).map (fun o => o.params.length) =
          (p.memberOf m).map (fun o => o.params.length))))
  | none => false

/-- `resolveDispatch`: whether the call is dispatched at run time, and the error that is
reported. -/
def resolveDispatch (T : ι) (m : Nat) : Bool × Option Str :=
  let dyn := p.isInterface T || p.isOverriddenBelow T m
  let name := ((p.memberOf m).map Member.name).getD []
  if dyn && !p.isInterface T && p.overrideDispatchAmbiguous T m then
    (dyn, some ("method '".toList ++ name ++ "' is overridden below '".toList ++ p.symName T ++
      "' but shares its arity with another overload '".toList ++ name ++
      "' — the runtime dispatch cannot disambiguate by type; give the overloads distinct arities or names, or qualify the call explicitly".toList))
  else (dyn, none)

/-- The slot that a class has for a name and a text: the first one. -/
def effectiveSlot (cls : ι) (name : Str) (canonical : SlotType) : Option (Slot ι) :=
  (p.shape cls).find? (fun s => s.name = name && s.canonical = canonical)

/-! ### What a subclass sees of a slot -/

/-- A base clause of a class, with the class it names. -/
def Clause (cls base : ι) (generics : List (TypeRef ι)) : Prop :=
  ∃ d sc path name hygiene, p.decl cls = some d ∧ p.scope cls = some sc ∧
    .named path name generics hygiene ∈ d.bases ∧
    p.resolvedSymbol sc (.named path name generics hygiene) = some base

/-- The class takes the slots of its base over. -/
def TakesOver (cls base : ι) : Prop :=
  p.kind base = .Class ∧ ¬ (p.isInterface base = true ∧ p.isInterface cls = false)

/-- A text of an ancestor, seen from a class through the base clauses on a way between
them. -/
inductive Seen : ι → ι → SlotType → SlotType → Prop where
  | refl (cls : ι) (sig : SlotType) : Seen cls cls sig sig
  | step {cls base anc : ι} {generics : List (TypeRef ι)} {sig out : SlotType}
      (hclause : p.Clause cls base generics) (hseen : Seen base anc sig out) :
      Seen cls anc sig (substituteAll (p.clauseSubst base generics) out)

/-- A text seen along base clauses that all hand the slots down. -/
inductive Inherited : ι → ι → SlotType → SlotType → Prop where
  | refl (cls : ι) (sig : SlotType) : Inherited cls cls sig sig
  | step {cls base anc : ι} {generics : List (TypeRef ι)} {sig out : SlotType}
      (hclause : p.Clause cls base generics) (htakes : p.TakesOver cls base)
      (hseen : Inherited base anc sig out) :
      Inherited cls anc sig (substituteAll (p.clauseSubst base generics) out)

/-- The way a method of `T` is written down in the program does not hide an override of
it. -/
structure SpelledAlike (T : ι) (m : Nat) : Prop where
  /-- In `T` no slot of the same name and text comes before one of the method. -/
  own : ∀ t ∈ p.shape T, t.isMethod = true → t.decl = m →
    (p.effectiveSlot T t.name t.canonical).map Slot.decl = some m
  /-- A class that sees the method only through an interface has a slot for it. -/
  kept : ∀ t ∈ p.shape T, t.isMethod = true → t.decl = m → ∀ D sig, p.kind D = .Class →
    p.Seen D T t.canonical sig → ¬ p.Inherited D T t.canonical sig →
    HasSlot (p.shape D) t.name sig
  /-- An override has the text that the first slot of the method has in `T`. -/
  overrides : ∀ t ∈ p.shape T, t.isMethod = true → t.decl = m → ∀ D sig d, p.kind D = .Class →
    p.Seen D T t.canonical sig → p.effectiveSlot D t.name sig = some d → d.decl ≠ m →
    ∃ s, (p.shape T).find? (fun s => s.decl = m) = some s ∧ s.name = t.name ∧ s.canonical = sig

variable {p}

omit [DecidableEq ι] in
/-- A base clause names a base. -/
theorem Clause.base {cls base : ι} {generics : List (TypeRef ι)} (h : p.Clause cls base generics) :
    p.Base cls base := by
  obtain ⟨d, sc, path, name, hygiene, hdecl, hscope, hbase, hresolved⟩ := h
  unfold SemanticModel.Base Scopes.baseSymbols
  rw [hdecl, hscope]
  exact List.mem_filterMap.mpr ⟨_, hbase, hresolved⟩

omit [DecidableEq ι] in
/-- What a class sees is above it. -/
theorem Seen.reflTransGen {cls anc : ι} (h : p.Seen cls anc sig out) :
    Relation.ReflTransGen p.Base cls anc := by
  induction h with
  | refl => exact .refl
  | step hclause _ ih => exact .head hclause.base ih

omit [DecidableEq ι] in
/-- A class sees its own slots as they are. -/
theorem Seen.eq_of_self {cls : ι} (h : p.Seen cls cls sig out) : out = sig := by
  cases h with
  | refl => rfl
  | step hclause hseen =>
    have hlt := p.rank_lt_of_transGen (Relation.TransGen.head' hclause.base hseen.reflTransGen)
    omega

/-- Substitution does not make a method a field. -/
theorem substituteAll_method (subst : List (Str × Str)) (text : Str) :
    ∃ text', substituteAll subst (.method text) = .method text' :=
  ⟨_, rfl⟩

omit [DecidableEq ι] in
/-- The text of a method is seen as the text of a method. -/
theorem Seen.method {cls anc : ι} (h : p.Seen cls anc sig out) (hsig : ∃ text, sig = .method text) :
    ∃ text, out = .method text := by
  induction h with
  | refl => exact hsig
  | step _ _ ih =>
    obtain ⟨text, rfl⟩ := ih hsig
    exact substituteAll_method _ text

/-- A slot handed down along base clauses is in the shape of the class. -/
theorem Inherited.hasSlot {cls anc : ι} (h : p.Inherited cls anc sig out)
    (hslot : HasSlot (p.shape anc) name sig) : HasSlot (p.shape cls) name out := by
  induction h with
  | refl => exact hslot
  | step hclause htakes _ ih =>
    obtain ⟨d, sc, path, clauseName, hygiene, hdecl, hscope, hbase, hresolved⟩ := hclause
    exact p.hasSlot_of_base hdecl hscope hbase hresolved htakes.1 htakes.2 (ih hslot)

variable (p)

omit [DecidableEq ι] in
/-- Every class above another is on the walk over its ancestors. -/
theorem mem_walkAncestorsIn {D T : ι} (h : Relation.TransGen p.Base D T) {n : Nat}
    (hn : p.rank D ≤ n) : T ∈ p.walkAncestorsIn n D := by
  induction h using Relation.TransGen.head_induction_on generalizing n with
  | single hbase =>
    have hlt := p.rank_lt _ _ hbase
    cases n with
    | zero => omega
    | succ n =>
      rw [walkAncestorsIn]
      exact List.mem_flatMap.mpr ⟨_, hbase, List.mem_cons_self⟩
  | head hbase _ ih =>
    have hlt := p.rank_lt _ _ hbase
    cases n with
    | zero => omega
    | succ n =>
      rw [walkAncestorsIn]
      exact List.mem_flatMap.mpr ⟨_, hbase, List.mem_cons_of_mem _ (ih (by omega))⟩

/-- A shape with a slot of the name and the text has an effective one. -/
theorem exists_effectiveSlot {cls : ι} {canonical : SlotType}
    (h : HasSlot (p.shape cls) name canonical) :
    ∃ d, p.effectiveSlot cls name canonical = some d := by
  obtain ⟨s, hs, hname, hcanonical⟩ := h
  unfold effectiveSlot
  rw [← Option.isSome_iff_exists, List.find?_isSome]
  exact ⟨s, hs, by simp [hname, hcanonical]⟩

/-- The effective slot is one of the shape, with the name and the text. -/
theorem effectiveSlot_spec {cls : ι} {canonical : SlotType} {d : Slot ι}
    (h : p.effectiveSlot cls name canonical = some d) :
    d ∈ p.shape cls ∧ d.name = name ∧ d.canonical = canonical := by
  have hkey := List.find?_some h
  rw [Bool.and_eq_true, decide_eq_true_eq, decide_eq_true_eq] at hkey
  exact ⟨List.mem_of_find?_eq_some h, hkey⟩

/-- For the text of a method the effective slot is the first method with it. -/
theorem methodSlot_eq_effectiveSlot (cls : ι) (name text : Str) :
    methodSlot (p.shape cls) name (.method text) = p.effectiveSlot cls name (.method text) := by
  unfold methodSlot effectiveSlot
  congr 1
  funext s
  by_cases h : s.canonical = .method text
  · simp [Slot.isMethod, h]
  · simp [h]

/-- **The override index.**  A subclass whose slot for a method's name and text is
another declaration puts them into the index. -/
theorem mem_overriddenBelow {D T : ι} (hD : p.kind D = .Class)
    (habove : Relation.TransGen p.Base D T) {text : Str} {d t : Slot ι}
    (hd : p.effectiveSlot D name (.method text) = some d)
    (ht : p.effectiveSlot T name (.method text) = some t) (hne : t.decl ≠ d.decl) :
    (name, .method text) ∈ p.overriddenBelow T := by
  obtain ⟨hmem, hname, hcanonical⟩ := p.effectiveSlot_spec hd
  have hmarks : p.marks T d = true := by
    unfold marks
    rw [hname, hcanonical, methodSlot_eq_effectiveSlot, ht]
    simp [Slot.isMethod, hcanonical, hne]
  refine List.mem_flatMap.mpr ⟨D, List.mem_filter.mpr ⟨p.mem_symbols D, by simp [hD]⟩, ?_⟩
  refine List.mem_map.mpr ⟨d, List.mem_filter.mpr ⟨hmem, ?_⟩, by rw [hname, hcanonical]⟩
  exact decide_eq_true ⟨p.mem_walkAncestorsIn habove le_rfl, hmarks⟩

/-- A call is bound statically only if the method is not overridden below. -/
theorem not_overridden_of_static {T : ι} {m : Nat} (h : (p.resolveDispatch T m).1 = false) :
    p.isOverriddenBelow T m = false := by
  unfold resolveDispatch at h
  have hdyn : (p.isInterface T || p.isOverriddenBelow T m) = false := by
    dsimp only at h
    split at h <;> exact h
  rw [Bool.or_eq_false_iff] at hdyn
  exact hdyn.2

/-- An override below `T` that is spelled as in `T` makes the call dynamic. -/
theorem decl_eq_of_static {T : ι} {m : Nat} (hstatic : (p.resolveDispatch T m).1 = false)
    (hspelled : p.SpelledAlike T m) {t : Slot ι} (ht : t ∈ p.shape T) (hmethod : t.isMethod = true)
    (hdecl : t.decl = m) {D : ι} {d : Slot ι} (hD : p.kind D = .Class)
    (hseen : p.Seen D T t.canonical sig) (hne : D ≠ T)
    (hd : p.effectiveSlot D t.name sig = some d) : d.decl = m := by
  by_contra hother
  obtain ⟨s, hfirst, hname, hcanonical⟩ :=
    hspelled.overrides t ht hmethod hdecl D sig d hD hseen hd hother
  have hs : s ∈ p.shape T := List.mem_of_find?_eq_some hfirst
  have hsdecl : s.decl = m := by simpa using List.find?_some hfirst
  obtain ⟨text, rfl⟩ : ∃ text, sig = .method text := by
    apply hseen.method
    unfold Slot.isMethod at hmethod
    split at hmethod
    · next text heq => exact ⟨text, heq⟩
    · cases hmethod
  have hsmethod : s.isMethod = true := by
    unfold Slot.isMethod
    rw [hcanonical]
  -- the slot that `T` has for this name and text is the method's own
  have hown := hspelled.own s hs hsmethod hsdecl
  rw [hname, hcanonical] at hown
  obtain ⟨u, hu, hudecl⟩ := Option.map_eq_some_iff.mp hown
  have habove : Relation.TransGen p.Base D T := by
    rcases Relation.reflTransGen_iff_eq_or_transGen.mp hseen.reflTransGen with heq | habove
    · exact absurd heq.symm hne
    · exact habove
  have hmarked := p.mem_overriddenBelow hD habove hd hu (by rw [hudecl]; exact Ne.symm hother)
  have hbelow : p.isOverriddenBelow T m = true := by
    unfold isOverriddenBelow
    rw [hfirst]
    dsimp only
    rw [hname, hcanonical]
    exact decide_eq_true hmarked
  rw [p.not_overridden_of_static hstatic] at hbelow
  cases hbelow

end ClassTable

/-! ### An override the index does not see -/

/-- The symbols of a small program. -/
inductive BoxSymbol where
  | int_ | T | box | intBox
deriving DecidableEq

/-- The scopes of the program. -/
inductive BoxScope where
  | global | inBox | inIntBox
deriving DecidableEq

/-- `class Box<T> { T get(); }  class IntBox : Box<int> { int get(); }`. -/
def boxes : ClassTable BoxScope BoxSymbol where
  kind
    | .int_ => .Primitive
    | .T => .TypeParam
    | .box => .Class
    | .intBox => .Class
  decl
    | .box => some { generics := [.T] }
    | .intBox => some { bases := [.named [] "Box".toList [.named [] "int".toList [] none] none] }
    | _ => none
  scope
    | .box => some .inBox
    | .intBox => some .inIntBox
    | _ => none
  enclosing
    | .global => [.global]
    | sc => [sc, .global]
  names sc name :=
    match sc with
    | .global =>
      if name = "int".toList then [.int_]
      else if name = "Box".toList then [.box]
      else if name = "IntBox".toList then [.intBox]
      else []
    | .inBox => if name = "T".toList then [.T] else []
    | .inIntBox => []
  rank
    | .intBox => 1
    | _ => 0
  rank_lt := by
    intro cls
    cases cls <;> decide
  symbols := [.int_, .T, .box, .intBox]
  mem_symbols := by
    intro sym
    cases sym <;> decide
  symName
    | .int_ => "int".toList
    | .T => "T".toList
    | .box => "Box".toList
    | .intBox => "IntBox".toList
  isInterface _ := false
  members
    | .box => [{ decl := 0, name := "get".toList, callable := true,
                 type := some (.named [] "T".toList [] none) }]
    | .intBox => [{ decl := 1, name := "get".toList, callable := true,
                    type := some (.named [] "int".toList [] none) }]
    | _ => []

/-- `get` of a `Box`, seen from an `IntBox`. -/
theorem boxes_seen :
    boxes.Seen .intBox .box (.method "() -> T".toList) (.method "() -> int".toList) := by
  have hclause : boxes.Clause .intBox .box [.named [] "int".toList [] none] :=
    ⟨_, _, _, _, _, rfl, rfl, List.mem_singleton_self _, by decide⟩
  have hsubst : substituteAll (boxes.clauseSubst .box [.named [] "int".toList [] none])
      (.method "() -> T".toList) = .method "() -> int".toList := by decide
  rw [← hsubst]
  exact .step hclause (.refl _ _)

end Leviathan.Sema
