import Leviathan.Sema.Formed

/-!
# When assignability is sound

`assignable` compares types by their text before it looks at symbols, and it asks
only for a subclass when the symbols differ.  Neither is always right: two classes
of one name in different namespaces have the same text, and a class that inherits
from `Box<int>` is taken for a `Box<string>`.

`Exact` says that neither happens among the types of a program: a text stands for one
symbol, and the arguments of a base class are those its subclasses give it.
`assignable_sound_iff` says that this is exactly when `assignable` implies inclusion
of values and is transitive.
-/

namespace Leviathan.Sema

open List

variable {σ ι : Type} [DecidableEq ι]

/-- A well-formed type of a program, with the scope it is written in. -/
structure BuiltType (s : SemanticModel σ ι) where
  scope : σ
  ref : TypeRef ι
  formed : Formed s.toScopes scope ref

namespace BuiltType

variable {s : SemanticModel σ ι} (A : BuiltType s)

/-- The checker's type. -/
def type : Ty ι := fromTypeRef s.toScopes A.scope A.ref

/-- Its text. -/
def canonical : Str := A.ref.canonical

/-- Its alternatives. -/
def meaning : Meaning ι := Sema.meaning s.toScopes A.scope (fun _ => none) A.ref

/-- The values of the type. -/
def Has (v : Value ι) : Prop := HasType s v A.meaning

/-- The symbol of a named type. -/
def symbol : Option ι := s.resolvedSymbol A.scope A.ref

/-- The arguments of a named type. -/
def args : List (Meaning ι) :=
  match A.ref with
  | .named _ _ generics _ => generics.map (Sema.meaning s.toScopes A.scope (fun _ => none))
  | _ => []

end BuiltType

/-- Texts and base clauses do not mislead: a text of a named type stands for one
symbol, and a class seen as one of its base classes has the arguments that the base
class is asked for. -/
structure Exact (s : SemanticModel σ ι) : Prop where
  spelling : ∀ (A B : BuiltType s) (a b : ι), A.symbol = some a → B.symbol = some b →
    A.canonical = B.canonical → a = b
  bases : ∀ (A B : BuiltType s) (a b : ι), A.symbol = some a → B.symbol = some b →
    s.kind a = .Class → s.kind b = .Class → a ≠ b → s.isSubclass a b = true →
    ∃ out, View s a A.args b out ∧ SameTypes out B.args

/-! ### Lists compared through their texts -/

variable {α β γ : Type} {xs : List α}

/-- Lists with the same images under `f` have the same images under `g`, if elements do. -/
private theorem map_eq_of_map_eq {f : α → β} {g g' : α → γ} {ys : List α} (h : xs.map f = ys.map f)
    (hstep : ∀ x ∈ xs, ∀ y ∈ ys, f x = f y → g x = g' y) :
    xs.map g = ys.map g' := by
  induction xs generalizing ys with
  | nil =>
    obtain rfl : [] = ys := (List.map_eq_nil_iff.mp h.symm).symm
    rfl
  | cons x xs ih =>
    cases ys with
    | nil => cases h
    | cons y ys =>
      rw [map_cons, map_cons] at h
      obtain ⟨hhead, htail⟩ := List.cons.inj h
      rw [map_cons, map_cons, hstep x mem_cons_self y mem_cons_self hhead,
        ih htail fun x hx y hy => hstep x (mem_cons_of_mem _ hx) y (mem_cons_of_mem _ hy)]

/-- The same for the concatenation of images, where `f` gives one element each. -/
private theorem flatMap_eq_of_flatMap_eq {f : α → List β} {g g' : α → List γ} {ys : List α}
    (hxs : ∀ x ∈ xs, ∃ b, f x = [b]) (hys : ∀ y ∈ ys, ∃ b, f y = [b])
    (h : xs.flatMap f = ys.flatMap f) (hstep : ∀ x ∈ xs, ∀ y ∈ ys, f x = f y → g x = g' y) :
    xs.flatMap g = ys.flatMap g' := by
  have hsingle : ∀ zs : List α, (∀ z ∈ zs, ∃ b, f z = [b]) →
      (zs.map f) = (zs.flatMap f).map fun b => [b] := by
    intro zs hzs
    induction zs with
    | nil => rfl
    | cons z zs ih =>
      obtain ⟨b, hb⟩ := hzs z mem_cons_self
      rw [map_cons, flatMap_cons, hb, ih fun z hz => hzs z (mem_cons_of_mem _ hz)]
      rfl
  have hmap : xs.map f = ys.map f := by rw [hsingle xs hxs, hsingle ys hys, h]
  rw [flatMap_def, flatMap_def, map_eq_of_map_eq hmap hstep]

/-- Related lists stay related by what their elements satisfy. -/
private theorem forall₂_imp_of_mem {R S : α → β → Prop} {ys : List β} (h : List.Forall₂ R xs ys)
    (himp : ∀ x ∈ xs, ∀ y ∈ ys, R x y → S x y) :
    List.Forall₂ S xs ys := by
  induction h with
  | nil => exact .nil
  | @cons x y xs ys hxy _ ih =>
    refine .cons (himp x mem_cons_self y mem_cons_self hxy) (ih ?_)
    intro a ha b hb
    exact himp a (mem_cons_of_mem _ ha) b (mem_cons_of_mem _ hb)

/-- Related lists compose. -/
private theorem forall₂_trans_of_mem {R : α → β → Prop} {S : β → γ → Prop} {T : α → γ → Prop}
    {ys : List β} {zs : List γ} (h : List.Forall₂ R xs ys) (h' : List.Forall₂ S ys zs)
    (hstep : ∀ x ∈ xs, ∀ y ∈ ys, ∀ z ∈ zs, R x y → S y z → T x z) : List.Forall₂ T xs zs := by
  induction h generalizing zs with
  | nil =>
    cases h'
    exact .nil
  | @cons x y xs ys hxy _ ih =>
    cases h' with
    | @cons _ z _ zs hyz hrest =>
      refine .cons (hstep x mem_cons_self y mem_cons_self z mem_cons_self hxy hyz)
        (ih hrest ?_)
      intro a ha b hb c hc
      exact hstep a (mem_cons_of_mem _ ha) b (mem_cons_of_mem _ hb) c
        (mem_cons_of_mem _ hc)

/-! ### Same text, same type -/

variable {t u w : TypeRef ι} {ys : List (Ty ι)} {scope₁ scope₂ scope₃ : σ}

section
variable {s : SemanticModel σ ι} {scope scope' : σ}

/-- Named types that are spelled alike mean the same. -/
theorem meaning_eq_of_term (hexact : Exact s) (env : ι → Option (Meaning ι)) (term : Spelling.Term) :
    ∀ (t u : TypeRef ι) (scope scope' : σ), Formed s.toScopes scope t → t.isUnion = false →
      Formed s.toScopes scope' u → u.isUnion = false → t.spelling = [term] → u.spelling = [term] →
      meaning s.toScopes scope env t = meaning s.toScopes scope' env u := by
  induction term using Spelling.Term.induction with
  | app head args ih =>
    intro t u scope scope' ht htatom hu huatom hspell hspell'
    have htext : t.canonical = u.canonical := by
      rw [ht.canonical_eq_alts.1, hu.canonical_eq_alts.1, hspell, hspell']
    obtain ⟨_, _, gs, _, sym, rfl, hsym, hgs, hmean⟩ := ht.named_cases htatom
    obtain ⟨_, _, gs', _, sym', rfl, hsym', hgs', hmean'⟩ := hu.named_cases huatom
    obtain rfl := hexact.spelling ⟨scope, _, ht⟩ ⟨scope', _, hu⟩ sym sym' hsym hsym' htext
    rcases hmean with ⟨hkind, -, hmean⟩ | ⟨hkind, -, -, hmean⟩
    · rcases hmean' with ⟨-, -, hmean'⟩ | ⟨hkind', -⟩
      · rw [hmean, hmean']
      · rw [hkind] at hkind'
        cases hkind'
    · rcases hmean' with ⟨hkind', -⟩ | ⟨-, -, -, hmean'⟩
      · rw [hkind] at hkind'
        cases hkind'
      · -- the arguments are spelled alike one by one, and so are their atoms
        have hargs : gs.map TypeRef.spelling = args := by
          rw [TypeRef.spelling, TypeRef.spellings_eq_map] at hspell
          exact (Spelling.Term.app.inj (List.cons.inj hspell).1).2
        have hargs' : gs'.map TypeRef.spelling = args := by
          rw [TypeRef.spelling, TypeRef.spellings_eq_map] at hspell'
          exact (Spelling.Term.app.inj (List.cons.inj hspell').1).2
        have hmap : gs.map (meaning s.toScopes scope env) =
            gs'.map (meaning s.toScopes scope' env) := by
          refine map_eq_of_map_eq (hargs.trans hargs'.symm) ?_
          intro g hg g' hg' hspelling
          have hmem : g.spelling ∈ args := hargs ▸ mem_map_of_mem hg
          obtain ⟨-, hatoms⟩ := (hgs g hg).atoms
          obtain ⟨-, hatoms'⟩ := (hgs' g' hg').atoms
          rw [(hgs g hg).meaning_eq_flatMap, (hgs' g' hg').meaning_eq_flatMap]
          have hflat := hspelling
          rw [(hgs g hg).spelling_eq_flatMap, (hgs' g' hg').spelling_eq_flatMap] at hflat
          refine flatMap_eq_of_flatMap_eq
            (fun x hx => (hatoms x hx).1.spelling_named (hatoms x hx).2)
            (fun y hy => (hatoms' y hy).1.spelling_named (hatoms' y hy).2) hflat ?_
          intro x hx y hy hxy
          obtain ⟨xterm, hxterm⟩ := (hatoms x hx).1.spelling_named (hatoms x hx).2
          refine ih g.spelling hmem xterm ?_ x y scope scope' (hatoms x hx).1 (hatoms x hx).2
            (hatoms' y hy).1 (hatoms' y hy).2 hxterm (hxy ▸ hxterm)
          rw [(hgs g hg).spelling_eq_flatMap]
          refine List.mem_flatMap.mpr ⟨x, hx, ?_⟩
          rw [hxterm]
          exact mem_singleton_self _
        rw [hmean, hmean', hmap]

/-- **Same text, same type.** -/
theorem meaning_eq_of_canonical_eq (hexact : Exact s) (ht : Formed s.toScopes scope t)
    (hu : Formed s.toScopes scope' u) (h : t.canonical = u.canonical)
    (env : ι → Option (Meaning ι)) :
    meaning s.toScopes scope env t = meaning s.toScopes scope' env u := by
  obtain ⟨-, hatoms⟩ := ht.atoms
  obtain ⟨-, hatoms'⟩ := hu.atoms
  have hflat := ht.spelling_eq hu h
  rw [ht.spelling_eq_flatMap, hu.spelling_eq_flatMap] at hflat
  rw [ht.meaning_eq_flatMap, hu.meaning_eq_flatMap]
  refine flatMap_eq_of_flatMap_eq
    (fun x hx => (hatoms x hx).1.spelling_named (hatoms x hx).2)
    (fun y hy => (hatoms' y hy).1.spelling_named (hatoms' y hy).2) hflat ?_
  intro x hx y hy hxy
  obtain ⟨term, hterm⟩ := (hatoms x hx).1.spelling_named (hatoms x hx).2
  exact meaning_eq_of_term hexact env term x y scope scope' (hatoms x hx).1 (hatoms x hx).2
    (hatoms' y hy).1 (hatoms' y hy).2 hterm (hxy ▸ hterm)

omit [DecidableEq ι] in
/-- The arguments of named types with the same text have the same texts. -/
theorem canonical_args_eq {path path' : List Str} {name name' : Str} {gs gs' : List (TypeRef ι)}
    {hyg hyg' : Option ι} (ht : Formed s.toScopes scope (.named path name gs hyg))
    (hu : Formed s.toScopes scope' (.named path' name' gs' hyg'))
    (h : (TypeRef.named path name gs hyg).canonical = (TypeRef.named path' name' gs' hyg').canonical) :
    gs.map TypeRef.canonical = gs'.map TypeRef.canonical := by
  have hspelling := ht.spelling_eq hu h
  rw [TypeRef.spelling, TypeRef.spelling, TypeRef.spellings_eq_map, TypeRef.spellings_eq_map]
    at hspelling
  rw [Formed] at ht hu
  have hgs := formedAll_iff.mp ht.2.2
  have hgs' := formedAll_iff.mp hu.2.2
  refine map_eq_of_map_eq (Spelling.Term.app.inj (List.cons.inj hspelling).1).2 ?_
  intro g hg g' hg' hgg
  rw [(hgs g hg).canonical_eq_alts.1, (hgs' g' hg').canonical_eq_alts.1, hgg]

/-! ### `sameNominalType` -/

/-- `sameNominalType` argument by argument. -/
theorem sameNominalTypes_iff {as bs : List (Ty ι)} :
    sameNominalTypes as bs = true ↔ List.Forall₂ (fun a b => sameNominalType a b = true) as bs := by
  induction as generalizing bs with
  | nil =>
    cases bs with
    | nil => simp [sameNominalTypes]
    | cons b bs => simp [sameNominalTypes]
  | cons a as ih =>
    cases bs with
    | nil => simp [sameNominalTypes]
    | cons b bs => simp [sameNominalTypes, ih]

/-- What nominal sameness says. -/
theorem sameNominalType_iff {a b : Ty ι} :
    sameNominalType a b = true ↔ a.canonical = b.canonical ∨
      ∃ x cx xs cy ys, a = .class_ x cx xs ∧ b = .class_ x cy ys ∧
        List.Forall₂ (fun a b => sameNominalType a b = true) xs ys := by
  cases a with
  | class_ x cx xs =>
    cases b with
    | class_ y cy ys =>
      rw [sameNominalType, Bool.or_eq_true, Bool.and_eq_true, decide_eq_true_eq,
        decide_eq_true_eq, sameNominalTypes_iff]
      constructor
      · intro h
        rcases h with h | ⟨rfl, h⟩
        · exact .inl h
        · exact .inr ⟨x, cx, xs, cy, ys, rfl, rfl, h⟩
      · intro h
        rcases h with h | ⟨_, _, _, _, _, heq, heq', h⟩
        · exact .inl h
        · cases heq
          cases heq'
          exact .inr ⟨rfl, h⟩
    | _ => simp [sameNominalType]
  | _ => simp [sameNominalType]

omit [DecidableEq ι] in
/-- A class type comes from a named reference to the class. -/
theorem Formed.of_class {x : ι} {c : Str} {xs : List (Ty ι)} (ht : Formed s.toScopes scope t)
    (h : fromTypeRef s.toScopes scope t = .class_ x c xs) :
    ∃ path name gs hyg, t = .named path name gs hyg ∧ s.resolvedSymbol scope t = some x ∧
      s.kind x = .Class ∧ xs = gs.map (fromTypeRef s.toScopes scope) ∧
      (∀ g ∈ gs, Formed s.toScopes scope g) ∧
      ∀ env, meaning s.toScopes scope env t = [.inst x (gs.map (meaning s.toScopes scope env))] := by
  rcases ht.cases with ⟨_, _, _, _, -, hatom, -⟩ | ⟨members, rfl, -, -, -⟩
  · obtain ⟨path, name, gs, hyg, sym, rfl, hsym, hgs, ⟨-, htype, -⟩ | ⟨hkind, -, htype, hmean⟩⟩ :=
      ht.named_cases hatom
    · rw [htype] at h
      cases h
    · rw [htype] at h
      cases h
      exact ⟨path, name, gs, hyg, rfl, hsym, hkind, rfl, hgs, hmean⟩
  · rw [fromTypeRef] at h
    cases h

/-- Types that are nominally the same are the same types. -/
theorem sameType_of_sameNominalType (hexact : Exact s) (env : ι → Option (Meaning ι))
    (ht : Formed s.toScopes scope t) (hu : Formed s.toScopes scope' u)
    (h : sameNominalType (fromTypeRef s.toScopes scope t) (fromTypeRef s.toScopes scope' u) = true) :
    SameType (meaning s.toScopes scope env t) (meaning s.toScopes scope' env u) := by
  induction t using TypeRef.induction generalizing u with
  | inferred => exact absurd ht (by simp [Formed])
  | function params ret _ _ => exact absurd ht (by simp [Formed])
  | union members _ =>
    rcases sameNominalType_iff.mp h with h | ⟨_, _, _, _, _, hcls, -⟩
    · rw [ht.canonical_fromTypeRef, hu.canonical_fromTypeRef] at h
      rw [meaning_eq_of_canonical_eq hexact ht hu h]
      exact .refl _
    · rw [fromTypeRef] at hcls
      cases hcls
  | named path name generics hygiene ih =>
    rcases sameNominalType_iff.mp h with h | ⟨_, _, _, _, _, hcls, hcls', hargs⟩
    · rw [ht.canonical_fromTypeRef, hu.canonical_fromTypeRef] at h
      rw [meaning_eq_of_canonical_eq hexact ht hu h]
      exact .refl _
    · obtain ⟨_, _, gs, _, heq, -, -, rfl, hgs, hmean⟩ := ht.of_class hcls
      obtain ⟨_, _, gs', _, -, -, -, rfl, hgs', hmean'⟩ := hu.of_class hcls'
      cases heq
      rw [hmean, hmean']
      apply SameTypes.inst
      unfold SameTypes
      rw [forall₂_map_left_iff, forall₂_map_right_iff] at hargs ⊢
      exact forall₂_imp_of_mem hargs fun g hg g' hg' hsame =>
        ih g hg (hgs g hg) (hgs' g' hg') hsame

/-- Arguments with the same texts are nominally the same. -/
theorem forall₂_of_canonical_eq {xs : List (Ty ι)} (h : xs.map Ty.canonical = ys.map Ty.canonical) :
    List.Forall₂ (fun a b => sameNominalType a b = true) xs ys := by
  induction xs generalizing ys with
  | nil =>
    obtain rfl : [] = ys := (List.map_eq_nil_iff.mp h.symm).symm
    exact .nil
  | cons x xs ih =>
    cases ys with
    | nil => cases h
    | cons y ys =>
      rw [map_cons, map_cons] at h
      obtain ⟨hhead, htail⟩ := List.cons.inj h
      exact .cons (sameNominalType_iff.mpr (.inl hhead)) (ih htail)

/-- A type with the text of a class type is the same class, with arguments of the
same texts. -/
theorem class_of_canonical_eq (hexact : Exact s) {y : ι} {cy : Str} (ht : Formed s.toScopes scope t)
    (hu : Formed s.toScopes scope' u) (h : t.canonical = u.canonical)
    (hcls : fromTypeRef s.toScopes scope' u = .class_ y cy ys) :
    ∃ cx xs, fromTypeRef s.toScopes scope t = .class_ y cx xs ∧
      xs.map Ty.canonical = ys.map Ty.canonical := by
  obtain ⟨path', name', gs', hyg', rfl, hsym', hkind', rfl, hgs', -⟩ := hu.of_class hcls
  have hatom : t.isUnion = false := by
    rcases ht.cases with ⟨_, _, _, _, -, hatom, -⟩ | ⟨_, -, hunion, -, -⟩
    · exact hatom
    · exact absurd h.symm (hu.canonical_ne_union rfl ht hunion)
  obtain ⟨path, name, gs, hyg, sym, rfl, hsym, hgs, hcases⟩ := ht.named_cases hatom
  obtain rfl := hexact.spelling ⟨scope, _, ht⟩ ⟨scope', _, hu⟩ sym y hsym hsym' h
  rcases hcases with ⟨hkind, -⟩ | ⟨-, -, htype, -⟩
  · rw [hkind] at hkind'
    cases hkind'
  · refine ⟨_, _, htype, ?_⟩
    rw [map_canonical_fromTypeRef hgs, map_canonical_fromTypeRef hgs']
    exact canonical_args_eq ht hu h

section
variable (hexact : Exact s) (ht : Formed s.toScopes scope₁ t) (hu : Formed s.toScopes scope₂ u)
  (hw : Formed s.toScopes scope₃ w)
  (htu : sameNominalType (fromTypeRef s.toScopes scope₁ t) (fromTypeRef s.toScopes scope₂ u) = true)
  (huw : sameNominalType (fromTypeRef s.toScopes scope₂ u) (fromTypeRef s.toScopes scope₃ w) = true)
include hexact ht hu hw htu huw

/-- Two steps of nominal sameness: one text all along, or one class all along. -/
theorem sameNominalType_chain :
    t.canonical = w.canonical ∨
      ∃ y cx xs cy ys cz zs, fromTypeRef s.toScopes scope₁ t = .class_ y cx xs ∧
        fromTypeRef s.toScopes scope₂ u = .class_ y cy ys ∧
        fromTypeRef s.toScopes scope₃ w = .class_ y cz zs ∧
        List.Forall₂ (fun a b => sameNominalType a b = true) xs ys ∧
        List.Forall₂ (fun a b => sameNominalType a b = true) ys zs := by
  rw [sameNominalType_iff] at htu huw
  rw [ht.canonical_fromTypeRef, hu.canonical_fromTypeRef] at htu
  rw [hu.canonical_fromTypeRef, hw.canonical_fromTypeRef] at huw
  rcases htu with htu | ⟨y, cx, xs, cy, ys, hclsT, hclsU, hxy⟩
  · rcases huw with huw | ⟨y, cy, ys, cz, zs, hclsU, hclsW, hyz⟩
    · exact .inl (htu.trans huw)
    · obtain ⟨cx, xs, hclsT, htexts⟩ := class_of_canonical_eq hexact ht hu htu hclsU
      exact .inr ⟨y, cx, xs, cy, ys, cz, zs, hclsT, hclsU, hclsW,
        forall₂_of_canonical_eq htexts, hyz⟩
  · rcases huw with huw | ⟨y', cy', ys', cz, zs, hclsU', hclsW, hyz⟩
    · obtain ⟨cz, zs, hclsW, htexts⟩ := class_of_canonical_eq hexact hw hu huw.symm hclsU
      exact .inr ⟨y, cx, xs, cy, ys, cz, zs, hclsT, hclsU, hclsW, hxy,
        forall₂_of_canonical_eq htexts.symm⟩
    · rw [hclsU] at hclsU'
      cases hclsU'
      exact .inr ⟨y, cx, xs, cy, ys, cz, zs, hclsT, hclsU, hclsW, hxy, hyz⟩

/-- Nominal sameness is transitive. -/
theorem sameNominalType_trans :
    sameNominalType (fromTypeRef s.toScopes scope₁ t) (fromTypeRef s.toScopes scope₃ w) = true := by
  induction t using TypeRef.induction generalizing u w with
  | inferred => exact absurd ht (by simp [Formed])
  | function params ret _ _ => exact absurd ht (by simp [Formed])
  | union members _ =>
    rcases sameNominalType_chain hexact ht hu hw htu huw with h | ⟨_, _, _, _, _, _, _, hcls, -⟩
    · rw [sameNominalType_iff, ht.canonical_fromTypeRef, hw.canonical_fromTypeRef]
      exact .inl h
    · rw [fromTypeRef] at hcls
      cases hcls
  | named path name generics hygiene ih =>
    rcases sameNominalType_chain hexact ht hu hw htu huw with
      h | ⟨y, cx, xs, cy, ys, cz, zs, hclsT, hclsU, hclsW, hxy, hyz⟩
    · rw [sameNominalType_iff, ht.canonical_fromTypeRef, hw.canonical_fromTypeRef]
      exact .inl h
    · obtain ⟨_, _, gs₁, _, heq, -, -, rfl, hgs₁, -⟩ := ht.of_class hclsT
      obtain ⟨_, _, gs₂, _, -, -, -, rfl, hgs₂, -⟩ := hu.of_class hclsU
      obtain ⟨_, _, gs₃, _, -, -, -, rfl, hgs₃, -⟩ := hw.of_class hclsW
      cases heq
      refine sameNominalType_iff.mpr (.inr ⟨y, cx, _, cz, _, hclsT, hclsW, ?_⟩)
      rw [forall₂_map_left_iff, forall₂_map_right_iff] at hxy hyz ⊢
      exact forall₂_trans_of_mem hxy hyz fun g₁ hg₁ g₂ hg₂ g₃ hg₃ h₁₂ h₂₃ =>
        ih g₁ hg₁ (hgs₁ g₁ hg₁) (hgs₂ g₂ hg₂) (hgs₃ g₃ hg₃) h₁₂ h₂₃

end

/-! ### Atoms -/

omit [DecidableEq ι] in
/-- A text with arguments has a bracket in it. -/
theorem isRaw_eq_false {path : List Str} {name : Str} {gs : List (TypeRef ι)} {hyg : Option ι}
    (h : gs ≠ []) : SemanticModel.isRaw (TypeRef.named path name gs hyg).canonical = false := by
  obtain ⟨g, gs, rfl⟩ := exists_cons_of_ne_nil h
  rw [TypeRef.canonical, SemanticModel.isRaw, Bool.not_eq_false', contains_iff_mem]
  simp

/-- **Atoms.**  A named type is assignable to another one if they have the same text,
are one class with nominally the same arguments, or the first is a class that
inherits from the second. -/
theorem assignableTo_iff (ht : Formed s.toScopes scope t) (htatom : t.isUnion = false)
    (hu : Formed s.toScopes scope' u) (huatom : u.isUnion = false) :
    s.assignableTo (fromTypeRef s.toScopes scope t) (fromTypeRef s.toScopes scope' u) = true ↔
      t.canonical = u.canonical ∨
      ∃ x cx xs y cy ys, fromTypeRef s.toScopes scope t = .class_ x cx xs ∧
        fromTypeRef s.toScopes scope' u = .class_ y cy ys ∧
        ((x = y ∧ List.Forall₂ (fun a b => sameNominalType a b = true) xs ys) ∨
          (x ≠ y ∧ s.isSubclass x y = true)) := by
  have htext := ht.canonical_fromTypeRef
  have htext' := hu.canonical_fromTypeRef
  obtain ⟨_, _, gs, _, x, rfl, -, -, hcases⟩ := ht.named_cases htatom
  obtain ⟨_, _, gs', _, y, rfl, -, -, hcases'⟩ := hu.named_cases huatom
  unfold SemanticModel.assignableTo
  rw [Bool.or_eq_true, decide_eq_true_eq, htext, htext']
  refine or_congr_right ?_
  rcases hcases with ⟨-, htype, -⟩ | ⟨-, ⟨d, hd, hlen⟩, htype, -⟩
  · rw [htype]
    constructor
    · intro h
      cases h
    · intro h
      obtain ⟨_, _, _, _, _, _, hcls, -⟩ := h
      cases hcls
  · rcases hcases' with ⟨-, htype', -⟩ | ⟨-, ⟨d', hd', hlen'⟩, htype', -⟩
    · rw [htype, htype']
      constructor
      · intro h
        cases h
      · intro h
        obtain ⟨_, _, _, _, _, _, -, hcls, -⟩ := h
        cases hcls
    · rw [htype, htype']
      dsimp only
      by_cases hxy : x = y
      · -- the class has as many parameters on both sides, so both are raw or none is
        rw [if_pos hxy, Bool.or_eq_true, Bool.or_eq_true, sameNominalTypes_iff]
        have hraw : gs = [] ↔ gs' = [] := by
          rw [hxy, hd'] at hd
          rw [← length_eq_zero_iff, ← length_eq_zero_iff, hlen, hlen', Option.some.inj hd]
        constructor
        · intro h
          refine ⟨x, _, _, y, _, _, rfl, rfl, .inl ⟨hxy, ?_⟩⟩
          by_cases hnil : gs = []
          · rw [hnil, hraw.mp hnil]
            exact .nil
          · have hnil' : gs' ≠ [] := fun h => hnil (hraw.mpr h)
            rw [isRaw_eq_false hnil, isRaw_eq_false hnil'] at h
            rcases h with (h | h) | h
            · cases h
            · cases h
            · exact h
        · intro h
          obtain ⟨_, _, _, _, _, _, hcls, hcls', ⟨-, h⟩ | ⟨hne, -⟩⟩ := h
          · cases hcls
            cases hcls'
            exact .inr h
          · cases hcls
            cases hcls'
            exact absurd hxy hne
      · rw [if_neg hxy]
        constructor
        · intro h
          exact ⟨x, _, _, y, _, _, rfl, rfl, .inr ⟨hxy, h⟩⟩
        · intro h
          obtain ⟨_, _, _, _, _, _, hcls, hcls', ⟨heq, -⟩ | ⟨-, h⟩⟩ := h
          · cases hcls
            cases hcls'
            exact absurd heq hxy
          · cases hcls
            cases hcls'
            exact h

/-- A value of an atom is a value of what the atom is assignable to. -/
theorem assignableTo_sound (hexact : Exact s) (ht : Formed s.toScopes scope t)
    (htatom : t.isUnion = false) (hu : Formed s.toScopes scope' u) (huatom : u.isUnion = false)
    (h : s.assignableTo (fromTypeRef s.toScopes scope t) (fromTypeRef s.toScopes scope' u) = true)
    {v : Value ι} (hv : HasType s v (meaning s.toScopes scope (fun _ => none) t)) :
    HasType s v (meaning s.toScopes scope' (fun _ => none) u) := by
  rcases (assignableTo_iff ht htatom hu huatom).mp h with
    htext | ⟨x, cx, xs, y, cy, ys, hcls, hcls', hcases⟩
  · rw [← meaning_eq_of_canonical_eq hexact ht hu htext]
    exact hv
  · obtain ⟨_, _, gs, _, rfl, hsym, hkind, rfl, hgs, hmean⟩ := ht.of_class hcls
    obtain ⟨_, _, gs', _, rfl, hsym', hkind', rfl, hgs', hmean'⟩ := hu.of_class hcls'
    rw [hmean] at hv
    obtain ⟨a, ha, hva⟩ := hv
    rw [List.mem_singleton.mp ha] at hva
    rw [hmean']
    refine ⟨_, mem_singleton_self _, ?_⟩
    cases v with
    | prim p => exact absurd hva (by simp [InAtom])
    | instance_ c args =>
      obtain ⟨mid, hview, hsame⟩ := hva
      rcases hcases with ⟨rfl, hargs⟩ | ⟨hne, hsub⟩
      · have hsame' : SameTypes (gs.map (meaning s.toScopes scope fun _ => none))
            (gs'.map (meaning s.toScopes scope' fun _ => none)) := by
          unfold SameTypes
          rw [forall₂_map_left_iff, forall₂_map_right_iff] at hargs ⊢
          exact forall₂_imp_of_mem hargs fun g hg g' hg' hnom =>
            sameType_of_sameNominalType hexact _ (hgs g hg) (hgs' g' hg') hnom
        exact ⟨mid, hview, hsame.trans hsame'⟩
      · obtain ⟨out, hup, hout⟩ := hexact.bases ⟨scope, _, ht⟩ ⟨scope', _, hu⟩ x y hsym hsym'
          hkind hkind' hne hsub
        obtain ⟨out', hup', hout'⟩ := hup.congr hsame.symm
        exact ⟨out', hview.trans hup', hout'.symm.trans hout⟩

/-- Nominally the same arguments, taken over two steps. -/
theorem forall₂_sameNominalType_trans (hexact : Exact s) (ht : Formed s.toScopes scope₁ t)
    (hu : Formed s.toScopes scope₂ u) (hw : Formed s.toScopes scope₃ w) {x : ι} {cx cy cz : Str}
    {xs zs : List (Ty ι)} (hclsT : fromTypeRef s.toScopes scope₁ t = .class_ x cx xs)
    (hclsU : fromTypeRef s.toScopes scope₂ u = .class_ x cy ys)
    (hclsW : fromTypeRef s.toScopes scope₃ w = .class_ x cz zs)
    (hxy : List.Forall₂ (fun a b => sameNominalType a b = true) xs ys)
    (hyz : List.Forall₂ (fun a b => sameNominalType a b = true) ys zs) :
    List.Forall₂ (fun a b => sameNominalType a b = true) xs zs := by
  obtain ⟨_, _, gs₁, _, -, -, -, rfl, hgs₁, -⟩ := ht.of_class hclsT
  obtain ⟨_, _, gs₂, _, -, -, -, rfl, hgs₂, -⟩ := hu.of_class hclsU
  obtain ⟨_, _, gs₃, _, -, -, -, rfl, hgs₃, -⟩ := hw.of_class hclsW
  rw [forall₂_map_left_iff, forall₂_map_right_iff] at hxy hyz ⊢
  exact forall₂_trans_of_mem hxy hyz fun g₁ hg₁ g₂ hg₂ g₃ hg₃ h₁₂ h₂₃ =>
    sameNominalType_trans hexact (hgs₁ g₁ hg₁) (hgs₂ g₂ hg₂) (hgs₃ g₃ hg₃) h₁₂ h₂₃

/-- Assignability of atoms is transitive. -/
theorem assignableTo_trans (hexact : Exact s) (ht : Formed s.toScopes scope₁ t)
    (htatom : t.isUnion = false) (hu : Formed s.toScopes scope₂ u) (huatom : u.isUnion = false)
    (hw : Formed s.toScopes scope₃ w) (hwatom : w.isUnion = false)
    (htu : s.assignableTo (fromTypeRef s.toScopes scope₁ t) (fromTypeRef s.toScopes scope₂ u) = true)
    (huw : s.assignableTo (fromTypeRef s.toScopes scope₂ u) (fromTypeRef s.toScopes scope₃ w) = true) :
    s.assignableTo (fromTypeRef s.toScopes scope₁ t) (fromTypeRef s.toScopes scope₃ w) = true := by
  rw [assignableTo_iff ht htatom hu huatom] at htu
  rw [assignableTo_iff hu huatom hw hwatom] at huw
  rw [assignableTo_iff ht htatom hw hwatom]
  rcases htu with htu | ⟨x, cx, xs, y, cy, ys, hclsT, hclsU, hxy⟩
  · rcases huw with huw | ⟨y, cy, ys, z, cz, zs, hclsU, hclsW, hyz⟩
    · exact .inl (htu.trans huw)
    · obtain ⟨cx, xs, hclsT, htexts⟩ := class_of_canonical_eq hexact ht hu htu hclsU
      refine .inr ⟨y, cx, xs, z, cz, zs, hclsT, hclsW, ?_⟩
      rcases hyz with ⟨rfl, hyz⟩ | hyz
      · exact .inl ⟨rfl, forall₂_sameNominalType_trans hexact ht hu hw hclsT hclsU hclsW
          (forall₂_of_canonical_eq htexts) hyz⟩
      · exact .inr hyz
  · rcases huw with huw | ⟨y', cy', ys', z, cz, zs, hclsU', hclsW, hyz⟩
    · obtain ⟨cz, zs, hclsW, htexts⟩ := class_of_canonical_eq hexact hw hu huw.symm hclsU
      refine .inr ⟨x, cx, xs, y, cz, zs, hclsT, hclsW, ?_⟩
      rcases hxy with ⟨rfl, hxy⟩ | hxy
      · exact .inl ⟨rfl, forall₂_sameNominalType_trans hexact ht hu hw hclsT hclsU hclsW hxy
          (forall₂_of_canonical_eq htexts.symm)⟩
      · exact .inr hxy
    · rw [hclsU] at hclsU'
      cases hclsU'
      refine .inr ⟨x, cx, xs, z, cz, zs, hclsT, hclsW, ?_⟩
      rcases hxy with ⟨rfl, hxy⟩ | ⟨hne, hsub⟩
      · rcases hyz with ⟨rfl, hyz⟩ | hyz
        · exact .inl ⟨rfl, forall₂_sameNominalType_trans hexact ht hu hw hclsT hclsU hclsW hxy hyz⟩
        · exact .inr hyz
      · rcases hyz with ⟨rfl, -⟩ | ⟨hne', hsub'⟩
        · exact .inr ⟨hne, hsub⟩
        · -- two proper steps up never come back to where they started
          refine .inr ⟨?_, ?_⟩
          · intro hxz
            rw [← hxz] at hsub'
            exact hne (s.isSubclass_antisymm hsub hsub')
          · rw [SemanticModel.isSubclass_iff] at hsub hsub' ⊢
            exact hsub.trans hsub'

end

/-! ### The law -/

variable {a : ι}

section
variable {s : SemanticModel σ ι}

/-- Under `Exact`, what is assignable is included. -/
theorem assignable_sound (hexact : Exact s) (A B : BuiltType s)
    (h : s.assignable A.type B.type = true) (v : Value ι) (hv : A.Has v) : B.Has v := by
  obtain ⟨-, hatoms⟩ := (assignable_iff A.formed B.formed).mp h
  unfold BuiltType.Has BuiltType.meaning at hv ⊢
  rw [A.formed.meaning_eq_flatMap] at hv
  rw [B.formed.meaning_eq_flatMap]
  obtain ⟨x, hx, hvx⟩ := hv
  obtain ⟨a, ha, hx⟩ := List.mem_flatMap.mp hx
  obtain ⟨b, hb, hab⟩ := hatoms a ha
  obtain ⟨hfa, haatom⟩ := A.formed.atoms.2 a ha
  obtain ⟨hfb, hbatom⟩ := B.formed.atoms.2 b hb
  obtain ⟨y, hy, hvy⟩ := assignableTo_sound hexact hfa haatom hfb hbatom hab ⟨x, hx, hvx⟩
  exact ⟨y, List.mem_flatMap.mpr ⟨b, hb, hy⟩, hvy⟩

/-- Under `Exact`, assignability is transitive. -/
theorem assignable_trans (hexact : Exact s) (A B C : BuiltType s)
    (hAB : s.assignable A.type B.type = true) (hBC : s.assignable B.type C.type = true) :
    s.assignable A.type C.type = true := by
  obtain ⟨hunion, hatoms⟩ := (assignable_iff A.formed B.formed).mp hAB
  obtain ⟨hunion', hatoms'⟩ := (assignable_iff B.formed C.formed).mp hBC
  refine (assignable_iff A.formed C.formed).mpr ⟨fun h => hunion' (hunion h), ?_⟩
  intro a ha
  obtain ⟨b, hb, hab⟩ := hatoms a ha
  obtain ⟨c, hc, hbc⟩ := hatoms' b hb
  obtain ⟨hfa, haatom⟩ := A.formed.atoms.2 a ha
  obtain ⟨hfb, hbatom⟩ := B.formed.atoms.2 b hb
  obtain ⟨hfc, hcatom⟩ := C.formed.atoms.2 c hc
  exact ⟨c, hc, assignableTo_trans hexact hfa haatom hfb hbatom hfc hcatom hab hbc⟩

variable {A : BuiltType s}

omit [DecidableEq ι] in
/-- A type with a symbol is a named one. -/
theorem BuiltType.isUnion_eq_false (h : A.symbol = some a) : A.ref.isUnion = false := by
  rcases A.formed.cases with ⟨_, _, _, _, -, hatom, -⟩ | ⟨members, hunion, -, -, -⟩
  · exact hatom
  · unfold BuiltType.symbol at h
    rw [hunion] at h
    cases h

omit [DecidableEq ι] in
/-- What a named type means: its primitive, or its class with its arguments. -/
theorem BuiltType.meaning_cases (h : A.symbol = some a) :
    (s.kind a = .Primitive ∧ A.meaning = [.prim a]) ∨
      (s.kind a = .Class ∧ A.meaning = [.inst a A.args] ∧
        ∃ c xs, A.type = .class_ a c xs) := by
  obtain ⟨path, name, gs, hyg, sym, href, hsym, -, hcases⟩ :=
    A.formed.named_cases (isUnion_eq_false h)
  have hargs : A.args = gs.map (Sema.meaning s.toScopes A.scope fun _ => none) := by
    unfold BuiltType.args
    rw [href]
  unfold BuiltType.symbol at h
  rw [hsym] at h
  obtain rfl : sym = a := Option.some.inj h
  rcases hcases with ⟨hkind, -, hmean⟩ | ⟨hkind, -, htype, hmean⟩
  · exact .inl ⟨hkind, hmean _⟩
  · exact .inr ⟨hkind, by rw [hargs]; exact hmean _, _, _, htype⟩

/-- Named types are compared as atoms. -/
theorem assignable_named {B : BuiltType s} {b : ι} (hA : A.symbol = some a)
    (hB : B.symbol = some b) :
    s.assignable A.type B.type = true ↔ s.assignableTo A.type B.type = true := by
  have hatoms : ∀ {C : BuiltType s} {c : ι}, C.symbol = some c → C.ref.atoms = [C.ref] := by
    intro C c hC
    have hatom := BuiltType.isUnion_eq_false hC
    rcases C.formed.cases with ⟨_, _, _, _, -, -, hself⟩ | ⟨_, -, hunion, -, -⟩
    · exact hself
    · rw [hatom] at hunion
      cases hunion
  have hAatom := BuiltType.isUnion_eq_false hA
  refine (assignable_iff A.formed B.formed).trans ?_
  rw [hatoms hA, hatoms hB]
  simp only [hAatom, Bool.false_eq_true, false_implies, true_and, mem_singleton, forall_eq,
    exists_eq_left]
  exact Iff.rfl

/-- A named type has a value of its own: its primitive, or an instance of its class
with its arguments. -/
theorem BuiltType.has_own (h : A.symbol = some a) :
    (s.kind a = .Primitive ∧ A.Has (.prim a)) ∨
      (s.kind a = .Class ∧ A.Has (.instance_ a A.args)) := by
  rcases meaning_cases h with ⟨hkind, hmean⟩ | ⟨hkind, hmean, -⟩
  · refine .inl ⟨hkind, .prim a, ?_, rfl⟩
    rw [hmean]
    exact mem_singleton_self _
  · refine .inr ⟨hkind, .inst a A.args, ?_, A.args, .refl _ _, .refl _⟩
    rw [hmean]
    exact mem_singleton_self _

/-- A primitive value of a named type is a value of its primitive. -/
theorem BuiltType.prim_of_has {p : ι} (h : A.symbol = some a) (hv : A.Has (.prim p)) : p = a := by
  obtain ⟨x, hx, hv⟩ := hv
  rcases meaning_cases h with ⟨-, hmean⟩ | ⟨-, hmean, -⟩
  · rw [hmean] at hx
    rw [List.mem_singleton.mp hx] at hv
    exact hv
  · rw [hmean] at hx
    rw [List.mem_singleton.mp hx] at hv
    cases hv

/-- An instance in a named type is seen as its class, with its arguments. -/
theorem BuiltType.view_of_has {c : ι} {args : List (Meaning ι)} (h : A.symbol = some a)
    (hv : A.Has (.instance_ c args)) :
    ∃ out, View s c args a out ∧ SameTypes out A.args := by
  obtain ⟨x, hx, hv⟩ := hv
  rcases meaning_cases h with ⟨-, hmean⟩ | ⟨-, hmean, -⟩
  · rw [hmean] at hx
    rw [List.mem_singleton.mp hx] at hv
    cases hv
  · rw [hmean] at hx
    rw [List.mem_singleton.mp hx] at hv
    exact hv

/-- If `assignable` implies inclusion, neither texts nor base clauses mislead. -/
theorem exact_of_sound
    (h : ∀ A B : BuiltType s, s.assignable A.type B.type = true → ∀ v, A.Has v → B.Has v) :
    Exact s := by
  have hincluded : ∀ {A B : BuiltType s} {a b : ι}, A.symbol = some a → B.symbol = some b →
      A.canonical = B.canonical → ∀ v, A.Has v → B.Has v := by
    intro A B a b hA hB htext
    refine h A B ((assignable_named hA hB).mpr ?_)
    exact (assignableTo_iff A.formed (BuiltType.isUnion_eq_false hA) B.formed
      (BuiltType.isUnion_eq_false hB)).mpr (.inl htext)
  constructor
  · intro A B a b hA hB htext
    rcases BuiltType.has_own hA with ⟨-, hown⟩ | ⟨-, hown⟩
    · exact BuiltType.prim_of_has hB (hincluded hA hB htext _ hown)
    · obtain ⟨_, hup, -⟩ := BuiltType.view_of_has hB (hincluded hA hB htext _ hown)
      rcases BuiltType.has_own hB with ⟨-, hown'⟩ | ⟨-, hown'⟩
      · exact (BuiltType.prim_of_has hA (hincluded hB hA htext.symm _ hown')).symm
      · obtain ⟨_, hup', -⟩ := BuiltType.view_of_has hA (hincluded hB hA htext.symm _ hown')
        exact s.isSubclass_antisymm hup.isSubclass hup'.isSubclass
  · intro A B a b hA hB hkind hkind' hne hsub
    rcases BuiltType.meaning_cases hA with ⟨hprim, -⟩ | ⟨-, -, ca, xs, htype⟩
    · rw [hkind] at hprim
      cases hprim
    · rcases BuiltType.meaning_cases hB with ⟨hprim, -⟩ | ⟨-, -, cb, ys, htype'⟩
      · rw [hkind'] at hprim
        cases hprim
      · have hassign : s.assignable A.type B.type = true := by
          refine (assignable_named hA hB).mpr ?_
          exact (assignableTo_iff A.formed (BuiltType.isUnion_eq_false hA) B.formed
            (BuiltType.isUnion_eq_false hB)).mpr
              (.inr ⟨a, ca, xs, b, cb, ys, htype, htype', .inr ⟨hne, hsub⟩⟩)
        rcases BuiltType.has_own hA with ⟨hprim, -⟩ | ⟨-, hown⟩
        · rw [hkind] at hprim
          cases hprim
        · exact BuiltType.view_of_has hB (h A B hassign _ hown)

/-- **Assignability.**  `assignable` implies inclusion of values and is transitive on
the well-formed types of a program exactly if texts and base clauses do not mislead. -/
theorem assignable_sound_iff (s : SemanticModel σ ι) :
    ((∀ A B : BuiltType s, s.assignable A.type B.type = true → ∀ v, A.Has v → B.Has v) ∧
      ∀ A B C : BuiltType s, s.assignable A.type B.type = true →
        s.assignable B.type C.type = true → s.assignable A.type C.type = true) ↔ Exact s := by
  constructor
  · intro h
    exact exact_of_sound h.1
  · intro hexact
    exact ⟨assignable_sound hexact, assignable_trans hexact⟩

end

/-! ### A program in which both mislead -/

/-- The scopes of the program below. -/
inductive DemoScope where
  | global
  | inA
  | inB
  | inClass
deriving DecidableEq

/-- Its symbols. -/
inductive DemoSymbol where
  | void_
  | none_
  | A
  | B
  | fooA
  | fooB
  | box
  | T
  | voidBox
deriving DecidableEq

/-- `namespace A { class Foo { } }  namespace B { class Foo { } }
class Box<T> { }  class VoidBox : Box<void> { }`. -/
def demo : SemanticModel DemoScope DemoSymbol where
  kind
    | .void_ => .Primitive
    | .none_ => .Primitive
    | .A => .Namespace
    | .B => .Namespace
    | .T => .TypeParam
    | _ => .Class
  decl
    | .fooA => some {}
    | .fooB => some {}
    | .box => some { generics := [.T] }
    | .voidBox => some { bases := [.named [] "Box".toList [.named [] "void".toList [] none] none] }
    | _ => none
  scope
    | .A => some .inA
    | .B => some .inB
    | .fooA => some .inClass
    | .fooB => some .inClass
    | .box => some .inClass
    | .voidBox => some .inClass
    | _ => none
  enclosing
    | .global => [.global]
    | sc => [sc, .global]
  names sc name :=
    match sc with
    | .global =>
      if name = "void".toList then [.void_]
      else if name = "None".toList then [.none_]
      else if name = "A".toList then [.A]
      else if name = "B".toList then [.B]
      else if name = "Box".toList then [.box]
      else if name = "VoidBox".toList then [.voidBox]
      else []
    | .inA => if name = "Foo".toList then [.fooA] else []
    | .inB => if name = "Foo".toList then [.fooB] else []
    | .inClass => []
  rank
    | .voidBox => 1
    | _ => 0
  rank_lt := by
    intro cls
    cases cls <;> decide

/-- `Foo`, written in namespace `A`. -/
def fooInA : BuiltType demo where
  scope := .inA
  ref := .named [] "Foo".toList [] none
  formed := by
    rw [Formed, FormedAll]
    exact ⟨by decide, ⟨.fooA, rfl, .inr ⟨rfl, {}, rfl, rfl⟩⟩, trivial⟩

/-- `Foo`, written in namespace `B`. -/
def fooInB : BuiltType demo where
  scope := .inB
  ref := .named [] "Foo".toList [] none
  formed := by
    rw [Formed, FormedAll]
    exact ⟨by decide, ⟨.fooB, rfl, .inr ⟨rfl, {}, rfl, rfl⟩⟩, trivial⟩

/-- `VoidBox`. -/
def voidBox : BuiltType demo where
  scope := .global
  ref := .named [] "VoidBox".toList [] none
  formed := by
    rw [Formed, FormedAll]
    exact ⟨by decide, ⟨.voidBox, rfl, .inr ⟨rfl, _, rfl, rfl⟩⟩, trivial⟩

/-- `Box<None>`. -/
def boxOfNone : BuiltType demo where
  scope := .global
  ref := .named [] "Box".toList [.named [] "None".toList [] none] none
  formed := by
    rw [Formed, FormedAll, FormedAll, Formed, FormedAll]
    exact ⟨by decide, ⟨.box, rfl, .inr ⟨rfl, _, rfl, rfl⟩⟩,
      ⟨by decide, ⟨.none_, rfl, .inl ⟨rfl, rfl⟩⟩, trivial⟩, trivial⟩

/-- A `Foo` of one namespace passes for a `Foo` of the other, and a `VoidBox`, which is
a `Box<void>`, passes for a `Box<None>`. -/
theorem assignable_misled :
    (demo.assignable fooInA.type fooInB.type = true ∧
      fooInA.Has (.instance_ .fooA []) ∧ ¬ fooInB.Has (.instance_ .fooA [])) ∧
    (demo.assignable voidBox.type boxOfNone.type = true ∧
      voidBox.Has (.instance_ .voidBox []) ∧ ¬ boxOfNone.Has (.instance_ .voidBox [])) := by
  have hA : fooInA.symbol = some .fooA := rfl
  have hB : fooInB.symbol = some .fooB := rfl
  have hV : voidBox.symbol = some .voidBox := rfl
  have hN : boxOfNone.symbol = some .box := rfl
  refine ⟨⟨by decide, ?_, ?_⟩, by decide, ?_, ?_⟩
  · rcases BuiltType.has_own hA with ⟨hkind, -⟩ | ⟨-, hown⟩
    · cases hkind
    · exact hown
  · intro hhas
    obtain ⟨_, hview, -⟩ := BuiltType.view_of_has hB hhas
    exact absurd hview.isSubclass (by decide)
  · rcases BuiltType.has_own hV with ⟨hkind, -⟩ | ⟨-, hown⟩
    · cases hkind
    · exact hown
  · intro hhas
    obtain ⟨out, hview, hsame⟩ := BuiltType.view_of_has hN hhas
    cases hview with
    | step hdecl hscope hbase hresolved hview =>
      cases hdecl
      cases hscope
      cases List.mem_singleton.mp hbase
      cases hresolved
      rw [hview.eq_of_self] at hsame
      cases hsame with
      | cons hvoid _ =>
        have hmem := (hvoid.prim_mem_iff .void_).mp (mem_singleton_self _)
        exact absurd (List.mem_singleton.mp hmem) (fun h => by cases h)

end Leviathan.Sema
