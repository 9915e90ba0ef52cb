import Leviathan.Sema.Meaning

/-!
# Well-formed types

The types the assignability law is about: built from primitives, classes with as
many arguments as they have parameters, and unions of at least two members (the
parser makes no smaller ones); no function types, no unresolved names and no type
parameters.

Such a type is taken apart into its named parts (`atoms`).  Its text is read in one
way (`canonical_eq_alts`), its meaning is made of the meanings of its atoms, and
`assignable` holds of two such types exactly if every atom of the first is
assignable to an atom of the second, and no union goes to a type that is none
(`assignable_iff`).
-/

namespace Leviathan.Sema

open List

section
variable {σ ι : Type} (s : Scopes σ ι) (scope : σ)

/-- The symbol of a named type that is given its arguments. -/
def Instantiates (sym : ι) (generics : List (TypeRef ι)) : Prop :=
  (s.kind sym = .Primitive ∧ generics = []) ∨
    (s.kind sym = .Class ∧ ∃ d, s.decl sym = some d ∧ generics.length = d.generics.length)

mutual

/-- A well-formed type, written in a scope. -/
def Formed : TypeRef ι → Prop
  | .inferred => False
  | .function _ _ => False
  | .union members => 2 ≤ members.length ∧ FormedAll members
  | .named path name generics hygiene =>
    Spelling.PlainHead (TypeRef.qualName path name) ∧
      (∃ sym, s.resolvedSymbol scope (.named path name generics hygiene) = some sym ∧
        Instantiates s sym generics) ∧
      FormedAll generics

/-- Every reference is well-formed. -/
def FormedAll : List (TypeRef ι) → Prop
  | [] => True
  | t :: ts => Formed t ∧ FormedAll ts

end

variable {s scope}

theorem formedAll_iff {ts : List (TypeRef ι)} :
    FormedAll s scope ts ↔ ∀ t ∈ ts, Formed s scope t := by
  induction ts with
  | nil => simp [FormedAll]
  | cons t ts ih => simp [FormedAll, ih]

end

namespace TypeRef

variable {ι : Type}

mutual

/-- The named parts of a type: the members of its unions. -/
def atoms : TypeRef ι → List (TypeRef ι)
  | .union members => atomsAll members
  | .named path name generics hygiene => [.named path name generics hygiene]
  | .inferred => []
  | .function _ _ => []

/-- The named parts of several types. -/
def atomsAll : List (TypeRef ι) → List (TypeRef ι)
  | [] => []
  | t :: ts => atoms t ++ atomsAll ts

end

theorem atomsAll_eq_flatMap (ts : List (TypeRef ι)) : atomsAll ts = ts.flatMap atoms := by
  induction ts with
  | nil => rfl
  | cons t ts ih => rw [atomsAll, ih, flatMap_cons]

/-- A union. -/
def isUnion : TypeRef ι → Bool
  | .union _ => true
  | _ => false

mutual

/-- How a type is spelled, as a choice of applied names. -/
def spelling : TypeRef ι → List Spelling.Term
  | .inferred => []
  | .function _ _ => []
  | .union members => spellingAlts members
  | .named path name generics _ => [.app (qualName path name) (spellings generics)]

/-- How the members of a union are spelled. -/
def spellingAlts : List (TypeRef ι) → List Spelling.Term
  | [] => []
  | t :: ts => spelling t ++ spellingAlts ts

/-- How the arguments of a named type are spelled. -/
def spellings : List (TypeRef ι) → List (List Spelling.Term)
  | [] => []
  | t :: ts => spelling t :: spellings ts

end

theorem spellings_eq_map (ts : List (TypeRef ι)) : spellings ts = ts.map spelling := by
  induction ts with
  | nil => rfl
  | cons t ts ih => rw [spellings, ih, map_cons]

theorem spellingAlts_eq_flatten (ts : List (TypeRef ι)) :
    spellingAlts ts = (ts.map spelling).flatten := by
  induction ts with
  | nil => rfl
  | cons t ts ih => rw [spellingAlts, ih, map_cons, flatten_cons]

end TypeRef

section
variable {σ ι : Type} {s : Scopes σ ι} {scope scope' : σ}

/-- A well-formed type is a named one or a union of well-formed types. -/
theorem Formed.cases {t : TypeRef ι} (h : Formed s scope t) :
    (∃ path name generics hygiene, t = .named path name generics hygiene ∧ t.isUnion = false ∧
      t.atoms = [t]) ∨
    (∃ members, t = .union members ∧ t.isUnion = true ∧ 2 ≤ members.length ∧
      ∀ m ∈ members, Formed s scope m) := by
  cases t with
  | inferred => exact absurd h (by simp [Formed])
  | function params ret => exact absurd h (by simp [Formed])
  | named path name generics hygiene =>
    exact .inl ⟨path, name, generics, hygiene, rfl, rfl, by rw [TypeRef.atoms]⟩
  | union members =>
    rw [Formed] at h
    exact .inr ⟨members, rfl, rfl, h.1, formedAll_iff.mp h.2⟩

/-- The atoms of a well-formed type are well-formed named types, and there are some. -/
theorem Formed.atoms {t : TypeRef ι} (h : Formed s scope t) :
    t.atoms ≠ [] ∧ ∀ a ∈ t.atoms, Formed s scope a ∧ a.isUnion = false := by
  induction t using TypeRef.induction with
  | inferred => exact absurd h (by simp [Formed])
  | function params ret _ _ => exact absurd h (by simp [Formed])
  | named path name generics hygiene _ =>
    rw [TypeRef.atoms]
    refine ⟨cons_ne_nil _ _, ?_⟩
    intro a ha
    rw [List.mem_singleton.mp ha]
    exact ⟨h, rfl⟩
  | union members ih =>
    rw [Formed] at h
    have hall := formedAll_iff.mp h.2
    rw [TypeRef.atoms, TypeRef.atomsAll_eq_flatMap]
    constructor
    · have hlen : 0 < members.length := by omega
      obtain ⟨m, ms, rfl⟩ := exists_cons_of_length_pos hlen
      intro hnil
      rw [flatMap_cons, append_eq_nil_iff] at hnil
      exact (ih m mem_cons_self (hall m mem_cons_self)).1 hnil.1
    · intro a ha
      obtain ⟨m, hm, ha⟩ := List.mem_flatMap.mp ha
      exact (ih m hm (hall m hm)).2 a ha

/-- The spelling of a well-formed type is plain, is not empty, and is the one of its
text. -/
theorem Formed.canonical_eq_alts {t : TypeRef ι} (h : Formed s scope t) :
    t.canonical = Spelling.alts t.spelling ∧ Spelling.PlainAlts t.spelling ∧ t.spelling ≠ [] := by
  induction t using TypeRef.induction with
  | inferred => exact absurd h (by simp [Formed])
  | function params ret _ _ => exact absurd h (by simp [Formed])
  | named path name generics hygiene ih =>
    rw [Formed] at h
    have hall := formedAll_iff.mp h.2.2
    have htexts : generics.map TypeRef.canonical = (TypeRef.spellings generics).map Spelling.alts := by
      rw [TypeRef.spellings_eq_map, map_map]
      exact map_congr_left fun g hg => (ih g hg (hall g hg)).1
    have hplain : Spelling.PlainArgs (TypeRef.spellings generics) := by
      clear h htexts
      induction generics with
      | nil => simp [TypeRef.spellings, Spelling.PlainArgs]
      | cons g gs ihgs =>
        rw [TypeRef.spellings, Spelling.PlainArgs]
        exact ⟨(ih g mem_cons_self (hall g mem_cons_self)).2.1,
          ihgs (fun t ht => ih t (mem_cons_of_mem _ ht))
            fun t ht => hall t (mem_cons_of_mem _ ht)⟩
    refine ⟨?_, ?_, ?_⟩
    · rw [TypeRef.canonical, TypeRef.spelling, Spelling.alts, Spelling.altTail, Spelling.term,
        append_nil, TypeRef.canonicals_eq_map, htexts]
      cases generics with
      | nil => simp [TypeRef.spellings, Spelling.argList]
      | cons g gs =>
        rw [TypeRef.spellings, Spelling.argList_cons]
        rfl
    · rw [TypeRef.spelling, Spelling.PlainAlts, Spelling.PlainAlts, Spelling.Plain]
      exact ⟨⟨h.1, hplain⟩, trivial⟩
    · rw [TypeRef.spelling]
      exact cons_ne_nil _ _
  | union members ih =>
    rw [Formed] at h
    have hall := formedAll_iff.mp h.2
    have hne : ∀ ts ∈ members.map TypeRef.spelling, ts ≠ [] := by
      intro ts hts
      obtain ⟨m, hm, rfl⟩ := List.mem_map.mp hts
      exact (ih m hm (hall m hm)).2.2
    rw [TypeRef.canonical, TypeRef.spelling, TypeRef.canonicals_eq_map,
      TypeRef.spellingAlts_eq_flatten, Spelling.alts_flatten hne, map_map]
    refine ⟨?_, ?_, ?_⟩
    · apply congrArg
      exact map_congr_left fun m hm => (ih m hm (hall m hm)).1
    · rw [← TypeRef.spellingAlts_eq_flatten]
      clear h hne
      induction members with
      | nil => simp [TypeRef.spellingAlts, Spelling.PlainAlts]
      | cons m ms ihms =>
        rw [TypeRef.spellingAlts]
        apply Spelling.plainAlts_append
        · exact (ih m mem_cons_self (hall m mem_cons_self)).2.1
        · exact ihms (fun t ht => ih t (mem_cons_of_mem _ ht))
            fun t ht => hall t (mem_cons_of_mem _ ht)
    · have hlen : 0 < members.length := by omega
      obtain ⟨m, ms, rfl⟩ := exists_cons_of_length_pos hlen
      intro hnil
      rw [map_cons, flatten_cons, append_eq_nil_iff] at hnil
      exact hne _ mem_cons_self hnil.1

/-- **Spellings.**  Two well-formed types with the same text are spelled alike. -/
theorem Formed.spelling_eq {t u : TypeRef ι} (ht : Formed s scope t) (hu : Formed s scope' u)
    (h : t.canonical = u.canonical) : t.spelling = u.spelling := by
  obtain ⟨htext, hplain, -⟩ := ht.canonical_eq_alts
  obtain ⟨htext', hplain', -⟩ := hu.canonical_eq_alts
  rw [htext, htext'] at h
  exact Spelling.alts_injective hplain hplain' h

/-- A type is spelled as its atoms are. -/
theorem Formed.spelling_eq_flatMap {t : TypeRef ι} (h : Formed s scope t) :
    t.spelling = t.atoms.flatMap TypeRef.spelling := by
  induction t using TypeRef.induction with
  | inferred => exact absurd h (by simp [Formed])
  | function params ret _ _ => exact absurd h (by simp [Formed])
  | named path name generics hygiene _ => rw [TypeRef.atoms, flatMap_singleton]
  | union members ih =>
    rw [Formed] at h
    have hall := formedAll_iff.mp h.2
    rw [TypeRef.atoms, TypeRef.atomsAll_eq_flatMap, TypeRef.spelling,
      TypeRef.spellingAlts_eq_flatten, flatMap_assoc, ← flatMap_def]
    exact flatMap_congr fun m hm => ih m hm (hall m hm)

/-- A type means what its atoms mean. -/
theorem Formed.meaning_eq_flatMap {t : TypeRef ι} (h : Formed s scope t)
    (env : ι → Option (Meaning ι)) :
    meaning s scope env t = t.atoms.flatMap (meaning s scope env) := by
  induction t using TypeRef.induction with
  | inferred => exact absurd h (by simp [Formed])
  | function params ret _ _ => exact absurd h (by simp [Formed])
  | named path name generics hygiene _ => rw [TypeRef.atoms, flatMap_singleton]
  | union members ih =>
    rw [Formed] at h
    have hall := formedAll_iff.mp h.2
    rw [TypeRef.atoms, TypeRef.atomsAll_eq_flatMap, meaning, meaningAlts_eq_flatMap,
      flatMap_assoc]
    exact flatMap_congr fun m hm => ih m hm (hall m hm)

/-- A union has at least two atoms, a named type has one; so their texts differ. -/
theorem Formed.canonical_ne_union {t u : TypeRef ι} (ht : Formed s scope t)
    (hatom : t.isUnion = false) (hu : Formed s scope' u) (hunion : u.isUnion = true) :
    t.canonical ≠ u.canonical := by
  intro h
  have hspelling := ht.spelling_eq hu h
  rcases ht.cases with ⟨path, name, generics, hygiene, rfl, -, -⟩ | ⟨_, rfl, hname, -, -⟩
  · rcases hu.cases with ⟨_, _, _, _, rfl, hname, -⟩ | ⟨members, rfl, -, hlen, hall⟩
    · rw [hname] at hunion
      cases hunion
    · have hne : ∀ m ∈ members, 0 < m.spelling.length := fun m hm =>
        List.length_pos_iff.mpr (hall m hm).canonical_eq_alts.2.2
      have hlength := congrArg List.length hspelling
      rw [TypeRef.spelling, TypeRef.spelling, TypeRef.spellingAlts_eq_flatten,
        length_flatten, map_map] at hlength
      have hsum : members.length ≤ (members.map (List.length ∘ TypeRef.spelling)).sum := by
        clear hspelling hlength hlen hall h hu hunion
        induction members with
        | nil => exact Nat.zero_le _
        | cons m ms ih =>
          have hm := hne m mem_cons_self
          have hms := ih fun m' hm' => hne m' (mem_cons_of_mem _ hm')
          simp only [map_cons, sum_cons, length_cons, Function.comp_apply]
          omega
      simp only [length_singleton] at hlength
      omega
  · rw [hname] at hatom
    cases hatom

/-- The type of a well-formed reference keeps its text. -/
theorem Formed.canonical_fromTypeRef {t : TypeRef ι} (h : Formed s scope t) :
    (fromTypeRef s scope t).canonical = t.canonical := by
  cases t with
  | inferred => exact absurd h (by simp [Formed])
  | function params ret => exact absurd h (by simp [Formed])
  | union members =>
    rw [fromTypeRef]
    rfl
  | named path name generics hygiene =>
    rw [Formed] at h
    obtain ⟨-, ⟨sym, hsym, hinst⟩, -⟩ := h
    rw [fromTypeRef, hsym]
    rcases hinst with ⟨hkind, -⟩ | ⟨hkind, -⟩
    · simp only [hkind, if_true]
      rfl
    · simp only [hkind, reduceCtorEq, if_true, if_false]
      rfl

/-- The types of well-formed references keep their texts. -/
theorem map_canonical_fromTypeRef {ts : List (TypeRef ι)} (h : ∀ t ∈ ts, Formed s scope t) :
    (ts.map (fromTypeRef s scope)).map Ty.canonical = ts.map TypeRef.canonical := by
  rw [map_map]
  exact map_congr_left fun t ht => (h t ht).canonical_fromTypeRef

/-- The type of a well-formed named reference, and what it means. -/
theorem Formed.named_cases {t : TypeRef ι} (h : Formed s scope t) (hatom : t.isUnion = false) :
    ∃ path name generics hygiene sym, t = .named path name generics hygiene ∧
      s.resolvedSymbol scope t = some sym ∧ (∀ g ∈ generics, Formed s scope g) ∧
      ((s.kind sym = .Primitive ∧ fromTypeRef s scope t = .primitive t.canonical ∧
        ∀ env, meaning s scope env t = [.prim sym]) ∨
      (s.kind sym = .Class ∧ (∃ d, s.decl sym = some d ∧ generics.length = d.generics.length) ∧
        fromTypeRef s scope t = .class_ sym t.canonical (generics.map (fromTypeRef s scope)) ∧
        ∀ env, meaning s scope env t = [.inst sym (generics.map (meaning s scope env))])) := by
  rcases h.cases with ⟨path, name, generics, hygiene, rfl, -, -⟩ | ⟨_, rfl, hunion, -, -⟩
  · rw [Formed] at h
    obtain ⟨-, ⟨sym, hsym, hinst⟩, hall⟩ := h
    refine ⟨path, name, generics, hygiene, sym, rfl, hsym, formedAll_iff.mp hall, ?_⟩
    rcases hinst with ⟨hkind, -⟩ | ⟨hkind, hdecl⟩
    · refine .inl ⟨hkind, ?_, fun env => ?_⟩
      · rw [fromTypeRef, hsym]
        simp only [hkind, if_true]
      · rw [meaning, hsym]
        simp only [hkind, if_true]
    · refine .inr ⟨hkind, hdecl, ?_, fun env => ?_⟩
      · rw [fromTypeRef, hsym]
        simp only [hkind, reduceCtorEq, if_true, if_false, fromTypeRefs_eq_map]
      · rw [meaning, hsym]
        simp only [hkind, reduceCtorEq, if_true, if_false, meanings_eq_map]
  · rw [hatom] at hunion
    cases hunion

/-- The spelling of a named type is one term. -/
theorem Formed.spelling_named {t : TypeRef ι} (h : Formed s scope t)
    (hatom : t.isUnion = false) : ∃ term, t.spelling = [term] := by
  obtain ⟨path, name, generics, hygiene, sym, rfl, -⟩ := h.named_cases hatom
  exact ⟨_, by rw [TypeRef.spelling]⟩

end

section
variable {σ ι : Type} [DecidableEq ι] {s : SemanticModel σ ι} {scope scope' : σ}

/-- A named type goes where one of the target's atoms takes it. -/
theorem assignableInto_iff {a t : TypeRef ι} (ha : Formed s.toScopes scope a)
    (hatom : a.isUnion = false) (ht : Formed s.toScopes scope' t) :
    s.assignableInto (fromTypeRef s.toScopes scope a) (fromTypeRef s.toScopes scope' t) = true ↔
      ∃ b ∈ t.atoms, s.assignableTo (fromTypeRef s.toScopes scope a)
        (fromTypeRef s.toScopes scope' b) = true := by
  induction t using TypeRef.induction with
  | inferred => exact absurd ht (by simp [Formed])
  | function params ret _ _ => exact absurd ht (by simp [Formed])
  | named path name generics hygiene _ =>
    have hto : ∀ source : Ty ι, s.assignableInto source
        (fromTypeRef s.toScopes scope' (.named path name generics hygiene)) =
        s.assignableTo source (fromTypeRef s.toScopes scope' (.named path name generics hygiene)) := by
      intro source
      obtain ⟨_, _, _, _, _, -, -, -, ⟨-, htype, -⟩ | ⟨-, -, htype, -⟩⟩ := ht.named_cases rfl
      · rw [htype, SemanticModel.assignableInto]
      · rw [htype, SemanticModel.assignableInto]
    rw [hto, TypeRef.atoms]
    simp only [mem_singleton, exists_eq_left]
  | union members ih =>
    have hne := ha.canonical_ne_union hatom ht rfl
    have hall := formedAll_iff.mp (by rw [Formed] at ht; exact ht.2)
    have hany : ∀ ts : List (TypeRef ι), (∀ t ∈ ts, t ∈ members) →
        (s.assignableIntoAny (fromTypeRef s.toScopes scope a)
          (ts.map (fromTypeRef s.toScopes scope')) = true ↔
        ∃ b ∈ ts.flatMap TypeRef.atoms, s.assignableTo (fromTypeRef s.toScopes scope a)
          (fromTypeRef s.toScopes scope' b) = true) := by
      intro ts hts
      induction ts with
      | nil => simp [SemanticModel.assignableIntoAny]
      | cons t ts ihts =>
        have ht := ih t (hts t mem_cons_self) (hall t (hts t mem_cons_self))
        rw [map_cons, SemanticModel.assignableIntoAny, Bool.or_eq_true, ht,
          ihts fun u hu => hts u (mem_cons_of_mem _ hu)]
        simp only [flatMap_cons, mem_append, or_and_right, exists_or]
    rw [fromTypeRef, SemanticModel.assignableInto, Bool.or_eq_true, decide_eq_true_eq,
      ha.canonical_fromTypeRef, fromTypeRefs_eq_map, hany members fun _ h => h, TypeRef.atoms,
      TypeRef.atomsAll_eq_flatMap]
    exact or_iff_left hne

/-- **Assignability of well-formed types.**  Every atom of the source is assignable to
an atom of the target; a union is assignable to unions only. -/
theorem assignable_iff {t u : TypeRef ι} (ht : Formed s.toScopes scope t)
    (hu : Formed s.toScopes scope' u) :
    s.assignable (fromTypeRef s.toScopes scope t) (fromTypeRef s.toScopes scope' u) = true ↔
      (t.isUnion = true → u.isUnion = true) ∧
      ∀ a ∈ t.atoms, ∃ b ∈ u.atoms, s.assignableTo (fromTypeRef s.toScopes scope a)
        (fromTypeRef s.toScopes scope' b) = true := by
  induction t using TypeRef.induction with
  | inferred => exact absurd ht (by simp [Formed])
  | function params ret _ _ => exact absurd ht (by simp [Formed])
  | named path name generics hygiene _ =>
    have hinto : s.assignable (fromTypeRef s.toScopes scope (.named path name generics hygiene))
        (fromTypeRef s.toScopes scope' u) =
        s.assignableInto (fromTypeRef s.toScopes scope (.named path name generics hygiene))
          (fromTypeRef s.toScopes scope' u) := by
      obtain ⟨_, _, _, _, _, -, -, -, ⟨-, htype, -⟩ | ⟨-, -, htype, -⟩⟩ := ht.named_cases rfl
      · rw [htype, SemanticModel.assignable]
      · rw [htype, SemanticModel.assignable]
    rw [hinto, assignableInto_iff ht rfl hu, TypeRef.atoms]
    simp only [TypeRef.isUnion, Bool.false_eq_true, false_implies, true_and, mem_singleton,
      forall_eq]
  | union members ih =>
    have hall := formedAll_iff.mp (by rw [Formed] at ht; exact ht.2)
    rcases hu.cases with ⟨path, name, generics, hygiene, rfl, hname, -⟩ | ⟨us, rfl, -, -, -⟩
    · have hne := hu.canonical_ne_union hname ht rfl
      have hfalse : s.assignable (fromTypeRef s.toScopes scope (.union members))
          (fromTypeRef s.toScopes scope' (.named path name generics hygiene)) = false := by
        obtain ⟨_, _, _, _, _, -, -, -, ⟨-, htype, -⟩ | ⟨-, -, htype, -⟩⟩ := hu.named_cases rfl
        · rw [htype, fromTypeRef]
          exact decide_eq_false fun h => hne h.symm
        · rw [htype, fromTypeRef]
          exact decide_eq_false fun h => hne h.symm
      rw [hfalse]
      simp [TypeRef.isUnion]
    · have hevery : ∀ ts : List (TypeRef ι), (∀ t ∈ ts, t ∈ members) →
          (s.assignableAll (ts.map (fromTypeRef s.toScopes scope))
            (fromTypeRef s.toScopes scope' (.union us)) = true ↔
          ∀ a ∈ ts.flatMap TypeRef.atoms, ∃ b ∈ (TypeRef.union us).atoms,
            s.assignableTo (fromTypeRef s.toScopes scope a)
              (fromTypeRef s.toScopes scope' b) = true) := by
        intro ts hts
        induction ts with
        | nil => simp [SemanticModel.assignableAll]
        | cons t ts ihts =>
          have ht := ih t (hts t mem_cons_self) (hall t (hts t mem_cons_self))
          rw [map_cons, SemanticModel.assignableAll, Bool.and_eq_true, ht,
            ihts fun v hv => hts v (mem_cons_of_mem _ hv)]
          simp only [TypeRef.isUnion, implies_true, true_and, flatMap_cons,
            mem_append, or_imp, forall_and]
      have hunion : fromTypeRef s.toScopes scope' (.union us) =
          .union (TypeRef.canonical (.union us)) (fromTypeRefs s.toScopes scope' us) := by
        rw [fromTypeRef]
      have hatoms : (TypeRef.union members).atoms = members.flatMap TypeRef.atoms := by
        rw [TypeRef.atoms, TypeRef.atomsAll_eq_flatMap]
      rw [fromTypeRef, fromTypeRefs_eq_map, hunion, SemanticModel.assignable, ← hunion,
        hevery members fun _ h => h, hatoms]
      simp only [TypeRef.isUnion, implies_true, true_and]

end

end Leviathan.Sema
