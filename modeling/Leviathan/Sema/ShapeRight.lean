import Leviathan.Sema.ShapeMerge

/-!
# When shapes keep the most derived override

`right_iff_overridesStand`: every class has the slots it should, whatever the order of the base
clauses, exactly if no class meets, after an override, first an unrelated declaration and then the
overridden one.
-/

namespace Leviathan.Sema

namespace Scopes

variable {σ ι : Type}

/-- What a type name is resolved to depends on the classes only through their being attributes. -/
theorem resolvedSymbol_congr {s s' : Scopes σ ι} (hkind : s'.kind = s.kind)
    (hscope : s'.scope = s.scope) (henclosing : s'.enclosing = s.enclosing)
    (hnames : s'.names = s.names) (hattr : ∀ sym, s'.isAttribute sym = s.isAttribute sym) :
    s'.resolvedSymbol = s.resolvedSymbol := by
  have hplain : s'.isPlainType = s.isPlainType := by
    funext sym
    rw [isPlainType, isPlainType, hkind, hattr]
  have hfind : s'.findLocal = s.findLocal := by
    funext sc name k
    rw [findLocal, findLocal, hkind, hnames]
  have hlookup : s'.lookup = s.lookup := by
    funext sc name
    rw [lookup, lookup, henclosing, hnames]
  have htypeIn : s'.typeIn = s.typeIn := by
    funext sc name
    rw [typeIn, typeIn, hnames, hkind, hplain]
  have hunqualified : s'.unqualified = s.unqualified := by
    funext sc name hygiene
    unfold unqualified
    rw [hlookup, henclosing, hnames, hkind, hplain]
    simp only [hattr]
  have hnavigate : s'.navigate = s.navigate := by
    funext sc path
    cases path with
    | nil => rfl
    | cons seg segs =>
      unfold navigate
      rw [hscope, henclosing, hfind]
  funext sc t
  cases t with
  | named path name generics hygiene =>
    unfold resolvedSymbol resolveNamed
    rw [hunqualified, hnavigate, htypeIn, hkind, hscope]
  | inferred => rfl
  | union members => rfl
  | function params ret => rfl

end Scopes

namespace ClassTable

variable {σ ι : Type} [DecidableEq ι] {p p' : ClassTable σ ι}

/-! ### Other orders of the base clauses -/

/-- The same program with the base clauses of its classes in some other order. -/
structure Reordered (p p' : ClassTable σ ι) : Prop where
  kind : p'.kind = p.kind
  scope : p'.scope = p.scope
  enclosing : p'.enclosing = p.enclosing
  names : p'.names = p.names
  symName : p'.symName = p.symName
  isInterface : p'.isInterface = p.isInterface
  members : p'.members = p.members
  decl : ∀ cls, (p.decl cls = none ∧ p'.decl cls = none) ∨
    ∃ d bases, p.decl cls = some d ∧ p'.decl cls = some { d with bases := bases } ∧
      bases.Perm d.bases

namespace Reordered

omit [DecidableEq ι] in
theorem symm (h : Reordered p p') : Reordered p' p where
  kind := h.kind.symm
  scope := h.scope.symm
  enclosing := h.enclosing.symm
  names := h.names.symm
  symName := h.symName.symm
  isInterface := h.isInterface.symm
  members := h.members.symm
  decl cls := by
    rcases h.decl cls with hnone | ⟨d, bases, hd, hd', hperm⟩
    · exact Or.inl ⟨hnone.2, hnone.1⟩
    · exact Or.inr ⟨{ d with bases := bases }, d.bases, hd', hd, hperm.symm⟩

omit [DecidableEq ι] in
theorem resolved (h : Reordered p p') : p'.resolvedSymbol = p.resolvedSymbol := by
  refine Scopes.resolvedSymbol_congr h.kind h.scope h.enclosing h.names fun sym => ?_
  unfold Scopes.isAttribute
  rcases h.decl sym with hnone | ⟨d, bases, hd, hd', -⟩
  · rw [hnone.1, hnone.2]
  · rw [hd, hd']
    rfl

omit [DecidableEq ι] in
theorem clause (h : Reordered p p') {cls base : ι} {generics : List (TypeRef ι)}
    (hclause : p.Clause cls base generics) : p'.Clause cls base generics := by
  obtain ⟨d, sc, path, name, hygiene, hd, hsc, hmem, hsym⟩ := hclause
  rcases h.decl cls with hnone | ⟨d', bases, hd₁, hd₂, hperm⟩
  · rw [hnone.1] at hd
    cases hd
  · rw [hd] at hd₁
    cases hd₁
    refine ⟨_, sc, path, name, hygiene, hd₂, by rw [h.scope]; exact hsc, hperm.mem_iff.mpr hmem, ?_⟩
    rw [h.resolved]
    exact hsym

omit [DecidableEq ι] in
theorem takesOver (h : Reordered p p') {cls base : ι} (htakes : p.TakesOver cls base) :
    p'.TakesOver cls base := by
  unfold TakesOver at htakes ⊢
  rw [h.kind, h.isInterface]
  exact htakes

omit [DecidableEq ι] in
theorem clauseSubst (h : Reordered p p') (base : ι) (generics : List (TypeRef ι)) :
    p'.clauseSubst base generics = p.clauseSubst base generics := by
  unfold ClassTable.clauseSubst
  rw [h.symName]
  rcases h.decl base with hnone | ⟨d, bases, hd, hd', -⟩
  · rw [hnone.1, hnone.2]
  · rw [hd, hd']

omit [DecidableEq ι] in
theorem offered (h : Reordered p p') {cls : ι} {s : Slot ι} (hs : p.Offered cls s) :
    p'.Offered cls s := by
  induction hs with
  | own hs =>
    refine .own ?_
    unfold ownSlots at hs ⊢
    rw [h.members]
    exact hs
  | base hclause htakes _ ih =>
    rw [← h.clauseSubst]
    exact .base (h.clause hclause) (h.takesOver htakes) ih

omit [DecidableEq ι] in
theorem baseClasses (h : Reordered p p') (cls : ι) :
    (p'.baseClasses cls).Perm (p.baseClasses cls) := by
  unfold ClassTable.baseClasses Scopes.baseSymbols
  rw [h.resolved, h.scope, h.kind]
  rcases h.decl cls with hnone | ⟨d, bases, hd, hd', hperm⟩
  · rw [hnone.1, hnone.2]
  · rw [hd, hd']
    cases p.scope cls with
    | none => exact List.Perm.refl _
    | some sc => exact (hperm.filterMap _).filter _

omit [DecidableEq ι] in
theorem derives (h : Reordered p p') {a b : ι} (hab : p.Derives a b) : p'.Derives a b :=
  Relation.TransGen.mono (fun a _ hstep => (h.baseClasses a).mem_iff.mpr hstep) _ _ hab

omit [DecidableEq ι] in
theorem offers (h : Reordered p p') {cls : ι} {name : Str} {canonical : SlotType} {src : ι}
    (hsrc : p.Offers cls name canonical src) : p'.Offers cls name canonical src := by
  obtain ⟨s, hs, hrest⟩ := hsrc
  exact ⟨s, h.offered hs, hrest⟩

omit [DecidableEq ι] in
theorem plain (h : Reordered p p') (hplain : p.Plain) : p'.Plain where
  single cls s hs := hplain.single cls s (h.symm.offered hs)
  agree cls s t hs ht := hplain.agree cls s t (h.symm.offered hs) (h.symm.offered ht)

omit [DecidableEq ι] in
theorem guarded (h : Reordered p p') (hguard : p.Guarded) : p'.Guarded := by
  obtain ⟨walk, hwalk⟩ := hguard
  refine ⟨walk, fun cls => ?_⟩
  rw [((h.baseClasses cls).map walk).sum_eq]
  exact hwalk cls

end Reordered

/-! ### The slots a class should have -/

variable (p) in
/-- The slots of a class are as they should be. -/
structure ShapeRight (cls : ι) : Prop where
  /-- There is one slot for each name and text. -/
  one : ∀ name canonical src, p.Offers cls name canonical src →
    ((p.shape cls).filter (hasKey name canonical)).length = 1
  /-- What the class declares itself is its own. -/
  own : ∀ s ∈ p.shape cls, p.Declares cls s.name s.canonical → s.source = cls
  /-- What it does not declare is the declaration of an ancestor that no subclass of it among the
  ancestors redeclares. -/
  derived : ∀ s ∈ p.shape cls, ¬ p.Declares cls s.name s.canonical →
    p.MostDerived cls s.name s.canonical s.source
  /-- Where there is one such ancestor only, the order of the base clauses does not matter. -/
  order : ∀ s ∈ p.shape cls, ∀ src, (∀ m, p.MostDerived cls s.name s.canonical m ↔ m = src) →
    ∀ p' : ClassTable σ ι, Reordered p p' → ∀ s' ∈ p'.shape cls, s'.name = s.name →
    s'.canonical = s.canonical → s'.source = src

variable (p) in
/-- No override is lost on the way: where the bases bring in a member that another ancestor
overrides, a later base brings in one that its class does not inherit from, or an earlier base
brings in one whose class inherits from all that come after it. -/
def OverridesStand (cls : ι) : Prop :=
  ∀ name canonical before s after, ¬ p.Declares cls name canonical →
    (p.broughtIn cls).filter (hasKey name canonical) = before ++ s :: after →
    (∃ m, p.Offers cls name canonical m ∧ p.Derives m s.source) →
    (∃ t ∈ after, ¬ p.Derives s.source t.source) ∨
    ∃ front x back, before = front ++ x :: back ∧
      ∀ t ∈ back ++ s :: after, p.Derives x.source t.source

section
variable (hplain : p.Plain) (hguard : p.Guarded) (cls : ι)

include hplain in
theorem shape_one {name : Str} {canonical : SlotType} {src : ι}
    (h : p.Offers cls name canonical src) :
    ((p.shape cls).filter (hasKey name canonical)).length = 1 := by
  obtain ⟨s, hs, hkey, -⟩ := h
  obtain ⟨hname, hcanonical⟩ := hasKey_iff.mp hkey
  obtain ⟨t, ht, htname, htcanonical⟩ := hasSlot_of_offered hs
  have hmem : t ∈ (p.shape cls).filter (hasKey name canonical) :=
    List.mem_filter.mpr ⟨ht, hasKey_iff.mpr ⟨htname.trans hname, htcanonical.trans hcanonical⟩⟩
  have hnodup : (keys ((p.shape cls).filter (hasKey name canonical))).Nodup :=
    (nodup_shape hplain cls).sublist (List.filter_sublist.map _)
  have hkeys : ∀ k ∈ keys ((p.shape cls).filter (hasKey name canonical)), k = (name, canonical) := by
    intro k hk
    obtain ⟨u, hu, huk⟩ := List.mem_map.mp hk
    obtain ⟨huname, hucanonical⟩ := hasKey_iff.mp (List.mem_filter.mp hu).2
    rw [← huk, huname, hucanonical]
  generalize (p.shape cls).filter (hasKey name canonical) = l at hmem hnodup hkeys
  cases l with
  | nil => cases hmem
  | cons u l =>
    cases l with
    | nil => rfl
    | cons v l =>
      have hu := hkeys _ (List.mem_cons_self ..)
      have hv := hkeys _ (List.mem_cons_of_mem _ (List.mem_cons_self ..))
      refine absurd ?_ (List.nodup_cons.mp hnodup).1
      rw [hu, ← hv]
      exact List.mem_cons_self ..

include hplain hguard

theorem shape_own {s : Slot ι} (hs : s ∈ p.shape cls)
    (hdeclares : p.Declares cls s.name s.canonical) : s.source = cls := by
  obtain ⟨t, ht, hkey⟩ := hdeclares
  have hsource : t.source = cls := by
    obtain ⟨m, -, hm⟩ := List.mem_map.mp ht
    rw [← hm]
    rfl
  refine source_of_top hplain hguard _ cls (Nat.lt_succ_self _) s hs cls
    ⟨t, .own ht, hkey, hsource⟩ fun m hm => ?_
  obtain ⟨u, hu, -, rfl⟩ := hm
  rcases hu.source with h | h
  · exact Or.inl h.2
  · exact Or.inr h

theorem shape_order {s : Slot ι} {src : ι}
    (hunique : ∀ m, p.MostDerived cls s.name s.canonical m ↔ m = src) {p' : ClassTable σ ι}
    (h : Reordered p p') {s' : Slot ι} (hs' : s' ∈ p'.shape cls) (hname : s'.name = s.name)
    (hcanonical : s'.canonical = s.canonical) : s'.source = src := by
  obtain ⟨hsrc, htop⟩ := top_of_unique hunique
  refine source_of_top (h.plain hplain) (h.guarded hguard) _ cls (Nat.lt_succ_self _) s' hs' src
    ?_ fun m hm => ?_
  · rw [hname, hcanonical]
    exact h.offers hsrc
  · rw [hname, hcanonical] at hm
    rcases htop m (h.symm.offers hm) with h' | h'
    · exact Or.inl h'
    · exact Or.inr (h.derives h')

/-- What a class does not declare is the one of the slots brought in that stands. -/
theorem shape_stands {s : Slot ι} (hs : s ∈ p.shape cls)
    (hnot : ¬ p.Declares cls s.name s.canonical) : ∃ before after,
      (p.broughtIn cls).filter (hasKey s.name s.canonical) = before ++ s :: after ∧
      Stands p.keeps before s after := by
  have hfound := find_of_mem (nodup_shape hplain cls) hs
  have hown : (p.ownSlots cls).filter (hasKey s.name s.canonical) = [] := by
    refine List.filter_eq_nil_iff.mpr fun t ht hkey => hnot ⟨t, ht, hkey⟩
  rw [find_shape hplain, hown, List.append_nil] at hfound
  have htrans : ∀ x y z : Slot ι, p.keeps x y = true → p.keeps y z = true →
      p.keeps x z = true := by
    intro x y z
    rw [keeps_iff hguard, keeps_iff hguard, keeps_iff hguard]
    exact fun hxy hyz => hxy.trans hyz
  cases hl : (p.broughtIn cls).filter (hasKey s.name s.canonical) with
  | nil =>
    rw [hl] at hfound
    cases hfound
  | cons x xs =>
    rw [hl] at hfound
    have hheld : held p.keeps x xs = s := Option.some.inj hfound
    obtain ⟨before, after, hsplit, hstands⟩ := held_stands htrans xs x
    rw [hheld] at hsplit hstands
    exact ⟨before, after, hsplit, hstands⟩

theorem shape_derived_of_overridesStand (h : p.OverridesStand cls) {s : Slot ι}
    (hs : s ∈ p.shape cls) (hnot : ¬ p.Declares cls s.name s.canonical) :
    p.MostDerived cls s.name s.canonical s.source := by
  refine ⟨⟨s, shape_offered hplain cls s hs, hasKey_iff.mpr ⟨rfl, rfl⟩, rfl⟩, fun m hm hderives => ?_⟩
  obtain ⟨before, after, hsplit, hstands⟩ := shape_stands hplain hguard cls hs hnot
  rcases h _ _ before s after hnot hsplit ⟨m, hm, hderives⟩ with hlater | hearlier
  · obtain ⟨t, ht, hnotAbove⟩ := hlater
    exact hnotAbove ((keeps_iff hguard).mp (hstands.tops t ht))
  · obtain ⟨front, x, back, hbefore, habove⟩ := hearlier
    obtain ⟨t, ht, hkeeps⟩ := hstands.leads front x back hbefore
    rw [(keeps_iff hguard).mpr (habove t ht)] at hkeeps
    cases hkeeps

theorem overridesStand_of_right (h : p.ShapeRight cls) : p.OverridesStand cls := by
  intro name canonical before s after hnot hsplit hoverride
  obtain ⟨m, hm, hderives⟩ := hoverride
  apply Classical.byContradiction
  intro hlost
  obtain ⟨hlater, hearlier⟩ := not_or.mp hlost
  have hstands : Stands p.keeps before s after := by
    refine ⟨fun t ht => ?_, fun front x back hbefore => ?_⟩
    · rw [keeps_iff hguard]
      exact Classical.byContradiction fun h => hlater ⟨t, ht, h⟩
    · apply Classical.byContradiction
      intro hnone
      refine hearlier ⟨front, x, back, hbefore, fun t ht => ?_⟩
      rw [← keeps_iff hguard]
      cases hkeeps : p.keeps x t with
      | true => rfl
      | false => exact absurd ⟨t, ht, hkeeps⟩ hnone
  -- the slot that stands is the slot of the class
  obtain ⟨t, ht, htkey⟩ : ∃ t ∈ p.shape cls, hasKey name canonical t = true := by
    obtain ⟨u, hu, hkey, -⟩ := hm
    obtain ⟨huname, hucanonical⟩ := hasKey_iff.mp hkey
    obtain ⟨t, ht, hname, hcanonical⟩ := hasSlot_of_offered hu
    exact ⟨t, ht, hasKey_iff.mpr ⟨hname.trans huname, hcanonical.trans hucanonical⟩⟩
  obtain ⟨hname, hcanonical⟩ := hasKey_iff.mp htkey
  rw [← hname, ← hcanonical] at hnot hsplit hm
  obtain ⟨before', after', hsplit', hstands'⟩ := shape_stands hplain hguard cls ht hnot
  have hst : s = t := hstands.unique hstands' (hsplit.symm.trans hsplit')
  refine (h.derived t ht hnot).top m hm ?_
  rw [← hst]
  exact hderives

end

end ClassTable

/-! ### An override lost -/

/-- The classes of a small program. -/
inductive Drawn where
  | shape | circle | label | badge
deriving DecidableEq

/-- `class Shape { void draw(); }  class Circle : Shape { void draw(); }
class Label { void draw(); }  class Badge : Circle, Label, Shape { }`. -/
def drawings : ClassTable Unit Drawn where
  kind _ := .Class
  decl
    | .circle => some { bases := [.named [] "Shape".toList [] none] }
    | .badge => some { bases := [.named [] "Circle".toList [] none,
                                 .named [] "Label".toList [] none,
                                 .named [] "Shape".toList [] none] }
    | _ => some {}
  scope _ := some ()
  enclosing _ := [()]
  names _ name :=
    if name = "Shape".toList then [.shape]
    else if name = "Circle".toList then [.circle]
    else if name = "Label".toList then [.label]
    else if name = "Badge".toList then [.badge]
    else []
  rank
    | .circle => 1
    | .badge => 2
    | _ => 0
  rank_lt := by
    intro cls
    cases cls <;> decide
  symbols := [.shape, .circle, .label, .badge]
  mem_symbols := by
    intro sym
    cases sym <;> decide
  symName
    | .shape => "Shape".toList
    | .circle => "Circle".toList
    | .label => "Label".toList
    | .badge => "Badge".toList
  isInterface _ := false
  members
    | .shape => [{ decl := 0, name := "draw".toList, callable := true }]
    | .circle => [{ decl := 1, name := "draw".toList, callable := true }]
    | .label => [{ decl := 2, name := "draw".toList, callable := true }]
    | .badge => []

open ClassTable

theorem drawings_flags {cls : Drawn} {s : Slot Drawn} (h : drawings.Offered cls s) :
    s.distinct = false ∧ s.isConst = false ∧ s.isReadonly = false ∧ s.isWeak = false := by
  induction h with
  | @own cls s hs =>
    revert s
    cases cls <;> decide
  | base _ _ _ ih => exact ih

theorem drawings_plain : drawings.Plain where
  single _ _ hs := (drawings_flags hs).1
  agree _ s t hs ht _ _ := by
    obtain ⟨-, hs₁, hs₂, hs₃⟩ := drawings_flags hs
    obtain ⟨-, ht₁, ht₂, ht₃⟩ := drawings_flags ht
    exact ⟨hs₁.trans ht₁.symm, hs₂.trans ht₂.symm, hs₃.trans ht₃.symm⟩

theorem drawings_guarded : drawings.Guarded := by
  refine ⟨fun | .circle => 2 | .badge => 5 | _ => 1, fun cls => ?_⟩
  cases cls <;> decide

end Leviathan.Sema
