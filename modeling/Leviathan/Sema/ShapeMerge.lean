import Leviathan.Sema.Dispatch

/-!
# Which override a shape keeps

`mergeSlot` lets a later slot of the same name and text replace the one that is there, except where
the class of the one that is there inherits from the class of the later one.  A class that declares
the member keeps its own.  Otherwise it keeps the first of the slots its bases bring in whose class
inherits from the classes of all that come after it (`held_stands`), and this need not be a most
derived one: where an unrelated declaration stands between an override and the member it overrides,
the override is gone when the overridden member arrives.
-/

namespace Leviathan.Sema

open List

/-! ### Holding one of many -/

section
variable {α : Type} (r : α → α → Bool)

/-- The one that is held gives way to the next unless it is over it. -/
def held (x : α) (xs : List α) : α := xs.foldl (fun cur y => if r cur y then cur else y) x

/-- `x` is over all that come after it, and nothing before it is. -/
structure Stands (before : List α) (x : α) (after : List α) : Prop where
  tops : ∀ y ∈ after, r x y = true
  leads : ∀ front z back, before = front ++ z :: back → ∃ y ∈ back ++ x :: after, r z y = false

variable {r}

theorem held_stands (htrans : ∀ x y z, r x y = true → r y z = true → r x z = true)
    (xs : List α) : ∀ x, ∃ before after, x :: xs = before ++ held r x xs :: after ∧
      Stands r before (held r x xs) after := by
  induction xs with
  | nil =>
    intro x
    refine ⟨[], [], rfl, ?_, ?_⟩
    · intro y hy
      cases hy
    · intro front z back h
      cases front <;> cases h
  | cons y ys ih =>
    intro x
    have hstep : held r x (y :: ys) = held r (if r x y then x else y) ys := rfl
    by_cases hxy : r x y = true
    · rw [hstep, if_pos hxy]
      obtain ⟨before, after, hsplit, hstands⟩ := ih x
      cases before with
      | nil =>
        -- `x` is over `y` as well
        obtain ⟨hx, hys⟩ := List.cons.inj hsplit
        refine ⟨[], y :: after, by rw [nil_append, ← hx, hys], ?_, ?_⟩
        · intro z hz
          rcases List.mem_cons.mp hz with h | h
          · rw [h, ← hx]
            exact hxy
          · exact hstands.tops z h
        · intro front z back h
          cases front <;> cases h
      | cons w before =>
        obtain ⟨hx, hys⟩ := List.cons.inj hsplit
        subst hx
        refine ⟨x :: y :: before, after, congrArg (fun l => x :: y :: l) hys, hstands.tops, ?_⟩
        obtain ⟨v, hv, hxv⟩ := hstands.leads [] x before rfl
        intro front z back h
        cases front with
        | nil =>
          obtain ⟨hz, hback⟩ := List.cons.inj h
          subst hz hback
          exact ⟨v, mem_cons_of_mem y hv, hxv⟩
        | cons f front =>
          obtain ⟨-, h⟩ := List.cons.inj h
          cases front with
          | nil =>
            obtain ⟨hz, hback⟩ := List.cons.inj h
            subst hz hback
            refine ⟨v, hv, ?_⟩
            by_cases hyv : r y v = true
            · rw [htrans x y v hxy hyv] at hxv
              cases hxv
            · exact Bool.eq_false_iff.mpr hyv
          | cons g front =>
            obtain ⟨-, h⟩ := List.cons.inj h
            exact hstands.leads (x :: front) z back (by rw [h]; rfl)
    · rw [hstep, if_neg hxy]
      obtain ⟨before, after, hsplit, hstands⟩ := ih y
      refine ⟨x :: before, after, by rw [hsplit]; rfl, hstands.tops, ?_⟩
      intro front z back h
      cases front with
      | nil =>
        obtain ⟨hz, hback⟩ := List.cons.inj h
        subst hz hback
        refine ⟨y, ?_, Bool.eq_false_iff.mpr hxy⟩
        rw [← hsplit]
        exact mem_cons_self ..
      | cons f front =>
        obtain ⟨-, h⟩ := List.cons.inj h
        exact hstands.leads front z back h

/-- Only one place of a list stands. -/
theorem Stands.unique {before before' after after' : List α} {x y : α}
    (h : Stands r before x after) (h' : Stands r before' y after')
    (hsplit : before ++ x :: after = before' ++ y :: after') : x = y := by
  rcases List.append_eq_append_iff.mp hsplit with ⟨mid, hbefore, hafter⟩ | ⟨mid, hbefore, hafter⟩
  · cases mid with
    | nil => exact (List.cons.inj hafter).1
    | cons m mid =>
      obtain ⟨hm, htail⟩ := List.cons.inj hafter
      subst hm
      obtain ⟨z, hz, hxz⟩ := h'.leads before x mid hbefore
      rw [h.tops z (by rw [htail]; exact hz)] at hxz
      cases hxz
  · cases mid with
    | nil => exact (List.cons.inj hafter).1.symm
    | cons m mid =>
      obtain ⟨hm, htail⟩ := List.cons.inj hafter
      subst hm
      obtain ⟨z, hz, hyz⟩ := h.leads before' y mid hbefore
      rw [h'.tops z (by rw [htail]; exact hz)] at hyz
      cases hyz

/-- What is held after a list, if anything. -/
def heldFrom (r : α → α → Bool) : Option α → List α → Option α
  | none, [] => none
  | none, y :: ys => some (held r y ys)
  | some x, ys => some (held r x ys)

theorem heldFrom_cons (o : Option α) (y : α) (ys : List α) :
    heldFrom r o (y :: ys) =
      heldFrom r (some (match o with
        | none => y
        | some x => if r x y then x else y)) ys := by
  cases o <;> rfl

/-- One that is over all others of the list is held. -/
theorem held_top {f : α → Prop} {xs : List α} : ∀ {x : α},
    (∀ y ∈ x :: xs, ∀ z ∈ x :: xs, f y → ¬ f z → r y z = true) →
    (∀ y ∈ x :: xs, ∀ z ∈ x :: xs, f z → r y z = false) →
    (∃ y ∈ x :: xs, f y) → f (held r x xs) := by
  induction xs with
  | nil =>
    intro x _ _ h
    obtain ⟨y, hy, hf⟩ := h
    rw [List.mem_singleton.mp hy] at hf
    exact hf
  | cons z zs ih =>
    intro x hover hunder h
    have hx : x ∈ x :: z :: zs := mem_cons_self ..
    have hz : z ∈ x :: z :: zs := mem_cons_of_mem x (mem_cons_self ..)
    have hstep : held r x (z :: zs) = held r (if r x z then x else z) zs := rfl
    rw [hstep]
    have hsub : ∀ y ∈ (if r x z then x else z) :: zs, y ∈ x :: z :: zs := by
      intro y hy
      rcases List.mem_cons.mp hy with h | h
      · rw [h]
        split
        · exact hx
        · exact hz
      · exact mem_cons_of_mem x (mem_cons_of_mem z h)
    refine ih (fun y hy w hw => hover y (hsub y hy) w (hsub w hw))
      (fun y hy w hw => hunder y (hsub y hy) w (hsub w hw)) ?_
    obtain ⟨y, hy, hf⟩ := h
    rcases List.mem_cons.mp hy with h | h
    · rw [h] at hf
      by_cases hfz : f z
      · rw [if_neg (by rw [hunder x hx z hz hfz]; decide)]
        exact ⟨z, mem_cons_self .., hfz⟩
      · rw [if_pos (hover x hx z hz hf hfz)]
        exact ⟨x, mem_cons_self .., hf⟩
    · rcases List.mem_cons.mp h with h | h
      · rw [h] at hf
        rw [if_neg (by rw [hunder x hx z hz hf]; decide)]
        exact ⟨z, mem_cons_self .., hf⟩
      · exact ⟨y, mem_cons_of_mem _ h, hf⟩

end

variable {name : Str} {canonical : SlotType}

namespace ClassTable

variable {σ ι : Type} [DecidableEq ι] (p : ClassTable σ ι)

/-! ### What a class is offered -/

/-- A declaration of a member as a class sees it, its own or along the base clauses it takes slots
over by. -/
inductive Offered : ι → Slot ι → Prop where
  | own {cls : ι} {s : Slot ι} : s ∈ p.ownSlots cls → Offered cls s
  | base {cls base : ι} {generics : List (TypeRef ι)} {s : Slot ι} :
      p.Clause cls base generics → p.TakesOver cls base → Offered base s →
      Offered cls (substituteSlotGenerics (p.clauseSubst base generics) s)

/-- The class of a base clause. -/
def Parent (cls base : ι) : Prop := base ∈ p.baseClasses cls

/-- The class inherits from the other one. -/
def Derives (sub base : ι) : Prop := Relation.TransGen p.Parent sub base

/-- The slot is the one of this name and text. -/
def hasKey (name : Str) (canonical : SlotType) (s : Slot ι) : Bool :=
  s.name = name && s.canonical = canonical

/-- The class declares the member. -/
def Declares (cls : ι) (name : Str) (canonical : SlotType) : Prop :=
  ∃ s ∈ p.ownSlots cls, hasKey name canonical s = true

/-- The member is declared by `source`, the class itself or an ancestor. -/
def Offers (cls : ι) (name : Str) (canonical : SlotType) (source : ι) : Prop :=
  ∃ s, p.Offered cls s ∧ hasKey name canonical s = true ∧ s.source = source

/-- The member is declared by `source`, and by no class that inherits from it. -/
structure MostDerived (cls : ι) (name : Str) (canonical : SlotType) (source : ι) : Prop where
  offers : p.Offers cls name canonical source
  top : ∀ m, p.Offers cls name canonical m → ¬ p.Derives m source

/-- No member is `distinct`, and the declarations of one name and text agree. -/
structure Plain : Prop where
  single : ∀ cls s, p.Offered cls s → s.distinct = false
  agree : ∀ cls s t, p.Offered cls s → p.Offered cls t → s.name = t.name →
    s.canonical = t.canonical →
    s.isConst = t.isConst ∧ s.isReadonly = t.isReadonly ∧ s.isWeak = t.isWeak

/-- The walks of `classInheritsFrom` end before its guard does. -/
def Guarded : Prop :=
  ∃ walk : ι → Nat, ∀ cls, ((p.baseClasses cls).map walk).sum < walk cls ∧ walk cls ≤ 100000

/-! ### Inheritance -/

variable {p}

omit [DecidableEq ι] in
theorem Derives.rank_lt {a b : ι} (h : p.Derives a b) : p.rank b < p.rank a := by
  have hstep : ∀ {a b : ι}, p.Parent a b → p.rank b < p.rank a := by
    intro a b hab
    exact p.rank_lt a b (List.mem_filter.mp hab).1
  induction h with
  | single h => exact hstep h
  | tail _ h ih => exact Nat.lt_trans (hstep h) ih

omit [DecidableEq ι] in
theorem Derives.ne {a b : ι} (h : p.Derives a b) : a ≠ b := by
  intro hab
  subst hab
  exact absurd h.rank_lt (Nat.lt_irrefl _)

theorem inheritsLoop_sound {base : ι} {n : Nat} : ∀ {stack : List ι},
    p.inheritsLoop base n stack = true →
    ∃ c ∈ stack, Relation.ReflTransGen p.Parent c base := by
  induction n with
  | zero =>
    intro stack h
    cases h
  | succ n ih =>
    intro stack h
    cases stack with
    | nil => cases h
    | cons cur stack =>
      rw [inheritsLoop, Bool.or_eq_true, decide_eq_true_eq] at h
      rcases h with h | h
      · rw [h]
        exact ⟨base, mem_cons_self .., .refl⟩
      · obtain ⟨c, hc, hpath⟩ := ih h
        rcases List.mem_append.mp hc with hc | hc
        · exact ⟨cur, mem_cons_self .., .head (List.mem_reverse.mp hc) hpath⟩
        · exact ⟨c, mem_cons_of_mem cur hc, hpath⟩

theorem inheritsLoop_complete {walk : ι → Nat}
    (hwalk : ∀ cls, ((p.baseClasses cls).map walk).sum < walk cls) {base : ι} {n : Nat} :
    ∀ {stack : List ι}, (stack.map walk).sum ≤ n →
    (∃ c ∈ stack, Relation.ReflTransGen p.Parent c base) →
    p.inheritsLoop base n stack = true := by
  induction n with
  | zero =>
    intro stack hsum hpath
    obtain ⟨c, hc, -⟩ := hpath
    have hle : walk c ≤ (stack.map walk).sum :=
      single_le_sum (by simp) _ (mem_map_of_mem hc)
    have hpos := hwalk c
    omega
  | succ n ih =>
    intro stack hsum hpath
    cases stack with
    | nil =>
      obtain ⟨c, hc, -⟩ := hpath
      cases hc
    | cons cur stack =>
      rw [inheritsLoop, Bool.or_eq_true, decide_eq_true_eq]
      by_cases hcur : cur = base
      · exact Or.inl hcur
      · refine Or.inr (ih ?_ ?_)
        · have hless := hwalk cur
          rw [map_cons, sum_cons] at hsum
          rw [map_append, sum_append, map_reverse, sum_reverse]
          omega
        · obtain ⟨c, hc, hpath⟩ := hpath
          rcases List.mem_cons.mp hc with h | h
          · subst h
            rcases hpath.cases_head with h | ⟨d, hd, hpath⟩
            · exact absurd h hcur
            · exact ⟨d, mem_append_left _ (List.mem_reverse.mpr hd), hpath⟩
          · exact ⟨c, mem_append_right _ h, hpath⟩

/-- **The inheritance test.**  Within its guard `classInheritsFrom` finds every ancestor. -/
theorem classInheritsFrom_iff (hguard : p.Guarded) {a b : ι} :
    p.classInheritsFrom a b = true ↔ p.Derives a b := by
  obtain ⟨walk, hwalk⟩ := hguard
  rw [classInheritsFrom, Bool.and_eq_true, decide_eq_true_eq]
  refine ⟨fun h => ?_, fun h => ⟨h.ne, ?_⟩⟩
  · obtain ⟨c, hc, hpath⟩ := inheritsLoop_sound h.2
    exact Relation.TransGen.head' (List.mem_reverse.mp hc) hpath
  · refine inheritsLoop_complete (fun cls => (hwalk cls).1) ?_ ?_
    · have hless := hwalk a
      rw [map_reverse, sum_reverse]
      omega
    · obtain ⟨c, hc, hpath⟩ := Relation.TransGen.head'_iff.mp h
      exact ⟨c, List.mem_reverse.mpr hc, hpath⟩

/-! ### Merging -/

/-- What two slots of one name and text must have in common to be merged in silence. -/
structure Agree (s t : Slot ι) : Prop where
  left : s.distinct = false
  right : t.distinct = false
  isConst : s.isConst = t.isConst
  isReadonly : s.isReadonly = t.isReadonly
  isWeak : s.isWeak = t.isWeak

variable (p) in
/-- The slot is an override of the incoming one. -/
def keeps (s incoming : Slot ι) : Bool :=
  s.source ≠ incoming.source && p.classInheritsFrom s.source incoming.source

theorem keeps_iff (hguard : p.Guarded) {s t : Slot ι} :
    p.keeps s t = true ↔ p.Derives s.source t.source := by
  rw [keeps, Bool.and_eq_true, decide_eq_true_eq, classInheritsFrom_iff hguard]
  exact ⟨fun h => h.2, fun h => ⟨h.ne, h⟩⟩

theorem mergeInto_agree {s t : Slot ι} (h : Agree s t) :
    p.mergeInto s t = ([if p.keeps s t then s else t], []) := by
  unfold mergeInto keeps
  rw [h.left, h.right, h.isConst, h.isReadonly, h.isWeak]
  simp only [Bool.or_self, Bool.false_eq_true, if_false, ne_eq, not_true_eq_false,
    decide_false]
  split <;> rfl

section
variable {slots : List (Slot ι)} {incoming : Slot ι}

theorem mem_mergeSlot (h : ∀ s ∈ slots, s.name = incoming.name →
      s.canonical = incoming.canonical → Agree s incoming) {t : Slot ι}
    (ht : t ∈ p.mergeSlot slots incoming) : t ∈ slots ∨ t = incoming := by
  induction slots with
  | nil => exact Or.inr (List.mem_singleton.mp ht)
  | cons s slots ih =>
    rw [mergeSlot] at ht
    by_cases hkey : s.name = incoming.name ∧ s.canonical = incoming.canonical
    · rw [if_pos hkey, mergeInto_agree (h s (mem_cons_self ..) hkey.1 hkey.2)] at ht
      simp only [singleton_append, append_nil] at ht
      rcases List.mem_cons.mp ht with ht | ht
      · rw [ht]
        split
        · exact Or.inl (mem_cons_self ..)
        · exact Or.inr rfl
      · exact Or.inl (mem_cons_of_mem s ht)
    · rw [if_neg hkey] at ht
      rcases List.mem_cons.mp ht with ht | ht
      · rw [ht]
        exact Or.inl (mem_cons_self ..)
      · rcases ih (fun u hu => h u (mem_cons_of_mem s hu)) ht with ht | ht
        · exact Or.inl (mem_cons_of_mem s ht)
        · exact Or.inr ht

omit [DecidableEq ι] in
theorem hasKey_iff {s : Slot ι} :
    hasKey name canonical s = true ↔ s.name = name ∧ s.canonical = canonical := by
  rw [hasKey, Bool.and_eq_true, decide_eq_true_eq, decide_eq_true_eq]

/-- Of each name and text the merged slots have what is held of those that came. -/
theorem find_mergeSlot (h : ∀ s ∈ slots, s.name = incoming.name →
      s.canonical = incoming.canonical → Agree s incoming) (name : Str) (canonical : SlotType) :
    (p.mergeSlot slots incoming).find? (hasKey name canonical) =
      heldFrom p.keeps (slots.find? (hasKey name canonical))
        ([incoming].filter (hasKey name canonical)) := by
  induction slots with
  | nil =>
    by_cases hkey : hasKey name canonical incoming = true
    · simp [mergeSlot, hkey, heldFrom, held]
    · simp [mergeSlot, hkey, heldFrom]
  | cons s slots ih =>
    rw [mergeSlot]
    by_cases hsame : s.name = incoming.name ∧ s.canonical = incoming.canonical
    · rw [if_pos hsame, mergeInto_agree (h s (mem_cons_self ..) hsame.1 hsame.2)]
      simp only [singleton_append, append_nil]
      by_cases hkey : hasKey name canonical s = true
      · have hin : hasKey name canonical incoming = true := by
          rw [hasKey_iff] at hkey ⊢
          exact ⟨hsame.1.symm.trans hkey.1, hsame.2.symm.trans hkey.2⟩
        have hres : hasKey name canonical (if p.keeps s incoming then s else incoming) = true := by
          split
          · exact hkey
          · exact hin
        simp [hkey, hin, hres, heldFrom, held]
      · have hin : ¬ hasKey name canonical incoming = true := by
          rw [hasKey_iff] at hkey ⊢
          intro hin
          exact hkey ⟨hsame.1.trans hin.1, hsame.2.trans hin.2⟩
        have hres : ¬ hasKey name canonical (if p.keeps s incoming then s else incoming) = true := by
          split
          · exact hkey
          · exact hin
        simp only [find?_cons_of_neg hres, find?_cons_of_neg hkey]
        cases slots.find? (hasKey name canonical) <;> simp [hin, heldFrom, held]
    · rw [if_neg hsame]
      by_cases hkey : hasKey name canonical s = true
      · have hin : ¬ hasKey name canonical incoming = true := by
          rw [hasKey_iff] at hkey ⊢
          intro hin
          exact hsame ⟨hkey.1.trans hin.1.symm, hkey.2.trans hin.2.symm⟩
        simp [hkey, hin, heldFrom, held]
      · simp only [find?_cons_of_neg hkey]
        exact ih fun u hu => h u (mem_cons_of_mem s hu)

/-- The names and texts of a list of slots. -/
def keys (slots : List (Slot ι)) : List (Str × SlotType) := slots.map fun s => (s.name, s.canonical)

theorem nodup_mergeSlot (h : ∀ s ∈ slots, s.name = incoming.name →
      s.canonical = incoming.canonical → Agree s incoming) (hnodup : (keys slots).Nodup) :
    (keys (p.mergeSlot slots incoming)).Nodup := by
  induction slots with
  | nil => exact nodup_singleton _
  | cons s slots ih =>
    rw [mergeSlot]
    obtain ⟨hfresh, hrest⟩ := List.nodup_cons.mp hnodup
    by_cases hsame : s.name = incoming.name ∧ s.canonical = incoming.canonical
    · rw [if_pos hsame, mergeInto_agree (h s (mem_cons_self ..) hsame.1 hsame.2)]
      simp only [singleton_append, append_nil]
      refine List.nodup_cons.mpr ⟨?_, hrest⟩
      split
      · exact hfresh
      · show (incoming.name, incoming.canonical) ∉ _
        rw [← hsame.1, ← hsame.2]
        exact hfresh
    · rw [if_neg hsame]
      have hmore := fun u hu => h u (mem_cons_of_mem s hu)
      refine List.nodup_cons.mpr ⟨fun hmem => ?_, ih hmore hrest⟩
      obtain ⟨t, ht, hkey⟩ := List.mem_map.mp hmem
      obtain ⟨hname, hcanonical⟩ := Prod.mk.inj hkey
      rcases mem_mergeSlot hmore ht with ht | ht
      · exact hfresh (List.mem_map.mpr ⟨t, ht, hkey⟩)
      · rw [ht] at hname hcanonical
        exact hsame ⟨hname.symm, hcanonical.symm⟩

end

/-- The slots of a class before they are merged. -/
structure Arriving (arriving slots : List (Slot ι)) : Prop where
  agree : ∀ s ∈ slots ++ arriving, ∀ t ∈ arriving, s.name = t.name → s.canonical = t.canonical →
    Agree s t
  nodup : (keys slots).Nodup

theorem Arriving.step {s : Slot ι} {arriving slots : List (Slot ι)}
    (h : Arriving (s :: arriving) slots) : Arriving arriving (p.mergeSlot slots s) := by
  have hs : ∀ t ∈ slots, t.name = s.name → t.canonical = s.canonical → Agree t s :=
    fun t ht => h.agree t (mem_append_left _ ht) s (mem_cons_self ..)
  refine ⟨fun t ht u hu => h.agree t ?_ u (mem_cons_of_mem s hu), nodup_mergeSlot hs h.nodup⟩
  rcases List.mem_append.mp ht with ht | ht
  · rcases mem_mergeSlot hs ht with ht | ht
    · exact mem_append_left _ ht
    · rw [ht]
      exact mem_append_right _ (mem_cons_self ..)
  · exact mem_append_right _ (mem_cons_of_mem s ht)

theorem find_foldl {arriving slots : List (Slot ι)} (h : Arriving arriving slots) (name : Str)
    (canonical : SlotType) :
    (arriving.foldl p.mergeSlot slots).find? (hasKey name canonical) =
      heldFrom p.keeps (slots.find? (hasKey name canonical))
        (arriving.filter (hasKey name canonical)) := by
  induction arriving generalizing slots with
  | nil => cases hfind : slots.find? (hasKey name canonical) <;> simp [hfind, heldFrom, held]
  | cons s arriving ih =>
    rw [foldl_cons, ih h.step, find_mergeSlot fun t ht =>
      h.agree t (mem_append_left _ ht) s (mem_cons_self ..)]
    by_cases hkey : hasKey name canonical s = true
    · rw [filter_cons_of_pos hkey, heldFrom_cons]
      cases slots.find? (hasKey name canonical) <;> simp [hkey, heldFrom, held]
    · rw [filter_cons_of_neg hkey]
      cases slots.find? (hasKey name canonical) <;> simp [hkey, heldFrom, held]

theorem nodup_foldl {arriving slots : List (Slot ι)} (h : Arriving arriving slots) :
    (keys (arriving.foldl p.mergeSlot slots)).Nodup := by
  induction arriving generalizing slots with
  | nil => exact h.nodup
  | cons s arriving ih => exact ih h.step

/-! ### The slots of a class -/

variable (p) in
/-- The slots that the base clauses of a class bring in, in the order of the clauses. -/
def broughtIn (cls : ι) : List (Slot ι) :=
  match p.decl cls, p.scope cls with
  | some d, some sc => d.bases.flatMap (p.clauseSlots p.shape cls sc)
  | _, _ => []

theorem shape_eq_foldl (cls : ι) :
    p.shape cls = (p.broughtIn cls ++ p.ownSlots cls).foldl p.mergeSlot [] := by
  rw [p.shape_eq cls, shapeStep]
  rfl

theorem mem_broughtIn {cls : ι} {s : Slot ι} : s ∈ p.broughtIn cls ↔
    ∃ base generics t, p.Clause cls base generics ∧ p.TakesOver cls base ∧ t ∈ p.shape base ∧
      s = substituteSlotGenerics (p.clauseSubst base generics) t := by
  unfold broughtIn Clause TakesOver
  cases hdecl : p.decl cls with
  | none => simp
  | some d =>
    cases hscope : p.scope cls with
    | none => simp
    | some sc =>
      simp only [mem_flatMap]
      refine ⟨fun h => ?_, fun h => ?_⟩
      · obtain ⟨clause, hclause, hs⟩ := h
        cases clause with
        | named path name generics hygiene =>
          cases hsym : p.resolvedSymbol sc (.named path name generics hygiene) with
          | none => simp [clauseSlots, hsym] at hs
          | some base =>
            simp only [clauseSlots, hsym] at hs
            by_cases htakes : p.kind base = .Class ∧
                ¬ (p.isInterface base = true ∧ p.isInterface cls = false)
            · rw [if_pos htakes] at hs
              obtain ⟨t, ht, hts⟩ := List.mem_map.mp hs
              exact ⟨base, generics, t, ⟨d, sc, path, name, hygiene, rfl, rfl, hclause, hsym⟩,
                htakes, ht, hts.symm⟩
            · rw [if_neg htakes] at hs
              cases hs
        | inferred => cases hs
        | union members => cases hs
        | function params ret => cases hs
      · obtain ⟨base, generics, t, ⟨d', sc', path, name, hygiene, hd, hsc, hclause, hsym⟩,
          htakes, ht, hs⟩ := h
        cases hd
        cases hsc
        refine ⟨_, hclause, ?_⟩
        simp only [clauseSlots, hsym]
        rw [if_pos htakes, hs]
        exact mem_map_of_mem ht

omit [DecidableEq ι] in
theorem Clause.parent {cls base : ι} {generics : List (TypeRef ι)} (h : p.Clause cls base generics)
    (htakes : p.TakesOver cls base) : p.Parent cls base :=
  List.mem_filter.mpr ⟨h.base, decide_eq_true htakes.1⟩

omit [DecidableEq ι] in
theorem Offered.source {cls : ι} {s : Slot ι} (h : p.Offered cls s) :
    s ∈ p.ownSlots cls ∧ s.source = cls ∨ p.Derives cls s.source := by
  induction h with
  | own hs =>
    refine Or.inl ⟨hs, ?_⟩
    obtain ⟨m, -, hm⟩ := List.mem_map.mp hs
    rw [← hm]
    rfl
  | base hclause htakes _ ih =>
    refine Or.inr ?_
    show p.Derives _ (Slot.source _)
    rcases ih with h | h
    · rw [show (substituteSlotGenerics _ _).source = _ from h.2]
      exact .single (hclause.parent htakes)
    · exact .head (hclause.parent htakes) h

omit [DecidableEq ι] in
theorem agree_of_offered (hplain : p.Plain) {cls : ι} {s t : Slot ι} (hs : p.Offered cls s)
    (ht : p.Offered cls t) (hname : s.name = t.name) (hcanonical : s.canonical = t.canonical) :
    Agree s t := by
  obtain ⟨hconst, hreadonly, hweak⟩ := hplain.agree cls s t hs ht hname hcanonical
  exact ⟨hplain.single cls s hs, hplain.single cls t ht, hconst, hreadonly, hweak⟩

omit [DecidableEq ι] in
theorem arriving_of_offered (hplain : p.Plain) {c : ι} {l : List (Slot ι)}
    (h : ∀ s ∈ l, p.Offered c s) : Arriving l [] :=
  ⟨fun s hs t ht => agree_of_offered hplain (h s hs) (h t ht), nodup_nil⟩

theorem mem_foldl {cls : ι} (hplain : p.Plain) {l slots : List (Slot ι)}
    (hl : ∀ s ∈ l, p.Offered cls s) (hslots : ∀ s ∈ slots, p.Offered cls s) :
    ∀ s ∈ l.foldl p.mergeSlot slots, p.Offered cls s := by
  induction l generalizing slots with
  | nil => exact hslots
  | cons t l ih =>
    have ht : p.Offered cls t := hl t (mem_cons_self ..)
    refine ih (fun s hs => hl s (mem_cons_of_mem t hs)) fun s hs => ?_
    rcases mem_mergeSlot (fun u hu => agree_of_offered hplain (hslots u hu) ht) hs with h | h
    · exact hslots s h
    · rw [h]
      exact ht

/-- A slot of a class is a declaration it is offered. -/
theorem offered_of_mem_shape (hplain : p.Plain) : ∀ (n : Nat) (cls : ι), p.rank cls < n →
    (∀ s ∈ p.broughtIn cls, p.Offered cls s) ∧ ∀ s ∈ p.shape cls, p.Offered cls s := by
  intro n
  induction n with
  | zero =>
    intro cls h
    exact absurd h (Nat.not_lt_zero _)
  | succ n ih =>
    intro cls hrank
    have hbrought : ∀ s ∈ p.broughtIn cls, p.Offered cls s := by
      intro s hs
      obtain ⟨base, generics, t, hclause, htakes, ht, hst⟩ := mem_broughtIn.mp hs
      have hless := p.rank_lt cls base hclause.base
      rw [hst]
      exact .base hclause htakes ((ih base (by omega)).2 t ht)
    refine ⟨hbrought, fun s hs => ?_⟩
    rw [shape_eq_foldl] at hs
    refine mem_foldl hplain (fun t ht => ?_) (fun t ht => by cases ht) s hs
    rcases List.mem_append.mp ht with ht | ht
    · exact hbrought t ht
    · exact .own ht

section
variable (hplain : p.Plain) (cls : ι)
include hplain

theorem broughtIn_offered : ∀ s ∈ p.broughtIn cls, p.Offered cls s :=
  (offered_of_mem_shape hplain _ cls (Nat.lt_succ_self _)).1

theorem shape_offered : ∀ s ∈ p.shape cls, p.Offered cls s :=
  (offered_of_mem_shape hplain _ cls (Nat.lt_succ_self _)).2

theorem shape_arriving : Arriving (p.broughtIn cls ++ p.ownSlots cls) [] := by
  refine arriving_of_offered hplain (c := cls) fun s hs => ?_
  rcases List.mem_append.mp hs with hs | hs
  · exact broughtIn_offered hplain cls s hs
  · exact .own hs

theorem nodup_shape : (keys (p.shape cls)).Nodup := by
  rw [shape_eq_foldl]
  exact nodup_foldl (shape_arriving hplain cls)

theorem find_shape (name : Str) (canonical : SlotType) :
    (p.shape cls).find? (hasKey name canonical) =
      heldFrom p.keeps none ((p.broughtIn cls).filter (hasKey name canonical) ++
        (p.ownSlots cls).filter (hasKey name canonical)) := by
  rw [shape_eq_foldl, find_foldl (shape_arriving hplain cls), filter_append]
  rfl

end

/-- What a class is offered, it has a slot for. -/
theorem hasSlot_of_offered {cls : ι} {s : Slot ι} (h : p.Offered cls s) :
    HasSlot (p.shape cls) s.name s.canonical := by
  induction h with
  | own hs =>
    rw [shape_eq_foldl]
    exact p.hasSlot_foldl (Or.inr ⟨_, mem_append_right _ hs, rfl, rfl⟩)
  | base hclause htakes _ ih =>
    obtain ⟨t, ht, hname, hcanonical⟩ := ih
    rw [shape_eq_foldl]
    refine p.hasSlot_foldl (Or.inr ⟨_, mem_append_left _ (mem_broughtIn.mpr
      ⟨_, _, t, hclause, htakes, ht, rfl⟩), hname, ?_⟩)
    exact congrArg (substituteAll _) hcanonical

omit [DecidableEq ι] in
/-- In a list without two slots of one name and text, a slot is found by them. -/
theorem find_of_mem {slots : List (Slot ι)} (hnodup : (keys slots).Nodup) {s : Slot ι}
    (hs : s ∈ slots) : slots.find? (hasKey s.name s.canonical) = some s := by
  induction slots with
  | nil => cases hs
  | cons t slots ih =>
    obtain ⟨hfresh, hrest⟩ := List.nodup_cons.mp hnodup
    rcases List.mem_cons.mp hs with h | h
    · rw [h]
      exact find?_cons_of_pos (hasKey_iff.mpr ⟨rfl, rfl⟩)
    · rw [find?_cons_of_neg]
      · exact ih hrest h
      · intro hkey
        obtain ⟨hname, hcanonical⟩ := hasKey_iff.mp hkey
        exact hfresh (List.mem_map.mpr ⟨s, h, Prod.ext hname.symm hcanonical.symm⟩)

/-! ### One most derived declaration -/

omit [DecidableEq ι] in
/-- A declaration that is seen through a base clause is seen by the base. -/
theorem offers_of_base {cls base : ι} {generics : List (TypeRef ι)}
    (hclause : p.Clause cls base generics) (htakes : p.TakesOver cls base) {s : Slot ι} {m : ι}
    (h : p.Offers base s.name s.canonical m) :
    p.Offers cls s.name (substituteAll (p.clauseSubst base generics) s.canonical) m := by
  obtain ⟨t, ht, hkey, hsource⟩ := h
  obtain ⟨hname, hcanonical⟩ := hasKey_iff.mp hkey
  refine ⟨_, .base hclause htakes ht, hasKey_iff.mpr ⟨hname, ?_⟩, hsource⟩
  exact congrArg (substituteAll _) hcanonical

/-- **A member with one most derived declaration.**  Where the class of one declaration inherits
from the classes of all others, the slot is that declaration. -/
theorem source_of_top (hplain : p.Plain) (hguard : p.Guarded) : ∀ (n : Nat) (cls : ι),
    p.rank cls < n → ∀ s ∈ p.shape cls, ∀ src, p.Offers cls s.name s.canonical src →
    (∀ m, p.Offers cls s.name s.canonical m → m = src ∨ p.Derives src m) → s.source = src := by
  intro n
  induction n with
  | zero =>
    intro cls h
    exact absurd h (Nat.not_lt_zero _)
  | succ n ih =>
    intro cls hrank s hs src hsrc htop
    have hfound := find_of_mem (nodup_shape hplain cls) hs
    rw [find_shape hplain] at hfound
    generalize hl : (p.broughtIn cls).filter (hasKey s.name s.canonical) ++
      (p.ownSlots cls).filter (hasKey s.name s.canonical) = l at hfound
    have hoffers : ∀ z ∈ l, z.source = src ∨ p.Derives src z.source := by
      intro z hz
      refine htop z.source ⟨z, ?_, ?_, rfl⟩
      · rw [← hl] at hz
        rcases List.mem_append.mp hz with hz | hz
        · exact broughtIn_offered hplain cls z (List.mem_filter.mp hz).1
        · exact .own (List.mem_filter.mp hz).1
      · rw [← hl] at hz
        rcases List.mem_append.mp hz with hz | hz
        · exact (List.mem_filter.mp hz).2
        · exact (List.mem_filter.mp hz).2
    have hcomes : ∃ z ∈ l, z.source = src := by
      obtain ⟨t, ht, hkey, hsource⟩ := hsrc
      cases ht with
      | own ht =>
        refine ⟨t, ?_, hsource⟩
        rw [← hl]
        exact mem_append_right _ (List.mem_filter.mpr ⟨ht, hkey⟩)
      | @base _ base generics t hclause htakes ht =>
        obtain ⟨hname, hcanonical⟩ := hasKey_iff.mp hkey
        obtain ⟨u, hu, huname, hucanonical⟩ := hasSlot_of_offered ht
        have hless := p.rank_lt cls base hclause.base
        have husource : u.source = src := by
          refine ih base (by omega) u hu src
            ⟨t, ht, hasKey_iff.mpr ⟨huname.symm, hucanonical.symm⟩, hsource⟩ fun m hm => ?_
          refine htop m ?_
          have hseen := offers_of_base hclause htakes hm
          rwa [huname, hucanonical, show t.name = s.name from hname,
            show substituteAll _ t.canonical = s.canonical from hcanonical] at hseen
        refine ⟨substituteSlotGenerics (p.clauseSubst base generics) u, ?_, husource⟩
        rw [← hl]
        refine mem_append_left _ (List.mem_filter.mpr
          ⟨mem_broughtIn.mpr ⟨base, generics, u, hclause, htakes, hu, rfl⟩, ?_⟩)
        refine hasKey_iff.mpr ⟨huname.trans hname, ?_⟩
        exact (congrArg (substituteAll _) hucanonical).trans hcanonical
    cases l with
    | nil => cases hfound
    | cons y ys =>
      rw [← Option.some.inj hfound]
      refine held_top (f := fun z : Slot ι => z.source = src) (fun z _ w hw hz hw' => ?_)
        (fun z hz w _ hw => ?_) hcomes
      · rw [keeps_iff hguard, hz]
        rcases hoffers w hw with h | h
        · exact absurd h hw'
        · exact h
      · refine Bool.eq_false_iff.mpr fun hkeeps => ?_
        rw [keeps_iff hguard, hw] at hkeeps
        have hless := hkeeps.rank_lt
        rcases hoffers z hz with h | h
        · rw [h] at hless
          omega
        · have hmore := h.rank_lt
          omega

omit [DecidableEq ι] in
theorem Offers.rank_le {cls m : ι} (h : p.Offers cls name canonical m) : p.rank m ≤ p.rank cls := by
  obtain ⟨s, hs, -, rfl⟩ := h
  rcases hs.source with h | h
  · rw [h.2]
  · exact Nat.le_of_lt h.rank_lt

omit [DecidableEq ι] in
/-- Above every declaration there is a most derived one. -/
theorem exists_mostDerived {cls : ι} (n : Nat) : ∀ m,
    p.rank cls - p.rank m ≤ n → p.Offers cls name canonical m →
    ∃ top, p.MostDerived cls name canonical top ∧ (m = top ∨ p.Derives top m) := by
  induction n with
  | zero =>
    intro m hrank hm
    refine ⟨m, ⟨hm, fun m' hm' hderives => ?_⟩, Or.inl rfl⟩
    have hless := hderives.rank_lt
    have hle := hm'.rank_le
    omega
  | succ n ih =>
    intro m hrank hm
    by_cases htop : ∃ m', p.Offers cls name canonical m' ∧ p.Derives m' m
    · obtain ⟨m', hm', hderives⟩ := htop
      have hless := hderives.rank_lt
      have hle := hm'.rank_le
      obtain ⟨top, htop, habove⟩ := ih m' (by omega) hm'
      refine ⟨top, htop, Or.inr ?_⟩
      rcases habove with h | h
      · rw [← h]
        exact hderives
      · exact h.trans hderives
    · exact ⟨m, ⟨hm, fun m' hm' hderives => htop ⟨m', hm', hderives⟩⟩, Or.inl rfl⟩

omit [DecidableEq ι] in
theorem top_of_unique {cls src : ι} (h : ∀ m, p.MostDerived cls name canonical m ↔ m = src) :
    p.Offers cls name canonical src ∧
      ∀ m, p.Offers cls name canonical m → m = src ∨ p.Derives src m := by
  refine ⟨((h src).mpr rfl).offers, fun m hm => ?_⟩
  obtain ⟨top, htop, habove⟩ := exists_mostDerived _ m (Nat.le_refl _) hm
  rwa [(h top).mp htop] at habove

end ClassTable

end Leviathan.Sema
