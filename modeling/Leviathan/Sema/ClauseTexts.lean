import Leviathan.Sema.BaseClause

/-!
# Slots along base clauses

The three texts of a slot are replaced word by word at every base clause it is taken over by.  As
long as no base clause confuses words (`Untangled`), what a class is left with are the texts of the
member with all parameters of its own class replaced at once by the arguments composed along the
way (`carried_eq`).
-/

namespace Leviathan.Sema

open TextPart List

variable {n : Str}

namespace TypeRef

variable {ι : Type}

mutual

/-- The names without path and arguments in the type. -/
def bareNames : TypeRef ι → List Str
  | .inferred => []
  | .union members => bareNamesEach members
  | .function params ret => bareNamesEach params ++ bareNames ret
  | .named [] name [] _ => [name]
  | .named _ _ generics _ => bareNamesEach generics

def bareNamesEach : List (TypeRef ι) → List Str
  | [] => []
  | t :: ts => bareNames t ++ bareNamesEach ts

end

theorem mem_bareNamesEach {t : TypeRef ι} {ts : List (TypeRef ι)} (ht : t ∈ ts)
    (hn : n ∈ t.bareNames) : n ∈ bareNamesEach ts := by
  induction ts with
  | nil => cases ht
  | cons u ts ih =>
    rcases List.mem_cons.mp ht with h | h
    · rw [← h]
      exact mem_append_left _ hn
    · exact mem_append_right _ (ih h)

theorem bareNames_named {path : List Str} {name : Str} {generics : List (TypeRef ι)}
    {hygiene : Option ι} (h : ¬ (path = [] ∧ generics = [])) :
    (TypeRef.named path name generics hygiene).bareNames = bareNamesEach generics := by
  cases path with
  | nil =>
    cases generics with
    | nil => exact absurd ⟨rfl, rfl⟩ h
    | cons g gs => rfl
  | cons seg segs => rfl

variable {f : Str → Option (TypeRef ι)}

theorem fill_named {path : List Str} {name : Str} {generics : List (TypeRef ι)} {hygiene : Option ι}
    (h : ¬ (path = [] ∧ generics = [])) :
    (TypeRef.named path name generics hygiene).fill f =
      .named path name (generics.map (fill f)) hygiene := by
  rw [← fillEach_eq_map, fill]
  intro t hpath hgenerics
  exact absurd ⟨hpath, hgenerics⟩ h

theorem fill_congr {g : Str → Option (TypeRef ι)} {t : TypeRef ι}
    (h : ∀ n ∈ t.bareNames, f n = g n) : t.fill f = t.fill g := by
  have heach : ∀ ts : List (TypeRef ι),
      (∀ t ∈ ts, (∀ n ∈ t.bareNames, f n = g n) → t.fill f = t.fill g) →
      (∀ n ∈ bareNamesEach ts, f n = g n) → ts.map (fill f) = ts.map (fill g) := by
    intro ts hts hnames
    exact map_congr_left fun t ht =>
      hts t ht fun n hn => hnames n (mem_bareNamesEach ht hn)
  induction t using TypeRef.induction with
  | inferred => rfl
  | named path name generics hygiene ih =>
    by_cases hbare : path = [] ∧ generics = []
    · obtain ⟨rfl, rfl⟩ := hbare
      rw [fill_bare, fill_bare, h name (mem_singleton_self _)]
    · rw [bareNames_named hbare] at h
      rw [fill_named hbare, fill_named hbare, heach generics ih h]
  | union members ih =>
    rw [fill, fill, fillEach_eq_map, fillEach_eq_map, heach members ih h]
  | function params ret ihp ihr =>
    have hp : ∀ n ∈ bareNamesEach params, f n = g n := fun n hn => h n (mem_append_left _ hn)
    have hr : ∀ n ∈ ret.bareNames, f n = g n := fun n hn => h n (mem_append_right _ hn)
    rw [fill, fill, fillEach_eq_map, fillEach_eq_map, heach params ihp hp, ihr hr]

/-- What a name becomes if first `f` and then `g` replaces. -/
def andThen (f g : Str → Option (TypeRef ι)) (n : Str) : Option (TypeRef ι) :=
  match f n with
  | some a => some (a.fill g)
  | none => g n

/-- One filling after another. -/
theorem fill_fill (f g : Str → Option (TypeRef ι)) (t : TypeRef ι) :
    (t.fill f).fill g = t.fill (andThen f g) := by
  have heach : ∀ ts : List (TypeRef ι), (∀ t ∈ ts, (t.fill f).fill g = t.fill (andThen f g)) →
      (ts.map (fill f)).map (fill g) = ts.map (fill (andThen f g)) := by
    intro ts hts
    rw [map_map]
    exact map_congr_left hts
  induction t using TypeRef.induction with
  | inferred => rfl
  | named path name generics hygiene ih =>
    by_cases hbare : path = [] ∧ generics = []
    · obtain ⟨rfl, rfl⟩ := hbare
      rw [fill_bare, fill_bare, andThen]
      cases hf : f name with
      | some a => rfl
      | none => exact fill_bare g name hygiene
    · have hmap : ¬ (path = [] ∧ generics.map (fill f) = []) := by
        intro h
        exact hbare ⟨h.1, List.map_eq_nil_iff.mp h.2⟩
      rw [fill_named hbare, fill_named hmap, fill_named hbare, heach generics ih]
  | union members ih =>
    simp only [fill, fillEach_eq_map]
    rw [heach members ih]
  | function params ret ihp ihr =>
    simp only [fill, fillEach_eq_map]
    rw [heach params ihp, ihr]

theorem worded_fill (hf : ∀ n a, f n = some a → a.Worded) {t : TypeRef ι} (h : t.Worded) :
    (t.fill f).Worded := by
  have heach : ∀ ts : List (TypeRef ι), (∀ t ∈ ts, t.Worded → (t.fill f).Worded) →
      WordedEach ts → WordedEach (ts.map (fill f)) := by
    intro ts hts hworded
    rw [wordedEach_iff] at hworded ⊢
    intro t ht
    obtain ⟨u, hu, rfl⟩ := List.mem_map.mp ht
    exact hts u hu (hworded u hu)
  induction t using TypeRef.induction with
  | inferred => exact h
  | named path name generics hygiene ih =>
    by_cases hbare : path = [] ∧ generics = []
    · obtain ⟨rfl, rfl⟩ := hbare
      rw [fill_bare]
      cases hname : f name with
      | some a => exact hf name a hname
      | none => exact h
    · rw [fill_named hbare]
      exact ⟨h.1, h.2.1, heach generics ih h.2.2⟩
  | union members ih =>
    rw [fill, fillEach_eq_map]
    exact heach members ih h
  | function params ret ihp ihr =>
    rw [fill, fillEach_eq_map]
    exact ⟨heach params ihp h.1, ihr h.2⟩

/-- The type a name stands for. -/
def lookup : List (Str × TypeRef ι) → Str → Option (TypeRef ι)
  | [], _ => none
  | entry :: table, n => if n = entry.1 then some entry.2 else lookup table n

theorem lookup_mem {table : List (Str × TypeRef ι)} {a : TypeRef ι} (h : lookup table n = some a) :
    (n, a) ∈ table := by
  induction table with
  | nil => cases h
  | cons entry table ih =>
    rw [lookup] at h
    by_cases hn : n = entry.1
    · rw [if_pos hn] at h
      rw [hn, ← Option.some.inj h]
      exact mem_cons_self ..
    · rw [if_neg hn] at h
      exact mem_cons_of_mem entry (ih h)

theorem lookup_map (φ : TypeRef ι → TypeRef ι) (table : List (Str × TypeRef ι)) (n : Str) :
    lookup (table.map fun entry => (entry.1, φ entry.2)) n = (lookup table n).map φ := by
  induction table with
  | nil => rfl
  | cons entry table ih =>
    rw [map_cons, lookup, lookup, ih]
    split <;> rfl

/-- The texts of a table, as words and marks. -/
def tableTextParts (table : List (Str × TypeRef ι)) : List (Str × List TextPart) :=
  table.map fun entry => (entry.1, entry.2.textParts)

theorem among_tableTextParts (table : List (Str × TypeRef ι)) :
    among (tableTextParts table) = fun w => (lookup table w).map textParts := by
  funext w
  induction table with
  | nil => rfl
  | cons entry table ih =>
    show (if w = entry.1 then _ else among (tableTextParts table) w) = _
    rw [ih, lookup]
    split <;> rfl

end TypeRef

/-! ### The texts of a member -/

/-- The texts of a slot. -/
structure SlotTexts where
  paramsCanon : Str
  retCanon : Str
  canonical : Str
deriving DecidableEq

namespace SlotTexts

/-- `substituteSlotGenerics` on the texts. -/
def substitute (subst : List (Str × Str)) (t : SlotTexts) : SlotTexts :=
  let all := subst.foldl fun text entry => substituteGenericToken text entry.1 entry.2
  ⟨all t.paramsCanon, all t.retCanon, all t.canonical⟩

end SlotTexts

namespace Member

variable {ι : Type}

/-- The texts `slotOf` gives a member. -/
def texts (m : Member ι) : SlotTexts :=
  if m.callable then
    let params := "(".toList ++ List.intercalate ", ".toList
      (m.params.map fun p => (p.map TypeRef.canonical).getD "?".toList) ++ ")".toList
    let ret := (m.type.map TypeRef.canonical).getD "void".toList
    ⟨params, ret, params ++ " -> ".toList ++ ret⟩
  else ⟨[], [], (m.type.map TypeRef.canonical).getD "?".toList⟩

/-- The texts are those of the slot. -/
theorem slotOf_canonical (m : Member ι) (source : ι) : (slotOf m source).canonical =
    if m.callable then .method m.texts.canonical else .field m.texts.canonical := by
  unfold slotOf texts
  split <;> rfl

/-- The member with names replaced in its types. -/
def fill (f : Str → Option (TypeRef ι)) (m : Member ι) : Member ι :=
  { m with params := m.params.map (Option.map (TypeRef.fill f)), type := m.type.map (TypeRef.fill f) }

/-- The types of the member. -/
def types (m : Member ι) : List (TypeRef ι) := m.params.filterMap id ++ m.type.toList

theorem mem_types_of_params {m : Member ι} {t : TypeRef ι} (h : some t ∈ m.params) : t ∈ m.types :=
  mem_append_left _ (List.mem_filterMap.mpr ⟨some t, h, rfl⟩)

theorem mem_types_of_type {m : Member ι} {t : TypeRef ι} (h : m.type = some t) : t ∈ m.types :=
  mem_append_right _ (by rw [h]; exact mem_singleton_self t)

theorem mem_types_fill {f : Str → Option (TypeRef ι)} {m : Member ι} {t : TypeRef ι}
    (h : t ∈ (m.fill f).types) : ∃ u ∈ m.types, t = u.fill f := by
  rcases List.mem_append.mp h with h | h
  · obtain ⟨p, hp, rfl⟩ := List.mem_filterMap.mp h
    obtain ⟨q, hq, hqt⟩ := List.mem_map.mp hp
    obtain ⟨u, rfl, rfl⟩ := Option.map_eq_some_iff.mp hqt
    exact ⟨u, mem_types_of_params hq, rfl⟩
  · obtain ⟨u, hu, rfl⟩ := Option.map_eq_some_iff.mp (Option.mem_toList.mp h)
    exact ⟨u, mem_types_of_type hu, rfl⟩

/-- The names in the types of the member are words. -/
def Worded (m : Member ι) : Prop := ∀ t ∈ m.types, t.Worded

/-- The words that `f` replaces are bare names in the types of the member. -/
structure Bare (f : Str → Option (TypeRef ι)) (m : Member ι) : Prop where
  types : ∀ t ∈ m.types, t.Bare f
  void : f "void".toList = none

def paramsTextParts (m : Member ι) : List TextPart :=
  if m.callable then
    [mark '('] ++ List.intercalate [mark ',', mark ' ']
      (m.params.map fun p => (p.map TypeRef.textParts).getD [mark '?']) ++ [mark ')']
  else []

def retTextParts (m : Member ι) : List TextPart :=
  if m.callable then (m.type.map TypeRef.textParts).getD [word "void".toList] else []

def slotTextParts (m : Member ι) : List TextPart :=
  if m.callable then
    m.paramsTextParts ++ [mark ' ', mark '-', mark '>', mark ' '] ++ m.retTextParts
  else (m.type.map TypeRef.textParts).getD [mark '?']

theorem texts_eq (m : Member ι) :
    m.texts = ⟨spell m.paramsTextParts, spell m.retTextParts, spell m.slotTextParts⟩ := by
  have hparam : ∀ p : Option (TypeRef ι),
      spell ((p.map TypeRef.textParts).getD [mark '?']) = (p.map TypeRef.canonical).getD "?".toList := by
    intro p
    cases p with
    | none => rfl
    | some t => exact t.spell_textParts
  have hret : ∀ p : Option (TypeRef ι), spell ((p.map TypeRef.textParts).getD [word "void".toList]) =
      (p.map TypeRef.canonical).getD "void".toList := by
    intro p
    cases p with
    | none => rfl
    | some t => exact t.spell_textParts
  unfold texts slotTextParts paramsTextParts retTextParts
  by_cases hm : m.callable = true
  · simp only [if_pos hm, spell_append, spell_intercalate, map_map, hret]
    have hparams : (m.params.map (spell ∘ fun p => (p.map TypeRef.textParts).getD [mark '?'])) =
        m.params.map fun p => (p.map TypeRef.canonical).getD "?".toList :=
      map_congr_left fun p _ => hparam p
    rw [hparams]
    rfl
  · simp only [if_neg hm, hparam]
    rfl

theorem void_isWord : IsWord isIdentChar "void".toList := by
  have hword : ∀ c ∈ ['v', 'o', 'i', 'd'], isIdentChar c = true := by
    intro c hc
    simp only [mem_cons, not_mem_nil, or_false] at hc
    rcases hc with rfl | rfl | rfl | rfl <;> rfl
  exact ⟨by simp, hword⟩

section
variable {m : Member ι} (h : m.Worded)
include h

theorem apart_paramsTextParts : Apart isIdentChar m.paramsTextParts := by
  unfold paramsTextParts
  split
  · have hparams : Apart isIdentChar (List.intercalate [mark ',', mark ' ']
        (m.params.map fun p => (p.map TypeRef.textParts).getD [mark '?'])) := by
      refine TypeRef.apart_comma fun ls hls => ?_
      obtain ⟨p, hp, rfl⟩ := List.mem_map.mp hls
      cases p with
      | none => exact ⟨rfl, trivial⟩
      | some t => exact TypeRef.apart_textParts (h t (mem_types_of_params hp))
    have hopened : Apart isIdentChar (mark '(' :: _) := ⟨rfl, hparams⟩
    exact hopened.append ⟨rfl, trivial⟩ rfl
  · trivial

theorem apart_retTextParts : Apart isIdentChar m.retTextParts := by
  unfold retTextParts
  split
  · cases ht : m.type with
    | none => exact ⟨void_isWord, rfl, trivial⟩
    | some t => exact TypeRef.apart_textParts (h t (mem_types_of_type ht))
  · trivial

theorem apart_slotTextParts : Apart isIdentChar m.slotTextParts := by
  unfold slotTextParts
  split
  · rw [append_assoc]
    exact (apart_paramsTextParts h).append ⟨rfl, rfl, rfl, rfl, apart_retTextParts h⟩ rfl
  · cases ht : m.type with
    | none => exact ⟨rfl, trivial⟩
    | some t => exact TypeRef.apart_textParts (h t (mem_types_of_type ht))

end

section
variable {f : Str → Option (TypeRef ι)} {m : Member ι} (h : m.Bare f)
include h

theorem paramsTextParts_fill : (m.fill f).paramsTextParts =
    substitute (fun w => (f w).map TypeRef.textParts) m.paramsTextParts := by
  unfold paramsTextParts
  by_cases hm : m.callable = true
  · have hfill : (m.fill f).callable = true := hm
    rw [if_pos hm, if_pos hfill, substitute_append, substitute_append,
      intercalate_of_append (φ := substitute fun w => (f w).map TypeRef.textParts) rfl
        substitute_append]
    have hparams : ((m.fill f).params.map fun p => (p.map TypeRef.textParts).getD [mark '?']) =
        (m.params.map fun p => (p.map TypeRef.textParts).getD [mark '?']).map
          (substitute fun w => (f w).map TypeRef.textParts) := by
      show (m.params.map (Option.map (TypeRef.fill f))).map _ = _
      rw [map_map, map_map]
      refine map_congr_left fun p hp => ?_
      cases p with
      | none => rfl
      | some t => exact TypeRef.textParts_fill (h.types t (mem_types_of_params hp))
    rw [hparams]
    rfl
  · have hfill : ¬ (m.fill f).callable = true := hm
    rw [if_neg hm, if_neg hfill]
    rfl

theorem retTextParts_fill : (m.fill f).retTextParts =
    substitute (fun w => (f w).map TypeRef.textParts) m.retTextParts := by
  unfold retTextParts
  by_cases hm : m.callable = true
  · have hfill : (m.fill f).callable = true := hm
    rw [if_pos hm, if_pos hfill]
    show ((m.type.map (TypeRef.fill f)).map TypeRef.textParts).getD [word "void".toList] = _
    cases ht : m.type with
    | none =>
      show [word "void".toList] = substitute _ [word "void".toList]
      rw [substitute_word, h.void]
      rfl
    | some t => exact TypeRef.textParts_fill (h.types t (mem_types_of_type ht))
  · have hfill : ¬ (m.fill f).callable = true := hm
    rw [if_neg hm, if_neg hfill]
    rfl

theorem slotTextParts_fill : (m.fill f).slotTextParts =
    substitute (fun w => (f w).map TypeRef.textParts) m.slotTextParts := by
  unfold slotTextParts
  by_cases hm : m.callable = true
  · have hfill : (m.fill f).callable = true := hm
    rw [if_pos hm, if_pos hfill, substitute_append, substitute_append, paramsTextParts_fill h,
      retTextParts_fill h]
    rfl
  · have hfill : ¬ (m.fill f).callable = true := hm
    rw [if_neg hm, if_neg hfill]
    show ((m.type.map (TypeRef.fill f)).map TypeRef.textParts).getD [mark '?'] = _
    cases ht : m.type with
    | none => rfl
    | some t => exact TypeRef.textParts_fill (h.types t (mem_types_of_type ht))

end

end Member

/-- The names of a table are words, and so are those in its types. -/
def WordedTable {ι : Type} (table : List (Str × TypeRef ι)) : Prop :=
  ∀ entry ∈ table, IsWord isIdentChar entry.1 ∧ entry.2.Worded

/-- **One base clause.**  The texts of a slot taken over are those of the member with all
parameters replaced at once, where no argument mentions a parameter that comes after its own, and
a parameter's word stands for nothing else in the types of the member. -/
theorem texts_substitute {ι : Type} {table : List (Str × TypeRef ι)} {m : Member ι}
    (htable : WordedTable table) (hlater : NoneLater (TypeRef.tableTextParts table))
    (hm : m.Worded) (hbare : m.Bare (TypeRef.lookup table)) :
    m.texts.substitute (table.map fun entry => (entry.1, entry.2.canonical)) =
      (m.fill (TypeRef.lookup table)).texts := by
  have hwords : ∀ entry ∈ TypeRef.tableTextParts table,
      IsWord isIdentChar entry.1 ∧ Apart isIdentChar entry.2 := by
    intro entry hentry
    obtain ⟨e, he, rfl⟩ := List.mem_map.mp hentry
    exact ⟨(htable e he).1, TypeRef.apart_textParts (htable e he).2⟩
  have hsubst : (table.map fun entry => (entry.1, entry.2.canonical)) =
      (TypeRef.tableTextParts table).map fun entry => (entry.1, spell entry.2) := by
    unfold TypeRef.tableTextParts
    rw [map_map]
    exact map_congr_left fun e _ => by rw [← e.2.spell_textParts]; rfl
  have hall : ∀ ls, Apart isIdentChar ls →
      (table.map fun entry => (entry.1, entry.2.canonical)).foldl
        (fun text entry => substituteGenericToken text entry.1 entry.2) (spell ls) =
      spell (substitute (fun w => (TypeRef.lookup table w).map TypeRef.textParts) ls) := by
    intro ls hls
    rw [hsubst, foldl_substituteGenericToken hwords hls, oneByOne_eq hlater,
      TypeRef.among_tableTextParts]
  rw [Member.texts_eq, Member.texts_eq, SlotTexts.substitute, Member.paramsTextParts_fill hbare,
    Member.retTextParts_fill hbare, Member.slotTextParts_fill hbare]
  dsimp only
  rw [hall _ (Member.apart_paramsTextParts hm), hall _ (Member.apart_retTextParts hm),
    hall _ (Member.apart_slotTextParts hm)]

/-! ### Along the base clauses -/

variable {params : List Str}

section
variable {ι : Type}

/-- The texts of a slot after several base clauses. -/
def carried (texts : SlotTexts) (tables : List (List (Str × TypeRef ι))) : SlotTexts :=
  tables.foldl (fun t table => t.substitute (table.map fun entry => (entry.1, entry.2.canonical)))
    texts

/-- Parameters that stand for themselves. -/
def themselves (params : List Str) : List (Str × TypeRef ι) :=
  params.map fun n => (n, .named [] n [] none)

/-- The arguments of parameters after several base clauses. -/
def composed (params : List Str) (tables : List (List (Str × TypeRef ι))) :
    List (Str × TypeRef ι) :=
  tables.foldl (fun args table =>
    args.map fun entry => (entry.1, entry.2.fill (TypeRef.lookup table))) (themselves params)

/-- The base clause with this table confuses no words of the member, as it comes from the clauses
before. -/
structure Untangled (params : List Str) (m : Member ι) (before : List (List (Str × TypeRef ι)))
    (table : List (Str × TypeRef ι)) : Prop where
  /-- No argument mentions a parameter that comes after its own. -/
  later : NoneLater (TypeRef.tableTextParts table)
  /-- The parameters' words are bare names in the types of the member. -/
  bare : (m.fill (TypeRef.lookup (composed params before))).Bare (TypeRef.lookup table)
  /-- They are the names of nothing else in them. -/
  own : ∀ t ∈ m.types, ∀ n ∈ t.bareNames, n ∉ params → TypeRef.lookup table n = none

theorem composed_snoc (params : List Str) (tables : List (List (Str × TypeRef ι)))
    (table : List (Str × TypeRef ι)) : composed params (tables ++ [table]) =
      (composed params tables).map fun entry => (entry.1, entry.2.fill (TypeRef.lookup table)) := by
  unfold composed
  rw [foldl_append]
  rfl

theorem lookup_composed_none (tables : List (List (Str × TypeRef ι)))
    (h : TypeRef.lookup (composed params tables) n = none) : n ∉ params := by
  induction tables using List.reverseRecOn with
  | nil =>
    intro hn
    have hsome : ∀ params : List Str, n ∈ params →
        TypeRef.lookup (themselves params : List (Str × TypeRef ι)) n ≠ none := by
      intro params
      induction params with
      | nil => exact fun h => absurd h not_mem_nil
      | cons q params ih =>
        intro hq
        show (if n = q then _ else TypeRef.lookup (themselves params) n) ≠ none
        by_cases heq : n = q
        · rw [if_pos heq]
          exact Option.some_ne_none _
        · rw [if_neg heq]
          exact ih (mem_of_ne_of_mem heq hq)
    exact hsome params hn h
  | append_singleton tables table ih =>
    rw [composed_snoc, TypeRef.lookup_map] at h
    exact ih (Option.map_eq_none_iff.mp h)

theorem worded_composed (hparams : ∀ n ∈ params, IsWord isIdentChar n)
    (tables : List (List (Str × TypeRef ι))) (htables : ∀ table ∈ tables, WordedTable table) :
    ∀ entry ∈ composed params tables, entry.2.Worded := by
  induction tables using List.reverseRecOn with
  | nil =>
    intro entry hentry
    obtain ⟨n, hn, rfl⟩ := List.mem_map.mp hentry
    exact ⟨fun _ h => absurd h not_mem_nil, hparams n hn, trivial⟩
  | append_singleton tables table ih =>
    intro entry hentry
    rw [composed_snoc] at hentry
    obtain ⟨e, he, rfl⟩ := List.mem_map.mp hentry
    refine TypeRef.worded_fill (fun n a hna => ?_)
      (ih (fun t ht => htables t (mem_append_left _ ht)) e he)
    exact (htables table (by simp) _ (TypeRef.lookup_mem hna)).2

variable {f : Str → Option (TypeRef ι)}

theorem canonical_fill_self (hf : ∀ n a, f n = some a → a.canonical = n) (t : TypeRef ι) :
    (t.fill f).canonical = t.canonical := by
  have heach : ∀ ts : List (TypeRef ι), (∀ t ∈ ts, (t.fill f).canonical = t.canonical) →
      (ts.map (TypeRef.fill f)).map TypeRef.canonical = ts.map TypeRef.canonical := by
    intro ts hts
    rw [map_map]
    exact map_congr_left hts
  induction t using TypeRef.induction with
  | inferred => rfl
  | named path name generics hygiene ih =>
    by_cases hbare : path = [] ∧ generics = []
    · obtain ⟨rfl, rfl⟩ := hbare
      rw [TypeRef.fill_bare]
      cases hname : f name with
      | some a =>
        rw [Option.getD_some, hf name a hname]
        simp [TypeRef.canonical, TypeRef.qualName]
      | none => rfl
    · have hempty : (generics.map (TypeRef.fill f)).isEmpty = generics.isEmpty := by
        cases generics <;> rfl
      rw [TypeRef.fill_named hbare, TypeRef.canonical, TypeRef.canonical,
        TypeRef.canonicals_eq_map, TypeRef.canonicals_eq_map, heach generics ih, hempty]
  | union members ih =>
    rw [TypeRef.fill, TypeRef.fillEach_eq_map, TypeRef.canonical, TypeRef.canonical,
      TypeRef.canonicals_eq_map, TypeRef.canonicals_eq_map, heach members ih]
  | function params ret ihp ihr =>
    rw [TypeRef.fill, TypeRef.fillEach_eq_map, TypeRef.canonical, TypeRef.canonical,
      TypeRef.canonicals_eq_map, TypeRef.canonicals_eq_map, heach params ihp, ihr]

theorem texts_fill_self (hf : ∀ n a, f n = some a → a.canonical = n) (m : Member ι) :
    (m.fill f).texts = m.texts := by
  have hopt : ∀ t : Option (TypeRef ι),
      (t.map (TypeRef.fill f)).map TypeRef.canonical = t.map TypeRef.canonical := by
    intro t
    cases t with
    | none => rfl
    | some t => exact congrArg some (canonical_fill_self hf t)
  unfold Member.texts Member.fill
  simp only [map_map, hopt, Function.comp_def]

theorem Member.fill_congr {g : Str → Option (TypeRef ι)} {m : Member ι}
    (h : ∀ t ∈ m.types, ∀ n ∈ t.bareNames, f n = g n) : m.fill f = m.fill g := by
  have htype : m.type.map (TypeRef.fill f) = m.type.map (TypeRef.fill g) := by
    cases ht : m.type with
    | none => rfl
    | some t => exact congrArg some (TypeRef.fill_congr (h t (Member.mem_types_of_type ht)))
  have hparams : m.params.map (Option.map (TypeRef.fill f)) =
      m.params.map (Option.map (TypeRef.fill g)) := by
    refine map_congr_left fun p hp => ?_
    cases p with
    | none => rfl
    | some t => exact congrArg some (TypeRef.fill_congr (h t (Member.mem_types_of_params hp)))
  unfold Member.fill
  rw [htype, hparams]

theorem Member.fill_fill (f g : Str → Option (TypeRef ι)) (m : Member ι) :
    (m.fill f).fill g = m.fill (TypeRef.andThen f g) := by
  have hopt : ∀ t : Option (TypeRef ι), (t.map (TypeRef.fill f)).map (TypeRef.fill g) =
      t.map (TypeRef.fill (TypeRef.andThen f g)) := by
    intro t
    cases t with
    | none => rfl
    | some t => exact congrArg some (TypeRef.fill_fill f g t)
  unfold Member.fill
  simp only [map_map, hopt, Function.comp_def]

/-- **Base clauses.**  After base clauses that confuse no words a slot has the texts of its member
with all parameters replaced at once by their composed arguments. -/
theorem carried_eq (hparams : ∀ n ∈ params, IsWord isIdentChar n) {m : Member ι} (hm : m.Worded)
    {tables : List (List (Str × TypeRef ι))} (htables : ∀ table ∈ tables, WordedTable table)
    (h : ∀ before table after, tables = before ++ table :: after → Untangled params m before table) :
    carried m.texts tables = (m.fill (TypeRef.lookup (composed params tables))).texts := by
  induction tables using List.reverseRecOn with
  | nil =>
    refine (texts_fill_self (fun n a hna => ?_) m).symm
    obtain ⟨q, -, hq⟩ := List.mem_map.mp (TypeRef.lookup_mem hna)
    cases hq
    simp [TypeRef.canonical, TypeRef.qualName]
  | append_singleton tables table ih =>
    have hbefore : ∀ t ∈ tables, WordedTable t := fun t ht =>
      htables t (mem_append_left _ ht)
    have hstep := h tables table [] rfl
    have hrec := ih hbefore fun before t after hsplit =>
      h before t (after ++ [table]) (by rw [hsplit]; simp)
    have hworded : (m.fill (TypeRef.lookup (composed params tables))).Worded := by
      intro t ht
      obtain ⟨u, hu, rfl⟩ := Member.mem_types_fill ht
      exact TypeRef.worded_fill
        (fun n a hna => worded_composed hparams tables hbefore _ (TypeRef.lookup_mem hna)) (hm u hu)
    have hcarried : carried m.texts (tables ++ [table]) = (carried m.texts tables).substitute
        (table.map fun entry => (entry.1, entry.2.canonical)) := by
      unfold carried
      rw [foldl_append]
      rfl
    rw [hcarried, hrec, texts_substitute (htables table (by simp)) hstep.later hworded hstep.bare,
      Member.fill_fill]
    congr 1
    refine Member.fill_congr fun t ht n hn => ?_
    rw [composed_snoc, TypeRef.lookup_map, TypeRef.andThen]
    cases hlook : TypeRef.lookup (composed params tables) n with
    | some a => rfl
    | none => exact hstep.own t ht n hn (lookup_composed_none tables hlook)

end

namespace ClassTable

variable {σ ι : Type} [DecidableEq ι] (p : ClassTable σ ι)

/-- The parameters of a base with the arguments of a base clause. -/
def clauseTable (base : ι) (generics : List (TypeRef ι)) : List (Str × TypeRef ι) :=
  match p.decl base with
  | some d => (d.generics.map p.symName).zip generics
  | none => []

/-- The names of the parameters of a class. -/
def paramNames (cls : ι) : List Str :=
  match p.decl cls with
  | some d => d.generics.map p.symName
  | none => []

/-- The base clauses on a way from a class down to one that takes its slots over. -/
inductive Handed (anc : ι) : ι → List (List (Str × TypeRef ι)) → Prop where
  | self : Handed anc anc []
  | step {cls base : ι} {generics : List (TypeRef ι)} {tables : List (List (Str × TypeRef ι))} :
      p.Clause cls base generics → p.TakesOver cls base → Handed anc base tables →
      Handed anc cls (tables ++ [p.clauseTable base generics])

variable {p}

omit [DecidableEq ι] in
theorem clauseSubst_eq (base : ι) (generics : List (TypeRef ι)) : p.clauseSubst base generics =
    (p.clauseTable base generics).map fun entry => (entry.1, entry.2.canonical) := by
  unfold clauseSubst clauseTable
  cases p.decl base with
  | none => rfl
  | some d =>
    dsimp only
    rw [zip_map_right]
    rfl

/-- The text of a slot with these texts. -/
def slotType (m : Member ι) (texts : SlotTexts) : SlotType :=
  if m.callable then .method texts.canonical else .field texts.canonical

omit [DecidableEq ι] in
theorem offered_of_handed {anc cls : ι} {tables : List (List (Str × TypeRef ι))}
    (h : p.Handed anc cls tables) {m : Member ι} (hm : m ∈ p.members anc)
    (hslot : (m.isCtor || m.isGet || m.isSet) = false) :
    ∃ s, p.Offered cls s ∧ s.name = m.name ∧ s.canonical = slotType m (carried m.texts tables) := by
  induction h with
  | self =>
    refine ⟨slotOf m anc, .own (List.mem_map.mpr ⟨m, List.mem_filter.mpr ⟨hm, ?_⟩, rfl⟩), rfl, ?_⟩
    · rw [hslot]
      rfl
    · exact m.slotOf_canonical anc
  | @step cls base generics tables hclause htakes _ ih =>
    obtain ⟨s, hs, hname, hcanonical⟩ := ih
    refine ⟨_, .base hclause htakes hs, hname, ?_⟩
    show substituteAll _ s.canonical = _
    rw [hcanonical, clauseSubst_eq]
    unfold slotType carried
    rw [foldl_append]
    split <;> rfl

end ClassTable

end Leviathan.Sema
