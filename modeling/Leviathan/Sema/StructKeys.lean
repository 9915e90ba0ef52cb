import Leviathan.Sema.StructEquality

/-!
# When derived equality agrees with map keys

Keys are compared by an equivalence (`keyEquals_symm`, `keyEquals_trans`), which looks at a struct
field by field (`keyEquals_value`).  So a derived `(==)` is an equivalence that agrees with it as
soon as its fields are compared as keys are; and since all fields but one can be held equal, it has
to be so for each field (`Agrees.field`).
-/

namespace Leviathan.Sema

open List

/-- The field of an entry. -/
theorem Val.field_of_mem {ι F : Type} {cls : ι} {ref : Nat} {fields : List (Str × Val ι F)}
    (hnodup : (fields.map Prod.fst).Nodup) {e : Str × Val ι F} (he : e ∈ fields) :
    (Val.object cls ref fields).field e.1 = e.2 := by
  have hfind : fields.find? (fun f => f.1 = e.1) = some e := by
    cases hfind : fields.find? fun f => f.1 = e.1 with
    | none => exact absurd (by simp) (List.find?_eq_none.mp hfind e he)
    | some e' =>
      have hname : e'.1 = e.1 := by simpa using find?_some hfind
      exact congrArg some
        (inj_on_of_nodup_map hnodup (mem_of_find?_eq_some hfind) he hname)
  show ((fields.find? fun f => f.1 = e.1).map Prod.snd).getD .void = e.2
  rw [hfind]
  rfl

namespace EqModel

variable {σ ι F : Type} [DecidableEq ι] {p : EqModel σ ι F}

/-! ### The fields of a struct value -/

/-- The parts of a struct value. -/
theorem Value.cases {cls : ι} {v : Val ι F} (hv : p.Value cls v) :
    ∃ ref fields, v = .object cls ref fields ∧ p.classAt ref = cls := by
  obtain ⟨hkind, hmade⟩ := hv
  cases hmade with
  | plain h => exact absurd hkind (h cls)
  | reference at_ _ =>
    obtain rfl := Kind.object.inj hkind
    exact ⟨_, _, rfl, at_⟩
  | value at_ _ _ _ _ _ =>
    obtain rfl := Kind.object.inj hkind
    exact ⟨_, _, rfl, at_⟩

/-- What the field of a struct value holds. -/
theorem Value.field {cls : ι} (hcls : p.isValue cls = true) {v : Val ι F} (hv : p.Value cls v)
    {f : Str × TypeRef ι} (hf : f ∈ p.dataFields cls) : p.FieldValue cls f (v.field f.1) := by
  obtain ⟨hkind, hmade⟩ := hv
  cases hmade with
  | plain h => exact absurd hkind (h cls)
  | reference _ h =>
    obtain rfl := Kind.object.inj hkind
    rw [h] at hcls
    cases hcls
  | @value cls' ref fields at_ _ names nodup kinds made =>
    obtain rfl := Kind.object.inj hkind
    have hmem : f.1 ∈ fields.map Prod.fst := by
      rw [names]
      exact mem_map_of_mem hf
    obtain ⟨e, he, hname⟩ := List.mem_map.mp hmem
    refine ⟨?_, kinds f hf⟩
    rw [← hname, Val.field_of_mem nodup he]
    exact made e he

/-- The fields of a struct have names of their own, if it has a value. -/
theorem Value.nodup {cls : ι} (hcls : p.isValue cls = true) {v : Val ι F} (hv : p.Value cls v) :
    ((p.dataFields cls).map Prod.fst).Nodup := by
  obtain ⟨hkind, hmade⟩ := hv
  cases hmade with
  | plain h => exact absurd hkind (h cls)
  | reference _ h =>
    obtain rfl := Kind.object.inj hkind
    rw [h] at hcls
    cases hcls
  | value _ _ names nodup _ _ =>
    obtain rfl := Kind.object.inj hkind
    rw [← names]
    exact nodup

/-- A struct value with another value in one field. -/
def setField (p : EqModel σ ι F) (cls : ι) (v : Val ι F) (name : Str) (x : Val ι F) : Val ι F :=
  match v with
  | .object _ ref _ => .object cls ref
      ((p.dataFields cls).map fun f => (f.1, if f.1 = name then x else v.field f.1))
  | v => v

theorem Value.with_field {cls : ι} (hcls : p.isValue cls = true) {v : Val ι F} (hv : p.Value cls v)
    {f : Str × TypeRef ι} (hf : f ∈ p.dataFields cls) {x : Val ι F} (hx : p.FieldValue cls f x) :
    p.Value cls (setField p cls v f.1 x) ∧ ∀ g ∈ p.dataFields cls,
      (setField p cls v f.1 x).field g.1 = if g.1 = f.1 then x else v.field g.1 := by
  have hnodup := hv.nodup hcls
  obtain ⟨ref, fields, rfl, hat⟩ := hv.cases
  have hnames : (((p.dataFields cls).map fun g => (g.1, if g.1 = f.1 then x else
      (Val.object cls ref fields).field g.1)).map Prod.fst) = (p.dataFields cls).map Prod.fst := by
    rw [map_map]
    rfl
  have hfield : ∀ g ∈ p.dataFields cls, (setField p cls (.object cls ref fields) f.1 x).field g.1 =
      if g.1 = f.1 then x else (Val.object cls ref fields).field g.1 := by
    intro g hg
    exact Val.field_of_mem (by rw [hnames]; exact hnodup) (mem_map_of_mem hg)
  refine ⟨⟨rfl, .value hat hcls hnames (by rw [hnames]; exact hnodup) ?_ ?_⟩, hfield⟩
  · intro g hg
    have hg' := hfield g hg
    rw [setField] at hg'
    rw [hg']
    by_cases hname : g.1 = f.1
    · obtain rfl := inj_on_of_nodup_map hnodup hg hf hname
      rw [if_pos rfl]
      exact hx.2
    · rw [if_neg hname]
      exact (hv.field hcls hg).2
  · intro e he
    obtain ⟨g, hg, rfl⟩ := List.mem_map.mp he
    by_cases hname : g.1 = f.1
    · rw [if_pos hname]
      exact hx.1
    · rw [if_neg hname]
      exact (hv.field hcls hg).1

/-! ### Map keys -/

/-- Objects are compared by identity, unless they are of one struct. -/
theorem keyEquals_object {c d : ι} {ref ref' : Nat} {fields fields' : List (Str × Val ι F)}
    (h : ¬(c = d ∧ p.isValue c = true)) :
    p.keyEquals (.object c ref fields) (.object d ref' fields') = decide (ref = ref') := by
  rw [keyEquals, if_neg h]

/-- Structs are compared field by field. -/
theorem keyEquals_value {cls : ι} (hcls : p.isValue cls = true) {v w : Val ι F}
    (hv : p.Value cls v) (hw : p.Value cls w) :
    p.keyEquals v w = true ↔
      ∀ f ∈ p.dataFields cls, p.keyEquals (v.field f.1) (w.field f.1) = true := by
  have hfind : ∀ {ref : Nat} {fields : List (Str × Val ι F)}, (fields.map Prod.fst).Nodup →
      ∀ e ∈ fields, fields.find? (fun f => f.1 = e.1) = some e := by
    intro ref fields hnodup e he
    cases hfind : fields.find? fun f => f.1 = e.1 with
    | none => exact absurd (by simp) (List.find?_eq_none.mp hfind e he)
    | some e' =>
      have hname : e'.1 = e.1 := by simpa using find?_some hfind
      exact congrArg some
        (inj_on_of_nodup_map hnodup (mem_of_find?_eq_some hfind) he hname)
  obtain ⟨hkind, hmade⟩ := hv
  obtain ⟨hkind', hmade'⟩ := hw
  cases hmade with
  | plain h => exact absurd hkind (h cls)
  | reference _ h =>
    obtain rfl := Kind.object.inj hkind
    rw [h] at hcls
    cases hcls
  | @value c ref fields _ _ names nodup _ _ =>
    obtain rfl := Kind.object.inj hkind
    cases hmade' with
    | plain h => exact absurd hkind' (h c)
    | reference _ h =>
      obtain rfl := Kind.object.inj hkind'
      rw [h] at hcls
      cases hcls
    | @value d ref' fields' _ _ names' nodup' _ _ =>
      obtain rfl := Kind.object.inj hkind'
      have hlength : fields.length = fields'.length := by
        rw [← length_map, names, ← names', length_map]
      rw [keyEquals, if_pos ⟨rfl, hcls⟩]
      simp only [hlength, decide_true, Bool.true_and, all_eq_true, mem_attach,
        true_implies, Subtype.forall]
      constructor
      · intro h f hf
        have hmem : f.1 ∈ fields.map Prod.fst := by
          rw [names]
          exact mem_map_of_mem hf
        have hmem' : f.1 ∈ fields'.map Prod.fst := by
          rw [names']
          exact mem_map_of_mem hf
        obtain ⟨e, he, hname⟩ := List.mem_map.mp hmem
        obtain ⟨e', he', hname'⟩ := List.mem_map.mp hmem'
        have hkey := h e he
        rw [hname, ← hname', @hfind ref' _ nodup' e' he'] at hkey
        rw [← hname, Val.field_of_mem nodup he, hname, ← hname', Val.field_of_mem nodup' he']
        exact hkey
      · intro h e he
        have hmem : e.1 ∈ (p.dataFields d).map Prod.fst := by
          rw [← names]
          exact mem_map_of_mem he
        obtain ⟨f, hf, hname⟩ := List.mem_map.mp hmem
        have hmem' : f.1 ∈ fields'.map Prod.fst := by
          rw [names']
          exact mem_map_of_mem hf
        obtain ⟨e', he', hname'⟩ := List.mem_map.mp hmem'
        have hkey := h f hf
        rw [hname, Val.field_of_mem nodup he, ← hname, ← hname',
          Val.field_of_mem nodup' he'] at hkey
        rw [← hname, ← hname', @hfind ref' _ nodup' e' he']
        exact hkey

/-- A key that is no struct. -/
inductive LeafKey where
  | none
  | int (i : Int)
  | char (i : Int)
  | string (s : Str)
  | bool (b : Bool)
  | float (pattern : Nat)
  | block (ref : Nat)
  | ast
  | object (ref : Nat)

/-- The key of a value that is no struct; arrays, maps and closures have none. -/
def leafKey (p : EqModel σ ι F) : Val ι F → Option LeafKey
  | .none => some .none
  | .int i => some (.int i)
  | .char i => some (.char i)
  | .string s => some (.string s)
  | .bool b => some (.bool b)
  | .float x => some (.float (p.float.canon x))
  | .block r => some (.block r)
  | .ast => some .ast
  | .object cls ref _ => if p.isValue cls = true then none else some (.object ref)
  | _ => none

/-- What makes two values equal keys: the fields of one struct, or the same key. -/
theorem keyEquals_iff {v w : Val ι F} (hv : p.Made v) (hw : p.Made w) :
    p.keyEquals v w = true ↔
      (∃ cls, p.isValue cls = true ∧ p.Value cls v ∧ p.Value cls w ∧
        ∀ f ∈ p.dataFields cls, p.keyEquals (v.field f.1) (w.field f.1) = true) ∨
      ∃ k, p.leafKey v = some k ∧ p.leafKey w = some k := by
  have hplain : (∀ cls, v.kind ≠ .object cls) ∨ (∀ cls, w.kind ≠ .object cls) →
      (p.keyEquals v w = true ↔ ∃ k, p.leafKey v = some k ∧ p.leafKey w = some k) := by
    intro h
    cases v <;> cases w <;> simp_all [keyEquals, leafKey, Val.kind]
    all_goals exact eq_comm
  by_cases hobjects : (∀ cls, v.kind ≠ .object cls) ∨ (∀ cls, w.kind ≠ .object cls)
  · rw [hplain hobjects]
    constructor
    · exact .inr
    · rintro (⟨cls, -, hv', hw', -⟩ | h)
      · exact (hobjects.elim (fun h => h cls hv'.1) fun h => h cls hw'.1).elim
      · exact h
  · obtain ⟨hnv, hnw⟩ := not_or.mp hobjects
    obtain ⟨c, hc⟩ := not_forall_not.mp hnv
    obtain ⟨d, hd⟩ := not_forall_not.mp hnw
    have hvalue : p.Value c v := ⟨hc, hv⟩
    have hvalue' : p.Value d w := ⟨hd, hw⟩
    obtain ⟨ref, fields, rfl, hat⟩ := hvalue.cases
    obtain ⟨ref', fields', rfl, hat'⟩ := hvalue'.cases
    by_cases hsame : c = d ∧ p.isValue c = true
    · obtain ⟨rfl, hstruct⟩ := hsame
      rw [keyEquals_value hstruct hvalue hvalue']
      constructor
      · exact fun h => .inl ⟨c, hstruct, hvalue, hvalue', h⟩
      · rintro (⟨cls, -, ⟨hkind, -⟩, -, h⟩ | ⟨k, hk, -⟩)
        · obtain rfl := Kind.object.inj hkind
          exact h
        · rw [leafKey, if_pos hstruct] at hk
          cases hk
    · rw [keyEquals_object hsame, decide_eq_true_eq]
      constructor
      · rintro rfl
        obtain rfl := hat.symm.trans hat'
        have hstruct : ¬p.isValue c = true := fun h => hsame ⟨rfl, h⟩
        exact .inr ⟨.object ref, by rw [leafKey, if_neg hstruct], by rw [leafKey, if_neg hstruct]⟩
      · rintro (⟨cls, hstruct, ⟨hkind, -⟩, ⟨hkind', -⟩, -⟩ | ⟨k, hk, hk'⟩)
        · obtain rfl := Kind.object.inj hkind
          obtain rfl := Kind.object.inj hkind'
          exact absurd ⟨rfl, hstruct⟩ hsame
        · rw [leafKey] at hk hk'
          split_ifs at hk hk'
          obtain rfl := Option.some.inj hk
          exact (LeafKey.object.inj (Option.some.inj hk')).symm

/-- The field of a value is smaller. -/
theorem Value.sizeOf_field {cls : ι} {v : Val ι F} (hv : p.Value cls v) (name : Str) :
    sizeOf (v.field name) < sizeOf v := by
  obtain ⟨ref, fields, rfl, -⟩ := hv.cases
  exact Val.sizeOf_field cls ref fields name

theorem keyEquals_symm {v w : Val ι F} (hv : p.Made v) (hw : p.Made w)
    (h : p.keyEquals v w = true) : p.keyEquals w v = true := by
  induction hn : sizeOf v using Nat.strong_induction_on generalizing v w with
  | _ n ih =>
    rw [keyEquals_iff hw hv]
    rcases (keyEquals_iff hv hw).mp h with ⟨cls, hcls, hv', hw', hall⟩ | ⟨k, hk, hk'⟩
    · refine .inl ⟨cls, hcls, hw', hv', fun f hf => ?_⟩
      have hlt := hv'.sizeOf_field f.1
      rw [hn] at hlt
      exact ih _ hlt (hv'.field hcls hf).1 (hw'.field hcls hf).1 (hall f hf) rfl
    · exact .inr ⟨k, hk', hk⟩

theorem keyEquals_trans {u v w : Val ι F} (hu : p.Made u) (hv : p.Made v) (hw : p.Made w)
    (h : p.keyEquals u v = true) (h' : p.keyEquals v w = true) : p.keyEquals u w = true := by
  induction hn : sizeOf u using Nat.strong_induction_on generalizing u v w with
  | _ n ih =>
    rw [keyEquals_iff hu hw]
    rcases (keyEquals_iff hu hv).mp h with ⟨cls, hcls, hu', hv', hall⟩ | ⟨k, hk, hk'⟩
    · rcases (keyEquals_iff hv hw).mp h' with ⟨cls', hcls', hv'', hw', hall'⟩ | ⟨k, hk, -⟩
      · obtain rfl := Kind.object.inj (hv'.1.symm.trans hv''.1)
        refine .inl ⟨cls, hcls, hu', hw', fun f hf => ?_⟩
        have hlt := hu'.sizeOf_field f.1
        rw [hn] at hlt
        exact ih _ hlt (hu'.field hcls hf).1 (hv'.field hcls hf).1 (hw'.field hcls hf).1
          (hall f hf) (hall' f hf) rfl
      · obtain ⟨ref, fields, rfl, -⟩ := hv'.cases
        rw [leafKey, if_pos hcls] at hk
        cases hk
    · rcases (keyEquals_iff hv hw).mp h' with ⟨cls, hcls, hv', -, -⟩ | ⟨k', hk₁, hk₂⟩
      · obtain ⟨ref, fields, rfl, -⟩ := hv'.cases
        rw [leafKey, if_pos hcls] at hk'
        cases hk'
      · obtain rfl := Option.some.inj (hk'.symm.trans hk₁)
        exact .inr ⟨k, hk, hk₂⟩

/-! ### `==` on a field -/

/-- A left operand that is no object. -/
theorem combineEq_scalar {t : TypeRef ι} {l r : Val ι F} (h : ∀ cls, l.kind ≠ .object cls) :
    p.combineEq t l r = arithEq p.float l r := by
  unfold combineEq
  split
  · rfl
  · cases l with
    | object cls ref fields => exact absurd rfl (h cls)
    | _ => rfl

/-- Two objects. -/
theorem combineEq_object {t : TypeRef ι} {c d : ι} {ref ref' : Nat}
    {fields fields' : List (Str × Val ι F)} :
    p.combineEq t (.object c ref fields) (.object d ref' fields') =
      if p.className c = "Range".toList then true
      else
        match p.equality t c with
        | some eq => eq (.object c ref fields) (.object d ref' fields')
        | none =>
          if p.derives c = true then
            p.derivedEq c (.object c ref fields) (.object d ref' fields')
          else if p.isValue c = true then false else decide (ref = ref') := by
  unfold combineEq
  rw [if_neg (by simp [Val.kind])]
  dsimp only
  split
  · rfl
  · cases p.equality t c <;> rfl

theorem derivedEq_iff {cls : ι} {v w : Val ι F} : p.derivedEq cls v w = true ↔
    ∀ f ∈ p.dataFields cls, p.fieldEq cls f (v.field f.1) (w.field f.1) = true :=
  all_eq_true

theorem isValue_of_derives {cls : ι} (h : p.derives cls = true) : p.isValue cls = true := by
  simp only [derives, Bool.and_eq_true] at h
  exact h.1.1.1.1.2

/-! ### Agreement -/

/-- On the values of a struct the derived `(==)` agrees with keys. -/
structure Agrees (p : EqModel σ ι F) (cls : ι) : Prop where
  keys : ∀ v w, p.Value cls v → p.Value cls w →
    (p.derivedEq cls v w = true ↔ p.keyEquals v w = true)
  refl : ∀ v, p.Value cls v → p.derivedEq cls v v = true

theorem keyLike_iff_agrees {cls : ι} : p.KeyLike cls ↔ p.Agrees cls := by
  constructor
  · exact fun h => ⟨h.keys, h.refl⟩
  · intro h
    refine ⟨h.refl, fun v w hv hw hvw => ?_, fun u v w hu hv hw huv hvw => ?_, h.keys⟩
    · exact (h.keys w v hw hv).mpr (keyEquals_symm hv.2 hw.2 ((h.keys v w hv hw).mp hvw))
    · exact (h.keys u w hu hw).mpr (keyEquals_trans hu.2 hv.2 hw.2 ((h.keys u v hu hv).mp huv)
        ((h.keys v w hv hw).mp hvw))

/-- On what a field may hold, its part of the derived `(==)` agrees with keys. -/
structure FieldAgrees (p : EqModel σ ι F) (cls : ι) (f : Str × TypeRef ι) (x y : Val ι F) :
    Prop where
  keys : p.fieldEq cls f x y = true ↔ p.keyEquals x y = true
  refl : p.fieldEq cls f x x = true

/-- With all other fields held equal, the relation is the one of a single field. -/
theorem Agrees.field {cls : ι} (h : p.Agrees cls) (hcls : p.isValue cls = true) {v : Val ι F}
    (hv : p.Value cls v) {f : Str × TypeRef ι} (hf : f ∈ p.dataFields cls) {x y : Val ι F}
    (hx : p.FieldValue cls f x) (hy : p.FieldValue cls f y) : p.FieldAgrees cls f x y := by
  have hnodup := hv.nodup hcls
  have hself := derivedEq_iff.mp (h.refl v hv)
  have hkeys := (keyEquals_value hcls hv hv).mp ((h.keys v v hv hv).mp (h.refl v hv))
  have hone : ∀ {x y : Val ι F}, p.FieldValue cls f x → p.FieldValue cls f y →
      (p.fieldEq cls f x y = true ↔ p.keyEquals x y = true) ∧ p.fieldEq cls f x x = true := by
    intro x y hx hy
    obtain ⟨hvx, hfx⟩ := hv.with_field hcls hf hx
    obtain ⟨hvy, hfy⟩ := hv.with_field hcls hf hy
    have hfield : ∀ g ∈ p.dataFields cls, g.1 = f.1 → g = f := fun g hg hname =>
      inj_on_of_nodup_map hnodup hg hf hname
    have hat : ∀ {x : Val ι F}, (p.setField cls v f.1 x).field f.1 =
        (if f.1 = f.1 then x else v.field f.1) → (p.setField cls v f.1 x).field f.1 = x := by
      intro x hx
      rwa [if_pos rfl] at hx
    have hatx := hat (hfx f hf)
    have haty := hat (hfy f hf)
    constructor
    · constructor
      · intro heq
        have hall : p.derivedEq cls (p.setField cls v f.1 x) (p.setField cls v f.1 y) = true := by
          refine derivedEq_iff.mpr fun g hg => ?_
          rw [hfx g hg, hfy g hg]
          by_cases hname : g.1 = f.1
          · obtain rfl := hfield g hg hname
            rwa [if_pos rfl, if_pos rfl]
          · rw [if_neg hname, if_neg hname]
            exact hself g hg
        have hkey := (keyEquals_value hcls hvx hvy).mp ((h.keys _ _ hvx hvy).mp hall) f hf
        rwa [hatx, haty] at hkey
      · intro hkey
        have hall : p.keyEquals (p.setField cls v f.1 x) (p.setField cls v f.1 y) = true := by
          refine (keyEquals_value hcls hvx hvy).mpr fun g hg => ?_
          rw [hfx g hg, hfy g hg]
          by_cases hname : g.1 = f.1
          · rwa [if_pos hname, if_pos hname]
          · rw [if_neg hname, if_neg hname]
            exact hkeys g hg
        have heq := derivedEq_iff.mp ((h.keys _ _ hvx hvy).mpr hall) f hf
        rwa [hatx, haty] at heq
    · have heq := derivedEq_iff.mp (h.refl _ hvx) f hf
      rwa [hatx] at heq
  exact ⟨(hone hx hy).1, (hone hx hy).2⟩

end EqModel

end Leviathan.Sema
