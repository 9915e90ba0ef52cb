import Leviathan.Sema.StructKeys

/-!
# Structs that are compared as keys

A field of the plain type `float` is compared as keys are.  Any other field is compared by `==`,
which is not key equality as soon as it meets a float, values of two kinds, or an object whose `(==)`
answers otherwise (`FieldFine`).  What a struct asks of its fields, the structs that are nested in it
ask of theirs (`Fine`).

Main result: `keyLike_iff`.
-/

namespace Leviathan.Sema

namespace EqModel

/-! ### Values of a kind -/

section Kinds

variable {ι F : Type}

/-- The kinds whose values `==` compares by their own content. -/
def scalarKinds : List (Kind ι) := [.int, .char, .string, .bool, .block, .ast]

/-- A value of a kind. -/
def zero : Kind ι → Val ι F
  | .int => .int 0
  | .char => .char 0
  | .string => .string []
  | .bool => .bool false
  | .block => .block 0
  | .ast => .ast
  | _ => .none

section
variable {k : Kind ι} (hk : k ∈ scalarKinds)
include hk

theorem kind_zero : (zero k : Val ι F).kind = k := by
  simp only [scalarKinds, List.mem_cons, List.not_mem_nil, or_false] at hk
  rcases hk with rfl | rfl | rfl | rfl | rfl | rfl <;> rfl

theorem scalar_not_object (cls : ι) : k ≠ .object cls := by
  rintro rfl
  simp [scalarKinds] at hk

/-- `==` does not tell the zeros of two kinds apart. -/
theorem arithEq_zero {fl : FloatOps F} {k' : Kind ι} (hk' : k' ∈ scalarKinds) :
    arithEq fl (zero k) (zero k') = true := by
  simp only [scalarKinds, List.mem_cons, List.not_mem_nil, or_false] at hk hk'
  rcases hk with rfl | rfl | rfl | rfl | rfl | rfl <;>
    rcases hk' with rfl | rfl | rfl | rfl | rfl | rfl <;> rfl

theorem arithEq_zero_object {fl : FloatOps F} {cls : ι} {ref : Nat}
    {fields : List (Str × Val ι F)} :
    arithEq fl (zero k) (.object cls ref fields) = true := by
  simp only [scalarKinds, List.mem_cons, List.not_mem_nil, or_false] at hk
  rcases hk with rfl | rfl | rfl | rfl | rfl | rfl <;> rfl

end

/-- What a field holds is `None`, a scalar or an object, if it holds nothing else. -/
theorem kind_cases {x : Val ι F} (h : x.kind ∉ [.float, .array, .map, .closure, .void]) :
    x.kind = .none ∨ x.kind ∈ scalarKinds ∨ ∃ c, x.kind = .object c := by
  cases x <;> simp_all [Val.kind, scalarKinds]

end Kinds

variable {σ ι F : Type} [DecidableEq ι] {p : EqModel σ ι F}

/-- Keys of two kinds are never equal. -/
theorem keyEquals_kind {x y : Val ι F} (hx : x.kind ∈ scalarKinds) (hne : x.kind ≠ y.kind) :
    p.keyEquals x y = false := by
  cases x <;> cases y <;> simp_all [keyEquals, Val.kind, scalarKinds]

/-- On one kind `==` compares as keys. -/
theorem arithEq_scalar {x y : Val ι F} (hx : x.kind ∈ scalarKinds) (hsame : x.kind = y.kind) :
    arithEq p.float x y = p.keyEquals x y := by
  cases x <;> cases y <;> simp_all [keyEquals, Val.kind, scalarKinds, arithEq, Val.i, Val.s]
  all_goals rfl

theorem arithEq_refl {x : Val ι F} (hx : x.kind ∈ scalarKinds) : arithEq p.float x x = true := by
  cases x <;> simp_all [Val.kind, scalarKinds, arithEq, Val.s]

/-- A value of a kind that a field has. -/
theorem FieldValue.of_kind {cls : ι} {f : Str × TypeRef ι} {x y : Val ι F}
    (hx : p.FieldValue cls f x) (hkind : y.kind = x.kind) (hplain : ∀ c, x.kind ≠ .object c) :
    p.FieldValue cls f y := by
  refine ⟨.plain fun c => ?_, ?_⟩
  · rw [hkind]
    exact hplain c
  · rw [hkind]
    exact hx.2

/-- Objects of two classes are not one. -/
theorem ref_ne {c d : ι} (hne : c ≠ d) {ref ref' : Nat} {fields fields' : List (Str × Val ι F)}
    (hx : p.Made (.object c ref fields)) (hy : p.Made (.object d ref' fields')) : ref ≠ ref' := by
  have hclass : ∀ {c ref fields}, p.Made (.object c ref fields) → p.classAt ref = c := by
    intro c ref fields h
    obtain ⟨_, _, heq, hat⟩ := Value.cases (p := p) (v := .object c ref fields) ⟨rfl, h⟩
    cases heq
    exact hat
  rintro rfl
  exact hne ((hclass hx).symm.trans (hclass hy))

/-! ### Fields that are compared as keys are fine -/

section Necessary

variable {cls : ι} {f : Str × TypeRef ι}
  (hplain : p.isFloat (p.classScope cls) f.2 = false)
  (h : ∀ x y, p.FieldValue cls f x → p.FieldValue cls f y → p.FieldAgrees cls f x y)
include hplain h

section
variable {x : Val ι F} (hx : p.FieldValue cls f x)
include hx

theorem field_keys {y : Val ι F} (hy : p.FieldValue cls f y) :
    p.combineEq f.2 x y = p.keyEquals x y := by
  have hkeys := (h x y hx hy).keys
  rw [fieldEq, hplain] at hkeys
  exact Bool.eq_iff_iff.mpr hkeys

theorem field_refl : p.combineEq f.2 x x = true := by
  have hrefl := (h x x hx hx).refl
  rwa [fieldEq, hplain] at hrefl

theorem field_scalar : x.kind ∉ [.float, .array, .map, .closure, .void] := by
  have hself := (field_keys hplain h hx hx).symm.trans (field_refl hplain h hx)
  intro hmem
  cases x with
  | float a =>
    have hnan : p.FieldValue cls f (.float p.nan) := hx.of_kind rfl fun c => by simp [Val.kind]
    have hrefl := field_refl hplain h hnan
    rw [combineEq_scalar fun c => by simp [Val.kind]] at hrefl
    exact absurd (p.nan_ne.symm.trans hrefl) Bool.false_ne_true
  | array => simp [keyEquals] at hself
  | map => simp [keyEquals] at hself
  | closure => simp [keyEquals] at hself
  | void => simp [keyEquals] at hself
  | _ => simp [Val.kind] at hmem

/-- A scalar beside a value of another kind: the zero of its kind would be equal to it. -/
theorem field_scalar_alone {y : Val ι F} (hy : p.FieldValue cls f y)
    (hscalar : x.kind ∈ scalarKinds) : x.kind = y.kind ∨ y.kind = .none := by
  by_contra hcon
  obtain ⟨hne, hnone⟩ := not_or.mp hcon
  have hzero : p.FieldValue cls f (zero x.kind) :=
    hx.of_kind (kind_zero hscalar) (scalar_not_object hscalar)
  have hleft : ∀ c, (zero x.kind : Val ι F).kind ≠ .object c := by
    rw [kind_zero hscalar]
    exact scalar_not_object hscalar
  have hright : ∃ z, p.FieldValue cls f z ∧ z.kind = y.kind ∧
      arithEq p.float (zero x.kind) z = true := by
    rcases kind_cases (field_scalar hplain h hy) with hy' | hy' | ⟨c, hc⟩
    · exact absurd hy' hnone
    · exact ⟨zero y.kind, hy.of_kind (kind_zero hy') (scalar_not_object hy'), kind_zero hy',
        arithEq_zero hscalar hy'⟩
    · obtain ⟨ref, fields, rfl, -⟩ := Value.cases ⟨hc, hy.1⟩
      exact ⟨_, hy, rfl, arithEq_zero_object hscalar⟩
  obtain ⟨z, hz, hkind, heq⟩ := hright
  have hkeys := field_keys hplain h hzero hz
  rw [combineEq_scalar hleft, heq, keyEquals_kind (by rwa [kind_zero hscalar])
    (by rwa [kind_zero hscalar, hkind])] at hkeys
  cases hkeys

theorem field_unmixed {y : Val ι F} (hy : p.FieldValue cls f y) :
    x.kind = y.kind ∨ x.kind = .none ∨ y.kind = .none ∨
      ∃ c d, x.kind = .object c ∧ y.kind = .object d := by
  rcases kind_cases (field_scalar hplain h hx) with hx' | hx' | ⟨c, hc⟩
  · exact .inr (.inl hx')
  · rcases field_scalar_alone hplain h hx hy hx' with hsame | hnone
    · exact .inl hsame
    · exact .inr (.inr (.inl hnone))
  · rcases kind_cases (field_scalar hplain h hy) with hy' | hy' | ⟨d, hd⟩
    · exact .inr (.inr (.inl hy'))
    · rcases field_scalar_alone hplain h hy hx hy' with hsame | hnone
      · exact .inl hsame.symm
      · exact .inr (.inl hnone)
    · exact .inr (.inr (.inr ⟨c, d, hc, hd⟩))

theorem field_classes {y : Val ι F} {c d : ι} (hy : p.FieldValue cls f y) (hc : x.kind = .object c)
    (hd : y.kind = .object d) :
    p.ClassFine f.2 c d x y := by
  have hkeys := field_keys hplain h hx hy
  have hrefl := field_refl hplain h hx
  have hobjects : ∀ {x' y' : Val ι F}, p.Value c x' → p.Value d y' →
      p.combineEq f.2 x' y' = p.keyEquals x' y' := by
    intro x' y' hx' hy'
    refine field_keys hplain h ⟨hx'.2, ?_⟩ ⟨hy'.2, ?_⟩
    · rw [hx'.1, ← hc]
      exact hx.2
    · rw [hy'.1, ← hd]
      exact hy.2
  obtain ⟨ref, fields, rfl, -⟩ := Value.cases ⟨hc, hx.1⟩
  obtain ⟨ref', fields', rfl, -⟩ := Value.cases ⟨hd, hy.1⟩
  rw [combineEq_object] at hkeys hrefl
  rw [ClassFine]
  by_cases hrange : p.className c = "Range".toList
  · rw [if_pos hrange] at hkeys ⊢
    exact hkeys.symm
  rw [if_neg hrange] at hkeys hrefl ⊢
  cases heq : p.equality f.2 c with
  | some eq =>
    simp only [heq] at hkeys hrefl
    exact ⟨hrefl, hkeys⟩
  | none =>
    simp only [heq] at hkeys hrefl
    by_cases hderives : p.derives c = true
    · refine .inr ⟨hderives, ?_⟩
      rintro ⟨hne, x', y', hx', hy', htrue⟩
      have hother := hobjects hx' hy'
      obtain ⟨r, fs, rfl, -⟩ := hx'.cases
      obtain ⟨r', fs', rfl, -⟩ := hy'.cases
      rw [combineEq_object, if_neg hrange, heq, keyEquals_object fun h => hne h.1,
        decide_eq_false (ref_ne hne hx'.2 hy'.2)] at hother
      simp only [if_pos hderives] at hother
      exact absurd (hother.symm.trans htrue) Bool.false_ne_true
    · rw [if_neg hderives] at hrefl
      left
      cases hvalue : p.isValue c with
      | false => rfl
      | true =>
        rw [if_pos hvalue] at hrefl
        cases hrefl

end

/-- A field that is compared as keys are. -/
theorem fieldFine_of_agrees : p.FieldFine cls f :=
  ⟨fun _ hx => field_scalar hplain h hx, fun _ _ hx hy => field_unmixed hplain h hx hy,
    fun _ _ _ _ hx hy hc hd => field_classes hplain h hx hy hc hd⟩

end Necessary

/-! ### The structs that are nested -/

/-- A struct that is compared as keys are, and has a value. -/
structure Keyed (p : EqModel σ ι F) (cls : ι) : Prop where
  isValue : p.isValue cls = true
  agrees : p.Agrees cls
  inhabited : ∃ v, p.Value cls v

theorem Keyed.field {cls : ι} (h : p.Keyed cls) {f : Str × TypeRef ι} (hf : f ∈ p.dataFields cls)
    (x y : Val ι F) (hx : p.FieldValue cls f x) (hy : p.FieldValue cls f y) :
    p.FieldAgrees cls f x y := by
  obtain ⟨v, hv⟩ := h.inhabited
  exact h.agrees.field h.isValue hv hf hx hy

/-- Two values of a struct that is nested, in the field that holds them. -/
theorem combineEq_nested {t : TypeRef ι} {c : ι} (hrange : p.className c ≠ "Range".toList)
    (heq : p.equality t c = none) (hderives : p.derives c = true) {d : ι} {x y : Val ι F}
    (hx : p.Value c x) (hy : p.Value d y) : p.combineEq t x y = p.derivedEq c x y := by
  obtain ⟨ref, fields, rfl, -⟩ := hx.cases
  obtain ⟨ref', fields', rfl, -⟩ := hy.cases
  rw [combineEq_object, if_neg hrange, heq]
  exact if_pos hderives

/-- What holds of a struct holds of those nested in it. -/
theorem Keyed.nested {c c' : ι} (h : p.Keyed c) (hnests : p.Nests c c') : p.Keyed c' := by
  obtain ⟨f, hf, hplain, hrange, heq, hderives, x, hx, hkind⟩ := hnests
  have hvalue : ∀ {v : Val ι F}, p.Value c' v → p.FieldValue c f v := by
    intro v hv
    refine ⟨hv.2, ?_⟩
    rw [hv.1, ← hkind]
    exact hx.2
  have hfield : ∀ {v w : Val ι F}, p.Value c' v → p.Value c' w →
      p.fieldEq c f v w = p.derivedEq c' v w := by
    intro v w hv hw
    rw [fieldEq, hplain]
    exact combineEq_nested hrange heq hderives hv hw
  refine ⟨isValue_of_derives hderives, ⟨fun v w hv hw => ?_, fun v hv => ?_⟩, ⟨x, hkind, hx.1⟩⟩
  · rw [← hfield hv hw]
    exact (h.field hf v w (hvalue hv) (hvalue hw)).keys
  · rw [← hfield hv hv]
    exact (h.field hf v v (hvalue hv) (hvalue hv)).refl

theorem Keyed.reached {c c' : ι} (h : p.Keyed c) (hreached : Relation.ReflTransGen p.Nests c c') :
    p.Keyed c' := by
  induction hreached with
  | refl => exact h
  | tail _ hnests ih => exact ih.nested hnests

/-! ### Fine fields are compared as keys -/

/-- `None` is equal to `None` only, as a key too. -/
theorem combineEq_of_none {t : TypeRef ι} {x y : Val ι F} (h : x.kind = .none ∨ y.kind = .none) :
    p.combineEq t x y = p.keyEquals x y := by
  have heq : p.combineEq t x y = arithEq p.float x y := by
    unfold combineEq
    exact if_pos h
  rw [heq]
  rcases h with h | h
  · cases x with
    | none => cases y <;> simp [arithEq, keyEquals]
    | _ => cases h
  · cases y with
    | none => cases x <;> simp [arithEq, keyEquals]
    | _ => cases h

/-- Two objects in a fine field; `hnested` is what a nested struct does. -/
theorem combineEq_fine {t : TypeRef ι} {c d : ι} {x y : Val ι F} (hx : p.Value c x)
    (hy : p.Value d y) (hfine : p.ClassFine t c d x y)
    (hnested : p.className c ≠ "Range".toList → p.equality t c = none → p.derives c = true →
      c = d → (p.derivedEq c x y = true ↔ p.keyEquals x y = true)) :
    p.combineEq t x y = p.keyEquals x y := by
  rw [ClassFine] at hfine
  by_cases hrange : p.className c = "Range".toList
  · rw [if_pos hrange] at hfine
    obtain ⟨ref, fields, rfl, -⟩ := hx.cases
    obtain ⟨ref', fields', rfl, -⟩ := hy.cases
    rw [combineEq_object, if_pos hrange, hfine]
  rw [if_neg hrange] at hfine
  cases heq : p.equality t c with
  | some eq =>
    simp only [heq] at hfine
    obtain ⟨ref, fields, rfl, -⟩ := hx.cases
    obtain ⟨ref', fields', rfl, -⟩ := hy.cases
    rw [combineEq_object, if_neg hrange, heq]
    exact hfine.2
  | none =>
    simp only [heq] at hfine
    rcases hfine with hreference | ⟨hderives, hmistakes⟩
    · have hderives : ¬p.derives c = true := fun h => by
        rw [isValue_of_derives h] at hreference
        cases hreference
      obtain ⟨ref, fields, rfl, -⟩ := hx.cases
      obtain ⟨ref', fields', rfl, -⟩ := hy.cases
      have hvalue : ¬p.isValue c = true := by rw [hreference]; exact Bool.false_ne_true
      rw [combineEq_object, if_neg hrange, heq, keyEquals_object fun h => hvalue h.2]
      simp only [if_neg hderives, if_neg hvalue]
    · rw [combineEq_nested hrange heq hderives hx hy]
      by_cases hsame : c = d
      · exact Bool.eq_iff_iff.mpr (hnested hrange heq hderives hsame)
      · have hderived : p.derivedEq c x y = false := by
          cases hd : p.derivedEq c x y with
          | false => rfl
          | true => exact absurd ⟨hsame, x, y, hx, hy, hd⟩ hmistakes
        obtain ⟨ref, fields, rfl, -⟩ := hx.cases
        obtain ⟨ref', fields', rfl, -⟩ := hy.cases
        rw [hderived, keyEquals_object fun h => hsame h.1,
          decide_eq_false (ref_ne hsame hx.2 hy.2)]

theorem combineEq_fine_refl {t : TypeRef ι} {c : ι} {x : Val ι F} (hx : p.Value c x)
    (hfine : p.ClassFine t c c x x)
    (hnested : p.className c ≠ "Range".toList → p.equality t c = none → p.derives c = true →
      p.derivedEq c x x = true) : p.combineEq t x x = true := by
  rw [ClassFine] at hfine
  by_cases hrange : p.className c = "Range".toList
  · obtain ⟨ref, fields, rfl, -⟩ := hx.cases
    rw [combineEq_object, if_pos hrange]
  rw [if_neg hrange] at hfine
  cases heq : p.equality t c with
  | some eq =>
    simp only [heq] at hfine
    obtain ⟨ref, fields, rfl, -⟩ := hx.cases
    rw [combineEq_object, if_neg hrange, heq]
    exact hfine.1
  | none =>
    simp only [heq] at hfine
    by_cases hderives : p.derives c = true
    · rw [combineEq_nested hrange heq hderives hx hx]
      exact hnested hrange heq hderives
    · have hvalue : ¬p.isValue c = true := by
        rcases hfine with h | h
        · rw [h]
          exact Bool.false_ne_true
        · exact absurd h.1 hderives
      obtain ⟨ref, fields, rfl, -⟩ := hx.cases
      rw [combineEq_object, if_neg hrange, heq]
      simp only [if_neg hderives, if_neg hvalue, decide_true]

/-- A fine field; `hnested` is what the structs do that are nested in it. -/
theorem fieldAgrees_of_fine {cls : ι} {f : Str × TypeRef ι} (hf : f ∈ p.dataFields cls)
    (hplain : p.isFloat (p.classScope cls) f.2 = false) (hfine : p.FieldFine cls f) {x y : Val ι F}
    (hx : p.FieldValue cls f x) (hy : p.FieldValue cls f y)
    (hnested : ∀ c, p.Nests cls c → p.Value c x → p.derivedEq c x x = true ∧
      ∀ y, p.Value c y → (p.derivedEq c x y = true ↔ p.keyEquals x y = true)) :
    p.FieldAgrees cls f x y := by
  have hfield : ∀ y, p.fieldEq cls f x y = p.combineEq f.2 x y := by
    intro y
    rw [fieldEq, hplain]
    rfl
  have hnests : ∀ {c}, x.kind = .object c → p.className c ≠ "Range".toList →
      p.equality f.2 c = none → p.derives c = true → p.Nests cls c := fun hc hrange heq hderives =>
    ⟨f, hf, hplain, hrange, heq, hderives, x, hx, hc⟩
  constructor
  · refine Bool.eq_iff_iff.mp ?_
    rw [hfield]
    rcases kind_cases (hfine.scalar x hx) with hnone | hscalar | ⟨c, hc⟩
    · exact combineEq_of_none (.inl hnone)
    · rcases hfine.unmixed x y hx hy with hsame | hnone | hnone | ⟨c, -, hc, -⟩
      · rw [combineEq_scalar (scalar_not_object hscalar)]
        exact arithEq_scalar hscalar hsame
      · exact combineEq_of_none (.inl hnone)
      · exact combineEq_of_none (.inr hnone)
      · exact absurd hc (scalar_not_object hscalar c)
    · rcases hfine.unmixed x y hx hy with hsame | hnone | hnone | ⟨c', d, hc', hd⟩
      · rw [hc] at hsame
        exact combineEq_fine ⟨hc, hx.1⟩ ⟨hsame.symm, hy.1⟩
          (hfine.classes x y c c hx hy hc hsame.symm) fun hrange heq hderives _ =>
            (hnested c (hnests hc hrange heq hderives) ⟨hc, hx.1⟩).2 y ⟨hsame.symm, hy.1⟩
      · exact combineEq_of_none (.inl hnone)
      · exact combineEq_of_none (.inr hnone)
      · refine combineEq_fine ⟨hc', hx.1⟩ ⟨hd, hy.1⟩ (hfine.classes x y c' d hx hy hc' hd)
          fun hrange heq hderives hsame => ?_
        rw [← hsame] at hd
        exact (hnested c' (hnests hc' hrange heq hderives) ⟨hc', hx.1⟩).2 y ⟨hd, hy.1⟩
  · rw [hfield]
    rcases kind_cases (hfine.scalar x hx) with hnone | hscalar | ⟨c, hc⟩
    · rw [combineEq_of_none (.inl hnone)]
      cases x with
      | none => simp [keyEquals]
      | _ => cases hnone
    · rw [combineEq_scalar (scalar_not_object hscalar)]
      exact arithEq_refl hscalar
    · exact combineEq_fine_refl ⟨hc, hx.1⟩ (hfine.classes x x c c hx hx hc hc)
        fun hrange heq hderives => (hnested c (hnests hc hrange heq hderives) ⟨hc, hx.1⟩).1

end EqModel

namespace EqProgram

variable {σ ι F : Type} [DecidableEq ι] (p : EqProgram σ ι F)

/-- A field of the plain type `float` holds floats. -/
theorem kind_of_isFloat {scope : σ} {t : TypeRef ι} (hfloat : p.isFloat scope t = true) {k : Kind ι}
    (hk : p.HasKind scope k t) : k = .float := by
  match t with
  | .inferred => simp [EqModel.isFloat] at hfloat
  | .function _ _ => simp [EqModel.isFloat] at hfloat
  | .union _ => simp [EqModel.isFloat] at hfloat
  | .named (_ :: _) _ _ _ => simp [EqModel.isFloat] at hfloat
  | .named [] name generics hygiene =>
    simp only [EqModel.isFloat, Bool.and_eq_true, decide_eq_true_eq] at hfloat
    obtain ⟨rfl, hprimitive⟩ := hfloat
    rw [EqModel.HasKind] at hk
    obtain ⟨sym, cls, hsym, hsub, rfl⟩ := hk
    rw [hsym] at hprimitive
    exact p.float_kind scope generics hygiene sym cls hsym hprimitive hsub

/-- A field of the plain type `float` is compared as keys are. -/
theorem float_agrees {cls : ι} {f : Str × TypeRef ι}
    (hfloat : p.isFloat (p.classScope cls) f.2 = true) {x y : Val ι F}
    (hx : p.FieldValue cls f x) (hy : p.FieldValue cls f y) : p.FieldAgrees cls f x y := by
  have hkind := p.kind_of_isFloat hfloat hx.2
  have hkind' := p.kind_of_isFloat hfloat hy.2
  constructor
  · rw [EqModel.fieldEq, if_pos hfloat]
    cases x <;> cases y <;> simp_all [Val.kind, EqModel.canonEq, EqModel.keyEquals]
  · rw [EqModel.fieldEq, if_pos hfloat]
    cases x <;> simp_all [Val.kind, EqModel.canonEq]

/-- In a program whose fields are fine, every nested struct is compared as keys are: by induction on
the value on the left. -/
theorem agrees_of_fine {cls : ι} (hfine : p.Fine cls) {c : ι}
    (hreached : Relation.ReflTransGen p.Nests cls c) (hvalue : p.isValue c = true) {v : Val ι F}
    (hv : p.Value c v) : p.derivedEq c v v = true ∧
      ∀ w, p.Value c w → (p.derivedEq c v w = true ↔ p.keyEquals v w = true) := by
  induction hn : sizeOf v using Nat.strong_induction_on generalizing c v with
  | _ n ih =>
    have hfield : ∀ f ∈ p.dataFields c, ∀ w, p.Value c w →
        p.FieldAgrees c f (v.field f.1) (w.field f.1) := by
      intro f hf w hw
      have hx := hv.field hvalue hf
      have hy := hw.field hvalue hf
      cases hfloat : p.isFloat (p.classScope c) f.2 with
      | true => exact p.float_agrees hfloat hx hy
      | false =>
        refine EqModel.fieldAgrees_of_fine hf hfloat (hfine c hreached f hf hfloat) hx hy
          fun c' hnests hx' => ?_
        obtain ⟨-, -, -, -, -, hderives, -⟩ := id hnests
        have hlt := hv.sizeOf_field f.1
        rw [hn] at hlt
        exact ih _ hlt (hreached.tail hnests) (EqModel.isValue_of_derives hderives) hx' rfl
    refine ⟨EqModel.derivedEq_iff.mpr fun f hf => (hfield f hf v hv).refl, fun w hw => ?_⟩
    rw [EqModel.derivedEq_iff, EqModel.keyEquals_value hvalue hv hw]
    exact forall₂_congr fun f hf => (hfield f hf w hw).keys

end EqProgram


/-! ### Two structs -/

/-- Floats, as far as their comparison goes. -/
inductive Float4 where
  | nan
  | zero
  | negZero
  | one
deriving DecidableEq

namespace Float4

def canon : Float4 → Nat
  | nan => 2
  | one => 1
  | _ => 0

def ops : FloatOps Float4 where
  canon := canon
  eq a b := a ≠ nan && canon a = canon b
  ofInt i := if i = 0 then zero else one

end Float4

/-- The symbols of `struct Point { int x; float y; }` and `struct Reading { float? value; }`. -/
inductive Shapes where
  | int
  | float
  | none
  | point
  | reading
deriving DecidableEq

namespace Shapes

def symbolName : Shapes → Str
  | int => "int".toList
  | float => "float".toList
  | none => "None".toList
  | point => "Point".toList
  | reading => "Reading".toList

/-- The type of a symbol. -/
def ref (s : Shapes) : TypeRef Shapes := .named [] s.symbolName [] Option.none

def program : EqProgram Unit Shapes Float4 where
  kind
    | .none => .Primitive
    | _ => .Class
  decl _ := some {}
  scope _ := some ()
  enclosing _ := [()]
  names _ name := [int, float, none, point, reading].filter fun s => s.symbolName = name
  rank _ := 0
  rank_lt := nofun
  global := ()
  classScope _ := ()
  className := symbolName
  native s := s = int || s = float
  isPrimitive s := s = int || s = float
  isValue s := s = point || s = reading
  inProgram s := s = point || s = reading
  explicitEq _ := false
  dataFields
    | point => [("x".toList, ref int), ("y".toList, ref float)]
    | reading => [("value".toList, .union [ref float, ref none])]
    | _ => []
  structs := 2
  equality _ _ := Option.none
  classAt ref := if ref = 0 then point else reading
  float := Float4.ops
  nan := .nan
  nan_ne := rfl
  float_kind := by
    rintro ⟨⟩ generics hygiene sym cls hsym - hsub
    have hfloat : sym = float := by
      cases hygiene with
      | none => exact (Option.some.inj hsym).symm
      | some s => cases s <;> exact (Option.some.inj hsym).symm
    subst hfloat
    cases cls <;> first | rfl | cases hsub

theorem hasKind_ref {s : Shapes} {k : Kind Shapes} :
    program.HasKind () k (ref s) ↔ k = program.kindOf s := by
  rw [ref, EqModel.HasKind]
  constructor
  · rintro ⟨sym, cls, hsym, hsub, rfl⟩
    have hsame : sym = s := by cases s <;> exact (Option.some.inj hsym).symm
    subst hsame
    cases sym <;> cases cls <;> first | rfl | cases hsub
  · rintro rfl
    exact ⟨s, s, by cases s <;> rfl, by cases s <;> rfl, rfl⟩

/-- `Point(3, float::NaN)`. -/
def pointValue : Val Shapes Float4 :=
  .object point 0 [("x".toList, .int 3), ("y".toList, .float .nan)]

theorem value_pointValue : program.Value point pointValue := by
  refine ⟨rfl, .value rfl rfl rfl (by decide) ?_ ?_⟩
  · intro f hf
    rcases List.mem_cons.mp hf with rfl | hf
    · exact hasKind_ref.mpr rfl
    · obtain rfl := List.mem_singleton.mp hf
      exact hasKind_ref.mpr rfl
  · intro e he
    rcases List.mem_cons.mp he with rfl | he
    · exact .plain nofun
    · obtain rfl := List.mem_singleton.mp he
      exact .plain nofun

/-- `Reading(float::NaN)`. -/
def readingValue : Val Shapes Float4 := .object reading 1 [("value".toList, .float .nan)]

theorem value_readingValue : program.Value reading readingValue := by
  refine ⟨rfl, .value rfl rfl rfl (by decide) ?_ ?_⟩
  · intro f hf
    obtain rfl := List.mem_singleton.mp hf
    exact .inl (hasKind_ref.mpr rfl)
  · intro e he
    obtain rfl := List.mem_singleton.mp he
    exact .plain nofun

end Shapes

end Leviathan.Sema
