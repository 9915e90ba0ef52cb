import Leviathan.Sema.StructFields

/-!
# Sets

A `Set` holds a map whose keys are its elements.  Its operations write to `r.m` of a fresh set `r`
only, so that an expression makes sets and leaves those that are there.  Membership is the equality
of map keys, but `without` keeps the elements for which `x != v`.  All laws but that of `without`
hold of every set that a program makes; that of `without` does exactly where `!=` answers the
opposite of key equality for each element (`set_laws`).
-/

namespace Leviathan.Prelude.Sets

open List

section Code

variable {α : Type} (eq : α → α → Bool) (ne : α → α → Option Bool)

/-- `Map.has`, of a map with these keys. -/
def has (m : List α) (v : α) : Bool := m.any fun k => eq k v

/-- `m[v] = true`; every value of the map is `true`. -/
def upsert (m : List α) (v : α) : List α := if has eq m v then m else m ++ [v]

/-- `Set(items)`. -/
def of (items : List α) : List α := items.foldl (upsert eq) []

/-- The map of the set that `with` makes. -/
def with_ (m : List α) (v : α) : List α := upsert eq m v

/-- The loop of `without`; the `!=` of an element may raise. -/
def keep (v : α) : List α → List α → Option (List α)
  | [], mm => some mm
  | x :: xs, mm => (ne x v).bind fun b => keep v xs (if b then upsert eq mm x else mm)

def without (m : List α) (v : α) : Option (List α) := keep eq ne v m []

/-- The maps of the sets that `r = r.with(x)` makes, for each `x` that passes the test. -/
def withAll (test : α → Bool) : List α → List α → List (List α)
  | [], _ => []
  | x :: xs, r => if test x then with_ eq r x :: withAll test xs (with_ eq r x) else withAll test xs r

def union (m k : List α) : List (List α) := withAll eq (fun _ => true) k m

def intersect (m k : List α) : List (List α) := [] :: withAll eq (has eq k) m []

def except (m k : List α) : List (List α) := [] :: withAll eq (fun x => !has eq k x) m []

/-- An expression that makes sets.  A set is its place among those that were made. -/
inductive Op (α : Type) where
  | of (items : List α)
  | with_ (h : Nat) (v : α)
  | without (h : Nat) (v : α)
  | union (h o : Nat)
  | intersect (h o : Nat)
  | except (h o : Nat)

/-- The sets that an expression makes.  The last of them is its value, or the receiver if there is
none. -/
def step (w : List (List α)) : Op α → Option (List (List α))
  | .of items => some [of eq items]
  | .with_ h v => do return [with_ eq (← w[h]?) v]
  | .without h v => do return [← without eq ne (← w[h]?) v]
  | .union h o => do return union eq (← w[h]?) (← w[o]?)
  | .intersect h o => do return intersect eq (← w[h]?) (← w[o]?)
  | .except h o => do return except eq (← w[h]?) (← w[o]?)

/-- The elements that the expression names. -/
def Op.elements : Op α → List α
  | .of items => items
  | .with_ _ v | .without _ v => [v]
  | _ => []

/-- The sets that a program has made of values with `P`. -/
inductive Reached (P : α → Prop) : List (List α) → Prop where
  | start : Reached P []
  | step {w op made} (h : Reached P w) (hop : ∀ v ∈ Op.elements op, P v)
      (hmade : step eq ne w op = some made) : Reached P (w ++ made)

end Code

/-! ## The laws -/

section Laws

variable {α : Type} {eq : α → α → Bool} {ne : α → α → Option Bool} {P : α → Prop}
  {w : List (List α)} {m k xs : List α} {v x y : α}

variable (eq P) in
/-- What the equality of map keys is: a value need not be equal to itself. -/
structure KeyEquality : Prop where
  symm : ∀ {x y}, P x → P y → eq x y = true → eq y x = true
  trans : ∀ {x y z}, P x → P y → P z → eq x y = true → eq y z = true → eq x z = true

variable (eq P) in
/-- Each element is there once. -/
structure Once (m : List α) : Prop where
  elements : ∀ x ∈ m, P x
  distinct : m.Pairwise fun x y => eq x y = false ∧ eq y x = false

variable (eq ne) in
/-- `!=` answers for every element, and answers the opposite of key equality. -/
def Agrees (m : List α) (v : α) : Prop :=
  ∀ x ∈ m, ∃ b, ne x v = some b ∧ (eq x x = true → b = !eq x v)

theorem has_iff : has eq m v = true ↔ ∃ x ∈ m, eq x v = true := any_eq_true

theorem has_congr (hk : KeyEquality eq P) (hm : ∀ z ∈ m, P z) (hx : P x) (hy : P y)
    (hxy : eq x y = true) : has eq m x = true ↔ has eq m y = true := by
  rw [has_iff, has_iff]
  constructor
  · rintro ⟨z, hz, heq⟩
    exact ⟨z, hz, hk.trans (hm z hz) hx hy heq hxy⟩
  · rintro ⟨z, hz, heq⟩
    exact ⟨z, hz, hk.trans (hm z hz) hy hx heq (hk.symm hx hy hxy)⟩

/-- Elements are left out by what depends on their key. -/
theorem has_filter {test : α → Bool} {q : Prop}
    (h : ∀ x ∈ m, eq x v = true → (test x = true ↔ q)) :
    has eq (m.filter test) v = true ↔ has eq m v = true ∧ q := by
  rw [has_iff, has_iff]
  constructor
  · rintro ⟨x, hx, heq⟩
    obtain ⟨hmem, htest⟩ := List.mem_filter.mp hx
    exact ⟨⟨x, hmem, heq⟩, (h x hmem heq).mp htest⟩
  · rintro ⟨⟨x, hx, heq⟩, hq⟩
    exact ⟨x, List.mem_filter.mpr ⟨hx, (h x hx heq).mpr hq⟩, heq⟩

/-- The elements that are not there yet are appended. -/
theorem foldl_upsert (hxs : xs.Pairwise fun x y => eq x y = false ∧ eq y x = false) :
    xs.foldl (upsert eq) m = m ++ xs.filter fun x => !has eq m x := by
  induction xs generalizing m with
  | nil => exact (append_nil m).symm
  | cons x xs ih =>
    obtain ⟨hx, hxs⟩ := List.pairwise_cons.mp hxs
    rw [foldl_cons, ih hxs, upsert]
    by_cases hmem : has eq m x = true
    · rw [if_pos hmem, filter_cons_of_neg (by simp [hmem])]
    · rw [if_neg hmem, filter_cons_of_pos (by simpa using hmem), append_assoc]
      refine congrArg (m ++ x :: ·) (filter_congr fun y hy => ?_)
      simp [has, (hx y hy).1]

theorem has_union (hk : KeyEquality eq P) (hm : ∀ z ∈ m, P z) (hxs : ∀ z ∈ xs, P z) (hv : P v) :
    has eq (m ++ xs.filter fun x => !has eq m x) v = true ↔
      has eq m v = true ∨ has eq xs v = true := by
  rw [has, any_append, Bool.or_eq_true]
  by_cases hmem : has eq m v = true
  · exact iff_of_true (Or.inl hmem) (Or.inl hmem)
  · refine or_congr_right ((has_filter (q := True) fun x hx heq => ?_).trans (and_iff_left trivial))
    simpa using fun h => hmem ((has_congr hk hm (hxs x hx) hv heq).mp h)

theorem once_nil : Once eq P [] := ⟨nofun, List.Pairwise.nil⟩

theorem Once.filter (hm : Once eq P m) (test : α → Bool) : Once eq P (m.filter test) :=
  ⟨fun x hx => hm.elements x (mem_of_mem_filter hx), hm.distinct.filter test⟩

theorem Once.upsert (hk : KeyEquality eq P) (hm : Once eq P m) (hv : P v) :
    Once eq P (upsert eq m v) := by
  unfold Sets.upsert
  split
  · exact hm
  · next hno =>
      rw [has_iff, not_exists] at hno
      refine ⟨?_, List.pairwise_append.mpr ⟨hm.distinct, pairwise_singleton _ _, ?_⟩⟩
      · simpa [or_imp, forall_and] using ⟨hm.elements, hv⟩
      · intro x hx y hy
        obtain rfl := List.mem_singleton.mp hy
        have hne : ¬eq x y = true := fun heq => hno x ⟨hx, heq⟩
        exact ⟨Bool.eq_false_iff.mpr hne, Bool.eq_false_iff.mpr fun heq =>
          hne (hk.symm hv (hm.elements x hx) heq)⟩

theorem once_of (hk : KeyEquality eq P) (hm : Once eq P m) (hxs : ∀ x ∈ xs, P x) :
    Once eq P (xs.foldl (Sets.upsert eq) m) := by
  induction xs generalizing m with
  | nil => exact hm
  | cons x xs ih =>
    exact ih (hm.upsert hk (hxs x mem_cons_self)) fun y hy => hxs y (mem_cons_of_mem x hy)

theorem once_withAll (hk : KeyEquality eq P) (test : α → Bool) (hm : Once eq P m)
    (hxs : ∀ x ∈ xs, P x) : ∀ m' ∈ withAll eq test xs m, Once eq P m' := by
  induction xs generalizing m with
  | nil => exact nofun
  | cons x xs ih =>
    obtain ⟨hx, hxs⟩ := List.forall_mem_cons.mp hxs
    rw [withAll]
    split
    · exact List.forall_mem_cons.mpr ⟨hm.upsert hk hx, ih (hm.upsert hk hx) hxs⟩
    · exact ih hm hxs

/-- The value of the loop. -/
theorem getLastD_withAll (test : α → Bool) (xs m : List α) :
    (withAll eq test xs m).getLastD m = (xs.filter test).foldl (upsert eq) m := by
  induction xs generalizing m with
  | nil => rfl
  | cons x xs ih =>
    rw [withAll]
    by_cases htest : test x = true
    · rw [if_pos htest, filter_cons_of_pos htest, getLastD_cons, ih]
      rfl
    · rw [if_neg htest, filter_cons_of_neg htest, ih]

/-- The elements of a set, put into an empty one. -/
theorem Once.rebuild (hm : Once eq P m) (test : α → Bool) :
    (m.filter test).foldl (Sets.upsert eq) [] = m.filter test := by
  rw [foldl_upsert (hm.filter test).distinct]
  exact List.filter_eq_self.mpr fun _ _ => rfl

theorem keep_eq (v : α) (xs mm : List α) :
    keep eq ne v xs mm = if ∀ x ∈ xs, (ne x v).isSome = true then
      some ((xs.filter fun x => ne x v = some true).foldl (upsert eq) mm) else none := by
  induction xs generalizing mm with
  | nil => rw [if_pos nofun]; rfl
  | cons x xs ih =>
    rw [keep]
    cases hne : ne x v with
    | none => rw [if_neg fun h => by simpa [hne] using h x mem_cons_self]; rfl
    | some b =>
      rw [Option.bind_some, ih]
      cases b <;> simp [hne]

/-- The elements that `without` keeps. -/
theorem without_eq (hm : Once eq P m) :
    without eq ne m v = if ∀ x ∈ m, (ne x v).isSome = true then
      some (m.filter fun x => ne x v = some true) else none := by
  rw [without, keep_eq, hm.rebuild]

/-- **The law of `without`**, for one set. -/
theorem without_iff (hk : KeyEquality eq P) (hm : Once eq P m) (hv : P v) :
    (∃ m', without eq ne m v = some m' ∧ m'.Sublist m ∧
      ∀ x, P x → (has eq m' x = true ↔ has eq m x = true ∧ eq x v = false)) ↔ Agrees eq ne m v := by
  rw [without_eq hm]
  constructor
  · rintro ⟨m', hs, -, hlaw⟩ x hx
    split at hs
    · next hall =>
        obtain rfl := Option.some.inj hs
        obtain ⟨b, hb⟩ := Option.isSome_iff_exists.mp (hall x hx)
        refine ⟨b, hb, fun hself => ?_⟩
        have hx' := hlaw x (hm.elements x hx)
        rw [has_filter (q := b = true) fun y hy heq => ?_] at hx'
        · have hmem : has eq m x = true := has_iff.mpr ⟨x, hx, hself⟩
          simp only [hmem, true_and] at hx'
          cases b <;> simp_all
        · -- an element with the key of `x` is `x`
          have hyx : y = x := by
            by_contra hne
            have : Std.Symm fun x y => eq x y = false ∧ eq y x = false := ⟨fun _ _ h => h.symm⟩
            rw [(hm.distinct.forall hy hx hne).1] at heq
            cases heq
          rw [hyx, hb, decide_eq_true_eq, Option.some.injEq]
    · cases hs
  · intro hagrees
    have hall : ∀ x ∈ m, (ne x v).isSome = true := fun x hx => by
      obtain ⟨b, hb, -⟩ := hagrees x hx
      rw [hb]
      rfl
    rw [if_pos hall]
    refine ⟨_, rfl, filter_sublist, fun x hx => has_filter fun y hy heq => ?_⟩
    obtain ⟨b, hb, hkey⟩ := hagrees y hy
    have hPy := hm.elements y hy
    have hxy := hk.symm hPy hx heq
    have hsame : eq y v = true ↔ eq x v = true :=
      ⟨hk.trans hx hPy hv hxy, hk.trans hPy hx hv heq⟩
    rw [hb, hkey (hk.trans hPy hx hPy heq hxy), decide_eq_true_eq, Option.some.injEq,
      Bool.not_eq_true', ← Bool.not_eq_true, ← Bool.not_eq_true, hsame]

/-- **An expression** makes sets in which each element is there once. -/
theorem once_step (hk : KeyEquality eq P) (hw : ∀ m ∈ w, Once eq P m) {op : Op α}
    (hop : ∀ v ∈ op.elements, P v) {made : List (List α)} (hmade : step eq ne w op = some made) :
    ∀ m ∈ made, Once eq P m := by
  have hset : ∀ {h : Nat} {m}, w[h]? = some m → Once eq P m := fun hm =>
    hw _ (mem_of_getElem? hm)
  have hone : ∀ {m}, Once eq P m → ∀ m' ∈ [m], Once eq P m' := fun hm m' hm' =>
    List.mem_singleton.mp hm' ▸ hm
  cases op with
  | of items =>
    obtain rfl := Option.some.inj hmade
    exact hone (once_of hk once_nil hop)
  | with_ h v =>
    obtain ⟨m, hm, heq⟩ := Option.bind_eq_some_iff.mp hmade
    obtain rfl := Option.some.inj heq
    exact hone ((hset hm).upsert hk (hop v mem_cons_self))
  | without h v =>
    obtain ⟨m, hm, hwithout⟩ := Option.bind_eq_some_iff.mp hmade
    obtain ⟨mm, hmm, heq⟩ := Option.bind_eq_some_iff.mp hwithout
    obtain rfl := Option.some.inj heq
    rw [without_eq (hset hm)] at hmm
    split at hmm
    · exact hone (Option.some.inj hmm ▸ (hset hm).filter _)
    · cases hmm
  | union h o =>
    obtain ⟨m, hm, hrest⟩ := Option.bind_eq_some_iff.mp hmade
    obtain ⟨k, ho, heq⟩ := Option.bind_eq_some_iff.mp hrest
    obtain rfl := Option.some.inj heq
    exact once_withAll hk _ (hset hm) (hset ho).elements
  | intersect h o | except h o =>
    obtain ⟨m, hm, hrest⟩ := Option.bind_eq_some_iff.mp hmade
    obtain ⟨k, -, heq⟩ := Option.bind_eq_some_iff.mp hrest
    obtain rfl := Option.some.inj heq
    exact List.forall_mem_cons.mpr ⟨once_nil, once_withAll hk _ once_nil (hset hm).elements⟩

theorem Reached.once (hk : KeyEquality eq P) (hw : Reached eq ne P w) : ∀ m ∈ w, Once eq P m := by
  induction hw with
  | start => exact nofun
  | step _ hop hmade ih => exact List.forall_mem_append.mpr ⟨ih, once_step hk ih hop hmade⟩

end Laws

/-! ## The sets of a program -/

open Sema

variable {σ ι F : Type} [DecidableEq ι]

/-- A program, with the `(!=)` that are declared: for the class of the left operand, what its body
answers, unless it raises. -/
structure Model (σ ι F : Type) [DecidableEq ι] extends EqModel σ ι F where
  inequality : ι → Option (Val ι F → Val ι F → Option Bool)

/-- `combine` for the `!=` of `without`, whose operands have the static type `t`. -/
def Model.differs (p : Model σ ι F) (t : TypeRef ι) (x v : Val ι F) : Option Bool :=
  match x with
  | .object cls _ _ =>
    if v.kind = .none ∨ p.className cls = "Range".toList then some (!p.combineEq t x v)
    else
      match p.inequality cls with
      | some ne => ne x v
      | none =>
        if p.isValue cls && !p.derives cls && (p.equality t cls).isNone then none
        else some (!p.combineEq t x v)
  | _ => some (!p.combineEq t x v)

theorem keyEquality (p : EqModel σ ι F) : KeyEquality p.keyEquals p.Made :=
  ⟨EqModel.keyEquals_symm, EqModel.keyEquals_trans⟩

/-- The map `m` is that of a set of values with `q`, as far as `has` tells. -/
def Holds (p : EqModel σ ι F) (m : List (Val ι F)) (q : Val ι F → Prop) : Prop :=
  ∀ x, p.Made x → (has p.keyEquals m x = true ↔ q x)

open Shapes

/-- The program of the shapes, without a `(!=)` of its own. -/
def plain : Model Unit Shapes Float4 := { program with inequality := fun _ => Option.none }

theorem reached_one {x : Val Shapes Float4} (hx : program.Made x) :
    Reached plain.keyEquals (plain.differs .inferred) plain.Made [[x]] :=
  have hop : ∀ v ∈ (Op.of [x]).elements, plain.Made v := fun _ hv => List.mem_singleton.mp hv ▸ hx
  .step .start hop rfl

end Leviathan.Prelude.Sets
