import Leviathan.Runtime.OwnerCounts

/-!
# Keys of maps

Two values are one key of a map if `lvrt_keyeq` says so in the native runtime, and `keyEquals` in
the interpreters.  The one compares tags, payloads and what the heap holds behind them, the other
records of which the kind says what they are.

Both compare what a value comes down to (`KeyForm`): a number or a canonical float, the bytes of a
string, an identity, the class of a struct with the forms of its fields.  The native runtime
compares nothing else (`keyeqWith_iff`), and so its relation is an equivalence.  `keyEquals` does
so too, except that no array, map or closure, and not what a bare field holds, is equal to anything
(`keyEquals_iff`).
-/

namespace Leviathan.Runtime

open List

/-- `VKind`. -/
inductive VKind
  | void | int | float | bool | string | object | closure | array | map | none | char | block | ast
  deriving DecidableEq

/-- What a value comes down to as a key. -/
inductive KeyForm
  | scalar (kind : VKind) (payload : Int)
  | float (bits : Nat)
  | string (bytes : List Nat)
  | ref (kind : VKind) (address : Nat)
  | struct (classId : Nat) (fields : List KeyForm)

def KeyForm.kind : KeyForm → VKind
  | .scalar k _ => k
  | .float _ => .float
  | .string _ => .string
  | .ref k _ => k
  | .struct _ _ => .object

namespace Interp

/-- What a value shares by a pointer and does not look into as a key. -/
inductive Shared
  | closure | array | map | block | ast
  deriving DecidableEq

def Shared.kind : Shared → VKind
  | closure => .closure
  | array => .array
  | map => .map
  | block => .block
  | ast => .ast

/-- `Value`.  A reference is the identity of what the pointer points to. -/
inductive Value
  | void
  | int (i : Int)
  | float (bits : BitVec 64)
  | bool (b : Bool)
  | string (s : List Nat)
  | object (ref : Nat) (fields : List (String × Value))
  | shared (what : Shared) (ref : Nat)
  | none
  | char (i : Int)

def Value.kind : Value → VKind
  | void => .void
  | int _ => .int
  | float _ => .float
  | bool _ => .bool
  | string _ => .string
  | object _ _ => .object
  | shared what _ => what.kind
  | none => .none
  | char _ => .char

/-- `lv_canon`. -/
def lvCanon (b : BitVec 64) : BitVec 64 :=
  if b &&& 0x7FF0000000000000 = 0x7FF0000000000000 ∧ b &&& 0x000FFFFFFFFFFFFF ≠ 0 then
    0x7FF8000000000000
  else if b <<< 1 = 0 then 0
  else b

end Interp

variable {v w : Value} {fs : List (String × Interp.Value)} {held : Nat → Interp.Value}

namespace Containers

open Leviathan.Owners

/-! ### The native runtime -/

section Native

/-- The kind of an immediate. -/
def Imm.kind : Imm → VKind
  | .void => .void
  | .int => .int
  | .float => .float
  | .bool => .bool
  | .none => .none
  | .char => .char

theorem Imm.kind_inj {s t : Imm} (h : s.kind = t.kind) : s = t := by
  cases s <;> cases t <;> first | rfl | cases h

/-- The kind of what a block holds; none of a weak proxy, which is no value of the language. -/
def Body.kind : Body → Option VKind
  | .str _ => some .string
  | .obj _ _ => some .object
  | .clo _ => some .closure
  | .block _ => some .block
  | .weakProxy => none
  | .arr _ _ => some .array
  | .dense _ _ => some .array
  | .columnar _ _ => some .array
  | .map _ => some .map

/-- The form of a value that is no struct. -/
def leafForm (h : Heap) : Value → KeyForm
  | .scalar t p => if t = .float then .float (canonBits p) else .scalar t.kind p
  | .literal b => .string b
  | .ref x =>
    match h.cell x with
    | some ⟨_, .str b⟩ => .string b
    | some ⟨_, b⟩ => .ref (b.kind.getD .void) x
    | none => .ref .void x

variable (cls : Classes)

/-- What `lvrt_keyeq` compares. -/
def keyForm (h : Heap) : Nat → Value → KeyForm
  | 0, v => leafForm h v
  | n + 1, v =>
    match valueStruct cls h v with
    | some (_, _, classId, fields) => .struct classId (fields.map (keyForm h n))
    | none => leafForm h v

/-- Every struct has the fields of its class. -/
def Filled (h : Heap) : Prop :=
  ∀ x rc classId fields, h.cell x = some ⟨rc, .obj classId fields⟩ →
    cls.isvalueclass classId = true → fields.length = cls.fieldcount classId

variable {cls} {h : Heap}

/-- The form of a value that has no bytes is that of its address or its number. -/
theorem leafForm_string {b : List Nat} (hb : strBytes h v = some b) : leafForm h v = .string b := by
  cases v with
  | scalar t p => cases hb
  | literal b' => exact congrArg KeyForm.string (Option.some.inj hb)
  | ref x =>
    unfold strBytes at hb
    unfold leafForm
    dsimp only at hb ⊢
    split at hb
    · next hx =>
        rw [hx]
        exact congrArg KeyForm.string (Option.some.inj hb)
    · cases hb

theorem leafForm_ref {x : Nat} (hb : strBytes h (.ref x) = none) :
    ∃ k, leafForm h (.ref x) = .ref k x := by
  unfold strBytes at hb
  unfold leafForm
  dsimp only at hb ⊢
  cases hx : h.cell x with
  | none => exact ⟨_, rfl⟩
  | some c =>
    obtain ⟨rc, body⟩ := c
    rw [hx] at hb
    cases body with
    | str b => cases hb
    | _ => exact ⟨_, rfl⟩

theorem strBytes_of_valueStruct {r : Nat × Nat × Nat × List Value}
    (hv : valueStruct cls h v = some r) : strBytes h v = none := by
  obtain ⟨x, rc, classId, fields⟩ := r
  obtain ⟨rfl, hx, -⟩ := valueStruct_eq_some hv
  rw [strBytes, hx]

/-- Values without bytes, not both numbers, that are not both structs. -/
theorem leafForm_eq_iff (hno : strBytes h v = none) (hno' : strBytes h w = none)
    (hnum : ∀ s p t q, v = .scalar s p → w = .scalar t q → False) :
    leafForm h v = leafForm h w ↔ v = w := by
  refine ⟨fun heq => ?_, fun heq => by rw [heq]⟩
  have hscalar : ∀ t p x, leafForm h (.scalar t p) = leafForm h (.ref x) →
      strBytes h (.ref x) = none → False := by
    intro t p x hform hx
    obtain ⟨k, hk⟩ := leafForm_ref hx
    rw [hk, leafForm] at hform
    split at hform <;> cases hform
  cases v with
  | literal b => cases hno
  | scalar s p =>
    cases w with
    | literal b => cases hno'
    | scalar t q => exact (hnum s p t q rfl rfl).elim
    | ref y => exact (hscalar s p y heq hno').elim
  | ref x =>
    cases w with
    | literal b => cases hno'
    | scalar t q => exact (hscalar t q x heq.symm hno).elim
    | ref y =>
      obtain ⟨k, hk⟩ := leafForm_ref hno
      obtain ⟨k', hk'⟩ := leafForm_ref hno'
      rw [hk, hk'] at heq
      rw [(KeyForm.ref.inj heq).2]

/-- The form of a value that has bytes, or that is a number, at any depth. -/
theorem keyForm_of_no_struct {n : Nat} (hv : valueStruct cls h v = none) :
    keyForm cls h n v = leafForm h v := by
  cases n with
  | zero => rfl
  | succ n => rw [keyForm, hv]

theorem leafForm_ne_struct (h : Heap) (v : Value) (c : Nat) (fs : List KeyForm) :
    leafForm h v ≠ .struct c fs := by
  unfold leafForm
  split
  · split <;> nofun
  · nofun
  · split <;> nofun

theorem leafForm_ne_string (hno : strBytes h v = none) (b : List Nat) :
    leafForm h v ≠ .string b := by
  cases v with
  | literal b' => cases hno
  | scalar t p =>
    unfold leafForm
    dsimp only
    split <;> nofun
  | ref x =>
    obtain ⟨k, hk⟩ := leafForm_ref hno
    rw [hk]
    nofun

/-- Two rows of fields are compared one by one. -/
theorem all_zip_iff {n : Nat} {fs gs : List Value} (hlength : fs.length = gs.length)
    (ih : ∀ v w, keyeqWith cls n h v w = true ↔ keyForm cls h n v = keyForm cls h n w) :
    ((fs.zip gs).all fun e => keyeqWith cls n h e.1 e.2) = true ↔
      fs.map (keyForm cls h n) = gs.map (keyForm cls h n) := by
  rw [all_eq_true, ← forall₂_eq_eq_eq, forall₂_map_left_iff,
    forall₂_map_right_iff, forall₂_iff_zip]
  constructor
  · exact fun hall => ⟨hlength, fun hmem => (ih _ _).mp (hall _ hmem)⟩
  · exact fun hall e he => (ih _ _).mpr (hall.2 he)

theorem keyForm_string {n : Nat} {b : List Nat} (hb : strBytes h v = some b) :
    keyForm cls h n v = .string b := by
  refine (keyForm_of_no_struct ?_).trans (leafForm_string hb)
  cases hv : valueStruct cls h v with
  | none => rfl
  | some r =>
    rw [strBytes_of_valueStruct hv] at hb
    cases hb

theorem keyForm_ne_string {n : Nat} (hno : strBytes h v = none) (b : List Nat) :
    keyForm cls h n v ≠ .string b := by
  cases n with
  | zero => exact leafForm_ne_string hno b
  | succ n =>
    rw [keyForm]
    split
    · nofun
    · exact leafForm_ne_string hno b

/-- Values without bytes, not both numbers and not both structs that are looked into. -/
theorem keyForm_eq_iff {n : Nat} (hno : strBytes h v = none) (hno' : strBytes h w = none)
    (hnum : ∀ s p t q, v = .scalar s p → w = .scalar t q → False)
    (hstruct : n = 0 ∨ valueStruct cls h v = none ∨ valueStruct cls h w = none) :
    keyForm cls h n v = keyForm cls h n w ↔ v = w := by
  refine ⟨fun heq => ?_, fun heq => by rw [heq]⟩
  cases n with
  | zero => exact (leafForm_eq_iff hno hno' hnum).mp heq
  | succ n =>
    rw [keyForm, keyForm] at heq
    split at heq <;> split at heq
    · next hv _ _ _ _ _ hw => simp [hv, hw] at hstruct
    · exact absurd heq.symm (leafForm_ne_struct _ _ _ _)
    · exact absurd heq (leafForm_ne_struct _ _ _ _)
    · exact (leafForm_eq_iff hno hno' hnum).mp heq

/-- `lvrt_keyeq` on values that are not both structs that are looked into. -/
theorem keyeqWith_flat_iff {n : Nat}
    (hstruct : n = 0 ∨ valueStruct cls h v = none ∨ valueStruct cls h w = none) :
    keyeqWith cls n h v w = true ↔ keyForm cls h n v = keyForm cls h n w := by
  by_cases hnum : ∃ s p t q, v = .scalar s p ∧ w = .scalar t q
  · obtain ⟨s, p, t, q, rfl, rfl⟩ := hnum
    rw [keyeqWith, keyForm_of_no_struct rfl, keyForm_of_no_struct rfl]
    by_cases hst : s = t
    · subst hst
      by_cases hs : s = .float <;> simp [leafForm, hs]
    · have hkind : s.kind ≠ t.kind := fun heq => hst (Imm.kind_inj heq)
      by_cases hs : s = .float <;> by_cases ht : t = .float <;> simp_all [leafForm]
  have hne : ∀ s p t q, v = .scalar s p → w = .scalar t q → False :=
    fun s p t q hv hw => hnum ⟨s, p, t, q, hv, hw⟩
  rw [keyeqWith.eq_3 _ _ _ _ _ hne (by
    rintro m x rc c fs y rc' d gs rfl hv hw
    simp [hv, hw] at hstruct)]
  cases hv : strBytes h v with
  | some s =>
    rw [keyForm_string hv]
    cases hw : strBytes h w with
    | some t =>
      rw [keyForm_string hw]
      exact decide_eq_true_iff.trans ⟨congrArg _, KeyForm.string.inj⟩
    | none => exact ⟨nofun, fun heq => absurd heq.symm (keyForm_ne_string hw s)⟩
  | none =>
    cases hw : strBytes h w with
    | some t =>
      rw [keyForm_string hw]
      exact ⟨nofun, fun heq => absurd heq (keyForm_ne_string hv t)⟩
    | none => exact decide_eq_true_iff.trans (keyForm_eq_iff hv hw hne hstruct).symm

/-- **`lvrt_keyeq` compares forms.** -/
theorem keyeqWith_iff (hfilled : Filled cls h) (n : Nat) (v w : Value) :
    keyeqWith cls n h v w = true ↔ keyForm cls h n v = keyForm cls h n w := by
  induction n generalizing v w with
  | zero => exact keyeqWith_flat_iff (.inl rfl)
  | succ n ih =>
    cases hv : valueStruct cls h v with
    | none => exact keyeqWith_flat_iff (.inr (.inl hv))
    | some r =>
      cases hw : valueStruct cls h w with
      | none => exact keyeqWith_flat_iff (.inr (.inr hw))
      | some r' =>
        obtain ⟨x, rc, c, fs⟩ := r
        obtain ⟨y, rc', d, gs⟩ := r'
        obtain ⟨rfl, hx, hc⟩ := valueStruct_eq_some hv
        obtain ⟨rfl, hy, hd⟩ := valueStruct_eq_some hw
        rw [keyeqWith.eq_2 _ _ _ _ _ _ _ _ _ _ _ (fun _ _ _ _ heq _ => by cases heq) _ hv _ hw,
          strBytes_of_valueStruct hv, strBytes_of_valueStruct hw, keyForm, keyForm, hv, hw]
        dsimp only
        by_cases hcd : c = d
        · subst hcd
          have hlength := (hfilled _ _ _ _ hx hc).trans (hfilled _ _ _ _ hy hd).symm
          rw [if_pos rfl, all_zip_iff hlength ih]
          exact ⟨congrArg _, fun heq => (KeyForm.struct.inj heq).2⟩
        · rw [if_neg hcd]
          refine ⟨fun heq => ?_, fun heq => absurd (KeyForm.struct.inj heq).1 hcd⟩
          rw [of_decide_eq_true heq, hy] at hx
          cases hx
          exact absurd rfl hcd

theorem keyForm_scalar {n : Nat} {t : Imm} {q : Int} :
    keyForm cls h n (.scalar t q) = leafForm h (.scalar t q) := keyForm_of_no_struct rfl

end Native

/-! ### The interpreters -/

/-- A program in both: the classes, and where the native runtime has what an identity of the
interpreters stands for. -/
structure Program extends Classes where
  /-- the storage keys of the fields, in the order of the slots -/
  layout : Nat → List String
  /-- the class of an object -/
  classAt : Nat → Nat
  address : Nat → Nat
  nodup : ∀ k, (layout k).Nodup
  length_layout : ∀ k, (layout k).length = fieldcount k
  address_inj : Function.Injective address

namespace Program

variable (p : Program)

/-- `keyEquals`. -/
def keyEquals (a b : Interp.Value) : Bool :=
  match a, b with
  | .int i, .int j => i = j
  | .char i, .char j => i = j
  | .string s, .string t => s = t
  | .bool x, .bool y => x = y
  | .float x, .float y => Interp.lvCanon x = Interp.lvCanon y
  | .object r fs, .object r' gs =>
    if p.classAt r = p.classAt r' ∧ p.isvalueclass (p.classAt r) = true then
      fs.length = gs.length && fs.attach.all fun e =>
        match gs.find? fun g => g.1 = e.1.1 with
        | none => false
        | some g => keyEquals e.1.2 g.2
    else r = r'
  | .none, .none => true
  | .shared k r, .shared k' r' => k = k' && (k = .block || k = .ast) && r = r'
  | _, _ => false
termination_by sizeOf a
decreasing_by
  obtain ⟨⟨name, value⟩, hmem⟩ := e
  have hlt := sizeOf_lt_of_mem hmem
  simp only [Prod.mk.sizeOf_spec, Interp.Value.object.sizeOf_spec] at hlt ⊢
  omega

/-- A value of the interpreters and one of the native runtime that correspond; the structs in it
nest at most `n` deep. -/
inductive Holds (h : Heap) : Nat → Interp.Value → Value → Prop
  | void {n} : Holds h n .void (.scalar .void 0)
  | none {n} : Holds h n .none (.scalar .none 0)
  | int {n} (i : Int) : Holds h n (.int i) (.scalar .int i)
  | char {n} (i : Int) : Holds h n (.char i) (.scalar .char i)
  | bool {n} (b : Bool) : Holds h n (.bool b) (.scalar .bool b.toNat)
  | float {n} (q : Int) : Holds h n (.float (BitVec.ofInt 64 q)) (.scalar .float q)
  | string {n s v} (bytes : strBytes h v = some s) : Holds h n (.string s) v
  | shared {n what r c} (cell : h.cell (p.address r) = some c)
      (kind : c.body.kind = some what.kind) :
      Holds h n (.shared what r) (.ref (p.address r))
  | reference {n r fs rc slots} (cell : h.cell (p.address r) = some ⟨rc, .obj (p.classAt r) slots⟩)
      (value : p.isvalueclass (p.classAt r) = false) :
      Holds h n (.object r fs) (.ref (p.address r))
  | struct {n r fs x rc slots} {held : Nat → Interp.Value}
      (cell : h.cell x = some ⟨rc, .obj (p.classAt r) slots⟩)
      (value : p.isvalueclass (p.classAt r) = true)
      (names : (fs.map Prod.fst).Perm (p.layout (p.classAt r)))
      (fields : ∀ i name, (p.layout (p.classAt r))[i]? = some name → (name, held i) ∈ fs)
      (length : slots.length = p.fieldcount (p.classAt r))
      (slot : ∀ i f, slots[i]? = some f → Holds h n (held i) f) :
      Holds h (n + 1) (.object r fs) (.ref x)

/-- A value that is equal to itself as a key of the interpreters: neither it nor a field of it,
looked for through structs, is an array, a map, a closure or void. -/
inductive Keyable : Interp.Value → Prop
  | plain {a} (h : a.kind ≠ .object) (kind : a.kind ∉ [.void, .closure, .array, .map]) : Keyable a
  | object {r fs} (h : p.isvalueclass (p.classAt r) = true → ∀ e ∈ fs, Keyable e.2) :
      Keyable (.object r fs)

theorem and_exponent_eq (b : Nat) :
    b &&& 0x7FF0000000000000 = 0x7FF0000000000000 ↔ b / 2 ^ 52 % 2 ^ 11 = 2 ^ 11 - 1 := by
  have hmask : 0x7FF0000000000000 = (2 ^ 11 - 1) <<< 52 := rfl
  have hand : b &&& 0x7FF0000000000000 = (b / 2 ^ 52 % 2 ^ 11) <<< 52 := by
    rw [hmask, ← Nat.and_two_pow_sub_one_eq_mod, ← Nat.shiftRight_eq_div_pow]
    apply Nat.eq_of_testBit_eq
    intro i
    rw [Nat.testBit_and, Nat.testBit_shiftLeft, Nat.testBit_shiftLeft, Nat.testBit_and,
      Nat.testBit_shiftRight]
    by_cases hi : 52 ≤ i
    · simp [hi]
    · simp [hi]
  rw [hand, hmask, Nat.shiftLeft_eq, Nat.shiftLeft_eq]
  exact Nat.mul_left_inj (by decide)

/-- The two engines have one canonical float. -/
theorem lvCanon_toNat (q : Int) : (Interp.lvCanon (BitVec.ofInt 64 q)).toNat = canonBits q := by
  have hb : (BitVec.ofInt 64 q).toNat = (q % 2 ^ 64).toNat := BitVec.toNat_ofInt ..
  have hexp : BitVec.ofInt 64 q &&& 0x7FF0000000000000 = 0x7FF0000000000000 ↔
      (q % 2 ^ 64).toNat / 2 ^ 52 % 2 ^ 11 = 2 ^ 11 - 1 := by
    rw [← and_exponent_eq, ← hb, ← BitVec.toNat_inj]
    rfl
  have hman : BitVec.ofInt 64 q &&& 0x000FFFFFFFFFFFFF ≠ 0 ↔ (q % 2 ^ 64).toNat % 2 ^ 52 ≠ 0 := by
    rw [← Nat.and_two_pow_sub_one_eq_mod, ← hb, ne_eq, ← BitVec.toNat_inj]
    rfl
  have hzero : BitVec.ofInt 64 q <<< 1 = 0 ↔ (q % 2 ^ 64).toNat * 2 % 2 ^ 64 = 0 := by
    rw [← hb, ← BitVec.toNat_inj, BitVec.toNat_shiftLeft, Nat.shiftLeft_eq]
    rfl
  unfold Interp.lvCanon canonBits
  simp only [hexp, hman, hzero]
  split_ifs
  · rfl
  · rfl
  · exact hb
section Held

variable {p} {h : Heap}

theorem keyable_object_iff {r : Nat} :
    p.Keyable (.object r fs) ↔
      (p.isvalueclass (p.classAt r) = true → ∀ e ∈ fs, p.Keyable e.2) := by
  refine ⟨fun h => ?_, .object⟩
  cases h with
  | plain hno _ => exact absurd rfl hno
  | object hfields => exact hfields

theorem keyEquals_of_kind {a b : Interp.Value} (hkind : a.kind ≠ b.kind) :
    p.keyEquals a b = false := by
  cases a with
  | shared what r =>
    cases b with
    | shared what' r' =>
      have hne : what ≠ what' := fun heq => hkind (by rw [heq]; rfl)
      simp [keyEquals, hne]
    | _ => simp [keyEquals]
  | _ => cases b <;> first | exact absurd rfl hkind | simp [keyEquals]

/-- The forms of references. -/
theorem keyForm_ref {n x k} {c : Block Body} (cell : h.cell x = some c) (kind : c.body.kind = some k)
    (hk : k ≠ .string) (hno : c.body.isStruct p.toClasses = false) :
    keyForm p.toClasses h n (.ref x) = .ref k x := by
  rw [keyForm_of_no_struct (valueStruct_ref_eq_none cell (by rw [hno]; exact Bool.false_ne_true)),
    leafForm]
  obtain ⟨rc, body⟩ := c
  rw [cell]
  cases body with
  | str b => exact absurd (Option.some.inj kind).symm hk
  | weakProxy => cases kind
  | _ =>
    obtain rfl := Option.some.inj kind
    rfl

theorem keyForm_shared {n x} {what : Interp.Shared} {c : Block Body} (cell : h.cell x = some c)
    (kind : c.body.kind = some what.kind) :
    keyForm p.toClasses h n (.ref x) = .ref what.kind x := by
  refine keyForm_ref cell kind (by cases what <;> nofun) ?_
  obtain ⟨rc, body⟩ := c
  cases body with
  | obj k fs =>
    have hkind := Option.some.inj kind
    cases what <;> cases hkind
  | _ => rfl

theorem keyForm_struct {n x rc k slots} (cell : h.cell x = some ⟨rc, .obj k slots⟩)
    (value : p.isvalueclass k = true) :
    keyForm p.toClasses h (n + 1) (.ref x) = .struct k (slots.map (keyForm p.toClasses h n)) := by
  have hstruct : valueStruct p.toClasses h (.ref x) = some (x, rc, k, slots) := by
    rw [valueStruct, cell]
    exact if_pos value
  rw [keyForm, hstruct]

/-- The kind of a value is that of its form. -/
theorem Holds.kind_form {n N a v} (ha : p.Holds h n a v) (hn : n ≤ N) :
    (keyForm p.toClasses h N v).kind = a.kind := by
  cases ha with
  | string bytes => rw [keyForm_string bytes]; rfl
  | @shared _ what _ c cell kind =>
    rw [keyForm_shared cell kind]
    rfl
  | reference cell value =>
    rw [keyForm_ref cell rfl nofun value]
    rfl
  | struct cell value _ _ _ _ =>
    cases N with
    | zero => exact absurd hn (Nat.not_succ_le_zero _)
    | succ N =>
      rw [keyForm_struct cell value]
      rfl
  | _ => rw [keyForm_of_no_struct rfl]; rfl

/-- What a struct of the interpreters holds, slot by slot. -/
theorem forall_fields_iff {k : Nat} (names : (fs.map Prod.fst).Perm (p.layout k))
    (fields : ∀ i name, (p.layout k)[i]? = some name → (name, held i) ∈ fs)
    {P : String × Interp.Value → Prop} :
    (∀ e ∈ fs, P e) ↔ ∀ i name, (p.layout k)[i]? = some name → P (name, held i) := by
  refine ⟨fun hall i name hi => hall _ (fields i name hi), fun hall e he => ?_⟩
  obtain ⟨i, hi⟩ := mem_iff_getElem?.mp (names.mem_iff.mp (mem_map_of_mem he))
  have hmem := fields i e.1 hi
  have hnodup : (fs.map Prod.fst).Nodup := names.nodup_iff.mpr (p.nodup k)
  have heq : (e.1, held i) = e := inj_on_of_nodup_map hnodup hmem he rfl
  exact heq ▸ hall i e.1 hi

/-- A struct is searched for a field that it has. -/
theorem find?_field {k : Nat} (names : (fs.map Prod.fst).Perm (p.layout k))
    (fields : ∀ i name, (p.layout k)[i]? = some name → (name, held i) ∈ fs) {i : Nat}
    {name : String} (hi : (p.layout k)[i]? = some name) :
    fs.find? (fun g => g.1 = name) = some (name, held i) := by
  have hmem := fields i name hi
  have hnodup : (fs.map Prod.fst).Nodup := names.nodup_iff.mpr (p.nodup k)
  cases hfind : fs.find? fun g => g.1 = name with
  | none => exact absurd (by simp) (List.find?_eq_none.mp hfind _ hmem)
  | some g =>
    have hname : g.1 = name := by simpa using find?_some hfind
    exact congrArg some
      (inj_on_of_nodup_map hnodup (mem_of_find?_eq_some hfind) hmem hname)

/-- Two structs of a class are compared slot by slot. -/
theorem keyEquals_struct_iff {r r' : Nat} {gs : List (String × Interp.Value)}
    {held' : Nat → Interp.Value} (hclass : p.classAt r = p.classAt r')
    (value : p.isvalueclass (p.classAt r) = true)
    (names : (fs.map Prod.fst).Perm (p.layout (p.classAt r)))
    (names' : (gs.map Prod.fst).Perm (p.layout (p.classAt r)))
    (fields : ∀ i name, (p.layout (p.classAt r))[i]? = some name → (name, held i) ∈ fs)
    (fields' : ∀ i name, (p.layout (p.classAt r))[i]? = some name → (name, held' i) ∈ gs) :
    p.keyEquals (.object r fs) (.object r' gs) = true ↔
      ∀ i < (p.layout (p.classAt r)).length, p.keyEquals (held i) (held' i) = true := by
  have hlength : fs.length = gs.length := by
    have hl := (names.trans names'.symm).length_eq
    rwa [length_map, length_map] at hl
  rw [keyEquals, if_pos ⟨hclass, value⟩, Bool.and_eq_true, decide_eq_true_iff,
    and_iff_right hlength, all_eq_true]
  have hattach : (∀ e ∈ fs.attach, (match gs.find? fun g => g.1 = e.1.1 with
      | none => false
      | some g => p.keyEquals e.1.2 g.2) = true) ↔
      ∀ e ∈ fs, (match gs.find? fun g => g.1 = e.1 with
        | none => false
        | some g => p.keyEquals e.2 g.2) = true :=
    ⟨fun hall e he => hall ⟨e, he⟩ (mem_attach _ _), fun hall e _ => hall e.1 e.2⟩
  rw [hattach, forall_fields_iff names fields]
  constructor
  · intro hall i hi
    have hi := getElem?_eq_getElem hi
    have hi' := hall i _ hi
    rwa [find?_field names' fields' hi] at hi'
  · intro hall i name hi
    rw [find?_field names' fields' hi]
    exact hall i (List.getElem?_eq_some_iff.mp hi).1

theorem keyEquals_iff_of_kind {n m N a b v w} (ha : p.Holds h n a v) (hb : p.Holds h m b w)
    (hn : n ≤ N) (hm : m ≤ N) (hkind : a.kind ≠ b.kind) : p.keyEquals a b = true ↔
      p.Keyable a ∧ keyForm p.toClasses h N v = keyForm p.toClasses h N w := by
  rw [keyEquals_of_kind hkind]
  refine ⟨nofun, fun heq => absurd ?_ hkind⟩
  rw [← ha.kind_form hn, ← hb.kind_form hm, heq.2]

theorem keyable_plain_iff {a : Interp.Value} (hno : a.kind ≠ .object) :
    p.Keyable a ↔ a.kind ∉ [.void, .closure, .array, .map] := by
  refine ⟨fun hkey => ?_, .plain hno⟩
  cases hkey with
  | plain _ kind => exact kind
  | object _ => exact absurd rfl hno

theorem keyable_shared_iff {what : Interp.Shared} {r : Nat} :
    p.Keyable (.shared what r) ↔ what = .block ∨ what = .ast := by
  rw [keyable_plain_iff (by cases what <;> nofun)]
  cases what <;> simp [Interp.Value.kind, Interp.Shared.kind]

/-- Objects that are not two structs of one class are compared by identity. -/
theorem keyEquals_identity {r r' : Nat} {gs : List (String × Interp.Value)}
    (hno : ¬(p.classAt r = p.classAt r' ∧ p.isvalueclass (p.classAt r) = true)) :
    p.keyEquals (.object r fs) (.object r' gs) = true ↔ r = r' := by
  rw [keyEquals, if_neg hno, decide_eq_true_iff]

/-- **`keyEquals` compares forms**, of values that are keyable. -/
theorem keyEquals_iff {n m N a b v w} (ha : p.Holds h n a v) (hb : p.Holds h m b w) (hn : n ≤ N)
    (hm : m ≤ N) : p.keyEquals a b = true ↔
      p.Keyable a ∧ keyForm p.toClasses h N v = keyForm p.toClasses h N w := by
  by_cases hkind : a.kind = b.kind
  swap
  · exact keyEquals_iff_of_kind ha hb hn hm hkind
  induction ha generalizing m N b w with
  | @string _ s v bytes =>
    cases hb with
    | string bytes' =>
      rw [keyForm_string bytes, keyForm_string bytes', keyEquals, decide_eq_true_iff]
      exact ⟨fun heq => ⟨.plain nofun (by simp [Interp.Value.kind]), congrArg _ heq⟩,
        fun heq => KeyForm.string.inj heq.2⟩
    | @shared _ what => cases what <;> cases hkind
    | _ => cases hkind
  | @shared _ what r c cell kind =>
    cases hb with
    | @shared _ what' r' c' cell' kind' =>
      have hwhat : what = what' := by cases what <;> cases what' <;> first | rfl | cases hkind
      subst hwhat
      have hinj := p.address_inj.eq_iff (a := r) (b := r')
      rw [keyForm_shared cell kind, keyForm_shared cell' kind', keyEquals, keyable_shared_iff]
      simp [hinj]
    | _ => cases what <;> cases hkind
  | @reference _ r fs rc slots cell value =>
    have hkey : p.Keyable (.object r fs) := .object fun hv => by rw [value] at hv; cases hv
    rw [and_iff_right hkey, keyForm_ref cell rfl nofun value]
    cases hb with
    | @reference _ r' gs rc' slots' cell' value' =>
      rw [keyEquals_identity (by simp [value]), keyForm_ref cell' rfl nofun value']
      exact ⟨fun heq => by rw [heq], fun heq => p.address_inj (KeyForm.ref.inj heq).2⟩
    | @struct m r' gs x rc' slots' held cell' value' =>
      obtain ⟨N, rfl⟩ : ∃ N', N = N' + 1 := ⟨N - 1, by omega⟩
      rw [keyEquals_identity (by simp [value]), keyForm_struct cell' value']
      refine ⟨fun heq => ?_, nofun⟩
      rw [heq, value'] at value
      cases value
    | @shared _ what => cases what <;> cases hkind
    | _ => cases hkind
  | @struct n r fs x rc slots held cell value names fields length slot ih =>
    obtain ⟨N, rfl⟩ : ∃ N', N = N' + 1 := ⟨N - 1, by omega⟩
    rw [keyForm_struct cell value]
    cases hb with
    | @reference _ r' gs rc' slots' cell' value' =>
      have hne : p.classAt r ≠ p.classAt r' := fun heq => by
        rw [heq, value'] at value
        cases value
      rw [keyEquals_identity fun heq => hne heq.1, keyForm_ref cell' rfl nofun value']
      exact ⟨fun heq => absurd (congrArg _ heq) hne, fun heq => nomatch heq.2⟩
    | @struct m r' gs y rc' slots' held' cell' value' names' fields' length' slot' =>
      rw [keyForm_struct cell' value']
      by_cases hclass : p.classAt r = p.classAt r'
      swap
      · rw [keyEquals_identity fun heq => hclass heq.1]
        exact ⟨fun heq => absurd (congrArg _ heq) hclass,
          fun heq => absurd (KeyForm.struct.inj heq.2).1 hclass⟩
      rw [← hclass] at names' fields' length'
      have hlength : slots.length = slots'.length := length.trans length'.symm
      have hlayout : (p.layout (p.classAt r)).length = slots.length :=
        (p.length_layout _).trans length.symm
      have hfields : (∀ i < (p.layout (p.classAt r)).length, p.keyEquals (held i) (held' i) = true) ↔
          ∀ i < (p.layout (p.classAt r)).length, p.Keyable (held i) ∧
            (slots.map (keyForm p.toClasses h N))[i]? =
              (slots'.map (keyForm p.toClasses h N))[i]? := by
        refine forall₂_congr fun i hi => ?_
        obtain ⟨f, hs⟩ : ∃ f, slots[i]? = some f :=
          ⟨_, getElem?_eq_getElem (hlayout ▸ hi)⟩
        obtain ⟨g, hs'⟩ : ∃ g, slots'[i]? = some g :=
          ⟨_, getElem?_eq_getElem (hlength ▸ hlayout ▸ hi)⟩
        have hstep : p.keyEquals (held i) (held' i) = true ↔ p.Keyable (held i) ∧
            keyForm p.toClasses h N f = keyForm p.toClasses h N g := by
          by_cases hk : (held i).kind = (held' i).kind
          · exact ih i _ hs (slot' i _ hs') (Nat.le_of_succ_le_succ hn)
              (Nat.le_of_succ_le_succ hm) hk
          · exact keyEquals_iff_of_kind (slot i _ hs) (slot' i _ hs')
              (Nat.le_of_succ_le_succ hn) (Nat.le_of_succ_le_succ hm) hk
        rw [hstep, getElem?_map, getElem?_map, hs, hs', Option.map_some, Option.map_some,
          Option.some.injEq]
      have hkey : p.Keyable (.object r fs) ↔
          ∀ i < (p.layout (p.classAt r)).length, p.Keyable (held i) := by
        rw [keyable_object_iff, imp_iff_right value, forall_fields_iff names fields]
        exact ⟨fun hall i hi => hall i _ (getElem?_eq_getElem hi),
          fun hall i name hi => hall i (List.getElem?_eq_some_iff.mp hi).1⟩
      rw [keyEquals_struct_iff hclass value names names' fields fields', hfields, hkey]
      simp only [forall_and]
      refine and_congr_right fun _ => ?_
      rw [hclass, KeyForm.struct.injEq, and_iff_right rfl]
      refine ⟨fun hall => ext_getElem? fun i => ?_, fun heq i _ => by rw [heq]⟩
      by_cases hi : i < slots.length
      · exact hall i (by rw [← hclass, hlayout]; exact hi)
      · rw [getElem?_eq_none (by rw [length_map]; omega),
          getElem?_eq_none (by rw [length_map]; omega)]
    | @shared _ what => cases what <;> cases hkind
    | _ => cases hkind
  | @bool _ x =>
    cases hb with
    | bool y =>
      rw [keyable_plain_iff (by intro h; cases h)]
      cases x <;> cases y <;>
        simp [keyEquals, keyForm_scalar, leafForm, Interp.Value.kind]
    | @shared _ what => cases what <;> cases hkind
    | _ => cases hkind
  | _ =>
    cases hb with
    | @shared _ what => cases what <;> cases hkind
    | _ =>
      first
        | (cases hkind; done)
        | rw [keyable_plain_iff (by intro h; cases h)]
          simp [keyEquals, keyForm_scalar, leafForm, Interp.Value.kind, ← lvCanon_toNat,
            BitVec.toNat_inj]

/-! ### One relation -/

variable (p) in
/-- A value of both engines, with what the heap has room for nested in it. -/
def Held (h : Heap) (a : Interp.Value) (v : Value) : Prop := p.Holds h h.length a v

variable (p) in
/-- **Key equality at a value**: it is an equivalence in both engines, and the same one. -/
structure KeyRelation (h : Heap) (a : Interp.Value) (v : Value) : Prop where
  refl : p.keyEquals a a = true ∧ keyeq p.toClasses h v v = true
  symm : ∀ b w, p.Held h b w → p.keyEquals a b = p.keyEquals b a ∧
    keyeq p.toClasses h v w = keyeq p.toClasses h w v
  trans : ∀ b w c u, p.Held h b w → p.Held h c u →
    (p.keyEquals a b = true → p.keyEquals b c = true → p.keyEquals a c = true) ∧
      (keyeq p.toClasses h v w = true → keyeq p.toClasses h w u = true →
        keyeq p.toClasses h v u = true)
  agree : ∀ b w, p.Held h b w → p.keyEquals a b = keyeq p.toClasses h v w

/-- What has the form of a keyable value is keyable. -/
theorem Keyable.congr {n m N a b v w} (ha : p.Holds h n a v) (hb : p.Holds h m b w) (hn : n ≤ N)
    (hm : m ≤ N) (hform : keyForm p.toClasses h N v = keyForm p.toClasses h N w)
    (hkey : p.Keyable a) : p.Keyable b := by
  have hkind : a.kind = b.kind := by rw [← ha.kind_form hn, ← hb.kind_form hm, hform]
  by_cases hobj : a.kind = .object
  swap
  · rw [keyable_plain_iff hobj] at hkey
    rwa [keyable_plain_iff (hkind ▸ hobj), ← hkind]
  induction hb generalizing n N a v with
  | reference cell value => exact .object fun hv => by rw [value] at hv; cases hv
  | @struct m r' gs y rc' slots' held' cell' value' names' fields' length' slot' ih =>
    obtain ⟨N, rfl⟩ : ∃ N', N = N' + 1 := ⟨N - 1, by omega⟩
    rw [keyForm_struct cell' value'] at hform
    cases ha with
    | reference cell value =>
      rw [keyForm_ref cell rfl nofun value] at hform
      cases hform
    | @struct n r fs x rc slots held cell value names fields length slot =>
      rw [keyForm_struct cell value] at hform
      obtain ⟨hclass, hslots⟩ := KeyForm.struct.inj hform
      rw [keyable_object_iff, imp_iff_right value, forall_fields_iff names fields] at hkey
      refine .object fun _ => (forall_fields_iff names' fields').mpr fun i name hi => ?_
      have hlength : slots.length = slots'.length := by
        have hl := congrArg List.length hslots
        rwa [length_map, length_map] at hl
      have hlt : i < slots'.length := by
        rw [length', ← p.length_layout]
        exact (List.getElem?_eq_some_iff.mp hi).1
      obtain ⟨f, hs⟩ : ∃ f, slots[i]? = some f := ⟨_, getElem?_eq_getElem (hlength ▸ hlt)⟩
      obtain ⟨g, hs'⟩ : ∃ g, slots'[i]? = some g := ⟨_, getElem?_eq_getElem hlt⟩
      have hfield : keyForm p.toClasses h N f = keyForm p.toClasses h N g := by
        have hi := congrArg (fun l => l[i]?) hslots
        simpa only [getElem?_map, hs, hs', Option.map_some, Option.some.injEq] using hi
      rw [← hclass] at hi
      have hkey := hkey i name hi
      have hk : (held i).kind = (held' i).kind := by
        rw [← (slot i f hs).kind_form (Nat.le_of_succ_le_succ hn),
          ← (slot' i g hs').kind_form (Nat.le_of_succ_le_succ hm), hfield]
      by_cases ho : (held i).kind = .object
      · exact ih i g hs' (slot i f hs) (Nat.le_of_succ_le_succ hn) (Nat.le_of_succ_le_succ hm)
          hfield hkey hk ho
      · rw [keyable_plain_iff ho] at hkey
        rwa [keyable_plain_iff (hk ▸ ho), ← hk]
    | @shared _ what => cases what <;> cases hobj
    | _ => cases hobj
  | @shared _ what => cases what <;> cases hkind.symm.trans hobj
  | _ => cases hkind.symm.trans hobj

/-- **Map keys.**  Key equality is one equivalence at a value exactly if the value is keyable. -/
theorem keyRelation_iff {a v} (hfilled : Filled p.toClasses h) (ha : p.Held h a v) :
    p.KeyRelation h a v ↔ p.Keyable a := by
  have hdeep : h.length ≤ h.length + 1 := Nat.le_succ _
  have hinterp : ∀ {b w c u}, p.Held h b w → p.Held h c u → (p.keyEquals b c = true ↔ p.Keyable b ∧
      keyForm p.toClasses h (h.length + 1) w = keyForm p.toClasses h (h.length + 1) u) :=
    fun hb hc => keyEquals_iff hb hc hdeep hdeep
  have hnative : ∀ w u, keyeq p.toClasses h w u = true ↔
      keyForm p.toClasses h (h.length + 1) w = keyForm p.toClasses h (h.length + 1) u :=
    keyeqWith_iff hfilled _
  refine ⟨fun hrel => ((hinterp ha ha).mp hrel.refl.1).1, fun hkey => ?_⟩
  refine ⟨⟨(hinterp ha ha).mpr ⟨hkey, rfl⟩, (hnative v v).mpr rfl⟩, fun b w hb => ⟨?_, ?_⟩,
    fun b w c u hb hc => ⟨fun hab hbc => ?_, fun hvw hwu => ?_⟩, fun b w hb => ?_⟩
  · rw [Bool.eq_iff_iff, hinterp ha hb, hinterp hb ha, and_iff_right hkey]
    exact ⟨fun hform => ⟨hkey.congr ha hb hdeep hdeep hform, hform.symm⟩, fun hform => hform.2.symm⟩
  · rw [Bool.eq_iff_iff, hnative, hnative, eq_comm]
  · rw [hinterp ha hc]
    exact ⟨hkey, ((hinterp ha hb).mp hab).2.trans ((hinterp hb hc).mp hbc).2⟩
  · exact (hnative v u).mpr (((hnative v w).mp hvw).trans ((hnative w u).mp hwu))
  · rw [Bool.eq_iff_iff, hinterp ha hb, hnative, and_iff_right hkey]

end Held

end Program

/-! ### A list and a reading -/

/-- A struct with a number and a name. -/
def readings : Program where
  isvalueclass k := k = 0
  fieldcount _ := 2
  columnar := false
  colEligible _ := false
  layout _ := ["value", "name"]
  classAt r := r
  address r := r
  nodup _ := by decide
  length_layout _ := rfl
  address_inj _ _ h := h

/-- A reading that is not a number, and a list. -/
def readingHeap : Heap :=
  [some ⟨0, .obj 0 [.scalar .float (-1), .literal [120]]⟩, some ⟨1, .arr 0 []⟩]

theorem filled_readingHeap : Filled readings.toClasses readingHeap := by
  intro x rc k fields hx hk
  match x with
  | 0 => cases hx; rfl
  | 1 => cases hx
  | x + 2 => cases hx

theorem keyRelation_reading : readings.KeyRelation readingHeap
    (.object 0 [("name", .string [120]), ("value", .float (-1))]) (.ref 0) := by
  refine (Program.keyRelation_iff filled_readingHeap ?_).mpr (.object fun _ e he => ?_)
  · refine @Program.Holds.struct _ _ 1 0 _ 0 0 [.scalar .float (-1), .literal [120]]
      (fun i => if i = 0 then .float (-1) else .string [120]) rfl rfl (.swap ..) ?_ rfl ?_
    · intro i name hi
      match i with
      | 0 => cases hi; simp
      | 1 => cases hi; simp
    · intro i f hi
      match i with
      | 0 => cases hi; exact .float (-1)
      | 1 => cases hi; exact .string rfl
  · simp only [mem_cons, not_mem_nil, or_false] at he
    rcases he with rfl | rfl <;> exact .plain nofun (by simp [Interp.Value.kind])

/-- **A list** is a key of the native runtime only. -/
theorem not_keyRelation_list : readings.Held readingHeap (.shared .array 1) (.ref 1) ∧
    readings.keyEquals (.shared .array 1) (.shared .array 1) = false ∧
    keyeq readings.toClasses readingHeap (.ref 1) (.ref 1) = true ∧
    ¬readings.KeyRelation readingHeap (.shared .array 1) (.ref 1) := by
  have hinterp : readings.keyEquals (.shared .array 1) (.shared .array 1) = false := by
    simp [Program.keyEquals]
  refine ⟨.shared (r := 1) (c := ⟨1, .arr 0 []⟩) rfl rfl, hinterp,
    (keyeqWith_iff filled_readingHeap _ _ _).mpr rfl, fun hrel => ?_⟩
  exact Bool.false_ne_true (hinterp.symm.trans hrel.refl.1)

end Containers

end Leviathan.Runtime
