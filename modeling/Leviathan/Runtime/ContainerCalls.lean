import Leviathan.Runtime.ContainerAccounts

/-!
# Which calls on containers keep the account

For each operation, the operands it is called with (`…Fits`), the condition under which it keeps
the account of owners (`…Safe`), and the lemma that says so.  The conditions leave out the
calls that put a record with references into a packed buffer, that copy the slots of a shared
array or map bit by bit although they hold value structs, and that store a value struct as a
key.
-/

variable {k : Nat} {entries : List (Value × Value)} {elems : List Value}

namespace Leviathan.Runtime.Containers

open Leviathan.Owners List

variable {cls : Classes}

/-- A record of `fieldCount` fields can be read from the value. -/
def RecordFits (h : Heap) (fieldCount : Nat) (val : Value) : Prop :=
  (readRecord h fieldCount val).isSome = true

/-- The record that is read from the value has no references. -/
def RecordSafe (h : Heap) (fieldCount : Nat) (val : Value) : Prop :=
  ∀ r, readRecord h fieldCount val = some r → FlatFields r.2

variable (cls) in
/-- The base is an array; a packed one takes a record. -/
def AppendFits (h : Heap) (base val : Value) : Prop :=
  ∃ x c, base = .ref x ∧ h.cell x = some c ∧
    match c.body with
    | .columnar k _ => RecordFits h (cls.fieldcount k) val
    | .dense f _ => RecordFits h f val
    | .arr _ _ => True
    | _ => False

variable (cls) in
/-- What goes into a packed buffer has no references. -/
def AppendSafe (h : Heap) (base val : Value) : Prop :=
  ∀ x c, base = .ref x → h.cell x = some c →
    match c.body with
    | .columnar k _ => RecordSafe h (cls.fieldcount k) val
    | .dense f _ => RecordSafe h f val
    | _ => True

variable (cls) in
/-- A value struct that fills an array has no references. -/
def FillSafe (h : Heap) (n : Int) (fill : Value) : Prop :=
  0 < n → ∀ x rc k fields, valueStruct cls h fill = some (x, rc, k, fields) → FlatFields fields

variable (cls) in
/-- A key that is stored is no value struct. -/
def MapSafe (h : Heap) (base idx : Value) : Prop :=
  ∀ x rc entries, base = .ref x → h.cell x = some ⟨rc, .map entries⟩ →
    (rc = 1 ∧ (findKey cls h entries idx).isSome = true) ∨ valueStruct cls h idx = none

/-- The base is a map. -/
def MapFits (h : Heap) (base : Value) : Prop :=
  ∃ x rc entries, base = .ref x ∧ h.cell x = some ⟨rc, .map entries⟩

variable (cls) in
/-- The base is an array or a map; a packed array takes a record. -/
def IndexFits (h : Heap) (base idx val : Value) : Prop :=
  ∃ x c, base = .ref x ∧ h.cell x = some c ∧
    match c.body with
    | .columnar k rows =>
      inRange idx.index rows.length = true → RecordFits h (cls.fieldcount k) val
    | .dense f records => inRange idx.index records.length = true → RecordFits h f val
    | .arr _ _ => True
    | .map _ => True
    | _ => False

variable (cls) in
/-- What goes into a packed buffer has no references, the slots that are copied from a shared
array are no value structs, and neither is a key that is stored. -/
def IndexSafe (h : Heap) (base idx val : Value) : Prop :=
  ∀ x c, base = .ref x → h.cell x = some c →
    match c.body with
    | .columnar k rows =>
      inRange idx.index rows.length = true → RecordSafe h (cls.fieldcount k) val
    | .dense f records => inRange idx.index records.length = true → RecordSafe h f val
    | .arr _ elems => c.rc ≠ 1 → ∀ i v, elems[i]? = some v → idx.index ≠ some i →
        valueStruct cls h v = none
    | .map _ => MapSafe cls h base idx
    | _ => True

section Packed

variable {h : Heap} {O : List Nat} {x rc : Nat} {val : Value}

theorem flat_dense {f : Nat} {records : List (Nat × List Value)} {r : Nat × List Value}
    (hrs : (Body.dense f records).Flat) (hr : FlatFields r.2) :
    (Body.dense f (records ++ [r])).Flat := by
  intro r' hr'
  obtain hmem | hmem := List.mem_append.mp hr'
  · exact hrs r' hmem
  · rw [List.mem_singleton.mp hmem]
    exact hr

theorem flat_columnar {rows : List (List Word)} {fields : List Value}
    (hrows : (Body.columnar k rows).Flat) (hf : FlatFields fields) :
    (Body.columnar k (rows ++ [fields.map Value.word])).Flat := by
  intro row hrow
  obtain hmem | hmem := List.mem_append.mp hrow
  · exact hrows row hmem
  · rw [List.mem_singleton.mp hmem]
    exact words_of_flat hf

/-- A new packed buffer. -/
theorem Kept.allocPacked (hk : Kept cls slots h O) {b : Body} (hslots : b.slots = [])
    (hb : ¬ b.isStruct cls = true) (hflat : b.Flat) (hkeys : KeysTidy cls h b) (n : Nat) :
    Kept cls slots (h.alloc ⟨n, b⟩) (List.replicate n h.length ++ O) :=
  Kept.alloc (by rw [hslots]; exact hk) hb hflat hkeys

/-- A new packed buffer is another block than the base. -/
theorem Kept.allocBeside (hk : Kept cls slots h (x :: O)) {b : Body} (hslots : b.slots = [])
    (hb : ¬ b.isStruct cls = true) (hflat : b.Flat) (hkeys : KeysTidy cls h b) :
    Kept cls slots (h.alloc ⟨1, b⟩) ((Value.ref h.length).ids ++
      if taken (h.alloc ⟨1, b⟩) (.ref x) (.ref h.length) then O else x :: O) := by
  have hk' := hk.allocPacked hslots hb hflat hkeys 1
  obtain ⟨c, hc⟩ := hk.balanced.live_of_mem mem_cons_self
  have hlt := Store.lt_of_cell hc
  have hlive := hk'.balanced.live_of_mem (mem_cons_of_mem _ mem_cons_self)
  rw [if_neg (by rw [taken_eq_false hlive (by simp; omega)]; exact Bool.false_ne_true)]
  exact hk'

/-- **`lvrt_arr_append`** keeps the account. -/
theorem arrAppend_kept (hk : Kept cls slots h (x :: O)) (hval : ∀ y ∈ val.ids, y ∈ O)
    (hfits : AppendFits cls h (.ref x) val) (hsafe : AppendSafe cls h (.ref x) val) :
    ∃ h' out, arrAppend cls h (.ref x) val = some (h', out) ∧
      Kept cls slots h' (out.ids ++ if taken h' (.ref x) out then O else x :: O) := by
  obtain ⟨_, ⟨rc, body⟩, heq, hx, hfits⟩ := hfits
  cases heq
  have hsafe := hsafe x _ rfl hx
  have hflat := hk.flat x _ hx
  cases body with
  | columnar k rows =>
    obtain ⟨r, hr⟩ := Option.isSome_iff_exists.mp hfits
    refine ⟨_, _, by simp only [arrAppend, hx, hr]; rfl, ?_⟩
    exact hk.allocBeside rfl (by simp [Body.isStruct]) (flat_columnar hflat (hsafe r hr)) trivial
  | dense f records =>
    obtain ⟨r, hr⟩ := Option.isSome_iff_exists.mp hfits
    refine ⟨_, _, by simp only [arrAppend, hx, hr]; rfl, ?_⟩
    exact hk.allocBeside rfl (by simp [Body.isStruct]) (flat_dense hflat (hsafe r hr)) trivial
  | arr capacity elems =>
    obtain ⟨h', out, hboxed, hk'⟩ := arrBoxedAppend_kept hk hx hval
    cases hv : valueStruct cls h val with
    | none => exact ⟨h', out, by simp only [arrAppend, hx, hv, hboxed], hk'⟩
    | some r =>
      obtain ⟨y, rc', k, fields⟩ := r
      by_cases hflip : elems = [] ∧ structHasHeapField fields = false
      · -- the first record chooses the layout
        have hfields := flat_of_structHasHeapField hflip.2
        by_cases hcol : (cls.columnar && cls.colEligible k) = true
        · refine ⟨_, _, by simp only [arrAppend, hx, hv, if_pos hflip, if_pos hcol]; rfl, ?_⟩
          refine hk.allocBeside rfl (by simp [Body.isStruct]) ?_ trivial
          intro row hrow
          rw [List.mem_singleton.mp hrow]
          exact words_of_flat hfields
        · refine ⟨_, _, by simp only [arrAppend, hx, hv, if_pos hflip, if_neg hcol]; rfl, ?_⟩
          refine hk.allocBeside rfl (by simp [Body.isStruct]) ?_ trivial
          intro r hr
          rw [List.mem_singleton.mp hr]
          exact hfields
      · exact ⟨h', out, by simp only [arrAppend, hx, hv, if_neg hflip, hboxed], hk'⟩
  | _ => exact hfits.elim

/-- A counted value retained many times. -/
theorem Kept.retainMany (hk : Kept cls slots h O) (hl : Live h val)
    (hv : valueStruct cls h val = none) (n : Nat) :
    Kept cls slots ((fun h => Containers.retain cls h val)^[n] h)
        ((List.replicate n val).flatMap Value.ids ++ O) ∧
      Grows h ((fun h => Containers.retain cls h val)^[n] h) := by
  induction n with
  | zero => exact ⟨hk, Grows.refl h⟩
  | succ n ih =>
    obtain ⟨hk', hg⟩ := ih
    rw [Function.iterate_succ_apply']
    have hl' := hl.grows hg
    have hv' := valueStruct_grows_none hg hl hv
    obtain ⟨hk'', hg'⟩ := hk'.retain hl' hv'
    refine ⟨?_, hg.trans hg'⟩
    rw [replicate_succ, flatMap_cons, append_assoc]
    exact hk''

/-- **`lvrt_arr_fill`** keeps the account. -/
theorem arrFill_kept {n : Int} (hk : Kept cls slots h O) (hval : ∀ y ∈ val.ids, y ∈ O)
    (hsafe : FillSafe cls h n val) :
    Kept cls slots (arrFill cls h n val).1 ((arrFill cls h n val).2.ids ++ O) := by
  unfold arrFill
  split
  · exact hk.allocPacked (b := .arr 0 []) rfl (by simp [Body.isStruct]) trivial trivial 1
  · next hn =>
      split
      · next y rc k fields hv =>
          have hfields := hsafe (by omega) y rc k fields hv
          split
          · refine hk.allocPacked
              (b := .columnar k (List.replicate n.toNat (fields.map Value.word))) rfl
              (by simp [Body.isStruct]) ?_ trivial 1
            intro row hrow
            rw [eq_of_mem_replicate hrow]
            exact words_of_flat hfields
          · refine hk.allocPacked
              (b := .dense (cls.fieldcount k) (List.replicate n.toNat (k, fields))) rfl
              (by simp [Body.isStruct]) ?_ trivial 1
            intro r hr
            rw [eq_of_mem_replicate hr]
            exact hfields
      · next hv =>
          obtain ⟨hk', _⟩ := hk.retainMany (hk.live hval) hv n.toNat
          exact Kept.alloc (n := 1) (by rw [slots_arr]; exact hk') (by simp [Body.isStruct])
            trivial trivial

end Packed

/-! ### Results without a handle -/

variable (cls) in
/-- A block that is there after an operation was there before, and was a value struct if it is
one. -/
structure KeepsKinds (h h' : Heap) : Prop where
  length : h.length ≤ h'.length
  old : ∀ z c', z < h.length → h'.cell z = some c' →
    ∃ c, h.cell z = some c ∧ c'.body.isStruct cls = c.body.isStruct cls

section Kinds

variable {h h' h'' : Heap} {x : Nat} {c : Block Body} {b : Body}

theorem KeepsKinds.trans (h₁ : KeepsKinds cls h h') (h₂ : KeepsKinds cls h' h'') :
    KeepsKinds cls h h'' := by
  refine ⟨le_trans h₁.length h₂.length, fun z c hz hc => ?_⟩
  obtain ⟨d, hd, hcd⟩ := h₂.old z c (lt_of_lt_of_le hz h₁.length) hc
  obtain ⟨e, he, hde⟩ := h₁.old z d hz hd
  exact ⟨e, he, hcd.trans hde⟩

theorem keepsKinds_grows (hg : Grows h h') : KeepsKinds cls h h' := by
  refine ⟨hg.length, fun z c hz hc => ?_⟩
  obtain ⟨d, hd, hbody⟩ := hg.old z c hz hc
  exact ⟨d, hd, by rw [hbody]⟩

theorem keepsKinds_shrinks (hs : Shrinks h h') : KeepsKinds cls h h' := by
  refine ⟨le_of_eq hs.length.symm, fun z c _ hc => ?_⟩
  obtain ⟨d, hd, hbody⟩ := hs.old z c hc
  exact ⟨d, hd, by rw [hbody]⟩

theorem keepsKinds_put (hx : h.cell x = some c) (hc : ¬ c.body.isStruct cls = true)
    (hb : ¬ b.isStruct cls = true) (n : Nat) : KeepsKinds cls h (h.put x ⟨n, b⟩) := by
  refine ⟨le_of_eq Store.length_put.symm, fun z d _ hd => ?_⟩
  rw [Store.cell_put (Store.lt_of_cell hx)] at hd
  split at hd
  · next hzx =>
      subst hzx
      cases hd
      exact ⟨c, hx, by rw [Bool.eq_false_iff.mpr hb, Bool.eq_false_iff.mpr hc]⟩
  · exact ⟨d, hd, rfl⟩

theorem KeepsKinds.valueStruct_ne_none {v : Value} (hk : KeepsKinds cls h h')
    (hv : valueStruct cls h v ≠ none) (hl : Live h' v) : valueStruct cls h' v ≠ none := by
  obtain ⟨⟨y, rc, k, fields⟩, hsome⟩ := Option.ne_none_iff_exists'.mp hv
  obtain ⟨rfl, hcell, hclass⟩ := valueStruct_eq_some hsome
  obtain ⟨d, hd⟩ := hl y (List.mem_singleton.mpr rfl)
  obtain ⟨e, he, hkind⟩ := hk.old y d (Store.lt_of_cell hcell) hd
  rw [hcell] at he
  cases he
  obtain ⟨_, _, _, hsome'⟩ := valueStruct_ref hd (hkind.trans hclass)
  rw [hsome']
  simp

theorem KeepsKinds.valueStruct_eq_none {v : Value} (hk : KeepsKinds cls h h')
    (hv : valueStruct cls h v = none) (hl : Live h v) : valueStruct cls h' v = none := by
  refine Option.eq_none_iff_forall_ne_some.mpr fun r hsome => ?_
  obtain ⟨y, rc, k, fields⟩ := r
  obtain ⟨rfl, hcell, hclass⟩ := valueStruct_eq_some hsome
  obtain ⟨d, hd⟩ := hl y (List.mem_singleton.mpr rfl)
  obtain ⟨e, he, hkind⟩ := hk.old y _ (Store.lt_of_cell hd) hcell
  obtain ⟨_, _, _, hsome'⟩ := valueStruct_ref he (hkind.symm.trans hclass)
  rw [hv] at hsome'
  cases hsome'

end Kinds

variable (cls) in
/-- An operation on the base `x` returned the block `y`, for which there is no handle yet. -/
structure Stored (h h' : Heap) (x y : Nat) (O : List Nat) : Prop where
  kept : Kept cls slots h' (x :: O)
  cell : ∃ c, h'.cell y = some c ∧ ¬ c.body.isStruct cls = true ∧ (y = x ∨ c.rc = 0)
  kinds : KeepsKinds cls h h'

/-- A new container without a handle. -/
theorem stored_alloc {h h' : Heap} {x : Nat} {O : List Nat} {b : Body}
    (hk : Kept cls slots h' (b.slots ++ (x :: O))) (hb : ¬ b.isStruct cls = true)
    (hflat : b.Flat) (hkeys : KeysTidy cls h' b) (hkinds : KeepsKinds cls h h') :
    Stored cls h (h'.alloc ⟨0, b⟩) x h'.length O := by
  refine ⟨Kept.alloc (n := 0) hk hb hflat hkeys, ⟨⟨0, b⟩, ?_, hb, Or.inr rfl⟩,
    hkinds.trans (keepsKinds_grows (Grows.alloc h' _))⟩
  rw [Store.cell_alloc, if_pos rfl]

/-- A container that was written in place. -/
theorem stored_put {h h' : Heap} {x : Nat} {O : List Nat} {c : Block Body} {b : Body}
    (hk : Kept cls slots (h'.put x ⟨c.rc, b⟩) (x :: O)) (hx : h'.cell x = some c)
    (hc : ¬ c.body.isStruct cls = true) (hb : ¬ b.isStruct cls = true)
    (hkinds : KeepsKinds cls h h') : Stored cls h (h'.put x ⟨c.rc, b⟩) x x O := by
  refine ⟨hk, ⟨⟨c.rc, b⟩, ?_, hb, Or.inl rfl⟩, hkinds.trans (keepsKinds_put hx hc hb c.rc)⟩
  rw [Store.cell_put (Store.lt_of_cell hx), if_pos rfl]

/-! ### Maps -/

theorem entryIds_set (hk : k < entries.length) (key v : Value) :
    (entryIds (entries.set k (key, v))).Perm
      (entryIds (entries.set k (key, .void)) ++ v.ids) := by
  rw [set_eq_take_append_cons_drop, set_eq_take_append_cons_drop, if_pos hk, if_pos hk]
  simp only [entryIds, flatMap_append, flatMap_cons, Value.void, Value.ids,
    append_nil, append_assoc]
  refine List.Perm.append_left _ (List.Perm.append_left _ ?_)
  exact perm_append_comm

theorem elemIds_set {i : Nat} (hi : i < elems.length) (v : Value) :
    ((elems.set i v).flatMap Value.ids).Perm
      ((elems.set i .void).flatMap Value.ids ++ v.ids) := by
  rw [set_eq_take_append_cons_drop, set_eq_take_append_cons_drop, if_pos hi, if_pos hi]
  simp only [flatMap_append, flatMap_cons, Value.void, Value.ids, nil_append,
    append_assoc]
  exact List.Perm.append_left _ perm_append_comm

/-- The account with other slots for the block at `x`. -/
def patch (x : Nat) (ids : List Nat) : Nat → Body → List Nat :=
  fun z b => if z = x then ids else b.slots

theorem patch_self (x : Nat) (ids : List Nat) (b : Body) : patch x ids x b = ids := if_pos rfl

theorem patch_of_ne {x z : Nat} (ids : List Nat) (hz : z ≠ x) : patch x ids z = Body.slots :=
  funext fun _ => if_neg hz

/-- The reference to a value leaves the account of the container that holds it. -/
theorem Kept.takeOut {h : Heap} {O kept : List Nat} {x : Nat} {c : Block Body} {old : Value}
    (hk : Kept cls slots h (x :: O)) (hx : h.cell x = some c) (hno : ¬ c.body.isStruct cls = true)
    (hperm : c.body.slots.Perm (kept ++ old.ids)) :
    Kept cls (patch x kept) h (old.ids ++ (x :: O)) ∧
      ∀ z, patch x kept z = Body.slots ∨ z ∈ x :: O := by
  refine ⟨Kept.reaccount (A := []) hk hx hno (fun z hz => patch_of_ne kept hz) ?_, fun z => ?_⟩
  · rw [patch_self, slots, append_nil]
    exact hperm
  · by_cases hz : z = x
    · rw [hz]
      exact Or.inr mem_cons_self
    · exact Or.inl (patch_of_ne kept hz)

theorem release_of_giveUp {h h₁ : Heap} {val : Value}
    (hgive : giveUp cls (recursiveFree cls (h.length + 1)) h (val, false) = some h₁) :
    release cls h val = some h₁ := by
  rw [giveUp] at hgive
  obtain ⟨h', hr, heq⟩ := Option.bind_eq_some_iff.mp hgive
  cases heq
  exact hr

section Maps

variable {h : Heap} {O : List Nat} {x rc : Nat} {idx val : Value}

/-- **`lvrt_release` and then `lvrt_vfree`** settle a value. -/
theorem Kept.releaseVfree {out : Nat → Body → List Nat} (hk : Kept cls out h (val.ids ++ O))
    (hguard : ∀ z, out z = Body.slots ∨ z ∈ O) :
    ∃ h₁ h₂, release cls h val = some h₁ ∧ vfree cls h₁ val = some h₂ ∧ Kept cls out h₂ O ∧
      Shrinks h h₂ ∧ ∀ z, owners out h (val.ids ++ O) z = 0 → h₂.cell z = h.cell z := by
  obtain ⟨h₁, hrelease, _, hs₁, _⟩ := hk.giveUp hguard false
  obtain ⟨h₂, hboth, hk₂, hs₂, hunowned⟩ := hk.giveUp hguard true
  have hfirst : release cls h val = some h₁ := release_of_giveUp hrelease
  refine ⟨h₁, h₂, hfirst, ?_, hk₂, hs₂, hunowned⟩
  rw [Containers.giveUp] at hboth
  obtain ⟨h', hr, hv⟩ := Option.bind_eq_some_iff.mp hboth
  rw [release] at hfirst
  rw [hfirst] at hr
  cases hr
  rw [vfree, hs₁.length]
  exact hv

theorem lt_of_findKey (hfind : findKey cls h entries idx = some k) : k < entries.length := by
  obtain ⟨hlt, _⟩ := List.findIdx?_eq_some_iff_getElem.mp hfind
  exact hlt

theorem mem_upsertEntries {found : Option Nat} {e : Value × Value}
    (he : e ∈ upsertEntries entries found idx val) :
    e ∈ entries ∨ e = (idx, val) := by
  unfold upsertEntries at he
  split at he
  · exact mem_or_eq_of_mem_set he
  · obtain hmem | hmem := List.mem_append.mp he
    · exact Or.inl hmem
    · exact Or.inr (List.mem_singleton.mp hmem)

section
variable (hk : Kept cls slots h (x :: O))
include hk

/-- The old value of an entry is given up, and the new one stored in its place. -/
theorem mapUpsert_found (hx : h.cell x = some ⟨1, .map entries⟩)
    (hfind : findKey cls h entries idx = some k) (hval : ∀ y ∈ val.ids, y ∈ O) :
    ∃ h', mapUpsert cls h x 1 entries idx val = some (h', .ref x) ∧ Stored cls h h' x x O := by
  have hlt := lt_of_findKey hfind
  obtain ⟨key, old, hentry⟩ : ∃ key old, entries[k]? = some (key, old) :=
    ⟨entries[k].1, entries[k].2, getElem?_eq_getElem hlt⟩
  have hno : ∀ es, ¬ (Body.map es).isStruct cls = true := fun es => by simp [Body.isStruct]
  let kept : List Nat := entryIds (entries.set k (key, .void))
  have hperm := entryIds_set hlt key old
  rw [show entries.set k (key, old) = entries by
    rw [← (List.getElem?_eq_some_iff.mp hentry).2, set_getElem_self]] at hperm
  obtain ⟨hpatched, hguard⟩ := hk.takeOut hx (hno entries) (by rw [slots_map]; exact hperm)
  obtain ⟨h₁, h₂, hrelease, hvfree, hk₂, hs, _⟩ := hpatched.releaseVfree hguard
  obtain ⟨h₃, v', hstore, hk₃, hg⟩ := hk₂.storeOwned
    (hk₂.live fun y hy => mem_cons_of_mem x (hval y hy))
  obtain ⟨c₂, hc₂⟩ := hk₂.balanced.live_of_mem mem_cons_self
  obtain ⟨c₀, hc₀, hbody₂⟩ := hs.old x c₂ hc₂
  rw [hx] at hc₀
  cases hc₀
  obtain ⟨c, hc, hbody⟩ := hg.kept x c₂ hc₂
  rw [hbody₂] at hbody
  have hkeys : KeysTidy cls h₃ (.map (entries.set k (key, v'))) := by
    have hold := hk₃.keys x c hc
    rw [hbody] at hold
    intro e he
    obtain hmem | heq := mem_or_eq_of_mem_set he
    · exact hold e hmem
    · rw [heq]
      exact hold (key, old) (mem_of_getElem? hentry)
  have hback : (patch x kept x c.body ++ v'.ids).Perm
      (slots x (.map (entries.set k (key, v'))) ++ []) := by
    rw [patch_self, slots, slots_map, append_nil]
    exact (entryIds_set hlt key v').symm
  have hstored := hk₃.rewrite hc (by rw [hbody]; exact hno entries)
    (hno (entries.set k (key, v'))) trivial hkeys (fun z hz => (patch_of_ne kept hz).symm) hback
  refine ⟨_, ?_, stored_put hstored hc (by rw [hbody]; exact hno entries) (hno _)
    ((keepsKinds_shrinks hs).trans (keepsKinds_grows hg))⟩
  simp only [mapUpsert, hfind, hentry, hrelease, Option.bind_some, hvfree, hstore,
    Option.map_some, store, hc]

/-- A fresh map with the entry. -/
theorem mapUpsert_fresh (hx : h.cell x = some ⟨rc, .map entries⟩) (found : Option Nat)
    (hidx : Live h idx) (hno : valueStruct cls h idx = none) (hval : ∀ y ∈ val.ids, y ∈ O) :
    ∃ h' y, (storeEntries cls h (upsertEntries entries found idx val)).map
        (fun r => halloc r.1 0 (.map r.2)) = some (h', .ref y) ∧ Stored cls h h' x y O := by
  have hentries : ∀ e ∈ upsertEntries entries found idx val,
      Live h e.1 ∧ Unstructured cls h e.1 ∧ Live h e.2 := by
    intro e he
    obtain hmem | rfl := mem_upsertEntries he
    · have hlive : ∀ v, (∀ y ∈ v.ids, y ∈ e.1.ids ++ e.2.ids) → Live h v := by
        intro v hv
        refine hk.live_of_slot hx fun y hy => ?_
        rw [slots_map]
        exact List.mem_flatMap.mpr ⟨e, hmem, hv y hy⟩
      exact ⟨hlive e.1 fun y hy => mem_append_left _ hy, hk.keys x _ hx e hmem,
        hlive e.2 fun y hy => mem_append_right _ hy⟩
    · exact ⟨hidx, Unstructured.of_live hidx hno,
        hk.live fun y hy => mem_cons_of_mem x (hval y hy)⟩
  obtain ⟨h₁, es', hstore, hk₁, hg, hkeys⟩ := hk.storeEntries _ hentries
  have hkeys' : KeysTidy cls h₁ (.map es') := by
    intro e' he'
    obtain ⟨e, he, heq⟩ := hkeys e' he'
    rw [heq]
    exact (hentries e he).2.1.grows hg
  refine ⟨_, h₁.length, by rw [hstore]; rfl, stored_alloc (b := .map es') ?_
    (by simp [Body.isStruct]) trivial hkeys' (keepsKinds_grows hg)⟩
  rw [slots_map]
  exact hk₁

/-- **`lv_map_upsert`** keeps the account; its result has no handle yet. -/
theorem mapUpsert_kept (hx : h.cell x = some ⟨rc, .map entries⟩) (hidx : Live h idx)
    (hval : ∀ y ∈ val.ids, y ∈ O) (hsafe : MapSafe cls h (.ref x) idx) :
    ∃ h' y, mapUpsert cls h x rc entries idx val = some (h', .ref y) ∧
      Stored cls h h' x y O := by
  have hsafe := hsafe x rc entries rfl hx
  by_cases hfound : rc = 1 ∧ (findKey cls h entries idx).isSome = true
  · obtain ⟨rfl, hsome⟩ := hfound
    obtain ⟨k, hfind⟩ := Option.isSome_iff_exists.mp hsome
    obtain ⟨h', hrun, hstored⟩ := mapUpsert_found hk hx hfind hval
    exact ⟨h', x, hrun, hstored⟩
  · obtain hbad | hno := hsafe
    · exact absurd hbad hfound
    · obtain ⟨h', y, hrun, hstored⟩ :=
        mapUpsert_fresh hk hx (findKey cls h entries idx) hidx hno hval
      refine ⟨h', y, ?_, hstored⟩
      unfold mapUpsert
      split
      · next k hfind =>
          exact absurd ⟨rfl, by rw [hfind]; rfl⟩ hfound
      · exact hrun

/-- **`lvrt_map_with`** keeps the account. -/
theorem mapWith_kept (hidx : Live h idx) (hval : ∀ y ∈ val.ids, y ∈ O) (hfits : MapFits h (.ref x))
    (hsafe : MapSafe cls h (.ref x) idx) :
    ∃ h' out, mapWith cls h (.ref x) idx val = some (h', out) ∧
      Kept cls slots h' (out.ids ++ if taken h' (.ref x) out then O else x :: O) := by
  obtain ⟨_, rc, entries, heq, hx⟩ := hfits
  cases heq
  obtain ⟨h', y, hrun, hk', ⟨c, hc, hno, _⟩, _⟩ := mapUpsert_kept hk hx hidx hval hsafe
  by_cases hyx : y = x
  · subst hyx
    refine ⟨h', .ref y, by simp [mapWith, hx, hrun], ?_⟩
    rw [if_pos (by simp [taken])]
    exact hk'
  · have hne : Value.ref y ≠ .ref x := fun heq => hyx (by cases heq; rfl)
    have hlive : Live h' (.ref y) := by
      intro z hz
      rw [List.mem_singleton.mp hz]
      exact ⟨c, hc⟩
    obtain ⟨hk'', hg⟩ := hk'.retain hlive (valueStruct_ref_eq_none hc hno)
    refine ⟨retain cls h' (.ref y), .ref y, by simp [mapWith, hx, hrun, hne], ?_⟩
    have hbase := hk''.balanced.live_of_mem (mem_append_right _ mem_cons_self)
    rw [if_neg (by rw [taken_eq_false hbase hne]; exact Bool.false_ne_true)]
    exact hk''

end

end Maps

/-! ### Stores at an index -/

section Index

variable {h : Heap} {O : List Nat} {x rc : Nat} {idx val : Value}

theorem mem_setAt {α : Type} {l : List α} {i : Option Nat} {a b : α} (hb : b ∈ setAt l i a) :
    b ∈ l ∨ b = a := by
  unfold setAt at hb
  split at hb
  · exact mem_or_eq_of_mem_set hb
  · exact Or.inl hb

theorem exists_of_inRange {i : Option Nat} {n : Nat} (hi : inRange i n = true) :
    ∃ k, i = some k ∧ k < n := by
  cases i with
  | none => cases hi
  | some k => exact ⟨k, rfl, of_decide_eq_true hi⟩

/-- Values that are no structs, retained one after the other. -/
theorem Kept.retainAll : ∀ (vs : List Value) {h : Heap} {O : List Nat}, Kept cls slots h O →
    (∀ v ∈ vs, Live h v ∧ valueStruct cls h v = none) →
    Kept cls slots (vs.foldl (Containers.retain cls) h) (vs.flatMap Value.ids ++ O) ∧
      Grows h (vs.foldl (Containers.retain cls) h) := by
  intro vs
  induction vs with
  | nil => exact fun hk _ => ⟨hk, Grows.refl _⟩
  | cons v vs ih =>
    intro h O hk hvs
    obtain ⟨hl, hno⟩ := hvs v mem_cons_self
    obtain ⟨hk₁, hg₁⟩ := hk.retain hl hno
    obtain ⟨hk₂, hg₂⟩ := ih hk₁ fun w hw => by
      obtain ⟨hl', hno'⟩ := hvs w (mem_cons_of_mem v hw)
      exact ⟨hl'.grows hg₁, valueStruct_grows_none hg₁ hl' hno'⟩
    rw [foldl_cons, flatMap_cons]
    refine ⟨hk₂.perm ?_, hg₁.trans hg₂⟩
    rw [← append_assoc]
    exact List.perm_append_comm.append_right O

/-- A uniquely owned packed buffer is written in place, a shared one is copied. -/
theorem packed_written (hk : Kept cls slots h (x :: O)) {old b : Body}
    (hx : h.cell x = some ⟨rc, old⟩) (hold : old.slots = []) (hb : b.slots = [])
    (hoks : ¬ old.isStruct cls = true) (hbs : ¬ b.isStruct cls = true) (hflat : b.Flat)
    (hkeys : KeysTidy cls h b) :
    ∃ h' y, (if rc = 1 then (store h x b, Value.ref x) else halloc h 0 b) = (h', .ref y) ∧
      Stored cls h h' x y O := by
  split
  · have hperm : (slots x old ++ []).Perm (slots x b ++ []) := by
      rw [slots, slots, hold, hb]
    have hwritten := Kept.rewrite (A := []) (R := []) hk hx hoks hbs hflat hkeys
      (fun _ _ => rfl) hperm
    refine ⟨_, x, rfl, ?_⟩
    simp only [store, hx]
    exact stored_put hwritten hx hoks hbs (keepsKinds_grows (Grows.refl h))
  · refine ⟨_, h.length, rfl, stored_alloc ?_ hbs hflat hkeys (keepsKinds_grows (Grows.refl h))⟩
    rw [hb]
    exact hk

variable (cls) in
/-- The handle of a value struct goes into the slot. -/
def moves (h : Heap) (base idx val : Value) : Bool :=
  takesPointer h base idx && (valueStruct cls h val).isSome

section
variable (hk : Kept cls slots h (x :: (val.ids ++ O)))
include hk

/-- An element of a uniquely owned array is given up, and the value put in its place. -/
theorem idxset_boxed {capacity : Nat} (hx : h.cell x = some ⟨1, .arr capacity elems⟩) {i : Nat}
    (hidx : idx.index = some i) (hi : i < elems.length) :
    ∃ h', idxset cls h (.ref x) idx val = some (h', .ref x) ∧
      Stored cls h h' x x (if moves cls h (.ref x) idx val then O else val.ids ++ O) := by
  have hold : elems[i]? = some elems[i] := getElem?_eq_getElem hi
  have hno : ∀ es, ¬ (Body.arr capacity es).isStruct cls = true := fun es => by simp [Body.isStruct]
  have hrange : inRange idx.index elems.length = true := by
    rw [hidx]
    exact decide_eq_true hi
  let kept : List Nat := (elems.set i .void).flatMap Value.ids
  have hperm := elemIds_set hi elems[i]
  rw [set_getElem_self] at hperm
  obtain ⟨hpatched, hguard⟩ := hk.takeOut hx (hno elems) (by rw [slots_arr]; exact hperm)
  obtain ⟨h₁, hrelease, hk₁, hs, _⟩ := hpatched.giveUp hguard false
  have hrelease : release cls h elems[i] = some h₁ := release_of_giveUp hrelease
  obtain ⟨c, hc⟩ := hk₁.balanced.live_of_mem mem_cons_self
  obtain ⟨c₀, hc₀, hbody⟩ := hs.old x c hc
  rw [hx] at hc₀
  cases hc₀
  -- the handle of the value goes into the slot
  have hput : Kept cls slots (h₁.put x ⟨c.rc, .arr capacity (elems.set i val)⟩) (x :: O) := by
    have hstart : Kept cls (patch x kept) h₁ (val.ids ++ (x :: O)) :=
      hk₁.perm List.perm_middle.symm
    refine Kept.rewrite (R := []) hstart hc (by rw [hbody]; exact hno elems)
      (hno (elems.set i val)) trivial trivial (fun z hz => (patch_of_ne kept hz).symm) ?_
    rw [patch_self, slots, slots_arr, append_nil]
    exact (elemIds_set hi val).symm
  have hcell : (h₁.put x ⟨c.rc, .arr capacity (elems.set i val)⟩).cell x =
      some ⟨c.rc, .arr capacity (elems.set i val)⟩ := by
    rw [Store.cell_put (Store.lt_of_cell hc), if_pos rfl]
  have hrun : idxset cls h (.ref x) idx val =
      some (retain cls (h₁.put x ⟨c.rc, .arr capacity (elems.set i val)⟩) val, .ref x) := by
    have hold' : elems[idx.index.getD 0]? = some elems[i] := by rw [hidx]; exact hold
    simp only [idxset, hx, hrange, hold', if_true, hrelease, Option.map_some, store, hc]
    rw [hidx, setAt]
  have hlive : Live h val := hk.live fun y hy => mem_cons_of_mem x (mem_append_left O hy)
  have htakes : takesPointer h (.ref x) idx = true := by
    simp only [takesPointer, hx]
    exact hrange
  have hlive' : Live (h₁.put x ⟨c.rc, .arr capacity (elems.set i val)⟩) val := by
    intro y hy
    refine hput.live_of_slot hcell (v := val) (fun z hz => ?_) y hy
    rw [slots_arr]
    exact List.mem_flatMap.mpr ⟨val, mem_set hi val, hz⟩
  have hkinds : KeepsKinds cls h (h₁.put x ⟨c.rc, .arr capacity (elems.set i val)⟩) :=
    (keepsKinds_shrinks hs).trans
      (keepsKinds_put hc (by rw [hbody]; exact hno elems) (hno _) c.rc)
  cases hv : valueStruct cls h val with
  | none =>
    obtain ⟨hk₂, hg⟩ := hput.retain hlive' (hkinds.valueStruct_eq_none hv hlive)
    obtain ⟨d, hd, hdbody⟩ := hg.kept x _ hcell
    refine ⟨_, hrun, ?_, ⟨d, hd, by rw [hdbody]; exact hno _, Or.inl rfl⟩,
      hkinds.trans (keepsKinds_grows hg)⟩
    rw [moves, hv, Option.isSome_none, Bool.and_false, if_neg Bool.false_ne_true]
    exact hk₂.perm perm_middle
  | some r =>
    obtain ⟨r', hr'⟩ := Option.ne_none_iff_exists'.mp
      (hkinds.valueStruct_ne_none (by rw [hv]; exact Option.some_ne_none r) hlive')
    rw [retain_struct hr'] at hrun
    refine ⟨_, hrun, ?_, ⟨_, hcell, hno _, Or.inl rfl⟩, hkinds⟩
    rw [moves, hv, htakes]
    exact hput

/-- The slots of a shared array are copied and retained. -/
theorem idxset_shared {capacity : Nat} (hx : h.cell x = some ⟨rc, .arr capacity elems⟩)
    (hrc : rc ≠ 1)
    (hsafe : ∀ i v, elems[i]? = some v → idx.index ≠ some i → valueStruct cls h v = none) :
    ∃ h' y, idxset cls h (.ref x) idx val = some (h', .ref y) ∧
      Stored cls h h' x y (if moves cls h (.ref x) idx val then O else val.ids ++ O) := by
  have hlive : Live h val := hk.live fun y hy => mem_cons_of_mem x (mem_append_left O hy)
  have hfresh : ∀ {h' : Heap} {O' : List Nat} {es : List Value},
      es.foldl (retain cls) h = h' → es = setAt elems idx.index val →
      Kept cls slots h' (es.flatMap Value.ids ++ (x :: O')) → Grows h h' →
      ∃ h' y, idxset cls h (.ref x) idx val = some (h', .ref y) ∧ Stored cls h h' x y O' := by
    intro h' O' es hfold hes hk' hg
    refine ⟨_, h'.length, ?_, stored_alloc (b := .arr es.length es) ?_ (by simp [Body.isStruct])
      trivial trivial (keepsKinds_grows hg)⟩
    · simp only [idxset, hx, if_neg hrc]
      rw [← hes, hfold]
      rfl
    · rw [slots_arr]
      exact hk'
  by_cases hmoves : moves cls h (.ref x) idx val = true
  · -- the struct moves into its slot, the other elements are retained
    obtain ⟨htakes, hstruct⟩ := Bool.and_eq_true_iff.mp hmoves
    simp only [takesPointer, hx] at htakes
    obtain ⟨i, hidx, hi⟩ := exists_of_inRange htakes
    have hparts : setAt elems idx.index val = elems.take i ++ val :: elems.drop (i + 1) := by
      rw [hidx, setAt, set_eq_take_append_cons_drop, if_pos hi]
    have hone : ∀ v ∈ elems, Live h v := fun v hv => hk.live_of_elem hx hv
    have hpre : ∀ v ∈ elems.take i, Live h v ∧ valueStruct cls h v = none := by
      intro v hv
      obtain ⟨j, hj⟩ := mem_iff_getElem?.mp hv
      have hji : j < i := by
        have hlt := (List.getElem?_eq_some_iff.mp hj).1
        rw [length_take] at hlt
        omega
      rw [getElem?_take_of_lt hji] at hj
      exact ⟨hone v (mem_of_getElem? hj), hsafe j v hj (by rw [hidx]; simp; omega)⟩
    have hpost : ∀ v ∈ elems.drop (i + 1), Live h v ∧ valueStruct cls h v = none := by
      intro v hv
      obtain ⟨j, hj⟩ := mem_iff_getElem?.mp hv
      rw [getElem?_drop] at hj
      exact ⟨hone v (mem_of_getElem? hj), hsafe (i + 1 + j) v hj (by rw [hidx]; simp; omega)⟩
    obtain ⟨hk₁, hg₁⟩ := hk.retainAll (elems.take i) hpre
    have hval : retain cls ((elems.take i).foldl (retain cls) h) val =
        (elems.take i).foldl (retain cls) h := by
      obtain ⟨r, hr⟩ := Option.ne_none_iff_exists'.mp ((keepsKinds_grows hg₁).valueStruct_ne_none
        (Option.ne_none_iff_isSome.mpr hstruct) (hlive.grows hg₁))
      exact retain_struct hr
    obtain ⟨hk₂, hg₂⟩ := hk₁.retainAll (elems.drop (i + 1)) fun v hv => by
      obtain ⟨hl, hno⟩ := hpost v hv
      exact ⟨hl.grows hg₁, valueStruct_grows_none hg₁ hl hno⟩
    rw [if_pos hmoves]
    have hfold : (elems.take i ++ val :: elems.drop (i + 1)).foldl (retain cls) h =
        (elems.drop (i + 1)).foldl (retain cls) ((elems.take i).foldl (retain cls) h) := by
      rw [foldl_append, foldl_cons, hval]
    refine hfresh hfold hparts.symm ?_ (hg₁.trans hg₂)
    refine hk₂.perm ?_
    simp only [flatMap_append, flatMap_cons, append_assoc]
    refine (perm_append_comm_assoc _ _ _).trans (List.Perm.append_left _ ?_)
    refine (List.Perm.append_left _ (List.perm_middle.symm)).trans ?_
    exact perm_append_comm_assoc _ _ _
  · rw [if_neg hmoves]
    have hall : ∀ v ∈ setAt elems idx.index val, Live h v ∧ valueStruct cls h v = none := by
      intro v hv
      obtain ⟨j, hj⟩ := mem_iff_getElem?.mp hv
      by_cases hrange : inRange idx.index elems.length = true
      · obtain ⟨i, hidx, hi⟩ := exists_of_inRange hrange
        have hno : valueStruct cls h val = none := by
          cases hv : valueStruct cls h val with
          | none => rfl
          | some r =>
            exact absurd (by simp only [moves, takesPointer, hx, hrange, hv]; rfl) hmoves
        rw [hidx, setAt] at hj
        by_cases hji : j = i
        · subst hji
          rw [getElem?_set_self hi] at hj
          cases hj
          exact ⟨hlive, hno⟩
        · rw [getElem?_set_ne fun h => hji h.symm] at hj
          exact ⟨hk.live_of_elem hx (mem_of_getElem? hj),
            hsafe j v hj (by rw [hidx]; simp; omega)⟩
      · have hsame : setAt elems idx.index val = elems := by
          cases hidx : idx.index with
          | none => rfl
          | some i =>
            rw [setAt]
            refine set_eq_of_length_le ?_
            rw [hidx] at hrange
            have hge : ¬ i < elems.length := fun h => hrange (decide_eq_true h)
            omega
        rw [hsame] at hj
        have hlt := (List.getElem?_eq_some_iff.mp hj).1
        refine ⟨hk.live_of_elem hx (mem_of_getElem? hj), hsafe j v hj fun heq => ?_⟩
        rw [heq] at hrange
        exact hrange (decide_eq_true hlt)
    obtain ⟨hk₁, hg⟩ := hk.retainAll _ hall
    exact hfresh rfl rfl hk₁ hg

/-- **`lvrt_idxset`** keeps the account; its result has no handle yet. -/
theorem idxset_kept (hidx : Live h idx) (hfits : IndexFits cls h (.ref x) idx val)
    (hsafe : IndexSafe cls h (.ref x) idx val) :
    ∃ h' y, idxset cls h (.ref x) idx val = some (h', .ref y) ∧
      Stored cls h h' x y (if moves cls h (.ref x) idx val then O else val.ids ++ O) := by
  obtain ⟨_, ⟨rc, body⟩, heq, hx, hfits⟩ := hfits
  cases heq
  have hsafe := hsafe x _ rfl hx
  have hflat := hk.flat x _ hx
  have hstays : takesPointer h (.ref x) idx = false →
      (if moves cls h (.ref x) idx val then O else val.ids ++ O) = val.ids ++ O := by
    intro hno
    rw [moves, hno, Bool.false_and, if_neg Bool.false_ne_true]
  cases body with
  | columnar k rows =>
    rw [hstays (by simp only [takesPointer, hx])]
    by_cases hrange : inRange idx.index rows.length = true
    · obtain ⟨r, hr⟩ := Option.isSome_iff_exists.mp (hfits hrange)
      have hrows : (Body.columnar k (setAt rows idx.index (r.2.map Value.word))).Flat := by
        intro row hrow
        obtain hmem | rfl := mem_setAt hrow
        · exact hflat row hmem
        · exact words_of_flat (hsafe hrange r hr)
      obtain ⟨h', y, hrun, hstored⟩ := packed_written hk hx rfl rfl
        (by simp [Body.isStruct]) (by simp [Body.isStruct]) hrows trivial
      refine ⟨h', y, ?_, hstored⟩
      simp only [idxset, hx, hrange, if_true, hr, Option.map_some, hrun]
    · obtain ⟨h', y, hrun, hstored⟩ := packed_written hk hx rfl rfl
        (by simp [Body.isStruct]) (by simp [Body.isStruct]) hflat trivial
      refine ⟨h', y, ?_, hstored⟩
      simp only [idxset, hx, if_neg hrange, Option.map_some, hrun]
  | dense f records =>
    rw [hstays (by simp only [takesPointer, hx])]
    by_cases hrange : inRange idx.index records.length = true
    · obtain ⟨r, hr⟩ := Option.isSome_iff_exists.mp (hfits hrange)
      have hrecords : (Body.dense f (setAt records idx.index r)).Flat := by
        intro r' hr'
        obtain hmem | rfl := mem_setAt hr'
        · exact hflat r' hmem
        · exact hsafe hrange r' hr
      obtain ⟨h', y, hrun, hstored⟩ := packed_written hk hx rfl rfl
        (by simp [Body.isStruct]) (by simp [Body.isStruct]) hrecords trivial
      refine ⟨h', y, ?_, hstored⟩
      simp only [idxset, hx, hrange, if_true, hr, Option.map_some, hrun]
    · obtain ⟨h', y, hrun, hstored⟩ := packed_written hk hx rfl rfl
        (by simp [Body.isStruct]) (by simp [Body.isStruct]) hflat trivial
      refine ⟨h', y, ?_, hstored⟩
      simp only [idxset, hx, if_neg hrange, Option.map_some, hrun]
  | arr capacity elems =>
    by_cases hrc : rc = 1
    · subst hrc
      by_cases hrange : inRange idx.index elems.length = true
      · obtain ⟨i, hi, hlt⟩ := exists_of_inRange hrange
        obtain ⟨h', hrun, hstored⟩ := idxset_boxed hk hx hi hlt
        exact ⟨h', x, hrun, hstored⟩
      · rw [hstays (by simp only [takesPointer, hx]; exact Bool.eq_false_iff.mpr hrange)]
        refine ⟨h, x, ?_, hk, ⟨_, hx, by simp [Body.isStruct], Or.inl rfl⟩,
          keepsKinds_grows (Grows.refl h)⟩
        simp only [idxset, hx, if_true, Bool.eq_false_iff.mpr hrange]
    · exact idxset_shared hk hx hrc (hsafe hrc)
  | map entries =>
    rw [hstays (by simp only [takesPointer, hx])]
    obtain ⟨h', y, hrun, hstored⟩ := mapUpsert_kept hk hx hidx
      (fun z hz => mem_append_left O hz) hsafe
    exact ⟨h', y, by simp only [idxset, hx, hrun], hstored⟩
  | _ => exact hfits.elim

/-- **`lvrt_idxset_move`** keeps the account: the value struct goes into its slot or is
freed. -/
theorem idxsetMove_kept (hidx : Live h idx) (hfits : IndexFits cls h (.ref x) idx val)
    (hsafe : IndexSafe cls h (.ref x) idx val) (hstruct : valueStruct cls h val ≠ none) :
    ∃ h' y, idxsetMove cls h (.ref x) idx val = some (h', .ref y) ∧ Stored cls h h' x y O := by
  obtain ⟨h₁, y, hrun, hstored⟩ := idxset_kept hk hidx hfits hsafe
  cases htakes : takesPointer h (.ref x) idx with
  | true =>
    rw [moves, htakes, Option.ne_none_iff_isSome.mp hstruct] at hstored
    refine ⟨h₁, y, ?_, hstored⟩
    simp only [idxsetMove, hrun, htakes, Option.bind_some, if_true]
  | false =>
    rw [moves, htakes, Bool.false_and, if_neg Bool.false_ne_true] at hstored
    obtain ⟨hk₁, ⟨c, hc, hno, hyx⟩, hkinds⟩ := hstored
    have hk₁ : Kept cls slots h₁ (val.ids ++ (x :: O)) := hk₁.perm List.perm_middle.symm
    have hlive : Live h₁ val := hk₁.live fun z hz => mem_append_left _ hz
    obtain ⟨r, hr⟩ := Option.ne_none_iff_exists'.mp (hkinds.valueStruct_ne_none hstruct hlive)
    obtain ⟨h₂, h₃, hrelease, hvfree, hk₂, hs, hunowned⟩ :=
      hk₁.releaseVfree fun _ => Or.inl rfl
    -- a value struct is not released
    have hsame : h₂ = h₁ := by
      obtain ⟨z, rc, k, fields⟩ := r
      obtain ⟨rfl, hcell, hclass⟩ := valueStruct_eq_some hr
      rw [release, releaseWith, counted_ref_eq_none hcell hclass] at hrelease
      exact (Option.some.inj hrelease).symm
    rw [hsame] at hvfree
    refine ⟨h₃, y, ?_, hk₂, ?_, hkinds.trans (keepsKinds_shrinks hs)⟩
    · simp only [idxsetMove, hrun, htakes, Option.bind_some, hvfree, Option.map_some]
      rfl
    · obtain rfl | hrc := hyx
      · obtain ⟨d, hd⟩ := hk₂.balanced.live_of_mem mem_cons_self
        obtain ⟨e, he, hbody⟩ := hs.old y d hd
        rw [hc] at he
        cases he
        exact ⟨d, hd, by rw [hbody]; exact hno, Or.inl rfl⟩
      · refine ⟨c, ?_, hno, Or.inr hrc⟩
        rw [hunowned y, hc]
        rw [← hk₁.balanced.counted y c hc hno, hrc]

end

end Index

end Leviathan.Runtime.Containers
