import Leviathan.Runtime.OwnerCounts

/-!
# The container operations and the account of owners

`Kept` is what the operations on arrays and maps keep: the account of `Runtime.OwnerCounts`,
packed buffers without references, map keys that are no value structs, and structs that nest
no deeper than the heap is long.  Each operation has one lemma here, for the calls that do not
go wrong.
-/

namespace Leviathan.Runtime.Containers

open Leviathan.Owners List

variable {cls : Classes}

/-- A packed buffer holds no reference. -/
def Body.Flat : Body → Prop
  | .dense _ records => ∀ r ∈ records, ∀ f ∈ r.2, f.ids = []
  | .columnar _ rows => ∀ row ∈ rows, ∀ w ∈ row, ∀ x, w ≠ .address x
  | _ => True

/-- The addresses in the entries of a map. -/
def entryIds (entries : List (Value × Value)) : List Nat :=
  entries.flatMap fun e => e.1.ids ++ e.2.ids

theorem slots_obj (k : Nat) (fields : List Value) :
    Body.slots (.obj k fields) = fields.flatMap Value.ids := by
  simp [Body.slots, Body.owned, flatMap_map]

theorem slots_arr (n : Nat) (elems : List Value) :
    Body.slots (.arr n elems) = elems.flatMap Value.ids := by
  simp [Body.slots, Body.owned, flatMap_map]

theorem slots_clo (captures : List Value) :
    Body.slots (.clo captures) = captures.flatMap Value.ids := by
  simp [Body.slots, Body.owned, flatMap_map]

theorem slots_map (entries : List (Value × Value)) :
    Body.slots (.map entries) = entryIds entries := by
  simp [Body.slots, Body.owned, entryIds, flatMap_assoc]

variable (cls) in
/-- The value is not, and never becomes, a value struct. -/
def Unstructured (h : Heap) (v : Value) : Prop :=
  ∀ x ∈ v.ids, x < h.length ∧ ∀ c, h.cell x = some c → ¬ c.body.isStruct cls = true

variable (cls) in
/-- The keys of a map are no value structs. -/
def KeysTidy (h : Heap) : Body → Prop
  | .map entries => ∀ e ∈ entries, Unstructured cls h e.1
  | _ => True

variable (cls) in
/-- The invariant of the container operations, for the handles `O`. -/
structure Kept (out : Nat → Body → List Nat) (h : Heap) (O : List Nat) : Prop where
  balanced : Accounted cls out h O
  usual : Usual cls out h
  flat : ∀ x c, h.cell x = some c → c.body.Flat
  keys : ∀ x c, h.cell x = some c → KeysTidy cls h c.body
  deep : ∀ x c, h.cell x = some c → grounded cls h h.length (.ref x)

variable {b : Body}

section Unstructured

variable {h h' : Heap} {v : Value}

theorem Unstructured.not_struct (hv : Unstructured cls h v) : valueStruct cls h v = none := by
  cases v with
  | ref x =>
    cases hx : h.cell x with
    | none => exact valueStruct_of_none hx
    | some c => exact valueStruct_ref_eq_none hx ((hv x (List.mem_singleton.mpr rfl)).2 c hx)
  | _ => rfl

theorem Unstructured.grows (hv : Unstructured cls h v) (hg : Grows h h') :
    Unstructured cls h' v := by
  intro x hx
  obtain ⟨hlt, hno⟩ := hv x hx
  refine ⟨lt_of_lt_of_le hlt hg.length, fun c hc => ?_⟩
  obtain ⟨d, hd, hbody⟩ := hg.old x c hlt hc
  rw [hbody]
  exact hno d hd

theorem Unstructured.shrinks (hv : Unstructured cls h v) (hs : Shrinks h h') :
    Unstructured cls h' v := by
  intro x hx
  obtain ⟨hlt, hno⟩ := hv x hx
  refine ⟨by rw [hs.length]; exact hlt, fun c hc => ?_⟩
  obtain ⟨d, hd, hbody⟩ := hs.old x c hc
  rw [hbody]
  exact hno d hd

theorem Unstructured.of_live (hl : Live h v) (hv : valueStruct cls h v = none) :
    Unstructured cls h v := by
  intro x hx
  obtain ⟨c, hc⟩ := hl x hx
  refine ⟨Store.lt_of_cell hc, fun d hd hs => ?_⟩
  cases v with
  | ref y =>
    obtain rfl := List.mem_singleton.mp hx
    obtain ⟨_, _, _, hsome⟩ := valueStruct_ref hd hs
    rw [hv] at hsome
    cases hsome
  | _ => cases hx

theorem KeysTidy.grows (hb : KeysTidy cls h b) (hg : Grows h h') : KeysTidy cls h' b := by
  cases b with
  | map entries => exact fun e he => (hb e he).grows hg
  | _ => trivial

theorem KeysTidy.shrinks (hb : KeysTidy cls h b) (hs : Shrinks h h') : KeysTidy cls h' b := by
  cases b with
  | map entries => exact fun e he => (hb e he).shrinks hs
  | _ => trivial

end Unstructured

variable {fields : List Value} {c : Block Body}

namespace Kept

variable {out out' : Nat → Body → List Nat} {h h' : Heap} {O O' A R : List Nat} {v : Value}

theorem perm (hk : Kept cls out h O) (hperm : O.Perm O') : Kept cls out h O' :=
  ⟨hk.balanced.perm hperm, hk.usual, hk.flat, hk.keys, hk.deep⟩

/-- A value that a handle or a slot refers to is live. -/
theorem live (hk : Kept cls out h O) (hv : ∀ x ∈ v.ids, x ∈ O) : Live h v :=
  fun x hx => hk.balanced.live_of_mem (hv x hx)

/-- A live value nests no deeper than the heap is long. -/
theorem deep_of_live (hk : Kept cls out h O) (hl : Live h v) : grounded cls h h.length v := by
  cases v with
  | ref x =>
    obtain ⟨c, hc⟩ := hl x (List.mem_singleton.mpr rfl)
    exact hk.deep x c hc
  | scalar t p => exact grounded_mono (Nat.zero_le _) rfl
  | literal b => exact grounded_mono (Nat.zero_le _) rfl

/-- The heap grew by blocks that keep to the rules. -/
theorem grow (hk : Kept cls out h O) (hg : Grows h h') (hb : Accounted cls out h' O')
    (hnew : ∀ z c, h.length ≤ z → h'.cell z = some c →
      c.body.Flat ∧ KeysTidy cls h' c.body ∧ grounded cls h' h'.length (.ref z)) :
    Kept cls out h' O' := by
  refine ⟨hb, hk.usual.grows hg, ?_, ?_, ?_⟩
  · intro x c hc
    by_cases hlt : x < h.length
    · obtain ⟨d, hd, hbody⟩ := hg.old x c hlt hc
      rw [hbody]
      exact hk.flat x d hd
    · exact (hnew x c (by omega) hc).1
  · intro x c hc
    by_cases hlt : x < h.length
    · obtain ⟨d, hd, hbody⟩ := hg.old x c hlt hc
      rw [hbody]
      exact (hk.keys x d hd).grows hg
    · exact (hnew x c (by omega) hc).2.1
  · intro x c hc
    by_cases hlt : x < h.length
    · obtain ⟨d, hd, _⟩ := hg.old x c hlt hc
      refine grounded_mono hg.length (grounded_grows hk.balanced hk.usual hg ?_ (hk.deep x d hd))
      intro y hy
      rw [List.mem_singleton.mp hy]
      exact ⟨d, hd⟩
    · exact (hnew x c (by omega) hc).2.2

/-- Blocks were freed; the containers out of the usual account are still there. -/
theorem shrink (hk : Kept cls out h O) (hs : Shrinks h h') (hb : Accounted cls out h' O')
    (hguard : ∀ z, out z = Body.slots ∨ z ∈ O') : Kept cls out h' O' := by
  refine ⟨hb, ?_, ?_, ?_, ?_⟩
  · intro z
    obtain hout | hmem := hguard z
    · exact Or.inl hout
    · obtain hout | ⟨c, hc, hno⟩ := hk.usual z
      · exact Or.inl hout
      · obtain ⟨d, hd⟩ := hb.live_of_mem hmem
        obtain ⟨e, he, hbody⟩ := hs.old z d hd
        rw [hc] at he
        cases he
        exact Or.inr ⟨d, hd, by rw [hbody]; exact hno⟩
  · intro x c hc
    obtain ⟨d, hd, hbody⟩ := hs.old x c hc
    rw [hbody]
    exact hk.flat x d hd
  · intro x c hc
    obtain ⟨d, hd, hbody⟩ := hs.old x c hc
    rw [hbody]
    exact (hk.keys x d hd).shrinks hs
  · intro x c hc
    obtain ⟨d, hd, _⟩ := hs.old x c hc
    rw [hs.length]
    exact grounded_shrinks hs (hk.deep x d hd)

/-- One more reference to a counted value. -/
theorem retain (hk : Kept cls out h O) (hl : Live h v) (hv : valueStruct cls h v = none) :
    Kept cls out (retain cls h v) (v.ids ++ O) ∧ Grows h (Containers.retain cls h v) := by
  obtain ⟨hb, hg⟩ := retain_accounted hk.balanced hl hv
  refine ⟨hk.grow hg hb fun z c hz hc => ?_, hg⟩
  rw [Store.cell_eq_none (by rw [retain_length]; exact hz)] at hc
  cases hc

/-- **A value given up.** -/
theorem giveUp (hk : Kept cls out h (v.ids ++ O)) (hguard : ∀ z, out z = Body.slots ∨ z ∈ O)
    (flag : Bool) :
    ∃ h', giveUp cls (recursiveFree cls (h.length + 1)) h (v, flag) = some h' ∧
      Kept cls out h' O ∧ Shrinks h h' ∧
      ∀ z, owners out h (v.ids ++ O) z = 0 → h'.cell z = h.cell z := by
  have hpending : Pending cls out h v.ids O [] := by
    refine ⟨hk.balanced, fun z c _ => ?_, fun z hz => absurd hz not_mem_nil⟩
    obtain hout | hmem := hguard z
    · exact Or.inl (by rw [hout])
    · exact Or.inr (Or.inl hmem)
  obtain ⟨h', hgive, hsettled⟩ := giveUp_settled (frees (h.length + 1)) flag hpending
    (le_trans (liveCount_le_length h []) (Nat.le_succ _))
  exact ⟨h', hgive, hk.shrink hsettled.shrinks hsettled.balanced hguard, hsettled.shrinks,
    fun z hz => hsettled.unowned z not_mem_nil hz⟩

/-- A new container takes the references in its slots, and its count is the number of its
handles. -/
theorem alloc {n : Nat} (hk : Kept cls out h (b.slots ++ O)) (hb : ¬ b.isStruct cls = true)
    (hflat : b.Flat) (hkeys : KeysTidy cls h b) :
    Kept cls out (h.alloc ⟨n, b⟩) (List.replicate n h.length ++ O) := by
  have hg := Grows.alloc h ⟨n, b⟩
  have hstart : Accounted cls out h (out h.length (⟨n, b⟩ : Block Body).body ++ O) := by
    rw [hk.usual.fresh (le_refl _)]
    exact hk.balanced
  refine hk.grow hg (hstart.alloc (fun _ => rfl) fun hs => absurd hs hb) fun z c hz hc => ?_
  have hzx : z = h.length := by
    have hlt := Store.lt_of_cell hc
    rw [Store.length_alloc] at hlt
    omega
  have hcell := hc
  rw [Store.cell_alloc, if_pos hzx] at hc
  cases hc
  rw [hzx] at hcell ⊢
  exact ⟨hflat, hkeys.grows hg,
    grounded_mono (Nat.zero_le _) (valueStruct_ref_eq_none hcell hb)⟩

/-- A new value struct. -/
theorem allocStruct {classId : Nat} (hk : Kept cls out h (Body.slots (.obj classId fields) ++ O))
    (hb : cls.isvalueclass classId = true) (hl : ∀ f ∈ fields, Live h f) :
    Kept cls out (h.alloc ⟨0, .obj classId fields⟩) (h.length :: O) := by
  have hg := Grows.alloc h ⟨0, .obj classId fields⟩
  have hstart : Accounted cls out h
      (out h.length (⟨0, .obj classId fields⟩ : Block Body).body ++ O) := by
    rw [hk.usual.fresh (le_refl _)]
    exact hk.balanced
  refine hk.grow hg (hstart.alloc (n := 1) (fun hs => absurd hb hs) fun _ => ⟨rfl, le_refl 1⟩)
    fun z c hz hc => ?_
  have hzx : z = h.length := by
    have hlt := Store.lt_of_cell hc
    rw [Store.length_alloc] at hlt
    omega
  have hcell := hc
  rw [Store.cell_alloc, if_pos hzx] at hc
  cases hc
  rw [hzx] at hcell ⊢
  refine ⟨trivial, trivial, ?_⟩
  rw [Store.length_alloc]
  intro y rc k fs hsome f hf
  obtain ⟨heq, hy, _⟩ := valueStruct_eq_some hsome
  cases heq
  rw [hcell] at hy
  cases hy
  exact grounded_grows hk.balanced hk.usual hg (hl f hf) (hk.deep_of_live (hl f hf))

/-- **A container is rewritten**: the handles `A` go into its slots and the handles `R` come
out. -/
theorem rewrite {x : Nat} (hk : Kept cls out h (A ++ O)) (hx : h.cell x = some c)
    (hc : ¬ c.body.isStruct cls = true) (hb : ¬ b.isStruct cls = true) (hflat : b.Flat)
    (hkeys : KeysTidy cls h b) (hout : ∀ z, z ≠ x → out' z = out z)
    (hperm : (out x c.body ++ A).Perm (out' x b ++ R)) :
    Kept cls out' (h.put x ⟨c.rc, b⟩) (R ++ O) := by
  have hlt := Store.lt_of_cell hx
  have hcell := fun z => Store.cell_put (c := (⟨c.rc, b⟩ : Block Body)) (y := z) hlt
  have hself : (h.put x ⟨c.rc, b⟩).cell x = some ⟨c.rc, b⟩ := by rw [hcell, if_pos rfl]
  have hno : ∀ {v : Value}, Unstructured cls h v → Unstructured cls (h.put x ⟨c.rc, b⟩) v := by
    intro v hv y hy
    obtain ⟨hylt, hyno⟩ := hv y hy
    refine ⟨by rw [Store.length_put]; exact hylt, fun d hd => ?_⟩
    rw [hcell] at hd
    split at hd
    · cases hd
      exact hb
    · exact hyno d hd
  have hkeysTidy : ∀ {b' : Body}, KeysTidy cls h b' →
      KeysTidy cls (h.put x ⟨c.rc, b⟩) b' := by
    intro b' hb'
    cases b' with
    | map entries => exact fun e he => hno (hb' e he)
    | _ => trivial
  refine ⟨hk.balanced.exchange hx ⟨fun hs => absurd hs hb, fun hs => absurd hs hc⟩ hout hperm,
    ?_, ?_, ?_, ?_⟩
  · intro z
    by_cases hzx : z = x
    · rw [hzx]
      exact Or.inr ⟨_, hself, hb⟩
    · rw [hout z hzx, hcell, if_neg hzx]
      exact hk.usual z
  · intro z d hd
    rw [hcell] at hd
    split at hd
    · cases hd
      exact hflat
    · exact hk.flat z d hd
  · intro z d hd
    rw [hcell] at hd
    split at hd
    · cases hd
      exact hkeysTidy hkeys
    · exact hkeysTidy (hk.keys z d hd)
  · intro z d hd
    rw [Store.length_put]
    have hsame : ∀ v, valueStruct cls (h.put x ⟨c.rc, b⟩) v = valueStruct cls h v := by
      intro v
      cases v with
      | ref y =>
        by_cases hyx : y = x
        · rw [hyx, valueStruct_ref_eq_none hself hb, valueStruct_ref_eq_none hx hc]
        · simp only [valueStruct, hcell, if_neg hyx]
      | _ => rfl
    by_cases hzx : z = x
    · rw [hzx]
      exact grounded_mono (Nat.zero_le _) (valueStruct_ref_eq_none hself hb)
    · rw [hcell, if_neg hzx] at hd
      exact grounded_congr hsame (hk.deep z d hd)

/-- The slots of a container leave the account, or come back. -/
theorem reaccount {x : Nat} (hk : Kept cls out h (A ++ O)) (hx : h.cell x = some c)
    (hc : ¬ c.body.isStruct cls = true) (hout : ∀ z, z ≠ x → out' z = out z)
    (hperm : (out x c.body ++ A).Perm (out' x c.body ++ R)) : Kept cls out' h (R ++ O) := by
  have hput := hk.rewrite hx hc hc (hk.flat x c hx) (hk.keys x c hx) hout hperm
  rwa [Store.put_self hx] at hput

/-- **What a slot stores** is owned by the slot. -/
theorem storeOwned (hk : Kept cls out h O) (hl : Live h v) :
    ∃ h' v', storeOwned cls h v = some (h', v') ∧ Kept cls out h' (v'.ids ++ O) ∧ Grows h h' := by
  cases hv : valueStruct cls h v with
  | none =>
    obtain ⟨hretained, hgrows⟩ := hk.retain hl hv
    exact ⟨_, v, by rw [Containers.storeOwned, hv], hretained, hgrows⟩
  | some r =>
    obtain ⟨h', v', hcopy, hcopied⟩ := copyvalWith_copied h.length hk.balanced hk.usual hl
      (hk.deep_of_live hl)
    obtain ⟨howned, _⟩ := hcopied.owned (by rw [hv]; simp)
    refine ⟨h', v', by rw [Containers.storeOwned, hv]; exact hcopy,
      hk.grow hcopied.grows howned fun z c hz hc => ?_, hcopied.grows⟩
    obtain ⟨hstruct, hdeep⟩ := hcopied.fresh z c hz hc
    refine ⟨?_, ?_, grounded_mono hcopied.grows.length hdeep⟩
    · cases hbody : c.body with
      | dense f rs =>
        rw [hbody] at hstruct
        cases hstruct
      | columnar k rs =>
        rw [hbody] at hstruct
        cases hstruct
      | _ => trivial
    · cases hbody : c.body with
      | map entries =>
        rw [hbody] at hstruct
        cases hstruct
      | _ => trivial

/-- The slots of a new buffer, one after the other. -/
theorem storeAll : ∀ (vs : List Value) {h : Heap} {O : List Nat}, Kept cls out h O →
    (∀ v ∈ vs, Live h v) →
    ∃ h' vs', storeAll cls h vs = some (h', vs') ∧
      Kept cls out h' (vs'.flatMap Value.ids ++ O) ∧ Grows h h' := by
  intro vs
  induction vs with
  | nil =>
    intro h O hk _
    exact ⟨h, [], rfl, hk, Grows.refl h⟩
  | cons v vs ih =>
    intro h O hk hl
    obtain ⟨h₁, v', hone, hk₁, hg₁⟩ := hk.storeOwned (hl v mem_cons_self)
    obtain ⟨h₂, vs', hrest, hk₂, hg₂⟩ := ih hk₁ fun w hw =>
      (hl w (mem_cons_of_mem v hw)).grows hg₁
    refine ⟨h₂, v' :: vs', ?_, ?_, hg₁.trans hg₂⟩
    · rw [Containers.storeAll, hone, Option.bind_some, hrest]
      rfl
    · refine hk₂.perm ?_
      rw [flatMap_cons, ← append_assoc]
      exact List.perm_append_comm.append_right O

/-- The entries of a new map, one after the other. -/
theorem storeEntries : ∀ (es : List (Value × Value)) {h : Heap} {O : List Nat},
    Kept cls out h O → (∀ e ∈ es, Live h e.1 ∧ Unstructured cls h e.1 ∧ Live h e.2) →
    ∃ h' es', storeEntries cls h es = some (h', es') ∧ Kept cls out h' (entryIds es' ++ O) ∧
      Grows h h' ∧ ∀ e' ∈ es', ∃ e ∈ es, e'.1 = e.1 := by
  intro es
  induction es with
  | nil =>
    intro h O hk _
    exact ⟨h, [], rfl, hk, Grows.refl h, fun e he => absurd he not_mem_nil⟩
  | cons e es ih =>
    intro h O hk hl
    obtain ⟨hkey, hno, hval⟩ := hl e mem_cons_self
    obtain ⟨hk₁, hg₁⟩ := hk.retain hkey hno.not_struct
    obtain ⟨h₂, v', hone, hk₂, hg₂⟩ := hk₁.storeOwned (hval.grows hg₁)
    have hg := hg₁.trans hg₂
    obtain ⟨h₃, es', hrest, hk₃, hg₃, hkeys⟩ := ih hk₂ fun e' he' => by
      obtain ⟨h₁, h₂, h₃⟩ := hl e' (mem_cons_of_mem e he')
      exact ⟨h₁.grows hg, h₂.grows hg, h₃.grows hg⟩
    refine ⟨h₃, (e.1, v') :: es', ?_, ?_, hg.trans hg₃, ?_⟩
    · rw [Containers.storeEntries, hone, Option.bind_some, hrest]
      rfl
    · refine hk₃.perm ?_
      rw [entryIds, entryIds, flatMap_cons]
      simp only [append_assoc]
      refine (perm_append_comm_assoc _ _ _).trans ?_
      refine (List.Perm.append_left _ (perm_append_comm_assoc _ _ _)).trans ?_
      refine (perm_append_comm_assoc _ _ _).trans ?_
      exact List.Perm.refl _
    · intro e' he'
      obtain rfl | hmem := List.mem_cons.mp he'
      · exact ⟨e, mem_cons_self, rfl⟩
      · obtain ⟨d, hd, heq⟩ := hkeys e' hmem
        exact ⟨d, mem_cons_of_mem e hd, heq⟩

end Kept

/-! ### Appends and fills -/

/-- No field of the values is a reference. -/
def FlatFields (fields : List Value) : Prop := ∀ f ∈ fields, f.ids = []

theorem word_of_flat {f : Value} (hf : f.ids = []) (x : Nat) : f.word ≠ .address x := by
  cases f with
  | ref y => cases hf
  | scalar t p => intro h; cases h
  | literal b => intro h; cases h

theorem words_of_flat (hf : FlatFields fields) :
    ∀ w ∈ fields.map Value.word, ∀ x, w ≠ .address x := by
  intro w hw x
  obtain ⟨f, hmem, rfl⟩ := List.mem_map.mp hw
  exact word_of_flat (hf f hmem) x

theorem flat_of_structHasHeapField (hf : structHasHeapField fields = false) :
    FlatFields fields := by
  intro f hmem
  have hno := List.any_eq_false.mp hf f hmem
  cases f with
  | scalar t p => rfl
  | literal b => rfl
  | ref x => exact absurd rfl hno

section Frame

variable {h h' : Heap} {v v' : Value} {x : Nat}

variable (cls) in
/-- No value struct refers to the address. -/
def NoRef (x : Nat) (h : Heap) : Prop :=
  ∀ z rc k fs, h.cell z = some ⟨rc, .obj k fs⟩ → cls.isvalueclass k = true → Value.ref x ∉ fs

variable (cls) in
/-- An operation left the block at `x` alone, and made no struct that refers to it. -/
structure Spared (x : Nat) (h h' : Heap) : Prop where
  length : h.length ≤ h'.length
  cell : h'.cell x = h.cell x
  noRef : NoRef cls x h'

theorem Spared.refl (hno : NoRef cls x h) : Spared cls x h h := ⟨le_refl _, rfl, hno⟩

theorem Spared.trans {h'' : Heap} (h₁ : Spared cls x h h') (h₂ : Spared cls x h' h'') :
    Spared cls x h h'' :=
  ⟨le_trans h₁.length h₂.length, h₂.cell.trans h₁.cell, h₂.noRef⟩

theorem retain_spared (hno : NoRef cls x h) (hv : v ≠ .ref x) :
    Spared cls x h (retain cls h v) := by
  refine ⟨le_of_eq (retain_length h v).symm, ?_, ?_⟩
  · obtain heq | ⟨y, c, rfl, hy, heq⟩ := retain_cases cls h v
    · rw [heq]
    · rw [heq, Store.cell_put (Store.lt_of_cell hy), if_neg]
      intro hxy
      exact hv (by rw [hxy])
  · obtain heq | ⟨y, c, rfl, hy, heq⟩ := retain_cases cls h v
    · rw [heq]
      exact hno
    · intro z rc k fs hz hk
      rw [heq, Store.cell_put (Store.lt_of_cell hy)] at hz
      split at hz
      · next hzy =>
          subst hzy
          have hbody : c.body = .obj k fs := congrArg Block.body (Option.some.inj hz)
          exact hno _ c.rc k fs (by rw [hy, ← hbody]) hk
      · exact hno z rc k fs hz hk

theorem copyFields_spared {copy : Heap → Value → Option (Heap × Value)}
    (hcopy : ∀ {h v h' v'}, copy h v = some (h', v') → x < h.length → NoRef cls x h →
      v ≠ .ref x → Spared cls x h h' ∧ v' ≠ .ref x) :
    ∀ (fs : List Value) {h h' : Heap} {vs : List Value},
      copyFields cls copy h fs = some (h', vs) → x < h.length → NoRef cls x h →
      Value.ref x ∉ fs → Spared cls x h h' ∧ Value.ref x ∉ vs := by
  intro fs
  induction fs with
  | nil =>
    intro h h' vs hrun _ hno _
    cases hrun
    exact ⟨Spared.refl hno, not_mem_nil⟩
  | cons f fs ih =>
    intro h h' vs hrun hlt hno hfs
    rw [copyFields] at hrun
    obtain ⟨⟨h₁, v⟩, hone, hrest⟩ := Option.bind_eq_some_iff.mp hrun
    obtain ⟨⟨h₂, ws⟩, hmany, heq⟩ := Option.map_eq_some_iff.mp hrest
    cases heq
    obtain ⟨hs₁, hv⟩ := hcopy hone hlt hno fun h => hfs (by rw [h]; exact mem_cons_self)
    have hs₂ := retain_spared hs₁.noRef hv
    have hlt₂ := lt_of_lt_of_le hlt (le_trans hs₁.length hs₂.length)
    obtain ⟨hs₃, hws⟩ := ih hmany hlt₂ hs₂.noRef fun h => hfs (mem_cons_of_mem f h)
    refine ⟨hs₁.trans (hs₂.trans hs₃), fun hmem => ?_⟩
    obtain heq | hmem := List.mem_cons.mp hmem
    · exact hv heq.symm
    · exact hws hmem

theorem copyvalWith_spared : ∀ (n : Nat) {h h' : Heap} {v v' : Value},
    copyvalWith cls n h v = some (h', v') → x < h.length → NoRef cls x h → v ≠ .ref x →
    Spared cls x h h' ∧ v' ≠ .ref x := by
  intro n
  induction n with
  | zero =>
    intro h h' v v' hrun
    cases hrun
  | succ n ih =>
    intro h h' v v' hrun hlt hno hv
    rw [copyvalWith] at hrun
    split at hrun
    · cases hrun
      exact ⟨Spared.refl hno, hv⟩
    · next y rc k fs hstruct =>
        obtain ⟨_, hcell, hclass⟩ := valueStruct_eq_some hstruct
        obtain ⟨⟨h₂, vs⟩, hcopy, heq⟩ := Option.map_eq_some_iff.mp hrun
        have hno₁ : NoRef cls x (halloc h 0 (.obj k (fs.map fun _ => Value.void))).1 := by
          intro z rc' k' fs' hz hk'
          simp only [halloc] at hz
          rw [Store.cell_alloc] at hz
          split at hz
          · cases hz
            intro hmem
            obtain ⟨_, _, hbad⟩ := List.mem_map.mp hmem
            cases hbad
          · exact hno z rc' k' fs' hz hk'
        have hlt₁ : x < (halloc h 0 (.obj k (fs.map fun _ => Value.void))).1.length := by
          simp only [halloc, Store.length_alloc]
          omega
        obtain ⟨hs, hvs⟩ := copyFields_spared ih fs hcopy hlt₁ hno₁
          (hno y rc k fs hcell hclass)
        have hcell₁ : (halloc h 0 (.obj k (fs.map fun _ => Value.void))).1.cell x =
            h.cell x := by
          simp only [halloc]
          rw [Store.cell_alloc, if_neg (by omega)]
        simp only [halloc] at heq
        cases heq
        have hlen : (store h₂ h.length (.obj k vs)).length = h₂.length := by
          unfold store
          split
          · exact Store.length_put
          · rfl
        have hlen₁ := hs.length
        simp only [halloc, Store.length_alloc] at hlen₁
        refine ⟨⟨by omega, ?_, ?_⟩, fun heq => ?_⟩
        · rw [← hcell₁, ← hs.cell]
          unfold store
          split
          · next c hc =>
              rw [Store.cell_put (Store.lt_of_cell hc), if_neg (by omega)]
          · rfl
        · intro z rc' k' fs' hz hk'
          unfold store at hz
          split at hz
          · next c hc =>
              rw [Store.cell_put (Store.lt_of_cell hc)] at hz
              split at hz
              · cases hz
                exact hvs
              · exact hs.noRef z rc' k' fs' hz hk'
          · exact hs.noRef z rc' k' fs' hz hk'
        · cases heq
          omega

theorem storeOwned_spared (hrun : storeOwned cls h v = some (h', v')) (hlt : x < h.length)
    (hno : NoRef cls x h) (hv : v ≠ .ref x) : Spared cls x h h' := by
  unfold storeOwned at hrun
  split at hrun
  · exact (copyvalWith_spared _ hrun hlt hno hv).1
  · cases hrun
    exact retain_spared hno hv

end Frame

section Operations

variable {h : Heap} {O : List Nat} {x rc : Nat} {val : Value}

/-- What a slot of a block refers to is live. -/
theorem Kept.live_of_slot (hk : Kept cls slots h O) (hx : h.cell x = some c) {v : Value}
    (hv : ∀ y ∈ v.ids, y ∈ c.body.slots) : Live h v :=
  fun y hy => hk.balanced.live_of_slot hx (hv y hy)

theorem Kept.live_of_elem (hk : Kept cls slots h O) {n : Nat} {elems : List Value}
    (hx : h.cell x = some ⟨rc, .arr n elems⟩) {v : Value} (hv : v ∈ elems) : Live h v := by
  refine hk.live_of_slot hx fun y hy => ?_
  rw [slots_arr]
  exact List.mem_flatMap.mpr ⟨v, hv, hy⟩

/-- A counted block has a handle and a count of 1: it has no other owner. -/
theorem Kept.unshared (hk : Kept cls slots h (x :: O)) (hx : h.cell x = some c)
    (hc : ¬ c.body.isStruct cls = true) (hrc : c.rc = 1) : owners slots h O x = 0 := by
  have hone := hk.balanced.counted x c hx hc
  rw [Balanced.owners_cons, if_pos rfl] at hone
  omega

theorem noRef_of_unshared (hzero : owners slots h O x = 0) : NoRef cls x h := by
  intro z rc k fs hz _ hmem
  have hslot : x ∈ slots z (.obj k fs) := by
    rw [slots, slots_obj]
    exact List.mem_flatMap.mpr ⟨.ref x, hmem, List.mem_singleton.mpr rfl⟩
  have hpos := owners_pos_of_slot (O := O) hz hslot
  omega

theorem taken_eq_false {h' : Heap} {out : Value} (hx : ∃ c, h'.cell x = some c)
    (hout : out ≠ .ref x) : taken h' (.ref x) out = false := by
  obtain ⟨c, hc⟩ := hx
  simp [taken, hc, hout]

/-- **`lv_arr_boxed_append`**: in place, into a larger buffer, or into a copy. -/
theorem arrBoxedAppend_kept (hk : Kept cls slots h (x :: O)) {capacity : Nat}
    {elems : List Value} (hx : h.cell x = some ⟨rc, .arr capacity elems⟩)
    (hval : ∀ y ∈ val.ids, y ∈ O) :
    ∃ h' out, arrBoxedAppend cls h x rc capacity elems val = some (h', out) ∧
      Kept cls slots h' (out.ids ++ if taken h' (.ref x) out then O else x :: O) := by
  have hlt := Store.lt_of_cell hx
  have hlive : Live h val := hk.live fun y hy => mem_cons_of_mem x (hval y hy)
  have hno : ¬ (Body.arr capacity elems).isStruct cls = true := by simp [Body.isStruct]
  unfold arrBoxedAppend
  split
  · -- in place
    obtain ⟨h₁, v', hstore, hk₁, hg⟩ := hk.storeOwned hlive
    obtain ⟨c, hc, hbody⟩ := hg.kept x _ hx
    have hrewrite := hk₁.rewrite (A := v'.ids) (R := [])
      (b := .arr capacity (elems ++ [v'])) hc (by rw [hbody]; exact hno)
      (by simp [Body.isStruct]) trivial trivial (fun _ _ => rfl) (by
        rw [slots, slots, hbody, slots_arr, slots_arr]
        simp)
    refine ⟨_, _, by rw [hstore]; rfl, ?_⟩
    rw [if_pos (by simp [taken])]
    simp only [store, hc]
    exact hrewrite
  · split
    · -- the buffer grows
      next hrc =>
        have hzero := hk.unshared hx hno hrc
        obtain ⟨h₁, v', hstore, hk₁, hg⟩ := hk.storeOwned hlive
        have hvx : val ≠ .ref x := by
          intro heq
          have hpos := owners_pos_of_mem slots h (hval x (by
            rw [heq]
            exact List.mem_singleton.mpr rfl))
          omega
        have hspared := storeOwned_spared hstore hlt (noRef_of_unshared hzero) hvx
        have hc : h₁.cell x = some ⟨rc, .arr capacity elems⟩ := by rw [hspared.cell, hx]
        have hapart := (hk₁.perm perm_middle).balanced.dismantle hc hno hrc
        have hk₂ := hk₁.shrink (Shrinks.free h₁ x) hapart fun _ => Or.inl rfl
        have hslots : (Body.arr (max 4 (capacity * 2)) (elems ++ [v'])).slots =
            elems.flatMap Value.ids ++ v'.ids := by
          rw [slots_arr]
          simp
        have hk₃ := Kept.alloc (n := 1) (O := O)
          (b := .arr (max 4 (capacity * 2)) (elems ++ [v'])) (by
            rw [hslots, append_assoc]
            rw [slots, slots_arr] at hk₂
            exact hk₂) (by simp [Body.isStruct]) trivial trivial
        refine ⟨(h₁.free x).alloc ⟨1, .arr (max 4 (capacity * 2)) (elems ++ [v'])⟩,
          .ref (h₁.free x).length, by rw [hstore]; rfl, ?_⟩
        have hgone : Store.cell ((h₁.free x).alloc
            ⟨1, .arr (max 4 (capacity * 2)) (elems ++ [v'])⟩) x = none := by
          have hlen := hg.length
          rw [Store.cell_alloc, if_neg (by rw [Store.length_free]; omega), Store.cell_free,
            if_pos rfl]
        rw [if_pos (by simp [taken, hgone])]
        exact hk₃
    · -- every element is copied
      obtain ⟨h₁, vs', hstore, hk₁, hg⟩ := hk.storeAll (elems ++ [val]) fun v hv => by
        obtain hmem | hmem := List.mem_append.mp hv
        · exact hk.live_of_elem hx hmem
        · rw [List.mem_singleton.mp hmem]
          exact hlive
      have hk₂ := Kept.alloc (n := 1) (O := x :: O) (b := .arr (elems.length + 1) vs') (by
        rw [slots_arr]
        exact hk₁) (by simp [Body.isStruct]) trivial trivial
      refine ⟨h₁.alloc ⟨1, .arr (elems.length + 1) vs'⟩, .ref h₁.length, by rw [hstore]; rfl, ?_⟩
      have hlive' := hk₂.balanced.live_of_mem (mem_cons_of_mem _ mem_cons_self)
      have hlen := hg.length
      rw [if_neg (by rw [taken_eq_false hlive' (by simp; omega)]; exact Bool.false_ne_true)]
      exact hk₂

end Operations

end Leviathan.Runtime.Containers
