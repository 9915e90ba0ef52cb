import Leviathan.Runtime.Containers

/-!
# Owners in the runtime's heap

The reference counts of the native runtime against the owners of its blocks.  The slots of a
block are the values it gives up when it dies; the owners of a block are these slots and the
handles.  Freeing and copying keep the account: `giveUp_settled` for the walk of
`lv_recursive_free`, `storeOwned_kept` for what a slot stores.
-/

variable {rc classId z n : Nat} {fields : List Value}

namespace Leviathan.Runtime.Containers

open Leviathan.Owners List

variable {cls : Classes}

/-- The addresses in the slots of a block. -/
def Body.slots (b : Body) : List Nat := b.owned.flatMap fun e => e.1.ids

/-- The slots by address, as `Owners` wants them. -/
def slots (_ : Nat) (b : Body) : List Nat := b.slots

variable (cls) in
/-- The account of a heap with handles, over a choice of the slots that count. -/
abbrev Accounted (out : Nat → Body → List Nat) (h : Heap) (O : List Nat) : Prop :=
  Balanced (fun b => b.isStruct cls = true) out h O

/-! ### Value structs and counted values -/

section Kinds

variable {h : Heap} {v : Value} {x : Nat} {c : Block Body}

theorem valueStruct_eq_some (hv : valueStruct cls h v = some (x, rc, classId, fields)) :
    v = .ref x ∧ h.cell x = some ⟨rc, .obj classId fields⟩ ∧ cls.isvalueclass classId = true := by
  unfold valueStruct at hv
  split at hv
  · split at hv
    · split at hv
      · next hcell hclass =>
          cases hv
          exact ⟨rfl, hcell, hclass⟩
      · cases hv
    · cases hv
  · cases hv

theorem valueStruct_ref (hx : h.cell x = some c) (hc : c.body.isStruct cls = true) :
    ∃ classId fields, c.body = .obj classId fields ∧
      valueStruct cls h (.ref x) = some (x, c.rc, classId, fields) := by
  obtain ⟨rc, body⟩ := c
  cases body with
  | obj classId fields =>
    refine ⟨classId, fields, rfl, ?_⟩
    rw [valueStruct, hx]
    exact if_pos hc
  | _ => cases hc

theorem valueStruct_ref_eq_none (hx : h.cell x = some c) (hc : ¬ c.body.isStruct cls = true) :
    valueStruct cls h (.ref x) = none := by
  cases hv : valueStruct cls h (.ref x) with
  | none => rfl
  | some r =>
    obtain ⟨y, rc, classId, fields⟩ := r
    obtain ⟨heq, hcell, hclass⟩ := valueStruct_eq_some hv
    cases heq
    rw [hx] at hcell
    cases hcell
    exact absurd hclass hc

theorem counted_ref (hx : h.cell x = some c) (hc : ¬ c.body.isStruct cls = true) :
    counted cls h (.ref x) = some (x, c) := by
  simp only [counted, hx, if_neg hc]

theorem counted_ref_eq_none (hx : h.cell x = some c) (hc : c.body.isStruct cls = true) :
    counted cls h (.ref x) = none := by
  simp only [counted, hx, if_pos hc]

theorem valueStruct_of_none (hx : h.cell x = none) : valueStruct cls h (.ref x) = none := by
  simp only [valueStruct, hx]

variable (cls) in
theorem retain_cases (h : Heap) (v : Value) : retain cls h v = h ∨
    ∃ y c, v = .ref y ∧ h.cell y = some c ∧ retain cls h v = h.put y ⟨c.rc + 1, c.body⟩ := by
  unfold retain
  cases hcounted : counted cls h v with
  | none => exact Or.inl rfl
  | some r =>
    obtain ⟨y, c⟩ := r
    refine Or.inr ⟨y, c, ?_⟩
    unfold counted at hcounted
    split at hcounted
    · split at hcounted
      · next hy =>
          split at hcounted
          · cases hcounted
          · cases hcounted
            exact ⟨rfl, hy, rfl⟩
      · cases hcounted
    · cases hcounted

theorem retain_length (h : Heap) (v : Value) : (retain cls h v).length = h.length := by
  obtain heq | ⟨y, c, _, _, heq⟩ := retain_cases cls h v
  · rw [heq]
  · rw [heq, Store.length_put]

end Kinds

/-! ### Giving up -/

/-- A block that is being freed: its slots are the walk's. -/
def hide (x : Nat) (out : Nat → Body → List Nat) : Nat → Body → List Nat :=
  fun z b => if z = x then [] else out z b

theorem hide_self (x : Nat) (out : Nat → Body → List Nat) (b : Body) : hide x out x b = [] :=
  if_pos rfl

theorem hide_of_ne {x : Nat} (hz : z ≠ x) (out : Nat → Body → List Nat) : hide x out z = out z := by
  funext b
  exact if_neg hz

variable (cls) in
/-- In the middle of a walk: the handles `R` are to be given up, the handles `O` stay, and the
blocks `D` are being freed.  The slots of a block may be missing from the account while a
handle that stays keeps the block. -/
structure Pending (out : Nat → Body → List Nat) (h : Heap) (R O D : List Nat) : Prop where
  balanced : Accounted cls out h (R ++ O)
  guarded : ∀ z c, h.cell z = some c → out z c.body = c.body.slots ∨ z ∈ O ∨ z ∈ D
  dying : ∀ z ∈ D, owners out h (R ++ O) z = 0

variable (cls) in
/-- The handles `R` were given up and the handles `O` are left; blocks were freed, but none that
had no owner before, the blocks of `E` apart. -/
structure Settled (out : Nat → Body → List Nat) (h h' : Heap) (R O E : List Nat) : Prop where
  balanced : Accounted cls out h' O
  shrinks : Shrinks h h'
  unowned : ∀ z, z ∉ E → owners out h (R ++ O) z = 0 → h'.cell z = h.cell z

section Walk

variable {out : Nat → Body → List Nat} {h h' : Heap} {R R' O D : List Nat} {x : Nat}
variable {c : Block Body}

/-- A part of the handles is given up first. -/
theorem Pending.first (hp : Pending cls out h (R ++ R') O D) : Pending cls out h R (R' ++ O) D := by
  refine ⟨?_, ?_, ?_⟩
  · rw [← append_assoc]
    exact hp.balanced
  · intro z d hz
    obtain hslots | hO | hD := hp.guarded z d hz
    · exact Or.inl hslots
    · exact Or.inr (Or.inl (mem_append_right R' hO))
    · exact Or.inr (Or.inr hD)
  · rw [← append_assoc]
    exact hp.dying

/-- The rest of the handles is given up next. -/
theorem Pending.next (hp : Pending cls out h (R ++ R') O D)
    (hs : Settled cls out h h' R (R' ++ O) []) : Pending cls out h' R' O D := by
  refine ⟨hs.balanced, ?_, ?_⟩
  · intro z d hz
    obtain ⟨e, he, hde⟩ := hs.shrinks.old z d hz
    rw [hde]
    exact hp.guarded z e he
  · intro z hz
    have hle := owners_shrinks out hs.shrinks (R' ++ O) z
    have hzero := hp.dying z hz
    rw [append_assoc, owners_append] at hzero
    omega

theorem owners_bury (hx : h.cell x = some c)
    (hout : out x c.body = c.body.slots) (y : Nat) :
    owners (hide x out) h (c.body.slots ++ O) y = owners out h ([] ++ O) y := by
  have hperm : (out x c.body ++ []).Perm (hide x out x c.body ++ c.body.slots) := by
    rw [hide_self, hout, append_nil, nil_append]
  exact Balanced.owners_reaccount hx (fun z hz => hide_of_ne hz out) hperm y

/-- The slots of a block that nobody owns become the walk's. -/
theorem Pending.bury (hp : Pending cls out h [] O D) (hx : h.cell x = some c)
    (hzero : owners out h O x = 0) (hout : out x c.body = c.body.slots) :
    Pending cls (hide x out) h c.body.slots O (x :: D) := by
  have hsame := owners_bury (O := O) hx hout
  refine ⟨hp.balanced.of_owners hsame, ?_, ?_⟩
  · intro z d hz
    by_cases hzx : z = x
    · exact Or.inr (Or.inr (by rw [hzx]; exact mem_cons_self))
    · rw [hide_of_ne hzx]
      obtain hslots | hO | hD := hp.guarded z d hz
      · exact Or.inl hslots
      · exact Or.inr (Or.inl hO)
      · exact Or.inr (Or.inr (mem_cons_of_mem x hD))
  · intro z hz
    rw [hsame z]
    obtain rfl | hD := List.mem_cons.mp hz
    · exact hzero
    · exact hp.dying z hD

/-- A handle that is to be given up refers to a block whose slots count. -/
theorem Pending.head (hp : Pending cls out h [x] O D) (hx : h.cell x = some c)
    (hO : x ∉ O) : x ∉ D ∧ out x c.body = c.body.slots := by
  have hD : x ∉ D := by
    intro hmem
    have hpos := owners_pos_of_mem out h (O := [x] ++ O) mem_cons_self
    rw [hp.dying x hmem] at hpos
    exact Nat.lt_irrefl 0 hpos
  obtain hslots | hmem | hmem := hp.guarded x c hx
  · exact ⟨hD, hslots⟩
  · exact absurd hmem hO
  · exact absurd hmem hD

/-- What the walk over the block at `x` does. -/
def Frees (cls : Classes) (n : Nat) : Prop :=
  ∀ {out : Nat → Body → List Nat} {h : Heap} {O D : List Nat} {x : Nat} {c : Block Body},
    Pending cls out h [] O D → h.cell x = some c → owners out h O x = 0 →
    out x c.body = c.body.slots → x ∉ D → liveCount h D ≤ n →
    ∃ h', recursiveFree cls n h x c.body = some h' ∧ Settled cls out h h' [] O [x] ∧
      h'.cell x = none

/-- **A value given up is settled**: it is released, or freed where it is a value struct. -/
theorem giveUp_settled (hfrees : Frees cls n) {v : Value} (flag : Bool)
    (hp : Pending cls out h v.ids O D) (hn : liveCount h D ≤ n) :
    ∃ h', giveUp cls (recursiveFree cls n) h (v, flag) = some h' ∧
      Settled cls out h h' v.ids O [] := by
  have hnothing : counted cls h v = none → valueStruct cls h v = none →
      giveUp cls (recursiveFree cls n) h (v, flag) = some h := by
    intro hcounted hstruct
    simp [giveUp, releaseWith, vfreeWith, hcounted, hstruct]
  cases v with
  | scalar t p => exact ⟨h, hnothing rfl rfl, hp.balanced, Shrinks.refl h, fun _ _ _ => rfl⟩
  | literal b => exact ⟨h, hnothing rfl rfl, hp.balanced, Shrinks.refl h, fun _ _ _ => rfl⟩
  | ref x =>
    have hb : Accounted cls out h (x :: O) := hp.balanced
    obtain ⟨c, hx⟩ := hb.live_of_mem mem_cons_self
    have hneq : ∀ z, owners out h ([x] ++ O) z = 0 → z ≠ x ∧ owners out h O z = 0 := by
      intro z hz
      rw [owners_append] at hz
      refine ⟨fun heq => ?_, by omega⟩
      rw [heq, count_singleton_self] at hz
      omega
    by_cases hc : c.body.isStruct cls = true
    · -- a value struct is not released, and its only owner was this handle
      have hzero := hb.owners_eq_zero hx hc
      have hforget := hb.forget hx hc
      have hO : x ∉ O := by
        intro hmem
        have hpos := owners_pos_of_mem out h hmem
        omega
      obtain ⟨hD, hout⟩ := hp.head hx hO
      obtain ⟨classId, fields, hbody, hstruct⟩ := valueStruct_ref hx hc
      have hrc := (hb.alone x c hx hc).1
      have hpending : Pending cls out h [] O D := by
        refine ⟨hforget, hp.guarded, fun z hz => ?_⟩
        have hz0 := hp.dying z hz
        rw [owners_append] at hz0
        rw [nil_append]
        omega
      have hrelease : releaseWith cls (recursiveFree cls n) h (.ref x) = some h := by
        rw [releaseWith, counted_ref_eq_none hx hc]
      cases flag with
      | false =>
        refine ⟨h, ?_, hforget, Shrinks.refl h, fun _ _ _ => rfl⟩
        rw [giveUp, hrelease]
        rfl
      | true =>
        obtain ⟨h', hwalk, hsettled, _⟩ := hfrees hpending hx hzero hout hD hn
        refine ⟨h', ?_, hsettled.balanced, hsettled.shrinks, fun z _ hz => ?_⟩
        swap
        · obtain ⟨hzx, hz0⟩ := hneq z hz
          exact hsettled.unowned z (fun h => hzx (List.mem_singleton.mp h)) hz0
        rw [giveUp, hrelease, Option.bind_some, if_pos rfl, vfreeWith, hstruct]
        simp only [hrc, ne_eq, not_true_eq_false, if_false]
        rw [← hbody]
        exact hwalk
    · have hcounted := counted_ref hx hc
      have hpos := hb.rc_pos hx hc
      have hreleased := hb.release hx hc
      have hlt := Store.lt_of_cell hx
      have hput : (h.put x ⟨c.rc - 1, c.body⟩).cell x = some ⟨c.rc - 1, c.body⟩ := by
        rw [Store.cell_put hlt, if_pos rfl]
      have hshrinks := Shrinks.put_rc hx (c.rc - 1)
      have hputz : ∀ z, z ≠ x → (h.put x ⟨c.rc - 1, c.body⟩).cell z = h.cell z := by
        intro z hzx
        rw [Store.cell_put hlt, if_neg hzx]
      have hafter : ∀ h', Shrinks h h' →
          (if flag then vfreeWith cls (recursiveFree cls n) h' (.ref x) else some h') =
            some h' := by
        intro h' hs
        have hnone : valueStruct cls h' (.ref x) = none := by
          cases hx' : h'.cell x with
          | none => exact valueStruct_of_none hx'
          | some c' =>
            obtain ⟨d, hd, hbody⟩ := hs.old x c' hx'
            rw [hx] at hd
            cases hd
            exact valueStruct_ref_eq_none hx' (by rw [hbody]; exact hc)
        cases flag with
        | false => rfl
        | true =>
          rw [if_pos rfl, vfreeWith, hnone]
      by_cases hlast : c.rc - 1 = 0
      · -- the last owner: the block is freed
        have hzero : owners out h O x = 0 := by
          have heq := hreleased.counted x _ hput hc
          rw [Balanced.owners_put_rc hx] at heq
          simp only at heq
          omega
        have hO : x ∉ O := by
          intro hmem
          have hpos := owners_pos_of_mem out h hmem
          omega
        obtain ⟨hD, hout⟩ := hp.head hx hO
        have hpending : Pending cls out (h.put x ⟨c.rc - 1, c.body⟩) [] O D := by
          refine ⟨hreleased, fun z d hz => ?_, fun z hz => ?_⟩
          · obtain ⟨e, he, hde⟩ := hshrinks.old z d hz
            rw [hde]
            exact hp.guarded z e he
          · have hz0 := hp.dying z hz
            rw [owners_append] at hz0
            rw [nil_append, Balanced.owners_put_rc hx]
            omega
        obtain ⟨h', hwalk, hsettled, _⟩ := hfrees hpending hput
          (by rw [Balanced.owners_put_rc hx]; exact hzero) hout hD
          (le_trans (liveCount_shrinks hshrinks D) hn)
        have hall := hshrinks.trans hsettled.shrinks
        refine ⟨h', ?_, hsettled.balanced, hall, fun z _ hz => ?_⟩
        swap
        · obtain ⟨hzx, hz0⟩ := hneq z hz
          rw [← hputz z hzx]
          refine hsettled.unowned z (fun h => hzx (List.mem_singleton.mp h)) ?_
          rw [nil_append, Balanced.owners_put_rc hx]
          exact hz0
        rw [giveUp, releaseWith, hcounted]
        simp only [Nat.ne_of_gt hpos, hlast, if_true, if_false]
        rw [hlast] at hwalk
        rw [hwalk, Option.bind_some]
        exact hafter h' hall
      · refine ⟨h.put x ⟨c.rc - 1, c.body⟩, ?_, hreleased, hshrinks,
          fun z _ hz => hputz z (hneq z hz).1⟩
        rw [giveUp, releaseWith, hcounted]
        simp only [Nat.ne_of_gt hpos, hlast, if_false, Option.bind_some]
        exact hafter _ hshrinks

/-- The values a block gives up, one after the other. -/
theorem foldlM_giveUp_settled (hfrees : Frees cls n) :
    ∀ (l : List (Value × Bool)) {h : Heap},
      Pending cls out h (l.flatMap fun e => e.1.ids) O D → liveCount h D ≤ n →
      ∃ h', l.foldlM (giveUp cls (recursiveFree cls n)) h = some h' ∧
        Settled cls out h h' (l.flatMap fun e => e.1.ids) O [] := by
  intro l
  induction l with
  | nil =>
    intro h hp _
    exact ⟨h, rfl, hp.balanced, Shrinks.refl h, fun _ _ _ => rfl⟩
  | cons e l ih =>
    intro h hp hn
    rw [flatMap_cons] at hp ⊢
    obtain ⟨h₁, hgive, hsettled⟩ := giveUp_settled hfrees e.2 hp.first hn
    obtain ⟨h₂, hrest, hsettled₂⟩ := ih (hp.next hsettled)
      (le_trans (liveCount_shrinks hsettled.shrinks D) hn)
    refine ⟨h₂, ?_, hsettled₂.balanced, hsettled.shrinks.trans hsettled₂.shrinks,
      fun z hz hz0 => ?_⟩
    swap
    · rw [append_assoc] at hz0
      have hle := owners_shrinks out hsettled.shrinks (l.flatMap (fun e => e.1.ids) ++ O) z
      have hrest : owners out h (l.flatMap (fun e => e.1.ids) ++ O) z = 0 := by
        rw [owners_append] at hz0
        omega
      rw [hsettled₂.unowned z hz (by omega), hsettled.unowned z hz hz0]
    rw [foldlM_cons]
    change (giveUp cls (recursiveFree cls n) h (e.1, e.2)).bind _ = _
    rw [hgive]
    exact hrest

/-- **The walk of `lv_recursive_free` ends and keeps the account.** -/
theorem frees (n : Nat) : Frees cls n := by
  induction n with
  | zero =>
    intro out h O D x c _ hx _ _ hD hn
    have hlt := liveCount_cons_lt hx hD
    omega
  | succ n ih =>
    intro out h O D x c hp hx hzero hout hD hn
    have hbury := hp.bury hx hzero hout
    have hlt := liveCount_cons_lt hx hD
    obtain ⟨h₁, hfold, hsettled⟩ := foldlM_giveUp_settled ih c.body.owned hbury (by omega)
    have hzero₁ : owners (hide x out) h₁ O x = 0 := by
      have hle := owners_shrinks (hide x out) hsettled.shrinks O x
      have hd := hbury.dying x mem_cons_self
      rw [owners_append] at hd
      omega
    have hfreed := hsettled.balanced.free hzero₁ fun d _ => hide_self x out d.body
    have hgone : (h₁.free x).cell x = none := by rw [Store.cell_free, if_pos rfl]
    refine ⟨h₁.free x, ?_, ⟨?_, hsettled.shrinks.trans (Shrinks.free h₁ x), ?_⟩, hgone⟩
    · rw [recursiveFree, hfold]
      rfl
    · exact hfreed.of_owners fun y =>
        owners_congr_of_none hgone (fun z hz => (hide_of_ne hz out).symm) O y
    · intro z hz hz0
      have hzx : z ≠ x := fun h => hz (List.mem_singleton.mpr h)
      rw [Store.cell_free, if_neg hzx]
      refine hsettled.unowned z not_mem_nil ?_
      exact (owners_bury hx hout z).trans hz0

end Walk

/-! ### Copies -/

variable (cls) in
/-- Where the slots that count are not all the slots of a block, the block is a container. -/
def Usual (out : Nat → Body → List Nat) (h : Heap) : Prop :=
  ∀ z, out z = Body.slots ∨ ∃ c, h.cell z = some c ∧ ¬ c.body.isStruct cls = true

/-- The value refers to no freed block. -/
def Live (h : Heap) (v : Value) : Prop := ∀ x ∈ v.ids, ∃ c, h.cell x = some c

variable (cls) in
/-- The structs in a value nest at most `n` deep. -/
def grounded (h : Heap) : Nat → Value → Prop
  | 0, v => valueStruct cls h v = none
  | n + 1, v => ∀ x rc classId fields, valueStruct cls h v = some (x, rc, classId, fields) →
      ∀ f ∈ fields, grounded h n f

section Copies

variable {out : Nat → Body → List Nat} {h h' : Heap} {O : List Nat} {v : Value}

theorem Usual.grows (hu : Usual cls out h) (hg : Grows h h') : Usual cls out h' := by
  intro z
  obtain hout | ⟨c, hc, hs⟩ := hu z
  · exact Or.inl hout
  · obtain ⟨c', hc', hbody⟩ := hg.kept z c hc
    exact Or.inr ⟨c', hc', by rw [hbody]; exact hs⟩

theorem Usual.fresh (hu : Usual cls out h) (hz : h.length ≤ z) : out z = Body.slots := by
  obtain hout | ⟨c, hc, _⟩ := hu z
  · exact hout
  · rw [Store.cell_eq_none hz] at hc
    cases hc

variable {c : Block Body}

theorem Usual.struct (hu : Usual cls out h) (hz : h.cell z = some c)
    (hc : c.body.isStruct cls = true) : out z = Body.slots := by
  obtain hout | ⟨d, hd, hs⟩ := hu z
  · exact hout
  · rw [hz] at hd
    cases hd
    exact absurd hc hs

theorem Live.grows (hl : Live h v) (hg : Grows h h') : Live h' v := by
  intro x hx
  obtain ⟨c, hc⟩ := hl x hx
  obtain ⟨c', hc', _⟩ := hg.kept x c hc
  exact ⟨c', hc'⟩

variable {x : Nat}

/-- The fields of a value struct are live. -/
theorem live_of_field (hb : Accounted cls out h O) (hu : Usual cls out h)
    (hx : h.cell x = some ⟨rc, .obj classId fields⟩) (hc : cls.isvalueclass classId = true)
    {f : Value} (hf : f ∈ fields) : Live h f := by
  intro y hy
  refine hb.live_of_slot hx ?_
  rw [hu.struct hx hc]
  simp only [Body.slots, Body.owned, mem_flatMap, mem_map]
  exact ⟨(f, true), ⟨f, hf, rfl⟩, hy⟩

/-- A value that is live stays what it is while the heap grows. -/
theorem valueStruct_grows (hg : Grows h h') (hl : Live h v)
    (hv : valueStruct cls h' v = some (x, rc, classId, fields)) :
    ∃ rc', valueStruct cls h v = some (x, rc', classId, fields) := by
  obtain ⟨rfl, hcell, hclass⟩ := valueStruct_eq_some hv
  obtain ⟨c, hc⟩ := hl x (List.mem_singleton.mpr rfl)
  obtain ⟨d, hd, hbody⟩ := hg.kept x c hc
  rw [hcell] at hd
  cases hd
  have hstruct : c.body.isStruct cls = true := by
    rw [← hbody]
    exact hclass
  obtain ⟨k, fs, hfs, hsome⟩ := valueStruct_ref hc hstruct
  rw [← hbody] at hfs
  cases hfs
  exact ⟨c.rc, hsome⟩

theorem valueStruct_grows_none (hg : Grows h h') (hl : Live h v)
    (hv : valueStruct cls h v = none) : valueStruct cls h' v = none := by
  cases hv' : valueStruct cls h' v with
  | none => rfl
  | some r =>
    obtain ⟨x, rc, classId, fields⟩ := r
    obtain ⟨rc', hsome⟩ := valueStruct_grows hg hl hv'
    rw [hv] at hsome
    cases hsome

theorem grounded_grows (hb : Accounted cls out h O) (hu : Usual cls out h) (hg : Grows h h') :
    ∀ {n : Nat} {v : Value}, Live h v → grounded cls h n v → grounded cls h' n v := by
  intro n
  induction n with
  | zero =>
    intro v hl hn
    exact valueStruct_grows_none hg hl hn
  | succ n ih =>
    intro v hl hn x rc classId fields hv f hf
    obtain ⟨rc', hsome⟩ := valueStruct_grows hg hl hv
    obtain ⟨rfl, hcell, hclass⟩ := valueStruct_eq_some hsome
    exact ih (live_of_field hb hu hcell hclass hf) (hn x rc' classId fields hsome f hf)

theorem grounded_mono {m : Nat} (hnm : n ≤ m) : ∀ {v : Value}, grounded cls h n v →
    grounded cls h m v := by
  induction n generalizing m with
  | zero =>
    intro v hv
    cases m with
    | zero => exact hv
    | succ m =>
      intro x rc classId fields hsome
      rw [show valueStruct cls h v = none from hv] at hsome
      cases hsome
  | succ n ih =>
    intro v hv
    obtain ⟨m, rfl⟩ : ∃ k, m = k + 1 := ⟨m - 1, by omega⟩
    intro x rc classId fields hsome f hf
    exact ih (by omega) (hv x rc classId fields hsome f hf)

theorem grounded_shrinks (hs : Shrinks h h') : ∀ {n : Nat} {v : Value}, grounded cls h n v →
    grounded cls h' n v := by
  have hback : ∀ {v : Value} {x rc classId : Nat} {fields : List Value},
      valueStruct cls h' v = some (x, rc, classId, fields) →
      ∃ rc', valueStruct cls h v = some (x, rc', classId, fields) := by
    intro v x rc classId fields hv
    obtain ⟨rfl, hcell, hclass⟩ := valueStruct_eq_some hv
    obtain ⟨c, hc, hbody⟩ := hs.old x _ hcell
    have hstruct : c.body.isStruct cls = true := by
      rw [← hbody]
      exact hclass
    obtain ⟨k, fs, hfs, hsome⟩ := valueStruct_ref hc hstruct
    rw [← hbody] at hfs
    cases hfs
    exact ⟨c.rc, hsome⟩
  intro n
  induction n with
  | zero =>
    intro v hn
    cases hv : valueStruct cls h' v with
    | none => exact hv
    | some r =>
      obtain ⟨x, rc, classId, fields⟩ := r
      obtain ⟨rc', hsome⟩ := hback hv
      rw [show valueStruct cls h v = none from hn] at hsome
      cases hsome
  | succ n ih =>
    intro v hn x rc classId fields hv f hf
    obtain ⟨rc', hsome⟩ := hback hv
    exact ih (hn x rc' classId fields hsome f hf)

/-- **One more reference** to a counted value. -/
theorem retain_accounted (hb : Accounted cls out h O) (hl : Live h v)
    (hv : valueStruct cls h v = none) :
    Accounted cls out (retain cls h v) (v.ids ++ O) ∧ Grows h (retain cls h v) := by
  cases v with
  | scalar t p => exact ⟨hb, Grows.refl h⟩
  | literal b => exact ⟨hb, Grows.refl h⟩
  | ref x =>
    obtain ⟨c, hx⟩ := hl x (List.mem_singleton.mpr rfl)
    have hc : ¬ c.body.isStruct cls = true := by
      intro hs
      obtain ⟨_, _, _, hsome⟩ := valueStruct_ref hx hs
      rw [hv] at hsome
      cases hsome
    rw [retain, counted_ref hx hc]
    exact ⟨hb.retain hx hc, Grows.put_rc hx _⟩

/-- A value struct is not counted. -/
theorem retain_struct {r : Nat × Nat × Nat × List Value} (hv : valueStruct cls h v = some r) :
    retain cls h v = h := by
  obtain ⟨x, rc, classId, fields⟩ := r
  obtain ⟨rfl, hcell, hclass⟩ := valueStruct_eq_some hv
  rw [retain, counted_ref_eq_none hcell hclass]

/-- A block that no struct refers to may be overwritten. -/
theorem grounded_put (hx : x < h.length)
    (hno : ∀ z rc classId fields, h.cell z = some ⟨rc, .obj classId fields⟩ →
      cls.isvalueclass classId = true → Value.ref x ∉ fields) :
    ∀ {n : Nat} {v : Value}, v ≠ .ref x → grounded cls h n v → grounded cls (h.put x c) n v := by
  have hsame : ∀ {v : Value}, v ≠ .ref x → valueStruct cls (h.put x c) v = valueStruct cls h v := by
    intro v hv
    cases v with
    | ref z =>
      have hzx : z ≠ x := fun heq => hv (by rw [heq])
      simp only [valueStruct, Store.cell_put hx, if_neg hzx]
    | _ => rfl
  intro n
  induction n with
  | zero =>
    intro v hv hn
    exact (hsame hv).trans hn
  | succ n ih =>
    intro v hv hn z rc classId fields hsome f hf
    rw [hsame hv] at hsome
    obtain ⟨_, hcell, hclass⟩ := valueStruct_eq_some hsome
    refine ih ?_ (hn z rc classId fields hsome f hf)
    intro heq
    rw [heq] at hf
    exact hno z rc classId fields hcell hclass hf

/-- Only the value structs matter. -/
theorem grounded_congr (hsame : ∀ v, valueStruct cls h' v = valueStruct cls h v) :
    ∀ {n : Nat} {v : Value}, grounded cls h n v → grounded cls h' n v := by
  intro n
  induction n with
  | zero =>
    intro v hn
    exact (hsame v).trans hn
  | succ n ih =>
    intro v hn x rc classId fields hsome f hf
    rw [hsame] at hsome
    exact ih (hn x rc classId fields hsome f hf)

variable (cls) in
/-- The blocks that an operation added are value structs that nest at most `n` deep. -/
def Fresh (n : Nat) (h h' : Heap) : Prop :=
  ∀ z c, h.length ≤ z → h'.cell z = some c →
    c.body.isStruct cls = true ∧ grounded cls h' n (.ref z)

variable (cls) in
/-- What `lvrt_copyval` made of `v`. -/
structure Copied (out : Nat → Body → List Nat) (n : Nat) (h : Heap) (O : List Nat) (v : Value)
    (h' : Heap) (v' : Value) : Prop where
  grows : Grows h h'
  same : valueStruct cls h v = none → h' = h ∧ v' = v
  owned : valueStruct cls h v ≠ none → Accounted cls out h' (v'.ids ++ O) ∧
    valueStruct cls h' v' ≠ none
  deep : grounded cls h' n v'
  fresh : Fresh cls n h h'

variable (cls) in
/-- What a walk over the fields made of them: values that own what they refer to. -/
structure FieldsCopied (out : Nat → Body → List Nat) (n : Nat) (h : Heap) (O : List Nat)
    (h' : Heap) (vs : List Value) : Prop where
  grows : Grows h h'
  owned : Accounted cls out h' (vs.flatMap Value.ids ++ O)
  deep : ∀ v ∈ vs, grounded cls h' n v
  fresh : Fresh cls n h h'

theorem Fresh.refl (n : Nat) (h : Heap) : Fresh cls n h h := by
  intro z c hz hc
  rw [Store.cell_eq_none hz] at hc
  cases hc

/-- What is deep enough stays so while the heap grows. -/
theorem Fresh.trans {h'' : Heap} (h₁ : Fresh cls n h h') (hb : Accounted cls out h' O)
    (hu : Usual cls out h') (hg : Grows h' h'') (h₂ : Fresh cls n h' h'') : Fresh cls n h h'' := by
  intro z c hz hc
  by_cases hlt : z < h'.length
  · obtain ⟨d, hd, hbody⟩ := hg.old z c hlt hc
    obtain ⟨hstruct, hdeep⟩ := h₁ z d hz hd
    refine ⟨by rw [hbody]; exact hstruct, grounded_grows hb hu hg ?_ hdeep⟩
    intro y hy
    rw [List.mem_singleton.mp hy]
    exact ⟨d, hd⟩
  · exact h₂ z c (by omega) hc

/-- One field is copied and retained. -/
theorem Copied.retain {v' : Value} (hc : Copied cls out n h O v h' v') (hb : Accounted cls out h O)
    (hu : Usual cls out h) (hl : Live h v) :
    FieldsCopied cls out n h O (retain cls h' v') [v'] := by
  have hids : [v'].flatMap Value.ids = v'.ids := by simp
  by_cases hv : valueStruct cls h v = none
  · obtain ⟨rfl, rfl⟩ := hc.same hv
    obtain ⟨hretained, hgrows⟩ := retain_accounted hb hl hv
    refine ⟨hgrows, by rw [hids]; exact hretained, ?_, ?_⟩
    · intro w hw
      rw [List.mem_singleton.mp hw]
      exact grounded_grows hb hu hgrows hl hc.deep
    · intro z c hz hcell
      rw [Store.cell_eq_none] at hcell
      · cases hcell
      · rw [retain_length]
        exact hz
  · obtain ⟨howned, hstruct⟩ := hc.owned hv
    obtain ⟨r, hr⟩ := Option.ne_none_iff_exists'.mp hstruct
    rw [retain_struct hr]
    refine ⟨hc.grows, by rw [hids]; exact howned, ?_, hc.fresh⟩
    intro w hw
    rw [List.mem_singleton.mp hw]
    exact hc.deep

/-- The fields one after the other, given what a copy of one does. -/
theorem copyFields_copied {copy : Heap → Value → Option (Heap × Value)}
    (hcopy : ∀ {h : Heap} {O : List Nat} {v : Value}, Accounted cls out h O → Usual cls out h →
      Live h v → grounded cls h n v →
      ∃ h' v', copy h v = some (h', v') ∧ Copied cls out n h O v h' v') :
    ∀ (fs : List Value) {h : Heap} {O : List Nat}, Accounted cls out h O → Usual cls out h →
      (∀ f ∈ fs, Live h f) → (∀ f ∈ fs, grounded cls h n f) →
      ∃ h' vs, copyFields cls copy h fs = some (h', vs) ∧ vs.length = fs.length ∧
        FieldsCopied cls out n h O h' vs := by
  intro fs
  induction fs with
  | nil =>
    intro h O hb _ _ _
    exact ⟨h, [], rfl, rfl, Grows.refl h, hb, fun v hv => absurd hv not_mem_nil,
      Fresh.refl n h⟩
  | cons f fs ih =>
    intro h O hb hu hl hn
    obtain ⟨h₁, v, hfirst, hcopied⟩ :=
      hcopy hb hu (hl f mem_cons_self) (hn f mem_cons_self)
    have hone := hcopied.retain hb hu (hl f mem_cons_self)
    have hb₁ : Accounted cls out (retain cls h₁ v) (v.ids ++ O) := by
      have howned := hone.owned
      rwa [flatMap_cons, flatMap_nil, append_nil] at howned
    have hu₁ := hu.grows hone.grows
    have hl₁ : ∀ g ∈ fs, Live (retain cls h₁ v) g :=
      fun g hg => (hl g (mem_cons_of_mem f hg)).grows hone.grows
    have hn₁ : ∀ g ∈ fs, grounded cls (retain cls h₁ v) n g :=
      fun g hg => grounded_grows hb hu hone.grows (hl g (mem_cons_of_mem f hg))
        (hn g (mem_cons_of_mem f hg))
    obtain ⟨h₂, vs, hrest, hlen, hmany⟩ := ih hb₁ hu₁ hl₁ hn₁
    refine ⟨h₂, v :: vs, ?_, by simp [hlen], hone.grows.trans hmany.grows, ?_, ?_,
      hone.fresh.trans hb₁ hu₁ hmany.grows hmany.fresh⟩
    · rw [copyFields, hfirst, Option.bind_some, hrest]
      rfl
    · refine hmany.owned.perm ?_
      rw [flatMap_cons, ← append_assoc]
      exact List.perm_append_comm.append_right O
    · intro w hw
      obtain rfl | hmem := List.mem_cons.mp hw
      · refine grounded_grows hb₁ hu₁ hmany.grows ?_ (hone.deep w mem_cons_self)
        exact fun x hx => hb₁.live_of_mem (mem_append_left O hx)
      · exact hmany.deep w hmem

/-- No slot refers to a struct that a handle owns. -/
theorem not_mem_fields_of_owned (hu : Usual cls out h) (hb : Accounted cls out h (x :: O))
    (hx : h.cell x = some c) (hc : c.body.isStruct cls = true)
    (hz : h.cell z = some ⟨rc, .obj classId fields⟩) (hclass : cls.isvalueclass classId = true) :
    Value.ref x ∉ fields := by
  intro hmem
  have hslot : x ∈ out z (.obj classId fields) := by
    rw [hu.struct hz hclass]
    simp only [Body.slots, Body.owned, mem_flatMap, mem_map]
    exact ⟨(.ref x, true), ⟨.ref x, hmem, rfl⟩, List.mem_singleton.mpr rfl⟩
  have hpos := owners_pos_of_slot (O := O) hz hslot
  have hzero := hb.owners_eq_zero hx hc
  omega

/-- **`lvrt_copyval` ends and keeps the account**: a copy of a value struct is owned by the one
handle it is returned in. -/
theorem copyvalWith_copied (n : Nat) : ∀ {h : Heap} {O : List Nat} {v : Value},
    Accounted cls out h O → Usual cls out h → Live h v → grounded cls h n v →
    ∃ h' v', copyvalWith cls (n + 1) h v = some (h', v') ∧ Copied cls out n h O v h' v' := by
  induction n with
  | zero =>
    intro h O v hb _ _ hn
    have hnone : valueStruct cls h v = none := hn
    refine ⟨h, v, by rw [copyvalWith, hnone], Grows.refl h, fun _ => ⟨rfl, rfl⟩,
      fun hne => absurd hnone hne, hn, Fresh.refl 0 h⟩
  | succ n ih =>
    intro h O v hb hu hl hn
    cases hv : valueStruct cls h v with
    | none =>
      exact ⟨h, v, by rw [copyvalWith, hv], Grows.refl h, fun _ => ⟨rfl, rfl⟩,
        fun hne => absurd hv hne, hn, Fresh.refl (n + 1) h⟩
    | some r =>
      obtain ⟨x, rc, classId, fields⟩ := r
      obtain ⟨rfl, hcell, hclass⟩ := valueStruct_eq_some hv
      -- the block of the copy, with void fields
      let body : Body := .obj classId (fields.map fun _ => Value.void)
      let h₁ : Heap := h.alloc ⟨0, body⟩
      have hg₁ : Grows h h₁ := Grows.alloc h _
      have hslots : body.slots = [] := by
        simp [body, Body.slots, Body.owned, Value.void, Value.ids]
      have hb₁ : Accounted cls out h₁ (h.length :: O) := by
        have hstart : Accounted cls out h
            (out h.length (⟨0, body⟩ : Block Body).body ++ O) := by
          rw [hu.fresh (le_refl _), hslots]
          exact hb
        exact hstart.alloc (n := 1) (fun hs => absurd hclass hs) (fun _ => ⟨rfl, le_refl 1⟩)
      have hu₁ := hu.grows hg₁
      have hlive : ∀ f ∈ fields, Live h f := fun f hf => live_of_field hb hu hcell hclass hf
      have hdeep : ∀ f ∈ fields, grounded cls h n f :=
        fun f hf => hn x rc classId fields hv f hf
      obtain ⟨h₂, vs, hcopy, _, hmany⟩ := copyFields_copied ih fields hb₁ hu₁
        (fun f hf => (hlive f hf).grows hg₁)
        (fun f hf => grounded_grows hb hu hg₁ (hlive f hf) (hdeep f hf))
      -- the copies move into its fields
      have hx₁ : h₁.cell h.length = some ⟨0, body⟩ := by rw [Store.cell_alloc, if_pos rfl]
      obtain ⟨c, hc, hbody⟩ := hmany.grows.kept _ _ hx₁
      have hlt₂ := Store.lt_of_cell hc
      have hcstruct : c.body.isStruct cls = true := by
        rw [hbody]
        exact hclass
      have hu₂ := hu₁.grows hmany.grows
      have hfree := hu₂.struct hc hcstruct
      have hperm : (out h.length c.body ++ vs.flatMap Value.ids).Perm
          (out h.length (.obj classId vs) ++ []) := by
        rw [hfree, hbody, hslots, append_nil, nil_append]
        simp [Body.slots, Body.owned, flatMap_map]
      have hsingle : (Body.obj classId vs).isStruct cls = true ↔ c.body.isStruct cls = true :=
        ⟨fun _ => hcstruct, fun _ => hclass⟩
      have hb₃ := hmany.owned.exchange hc hsingle (fun _ _ => rfl) hperm
      have hb₂ : Accounted cls out h₂ (h.length :: (vs.flatMap Value.ids ++ O)) :=
        hmany.owned.perm perm_middle
      have hno : ∀ z rc k fs, h₂.cell z = some ⟨rc, .obj k fs⟩ →
          cls.isvalueclass k = true → Value.ref h.length ∉ fs :=
        fun z rc k fs hz hk => not_mem_fields_of_owned hu₂ hb₂ hc hcstruct hz hk
      have hput : (h₂.put h.length ⟨c.rc, .obj classId vs⟩).cell h.length =
          some ⟨c.rc, .obj classId vs⟩ := by
        rw [Store.cell_put hlt₂, if_pos rfl]
      have hvs : ∀ w ∈ vs, grounded cls (h₂.put h.length ⟨c.rc, .obj classId vs⟩) n w := by
        intro w hw
        refine grounded_put hlt₂ hno ?_ (hmany.deep w hw)
        intro heq
        have hzero := hb₂.owners_eq_zero hc hcstruct
        have hmem : h.length ∈ vs.flatMap Value.ids := by
          rw [mem_flatMap]
          exact ⟨w, hw, by rw [heq]; exact List.mem_singleton.mpr rfl⟩
        have hpos := owners_pos_of_mem out h₂ (mem_append_left O hmem)
        omega
      have hself : grounded cls (h₂.put h.length ⟨c.rc, .obj classId vs⟩) (n + 1)
          (.ref h.length) := by
        intro y rc' k fs hsome f hf
        obtain ⟨heq, hy, _⟩ := valueStruct_eq_some hsome
        cases heq
        rw [hput] at hy
        cases hy
        exact hvs f hf
      refine ⟨h₂.put h.length ⟨c.rc, .obj classId vs⟩, .ref h.length, ?_,
        Grows.put_fresh (hg₁.trans hmany.grows) (le_refl _) hlt₂ _,
        fun hnone => absurd (hv.symm.trans hnone) (by simp), fun _ => ⟨hb₃, ?_⟩, hself, ?_⟩
      · rw [copyvalWith, hv]
        simp only [halloc]
        change Option.map _ (copyFields cls (copyvalWith cls (n + 1)) h₁ fields) = _
        rw [hcopy]
        simp only [Option.map_some, store, hc]
      · obtain ⟨_, _, _, hsome⟩ := valueStruct_ref hput hclass
        rw [hsome]
        simp
      · intro z d hz hd
        by_cases hzx : z = h.length
        · subst hzx
          rw [hput] at hd
          cases hd
          exact ⟨hclass, hself⟩
        · rw [Store.cell_put hlt₂, if_neg hzx] at hd
          obtain ⟨hs, hdeep'⟩ := hmany.fresh z d (by
            rw [Store.length_alloc]
            omega) hd
          refine ⟨hs, grounded_mono (Nat.le_succ n) (grounded_put hlt₂ hno ?_ hdeep')⟩
          intro heq
          cases heq
          exact hzx rfl

end Copies

end Leviathan.Runtime.Containers
