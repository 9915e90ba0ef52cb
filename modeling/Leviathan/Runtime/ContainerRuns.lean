import Leviathan.Lib.Runs
import Leviathan.Runtime.ContainerCalls

/-!
# Runs of container operations

The generated code calls the runtime on values that its registers hold.  A register that holds
a reference owns one count of it, or the value struct itself: these are the handles.  A call
takes its operands from different registers, and a result comes in a register of its own,
retained where the operation does not return it owned.

`lvrt_arr_append` and `lvrt_map_with` may take over the handle of their base.
`lvrt_idxset` may put the pointer to a value struct into a slot, and then the register has it no
more; `lvrt_idxset_move` is called with a value struct and always has it.
-/

namespace Leviathan.Runtime.Containers

open Leviathan.Owners Leviathan.Runs List

/-- The heap and the values in the registers. -/
structure World where
  heap : Heap
  handles : List Value

/-- The program starts. -/
def World.start : World := ⟨[], []⟩

/-- A call of the generated code. -/
inductive Call
  /-- an immediate or a string constant -/
  | const (v : Value)
  | str (bytes : List Nat)
  /-- the constructor of a class moves the fields in -/
  | obj (classId : Nat) (fields : List Value)
  | clo (captures : List Value)
  | block
  /-- a slice of a block, which keeps the root of that block -/
  | slice (v : Value)
  /-- a register is copied, or a weak slot made -/
  | move (v : Value)
  | weakProxy
  /-- `lvrt_release` and `lvrt_vfree` of a register -/
  | release (v : Value)
  | copyval (v : Value)
  | arrNew (len : Nat)
  | mapNew
  | arrFill (n : Int) (fill : Value)
  | arrAppend (base val : Value)
  | mapWith (base idx val : Value)
  | idxset (base idx val : Value)
  | idxsetMove (base idx val : Value)
  deriving DecidableEq

/-- Take values out of the registers. -/
def takeAll : List Value → List Value → Option (List Value)
  | [], hs => some hs
  | v :: vs, hs => if v ∈ hs then takeAll vs (hs.erase v) else none

variable (cls : Classes)

/-- A new block in a register of its own. -/
def born (w : World) (handles : List Value) (body : Body) : World :=
  let r := halloc w.heap 0 body
  ⟨retain cls r.1 r.2, r.2 :: handles⟩

/-- The result of an operation that does not return it owned. -/
def owned (handles : List Value) (r : Heap × Value) : World :=
  ⟨retain cls r.1 r.2, r.2 :: handles⟩

/-- The result of an operation that returns it owned, and may have the handle of its base. -/
def transferred (handles : List Value) (base : Value) (r : Heap × Value) : World :=
  ⟨r.1, r.2 :: if taken r.1 base r.2 then handles.erase base else handles⟩

/-- The root of a block. -/
def rootOf (h : Heap) : Value → Option Nat
  | .ref x =>
    match h.cell x with
    | some ⟨_, .block parent⟩ =>
      if valueStruct cls h (.ref (parent.getD x)) = none then some (parent.getD x) else none
    | _ => none
  | _ => none

/-- The value is an array or a map. -/
def isContainer (h : Heap) : Value → Bool
  | .ref x =>
    match h.cell x with
    | some ⟨_, .arr _ _⟩ => true
    | some ⟨_, .dense _ _⟩ => true
    | some ⟨_, .columnar _ _⟩ => true
    | some ⟨_, .map _⟩ => true
    | _ => false
  | _ => false

/-- One call; there is none on operands that no register holds. -/
def step (w : World) : Call → Option World
  | .const v => if v.ids = [] then some ⟨w.heap, v :: w.handles⟩ else none
  | .str bytes => some (born cls w w.handles (.str bytes))
  | .obj classId fields =>
    if fields.length = cls.fieldcount classId then
      (takeAll fields w.handles).map fun hs => born cls w hs (.obj classId fields)
    else none
  | .clo captures => (takeAll captures w.handles).map fun hs => born cls w hs (.clo captures)
  | .block => some (born cls w w.handles (.block none))
  | .slice v =>
    if v ∈ w.handles then
      match rootOf cls w.heap v with
      | some root =>
        some (born cls ⟨retain cls w.heap (.ref root), w.handles⟩ w.handles
          (.block (some root)))
      | none => none
    else none
  | .move v =>
    if v ∈ w.handles ∧ valueStruct cls w.heap v = none then
      some ⟨retain cls w.heap v, v :: w.handles⟩
    else none
  | .weakProxy => some (born cls w w.handles .weakProxy)
  | .release v =>
    if v ∈ w.handles then
      (Containers.release cls w.heap v).bind fun h =>
        (vfree cls h v).map fun h => ⟨h, w.handles.erase v⟩
    else none
  | .copyval v =>
    if v ∈ w.handles then (Containers.copyval cls w.heap v).map (owned cls w.handles) else none
  | .arrNew len => some (owned cls w.handles (Containers.arrNew w.heap len))
  | .mapNew => some (owned cls w.handles (Containers.mapNew w.heap))
  | .arrFill n fill =>
    if fill ∈ w.handles then
      let r := Containers.arrFill cls w.heap n fill
      some ⟨r.1, r.2 :: w.handles⟩
    else none
  | .arrAppend base val =>
    if base ∈ w.handles ∧ val ∈ w.handles.erase base then
      (Containers.arrAppend cls w.heap base val).map (transferred w.handles base)
    else none
  | .mapWith base idx val =>
    if base ∈ w.handles ∧ idx ∈ w.handles ∧ val ∈ w.handles.erase base then
      (Containers.mapWith cls w.heap base idx val).map (transferred w.handles base)
    else none
  | .idxset base idx val =>
    if isContainer w.heap base ∧ base ∈ w.handles ∧ idx ∈ w.handles ∧
        val ∈ w.handles.erase base then
      (Containers.idxset cls w.heap base idx val).map
        (owned cls (if moves cls w.heap base idx val then w.handles.erase val else w.handles))
    else none
  | .idxsetMove base idx val =>
    if isContainer w.heap base ∧ base ∈ w.handles ∧ idx ∈ w.handles ∧
        val ∈ w.handles.erase base ∧ (valueStruct cls w.heap val).isSome then
      (Containers.idxsetMove cls w.heap base idx val).map
        (owned cls (w.handles.erase val))
    else none

/-- How many container slots refer to an address. -/
def slotRefs (h : Heap) (x : Nat) : Nat := owners slots h [] x

/-- How many registers refer to an address. -/
def handleRefs (handles : List Value) (x : Nat) : Nat := (handles.flatMap Value.ids).count x

/-- **The ownership invariant of the containers.** -/
structure Sound (w : World) : Prop where
  /-- a dense or columnar buffer holds no heap reference -/
  packed : ∀ x c, w.heap.cell x = some c → c.body.Flat
  /-- a value struct is referenced by one slot at most -/
  structs : ∀ x c, w.heap.cell x = some c → c.body.isStruct cls = true → slotRefs w.heap x ≤ 1
  /-- a counted value has the count of the slots and handles that own it -/
  counts : ∀ x c, w.heap.cell x = some c → c.body.isStruct cls = false →
    c.rc = slotRefs w.heap x + handleRefs w.handles x
  /-- no slot and no register refers to a freed block -/
  live : ∀ x, 0 < slotRefs w.heap x + handleRefs w.handles x → ∃ c, w.heap.cell x = some c

/-- The calls that do not reach a branch that breaks the account. -/
def Safe (w : World) : Call → Prop
  | .arrFill n fill => FillSafe cls w.heap n fill
  | .arrAppend base val => AppendSafe cls w.heap base val
  | .mapWith base idx _ => MapSafe cls w.heap base idx
  | .idxset base idx val => IndexSafe cls w.heap base idx val
  | .idxsetMove base idx val => IndexSafe cls w.heap base idx val
  | _ => True

/-- The operands are in registers and of the kinds that the call is compiled for. -/
def Fits (w : World) : Call → Prop
  | .const v => v.ids = []
  | .obj classId fields =>
    fields.length = cls.fieldcount classId ∧ (takeAll fields w.handles).isSome = true
  | .clo captures => (takeAll captures w.handles).isSome = true
  | .slice v => v ∈ w.handles ∧ (rootOf cls w.heap v).isSome = true
  | .move v => v ∈ w.handles ∧ valueStruct cls w.heap v = none
  | .release v => v ∈ w.handles
  | .copyval v => v ∈ w.handles
  | .arrFill _ fill => fill ∈ w.handles
  | .arrAppend base val =>
    base ∈ w.handles ∧ val ∈ w.handles.erase base ∧ AppendFits cls w.heap base val
  | .mapWith base idx val =>
    base ∈ w.handles ∧ idx ∈ w.handles ∧ val ∈ w.handles.erase base ∧ MapFits w.heap base
  | .idxset base idx val =>
    base ∈ w.handles ∧ idx ∈ w.handles ∧ val ∈ w.handles.erase base ∧
      IndexFits cls w.heap base idx val
  | .idxsetMove base idx val =>
    base ∈ w.handles ∧ idx ∈ w.handles ∧ val ∈ w.handles.erase base ∧
      (valueStruct cls w.heap val).isSome = true ∧ IndexFits cls w.heap base idx val
  | _ => True

variable {base val : Value} {h : Heap} {r : Heap × Value}

section Steps

variable {cls} {w w' : World} {O : List Nat}

/-- The addresses in the registers. -/
abbrev World.ids (w : World) : List Nat := w.handles.flatMap Value.ids

variable (cls) in
/-- The invariant of `Runtime.ContainerAccounts` for the registers. -/
abbrev WorldKept (w : World) : Prop := Kept cls slots w.heap w.ids

theorem ids_perm {hs hs' : List Value} (hperm : hs.Perm hs') :
    (hs.flatMap Value.ids).Perm (hs'.flatMap Value.ids) := hperm.flatMap_right _

theorem takeAll_perm : ∀ {vs hs rest : List Value}, takeAll vs hs = some rest →
    hs.Perm (vs ++ rest) := by
  intro vs
  induction vs with
  | nil =>
    intro hs rest h
    cases h
    exact List.Perm.refl hs
  | cons v vs ih =>
    intro hs rest h
    rw [takeAll] at h
    split at h
    · next hmem => exact (perm_cons_erase hmem).trans ((ih h).cons v)
    · cases h

/-- Two operands in different registers. -/
theorem perm_operands {hs : List Value} (hbase : base ∈ hs) (hval : val ∈ hs.erase base) :
    ∃ rest, hs.Perm (base :: val :: rest) ∧
      (hs.erase base).Perm (val :: rest) ∧ (hs.erase val).Perm (base :: rest) := by
  have h₁ := perm_cons_erase hbase
  have h₂ := perm_cons_erase hval
  have h₃ := h₁.trans (h₂.cons base)
  refine ⟨(hs.erase base).erase val, h₃, h₂, ?_⟩
  have h₄ := (h₃.trans (List.Perm.swap val base _)).erase val
  rwa [erase_cons_head] at h₄

/-- A new counted block in a register. -/
theorem kept_born {b : Body} (hk : Kept cls slots h (b.slots ++ O)) (hb : ¬ b.isStruct cls = true)
    (hflat : b.Flat) (hkeys : KeysTidy cls h b) :
    Kept cls slots (retain cls (h.alloc ⟨0, b⟩) (.ref h.length)) (h.length :: O) := by
  have hk₁ := Kept.alloc (n := 0) hk hb hflat hkeys
  have hcell : (h.alloc ⟨0, b⟩).cell h.length = some ⟨0, b⟩ := by
    rw [Store.cell_alloc, if_pos rfl]
  have hlive : Live (h.alloc ⟨0, b⟩) (.ref h.length) := by
    intro y hy
    rw [List.mem_singleton.mp hy]
    exact ⟨_, hcell⟩
  exact (hk₁.retain hlive (valueStruct_ref_eq_none hcell hb)).1

/-- A result without a handle gets a register. -/
theorem kept_owned {h' : Heap} {x y : Nat} (hs : Stored cls h h' x y O) :
    Kept cls slots (retain cls h' (.ref y)) (y :: x :: O) := by
  obtain ⟨c, hc, hno, _⟩ := hs.cell
  have hlive : Live h' (.ref y) := by
    intro z hz
    rw [List.mem_singleton.mp hz]
    exact ⟨c, hc⟩
  exact (hs.kept.retain hlive (valueStruct_ref_eq_none hc hno)).1

/-- A copy in a register. -/
theorem kept_copyval {v : Value} (hk : Kept cls slots h O) (hl : Live h v) :
    ∃ r, copyval cls h v = some r ∧
      Kept cls slots (retain cls r.1 r.2) (r.2.ids ++ O) := by
  obtain ⟨h', v', hcopy, hcopied⟩ := copyvalWith_copied h.length hk.balanced hk.usual hl
    (hk.deep_of_live hl)
  refine ⟨(h', v'), hcopy, ?_⟩
  cases hv : valueStruct cls h v with
  | none =>
    obtain ⟨rfl, rfl⟩ := hcopied.same hv
    exact (hk.retain hl hv).1
  | some r =>
    obtain ⟨h₁, v₁, hstore, hk₁, _⟩ := hk.storeOwned hl
    rw [storeOwned, hv] at hstore
    have hsame := hcopy.symm.trans hstore
    cases hsame
    obtain ⟨_, hstruct⟩ := hcopied.owned (by rw [hv]; simp)
    obtain ⟨r', hr'⟩ := Option.ne_none_iff_exists'.mp hstruct
    rw [retain_struct hr']
    exact hk₁

theorem live_of_mem_handles (hk : WorldKept cls w) {v : Value} (hv : v ∈ w.handles) :
    Live w.heap v :=
  hk.live fun _ hx => List.mem_flatMap.mpr ⟨v, hv, hx⟩

/-- The handles after a call that may have taken its base. -/
theorem kept_transferred {handles : List Value} {x : Nat} {h' : Heap} {out : Value}
    (hbase : .ref x ∈ handles)
    (hk : Kept cls slots h' (out.ids ++
      if taken h' (.ref x) out then (handles.erase (.ref x)).flatMap Value.ids
      else x :: (handles.erase (.ref x)).flatMap Value.ids)) :
    WorldKept cls (transferred handles (.ref x) (h', out)) := by
  change Kept cls slots h' (out.ids ++ List.flatMap Value.ids (if taken h' (.ref x) out then _
    else _))
  split
  · next htaken =>
      rw [if_pos htaken] at hk
      exact hk
  · next htaken =>
      rw [if_neg htaken] at hk
      exact hk.perm ((ids_perm (perm_cons_erase hbase)).symm.append_left out.ids)

theorem IndexFits.isContainer {idx : Value} (hfits : IndexFits cls h base idx val) :
    isContainer h base = true := by
  obtain ⟨x, ⟨rc, body⟩, rfl, hx, hbody⟩ := hfits
  simp only [Containers.isContainer, hx]
  cases body <;> first | rfl | exact hbody.elim

/-- **A call on fitting operands returns, and a safe one keeps the account.** -/
theorem step_kept (hk : WorldKept cls w) {call : Call} (hfits : Fits cls w call)
    (hsafe : Safe cls w call) : ∃ w', step cls w call = some w' ∧ WorldKept cls w' := by
  cases call with
  | const v =>
    have hids : v.ids = [] := hfits
    refine ⟨_, by rw [step, if_pos hids], ?_⟩
    change Kept cls slots w.heap (v.ids ++ w.ids)
    rw [hids]
    exact hk
  | str bytes =>
    exact ⟨_, rfl, kept_born (b := .str bytes) hk (by simp [Body.isStruct]) trivial trivial⟩
  | obj classId fields =>
    obtain ⟨hlen, htake⟩ := hfits
    obtain ⟨rest, hrest⟩ := Option.isSome_iff_exists.mp htake
    have hperm := ids_perm (takeAll_perm hrest)
    rw [flatMap_append] at hperm
    refine ⟨_, by rw [step, if_pos hlen, hrest]; rfl, ?_⟩
    have hk' : Kept cls slots w.heap (Body.slots (.obj classId fields) ++
        rest.flatMap Value.ids) := by
      rw [slots_obj]
      exact hk.perm hperm
    by_cases hclass : cls.isvalueclass classId = true
    · have hfields : ∀ f ∈ fields, Live w.heap f := fun f hf =>
        live_of_mem_handles hk ((takeAll_perm hrest).mem_iff.mpr (mem_append_left _ hf))
      have hk₁ := hk'.allocStruct hclass hfields
      have hcell : Store.cell (w.heap.alloc ⟨0, .obj classId fields⟩) w.heap.length =
          some ⟨0, .obj classId fields⟩ := by
        rw [Store.cell_alloc, if_pos rfl]
      have hbody : (Body.obj classId fields).isStruct cls = true := hclass
      obtain ⟨_, _, _, hstruct⟩ := valueStruct_ref hcell hbody
      change Kept cls slots (retain cls (w.heap.alloc ⟨0, .obj classId fields⟩)
        (.ref w.heap.length)) (w.heap.length :: rest.flatMap Value.ids)
      rw [retain_struct hstruct]
      exact hk₁
    · exact kept_born hk' hclass trivial trivial
  | clo captures =>
    obtain ⟨rest, hrest⟩ := Option.isSome_iff_exists.mp hfits
    have hperm := ids_perm (takeAll_perm hrest)
    rw [flatMap_append] at hperm
    refine ⟨_, by rw [step, hrest]; rfl, ?_⟩
    refine kept_born (b := .clo captures) ?_ (by simp [Body.isStruct]) trivial trivial
    rw [slots_clo]
    exact hk.perm hperm
  | block =>
    exact ⟨_, rfl, kept_born (b := .block none) hk (by simp [Body.isStruct]) trivial trivial⟩
  | slice v =>
    obtain ⟨hmem, hroot⟩ := hfits
    obtain ⟨root, hroot⟩ := Option.isSome_iff_exists.mp hroot
    refine ⟨_, by rw [step, if_pos hmem, hroot], ?_⟩
    have hlive : Live w.heap (.ref root) ∧ valueStruct cls w.heap (.ref root) = none := by
      unfold rootOf at hroot
      split at hroot
      · next x =>
          split at hroot
          · next rc parent hx =>
              split at hroot
              · next hno =>
                  cases hroot
                  refine ⟨?_, hno⟩
                  cases parent with
                  | none => exact live_of_mem_handles hk hmem
                  | some p =>
                    refine hk.live_of_slot hx fun y hy => ?_
                    rw [List.mem_singleton.mp hy]
                    exact List.mem_singleton.mpr rfl
              · cases hroot
          · cases hroot
      · cases hroot
    obtain ⟨hk₁, _⟩ := hk.retain hlive.1 hlive.2
    exact kept_born (b := .block (some root)) hk₁ (by simp [Body.isStruct]) trivial trivial
  | move v =>
    obtain ⟨hmem, hno⟩ := hfits
    refine ⟨_, by rw [step, if_pos ⟨hmem, hno⟩], ?_⟩
    exact (hk.retain (live_of_mem_handles hk hmem) hno).1
  | weakProxy =>
    exact ⟨_, rfl, kept_born (b := .weakProxy) hk (by simp [Body.isStruct]) trivial trivial⟩
  | release v =>
    have hmem : v ∈ w.handles := hfits
    have hk' : Kept cls slots w.heap (v.ids ++ (w.handles.erase v).flatMap Value.ids) :=
      hk.perm (ids_perm (perm_cons_erase hmem))
    obtain ⟨h₁, h₂, hrelease, hvfree, hk₂, _⟩ := hk'.releaseVfree fun _ => Or.inl rfl
    refine ⟨⟨h₂, w.handles.erase v⟩, ?_, hk₂⟩
    rw [step, if_pos hmem, hrelease, Option.bind_some, hvfree]
    rfl
  | copyval v =>
    have hmem : v ∈ w.handles := hfits
    obtain ⟨r, hcopy, hk'⟩ := kept_copyval hk (live_of_mem_handles hk hmem)
    exact ⟨_, by rw [step, if_pos hmem, hcopy]; rfl, hk'⟩
  | arrNew len =>
    refine ⟨_, rfl, kept_born (b := .arr len (List.replicate len .void)) ?_
      (by simp [Body.isStruct]) trivial trivial⟩
    have hids : (List.replicate len Value.void).flatMap Value.ids = [] := by
      rw [flatMap_eq_nil_iff]
      intro v hv
      rw [eq_of_mem_replicate hv]
      rfl
    rw [slots_arr, hids]
    exact hk
  | mapNew =>
    exact ⟨_, rfl, kept_born (b := .map []) hk (by simp [Body.isStruct]) trivial
      fun e he => absurd he not_mem_nil⟩
  | arrFill n fill =>
    have hmem : fill ∈ w.handles := hfits
    refine ⟨_, by rw [step, if_pos hmem], ?_⟩
    exact arrFill_kept hk (fun y hy => List.mem_flatMap.mpr ⟨fill, hmem, hy⟩) hsafe
  | arrAppend base val =>
    obtain ⟨hbase, hval, hfits⟩ := hfits
    obtain ⟨x, c, rfl, hrest⟩ := id hfits
    have hk' : Kept cls slots w.heap (x :: (w.handles.erase (.ref x)).flatMap Value.ids) :=
      hk.perm (ids_perm (perm_cons_erase hbase))
    obtain ⟨h', out, hrun, hk₁⟩ := arrAppend_kept hk'
      (fun y hy => List.mem_flatMap.mpr ⟨val, hval, hy⟩) hfits hsafe
    exact ⟨_, by rw [step, if_pos ⟨hbase, hval⟩, hrun]; rfl, kept_transferred hbase hk₁⟩
  | mapWith base idx val =>
    obtain ⟨hbase, hidx, hval, hfits⟩ := hfits
    obtain ⟨x, rc, entries, rfl, _⟩ := id hfits
    have hk' : Kept cls slots w.heap (x :: (w.handles.erase (.ref x)).flatMap Value.ids) :=
      hk.perm (ids_perm (perm_cons_erase hbase))
    obtain ⟨h', out, hrun, hk₁⟩ := mapWith_kept hk' (live_of_mem_handles hk hidx)
      (fun y hy => List.mem_flatMap.mpr ⟨val, hval, hy⟩) hfits hsafe
    exact ⟨_, by rw [step, if_pos ⟨hbase, hidx, hval⟩, hrun]; rfl, kept_transferred hbase hk₁⟩
  | idxset base idx val =>
    obtain ⟨hbase, hidx, hval, hfits⟩ := hfits
    have hcontainer := hfits.isContainer
    obtain ⟨x, _, rfl, _⟩ := id hfits
    obtain ⟨rest, hall, _, hnoval⟩ := perm_operands hbase hval
    have hk' : Kept cls slots w.heap (x :: (val.ids ++ rest.flatMap Value.ids)) :=
      hk.perm (ids_perm hall)
    obtain ⟨h', y, hrun, hstored⟩ := idxset_kept hk' (live_of_mem_handles hk hidx) hfits hsafe
    refine ⟨_, by rw [step, if_pos ⟨hcontainer, hbase, hidx, hval⟩, hrun]; rfl, ?_⟩
    refine (kept_owned hstored).perm (List.Perm.cons y ?_)
    split
    · exact (ids_perm hnoval).symm
    · exact (ids_perm hall).symm
  | idxsetMove base idx val =>
    obtain ⟨hbase, hidx, hval, hstruct, hfits⟩ := hfits
    have hcontainer := hfits.isContainer
    obtain ⟨x, _, rfl, _⟩ := id hfits
    obtain ⟨rest, hall, _, hnoval⟩ := perm_operands hbase hval
    have hk' : Kept cls slots w.heap (x :: (val.ids ++ rest.flatMap Value.ids)) :=
      hk.perm (ids_perm hall)
    obtain ⟨h', y, hrun, hstored⟩ := idxsetMove_kept hk' (live_of_mem_handles hk hidx) hfits
      hsafe (Option.ne_none_iff_isSome.mpr hstruct)
    refine ⟨_, by rw [step, if_pos ⟨hcontainer, hbase, hidx, hval, hstruct⟩, hrun]; rfl, ?_⟩
    exact (kept_owned hstored).perm (List.Perm.cons y (ids_perm hnoval).symm)

theorem arrAppend_fits (hrun : arrAppend cls h base val = some r) : AppendFits cls h base val := by
  unfold arrAppend at hrun
  split at hrun
  · next x =>
      split at hrun
      · next rc k rows hx =>
          obtain ⟨r', hr', _⟩ := Option.map_eq_some_iff.mp hrun
          exact ⟨x, _, rfl, hx, Option.isSome_iff_exists.mpr ⟨r', hr'⟩⟩
      · next rc f records hx =>
          obtain ⟨r', hr', _⟩ := Option.map_eq_some_iff.mp hrun
          exact ⟨x, _, rfl, hx, Option.isSome_iff_exists.mpr ⟨r', hr'⟩⟩
      · next rc capacity elems hx => exact ⟨x, _, rfl, hx, trivial⟩
      · cases hrun
  · cases hrun

theorem mapWith_fits {idx : Value} (hrun : mapWith cls h base idx val = some r) :
    MapFits h base := by
  unfold mapWith at hrun
  split at hrun
  · next x =>
      split at hrun
      · next rc entries hx => exact ⟨x, rc, entries, rfl, hx⟩
      · cases hrun
  · cases hrun

theorem idxset_fits {idx : Value} (hcontainer : isContainer h base = true)
    (hrun : idxset cls h base idx val = some r) :
    IndexFits cls h base idx val := by
  unfold isContainer at hcontainer
  split at hcontainer
  · next x =>
      split at hcontainer
      · next hx => exact ⟨x, _, rfl, hx, trivial⟩
      · next f records hx =>
          refine ⟨x, _, rfl, hx, fun hrange => ?_⟩
          simp only [idxset, hx, hrange, if_true] at hrun
          obtain ⟨_, hwritten, _⟩ := Option.map_eq_some_iff.mp hrun
          obtain ⟨r', hr', _⟩ := Option.map_eq_some_iff.mp hwritten
          exact Option.isSome_iff_exists.mpr ⟨r', hr'⟩
      · next k rows hx =>
          refine ⟨x, _, rfl, hx, fun hrange => ?_⟩
          simp only [idxset, hx, hrange, if_true] at hrun
          obtain ⟨_, hwritten, _⟩ := Option.map_eq_some_iff.mp hrun
          obtain ⟨r', hr', _⟩ := Option.map_eq_some_iff.mp hwritten
          exact Option.isSome_iff_exists.mpr ⟨r', hr'⟩
      · next hx => exact ⟨x, _, rfl, hx, trivial⟩
      · cases hcontainer
  · cases hcontainer

/-- **A call that returns had fitting operands.** -/
theorem step_fits {call : Call} (hstep : step cls w call = some w') : Fits cls w call := by
  cases call with
  | const v =>
    obtain ⟨hids, _⟩ := Option.ite_none_right_eq_some.mp hstep
    exact hids
  | obj classId fields =>
    obtain ⟨hlen, hrest⟩ := Option.ite_none_right_eq_some.mp hstep
    obtain ⟨rest, hrest, _⟩ := Option.map_eq_some_iff.mp hrest
    exact ⟨hlen, Option.isSome_iff_exists.mpr ⟨rest, hrest⟩⟩
  | clo captures =>
    obtain ⟨rest, hrest, _⟩ := Option.map_eq_some_iff.mp hstep
    exact Option.isSome_iff_exists.mpr ⟨rest, hrest⟩
  | slice v =>
    obtain ⟨hmem, hrest⟩ := Option.ite_none_right_eq_some.mp hstep
    split at hrest
    · next root hroot => exact ⟨hmem, Option.isSome_iff_exists.mpr ⟨root, hroot⟩⟩
    · cases hrest
  | move v =>
    obtain ⟨hv, _⟩ := Option.ite_none_right_eq_some.mp hstep
    exact hv
  | release v =>
    obtain ⟨hmem, _⟩ := Option.ite_none_right_eq_some.mp hstep
    exact hmem
  | copyval v =>
    obtain ⟨hmem, _⟩ := Option.ite_none_right_eq_some.mp hstep
    exact hmem
  | arrFill n fill =>
    obtain ⟨hmem, _⟩ := Option.ite_none_right_eq_some.mp hstep
    exact hmem
  | arrAppend base val =>
    obtain ⟨⟨hbase, hval⟩, hrun⟩ := Option.ite_none_right_eq_some.mp hstep
    obtain ⟨r, hrun, _⟩ := Option.map_eq_some_iff.mp hrun
    exact ⟨hbase, hval, arrAppend_fits hrun⟩
  | mapWith base idx val =>
    obtain ⟨⟨hbase, hidx, hval⟩, hrun⟩ := Option.ite_none_right_eq_some.mp hstep
    obtain ⟨r, hrun, _⟩ := Option.map_eq_some_iff.mp hrun
    exact ⟨hbase, hidx, hval, mapWith_fits hrun⟩
  | idxset base idx val =>
    obtain ⟨⟨hcontainer, hbase, hidx, hval⟩, hrun⟩ := Option.ite_none_right_eq_some.mp hstep
    obtain ⟨r, hrun, _⟩ := Option.map_eq_some_iff.mp hrun
    exact ⟨hbase, hidx, hval, idxset_fits hcontainer hrun⟩
  | idxsetMove base idx val =>
    obtain ⟨⟨hcontainer, hbase, hidx, hval, hstruct⟩, hrun⟩ :=
      Option.ite_none_right_eq_some.mp hstep
    obtain ⟨r, hrun, _⟩ := Option.map_eq_some_iff.mp hrun
    obtain ⟨r', hrun, _⟩ := Option.bind_eq_some_iff.mp hrun
    exact ⟨hbase, hidx, hval, hstruct, idxset_fits hcontainer hrun⟩
  | _ => trivial

/-- The account of the operations, in terms of slots and registers. -/
theorem sound_of_kept (hk : WorldKept cls w) : Sound cls w := by
  have howners : ∀ x, owners slots w.heap w.ids x =
      slotRefs w.heap x + handleRefs w.handles x := by
    intro x
    rw [slotRefs, handleRefs, owners, owners, count_nil]
    simp only [World.ids]
    omega
  refine ⟨hk.flat, ?_, ?_, ?_⟩
  · intro x c hc hs
    have hone := (hk.balanced.alone x c hc hs).2
    rw [howners] at hone
    omega
  · intro x c hc hs
    rw [← howners]
    exact hk.balanced.counted x c hc (by rw [hs]; exact Bool.false_ne_true)
  · intro x hx
    rw [← howners] at hx
    exact hk.balanced.live x hx

theorem kept_start : WorldKept cls World.start := by
  have hnone : ∀ x c, World.start.heap.cell x ≠ some c := fun _ _ hc => by cases hc
  have hzero : ∀ x, owners slots World.start.heap World.start.ids x = 0 := fun _ => rfl
  refine ⟨⟨fun x c hc => absurd hc (hnone x c), fun x c hc => absurd hc (hnone x c), ?_⟩,
    fun _ => Or.inl rfl, fun x c hc => absurd hc (hnone x c),
    fun x c hc => absurd hc (hnone x c), fun x c hc => absurd hc (hnone x c)⟩
  intro x hx
  rw [hzero] at hx
  exact absurd hx (Nat.lt_irrefl 0)

end Steps

/-- The step of a run is safe. -/
def SafeStep (w : World) (call : Call) (_ : World) : Prop := Safe cls w call

/-- **The containers keep the ownership invariant.**  In every run of calls none of which puts
a record with references into a packed buffer, copies a shared array bit by bit although value
structs are in its slots, or stores a value struct as a key, the invariant holds in the state
reached; and a further safe call on fitting operands returns. -/
theorem containers_sound {calls : List Call} {w : World}
    (hrun : run (step cls) World.start calls = some w)
    (hsafe : Steps (step cls) (SafeStep cls) World.start calls) :
    Sound cls w ∧ ∀ call, Fits cls w call → Safe cls w call → (step cls w call).isSome = true := by
  have hkept : WorldKept cls w := by
    refine run_invariant_of_steps (I := WorldKept cls) ?_ kept_start hsafe hrun
    intro s call s' hs hsafe hstep
    obtain ⟨s'', hstep', hs''⟩ := step_kept hs (step_fits hstep) hsafe
    rw [hstep] at hstep'
    cases hstep'
    exact hs''
  refine ⟨sound_of_kept hkept, fun call hfits hcall => ?_⟩
  obtain ⟨w', hstep, _⟩ := step_kept hkept hfits hcall
  rw [hstep]
  rfl

/-- Class 0 is a value struct with one field. -/
def oneField : Classes := ⟨fun k => k == 0, fun _ => 1, false, fun _ => false⟩

/-- A string goes into a struct, and a copy of the struct into an array. -/
def appended : List Call :=
  [.str [104], .obj 0 [.ref 0], .arrNew 0, .arrAppend (.ref 2) (.ref 1)]

theorem containers_sound_append :
    ∃ w, run (step oneField) World.start appended = some w ∧ Sound oneField w := by
  obtain ⟨w, hrun⟩ : ∃ w, run (step oneField) World.start appended = some w := ⟨_, rfl⟩
  have hsafe : Steps (step oneField) (SafeStep oneField) World.start appended := by
    refine fun s₁ h₁ => ⟨trivial, fun s₂ h₂ => ⟨trivial, fun s₃ h₃ => ⟨trivial, fun s₄ h₄ =>
      ⟨?_, trivial⟩⟩⟩⟩
    cases h₁
    cases h₂
    cases h₃
    intro x c hx hc
    cases hx
    cases hc
    trivial
  exact ⟨w, hrun, (containers_sound oneField hrun hsafe).1⟩

/-- **A fill breaks the invariant**: the struct with the string fills a dense buffer, and when
the struct is gone the buffer refers to a freed string. -/
theorem fill_breaks_containers : ∃ w, run (step oneField) World.start
      [.str [104], .obj 0 [.ref 0], .arrFill 2 (.ref 1), .release (.ref 1)] = some w ∧
    ¬ Sound oneField w ∧ w.heap.cell 0 = none ∧
    w.heap.cell 2 = some ⟨1, .dense 1 [(0, [.ref 0]), (0, [.ref 0])]⟩ := by
  refine ⟨_, rfl, fun hs => ?_, rfl, rfl⟩
  have hflat := hs.packed 2 _ rfl (0, [.ref 0]) mem_cons_self (.ref 0) mem_cons_self
  cases hflat

end Leviathan.Runtime.Containers
