import Leviathan.Orm.SavePlan

/-!
# What a save leaves behind

A save stamps its entities while it plans and writes every insert back before the next statement
runs.  So a save that fails leaves the unit of work as it was only if every stamp was there before
and no insert had been executed, and if the commit fails, no tracked entity was dirty either
(`UntouchedAt`).  A save that succeeds leaves every entity clean only if the dirty ones are either
new or tracked; and it never takes a deleted entity out of an identity map (`SettlesWith`).
-/

variable {db' db₀ mid : Db} {p : Point} {i : Nat} {nowMs : Int} {f : Bool}

namespace Leviathan.Orm

open List

open EStateM (Result)

/-! ## Registrations -/

/-- A repo and a primary key: a place in an identity map. -/
abbrev Slot := Nat × Int

/-- The entity that is registered last in a slot. -/
def lastAt (regs : List (Slot × Nat)) (slot : Slot) : Option Nat :=
  (regs.reverse.find? fun r => r.1 == slot).map Prod.snd

@[simp] theorem lastAt_nil (slot : Slot) : lastAt [] slot = none := rfl

theorem lastAt_append (regs regs' : List (Slot × Nat)) (slot : Slot) :
    lastAt (regs ++ regs') slot = (lastAt regs' slot).or (lastAt regs slot) := by
  simp only [lastAt, reverse_append, find?_append]
  cases List.find? (fun r => r.1 == slot) regs'.reverse <;> rfl

theorem lastAt_singleton (slot slot' : Slot) (e : Nat) :
    lastAt [(slot', e)] slot = if slot' = slot then some e else none := by
  by_cases h : slot' = slot
  · simp [lastAt, h]
  · have hne : (slot' == slot) = false := by simpa using h
    simp [lastAt, List.find?, hne, h]

/-- The registrations of the inserts from statement `i` on: under the id that the database gives,
or under the primary key that the entity has. -/
def registrations (b : Backend) (db : Db) (i : Nat) (ss : List Statement) : List (Slot × Nat) :=
  (ss.zipIdx i).flatMap fun s =>
    match s.1.kind with
    | .insert group key => group.zipIdx.map fun e =>
      (((db.handles.findIdx? (· == key)).getD 0,
        if s.1.kind.auto db.heap then wrap (b.lastInsertId s.2 + e.2) else (db.heap e.1).pk), e.1)
    | _ => []

/-! ## Writing inserts back -/

/-- The parts of a `Db` that a run leaves alone. -/
structure SameLists (db db' : Db) : Prop where
  newList : db'.newList = db.newList
  removeList : db'.removeList = db.removeList
  removeHardList : db'.removeHardList = db.removeHardList
  handles : db'.handles = db.handles
  pinned : db'.pinned = db.pinned
  autoincMode : db'.autoincMode = db.autoincMode

theorem SameLists.refl (db : Db) : SameLists db db := ⟨rfl, rfl, rfl, rfl, rfl, rfl⟩

theorem SameLists.trans {db₁ db₂ db₃ : Db} (h : SameLists db₁ db₂) (h' : SameLists db₂ db₃) :
    SameLists db₁ db₃ :=
  ⟨h'.newList.trans h.newList, h'.removeList.trans h.removeList,
    h'.removeHardList.trans h.removeHardList, h'.handles.trans h.handles,
    h'.pinned.trans h.pinned, h'.autoincMode.trans h.autoincMode⟩

/-- The entities of `group` have been written back, and registered as `regs` says. -/
structure Wrote (group : List Nat) (regs : List (Slot × Nat)) (db db' : Db) : Prop where
  lists : SameLists db db'
  tracked : db'.tracked = db.tracked ++ group
  ident : ∀ r k, db'.ident r k = (lastAt regs (r, k)).or (db.ident r k)
  isSealed : ∀ e ∈ group, (db'.heap e).Sealed
  rows : ∀ e, Entity.SameRow (db.heap e) (db'.heap e)
  kept : ∀ e, e ∉ group → db'.heap e = db.heap e

theorem Wrote.nil (db : Db) : Wrote [] [] db db :=
  ⟨SameLists.refl db, by simp, fun r k => rfl, (fun e he => nomatch he),
    fun e => Entity.SameRow.refl _, fun e _ => rfl⟩

theorem Wrote.trans {g g' : List Nat} {regs regs' : List (Slot × Nat)} {db₁ db₂ db₃ : Db}
    (h : Wrote g regs db₁ db₂) (h' : Wrote g' regs' db₂ db₃) :
    Wrote (g ++ g') (regs ++ regs') db₁ db₃ := by
  refine ⟨h.lists.trans h'.lists, ?_, fun r k => ?_, fun e he => ?_,
    fun e => (h.rows e).trans (h'.rows e), fun e he => ?_⟩
  · rw [h'.tracked, h.tracked, append_assoc]
  · rw [h'.ident, h.ident, lastAt_append, Option.or_assoc]
  · by_cases hg : e ∈ g'
    · exact h'.isSealed e hg
    · rw [h'.kept e hg]
      rcases List.mem_append.mp he with he | he
      · exact h.isSealed e he
      · exact absurd he hg
  · rw [h'.kept e (fun hg => he (mem_append_right g hg)),
      h.kept e (fun hg => he (mem_append_left g' hg))]

@[simp] theorem adopt_heap (db : Db) (repo : Nat) (pk : Int) (e : Nat) :
    (db.adopt repo pk e).heap = db.heap := rfl

@[simp] theorem inserted_heap (db : Db) (id : Option Int) (e : Nat) :
    (db.inserted id e).heap = db.heap.modify e fun x => ((id.map x.ormSetPk).getD x).ormSeal := rfl

/-- One entity of an insert. -/
theorem wrote_inserted (db : Db) (id : Option Int) (e repo : Nat) (pk : Int) :
    Wrote [e] [((repo, pk), e)] db ((db.inserted id e).adopt repo pk e) := by
  refine ⟨⟨rfl, rfl, rfl, rfl, rfl, rfl⟩, rfl, fun r k => ?_, fun a ha => ?_, fun a => ?_,
    fun a ha => ?_⟩
  · rw [lastAt_singleton]
    by_cases h : r = repo ∧ k = pk
    · obtain ⟨rfl, rfl⟩ := h
      simp [Db.adopt]
    · have hne : ¬ (repo, pk) = (r, k) := by
        intro heq
        obtain ⟨rfl, rfl⟩ := Prod.mk.inj heq
        exact h ⟨rfl, rfl⟩
      rw [if_neg hne]
      simp [Db.adopt, h, Db.inserted]
  · obtain rfl := List.mem_singleton.mp ha
    simp [Db.adopt, Db.inserted, Entity.sealed_ormSeal]
  · by_cases hae : a = e
    · subst hae
      rw [adopt_heap, inserted_heap, Heap.modify_self]
      cases id with
      | none => exact Entity.sameRow_ormSeal _
      | some n => exact (Entity.sameRow_ormSetPk _ n).trans (Entity.sameRow_ormSeal _)
    · rw [adopt_heap, inserted_heap, Heap.modify_of_ne _ _ hae]
      exact Entity.SameRow.refl _
  · rw [adopt_heap, inserted_heap]
    exact Heap.modify_of_ne _ _ (fun hae => ha (by simp [hae]))

theorem inserted_pk (db : Db) (id : Option Int) (e a : Nat) :
    ((db.inserted id e).heap a).pk = if a = e then id.getD (db.heap e).pk else (db.heap a).pk := by
  rw [inserted_heap]
  by_cases hae : a = e
  · subst hae
    rw [Heap.modify_self, if_pos rfl]
    cases id <;> rfl
  · rw [Heap.modify_of_ne _ _ hae, if_neg hae]

/-- The registrations of one insert from its `j`th entity on. -/
def groupRegistrations (repo : Nat) (auto : Bool) (id : Int) (pks : Nat → Int) (j : Nat)
    (group : List Nat) : List (Slot × Nat) :=
  (group.zipIdx j).map fun e => ((repo, if auto then wrap (id + e.2) else pks e.1), e.1)

/-- A write-back that succeeds. -/
theorem writeBack_ok {key : Str} {auto : Bool} {id : Int} (pks : Nat → Int) {group : List Nat}
    {j : Nat} {db : Db} (hw : writeBack key auto id j group db = .ok () db')
    (hpks : auto = false → ∀ e ∈ group, (db.heap e).pk = pks e) :
    Wrote group (groupRegistrations ((db.handles.findIdx? (· == key)).getD 0) auto id pks j group)
      db db' ∧ (auto = false → ∀ e, (db'.heap e).pk = (db.heap e).pk) := by
  induction group generalizing j db with
  | nil =>
    obtain rfl : db = db' := by simpa [writeBack] using hw
    exact ⟨Wrote.nil db, fun _ _ => rfl⟩
  | cons e rest ih =>
    simp only [writeBack] at hw
    set id' : Option Int := if auto then some (wrap (id + j)) else none with hid
    cases hh : (db.inserted id' e).handleByPath key with
    | error err => simp [hh] at hw
    | ok repo =>
    simp only [hh] at hw
    cases hpk : ((db.inserted id' e).heap e).pkVal with
    | error err => simp only [hpk, reduceCtorEq] at hw
    | ok pk =>
    simp only [hpk] at hw
    have hrepo : (db.handles.findIdx? (· == key)).getD 0 = repo := by
      unfold Db.handleByPath at hh
      have hhandles : (db.inserted id' e).handles = db.handles := rfl
      rw [hhandles] at hh
      split at hh
      · rename_i r hr
        rw [hr]
        exact Except.ok.inj hh
      · cases hh
    have hpkval : pk = if auto then wrap (id + j) else pks e := by
      rw [Entity.eq_pk_of_pkVal hpk, inserted_pk, if_pos rfl, hid]
      cases auto with
      | true => rfl
      | false => exact hpks rfl e mem_cons_self
    have hsame : auto = false → ∀ a, ((db.inserted id' e).heap a).pk = (db.heap a).pk := by
      intro hauto a
      rw [inserted_pk, hid, hauto]
      split
      · rename_i hae
        rw [hae]
        rfl
      · rfl
    obtain ⟨hrest, hkeep⟩ := ih hw (fun hauto a ha => by
      rw [adopt_heap, hsame hauto]
      exact hpks hauto a (mem_cons_of_mem e ha))
    refine ⟨?_, fun hauto a => ?_⟩
    · have hone := (wrote_inserted db id' e repo pk).trans hrest
      have hregs : groupRegistrations ((db.handles.findIdx? (· == key)).getD 0) auto id pks j
          (e :: rest) = [((repo, pk), e)] ++ groupRegistrations
            (((((db.inserted id' e).adopt repo pk e).handles).findIdx? (· == key)).getD 0)
            auto id pks (j + 1) rest := by
        have hhandles : ((db.inserted id' e).adopt repo pk e).handles = db.handles := rfl
        rw [hhandles, hrepo, hpkval]
        simp [groupRegistrations, zipIdx_cons]
      rw [hregs]
      exact hone
    · rw [hkeep hauto a, adopt_heap, hsame hauto]

/-- The database has nothing to say in a write-back. -/
theorem writeBack_ne_database {key : Str} {auto : Bool} {id : Int} {group : List Nat} {j : Nat}
    {db : Db} : writeBack key auto id j group db ≠ .error (.database p) db' := by
  induction group generalizing j db with
  | nil => simp [writeBack]
  | cons e rest ih =>
    intro hw
    simp only [writeBack] at hw
    set id' : Option Int := if auto then some (wrap (id + j)) else none
    cases hh : (db.inserted id' e).handleByPath key with
    | error err =>
      simp only [hh, Result.error.injEq] at hw
      obtain ⟨rfl, -⟩ := hw
      unfold Db.handleByPath at hh
      split at hh <;> cases hh
    | ok repo =>
    simp only [hh] at hw
    cases hpk : ((db.inserted id' e).heap e).pkVal with
    | error err =>
      simp only [hpk, Result.error.injEq] at hw
      obtain ⟨rfl, -⟩ := hw
      exact Entity.pkVal_ne_database hpk
    | ok pk =>
      simp only [hpk] at hw
      exact ih hw

/-! ## Running the plan -/

/-- The entities that some statements insert. -/
def written (ss : List Statement) : List Nat := ss.flatMap fun s => s.kind.group

/-- What a run may rely on: the heap has the classes of `db₀`, and the entities that keep their
primary key still have that of `db₀`. -/
structure Ready (db₀ : Db) (ss : List Statement) (db : Db) : Prop where
  handles : db.handles = db₀.handles
  cls : ∀ e, (db.heap e).cls = (db₀.heap e).cls
  pks : ∀ s ∈ ss, s.kind.auto db₀.heap = false → ∀ e ∈ s.kind.group,
    (db.heap e).pk = (db₀.heap e).pk
  agree : ∀ s ∈ ss, ∀ s' ∈ ss, ∀ e, e ∈ s.kind.group → e ∈ s'.kind.group →
    s.kind.auto db₀.heap = s'.kind.auto db₀.heap

/-- A statement that inserts nothing. -/
theorem wrote_other {b : Backend} {db : Db} {s : Statement} {ss : List Statement}
    (hready : Ready db₀ (s :: ss) db)
    (hs : s.kind = .update ∨ s.kind = .softdelete ∨ s.kind = .delete) :
    Wrote s.kind.group (registrations b db₀ i [s]) db db ∧ Ready db₀ ss db := by
  have hgroup : s.kind.group = [] := by rcases hs with h | h | h <;> rw [h] <;> rfl
  have hregs : registrations b db₀ i [s] = [] := by
    rcases hs with h | h | h <;> simp [registrations, h]
  rw [hgroup, hregs]
  exact ⟨Wrote.nil db, hready.handles, hready.cls,
    fun t ht => hready.pks t (mem_cons_of_mem s ht),
    fun t ht t' ht' => hready.agree t (mem_cons_of_mem s ht) t' (mem_cons_of_mem s ht')⟩

/-- One statement, and what the rest may rely on after it. -/
theorem finish_ok {b : Backend} {db : Db} {s : Statement} {ss : List Statement}
    (hready : Ready db₀ (s :: ss) db) (hf : finish (b.lastInsertId i) s.kind db = .ok () db') :
    Wrote s.kind.group (registrations b db₀ i [s]) db db' ∧ Ready db₀ ss db' := by
  have hrest : ∀ {t : Statement}, t ∈ ss → t ∈ s :: ss := mem_cons_of_mem s
  cases hk : s.kind with
  | insert group key =>
    rw [hk] at hf
    cases group with
    | nil => simp [finish] at hf
    | cons e rest =>
      simp only [finish] at hf
      have hauto : (db.heap e).cls.ormAutoPk = s.kind.auto db₀.heap := by
        rw [hk, hready.cls]
        rfl
      rw [hauto] at hf
      obtain ⟨hw, hkeep⟩ := writeBack_ok (fun a => (db₀.heap a).pk) hf
        (fun ha a hmem => hready.pks s mem_cons_self ha a (by rw [hk]; exact hmem))
      have hregs : registrations b db₀ i [s] = groupRegistrations
          ((db.handles.findIdx? (· == key)).getD 0) (s.kind.auto db₀.heap) (b.lastInsertId i)
          (fun a => (db₀.heap a).pk) 0 (e :: rest) := by
        rw [hready.handles]
        simp [registrations, groupRegistrations, hk]
      refine ⟨by rw [hregs]; exact hw, ?_⟩
      refine ⟨hw.lists.handles.trans hready.handles,
        fun a => (hw.rows a).cls.trans (hready.cls a), fun t ht ha a hat => ?_,
        fun t ht t' ht' => hready.agree t (hrest ht) t' (hrest ht')⟩
      rw [← hready.pks t (hrest ht) ha a hat]
      by_cases hmem : a ∈ e :: rest
      · -- then this statement leaves the keys alone as well
        apply hkeep
        rw [← ha]
        exact hready.agree s mem_cons_self t (hrest ht) a (by rw [hk]; exact hmem) hat
      · rw [hw.kept a hmem]
  | update =>
    obtain rfl : db = db' := by simpa [finish, hk] using hf
    rw [← hk]
    exact wrote_other hready (.inl hk)
  | softdelete =>
    obtain rfl : db = db' := by simpa [finish, hk] using hf
    rw [← hk]
    exact wrote_other hready (.inr (.inl hk))
  | delete =>
    obtain rfl : db = db' := by simpa [finish, hk] using hf
    rw [← hk]
    exact wrote_other hready (.inr (.inr hk))

theorem finish_ne_database {b : Backend} {k : Kind} {db : Db} :
    finish (b.lastInsertId i) k db ≠ .error (.database p) db' := by
  unfold finish
  split
  · simp
  · exact writeBack_ne_database
  · simp

theorem registrations_cons (b : Backend) (db₀ : Db) (i : Nat) (s : Statement) (ss : List Statement) :
    registrations b db₀ i (s :: ss) = registrations b db₀ i [s] ++ registrations b db₀ (i + 1) ss := by
  simp [registrations, zipIdx_cons]

/-- A run that succeeds has written every insert back, and seals what is still dirty. -/
theorem runPlan_ok {b : Backend} {db : Db} {ss : List Statement} (hready : Ready db₀ ss db)
    (hr : runPlan b i ss db = .ok () db') :
    ∃ mid, Wrote (written ss) (registrations b db₀ i ss) db mid ∧
      db' = { mid with heap := reseal mid.tracked mid.heap } := by
  induction ss generalizing i db with
  | nil =>
    refine ⟨db, Wrote.nil db, ?_⟩
    simpa [runPlan] using hr.symm
  | cons s ss ih =>
    simp only [runPlan] at hr
    split at hr
    · cases hr
    · cases hf : finish (b.lastInsertId i) s.kind db with
      | error err hx => simp [hf] at hr
      | ok u db₁ =>
        simp only [hf] at hr
        obtain ⟨hw, hready₁⟩ := finish_ok hready hf
        obtain ⟨mid, hmid, hdb'⟩ := ih hready₁ hr
        refine ⟨mid, ?_, hdb'⟩
        rw [registrations_cons]
        exact hw.trans hmid

/-- A run in which the database raises an error has written the inserts before it back. -/
theorem runPlan_error {b : Backend} {db : Db} {ss : List Statement} (hready : Ready db₀ ss db)
    (hr : runPlan b i ss db = .error (.database p) db') :
    ∃ k, k < ss.length ∧ p = .statement (i + k) ∧
      Wrote (written (ss.take k)) (registrations b db₀ i (ss.take k)) db db' := by
  induction ss generalizing i db with
  | nil => simp [runPlan] at hr
  | cons s ss ih =>
    simp only [runPlan] at hr
    split at hr
    · simp only [Result.error.injEq, Raised.database.injEq] at hr
      obtain ⟨rfl, rfl⟩ := hr
      exact ⟨0, by simp, by simp, Wrote.nil db⟩
    · cases hf : finish (b.lastInsertId i) s.kind db with
      | error err hx =>
        simp only [hf, Result.error.injEq] at hr
        obtain ⟨rfl, rfl⟩ := hr
        exact absurd hf finish_ne_database
      | ok u db₁ =>
        simp only [hf] at hr
        obtain ⟨hw, hready₁⟩ := finish_ok hready hf
        obtain ⟨k, hk, rfl, hk'⟩ := ih hready₁ hr
        refine ⟨k + 1, by simpa using hk, by congr 1; omega, ?_⟩
        rw [take_succ_cons, registrations_cons]
        exact hw.trans hk'

/-! ## What a save promises -/

/-- The statements that a save issues. -/
def Db.statements (b : Backend) (db : Db) : Option (List Statement) :=
  match db.plan b with
  | .ok ss _ => some ss
  | .error _ _ => none

/-- New flag, snapshot, primary key, timestamps and deletion mark. -/
structure SameEntity (x y : Entity) : Prop where
  isNew : y.isNew = x.isNew
  snap : y.snap = x.snap
  pk : y.pk = x.pk
  createdAt : y.createdAt = x.createdAt
  updatedAt : y.updatedAt = x.updatedAt
  deletedAt : y.deletedAt = x.deletedAt

/-- The unit of work is as it was, and a second save issues the same statements, whatever the clock
says then. -/
structure Restored (b : Backend) (before after : Db) : Prop where
  newList : after.newList = before.newList
  removeList : after.removeList = before.removeList
  removeHardList : after.removeHardList = before.removeHardList
  tracked : after.tracked = before.tracked
  ident : ∀ r k, after.ident r k = before.ident r k
  entities : ∀ e, SameEntity (before.heap e) (after.heap e)
  again : ∀ b' : Backend, b'.lockMode = b.lockMode → after.statements b' = before.statements b'

/-- The entities of a unit of work. -/
def Db.entities (db : Db) : List Nat :=
  db.newList ++ db.removeList ++ db.removeHardList ++ db.tracked

/-- The entities that a save deletes, and does not only mark as deleted. -/
def Db.HardRemoved (db : Db) (e : Nat) : Prop :=
  e ∈ db.removeHardList ∨ e ∈ db.removeList ∧ (db.heap e).cls.softDelete = false

/-- Nothing is dirty or pending, and no identity map returns a deleted entity. -/
structure Settled (before after : Db) : Prop where
  newList : after.newList = []
  removeList : after.removeList = []
  removeHardList : after.removeHardList = []
  clean : ∀ e, e ∈ before.entities ∨ e ∈ after.tracked → (after.heap e).isDirty = false
  gone : ∀ e, before.HardRemoved e → ∀ r k, after.ident r k ≠ some e

/-! ## When it keeps its promises -/

/-- Every stamp that a save puts is there already. -/
structure Stamped (db : Db) (nowMs : Int) : Prop where
  new : ∀ e ∈ db.newList, (db.heap e).cls.timestamps = true →
    (db.heap e).createdAt = ⟨nowMs⟩ ∧ (db.heap e).updatedAt = ⟨nowMs⟩
  dirty : ∀ e ∈ db.tracked, (db.heap e).isNew = false → (db.heap e).isDirty = true →
    (db.heap e).cls.timestamps = true → (db.heap e).updatedAt = ⟨nowMs⟩
  removed : ∀ e ∈ db.removeList, (db.heap e).cls.softDelete = true →
    (db.heap e).deletedAt = some ⟨nowMs⟩

/-- A failure at this point leaves the unit of work as it was: every stamp was there, no insert had
been executed, and at the commit no snapshot was out of date. -/
def UntouchedAt (db : Db) (nowMs : Int) : Point → Prop
  | .acquire => Stamped db nowMs
  | .begin => Stamped db nowMs
  | .statement k => Stamped db nowMs ∧ (k = 0 ∨ db.newList = [])
  | .commit => Stamped db nowMs ∧ db.newList = [] ∧ ∀ e ∈ db.tracked,
      (db.heap e).isNew = false → (db.heap e).isDirty = true → (db.heap e).snap = (db.heap e).allVals

/-- A success settles the unit of work: the new entities and the dirty ones that are tracked hold no
NaN, any other entity is clean once it is stamped, and a deleted entity stands in no identity map,
unless under a key that an inserted entity takes over. -/
structure SettlesWith (b : Backend) (db : Db) : Prop where
  new : ∀ e ∈ db.newList, (db.heap e).NoNan
  dirty : ∀ e ∈ db.tracked, e ∉ db.newList → (db.heap e).isNew = false →
    (stampOf db b.nowMs e).isDirty = true → (db.heap e).NoNan
  other : ∀ e ∈ db.entities, e ∉ db.newList → ¬ (e ∈ db.tracked ∧ (db.heap e).isNew = false) →
    (stampOf db b.nowMs e).isDirty = false
  gone : ∀ e, db.HardRemoved e → ∀ slot : Slot,
    (lastAt (registrations b db 0 (plannedInserts b db)) slot).or (db.ident slot.1 slot.2) ≠ some e

/-! ### The stamps -/

theorem stampOf_eq {db : Db} (h : Stamped db nowMs) (e : Nat) : stampOf db nowMs e = db.heap e := by
  have hnew : (if e ∈ db.newList then (db.heap e).ormTouchInsert nowMs else db.heap e) =
      db.heap e := by
    split
    · rename_i he
      exact Entity.ormTouchInsert_eq_self (h.new e he)
    · rfl
  have hdirty : (if e ∈ db.tracked then (db.heap e).touchDirty nowMs else db.heap e) =
      db.heap e := by
    split
    · rename_i he
      unfold Entity.touchDirty
      split
      · rename_i hd
        simp only [Bool.and_eq_true, Bool.not_eq_true'] at hd
        exact Entity.ormTouchUpdate_eq_self (h.dirty e he hd.1 hd.2)
      · rfl
    · rfl
  unfold stampOf
  simp only [hnew, hdirty]
  split
  · rename_i he
    exact Entity.ormMarkDeleted_eq_self (h.removed e he)
  · rfl

/-- The dates of a stamped entity, stamp by stamp. -/
theorem stampOf_createdAt (db : Db) (nowMs : Int) (e : Nat) : (stampOf db nowMs e).createdAt =
    (if e ∈ db.newList then (db.heap e).ormTouchInsert nowMs else db.heap e).createdAt := by
  unfold stampOf
  simp only [apply_ite Entity.createdAt, Entity.ormMarkDeleted_createdAt,
    Entity.touchDirty_createdAt, ite_self]

theorem stampOf_updatedAt (db : Db) (nowMs : Int) (e : Nat) : (stampOf db nowMs e).updatedAt =
    (if e ∈ db.tracked then Entity.touchDirty nowMs
      (if e ∈ db.newList then (db.heap e).ormTouchInsert nowMs else db.heap e)
      else if e ∈ db.newList then (db.heap e).ormTouchInsert nowMs else db.heap e).updatedAt := by
  unfold stampOf
  simp only [apply_ite Entity.updatedAt, Entity.ormMarkDeleted_updatedAt, ite_self]

/-- Dates that a save has not moved are those it stamps with. -/
theorem stamped_of_dates {db : Db}
    (h : ∀ e, (stampOf db nowMs e).createdAt = (db.heap e).createdAt ∧
      (stampOf db nowMs e).updatedAt = (db.heap e).updatedAt ∧
      (stampOf db nowMs e).deletedAt = (db.heap e).deletedAt) : Stamped db nowMs := by
  have hnew : ∀ e ∈ db.newList, (db.heap e).cls.timestamps = true →
      (db.heap e).createdAt = ⟨nowMs⟩ ∧ (db.heap e).updatedAt = ⟨nowMs⟩ := by
    intro e he hts
    obtain ⟨hc, hu, -⟩ := h e
    rw [← hc, ← hu, stampOf_createdAt, stampOf_updatedAt, if_pos he]
    have htouch : (db.heap e).ormTouchInsert nowMs =
        { db.heap e with createdAt := ⟨nowMs⟩, updatedAt := ⟨nowMs⟩ } := if_pos hts
    rw [htouch]
    refine ⟨rfl, ?_⟩
    split
    · exact Entity.touchDirty_updatedAt rfl
    · rfl
  refine ⟨hnew, fun e he hn hd hts => ?_, fun e he hs => ?_⟩
  · by_cases hmem : e ∈ db.newList
    · exact (hnew e hmem hts).2
    · rw [← (h e).2.1, stampOf_updatedAt, if_pos he, if_neg hmem]
      simp [Entity.touchDirty, hn, hd, Entity.ormTouchUpdate, hts]
  · rw [← (h e).2.2]
    unfold stampOf
    simp only [if_pos he]
    have hcls : (if e ∈ db.tracked then Entity.touchDirty nowMs
        (if e ∈ db.newList then (db.heap e).ormTouchInsert nowMs else db.heap e)
        else if e ∈ db.newList then (db.heap e).ormTouchInsert nowMs else db.heap e).cls =
        (db.heap e).cls := by
      split <;> split <;> simp [(Entity.restamped_touchDirty _ _).cls,
        (Entity.restamped_ormTouchInsert _ _).cls]
    unfold Entity.ormMarkDeleted
    rw [if_pos (by rw [hcls]; exact hs)]

/-! ### After a failure -/

theorem planned_lists (b : Backend) (db : Db) (h : Heap) :
    (planned b db h).newList = db.newList ∧ (planned b db h).removeList = db.removeList ∧
      (planned b db h).removeHardList = db.removeHardList ∧ (planned b db h).tracked = db.tracked ∧
      (planned b db h).handles = db.handles ∧ (planned b db h).ident = db.ident := by
  unfold planned probe
  split <;> exact ⟨rfl, rfl, rfl, rfl, rfl, rfl⟩

/-- The same entities in the same lists, and the lock mode that the probe has read. -/
theorem statements_congr {b b' : Backend} {before after : Db} (hnew : after.newList = before.newList)
    (hremove : after.removeList = before.removeList)
    (hhard : after.removeHardList = before.removeHardList) (htracked : after.tracked = before.tracked)
    (hheap : after.heap = before.heap) (hmode : after.autoincMode = (probe b before).autoincMode)
    (hb : b'.lockMode = b.lockMode) : after.statements b' = before.statements b' := by
  have hlock : lockModeFor b' after = lockModeFor b' before := by
    unfold lockModeFor
    rw [hheap, hnew]
    split
    · rename_i hneed
      rw [hmode, hb]
      unfold probe lockModeFor
      rw [if_pos hneed, if_pos hneed]
      by_cases h0 : 0 ≤ before.autoincMode
      · simp [h0]
      · simp [h0]
    · rfl
  unfold Db.statements Db.plan
  rw [hlock, hnew, hremove, hhard, htracked, hheap]

theorem registrations_of_written {b : Backend} {db : Db} {ss : List Statement}
    (h : written ss = []) : registrations b db i ss = [] := by
  induction ss generalizing i with
  | nil => rfl
  | cons s ss ih =>
    simp only [written, flatMap_cons, append_eq_nil_iff] at h
    rw [registrations_cons, ih h.2, append_nil]
    cases hk : s.kind with
    | insert group key =>
      have hg : group = [] := by simpa [hk, Kind.group] using h.1
      simp [registrations, hk, hg]
    | update => simp [registrations, hk]
    | softdelete => simp [registrations, hk]
    | delete => simp [registrations, hk]

section
variable {b : Backend} {db : Db} {ss : List Statement} {h : Heap}

theorem tracked_of_wrote {g : List Nat} {regs : List (Slot × Nat)}
    (hw : Wrote g regs (planned b db h) mid) : mid.tracked = db.tracked ++ g := by
  rw [hw.tracked, (planned_lists b db h).2.2.2.1]

/-- Nothing has been written back, and the stamps were there. -/
theorem restored_of_idle {f : Heap} (hw : Wrote [] [] (planned b db h) mid) (hf : f = db.heap) :
    Restored b db { mid with heap := f } := by
  obtain ⟨hnew, hremove, hhard, htracked, -, hident⟩ := planned_lists b db h
  subst hf
  refine ⟨hw.lists.newList.trans hnew, hw.lists.removeList.trans hremove,
    hw.lists.removeHardList.trans hhard, ?_, fun r k => ?_,
    fun e => ⟨rfl, rfl, rfl, rfl, rfl, rfl⟩, fun b' hb' => ?_⟩
  · simpa using tracked_of_wrote hw
  · show mid.ident r k = _
    rw [hw.ident, hident]
    rfl
  · exact statements_congr (hw.lists.newList.trans hnew) (hw.lists.removeList.trans hremove)
      (hw.lists.removeHardList.trans hhard) (by simpa using tracked_of_wrote hw) rfl
      hw.lists.autoincMode hb'

/-- A failure before the run has sealed anything at its end. -/
theorem restored_iff (hp : Planned b db ss h) {ss' : List Statement}
    (hw : Wrote (written ss') (registrations b db 0 ss') (planned b db h) db') :
    Restored b db db' ↔ Stamped db b.nowMs ∧ written ss' = [] := by
  constructor
  · intro hr
    have hg : written ss' = [] := by
      have htracked := hr.tracked
      rw [tracked_of_wrote hw] at htracked
      simpa using htracked
    refine ⟨stamped_of_dates fun e => ?_, hg⟩
    have hkept : db'.heap e = stampOf db b.nowMs e := by
      rw [hw.kept e (by rw [hg]; exact not_mem_nil)]
      exact congrFun hp.heap e
    have he := hr.entities e
    rw [hkept] at he
    exact ⟨he.createdAt, he.updatedAt, he.deletedAt⟩
  · intro ⟨hs, hg⟩
    rw [hg, registrations_of_written hg] at hw
    refine restored_of_idle hw (funext fun e => ?_)
    rw [hw.kept e not_mem_nil]
    exact (congrFun hp.heap e).trans (stampOf_eq hs e)

/-- What the seals at the end of a run do to an entity. -/
theorem reseal_apply (l : List Nat) (h : Heap) (e : Nat) :
    reseal l h e = if e ∈ l ∧ (h e).isNew = false ∧ (h e).isDirty = true then (h e).ormSeal
      else h e := by
  unfold reseal
  rw [Heap.each_apply]
  · by_cases he : e ∈ l
    · simp [he]
    · simp [he]
  · intro x
    by_cases hx : (!x.isNew && x.isDirty) = true
    · rw [if_pos hx]
      split
      · exact Entity.ormSeal_of_sealed (Entity.sealed_ormSeal x)
      · rfl
    · rw [if_neg hx, if_neg hx]

/-- A failure of the commit. -/
theorem restored_reseal_iff (hp : Planned b db ss h)
    (hw : Wrote (written ss) (registrations b db 0 ss) (planned b db h) mid) :
    Restored b db { mid with heap := reseal mid.tracked mid.heap } ↔
      Stamped db b.nowMs ∧ written ss = [] ∧ ∀ e ∈ db.tracked, (db.heap e).isNew = false →
        (db.heap e).isDirty = true → (db.heap e).snap = (db.heap e).allVals := by
  have hkept : written ss = [] → ∀ e, mid.heap e = stampOf db b.nowMs e := by
    intro hg e
    rw [hw.kept e (by rw [hg]; exact not_mem_nil)]
    exact congrFun hp.heap e
  constructor
  · intro hr
    have hg : written ss = [] := by
      have htracked := hr.tracked
      rw [show ({ mid with heap := reseal mid.tracked mid.heap } : Db).tracked = mid.tracked from rfl,
        tracked_of_wrote hw] at htracked
      simpa using htracked
    have hent : ∀ e, SameEntity (db.heap e) (if e ∈ mid.tracked ∧
        (stampOf db b.nowMs e).isNew = false ∧ (stampOf db b.nowMs e).isDirty = true then
        (stampOf db b.nowMs e).ormSeal else stampOf db b.nowMs e) := by
      intro e
      have he := hr.entities e
      rw [show ({ mid with heap := reseal mid.tracked mid.heap } : Db).heap =
        reseal mid.tracked mid.heap from rfl, reseal_apply, hkept hg e] at he
      exact he
    have hs : Stamped db b.nowMs := by
      refine stamped_of_dates fun e => ?_
      have he := hent e
      split at he
      · exact ⟨he.createdAt, he.updatedAt, he.deletedAt⟩
      · exact ⟨he.createdAt, he.updatedAt, he.deletedAt⟩
    refine ⟨hs, hg, fun e he hn hd => ?_⟩
    have hmem : e ∈ mid.tracked := by
      rw [tracked_of_wrote hw]
      exact mem_append_left _ he
    have hsnap := hent e
    rw [stampOf_eq hs, if_pos ⟨hmem, hn, hd⟩] at hsnap
    exact hsnap.snap.symm
  · intro ⟨hs, hg, hsnap⟩
    have htracked : mid.tracked = db.tracked := by
      rw [tracked_of_wrote hw, hg, append_nil]
    have hheap : reseal mid.tracked mid.heap = db.heap := by
      funext e
      rw [reseal_apply, hkept hg e, stampOf_eq hs, htracked]
      split
      · rename_i hdirty
        exact Entity.ormSeal_of_sealed ⟨hdirty.2.1, hsnap e hdirty.1 hdirty.2.1 hdirty.2.2⟩
      · rfl
    rw [hg, registrations_of_written hg] at hw
    exact restored_of_idle hw hheap

/-! ### After a success -/

theorem mem_written (hp : Planned b db ss h) (e : Nat) : e ∈ written ss ↔ e ∈ db.newList := by
  obtain ⟨rest, rfl, hrest⟩ := hp.others
  constructor
  · intro he
    obtain ⟨s, hs, hes⟩ := List.mem_flatMap.mp he
    rcases List.mem_append.mp hs with hs | hs
    · exact hp.inserts.members s hs e hes
    · rw [hrest s hs] at hes
      cases hes
  · intro he
    obtain ⟨s, hs, hes⟩ := hp.inserts.all e he
    exact List.mem_flatMap.mpr ⟨s, mem_append_left rest hs, hes⟩

theorem registrations_append (b : Backend) (db : Db) (i : Nat) (ss ss' : List Statement) :
    registrations b db i (ss ++ ss') =
      registrations b db i ss ++ registrations b db (i + ss.length) ss' := by
  simp [registrations, zipIdx_append]

theorem registrations_planned (hp : Planned b db ss h) :
    registrations b db 0 ss = registrations b db 0 (plannedInserts b db) := by
  obtain ⟨rest, rfl, hrest⟩ := hp.others
  have hnone : written rest = [] := List.flatMap_eq_nil_iff.mpr hrest
  rw [registrations_append, registrations_of_written hnone, append_nil]

/-- The unit of work after a success: what has been written back, sealed at the end, and nothing
pending. -/
def settledDb (mid : Db) : Db :=
  { mid with
    heap := reseal mid.tracked mid.heap
    newList := []
    removeList := []
    removeHardList := [] }

/-- When an entity of the unit of work is clean after a success. -/
theorem clean_iff (hp : Planned b db ss h)
    (hw : Wrote (written ss) (registrations b db 0 ss) (planned b db h) mid) (e : Nat) :
    ((settledDb mid).heap e).isDirty = false ↔
      (if e ∈ db.newList then (db.heap e).NoNan
      else if e ∈ db.tracked ∧ (db.heap e).isNew = false then
        (stampOf db b.nowMs e).isDirty = true → (db.heap e).NoNan
      else (stampOf db b.nowMs e).isDirty = false) := by
  have hstamp : (planned b db h).heap e = stampOf db b.nowMs e := congrFun hp.heap e
  have hrow := restamped_stampOf db b.nowMs e
  show (reseal mid.tracked mid.heap e).isDirty = false ↔ _
  rw [reseal_apply]
  by_cases hnew : e ∈ db.newList
  · -- written back, so sealed, and a second seal changes nothing
    rw [if_pos hnew]
    have hsealed := hw.isSealed e ((mem_written hp e).mpr hnew)
    have hnan : (mid.heap e).NoNan ↔ (db.heap e).NoNan := by
      have hsame := hw.rows e
      rw [hstamp] at hsame
      exact (hrow.toSameRow.trans hsame).noNan
    rw [← hnan, ← Entity.isDirty_of_sealed hsealed]
    split
    · rw [Entity.ormSeal_of_sealed hsealed]
    · exact Iff.rfl
  · rw [if_neg hnew]
    have hmid : mid.heap e = stampOf db b.nowMs e := by
      rw [hw.kept e (fun he => hnew ((mem_written hp e).mp he)), hstamp]
    have htracked : e ∈ mid.tracked ↔ e ∈ db.tracked := by
      rw [tracked_of_wrote hw, mem_append, mem_written hp]
      exact or_iff_left hnew
    simp only [hmid, htracked, hrow.isNew]
    by_cases ht : e ∈ db.tracked ∧ (db.heap e).isNew = false
    · rw [if_pos ht]
      by_cases hd : (stampOf db b.nowMs e).isDirty = true
      · rw [if_pos ⟨ht.1, ht.2, hd⟩, Entity.isDirty_of_sealed (Entity.sealed_ormSeal _),
          (hrow.toSameRow.trans (Entity.sameRow_ormSeal _)).noNan]
        exact ⟨fun hnan _ => hnan, fun hnan => hnan hd⟩
      · rw [if_neg (fun hc => hd hc.2.2)]
        exact ⟨fun _ hc => absurd hc hd, fun _ => by simpa using hd⟩
    · rw [if_neg ht, if_neg (fun hc => ht ⟨hc.1, hc.2.1⟩)]

/-- When a success settles the unit of work. -/
theorem settled_iff (hp : Planned b db ss h)
    (hw : Wrote (written ss) (registrations b db 0 ss) (planned b db h) mid) :
    Settled db (settledDb mid) ↔ SettlesWith b db := by
  have hident : ∀ r k, (settledDb mid).ident r k =
      (lastAt (registrations b db 0 (plannedInserts b db)) (r, k)).or (db.ident r k) := by
    intro r k
    show mid.ident r k = _
    rw [hw.ident, registrations_planned hp, (planned_lists b db h).2.2.2.2.2]
  constructor
  · intro hs
    have hclean : ∀ e ∈ db.entities, _ := fun e he => (clean_iff hp hw e).mp (hs.clean e (.inl he))
    refine ⟨fun e he => ?_, fun e he hnew hn => ?_, fun e he hnew ht => ?_, fun e he slot => ?_⟩
    · have hc := hclean e (by simp [Db.entities, he])
      rwa [if_pos he] at hc
    · have hc := hclean e (by simp [Db.entities, he])
      rwa [if_neg hnew, if_pos ⟨he, hn⟩] at hc
    · have hc := hclean e he
      rwa [if_neg hnew, if_neg ht] at hc
    · rw [← hident]
      exact hs.gone e he slot.1 slot.2
  · intro hs
    refine ⟨rfl, rfl, rfl, fun e he => ?_, fun e he r k => ?_⟩
    · have hmem : e ∈ db.entities := by
        rcases he with he | he
        · exact he
        · have ht : e ∈ mid.tracked := he
          rw [tracked_of_wrote hw, mem_append, mem_written hp] at ht
          rcases ht with ht | ht
          · simp [Db.entities, ht]
          · simp [Db.entities, ht]
      rw [clean_iff hp hw e]
      split
      · rename_i hnew
        exact hs.new e hnew
      · rename_i hnew
        split
        · rename_i ht
          exact hs.dirty e ht.1 hnew ht.2
        · rename_i ht
          exact hs.other e hmem hnew ht
    · rw [hident]
      exact hs.gone e he (r, k)

/-- What the run of a plan relies on holds when it begins. -/
theorem ready_planned (hp : Planned b db ss h) : Ready db ss (planned b db h) := by
  obtain ⟨rest, rfl, hrest⟩ := hp.others
  have hrow : ∀ e, Entity.Restamped (db.heap e) ((planned b db h).heap e) := by
    intro e
    rw [show (planned b db h).heap e = stampOf db b.nowMs e from congrFun hp.heap e]
    exact restamped_stampOf db b.nowMs e
  have hinsert : ∀ s ∈ plannedInserts b db ++ rest, ∀ e ∈ s.kind.group,
      s ∈ plannedInserts b db := by
    intro s hs e he
    rcases List.mem_append.mp hs with hs | hs
    · exact hs
    · rw [hrest s hs] at he
      cases he
  exact ⟨(planned_lists b db h).2.2.2.2.1, fun e => (hrow e).cls, fun s _ _ e _ => (hrow e).pk,
    fun s hs s' hs' e he he' =>
      hp.inserts.auto s (hinsert s hs e he) s' (hinsert s' hs' e he') e he he'⟩

end

/-! ## A whole save -/

theorem andThen_ok {r : Result Raised Db Unit} {next : Db → Result Raised Db Unit}
    (h : andThen r next = .ok () db') : ∃ db, r = .ok () db ∧ next db = .ok () db' := by
  cases r with
  | error err db => cases h
  | ok u db => exact ⟨db, rfl, h⟩

theorem andThen_error {r : Result Raised Db Unit} {next : Db → Result Raised Db Unit} {err : Raised}
    (h : andThen r next = .error err db') :
    r = .error err db' ∨ ∃ db, r = .ok () db ∧ next db = .error err db' := by
  cases r with
  | error err' db => exact .inl h
  | ok u db => exact .inr ⟨db, rfl, h⟩

theorem ask_ok {b : Backend} {db : Db} (h : ask b p db = .ok () db') : db' = db := by
  unfold ask at h
  split at h
  · cases h
  · simpa using h.symm

theorem ask_error {b : Backend} {q : Point} {db : Db} (h : ask b p db = .error (.database q) db') :
    q = p ∧ db' = db := by
  unfold ask at h
  split at h
  · simp only [Result.error.injEq, Raised.database.injEq] at h
    exact ⟨h.1.symm, h.2.symm⟩
  · cases h

theorem execute_ok {b : Backend} {ss : List Statement} {db : Db}
    (hx : execute b ss db = .ok () db') : runPlan b 0 ss db = .ok () db' := by
  unfold execute at hx
  split at hx
  · exact hx
  · obtain ⟨db₁, hask, hx₁⟩ := andThen_ok hx
    obtain rfl := ask_ok hask
    split at hx₁
    · obtain ⟨db₂, hbegin, hx₂⟩ := andThen_ok hx₁
      obtain rfl := ask_ok hbegin
      obtain ⟨db₃, hrun, hcommit⟩ := andThen_ok hx₂
      rw [ask_ok hcommit]
      exact hrun
    · exact hx₁

/-- Where an execution can meet the error of the database: before the run, in it, or at the commit
after a run that has succeeded. -/
theorem execute_error {b : Backend} {ss : List Statement} {db : Db}
    (hx : execute b ss db = .error (.database p) db') :
    ((p = .acquire ∨ p = .begin) ∧ db' = db) ∨ runPlan b 0 ss db = .error (.database p) db' ∨
      (p = .commit ∧ runPlan b 0 ss db = .ok () db') := by
  unfold execute at hx
  split at hx
  · exact .inr (.inl hx)
  · rcases andThen_error hx with hask | ⟨db₁, hask, hx₁⟩
    · exact .inl ⟨.inl (ask_error hask).1, (ask_error hask).2⟩
    · obtain rfl := ask_ok hask
      split at hx₁
      · rcases andThen_error hx₁ with hbegin | ⟨db₂, hbegin, hx₂⟩
        · exact .inl ⟨.inr (ask_error hbegin).1, (ask_error hbegin).2⟩
        · obtain rfl := ask_ok hbegin
          rcases andThen_error hx₂ with hrun | ⟨db₃, hrun, hcommit⟩
          · exact .inr (.inl hrun)
          · obtain ⟨rfl, rfl⟩ := ask_error hcommit
            exact .inr (.inr ⟨rfl, hrun⟩)
      · exact .inr (.inl hx₁)

/-- A statement of a plan with new entities inserts some of them at once. -/
theorem written_take {b : Backend} {db : Db} {ss : List Statement} {h : Heap}
    (hp : Planned b db ss h) {k : Nat} (hk : k ≤ ss.length) :
    written (ss.take k) = [] ↔ k = 0 ∨ db.newList = [] := by
  constructor
  · intro hw
    by_cases h0 : k = 0
    · exact .inl h0
    · right
      rw [eq_nil_iff_forall_not_mem]
      intro e he
      obtain ⟨rest, rfl, -⟩ := hp.others
      -- some insert is planned, and the first statement is one
      obtain ⟨s, hs, -⟩ := hp.inserts.all e he
      cases hins : plannedInserts b db with
      | nil =>
        rw [hins] at hs
        cases hs
      | cons t ts =>
        obtain ⟨a, l, key, ht⟩ := hp.inserts.kind t (by rw [hins]; exact mem_cons_self)
        rw [hins] at hw
        obtain ⟨n, rfl⟩ : ∃ n, k = n + 1 := ⟨k - 1, by omega⟩
        simp [written, ht, Kind.group] at hw
  · intro hor
    rcases hor with rfl | hnil
    · rfl
    · rw [eq_nil_iff_forall_not_mem]
      intro e he
      obtain ⟨s, hs, hes⟩ := List.mem_flatMap.mp he
      have hmem := (mem_written hp e).mp
        (List.mem_flatMap.mpr ⟨s, mem_of_mem_take hs, hes⟩)
      rw [hnil] at hmem
      cases hmem

theorem saveInner_error {b : Backend} {db : Db} (hx : saveInner b db = .error (.database p) db') :
    Restored b db db' ↔ UntouchedAt db b.nowMs p := by
  unfold saveInner at hx
  cases hplan : db.plan b with
  | error err h =>
    simp only [hplan, Result.error.injEq] at hx
    rw [hx.1] at hplan
    exact absurd hplan plan_ne_database
  | ok ss h =>
  have hp := plan_ok hplan
  simp only [hplan] at hx
  split at hx
  · cases hx
  · rcases andThen_error hx with hexec | ⟨d, -, hd⟩
    · rcases execute_error hexec with ⟨hpoint, rfl⟩ | hrun | ⟨rfl, hrun⟩
      · have hidle : Wrote (written []) (registrations b db 0 []) (planned b db h) (planned b db h) :=
          Wrote.nil _
        have hiff := restored_iff hp hidle
        rw [hiff]
        rcases hpoint with rfl | rfl
        · exact and_iff_left rfl
        · exact and_iff_left rfl
      · obtain ⟨k, hk, rfl, hw⟩ := runPlan_error (ready_planned hp) hrun
        rw [restored_iff hp hw, written_take hp hk.le, Nat.zero_add]
        exact Iff.rfl
      · obtain ⟨mid, hw, rfl⟩ := runPlan_ok (ready_planned hp) hrun
        have hnew := written_take hp (le_refl ss.length)
        rename_i hlen
        rw [take_length, or_iff_right hlen] at hnew
        rw [restored_reseal_iff hp hw, hnew]
        exact Iff.rfl
    · cases hd

theorem saveInner_ok {b : Backend} {db : Db} (hx : saveInner b db = .ok () db') :
    Settled db db' ↔ SettlesWith b db := by
  unfold saveInner at hx
  cases hplan : db.plan b with
  | error err h => simp [hplan] at hx
  | ok ss h =>
  simp only [hplan] at hx
  have hp := plan_ok hplan
  split at hx
  · -- an empty plan: there was nothing to do
    rename_i hnil
    simp only [Result.ok.injEq, true_and] at hx
    subst hx
    obtain rfl := List.length_eq_zero_iff.mp hnil
    obtain ⟨hnew, hremove, hhard, hidle⟩ := hp.idle rfl
    have hsettled : settledDb (planned b db h) = planned b db h := by
      obtain ⟨h1, h2, h3, h4, -, -⟩ := planned_lists b db h
      have hheap : reseal (planned b db h).tracked (planned b db h).heap = (planned b db h).heap := by
        funext e
        rw [reseal_apply, if_neg]
        intro hc
        rw [h4] at hc
        rcases hidle e hc.1 with hi | hi
        · rw [show (planned b db h).heap e = h e from rfl, hi] at hc
          exact Bool.noConfusion hc.2.1
        · rw [show (planned b db h).heap e = h e from rfl, hi] at hc
          exact Bool.noConfusion hc.2.2
      unfold settledDb
      rw [hheap]
      rw [hnew] at h1
      rw [hremove] at h2
      rw [hhard] at h3
      generalize planned b db h = d at h1 h2 h3
      cases d
      simp only at h1 h2 h3
      rw [h1, h2, h3]
    have hidle : Wrote (written []) (registrations b db 0 []) (planned b db h) (planned b db h) :=
      Wrote.nil _
    have hiff := settled_iff hp hidle
    rw [hsettled] at hiff
    exact hiff
  · obtain ⟨d, hexec, hd⟩ := andThen_ok hx
    obtain ⟨mid, hw, rfl⟩ := runPlan_ok (ready_planned hp) (execute_ok hexec)
    simp only [Result.ok.injEq, true_and] at hd
    subst hd
    exact settled_iff hp hw

/-! The flag of a save in progress is none of this. -/

theorem restored_saving {b : Backend} {db : Db} {f' : Bool} :
    Restored b { db with saving := f } db' ↔ Restored b db { db' with saving := f' } :=
  ⟨fun h => ⟨h.newList, h.removeList, h.removeHardList, h.tracked, h.ident, h.entities, h.again⟩,
    fun h => ⟨h.newList, h.removeList, h.removeHardList, h.tracked, h.ident, h.entities, h.again⟩⟩

theorem untouchedAt_saving {db : Db} :
    UntouchedAt { db with saving := f } nowMs p ↔ UntouchedAt db nowMs p := by
  have hs : Stamped { db with saving := f } nowMs ↔ Stamped db nowMs :=
    ⟨fun h => ⟨h.new, h.dirty, h.removed⟩, fun h => ⟨h.new, h.dirty, h.removed⟩⟩
  cases p with
  | acquire => exact hs
  | begin => exact hs
  | statement k => exact and_congr_left' hs
  | commit => exact and_congr_left' hs

theorem settled_saving {db : Db} {f' : Bool} :
    Settled { db with saving := f } db' ↔ Settled db { db' with saving := f' } :=
  ⟨fun h => ⟨h.newList, h.removeList, h.removeHardList, h.clean, h.gone⟩,
    fun h => ⟨h.newList, h.removeList, h.removeHardList, h.clean, h.gone⟩⟩

theorem settlesWith_saving {b : Backend} {db : Db} :
    SettlesWith b { db with saving := f } ↔ SettlesWith b db :=
  ⟨fun h => ⟨h.new, h.dirty, h.other, h.gone⟩, fun h => ⟨h.new, h.dirty, h.other, h.gone⟩⟩

def userClass : EntityClass where
  ormPath := ["users".toList]
  ormPk := "id".toList
  ormAutoPk := true
  ormCols := ["id".toList]
  timestamps := false
  softDelete := false

def newAndRemoved : Db where
  heap := fun e =>
    { cls := userClass, pk := if e = 0 then 0 else 7, field := fun _ => .none,
      snap := if e = 0 then [] else [.int 7], isNew := decide (e = 0) }
  newList := [0]
  removeList := [1]
  tracked := [1]
  handles := ["users".toList]
  ident := fun _ pk => if pk = 7 then some 1 else none

/-- A database that gives the id 8 and raises an error at most at one point. -/
def backendWith (fault : Option Point) : Backend :=
  { nowMs := 0, lockMode := none, fault := fault, lastInsertId := fun _ => 8 }

end Leviathan.Orm
