import Leviathan.Lib.Fallible
import Leviathan.Orm.UnitOfWork

/-!
# The plan of a save

What a plan that succeeds has done: every entity is stamped as `stampOf` says, and the statements
are the inserts of the new entities followed by statements that insert nothing.  Each new entity is
in an insert, and two inserts of one entity agree on where its id comes from.
-/

namespace Leviathan.Orm

open EStateM (Result)

/-! ## The heap under a list of changes -/

variable {e : Nat}

namespace Heap

@[simp] theorem modify_self (h : Heap) (e : Nat) (f : Entity → Entity) : h.modify e f e = f (h e) := by
  simp [modify]

theorem modify_of_ne (h : Heap) {e' : Nat} (f : Entity → Entity) (hne : e' ≠ e) :
    h.modify e f e' = h e' := by
  simp [modify, hne]

/-- Changing the members of a list one after the other, when a second change changes nothing. -/
theorem each_apply {f : Entity → Entity} (hf : ∀ x, f (f x) = f x) (l : List Nat) (h : Heap) (e : Nat) :
    each f l h e = if e ∈ l then f (h e) else h e := by
  induction l generalizing h with
  | nil => simp [each]
  | cons a l ih =>
    have hstep : each f (a :: l) h = each f l (h.modify a f) := rfl
    rw [hstep, ih]
    by_cases he : e = a
    · subst he
      simp [hf]
    · simp [modify_of_ne h f he, he]

end Heap

/-! ## The plan -/

/-- What a step of the plan does to the entity it is about, and to no other. -/
def StepChanges (step : Nat → Heap → Result Raised Heap (List Statement)) (f : Entity → Entity)
    (P : Statement → Prop) : Prop :=
  ∀ e h ss h', step e h = .ok ss h' → h' = h.modify e f ∧ ∀ s ∈ ss, P s

variable {step : Nat → Heap → Result Raised Heap (List Statement)} {l : List Nat} {h h' : Heap}
  {ss : List Statement}

theorem planEach_changes {f : Entity → Entity} {P : Statement → Prop} (hstep : StepChanges step f P)
    (hplan : planEach step l h = .ok ss h') :
    h' = Heap.each f l h ∧ ∀ s ∈ ss, P s := by
  induction l generalizing h ss with
  | nil =>
    obtain ⟨rfl, rfl⟩ : [] = ss ∧ h = h' := by simpa [planEach] using hplan
    exact ⟨rfl, fun s hs => nomatch hs⟩
  | cons e l ih =>
    simp only [planEach] at hplan
    cases h1 : step e h with
    | error err hx => simp [h1] at hplan
    | ok ss1 h1' =>
      simp only [h1] at hplan
      cases h2 : planEach step l h1' with
      | error err hx => simp [h2] at hplan
      | ok ss2 h2' =>
        simp only [h2, Result.ok.injEq] at hplan
        obtain ⟨rfl, rfl⟩ := hplan
        obtain ⟨rfl, hP1⟩ := hstep e h ss1 h1' h1
        obtain ⟨rfl, hP2⟩ := ih h2
        refine ⟨rfl, fun s hs => ?_⟩
        rcases List.mem_append.mp hs with hs | hs
        · exact hP1 s hs
        · exact hP2 s hs

/-- Steps that always yield a statement yield none only for no entities. -/
theorem planEach_nil (hstep : ∀ e h h', step e h ≠ .ok [] h')
    (hplan : planEach step l h = .ok [] h') : l = [] := by
  cases l with
  | nil => rfl
  | cons e l =>
    simp only [planEach] at hplan
    cases h1 : step e h with
    | error err hx => simp [h1] at hplan
    | ok ss1 h1' =>
      simp only [h1] at hplan
      cases h2 : planEach step l h1' with
      | error err hx => simp [h2] at hplan
      | ok ss2 h2' =>
        simp only [h2, Result.ok.injEq, List.append_eq_nil_iff] at hplan
        obtain ⟨⟨rfl, -⟩, -⟩ := hplan
        exact absurd h1 (hstep e h h1')

/-- The entities that a statement inserts. -/
def Kind.group : Kind → List Nat
  | .insert group _ => group
  | _ => []

theorem planUpdate_changes (nowMs : Int) :
    StepChanges (planUpdate nowMs) (Entity.touchDirty nowMs)
      (fun s => s.kind.group = []) := by
  intro e h ss h' hstep
  unfold planUpdate at hstep
  by_cases hnew : (h e).isNew = true
  · simp only [hnew, if_true, Result.ok.injEq] at hstep
    obtain ⟨rfl, rfl⟩ := hstep
    refine ⟨?_, fun s hs => nomatch hs⟩
    simp [Heap.modify, Entity.touchDirty, hnew]
  · by_cases hdirty : (h e).isDirty = true
    · simp only [hnew, hdirty, Bool.not_true, Bool.false_eq_true, if_false] at hstep
      split at hstep
      · cases hstep
      · simp only [Result.ok.injEq] at hstep
        obtain ⟨rfl, rfl⟩ := hstep
        refine ⟨?_, fun s hs => ?_⟩
        · simp [Heap.modify, Entity.touchDirty, hnew, hdirty]
        · obtain rfl := List.mem_singleton.mp hs
          rfl
    · simp only [hnew, hdirty, Bool.not_false, if_false, if_true, Result.ok.injEq,
        Bool.false_eq_true] at hstep
      obtain ⟨rfl, rfl⟩ := hstep
      refine ⟨?_, fun s hs => nomatch hs⟩
      simp [Heap.modify, Entity.touchDirty, hdirty]

theorem planUpdate_nil {nowMs : Int} (hstep : planUpdate nowMs e h = .ok [] h') :
    h' = h ∧ ((h e).isNew = true ∨ (h e).isDirty = false) := by
  unfold planUpdate at hstep
  by_cases hnew : (h e).isNew = true
  · simp only [hnew, if_true, Result.ok.injEq, true_and] at hstep
    exact ⟨hstep.symm, .inl hnew⟩
  · by_cases hdirty : (h e).isDirty = true
    · simp only [hnew, hdirty, Bool.not_true, Bool.false_eq_true, if_false] at hstep
      split at hstep
      · cases hstep
      · simp at hstep
    · simp only [hnew, hdirty, Bool.not_false, if_false, if_true, Result.ok.injEq,
        Bool.false_eq_true, true_and] at hstep
      exact ⟨hstep.symm, .inr (by simpa using hdirty)⟩

/-- No update is planned: no tracked entity is dirty, unless it is new. -/
theorem planEach_planUpdate_nil {nowMs : Int}
    (hplan : planEach (planUpdate nowMs) l h = .ok [] h') :
    ∀ e ∈ l, (h e).isNew = true ∨ (h e).isDirty = false := by
  induction l generalizing h with
  | nil => exact fun e he => nomatch he
  | cons a l ih =>
    simp only [planEach] at hplan
    cases h1 : planUpdate nowMs a h with
    | error err hx => simp [h1] at hplan
    | ok ss1 h1' =>
      simp only [h1] at hplan
      cases h2 : planEach (planUpdate nowMs) l h1' with
      | error err hx => simp [h2] at hplan
      | ok ss2 h2' =>
        simp only [h2, Result.ok.injEq, List.append_eq_nil_iff] at hplan
        obtain ⟨⟨rfl, rfl⟩, rfl⟩ := hplan
        obtain ⟨rfl, ha⟩ := planUpdate_nil h1
        intro e he
        rcases List.mem_cons.mp he with rfl | he
        · exact ha
        · exact ih h2 e he

theorem planRemove_changes (nowMs : Int) :
    StepChanges (planRemove nowMs) (fun x => x.ormMarkDeleted nowMs)
      (fun s => s.kind.group = []) := by
  intro e h ss h' hstep
  unfold planRemove at hstep
  simp only at hstep
  split at hstep
  · cases hstep
  · by_cases hsoft : (h e).cls.softDelete = true
    · rw [if_pos hsoft] at hstep
      simp only [Result.ok.injEq] at hstep
      obtain ⟨rfl, rfl⟩ := hstep
      refine ⟨rfl, fun s hs => ?_⟩
      obtain rfl := List.mem_singleton.mp hs
      rfl
    · rw [if_neg hsoft] at hstep
      simp only [Result.ok.injEq] at hstep
      obtain ⟨rfl, rfl⟩ := hstep
      refine ⟨?_, fun s hs => ?_⟩
      · simp [Heap.modify, Entity.ormMarkDeleted, hsoft]
      · obtain rfl := List.mem_singleton.mp hs
        rfl

theorem planRemove_ne_nil (nowMs : Int) (e : Nat) (h h' : Heap) :
    planRemove nowMs e h ≠ .ok [] h' := by
  intro hstep
  unfold planRemove at hstep
  simp only at hstep
  split at hstep
  · cases hstep
  · split at hstep <;> simp at hstep

theorem planRemoveHard_changes : StepChanges planRemoveHard id (fun s => s.kind.group = []) := by
  intro e h ss h' hstep
  unfold planRemoveHard at hstep
  split at hstep
  · cases hstep
  · simp only [Result.ok.injEq] at hstep
    obtain ⟨rfl, rfl⟩ := hstep
    refine ⟨by simp [Heap.modify], fun s hs => ?_⟩
    obtain rfl := List.mem_singleton.mp hs
    rfl

theorem planRemoveHard_ne_nil (e : Nat) (h h' : Heap) : planRemoveHard e h ≠ .ok [] h' := by
  intro hstep
  unfold planRemoveHard at hstep
  split at hstep
  · cases hstep
  · simp at hstep

/-! ### The inserts -/

/-- One more path key. -/
theorem mem_addKeys (h : Heap) (l : List Nat) (keys : List Str) :
    (∀ k ∈ keys, k ∈ l.foldl (addKey h) keys) ∧ ∀ e ∈ l, (h e).pathKey ∈ l.foldl (addKey h) keys := by
  induction l generalizing keys with
  | nil => exact ⟨fun k hk => hk, fun e he => nomatch he⟩
  | cons a l ih =>
    obtain ⟨hkeep, hmem⟩ := ih (addKey h keys a)
    have hold : ∀ k ∈ keys, k ∈ addKey h keys a := by
      intro k hk
      unfold addKey
      split
      · exact hk
      · exact List.mem_append_left _ hk
    have hnew : (h a).pathKey ∈ addKey h keys a := by
      unfold addKey
      split
      · rename_i hc
        simpa using hc
      · simp
    refine ⟨fun k hk => hkeep k (hold k hk), fun e he => ?_⟩
    rcases List.mem_cons.mp he with rfl | he
    · exact hkeep _ hnew
    · exact hmem e he

variable {newList : List Nat}

theorem mem_groupKeys (he : e ∈ newList) : (h e).pathKey ∈ groupKeys h newList :=
  (mem_addKeys h newList []).2 e he

/-- The inserts of a group are one for all of it, or one for each of its entities. -/
structure GroupPlanned (h : Heap) (newList : List Nat) (key : Str) (ss : List Statement) : Prop where
  kind : ∀ s ∈ ss, ∃ e rest, s.kind = .insert (e :: rest) key
  members : ∀ s ∈ ss, ∀ e ∈ s.kind.group, e ∈ groupOf h newList key
  all : ∀ e ∈ groupOf h newList key, ∃ s ∈ ss, e ∈ s.kind.group
  shape : (∃ s, ss = [s]) ∨ ∀ s ∈ ss, ∃ e, s.kind.group = [e]

variable {mode : Int}

theorem groupStatements_ok {key : Str} (hss : groupStatements h newList mode key = .ok ss) :
    GroupPlanned h newList key ss := by
  unfold groupStatements at hss
  cases hg : groupOf h newList key with
  | nil => simp [hg] at hss
  | cons first rest =>
    simp only [hg] at hss
    split at hss
    · -- one insert for each entity
      have hmem : ∀ s ∈ ss, ∃ e ∈ first :: rest, s.kind = .insert [e] key := by
        intro s hs
        obtain ⟨e, he, hes⟩ := exists_of_mem_mapM hss hs
        obtain ⟨ps, -, hps⟩ := bind_eq_ok.mp hes
        obtain rfl := Except.ok.inj hps
        exact ⟨e, he, rfl⟩
      refine ⟨fun s hs => ?_, fun s hs e he => ?_, fun e he => ?_, .inr fun s hs => ?_⟩
      · obtain ⟨e, -, hk⟩ := hmem s hs
        exact ⟨e, [], hk⟩
      · obtain ⟨e', he', hk⟩ := hmem s hs
        rw [hk] at he
        obtain rfl := List.mem_singleton.mp he
        rw [hg]
        exact he'
      · rw [hg] at he
        obtain ⟨s, hs, hes⟩ := exists_mem_mapM hss he
        obtain ⟨ps, -, hps⟩ := bind_eq_ok.mp hes
        obtain rfl := Except.ok.inj hps
        exact ⟨_, hs, List.mem_singleton_self e⟩
      · obtain ⟨e, -, hk⟩ := hmem s hs
        exact ⟨e, by rw [hk]; rfl⟩
    · obtain ⟨rows, -, hrows⟩ := bind_eq_ok.mp hss
      obtain rfl := Except.ok.inj hrows
      refine ⟨fun s hs => ?_, fun s hs e he => ?_, fun e he => ?_, .inl ⟨_, rfl⟩⟩
      · obtain rfl := List.mem_singleton.mp hs
        exact ⟨first, rest, rfl⟩
      · obtain rfl := List.mem_singleton.mp hs
        rw [hg]
        exact he
      · rw [hg] at he
        exact ⟨_, List.mem_singleton_self _, he⟩

/-- Whether the ids of a statement's entities come from the database: its first entity says it. -/
def Kind.auto (h : Heap) : Kind → Bool
  | .insert (e :: _) _ => (h e).cls.ormAutoPk
  | _ => false

/-- The inserts of a save. -/
structure InsertsPlanned (h : Heap) (newList : List Nat) (ss : List Statement) : Prop where
  kind : ∀ s ∈ ss, ∃ e rest key, s.kind = .insert (e :: rest) key
  members : ∀ s ∈ ss, ∀ e ∈ s.kind.group, e ∈ newList
  all : ∀ e ∈ newList, ∃ s ∈ ss, e ∈ s.kind.group
  auto : ∀ s ∈ ss, ∀ s' ∈ ss, ∀ e, e ∈ s.kind.group → e ∈ s'.kind.group →
    s.kind.auto h = s'.kind.auto h

theorem mem_groupOf {key : Str} :
    e ∈ groupOf h newList key ↔ e ∈ newList ∧ (h e).pathKey = key := by
  simp [groupOf]

/-- A statement for one entity takes its word from that entity. -/
theorem Kind.auto_of_group {k : Kind} (hk : k.group = [e]) : k.auto h = (h e).cls.ormAutoPk := by
  cases k with
  | insert group key =>
    have hg : group = [e] := hk
    rw [hg]
    rfl
  | update => cases hk
  | softdelete => cases hk
  | delete => cases hk

theorem insertStatements_ok (hss : insertStatements h newList mode = .ok ss) :
    InsertsPlanned h newList ss := by
  obtain ⟨groups, hgroups, hss⟩ := bind_eq_ok.mp hss
  obtain rfl := Except.ok.inj hss
  -- each statement stands in the group of its own path key
  have hgroup : ∀ s ∈ groups.flatten, ∃ g ∈ groups, ∃ key, s ∈ g ∧
      groupStatements h newList mode key = .ok g := by
    intro s hs
    obtain ⟨g, hg, hsg⟩ := List.mem_flatten.mp hs
    obtain ⟨key, -, hkey⟩ := exists_of_mem_mapM hgroups hg
    exact ⟨g, hg, key, hsg, hkey⟩
  refine ⟨fun s hs => ?_, fun s hs e he => ?_, fun e he => ?_, fun s hs s' hs' e he he' => ?_⟩
  · obtain ⟨g, -, key, hsg, hkey⟩ := hgroup s hs
    obtain ⟨e, rest, hk⟩ := (groupStatements_ok hkey).kind s hsg
    exact ⟨e, rest, key, hk⟩
  · obtain ⟨g, -, key, hsg, hkey⟩ := hgroup s hs
    exact (mem_groupOf.mp ((groupStatements_ok hkey).members s hsg e he)).1
  · obtain ⟨g, hg, hkey⟩ := exists_mem_mapM hgroups (mem_groupKeys (h := h) he)
    obtain ⟨s, hs, hes⟩ := (groupStatements_ok hkey).all e (mem_groupOf.mpr ⟨he, rfl⟩)
    exact ⟨s, List.mem_flatten.mpr ⟨g, hg, hs⟩, hes⟩
  · obtain ⟨g, -, key, hsg, hkey⟩ := hgroup s hs
    obtain ⟨g', -, key', hsg', hkey'⟩ := hgroup s' hs'
    have hG := groupStatements_ok hkey
    -- the entity's path key is that of both groups, so the groups are one
    have hk : (h e).pathKey = key := (mem_groupOf.mp (hG.members s hsg e he)).2
    have hk' : (h e).pathKey = key' :=
      (mem_groupOf.mp ((groupStatements_ok hkey').members s' hsg' e he')).2
    obtain rfl : key = key' := hk.symm.trans hk'
    obtain rfl : g = g' := Except.ok.inj (hkey.symm.trans hkey')
    rcases hG.shape with ⟨t, rfl⟩ | hone
    · rw [List.mem_singleton.mp hsg, List.mem_singleton.mp hsg']
    · obtain ⟨a, ha⟩ := hone s hsg
      obtain ⟨a', ha'⟩ := hone s' hsg'
      rw [ha] at he
      rw [ha'] at he'
      rw [Kind.auto_of_group ha, Kind.auto_of_group ha', ← List.mem_singleton.mp he,
        ← List.mem_singleton.mp he']

/-! ### The whole plan -/

/-- An entity as a save stamps it: a new one, then a dirty one that is tracked, then a removed
one. -/
def stampOf (db : Db) (nowMs : Int) (e : Nat) : Entity :=
  let x := if e ∈ db.newList then (db.heap e).ormTouchInsert nowMs else db.heap e
  let x := if e ∈ db.tracked then x.touchDirty nowMs else x
  if e ∈ db.removeList then x.ormMarkDeleted nowMs else x

theorem restamped_stampOf (db : Db) (nowMs : Int) (e : Nat) :
    Entity.Restamped (db.heap e) (stampOf db nowMs e) := by
  have hif : ∀ (p : Prop) [Decidable p] (f : Entity → Entity) (x : Entity),
      Entity.Restamped x (f x) → Entity.Restamped x (if p then f x else x) := by
    intro p _ f x hx
    split
    · exact hx
    · exact Entity.Restamped.refl x
  exact (hif _ _ _ (Entity.restamped_ormTouchInsert _ nowMs)).trans
    ((hif _ (Entity.touchDirty nowMs) _ (Entity.restamped_touchDirty _ nowMs)).trans
      (hif _ (fun x => x.ormMarkDeleted nowMs) _ (Entity.restamped_ormMarkDeleted _ nowMs)))

/-- The inserts that a save plans, none if the plan fails there. -/
def plannedInserts (b : Backend) (db : Db) : List Statement :=
  match insertStatements (touchInserts b.nowMs db.newList db.heap) db.newList (lockModeFor b db) with
  | .ok ss => ss
  | .error _ => []

/-- A plan that succeeds. -/
structure Planned (b : Backend) (db : Db) (ss : List Statement) (h : Heap) : Prop where
  heap : h = stampOf db b.nowMs
  inserts : InsertsPlanned db.heap db.newList (plannedInserts b db)
  others : ∃ rest, ss = plannedInserts b db ++ rest ∧ ∀ s ∈ rest, s.kind.group = []
  idle : ss = [] → db.newList = [] ∧ db.removeList = [] ∧ db.removeHardList = [] ∧
    ∀ e ∈ db.tracked, (h e).isNew = true ∨ (h e).isDirty = false

/-- The inserts look at the classes only. -/
theorem InsertsPlanned.congr (hcls : ∀ e, (h' e).cls = (h e).cls)
    (hss : InsertsPlanned h newList ss) :
    InsertsPlanned h' newList ss := by
  have hauto : ∀ k : Kind, k.auto h' = k.auto h := by
    intro k
    cases k with
    | insert group key =>
      cases group with
      | nil => rfl
      | cons e rest => exact congrArg EntityClass.ormAutoPk (hcls e)
    | update => rfl
    | softdelete => rfl
    | delete => rfl
  refine ⟨hss.kind, hss.members, hss.all, fun s hs s' hs' e he he' => ?_⟩
  rw [hauto, hauto]
  exact hss.auto s hs s' hs' e he he'

theorem plan_ok {b : Backend} {db : Db} (hplan : db.plan b = .ok ss h) : Planned b db ss h := by
  unfold Db.plan planSave at hplan
  simp only at hplan
  cases h0 : insertStatements (touchInserts b.nowMs db.newList db.heap) db.newList
      (lockModeFor b db) with
  | error err => simp [h0] at hplan
  | ok inserts =>
  simp only [h0] at hplan
  cases h1 : planEach (planUpdate b.nowMs) db.tracked
      (touchInserts b.nowMs db.newList db.heap) with
  | error err hx => simp [h1] at hplan
  | ok updates h1' =>
  simp only [h1] at hplan
  cases h2 : planEach (planRemove b.nowMs) db.removeList h1' with
  | error err hx => simp [h2] at hplan
  | ok removes h2' =>
  simp only [h2] at hplan
  cases h3 : planEach planRemoveHard db.removeHardList h2' with
  | error err hx => simp [h3] at hplan
  | ok hards h3' =>
  simp only [h3, Result.ok.injEq] at hplan
  obtain ⟨rfl, rfl⟩ := hplan
  have hins : plannedInserts b db = inserts := by simp [plannedInserts, h0]
  obtain ⟨rfl, hP1⟩ := planEach_changes (planUpdate_changes b.nowMs) h1
  obtain ⟨rfl, hP2⟩ := planEach_changes (planRemove_changes b.nowMs) h2
  obtain ⟨hh3, hP3⟩ := planEach_changes planRemoveHard_changes h3
  have htouch : ∀ e, touchInserts b.nowMs db.newList db.heap e =
      if e ∈ db.newList then (db.heap e).ormTouchInsert b.nowMs else db.heap e :=
    fun e => Heap.each_apply (fun x => Entity.ormTouchInsert_idem x b.nowMs) _ _ e
  have hheap : h3' = stampOf db b.nowMs := by
    funext e
    rw [hh3, Heap.each_apply (f := id) (fun x => rfl), Heap.each_apply
      (fun x => Entity.ormMarkDeleted_idem x b.nowMs), Heap.each_apply
      (fun x => Entity.touchDirty_idem x b.nowMs), htouch]
    simp only [id, ite_self]
    rfl
  have hcls : ∀ e, (db.heap e).cls = (touchInserts b.nowMs db.newList db.heap e).cls := by
    intro e
    rw [htouch]
    split
    · exact (Entity.restamped_ormTouchInsert _ _).cls.symm
    · rfl
  refine ⟨hheap, ?_, ?_, ?_⟩
  · rw [hins]
    exact (insertStatements_ok h0).congr hcls
  · refine ⟨updates ++ removes ++ hards, ?_, ?_⟩
    · rw [hins]
      simp [List.append_assoc]
    · intro s hs
      rcases List.mem_append.mp hs with hs | hs
      · rcases List.mem_append.mp hs with hs | hs
        · exact hP1 s hs
        · exact hP2 s hs
      · exact hP3 s hs
  · intro hnil
    simp only [List.append_eq_nil_iff] at hnil
    obtain ⟨⟨⟨rfl, rfl⟩, rfl⟩, rfl⟩ := hnil
    have hremove := planEach_nil (planRemove_ne_nil b.nowMs) h2
    have hhard := planEach_nil planRemoveHard_ne_nil h3
    have hnew : db.newList = [] := by
      rw [List.eq_nil_iff_forall_not_mem]
      intro e he
      obtain ⟨s, hs, -⟩ := (insertStatements_ok h0).all e he
      cases hs
    refine ⟨hnew, hremove, hhard, ?_⟩
    intro e he
    have hclean := planEach_planUpdate_nil h1 e he
    have hsame : h3' e = touchInserts b.nowMs db.newList db.heap e := by
      have hdirty : Entity.touchDirty b.nowMs (touchInserts b.nowMs db.newList db.heap e) =
          touchInserts b.nowMs db.newList db.heap e := by
        rcases hclean with hc | hc <;> simp [Entity.touchDirty, hc]
      rw [hh3, hhard, hremove]
      show Heap.each (Entity.touchDirty b.nowMs) db.tracked _ e = _
      rw [Heap.each_apply (fun x => Entity.touchDirty_idem x b.nowMs), if_pos he, hdirty]
    rw [hsame]
    exact hclean

/-! ### A plan asks the database for nothing -/

theorem planEach_ne_database {p : Point} (hstep : ∀ e h h', step e h ≠ .error (.database p) h')
    (l : List Nat) (h h' : Heap) :
    planEach step l h ≠ .error (.database p) h' := by
  induction l generalizing h with
  | nil => simp [planEach]
  | cons e l ih =>
    intro hplan
    simp only [planEach] at hplan
    cases h1 : step e h with
    | error err hx =>
      rw [h1] at hplan
      exact hstep e h h' (h1.trans hplan)
    | ok ss1 h1' =>
      simp only [h1] at hplan
      cases h2 : planEach step l h1' with
      | error err hx =>
        rw [h2] at hplan
        exact ih h1' (h2.trans hplan)
      | ok ss2 h2' => simp [h2] at hplan

theorem planUpdate_ne_database (nowMs : Int) (p : Point) (e : Nat) (h h' : Heap) :
    planUpdate nowMs e h ≠ .error (.database p) h' := by
  intro hstep
  unfold planUpdate at hstep
  split at hstep
  · cases hstep
  · split at hstep
    · cases hstep
    · simp only at hstep
      split at hstep
      · rename_i err hpk
        simp only [Result.error.injEq] at hstep
        obtain ⟨rfl, -⟩ := hstep
        exact Entity.pkVal_ne_database hpk
      · cases hstep

theorem planRemove_ne_database (nowMs : Int) (p : Point) (e : Nat) (h h' : Heap) :
    planRemove nowMs e h ≠ .error (.database p) h' := by
  intro hstep
  unfold planRemove at hstep
  simp only at hstep
  split at hstep
  · rename_i err hpk
    simp only [Result.error.injEq] at hstep
    obtain ⟨rfl, -⟩ := hstep
    exact Entity.pkVal_ne_database hpk
  · split at hstep <;> cases hstep

theorem planRemoveHard_ne_database (p : Point) (e : Nat) (h h' : Heap) :
    planRemoveHard e h ≠ .error (.database p) h' := by
  intro hstep
  unfold planRemoveHard at hstep
  split at hstep
  · rename_i err hpk
    simp only [Result.error.injEq] at hstep
    obtain ⟨rfl, -⟩ := hstep
    exact Entity.pkVal_ne_database hpk
  · cases hstep

theorem insertParams_error {skip : Str → Bool} {cols : List Str} {vals : List DbValue} {err : Raised}
    (h : insertParams skip cols vals = .error err) : err = .bounds := by
  induction cols generalizing vals with
  | nil => cases h
  | cons c cols ih =>
    unfold insertParams at h
    split at h
    · exact ih h
    · cases vals with
      | nil => exact (Except.error.inj h).symm
      | cons v vals =>
        simp only at h
        cases h1 : insertParams skip cols vals with
        | error err' =>
          rw [h1] at h
          obtain rfl := Except.error.inj h
          exact ih h1
        | ok ps =>
          rw [h1] at h
          cases h

theorem insertStatements_error {err : Raised} (hss : insertStatements h newList mode = .error err) :
    err = .bounds := by
  rcases bind_eq_error.mp hss with hgroups | ⟨groups, -, hret⟩
  · obtain ⟨key, -, hkey⟩ := exists_of_mapM_error hgroups
    unfold groupStatements at hkey
    split at hkey
    · exact (Except.error.inj hkey).symm
    · simp only at hkey
      split at hkey
      · obtain ⟨e, -, he⟩ := exists_of_mapM_error hkey
        rcases bind_eq_error.mp he with hrow | ⟨ps, -, hret⟩
        · exact insertParams_error hrow
        · cases hret
      · rcases bind_eq_error.mp hkey with hrows | ⟨rows, -, hret⟩
        · obtain ⟨e, -, he⟩ := exists_of_mapM_error hrows
          exact insertParams_error he
        · cases hret
  · cases hret

theorem plan_ne_database {b : Backend} {db : Db} {p : Point} :
    db.plan b ≠ .error (.database p) h := by
  intro hplan
  unfold Db.plan planSave at hplan
  simp only at hplan
  split at hplan
  · rename_i err h0
    simp only [Result.error.injEq] at hplan
    rw [insertStatements_error h0] at hplan
    cases hplan.1
  · split at hplan
    · rename_i err hx h1
      exact planEach_ne_database (planUpdate_ne_database b.nowMs p) _ _ _ (h1.trans hplan)
    · split at hplan
      · rename_i err hx h2
        exact planEach_ne_database (planRemove_ne_database b.nowMs p) _ _ _ (h2.trans hplan)
      · split at hplan
        · rename_i err hx h3
          exact planEach_ne_database (planRemoveHard_ne_database p) _ _ _ (h3.trans hplan)
        · cases hplan

end Leviathan.Orm
