import Leviathan.Lib.Runs
import Leviathan.Ir.Accessors

/-!
# The engines run the same accessors

**Main result** (`enginesAgree_iff`): a slot is given out only for a field without accessors, and in
a run both engines run the accessors the language runs, exactly if no accessor comes from elsewhere
alone and each access of the run that runs an accessor is fine.
-/

namespace Leviathan.Ir.Accessors

open Leviathan.Sema

variable {name : Str} {wantGet : Bool} {rawField : Option Str}

namespace Hierarchy

variable {σ ι : Type} [DecidableEq ι] {p : Hierarchy σ ι}

/-! ### Accessors and slots -/

omit [DecidableEq ι] in
theorem declares_class {cls : ι} (h : p.Declares cls name) : p.kind cls = .Class := by
  obtain ⟨m, hm, -⟩ := h
  exact (p.class_of_member cls m hm).1

omit [DecidableEq ι] in
theorem isWanted_isAccessor {m : Member ι} (h : isWanted name wantGet m = true) :
    isAccessor name m = true := by
  unfold isWanted at h
  unfold isAccessor
  cases wantGet <;> simp_all

omit [DecidableEq ι] in
/-- Nothing is found if nothing above the class is wanted. -/
theorem findAccessorIn_isSome {n : Nat} {cls above : ι} (hn : p.rank cls ≤ n)
    (habove : Relation.ReflTransGen p.Base cls above) {m : Member ι} (hm : m ∈ p.members above)
    (hwanted : isWanted name wantGet m = true) :
    (p.findAccessorIn name wantGet n cls).isSome = true := by
  have hown : (p.ownAccessor name wantGet above).isSome = true := by
    rw [ownAccessor, if_pos (p.class_of_member above m hm).2, List.find?_isSome]
    exact ⟨m, hm, hwanted⟩
  induction habove using Relation.ReflTransGen.head_induction_on generalizing n with
  | refl =>
    obtain ⟨m', hm'⟩ := Option.isSome_iff_exists.mp hown
    cases n with
    | zero => rw [findAccessorIn, hm', Option.map_some, Option.isSome_some]
    | succ n => rw [findAccessorIn, hm', Option.isSome_some]
  | @head cls base hbase _ ih =>
    have hlt := p.rank_lt cls base hbase
    cases n with
    | zero => omega
    | succ n =>
      rw [findAccessorIn]
      cases hcls : p.ownAccessor name wantGet cls with
      | some m' => rfl
      | none =>
        rw [List.findSome?_isSome_iff]
        exact ⟨base, hbase, ih (by omega)⟩

/-- A class has no accessor for a name exactly if no class above it declares one. -/
theorem findAccessor_eq_none_iff {cls : ι} :
    (∀ wantGet, p.findAccessor cls name wantGet = none) ↔
      ∀ above, p.isSubclass cls above = true → ¬p.Declares above name := by
  constructor
  · rintro hnone above habove ⟨m, hm, hacc⟩
    have hwanted : ∃ wantGet, isWanted name wantGet m = true := by
      unfold isAccessor at hacc
      rw [Bool.and_eq_true, Bool.or_eq_true] at hacc
      rcases hacc.1 with hget | hset
      · exact ⟨true, by simp [isWanted, hget, of_decide_eq_true hacc.2]⟩
      · exact ⟨false, by simp [isWanted, hset, of_decide_eq_true hacc.2]⟩
    obtain ⟨wantGet, hwanted⟩ := hwanted
    have hsome := findAccessorIn_isSome (p := p) le_rfl (p.isSubclass_iff.mp habove) hm hwanted
    rw [← findAccessor, hnone wantGet] at hsome
    cases hsome
  · intro hnone wantGet
    cases hfound : p.findAccessor cls name wantGet with
    | none => rfl
    | some found =>
      obtain ⟨habove, hm, hwanted⟩ := p.findAccessor_spec (c := found.1) (m := found.2) hfound
      exact absurd ⟨found.2, hm, isWanted_isAccessor hwanted⟩ (hnone found.1 habove)

/-- A slot is given out for a field with one slot, and no accessor at the class or below it. -/
theorem packedSlot_ne_zero_iff {cls : ι} {key : Str} :
    p.packedSlot cls key true ≠ 0 ↔ p.Stable cls key ∧
      ∀ below, p.isSubclass below cls = true → ¬p.Declares below key := by
  unfold packedSlot
  cases hslot : p.fieldSlotOf cls key with
  | none =>
    refine iff_of_false (fun h => h rfl) ?_
    rintro ⟨⟨slot, hstable⟩, -⟩
    rw [hstable cls (.inr rfl)] at hslot
    cases hslot
  | some slot =>
    dsimp only
    split
    · next hall =>
        rw [List.all_eq_true] at hall
        have hpacks : ∀ sub, p.kind sub = .Class → p.isSubclass sub cls = true →
            p.fieldSlotOf sub key = some slot ∧ ¬p.Declares sub key := by
          intro sub hkind hsub
          have hpack := hall sub (p.mem_symbols sub)
          simp [hkind, hsub, packs] at hpack
          refine ⟨hpack.1, ?_⟩
          rintro ⟨m, hm, hacc⟩
          rw [hpack.2 m hm] at hacc
          cases hacc
        refine iff_of_true (Nat.succ_ne_zero slot) ⟨⟨slot, ?_⟩, ?_⟩
        · rintro sub (⟨hkind, hsub⟩ | rfl)
          · exact (hpacks sub hkind hsub).1
          · exact hslot
        · exact fun below hbelow hdecl => (hpacks below (declares_class hdecl) hbelow).2 hdecl
    · next hall =>
        refine iff_of_false (fun h => h rfl) ?_
        rintro ⟨⟨slot', hstable⟩, hnone⟩
        obtain rfl : slot = slot' := Option.some.inj (hslot.symm.trans (hstable cls (.inr rfl)))
        refine hall (List.all_eq_true.mpr fun sub _ => ?_)
        by_cases hsub : p.kind sub = .Class ∧ p.isSubclass sub cls = true
        · have hnot : (p.members sub).any (isAccessor key) = false := by
            rw [List.any_eq_false]
            exact fun m hm hacc => hnone sub hsub.2 ⟨m, hm, hacc⟩
          simp [packs, hstable sub (.inl hsub), hnot]
        · rw [Bool.or_eq_true]
          exact .inl (by simpa [imp_iff_not_or] using hsub)

/-- Slots are given out soundly exactly if no accessor comes from elsewhere alone. -/
theorem packedSound_iff : p.PackedSound ↔ p.AccessorsBelow := by
  constructor
  · intro hsound cls key hstable sub above hsub habove hdecl
    by_contra hnone
    have hpacked := packedSlot_ne_zero_iff.mpr
      ⟨hstable, fun below hbelow hdecl => hnone ⟨below, hbelow, hdecl⟩⟩
    exact findAccessor_eq_none_iff.mp (hsound cls key hpacked sub hsub) above habove hdecl
  · intro hbelow cls key hpacked sub hsub
    obtain ⟨hstable, hnone⟩ := packedSlot_ne_zero_iff.mp hpacked
    refine findAccessor_eq_none_iff.mpr fun above habove hdecl => ?_
    obtain ⟨below, hsub', hdecl'⟩ := hbelow cls key hstable sub above hsub habove hdecl
    exact hnone below hsub' hdecl'

/-- An access through a class is not packed, if the object's class has the accessor. -/
theorem packedSlot_eq_zero (hsound : p.PackedSound) {cls receiver : ι}
    (hsub : p.isSubclass receiver cls = true) {callee : p.Frame}
    (hcallee : p.accessorOn receiver name wantGet = some callee) :
    p.packedSlot cls name true = 0 := by
  by_contra hpacked
  have hnone := hsound cls name hpacked receiver hsub wantGet
  unfold accessorOn at hcallee
  split at hcallee
  · next hfound =>
      rw [hnone] at hfound
      cases hfound
  · cases hcallee

/-! ### One access -/

/-- An accessor runs on the object of the access. -/
theorem exists_receiver {f callee : p.Frame} {a : Access ι} (h : p.accessorFrame f a = some callee) :
    ∃ receiver, f.receiver a = some receiver ∧
      p.accessorOn receiver a.name (!a.write) = some callee :=
  Option.bind_eq_some_iff.mp h

/-- The accessor that is entered is one of the property. -/
theorem accessorFrame_accessor {f callee : p.Frame} {a : Access ι}
    (h : p.accessorFrame f a = some callee) : callee.accessor = some a.name := by
  obtain ⟨receiver, -, hon⟩ := exists_receiver h
  unfold accessorOn at hon
  split at hon
  · cases hon
    rfl
  · cases hon

/-- The evaluator asks for no accessor that the language does not run. -/
theorem evalConsults_of_spec_false {f : p.Frame} {a : Access ι}
    (hown : ∀ q, f.accessor = some q → rawField = some q) (h : p.specConsults f a = false) :
    p.evalConsults rawField f a = false := by
  unfold specConsults at h
  unfold evalConsults
  cases hform : a.form with
  | bare isLocal =>
    rw [hform] at h
    have hcases : isLocal = true ∨ f.accessor = some a.name := by
      cases isLocal <;> simp_all
    rcases hcases with rfl | hacc
    · simp
    · simp [hown a.name hacc]
  | _ =>
    rw [hform] at h
    cases h

/-- The lowered program asks for no accessor that the language does not run. -/
theorem lowConsults_of_spec_false {f : p.Frame} {a : Access ι} (h : p.specConsults f a = false) :
    p.lowConsults f a = false := by
  unfold specConsults at h
  unfold lowConsults lowerAccess
  cases hform : a.form with
  | bare isLocal =>
    rw [hform] at h
    have hcases : isLocal = true ∨ f.accessor = some a.name := by
      cases isLocal <;> simp_all
    rcases hcases with rfl | hacc
    · rfl
    · rw [decide_eq_false_iff_not]
      dsimp only
      split_ifs with hlocal
      · nofun
      · intro hop
        obtain ⟨s, hs, hop⟩ := Option.bind_eq_some_iff.mp hop
        split_ifs at hop
        unfold nameOp at hop
        simp only [hacc, decide_true, Bool.and_true, Bool.true_or, if_true] at hop
        split_ifs at hop <;> cases hop
  | _ =>
    rw [hform] at h
    cases h

/-- The evaluator asks for an accessor that the language runs, where the name is not guarded. -/
theorem evalConsults_iff {f : p.Frame} {a : Access ι} (h : p.specConsults f a = true) :
    p.evalConsults rawField f a = true ↔ rawField ≠ some a.name ∧
      ∀ isLocal, a.form = .bare isLocal → a.write = false →
        f.self.any (fun s => p.hasField s.thisClass a.name) = true := by
  unfold specConsults at h
  unfold evalConsults
  cases hform : a.form with
  | bare isLocal =>
    rw [hform] at h
    obtain rfl : isLocal = false := by
      cases isLocal <;> simp_all
    cases hwrite : a.write <;> simp
  | _ => simp

/-- The lowered program asks for an accessor that the language runs, where the name is known for a
member and the field is not taken for a weak one. -/
theorem lowConsults_iff (hsound : p.PackedSound) {f callee : p.Frame} {a : Access ι}
    (h : p.specConsults f a = true) (hcallee : p.accessorFrame f a = some callee) :
    p.lowConsults f a = true ↔
      (∀ isLocal, a.form = .bare isLocal →
        f.self.any (fun s => p.classHasMember s.lexical a.name) = true) ∧
      f.weakDirect a = false := by
  obtain ⟨receiver, hreceiver, hon⟩ := exists_receiver hcallee
  unfold specConsults at h
  unfold Frame.receiver at hreceiver
  unfold lowConsults lowerAccess
  rw [decide_eq_true_eq]
  cases hform : a.form with
  | bare isLocal =>
    rw [hform] at h hreceiver
    obtain ⟨s, hs, rfl⟩ := Option.map_eq_some_iff.mp hreceiver
    have hpacked := packedSlot_eq_zero hsound s.inherits hon
    have hother : f.accessor ≠ some a.name := by
      cases isLocal <;> simp_all
    obtain rfl : isLocal = false := by
      cases isLocal <;> simp_all
    simp [hs, nameOp, hother, hpacked]
  | self =>
    rw [hform] at hreceiver
    obtain ⟨s, hs, rfl⟩ := Option.map_eq_some_iff.mp hreceiver
    have hpacked := packedSlot_eq_zero hsound s.inherits hon
    simp [hs, hpacked]
  | member receiver known => simp
  | element cls =>
    rw [hform] at hreceiver
    obtain rfl := Option.some.inj hreceiver
    have hpacked := packedSlot_eq_zero hsound (p.isSubclass_iff.mpr .refl) hon
    simp [hpacked]

/-- **One access.**  Both engines do as the language does exactly if the access, if it runs an
accessor, is fine. -/
theorem consults_iff (hsound : p.PackedSound) {f : p.Frame} {a : Access ι}
    (hown : ∀ q, f.accessor = some q → rawField = some q) :
    (∀ callee, p.accessorFrame f a = some callee →
        p.evalConsults rawField f a = p.specConsults f a ∧
          p.lowConsults f a = p.specConsults f a) ↔
      (p.Dispatched f a → p.AccessFine rawField f a) := by
  cases hspec : p.specConsults f a with
  | false =>
    refine iff_of_true (fun _ _ => ⟨evalConsults_of_spec_false hown hspec,
      lowConsults_of_spec_false hspec⟩) ?_
    rintro ⟨htrue, -⟩
    rw [hspec] at htrue
    cases htrue
  | true =>
    constructor
    · rintro h ⟨-, callee, hcallee⟩
      obtain ⟨heval, hlow⟩ := h callee hcallee
      obtain ⟨hguard, hfield⟩ := (evalConsults_iff hspec).mp heval
      obtain ⟨hmember, hstrong⟩ := (lowConsults_iff hsound hspec hcallee).mp hlow
      exact ⟨hguard, hfield, hmember, hstrong⟩
    · intro h callee hcallee
      have hfine := h ⟨hspec, callee, hcallee⟩
      exact ⟨(evalConsults_iff hspec).mpr ⟨hfine.guard, hfine.field⟩,
        (lowConsults_iff hsound hspec hcallee).mpr ⟨hfine.member, hfine.strong⟩⟩

/-! ### Runs -/

/-- What the evaluator keeps: `rawField_` names the accessor that was entered last, and each accessor
puts back what it was when the accessor was entered. -/
def Guarded : Option Str → List (p.Frame × Option (Option Str)) → Prop
  | rawField, [] => rawField = none
  | rawField, (f, none) :: calls => f.accessor = none ∧ Guarded rawField calls
  | rawField, (f, some saved) :: calls =>
    (∃ q, f.accessor = some q ∧ rawField = some q) ∧ Guarded saved calls

theorem Guarded.rawField_eq {calls : List (p.Frame × Option (Option Str))}
    (h : Guarded rawField calls) : rawField = running (calls.map Prod.fst) := by
  induction calls generalizing rawField with
  | nil => exact h
  | cons call calls ih =>
    obtain ⟨f, saved⟩ := call
    cases saved with
    | none =>
      obtain ⟨hf, hrest⟩ := h
      rw [ih hrest, running, running, List.map_cons, List.findSome?_cons, hf]
    | some saved =>
      obtain ⟨⟨q, hf, rfl⟩, -⟩ := h
      rw [running, List.map_cons, List.findSome?_cons, hf]

/-- An event keeps that. -/
theorem guarded_evalStep {st : p.EvalState} (h : Guarded st.rawField st.calls) (e : p.Event) :
    Guarded (evalStep st e).rawField (evalStep st e).calls := by
  cases e with
  | access a =>
    rw [evalStep]
    split
    · cases hcallee : p.accessorFrame (top st.stack) a with
      | none => exact h
      | some f => exact ⟨⟨a.name, accessorFrame_accessor hcallee, rfl⟩, h⟩
    · exact h
  | call f hf => exact ⟨hf, h⟩
  | ret =>
    obtain ⟨rawField, calls⟩ := st
    cases calls with
    | nil => exact h
    | cons call calls =>
      obtain ⟨f, saved⟩ := call
      cases saved with
      | none => exact h.2
      | some saved => exact h.2

/-- The evaluator as a machine of its own stack. -/
def evalStackStep : List p.Frame → p.Event → List p.Frame :=
  stepWith fun stack a => p.evalConsults (running stack) (top stack) a

theorem stack_evalStep {st : p.EvalState} (h : Guarded st.rawField st.calls) (e : p.Event) :
    (evalStep st e).stack = evalStackStep st.stack e := by
  have hraw : st.rawField = running st.stack := h.rawField_eq
  cases e with
  | access a =>
    rw [evalStep, evalStackStep, stepWith, hraw]
    split
    · cases p.accessorFrame (top st.stack) a <;> rfl
    · rfl
  | call f hf => rfl
  | ret =>
    obtain ⟨rawField, calls⟩ := st
    cases calls with
    | nil => rfl
    | cons call calls => rfl

/-- A run of the evaluator, by its stack. -/
theorem stack_foldl_evalStep (events : List p.Event) :
    (events.foldl evalStep p.start).stack = events.foldl evalStackStep [] := by
  suffices h : ∀ (st : p.EvalState), Guarded st.rawField st.calls →
      (events.foldl evalStep st).stack = events.foldl evalStackStep st.stack from h p.start rfl
  induction events with
  | nil => exact fun _ _ => rfl
  | cons e events ih =>
    intro st h
    rw [List.foldl_cons, List.foldl_cons, ih _ (guarded_evalStep h e), stack_evalStep h]

/-- An access leads to the same stack exactly if the same is decided wherever there is an accessor. -/
theorem stepWith_access_iff {c c' : List p.Frame → Access ι → Bool} {stack : List p.Frame}
    {a : Access ι} : stepWith c stack (.access a) = stepWith c' stack (.access a) ↔
      ∀ callee, p.accessorFrame (top stack) a = some callee → c stack a = c' stack a := by
  rw [stepWith, stepWith]
  cases hcallee : p.accessorFrame (top stack) a with
  | none => simp
  | some callee =>
    have hne : callee :: stack ≠ stack := fun h => by
      have hlength := congrArg List.length h
      rw [List.length_cons] at hlength
      omega
    cases c stack a <;> cases c' stack a <;> simp [hne, hne.symm]

/-- The code that is running is that of an accessor only if this was entered last. -/
theorem running_of_top {stack : List p.Frame} {q : Str} (h : (top stack).accessor = some q) :
    running stack = some q := by
  cases stack with
  | nil => cases h
  | cons f stack =>
    have hf : f.accessor = some q := h
    rw [running, List.findSome?_cons, hf]

/-- **Accessors.**  Slots are given out only for fields without accessors, and in a run both engines
run the accessors that the language runs, exactly if no accessor comes from elsewhere alone and all
accesses of the run are fine. -/
theorem enginesAgree_iff (p : Hierarchy σ ι) (events : List p.Event) :
    p.PackedSound ∧ p.EnginesAgree events ↔ p.AccessorsBelow ∧ p.RunFine events := by
  rw [← packedSound_iff]
  refine and_congr_right fun hsound => ?_
  have hsplit : p.EnginesAgree events ↔
      (∀ done, done <+: events → done.foldl evalStackStep [] = done.foldl specStep []) ∧
        ∀ done, done <+: events → done.foldl lowStep [] = done.foldl specStep [] := by
    constructor
    · intro h
      exact ⟨fun done hdone => (stack_foldl_evalStep done).symm.trans (h done hdone).1,
        fun done hdone => (h done hdone).2⟩
    · intro h done hdone
      exact ⟨(stack_foldl_evalStep done).trans (h.1 done hdone), h.2 done hdone⟩
  rw [hsplit, Runs.foldl_eq_iff, Runs.foldl_eq_iff]
  constructor
  · rintro ⟨heval, hlow⟩ done a hdone
    refine (consults_iff hsound fun q hq => running_of_top hq).mp fun callee hcallee => ?_
    exact ⟨stepWith_access_iff.mp (heval done _ hdone) callee hcallee,
      stepWith_access_iff.mp (hlow done _ hdone) callee hcallee⟩
  · intro hfine
    have haccess : ∀ done a, done ++ [.access a] <+: events → ∀ callee,
        p.accessorFrame (top (done.foldl specStep [])) a = some callee → _ :=
      fun done a hdone => (consults_iff hsound fun q hq => running_of_top hq).mpr (hfine done a hdone)
    constructor
    · intro done e hdone
      cases e with
      | access a =>
        exact stepWith_access_iff.mpr fun callee hcallee => (haccess done a hdone callee hcallee).1
      | call f hf => rfl
      | ret => rfl
    · intro done e hdone
      cases e with
      | access a =>
        exact stepWith_access_iff.mpr fun callee hcallee => (haccess done a hdone callee hcallee).2
      | call f hf => rfl
      | ret => rfl

end Hierarchy

/-! ### A getter that is inherited -/

/-- The classes of a small program. -/
inductive Gauge where
  | meter | probe
deriving DecidableEq

/-- `class Meter { int x; get x() => x; }  class Probe : Meter { int read() { return x; } }`. -/
def gauges : Hierarchy Unit Gauge where
  kind _ := .Class
  decl
    | .meter => some {}
    | .probe => some { bases := [.named [] "Meter".toList [] none] }
  scope _ := some ()
  enclosing _ := [()]
  names _ name := if name = "Meter".toList then [.meter] else []
  rank
    | .meter => 0
    | .probe => 1
  rank_lt := by
    intro cls
    cases cls <;> decide
  symbols := [.meter, .probe]
  mem_symbols := by
    intro sym
    cases sym <;> decide
  symName
    | .meter => "Meter".toList
    | .probe => "Probe".toList
  isInterface _ := false
  members
    | .meter => [{ decl := 0, name := "x".toList, type := some (.named [] "int".toList [] none) },
                 { decl := 1, name := "x".toList, isGet := true }]
    | .probe => [{ decl := 2, name := "read".toList, callable := true }]
  class_of_member := by
    intro sym
    cases sym <;> decide

/-- The code of `read`. -/
def reading : gauges.Frame := ⟨some ⟨.probe, .probe, .probe, by decide⟩, none⟩

/-- `x`, in `read`. -/
def readX : Hierarchy.Access Gauge := ⟨"x".toList, false, .bare false⟩

/-- **An inherited getter.**  `Probe` and the classes below it declare no accessor, so `x` is a slot
in `read`; the getter of `Meter`, which the evaluator runs, is left out. -/
theorem inherited_getter_left_out :
    gauges.packedSlot .probe "x".toList true = 1 ∧
      (gauges.findAccessor .probe "x".toList true).isSome = true ∧
      ¬gauges.PackedSound ∧ ¬gauges.EnginesAgree [.call reading rfl, .access readX] := by
  have hslot : gauges.packedSlot .probe "x".toList true = 1 := by decide
  have hgetter : (gauges.findAccessor .probe "x".toList true).isSome = true := by decide
  refine ⟨hslot, hgetter, fun hsound => ?_, fun hagree => ?_⟩
  · rw [hsound .probe "x".toList (by decide) .probe (by decide) true] at hgetter
    cases hgetter
  · have hlow : ([.call reading rfl, .access readX].foldl Hierarchy.lowStep []).length = 1 := by
      decide
    rw [(hagree _ (List.prefix_refl _)).2] at hlow
    revert hlow
    decide

end Leviathan.Ir.Accessors
