import Leviathan.Ir.Ownership

/-!
# What one run of `analyzeFn` finds

Given what is known about the callees (an `Oracle`), the code of a function determines the least
assignment of ids to registers that is closed under its instructions (`Alias`), and with it the
parameters that escape or return.  `analyzeFn` finds at least that for the summaries it starts
from (`analyzeFn_complete`), and nothing that an oracle closed for the function does not have
(`analyzeFn_sound`).  It may find more than the least assignment for the summaries it starts from,
because a call of the function itself sees the summary while it grows.
-/

variable {sums : Nat → Summary} {pc p callee base argc : Nat} {i : Inst} {id : Int}
  {found : Oracle → Int → Prop} {returned : Int → Prop} {l : List (Inst × Nat)}

namespace Leviathan.Ir

open List

/-- What is known about the parameters of the functions. -/
structure Oracle where
  escapes : Nat → Nat → Prop
  returns : Nat → Nat → Prop

/-- One oracle knows what the other knows. -/
def Oracle.le (O O' : Oracle) : Prop :=
  (∀ g k, O.escapes g k → O'.escapes g k) ∧ ∀ g k, O.returns g k → O'.returns g k

/-- What the summaries say. -/
def oracleOf (sums : Nat → Summary) : Oracle :=
  ⟨fun g k => k ∈ (sums g).paramEscapes, fun g k => k ∈ (sums g).paramToRet⟩

section Ideal

variable (mod : IrModule) (fi : Nat)

/-- Not every id of the set is the site of a value struct. -/
def SomeOther (s : Set Int) : Prop := ∃ id ∈ s, valueStructSite mod fi id = false

/-- An id of the arguments flows into the result of a call. -/
def ArgFlows (O : Oracle) (R : Nat → Set Int) (callee base argc : Nat) (id : Int) : Prop :=
  ∃ k < argc, O.returns callee k ∧ id ∈ R (base + k)

/-- An instruction puts an id into its register `a`. -/
def Flows (O : Oracle) (R : Nat → Set Int) (pc : Nat) (i : Inst) (id : Int) : Prop :=
  if isAlloc i.op || i.cvAlloc then
    id = (pc : Int) ∨ (i.op = .NewArray ∧ ∃ k < i.d, id ∈ R (i.c + k)) ∨
      ((i.op = .NewArraySized ∧ i.d = 2) ∧ id ∈ R (i.c + 1))
  else match i.op with
    | .Move | .MoveClear | .CopyVal | .IndexStore => id ∈ R i.b
    | .Call => ArgFlows O R i.b i.c i.d id
    | .CallDyn =>
      match mod.callee i with
      | some callee => ArgFlows O R callee i.c i.d id
      | none =>
        match nativeInfo i.sname with
        | some ni => (ni.selfToResult = true ∧ id ∈ R i.c) ∨
            (ni.argsToResult = true ∧ ∃ k < i.d, 1 ≤ k ∧
              SomeOther mod fi (R (i.c + k)) ∧ id ∈ R (i.c + k))
        | none => False
    | _ => False

/-- An id of the arguments escapes in a call. -/
def ArgEscapes (O : Oracle) (R : Nat → Set Int) (callee base argc : Nat) (id : Int) : Prop :=
  ∃ k < argc, O.escapes callee k ∧ id ∈ R (base + k)

/-- An id flows into a sink that is not a `Ret`. -/
def Sinks (O : Oracle) (R : Nat → Set Int) (i : Inst) (id : Int) : Prop :=
  match i.op with
  | .Throw | .SetMember | .RawSet | .StoreGlobal => id ∈ R i.a
  | .IndexStore => id ∈ R i.d
  | .CaptureVar => id ∈ R i.b
  | .CallNativeFn | .CallValue => ∃ k < i.d, id ∈ R (i.c + k)
  | .Call => ArgEscapes O R i.b i.c i.d id
  | .CallDyn =>
    match mod.callee i with
    | some callee => ArgEscapes O R callee i.c i.d id
    | none => (nativeInfo i.sname).isNone = true ∧ ∃ k < i.d, id ∈ R (i.c + k)
  | .Arith =>
    match i.decl with
    | none => i.tk ≠ .End ∧ (id ∈ R i.b ∨ id ∈ R i.c)
    | some _ =>
      match mod.callee i with
      | some callee => (O.escapes callee 0 ∧ id ∈ R i.b) ∨ (O.escapes callee 1 ∧ id ∈ R i.c)
      | none => False
  | _ => False

/-- The assignment holds the parameters and is closed under the instructions. -/
structure Closed (O : Oracle) (R : Nat → Set Int) : Prop where
  entry : ∀ r, ∀ id ∈ entryRegs (mod.function fi) r, id ∈ R r
  flow : ∀ pc i, (mod.function fi).code[pc]? = some i → ∀ id, Flows mod fi O R pc i id → id ∈ R i.a

/-- The least closed assignment. -/
def Alias (O : Oracle) (r : Nat) : Set Int := {id | ∀ R, Closed mod fi O R → id ∈ R r}

/-- A parameter escapes. -/
def Escapes (O : Oracle) (p : Nat) : Prop :=
  p < (mod.function fi).nparams ∧
    ∃ i ∈ (mod.function fi).code, Sinks mod O (Alias mod fi O) i (paramId p)

/-- A parameter returns. -/
def Returns (O : Oracle) (p : Nat) : Prop :=
  p < (mod.function fi).nparams ∧
    ∃ i ∈ (mod.function fi).code, i.op = .Ret ∧ paramId p ∈ Alias mod fi O i.a

end Ideal

section Monotone

variable {mod : IrModule} {fi : Nat} {O O' : Oracle} {R R' : Nat → Set Int}

theorem oracleOf_le {sums' : Nat → Summary}
    (hesc : ∀ g, (sums g).paramEscapes ⊆ (sums' g).paramEscapes)
    (hret : ∀ g, (sums g).paramToRet ⊆ (sums' g).paramToRet) :
    (oracleOf sums).le (oracleOf sums') :=
  ⟨fun g _ hk => hesc g hk, fun g _ hk => hret g hk⟩

/-- The summary of one function grows, the others stay. -/
theorem oracleOf_le_of_others {sums' : Nat → Summary} (hothers : ∀ g, g ≠ fi → sums' g = sums g)
    (hesc : (sums fi).paramEscapes ⊆ (sums' fi).paramEscapes)
    (hret : (sums fi).paramToRet ⊆ (sums' fi).paramToRet) :
    (oracleOf sums).le (oracleOf sums') := by
  have hcases : ∀ g, g = fi ∨ sums' g = sums g := fun g => or_iff_not_imp_left.mpr (hothers g)
  refine oracleOf_le (fun g => ?_) fun g => ?_
  · obtain heq | heq := hcases g
    · exact heq ▸ hesc
    · rw [heq]
  · obtain heq | heq := hcases g
    · exact heq ▸ hret
    · rw [heq]

/-- What an oracle knows of the summary that replaces one. -/
theorem oracleOf_update_le {sum : Summary} (hO : (oracleOf sums).le O)
    (hesc : ∀ p ∈ sum.paramEscapes, O.escapes fi p) (hret : ∀ p ∈ sum.paramToRet, O.returns fi p) :
    (oracleOf (Function.update sums fi sum)).le O := by
  have hcases : ∀ g, g = fi ∨ Function.update sums fi sum g = sums g := fun g =>
    or_iff_not_imp_left.mpr fun hg => Function.update_of_ne hg sum sums
  refine ⟨fun g p hp => ?_, fun g p hp => ?_⟩
  · obtain heq | heq := hcases g
    · subst heq
      simp only [oracleOf, Function.update_self] at hp
      exact hesc p hp
    · simp only [oracleOf, heq] at hp
      exact hO.1 g p hp
  · obtain heq | heq := hcases g
    · subst heq
      simp only [oracleOf, Function.update_self] at hp
      exact hret p hp
    · simp only [oracleOf, heq] at hp
      exact hO.2 g p hp

/-- **More is known, more flows.** -/
theorem Flows.mono (h : Flows mod fi O R pc i id) (hO : O.le O') (hR : ∀ r, R r ⊆ R' r) :
    Flows mod fi O' R' pc i id := by
  have hargs : ∀ {callee base argc : Nat}, ArgFlows O R callee base argc id →
      ArgFlows O' R' callee base argc id := by
    intro callee base argc h
    obtain ⟨k, hk, hret, hid⟩ := h
    exact ⟨k, hk, hO.2 _ _ hret, hR _ hid⟩
  unfold Flows at h ⊢
  split at h
  · next halloc =>
      rw [if_pos halloc]
      obtain h | ⟨hop, k, hk, hid⟩ | ⟨hop, hid⟩ := h
      · exact Or.inl h
      · exact Or.inr (Or.inl ⟨hop, k, hk, hR _ hid⟩)
      · exact Or.inr (Or.inr ⟨hop, hR _ hid⟩)
  · next halloc =>
      rw [if_neg halloc]
      split at h
      · exact hR _ h
      · exact hR _ h
      · exact hR _ h
      · exact hR _ h
      · exact hargs h
      · split at h
        · exact hargs h
        · split at h
          · obtain ⟨hself, hid⟩ | ⟨hself, k, hk, hk1, ⟨id', hid', hval⟩, hid⟩ := h
            · exact Or.inl ⟨hself, hR _ hid⟩
            · exact Or.inr ⟨hself, k, hk, hk1, ⟨id', hR _ hid', hval⟩, hR _ hid⟩
          · exact h
      · exact h

theorem Sinks.mono (h : Sinks mod O R i id) (hO : O.le O') (hR : ∀ r, R r ⊆ R' r) :
    Sinks mod O' R' i id := by
  have hargs : ∀ {callee base argc : Nat}, ArgEscapes O R callee base argc id →
      ArgEscapes O' R' callee base argc id := by
    intro callee base argc h
    obtain ⟨k, hk, hesc, hid⟩ := h
    exact ⟨k, hk, hO.1 _ _ hesc, hR _ hid⟩
  have hany : ∀ {base argc : Nat}, (∃ k < argc, id ∈ R (base + k)) →
      ∃ k < argc, id ∈ R' (base + k) := by
    intro base argc h
    obtain ⟨k, hk, hid⟩ := h
    exact ⟨k, hk, hR _ hid⟩
  unfold Sinks at h ⊢
  split at h
  · exact hR _ h
  · exact hR _ h
  · exact hR _ h
  · exact hR _ h
  · exact hR _ h
  · exact hR _ h
  · exact hany h
  · exact hany h
  · exact hargs h
  · split at h
    · exact hargs h
    · exact ⟨h.1, hany h.2⟩
  · split at h
    · exact ⟨h.1, h.2.imp (fun hb => hR _ hb) fun hc => hR _ hc⟩
    · split at h
      · exact h.imp (fun hb => ⟨hO.1 _ _ hb.1, hR _ hb.2⟩) fun hc => ⟨hO.1 _ _ hc.1, hR _ hc.2⟩
      · exact h
  · exact h

theorem Closed.anti (h : Closed mod fi O' R) (hO : O.le O') : Closed mod fi O R :=
  ⟨h.entry, fun pc i hi id hid => h.flow pc i hi id (hid.mono hO fun _ => Set.Subset.rfl)⟩

theorem Alias.subset (hR : Closed mod fi O R) (r : Nat) : Alias mod fi O r ⊆ R r :=
  fun _ hid => hid R hR

theorem Alias.mono (hO : O.le O') (r : Nat) : Alias mod fi O r ⊆ Alias mod fi O' r :=
  fun _ hid R hR => hid R (hR.anti hO)

/-- The least closed assignment is closed. -/
theorem alias_closed : Closed mod fi O (Alias mod fi O) := by
  refine ⟨fun r id hid R hR => hR.entry r id hid, fun pc i hi id hid R hR => ?_⟩
  exact hR.flow pc i hi id (hid.mono ⟨fun _ _ h => h, fun _ _ h => h⟩ (Alias.subset hR))

theorem Escapes.mono (h : Escapes mod fi O p) (hO : O.le O') : Escapes mod fi O' p := by
  obtain ⟨hp, i, hi, hsink⟩ := h
  exact ⟨hp, i, hi, hsink.mono hO (Alias.mono hO)⟩

theorem Returns.mono (h : Returns mod fi O p) (hO : O.le O') : Returns mod fi O' p := by
  obtain ⟨hp, i, hi, hret, hid⟩ := h
  exact ⟨hp, i, hi, hret, Alias.mono hO _ hid⟩

end Monotone

section Marks

variable {mod : IrModule} {fi : Nat} {w : Flow} {s : Finset Int} {why : Str}

/-- What the sets of the registers hold. -/
def Flow.held (w : Flow) (r : Nat) : Set Int := {id | id ∈ w.regs r}

/-- An oracle has the parameters that are found to escape with its own help. -/
def Absorbs (mod : IrModule) (fi : Nat) (found : Oracle → Int → Prop) (O : Oracle) : Prop :=
  ∀ p < (mod.function fi).nparams, found O (paramId p) → O.escapes fi p

/-- A step that only marks: the summaries of the other functions, the results and the registers
stay, and the parameters that are marked are found with the help of what is known by then. -/
structure Marks (mod : IrModule) (fi : Nat) (found : Oracle → Int → Prop) (w w' : Flow) :
    Prop where
  regs : w'.regs = w.regs
  changed : w'.changed = w.changed
  others : ∀ g, g ≠ fi → w'.sums g = w.sums g
  returns : (w'.sums fi).paramToRet = (w.sums fi).paramToRet
  kept : (w.sums fi).paramEscapes ⊆ (w'.sums fi).paramEscapes
  sound : ∀ O, (oracleOf w.sums).le O → Absorbs mod fi found O → (oracleOf w'.sums).le O
  flag : w'.summaryChanged = false → w.summaryChanged = false ∧ w'.sums = w.sums

theorem Marks.refl (mod : IrModule) (fi : Nat) (found : Oracle → Int → Prop) (w : Flow) :
    Marks mod fi found w w :=
  ⟨rfl, rfl, fun _ _ => rfl, rfl, Finset.Subset.refl _, fun _ hO _ => hO, fun h => ⟨h, rfl⟩⟩

theorem Marks.trans {w₁ w₂ w₃ : Flow} (h : Marks mod fi found w₁ w₂)
    (h' : Marks mod fi found w₂ w₃) : Marks mod fi found w₁ w₃ := by
  refine ⟨h'.regs.trans h.regs, h'.changed.trans h.changed,
    fun g hg => (h'.others g hg).trans (h.others g hg), h'.returns.trans h.returns,
    h.kept.trans h'.kept, fun O hO hfound => h'.sound O (h.sound O hO hfound) hfound,
    fun hflag => ?_⟩
  obtain ⟨hflag₂, hsums₂⟩ := h'.flag hflag
  obtain ⟨hflag₁, hsums₁⟩ := h.flag hflag₂
  exact ⟨hflag₁, hsums₂.trans hsums₁⟩

theorem Marks.imp {found' : Oracle → Int → Prop} {w w' : Flow} (h : Marks mod fi found w w')
    (hf : ∀ O id, found O id → found' O id) : Marks mod fi found' w w' :=
  { h with sound := fun O hO hfound => h.sound O hO fun p hp hid => hfound p hp (hf O _ hid) }

theorem Marks.held {w w' : Flow} (h : Marks mod fi found w w') : w'.held = w.held := by
  unfold Flow.held
  rw [h.regs]

/-- The summaries grow. -/
theorem Marks.oracle {w w' : Flow} (h : Marks mod fi found w w') :
    (oracleOf w.sums).le (oracleOf w'.sums) :=
  oracleOf_le_of_others h.others h.kept h.returns.ge

theorem escapeSet_marks : Marks mod fi (fun _ id => id ∈ s) w (escapeSet mod fi s why w) := by
  refine ⟨rfl, rfl, fun g hg => Function.update_of_ne hg _ _, ?_, ?_, ?_, ?_⟩
  · simp [escapeSet]
  · simp only [escapeSet, Function.update_self]
    exact Finset.subset_union_left
  · intro O hO hfound
    refine oracleOf_update_le hO (fun p hp => ?_) fun p hp => hO.2 fi p hp
    simp only [Finset.mem_union, Finset.mem_filter, Finset.mem_range] at hp
    obtain hold | hnew := hp
    · exact hO.1 fi p hold
    · exact hfound p hnew.1 hnew.2.1
  · intro hflag
    simp only [escapeSet, Bool.or_eq_false_iff, decide_eq_false_iff_not, not_not, ne_eq] at hflag
    refine ⟨hflag.1, ?_⟩
    simp only [escapeSet]
    rw [hflag.2, Finset.union_empty]
    exact Function.update_eq_self fi w.sums

/-- Every parameter of the set is marked. -/
theorem escapeSet_complete (hp : p < (mod.function fi).nparams) (hs : paramId p ∈ s) :
    p ∈ ((escapeSet mod fi s why w).sums fi).paramEscapes := by
  simp only [escapeSet, Function.update_self, Finset.mem_union, Finset.mem_filter,
    Finset.mem_range]
  by_cases hold : p ∈ (w.sums fi).paramEscapes
  · exact Or.inl hold
  · exact Or.inr ⟨hp, hs, hold⟩

/-- One argument of a call by summary. -/
theorem escapeArg_marks (callee k : Nat) :
    Marks mod fi (fun O id => O.escapes callee k ∧ id ∈ s) w
      (if k ∈ (w.sums callee).paramEscapes then escapeSet mod fi s why w else w) := by
  split
  · next hk =>
      have hset : Marks mod fi (fun _ id => id ∈ s) w (escapeSet mod fi s why w) := escapeSet_marks
      exact { hset with
        sound := fun O hO hfound => hset.sound O hO fun p hp hid => hfound p hp ⟨hO.1 _ _ hk, hid⟩ }
  · exact Marks.refl mod fi _ w

/-- One more argument. -/
theorem Marks.argStep {w₁ w₂ : Flow}
    (h : Marks mod fi (fun O => ArgEscapes O w.held callee base argc) w w₁)
    (hstep : Marks mod fi (fun O id => O.escapes callee argc ∧ id ∈ w₁.regs (base + argc)) w₁ w₂) :
    Marks mod fi (fun O => ArgEscapes O w.held callee base (argc + 1)) w w₂ := by
  refine (h.imp fun O id hid => ?_).trans (hstep.imp fun O id hid => ?_)
  · obtain ⟨k, hk, hesc, hin⟩ := hid
    exact ⟨k, Nat.lt_succ_of_lt hk, hesc, hin⟩
  · refine ⟨argc, Nat.lt_succ_self argc, hid.1, ?_⟩
    have hregs := hid.2
    rw [h.regs] at hregs
    exact hregs

theorem callSinks_succ (callee base argc : Nat) (w : Flow) :
    callSinks mod fi callee base (argc + 1) w =
      (let acc := callSinks mod fi callee base argc w
      (if argc ∈ (acc.1.sums callee).paramEscapes then
          escapeSet mod fi (acc.1.regs (base + argc)) "passed to a retaining callee".toList acc.1
        else acc.1,
        if argc ∈ (acc.1.sums callee).paramToRet then acc.2 ∪ acc.1.regs (base + argc)
        else acc.2)) := by
  rw [callSinks, range_succ, foldl_append]
  rfl

theorem callSinks_marks (mod : IrModule) (fi : Nat) (callee base argc : Nat) (w : Flow) :
    Marks mod fi (fun O => ArgEscapes O w.held callee base argc) w
      (callSinks mod fi callee base argc w).1 := by
  induction argc with
  | zero => exact Marks.refl mod fi _ w
  | succ argc ih =>
    rw [callSinks_succ]
    exact ih.argStep (escapeArg_marks callee argc)

/-- The aliases of a call are what its arguments give to the result. -/
theorem callSinks_alias (callee base argc : Nat) (w : Flow) (id : Int) :
    id ∈ (callSinks mod fi callee base argc w).2 ↔
      ArgFlows (oracleOf w.sums) w.held callee base argc id := by
  induction argc with
  | zero =>
    refine ⟨fun h => absurd h (Finset.notMem_empty id), fun h => ?_⟩
    obtain ⟨k, hk, _⟩ := h
    exact absurd hk (Nat.not_lt_zero k)
  | succ argc ih =>
    have hmarks := callSinks_marks mod fi callee base argc w
    have hret : ((callSinks mod fi callee base argc w).1.sums callee).paramToRet =
        (w.sums callee).paramToRet := by
      by_cases hc : callee = fi
      · rw [hc]
        exact hc ▸ hmarks.returns
      · rw [hmarks.others callee hc]
    rw [callSinks_succ]
    simp only [hret, hmarks.regs]
    have hsplit : ArgFlows (oracleOf w.sums) w.held callee base (argc + 1) id ↔
        ArgFlows (oracleOf w.sums) w.held callee base argc id ∨
          argc ∈ (w.sums callee).paramToRet ∧ id ∈ w.regs (base + argc) :=
      Nat.exists_lt_succ_right
    rw [hsplit, ← ih]
    by_cases hk : argc ∈ (w.sums callee).paramToRet
    · rw [if_pos hk, Finset.mem_union]
      simp [hk]
    · rw [if_neg hk]
      simp [hk]

theorem escapeArgs_succ (callee base argc : Nat) (w : Flow) :
    escapeArgs mod fi callee base (argc + 1) w =
      (let w' := escapeArgs mod fi callee base argc w
      if argc ∈ (w'.sums callee).paramEscapes then
        escapeSet mod fi (w'.regs (base + argc)) "passed to a retaining callee".toList w'
      else w') := by
  rw [escapeArgs, range_succ, foldl_append]
  rfl

theorem escapeArgs_marks (mod : IrModule) (fi : Nat) (callee base argc : Nat) (w : Flow) :
    Marks mod fi (fun O => ArgEscapes O w.held callee base argc) w
      (escapeArgs mod fi callee base argc w) := by
  induction argc with
  | zero => exact Marks.refl mod fi _ w
  | succ argc ih =>
    rw [escapeArgs_succ]
    exact ih.argStep (escapeArg_marks callee argc)

theorem escapeArgs_complete (hp : p < (mod.function fi).nparams)
    (h : ArgEscapes (oracleOf w.sums) w.held callee base argc (paramId p)) :
    p ∈ ((escapeArgs mod fi callee base argc w).sums fi).paramEscapes := by
  induction argc with
  | zero =>
    obtain ⟨k, hk, _⟩ := h
    exact absurd hk (Nat.not_lt_zero k)
  | succ argc ih =>
    have hmarks := escapeArgs_marks mod fi callee base argc w
    rw [escapeArgs_succ]
    obtain ⟨k, hk, hesc, hid⟩ := h
    obtain hlt | heq := Nat.lt_succ_iff_lt_or_eq.mp hk
    · exact (escapeArg_marks callee argc).kept (ih ⟨k, hlt, hesc, hid⟩)
    · subst heq
      have hk' : k ∈ ((escapeArgs mod fi callee base k w).sums callee).paramEscapes :=
        hmarks.oracle.1 _ _ hesc
      simp only [if_pos hk']
      refine escapeSet_complete hp ?_
      rw [hmarks.regs]
      exact hid

theorem escapeAll_succ (base argc : Nat) (why : Str) (w : Flow) :
    escapeAll mod fi base (argc + 1) why w =
      (let w' := escapeAll mod fi base argc why w
      escapeSet mod fi (w'.regs (base + argc)) why w') := by
  rw [escapeAll, range_succ, foldl_append]
  rfl

theorem escapeAll_marks (base argc : Nat) (why : Str) (w : Flow) :
    Marks mod fi (fun _ id => ∃ k < argc, id ∈ w.held (base + k)) w
      (escapeAll mod fi base argc why w) := by
  induction argc with
  | zero => exact Marks.refl mod fi _ w
  | succ argc ih =>
    rw [escapeAll_succ]
    refine (ih.imp fun _ id hid => ?_).trans (escapeSet_marks.imp fun _ id hid => ?_)
    · obtain ⟨k, hk, hin⟩ := hid
      exact ⟨k, Nat.lt_succ_of_lt hk, hin⟩
    · rw [ih.regs] at hid
      exact ⟨argc, Nat.lt_succ_self argc, hid⟩

theorem escapeAll_complete (hp : p < (mod.function fi).nparams)
    (h : ∃ k < argc, paramId p ∈ w.held (base + k)) :
    p ∈ ((escapeAll mod fi base argc why w).sums fi).paramEscapes := by
  induction argc with
  | zero =>
    obtain ⟨k, hk, _⟩ := h
    exact absurd hk (Nat.not_lt_zero k)
  | succ argc ih =>
    rw [escapeAll_succ]
    obtain ⟨k, hk, hid⟩ := h
    obtain hlt | heq := Nat.lt_succ_iff_lt_or_eq.mp hk
    · exact escapeSet_marks.kept (ih ⟨k, hlt, hid⟩)
    · subst heq
      refine escapeSet_complete hp ?_
      rw [(escapeAll_marks base k why w).regs]
      exact hid

end Marks

section SinkPass

variable {mod : IrModule} {fi : Nat} {w w' : Flow}

/-- A step of the sink pass: the registers stay, and the summary of the function grows by
parameters that are found to escape or to return. -/
structure Grows (mod : IrModule) (fi : Nat) (found : Oracle → Int → Prop) (returned : Int → Prop)
    (w w' : Flow) : Prop where
  regs : w'.regs = w.regs
  others : ∀ g, g ≠ fi → w'.sums g = w.sums g
  keptEscapes : (w.sums fi).paramEscapes ⊆ (w'.sums fi).paramEscapes
  keptReturns : (w.sums fi).paramToRet ⊆ (w'.sums fi).paramToRet
  sound : ∀ O, (oracleOf w.sums).le O → Absorbs mod fi found O →
    (∀ p < (mod.function fi).nparams, returned (paramId p) → O.returns fi p) →
    (oracleOf w'.sums).le O
  flag : w'.summaryChanged = false → w.summaryChanged = false ∧ w'.sums = w.sums

theorem Marks.grows (h : Marks mod fi found w w') : Grows mod fi found returned w w' :=
  ⟨h.regs, h.others, h.kept, h.returns.symm ▸ Finset.Subset.refl _,
    fun O hO hfound _ => h.sound O hO hfound, h.flag⟩

theorem Grows.imp {found' : Oracle → Int → Prop} {returned' : Int → Prop}
    (h : Grows mod fi found returned w w') (hf : ∀ O id, found O id → found' O id)
    (hr : ∀ id, returned id → returned' id) : Grows mod fi found' returned' w w' :=
  { h with
    sound := fun O hO hfound hret => h.sound O hO (fun p hp hid => hfound p hp (hf O _ hid))
      fun p hp hid => hret p hp (hr _ hid) }

theorem Grows.trans {w₁ w₂ w₃ : Flow} (h : Grows mod fi found returned w₁ w₂)
    (h' : Grows mod fi found returned w₂ w₃) :
    Grows mod fi found returned w₁ w₃ := by
  refine ⟨h'.regs.trans h.regs, fun g hg => (h'.others g hg).trans (h.others g hg),
    h.keptEscapes.trans h'.keptEscapes, h.keptReturns.trans h'.keptReturns,
    fun O hO hfound hret => h'.sound O (h.sound O hO hfound hret) hfound hret, fun hflag => ?_⟩
  obtain ⟨hflag₂, hsums₂⟩ := h'.flag hflag
  obtain ⟨hflag₁, hsums₁⟩ := h.flag hflag₂
  exact ⟨hflag₁, hsums₂.trans hsums₁⟩

theorem Grows.oracle (h : Grows mod fi found returned w w') :
    (oracleOf w.sums).le (oracleOf w'.sums) :=
  oracleOf_le_of_others h.others h.keptEscapes h.keptReturns

theorem Grows.held (h : Grows mod fi found returned w w') : w'.held = w.held := by
  funext r
  rw [Flow.held, Flow.held, h.regs]

theorem returnSet_grows (s : Finset Int) (found : Oracle → Int → Prop) :
    Grows mod fi found (fun id => id ∈ s) w (returnSet mod fi s w) := by
  unfold returnSet
  refine ⟨rfl, fun g hg => Function.update_of_ne hg _ _, ?_, ?_, ?_, ?_⟩
  · simp only [Function.update_self]
    exact Finset.Subset.refl _
  · simp only [Function.update_self]
    exact Finset.subset_union_left
  · intro O hO _ hret
    refine oracleOf_update_le hO (fun p hp => hO.1 fi p hp) fun p hp => ?_
    simp only [Finset.mem_union, Finset.mem_filter, Finset.mem_range] at hp
    obtain hold | hnew := hp
    · exact hO.2 fi p hold
    · exact hret p hnew.1 hnew.2.1
  · intro hflag
    simp only [Bool.or_eq_false_iff, decide_eq_false_iff_not, not_not, ne_eq] at hflag
    refine ⟨hflag.1, ?_⟩
    simp only
    rw [hflag.2, Finset.union_empty]
    exact Function.update_eq_self fi w.sums

theorem returnSet_complete {s : Finset Int} (hp : p < (mod.function fi).nparams)
    (hs : paramId p ∈ s) : p ∈ ((returnSet mod fi s w).sums fi).paramToRet := by
  unfold returnSet
  simp only [Function.update_self, Finset.mem_union, Finset.mem_filter, Finset.mem_range]
  by_cases hold : p ∈ (w.sums fi).paramToRet
  · exact Or.inl hold
  · exact Or.inr ⟨hp, hs, hold⟩

/-- An operator whose callee is known. -/
def escapeOperands (mod : IrModule) (fi callee : Nat) (i : Inst) (w : Flow) : Flow :=
  let w := if 0 ∈ (w.sums callee).paramEscapes then
      escapeSet mod fi (w.regs i.b) "passed to a retaining operator".toList w
    else w
  if 1 ∈ (w.sums callee).paramEscapes then
    escapeSet mod fi (w.regs i.c) "passed to a retaining operator".toList w
  else w

/-- One operand of such an operator. -/
def escapeOperand (mod : IrModule) (fi callee k r : Nat) (w : Flow) : Flow :=
  if k ∈ (w.sums callee).paramEscapes then
    escapeSet mod fi (w.regs r) "passed to a retaining operator".toList w
  else w

theorem escapeOperand_marks (mod : IrModule) (fi callee k r : Nat) (w : Flow) :
    Marks mod fi (fun O id => O.escapes callee k ∧ id ∈ w.held r) w
      (escapeOperand mod fi callee k r w) := escapeArg_marks callee k

theorem escapeOperand_complete {k r : Nat} (hp : p < (mod.function fi).nparams)
    (h : (oracleOf w.sums).escapes callee k ∧ paramId p ∈ w.held r) :
    p ∈ ((escapeOperand mod fi callee k r w).sums fi).paramEscapes := by
  have hmem : k ∈ (w.sums callee).paramEscapes := h.1
  rw [escapeOperand, if_pos hmem]
  exact escapeSet_complete hp h.2

theorem escapeOperands_marks (callee : Nat) (i : Inst) (w : Flow) :
    Marks mod fi (fun O id =>
      (O.escapes callee 0 ∧ id ∈ w.held i.b) ∨ (O.escapes callee 1 ∧ id ∈ w.held i.c))
      w (escapeOperands mod fi callee i w) := by
  have hfirst := escapeOperand_marks mod fi callee 0 i.b w
  have hsecond := escapeOperand_marks mod fi callee 1 i.c (escapeOperand mod fi callee 0 i.b w)
  refine (hfirst.imp fun _ _ hid => Or.inl hid).trans (hsecond.imp fun _ id hid => ?_)
  refine Or.inr ⟨hid.1, ?_⟩
  rw [← hfirst.held]
  exact hid.2

theorem escapeOperands_complete (hp : p < (mod.function fi).nparams)
    (h : ((oracleOf w.sums).escapes callee 0 ∧ paramId p ∈ w.held i.b) ∨
      ((oracleOf w.sums).escapes callee 1 ∧ paramId p ∈ w.held i.c)) :
    p ∈ ((escapeOperands mod fi callee i w).sums fi).paramEscapes := by
  have hfirst := escapeOperand_marks mod fi callee 0 i.b w
  obtain hfst | ⟨hesc, hid⟩ := h
  · exact (escapeOperand_marks mod fi callee 1 i.c _).kept (escapeOperand_complete hp hfst)
  · rw [← hfirst.held] at hid
    exact escapeOperand_complete hp ⟨hfirst.oracle.1 callee 1 hesc, hid⟩

/-- **One instruction of the sink pass** marks parameters that flow into its sink. -/
theorem sinkInst_grows (mod : IrModule) (fi : Nat) (w : Flow) (i : Inst) :
    Grows mod fi (fun O => Sinks mod O w.held i) (fun id => i.op = .Ret ∧ id ∈ w.held i.a) w
      (sinkInst mod fi w i) := by
  have hrefl : ∀ {found : Oracle → Int → Prop} {returned : Int → Prop},
      Grows mod fi found returned w w := (Marks.refl mod fi _ w).grows
  obtain ⟨w', hw'⟩ : ∃ w', sinkInst mod fi w i = w' := ⟨_, rfl⟩
  rw [hw']
  unfold sinkInst at hw'
  split at hw'
  · next hop =>
      subst hw'
      exact (returnSet_grows (w.regs i.a) _).imp (fun _ _ h => h) fun id hid => ⟨hop, hid⟩
  -- the six sinks of one register
  iterate 6
    next hop =>
      subst hw'
      refine (escapeSet_marks.imp fun O id hid => ?_).grows
      simp only [Sinks, hop]
      exact hid
  · next hop =>
      subst hw'
      refine ((escapeAll_marks i.c i.d _ w).imp fun O id hid => ?_).grows
      simp only [Sinks, hop]
      exact hid
  · next hop =>
      subst hw'
      refine ((escapeArgs_marks mod fi i.b i.c i.d w).imp fun O id hid => ?_).grows
      simp only [Sinks, hop]
      exact hid
  · next hop =>
      split at hw'
      · next callee hcallee =>
          subst hw'
          refine ((escapeArgs_marks mod fi callee i.c i.d w).imp fun O id hid => ?_).grows
          simp only [Sinks, hop, hcallee]
          exact hid
      · next hcallee =>
          split at hw'
          · next hnone =>
              subst hw'
              refine ((escapeAll_marks i.c i.d _ w).imp fun O id hid => ?_).grows
              simp only [Sinks, hop, hcallee]
              exact ⟨hnone, hid⟩
          · exact hw' ▸ hrefl
  · next hop =>
      subst hw'
      refine ((escapeAll_marks i.c i.d _ w).imp fun O id hid => ?_).grows
      simp only [Sinks, hop]
      exact hid
  · next hop =>
      split at hw'
      · next hdecl =>
          split at hw'
          · next htk =>
              subst hw'
              refine ((escapeSet_marks.imp fun O id hid => ?_).trans
                (escapeSet_marks.imp fun O id hid => ?_)).grows
              · simp only [Sinks, hop, hdecl]
                exact ⟨htk.2, Or.inl hid⟩
              · simp only [Sinks, hop, hdecl]
                exact ⟨htk.2, Or.inr hid⟩
          · exact hw' ▸ hrefl
      · next hdecl =>
          split at hw'
          · next callee hcallee =>
              subst hw'
              refine ((escapeOperands_marks callee i w).imp fun O id hid => ?_).grows
              simp only [Sinks, hop, hdecl, hcallee]
              exact hid
          · exact hw' ▸ hrefl
  · exact hw' ▸ hrefl

/-- One instruction of the sink pass marks every parameter that flows into its sink. -/
theorem sinkInst_complete (hp : p < (mod.function fi).nparams)
    (h : Sinks mod (oracleOf w.sums) w.held i (paramId p)) :
    p ∈ ((sinkInst mod fi w i).sums fi).paramEscapes := by
  obtain ⟨w', hw'⟩ : ∃ w', sinkInst mod fi w i = w' := ⟨_, rfl⟩
  rw [hw']
  unfold Sinks at h
  unfold sinkInst at hw'
  split at h
  iterate 6
    next hop =>
      simp only [hop] at hw'
      exact hw' ▸ escapeSet_complete hp h
  · next hop =>
      simp only [hop] at hw'
      exact hw' ▸ escapeAll_complete hp h
  · next hop =>
      simp only [hop] at hw'
      exact hw' ▸ escapeAll_complete hp h
  · next hop =>
      simp only [hop] at hw'
      exact hw' ▸ escapeArgs_complete hp h
  · next hop =>
      simp only [hop] at hw'
      split at h
      · next callee hcallee =>
          simp only [hcallee] at hw'
          exact hw' ▸ escapeArgs_complete hp h
      · next hcallee =>
          simp only [hcallee, if_pos h.1] at hw'
          exact hw' ▸ escapeAll_complete hp h.2
  · next hop =>
      simp only [hop] at hw'
      split at h
      · next hdecl =>
          obtain ⟨htk, hid⟩ := h
          have htracked : (w.regs i.b ≠ ∅ ∨ w.regs i.c ≠ ∅) ∧ i.tk ≠ .End :=
            ⟨hid.imp (fun hb => Finset.ne_empty_of_mem hb) fun hc => Finset.ne_empty_of_mem hc, htk⟩
          simp only [hdecl, if_pos htracked] at hw'
          subst hw'
          obtain hb | hc := hid
          · exact escapeSet_marks.kept (escapeSet_complete hp hb)
          · exact escapeSet_complete hp hc
      · next hdecl =>
          split at h
          · next callee hcallee =>
              simp only [hdecl, hcallee] at hw'
              exact hw' ▸ escapeOperands_complete hp h
          · exact h.elim
  · exact h.elim

theorem sinkInst_returns (hp : p < (mod.function fi).nparams) (hop : i.op = .Ret)
    (hid : paramId p ∈ w.held i.a) :
    p ∈ ((sinkInst mod fi w i).sums fi).paramToRet := by
  obtain ⟨w', hw'⟩ : ∃ w', sinkInst mod fi w i = w' := ⟨_, rfl⟩
  rw [hw']
  unfold sinkInst at hw'
  simp only [hop] at hw'
  exact hw' ▸ returnSet_complete hp hid

/-- **The sink pass marks parameters that flow into a sink.** -/
theorem sinkPass_grows (mod : IrModule) (fi : Nat) (code : List Inst) (w : Flow) :
    Grows mod fi
      (fun O id => ∃ i ∈ code, Sinks mod O w.held i id)
      (fun id => ∃ i ∈ code, i.op = .Ret ∧ id ∈ w.held i.a)
      w (code.foldl (sinkInst mod fi) w) := by
  induction code generalizing w with
  | nil => exact (Marks.refl mod fi _ w).grows
  | cons i rest ih =>
    have hhead := sinkInst_grows mod fi w i
    have hrest := ih (sinkInst mod fi w i)
    rw [foldl_cons]
    refine (hhead.imp (fun O id hid => ?_) fun id hid => ?_).trans
      (hrest.imp (fun O id hid => ?_) fun id hid => ?_)
    · exact ⟨i, mem_cons_self, hid⟩
    · exact ⟨i, mem_cons_self, hid⟩
    · obtain ⟨j, hj, hsink⟩ := hid
      rw [hhead.held] at hsink
      exact ⟨j, mem_cons_of_mem i hj, hsink⟩
    · obtain ⟨j, hj, hop, hret⟩ := hid
      rw [hhead.held] at hret
      exact ⟨j, mem_cons_of_mem i hj, hop, hret⟩

/-- **The sink pass marks all of them.** -/
theorem sinkPass_complete {code : List Inst} (hp : p < (mod.function fi).nparams) :
    (∀ i ∈ code, Sinks mod (oracleOf w.sums) w.held i (paramId p) →
      p ∈ ((code.foldl (sinkInst mod fi) w).sums fi).paramEscapes) ∧
    ∀ i ∈ code, i.op = .Ret → paramId p ∈ w.held i.a →
      p ∈ ((code.foldl (sinkInst mod fi) w).sums fi).paramToRet := by
  induction code generalizing w with
  | nil => exact ⟨fun i hi => absurd hi not_mem_nil, fun i hi => absurd hi not_mem_nil⟩
  | cons j rest ih =>
    have hhead := sinkInst_grows mod fi w j
    have hrest := sinkPass_grows mod fi rest (sinkInst mod fi w j)
    obtain ⟨ihesc, ihret⟩ := ih (w := sinkInst mod fi w j)
    rw [hhead.held] at ihesc ihret
    constructor
    · intro i hi hsink
      obtain heq | htail := List.mem_cons.mp hi
      · rw [heq] at hsink
        exact hrest.keptEscapes (sinkInst_complete hp hsink)
      · exact ihesc i htail (hsink.mono hhead.oracle fun _ => Set.Subset.rfl)
    · intro i hi hop hid
      obtain heq | htail := List.mem_cons.mp hi
      · rw [heq] at hop hid
        exact hrest.keptReturns (sinkInst_returns hp hop hid)
      · exact ihret i htail hop hid

end SinkPass

section FlowPass

variable {mod : IrModule} {fi : Nat} {w w' w₁ w₂ : Flow} {F G H : Int → Prop} {a : Nat}

/-- A step of the local fixpoint puts some ids into one register. -/
structure FlowStep (F : Int → Prop) (a : Nat) (w w' : Flow) : Prop where
  regs : ∀ r id, id ∈ w'.regs r ↔ id ∈ w.regs r ∨ r = a ∧ F id
  stable : w'.changed = false → w.changed = false ∧ ∀ id, F id → id ∈ w.regs a
  changes : w'.changed = true → w.changed = true ∨ ∃ id, F id ∧ id ∉ w.regs a

/-- What a step of the local fixpoint does to the summaries. -/
structure FlowSums (mod : IrModule) (fi : Nat) (found : Oracle → Int → Prop) (w w' : Flow) :
    Prop where
  others : ∀ g, g ≠ fi → w'.sums g = w.sums g
  returns : (w'.sums fi).paramToRet = (w.sums fi).paramToRet
  kept : (w.sums fi).paramEscapes ⊆ (w'.sums fi).paramEscapes
  sound : ∀ O, (oracleOf w.sums).le O → Absorbs mod fi found O → (oracleOf w'.sums).le O
  flag : w'.summaryChanged = false → w.summaryChanged = false ∧ w'.sums = w.sums

theorem FlowStep.refl (hF : ∀ id, ¬F id) : FlowStep F a w w :=
  ⟨fun _ id => ⟨Or.inl, fun h => h.elim (fun h => h) fun h => absurd h.2 (hF id)⟩,
    fun h => ⟨h, fun id hid => absurd hid (hF id)⟩, Or.inl⟩

theorem FlowStep.congr (h : FlowStep F a w w') (hFG : ∀ id, F id ↔ G id) : FlowStep G a w w' := by
  have heq : F = G := funext fun id => propext (hFG id)
  exact heq ▸ h

theorem merge_flowStep (a : Nat) (s : Finset Int) (w : Flow) :
    FlowStep (fun id => id ∈ s) a w (merge a s w) := by
  refine ⟨fun r id => ?_, fun h => ?_, fun h => ?_⟩
  · simp only [merge]
    by_cases hr : r = a
    · rw [hr, Function.update_self, Finset.mem_union]
      simp
    · rw [Function.update_of_ne hr]
      simp [hr]
  · simp only [merge, Bool.or_eq_false_iff, decide_eq_false_iff_not, not_not] at h
    exact ⟨h.1, fun id hid => h.2 hid⟩
  · simp only [merge, Bool.or_eq_true, decide_eq_true_eq] at h
    obtain h | h := h
    · exact Or.inl h
    · exact Or.inr (Finset.not_subset.mp h)

/-- Two steps into one register; what the second sees of the first is in the register already. -/
theorem FlowStep.trans (h : FlowStep F a w w₁) (h' : FlowStep G a w₁ w₂)
    (hG : ∀ id, G id → H id ∨ id ∈ w₁.regs a) (hH : ∀ id, H id → G id) :
    FlowStep (fun id => F id ∨ H id) a w w₂ := by
  refine ⟨fun r id => ?_, fun hstable => ?_, fun hchanged => ?_⟩
  · rw [h'.regs r id]
    constructor
    · intro hid
      obtain hid | ⟨hr, hid⟩ := hid
      · exact ((h.regs r id).mp hid).imp (fun hold => hold) fun hnew => ⟨hnew.1, Or.inl hnew.2⟩
      · obtain hid | hid := hG id hid
        · exact Or.inr ⟨hr, Or.inr hid⟩
        · rw [← hr] at hid
          exact ((h.regs r id).mp hid).imp (fun hold => hold) fun hnew => ⟨hnew.1, Or.inl hnew.2⟩
    · intro hid
      obtain hid | ⟨hr, hid | hid⟩ := hid
      · exact Or.inl ((h.regs r id).mpr (Or.inl hid))
      · exact Or.inl ((h.regs r id).mpr (Or.inr ⟨hr, hid⟩))
      · exact Or.inr ⟨hr, hH id hid⟩
  · obtain ⟨hstable₁, hsecond⟩ := h'.stable hstable
    obtain ⟨hstable₀, hfirst⟩ := h.stable hstable₁
    refine ⟨hstable₀, fun id hid => ?_⟩
    obtain hid | hid := hid
    · exact hfirst id hid
    · obtain hold | hnew := (h.regs a id).mp (hsecond id (hH id hid))
      · exact hold
      · exact hfirst id hnew.2
  · obtain hchanged₁ | ⟨id, hid, hnot⟩ := h'.changes hchanged
    · exact (h.changes hchanged₁).imp (fun hold => hold) fun ⟨id, hid, hnot⟩ =>
        ⟨id, Or.inl hid, hnot⟩
    · refine Or.inr ⟨id, ?_, fun hin => hnot ((h.regs a id).mpr (Or.inl hin))⟩
      exact (hG id hid).elim Or.inr fun hin => absurd hin hnot

theorem FlowSums.of_eq (hsums : w'.sums = w.sums) (hflag : w'.summaryChanged = w.summaryChanged) :
    FlowSums mod fi found w w' := by
  refine ⟨fun g _ => by rw [hsums], by rw [hsums], by rw [hsums], fun O hO _ => ?_, fun h => ?_⟩
  · rw [hsums]
    exact hO
  · exact ⟨hflag ▸ h, hsums⟩

theorem Marks.flowSums (h : Marks mod fi found w w₁) (hsums : w'.sums = w₁.sums)
    (hflag : w'.summaryChanged = w₁.summaryChanged) : FlowSums mod fi found w w' := by
  refine ⟨fun g hg => by rw [hsums, h.others g hg], by rw [hsums, h.returns], ?_,
    fun O hO hfound => ?_, fun hf => ?_⟩
  · rw [hsums]
    exact h.kept
  · rw [hsums]
    exact h.sound O hO hfound
  · rw [hsums]
    exact h.flag (hflag ▸ hf)

/-- The elements of a new array. -/
theorem elements_flowStep (a c d : Nat) (w : Flow) :
    FlowStep (fun id => ∃ k < d, id ∈ w.held (c + k)) a w
      ((List.range d).foldl (fun w k => merge a (w.regs (c + k)) w) w) := by
  induction d with
  | zero =>
    refine FlowStep.refl fun id h => ?_
    obtain ⟨k, hk, _⟩ := h
    exact absurd hk (Nat.not_lt_zero k)
  | succ d ih =>
    rw [range_succ, foldl_append]
    refine (ih.trans (H := fun id => id ∈ w.held (c + d)) (merge_flowStep a _ _)
      (fun id hid => ?_) fun id hid => ?_).congr fun id => ?_
    · obtain hold | ⟨ha, hnew⟩ := (ih.regs _ id).mp hid
      · exact Or.inl hold
      · exact Or.inr (ha ▸ hid)
    · exact (ih.regs _ id).mpr (Or.inl hid)
    · exact Nat.exists_lt_succ_right.symm

theorem elements_sums (a c d : Nat) (w : Flow) :
    ((List.range d).foldl (fun w k => merge a (w.regs (c + k)) w) w).sums = w.sums ∧
    ((List.range d).foldl (fun w k => merge a (w.regs (c + k)) w) w).summaryChanged =
      w.summaryChanged := by
  induction d with
  | zero => exact ⟨rfl, rfl⟩
  | succ d ih =>
    rw [range_succ, foldl_append]
    exact ih

/-- The argument of a pure builder aliases the result, unless it is copied by value. -/
theorem not_argIsValueStruct {s : Finset Int} (hid : id ∈ s) :
    ¬argIsValueStruct mod fi s = true ↔ SomeOther mod fi {x | x ∈ s} := by
  have hne : s ≠ ∅ := Finset.ne_empty_of_mem hid
  simp only [argIsValueStruct, decide_eq_true_eq, hne, ne_eq, not_false_eq_true, true_and,
    not_forall]
  constructor
  · intro h
    obtain ⟨x, hx, hval⟩ := h
    exact ⟨x, hx, Bool.eq_false_iff.mpr hval⟩
  · intro h
    obtain ⟨x, hx, hval⟩ := h
    exact ⟨x, hx, Bool.eq_false_iff.mp hval⟩

theorem mem_builderArgs (c d : Nat) (w : Flow) (id : Int) :
    id ∈ (List.range d).foldl (fun acc k =>
        if 1 ≤ k ∧ ¬argIsValueStruct mod fi (w.regs (c + k)) then acc ∪ w.regs (c + k)
        else acc) ∅ ↔
      ∃ k < d, 1 ≤ k ∧ SomeOther mod fi (w.held (c + k)) ∧ id ∈ w.held (c + k) := by
  induction d with
  | zero =>
    refine ⟨fun h => absurd h (Finset.notMem_empty id), fun h => ?_⟩
    obtain ⟨k, hk, _⟩ := h
    exact absurd hk (Nat.not_lt_zero k)
  | succ d ih =>
    rw [range_succ, foldl_append, Nat.exists_lt_succ_right, ← ih]
    simp only [foldl_cons, foldl_nil]
    by_cases hd : 1 ≤ d ∧ ¬argIsValueStruct mod fi (w.regs (c + d)) = true
    · rw [if_pos hd, Finset.mem_union]
      refine or_congr_right ⟨fun hid => ?_, fun h => h.2.2⟩
      exact ⟨hd.1, (not_argIsValueStruct hid).mp hd.2, hid⟩
    · rw [if_neg hd]
      refine ⟨Or.inl, fun h => h.elim (fun h => h) fun hlast => ?_⟩
      exact absurd ⟨hlast.1, (not_argIsValueStruct hlast.2.2).mpr hlast.2.1⟩ hd

/-- The ids that a fresh allocation puts into its register. -/
theorem alloc_flowStep (mod : IrModule) (fi : Nat) (w : Flow) (pc : Nat)
    (halloc : (isAlloc i.op || i.cvAlloc) = true) :
    FlowStep (Flows mod fi (oracleOf w.sums) w.held pc i) i.a w (flowInst mod fi w (pc, i)) ∧
    (flowInst mod fi w (pc, i)).sums = w.sums ∧
    (flowInst mod fi w (pc, i)).summaryChanged = w.summaryChanged := by
  have hsite := merge_flowStep i.a {(pc : Int)} w
  obtain ⟨w₁, hw₁⟩ : ∃ w₁, merge i.a {(pc : Int)} w = w₁ := ⟨_, rfl⟩
  have hs₁ : w₁.sums = w.sums ∧ w₁.summaryChanged = w.summaryChanged := hw₁ ▸ ⟨rfl, rfl⟩
  rw [hw₁] at hsite
  -- a register of the window that is the array's own holds the site already
  have hwindow : ∀ {r : Nat} {id : Int}, id ∈ w₁.regs r → id ∈ w.held r ∨ id ∈ w₁.regs i.a := by
    intro r id hid
    obtain hold | ⟨hr, _⟩ := (hsite.regs r id).mp hid
    · exact Or.inl hold
    · exact Or.inr (hr ▸ hid)
  have hkept : ∀ {r : Nat} {id : Int}, id ∈ w.held r → id ∈ w₁.regs r := fun hid =>
    (hsite.regs _ _).mpr (Or.inl hid)
  by_cases harr : i.op = .NewArray
  · have hinst : flowInst mod fi w (pc, i) =
        (List.range i.d).foldl (fun w k => merge i.a (w.regs (i.c + k)) w) w₁ := by
      simp only [flowInst]
      rw [if_pos halloc]
      simp only [hw₁, harr, if_true, reduceCtorEq, false_and, if_false]
    rw [hinst]
    have hsums := elements_sums i.a i.c i.d w₁
    refine ⟨?_, hsums.1.trans hs₁.1, hsums.2.trans hs₁.2⟩
    refine (hsite.trans (elements_flowStep i.a i.c i.d w₁) (fun id hid => ?_)
      fun id hid => ?_).congr (G := Flows mod fi (oracleOf w.sums) w.held pc i)
        (F := fun id => id ∈ ({(pc : Int)} : Finset Int) ∨ ∃ k < i.d, id ∈ w.held (i.c + k))
        fun id => ?_
    · obtain ⟨k, hk, hin⟩ := hid
      exact (hwindow hin).imp (fun hold => ⟨k, hk, hold⟩) fun hnew => hnew
    · obtain ⟨k, hk, hin⟩ := hid
      exact ⟨k, hk, hkept hin⟩
    · rw [Flows, if_pos halloc]
      simp only [Finset.mem_singleton, harr, true_and, reduceCtorEq, false_and, or_false]
  · by_cases hsized : i.op = .NewArraySized ∧ i.d = 2
    · have hinst : flowInst mod fi w (pc, i) = merge i.a (w₁.regs (i.c + 1)) w₁ := by
        simp only [flowInst]
        rw [if_pos halloc]
        simp only [hw₁, hsized, reduceCtorEq, and_self, if_true, if_false]
      rw [hinst]
      refine ⟨?_, hs₁.1, hs₁.2⟩
      refine (hsite.trans (merge_flowStep i.a (w₁.regs (i.c + 1)) w₁)
        (H := fun id => id ∈ w.held (i.c + 1)) (fun id hid => hwindow hid)
        fun id hid => hkept hid).congr fun id => ?_
      rw [Flows, if_pos halloc]
      simp only [Finset.mem_singleton, hsized, reduceCtorEq, false_and, false_or, and_self, true_and]
    · have hinst : flowInst mod fi w (pc, i) = w₁ := by
        simp only [flowInst]
        rw [if_pos halloc]
        simp only [hw₁, harr, hsized, if_false]
      rw [hinst]
      refine ⟨hsite.congr fun id => ?_, hs₁.1, hs₁.2⟩
      rw [Flows, if_pos halloc]
      simp only [Finset.mem_singleton, harr, false_and, hsized, or_false]

/-- A call by summary: its aliases flow into the result, its arguments may escape. -/
theorem call_flowStep (callee : Nat) (i : Inst) (w : Flow) :
    FlowStep (ArgFlows (oracleOf w.sums) w.held callee i.c i.d) i.a w
      (merge i.a (callSinks mod fi callee i.c i.d w).2 (callSinks mod fi callee i.c i.d w).1) := by
  have hmarks := callSinks_marks mod fi callee i.c i.d w
  have hmerge := merge_flowStep i.a (callSinks mod fi callee i.c i.d w).2
    (callSinks mod fi callee i.c i.d w).1
  have hstep : FlowStep (fun id => id ∈ (callSinks mod fi callee i.c i.d w).2) i.a w
      (merge i.a (callSinks mod fi callee i.c i.d w).2 (callSinks mod fi callee i.c i.d w).1) := by
    refine ⟨fun r id => ?_, fun h => ?_, fun h => ?_⟩
    · rw [hmerge.regs r id, hmarks.regs]
    · obtain ⟨hstable, hall⟩ := hmerge.stable h
      rw [hmarks.changed] at hstable
      rw [hmarks.regs] at hall
      exact ⟨hstable, hall⟩
    · have hchanges := hmerge.changes h
      rw [hmarks.changed, hmarks.regs] at hchanges
      exact hchanges
  exact hstep.congr (callSinks_alias callee i.c i.d w)

/-- **One instruction of the local fixpoint.** -/
theorem flowInst_spec (mod : IrModule) (fi : Nat) (w : Flow) (pc : Nat) (i : Inst) :
    FlowStep (Flows mod fi (oracleOf w.sums) w.held pc i) i.a w (flowInst mod fi w (pc, i)) ∧
    FlowSums mod fi (fun O => Sinks mod O w.held i) w (flowInst mod fi w (pc, i)) := by
  by_cases halloc : (isAlloc i.op || i.cvAlloc) = true
  · obtain ⟨hstep, hsums, hflag⟩ := alloc_flowStep mod fi w pc halloc
    exact ⟨hstep, FlowSums.of_eq hsums hflag⟩
  · obtain ⟨w', hw'⟩ : ∃ w', flowInst mod fi w (pc, i) = w' := ⟨_, rfl⟩
    rw [hw']
    simp only [flowInst] at hw'
    rw [if_neg halloc] at hw'
    have hflows : ∀ id, Flows mod fi (oracleOf w.sums) w.held pc i id ↔ _ := fun id => by
      rw [Flows, if_neg halloc]
    split at hw'
    -- the four moves
    iterate 4
      next hop =>
        subst hw'
        refine ⟨(merge_flowStep i.a (w.regs i.b) w).congr fun id => ?_, FlowSums.of_eq rfl rfl⟩
        rw [hflows]
        simp only [hop]
        rfl
    · next hop =>
        subst hw'
        refine ⟨(call_flowStep i.b i w).congr fun id => ?_,
          ((callSinks_marks mod fi i.b i.c i.d w).imp fun O id hid => ?_).flowSums rfl rfl⟩
        · rw [hflows]
          simp only [hop]
        · simp only [Sinks, hop]
          exact hid
    · next hop =>
        split at hw'
        · next callee hcallee =>
            subst hw'
            refine ⟨(call_flowStep callee i w).congr fun id => ?_,
              ((callSinks_marks mod fi callee i.c i.d w).imp fun O id hid => ?_).flowSums rfl rfl⟩
            · rw [hflows]
              simp only [hop, hcallee]
            · simp only [Sinks, hop, hcallee]
              exact hid
        · next hcallee =>
            split at hw'
            · next ni hni =>
                subst hw'
                refine ⟨(merge_flowStep i.a _ w).congr fun id => ?_, FlowSums.of_eq rfl rfl⟩
                rw [hflows]
                simp only [hop, hcallee, hni, Finset.mem_union]
                refine or_congr ?_ ?_
                · by_cases hself : ni.selfToResult = true
                  · simp only [hself, if_true, true_and]
                    rfl
                  · simp [hself]
                · by_cases hargs : ni.argsToResult = true
                  · simp only [hargs, if_true, true_and]
                    exact mem_builderArgs i.c i.d w id
                  · simp [hargs]
            · next hni =>
                subst hw'
                refine ⟨FlowStep.refl fun id => ?_, FlowSums.of_eq rfl rfl⟩
                rw [hflows]
                simp only [hop, hcallee, hni, not_false_eq_true]
    · subst hw'
      refine ⟨FlowStep.refl fun id => ?_, FlowSums.of_eq rfl rfl⟩
      rw [hflows]
      split <;> simp_all

end FlowPass

section Loop

variable {mod : IrModule} {fi : Nat} {w w' : Flow} {O : Oracle}

/-- An oracle is closed for the function. -/
structure Absorbing (mod : IrModule) (fi : Nat) (O : Oracle) : Prop where
  escapes : ∀ p, Escapes mod fi O p → O.escapes fi p
  returns : ∀ p, Returns mod fi O p → O.returns fi p

/-- Nothing was found that the oracle does not have. -/
structure Sound (mod : IrModule) (fi : Nat) (O : Oracle) (w : Flow) : Prop where
  oracle : (oracleOf w.sums).le O
  held : ∀ r, w.held r ⊆ Alias mod fi O r

theorem flowInst_sound (h : Sound mod fi O w) (hO : Absorbing mod fi O)
    (hi : (mod.function fi).code[pc]? = some i) : Sound mod fi O (flowInst mod fi w (pc, i)) := by
  obtain ⟨hstep, hsums⟩ := flowInst_spec mod fi w pc i
  refine ⟨hsums.sound O h.oracle fun p hp hsink => ?_, fun r id hid => ?_⟩
  · exact hO.escapes p ⟨hp, i, mem_of_getElem? hi,
      hsink.mono ⟨fun _ _ h => h, fun _ _ h => h⟩ h.held⟩
  · obtain hold | ⟨hr, hnew⟩ := (hstep.regs r id).mp hid
    · exact h.held r hold
    · rw [hr]
      exact alias_closed.flow pc i hi id (hnew.mono h.oracle h.held)

/-- The instructions of the function, with their places. -/
theorem mem_zipIdx {fn : IrFunction} {ip : Inst × Nat} (h : ip ∈ fn.code.zipIdx) :
    fn.code[ip.2]? = some ip.1 :=
  List.mem_zipIdx_iff_getElem?.mp h

theorem flowList_sound (hl : ∀ ip ∈ l, ip ∈ (mod.function fi).code.zipIdx) (h : Sound mod fi O w)
    (hO : Absorbing mod fi O) :
    Sound mod fi O (l.foldl (fun w ip => flowInst mod fi w (ip.2, ip.1)) w) := by
  induction l generalizing w with
  | nil => exact h
  | cons ip rest ih =>
    rw [foldl_cons]
    exact ih (fun jp hjp => hl jp (mem_cons_of_mem ip hjp))
      (flowInst_sound h hO (mem_zipIdx (hl ip mem_cons_self)))

theorem flowPass_sound (h : Sound mod fi O w) (hO : Absorbing mod fi O) :
    Sound mod fi O (flowPass mod fi w) :=
  flowList_sound (fun _ hip => hip) ⟨h.oracle, h.held⟩ hO

theorem flowLoop_sound (fuel : Nat) (h : Sound mod fi O w) (hO : Absorbing mod fi O) :
    Sound mod fi O (flowLoop mod fi fuel w) := by
  induction fuel generalizing w with
  | zero => exact h
  | succ fuel ih =>
    rw [flowLoop]
    split
    · exact ih (flowPass_sound h hO)
    · exact flowPass_sound h hO

/-- What some instructions of the local fixpoint do to the summaries and the registers. -/
structure Advances (fi : Nat) (w w' : Flow) : Prop where
  regs : ∀ r, w.regs r ⊆ w'.regs r
  others : ∀ g, g ≠ fi → w'.sums g = w.sums g
  returns : (w'.sums fi).paramToRet = (w.sums fi).paramToRet
  kept : (w.sums fi).paramEscapes ⊆ (w'.sums fi).paramEscapes
  flag : w'.summaryChanged = false → w.summaryChanged = false ∧ w'.sums = w.sums

theorem Advances.refl (fi : Nat) (w : Flow) : Advances fi w w :=
  ⟨fun _ => Finset.Subset.refl _, fun _ _ => rfl, rfl, Finset.Subset.refl _, fun h => ⟨h, rfl⟩⟩

theorem Advances.trans {w₁ w₂ w₃ : Flow} (h : Advances fi w₁ w₂) (h' : Advances fi w₂ w₃) :
    Advances fi w₁ w₃ := by
  refine ⟨fun r => (h.regs r).trans (h'.regs r), fun g hg => (h'.others g hg).trans (h.others g hg),
    h'.returns.trans h.returns, h.kept.trans h'.kept, fun hflag => ?_⟩
  obtain ⟨hflag₂, hsums₂⟩ := h'.flag hflag
  obtain ⟨hflag₁, hsums₁⟩ := h.flag hflag₂
  exact ⟨hflag₁, hsums₂.trans hsums₁⟩

theorem Advances.oracle (h : Advances fi w w') : (oracleOf w.sums).le (oracleOf w'.sums) :=
  oracleOf_le_of_others h.others h.kept h.returns.ge

theorem flowInst_advances (mod : IrModule) (fi : Nat) (w : Flow) (pc : Nat) (i : Inst) :
    Advances fi w (flowInst mod fi w (pc, i)) := by
  obtain ⟨hstep, hsums⟩ := flowInst_spec mod fi w pc i
  exact ⟨fun r id hid => (hstep.regs r id).mpr (Or.inl hid), hsums.others, hsums.returns,
    hsums.kept, hsums.flag⟩

theorem flowList_advances (mod : IrModule) (fi : Nat) (l : List (Inst × Nat)) (w : Flow) :
    Advances fi w (l.foldl (fun w ip => flowInst mod fi w (ip.2, ip.1)) w) := by
  induction l generalizing w with
  | nil => exact Advances.refl fi w
  | cons ip rest ih => exact (flowInst_advances mod fi w ip.2 ip.1).trans (ih _)

/-- **A pass that changes nothing is closed.** -/
theorem flowList_stable
    (h : (l.foldl (fun w ip => flowInst mod fi w (ip.2, ip.1)) w).changed = false) :
    w.changed = false ∧ (l.foldl (fun w ip => flowInst mod fi w (ip.2, ip.1)) w).regs = w.regs ∧
    ∀ ip ∈ l, ∀ id, Flows mod fi (oracleOf w.sums) w.held ip.2 ip.1 id → id ∈ w.regs ip.1.a := by
  induction l generalizing w with
  | nil => exact ⟨h, rfl, fun ip hip => absurd hip not_mem_nil⟩
  | cons jp rest ih =>
    rw [foldl_cons] at h ⊢
    obtain ⟨hchanged₁, hregs₁, hflows₁⟩ := ih h
    obtain ⟨hstep, _⟩ := flowInst_spec mod fi w jp.2 jp.1
    obtain ⟨hchanged, hin⟩ := hstep.stable hchanged₁
    have hregs : (flowInst mod fi w (jp.2, jp.1)).regs = w.regs := by
      funext r
      refine Finset.ext fun id => (hstep.regs r id).trans ⟨fun hid => ?_, Or.inl⟩
      exact hid.elim (fun hold => hold) fun hnew => hnew.1 ▸ hin id hnew.2
    have hheld : (flowInst mod fi w (jp.2, jp.1)).held = w.held := by
      funext r
      rw [Flow.held, Flow.held, hregs]
    refine ⟨hchanged, hregs₁.trans hregs, fun ip hip id hid => ?_⟩
    obtain heq | htail := List.mem_cons.mp hip
    · rw [heq] at hid ⊢
      exact hin id hid
    · have hflow := hflows₁ ip htail id (hid.mono (flowInst_advances mod fi w jp.2 jp.1).oracle
        fun r => by rw [hheld])
      rw [hregs] at hflow
      exact hflow

/-- The ids of a function. -/
def ids (fn : IrFunction) : Finset Int :=
  (Finset.range fn.code.length).image (fun pc : Nat => (pc : Int)) ∪
    (Finset.range fn.nparams).image paramId

/-- The registers that instructions write. -/
def targets (fn : IrFunction) : Finset Nat := (fn.code.map (·.a)).toFinset

/-- How much the sets of the written registers hold. -/
def weight (fn : IrFunction) (w : Flow) : Nat := ∑ r ∈ targets fn, (w.regs r).card

theorem weight_le {fn : IrFunction} (hids : ∀ r, w.regs r ⊆ ids fn) :
    weight fn w ≤ fn.code.length * (fn.code.length + fn.nparams) := by
  have hcard : (ids fn).card ≤ fn.code.length + fn.nparams := by
    refine (Finset.card_union_le _ _).trans (Nat.add_le_add ?_ ?_)
    · exact Finset.card_image_le.trans (Finset.card_range _).le
    · exact Finset.card_image_le.trans (Finset.card_range _).le
  have htargets : (targets fn).card ≤ fn.code.length := by
    refine (toFinset_card_le _).trans ?_
    rw [length_map]
  calc weight fn w ≤ (targets fn).card * (fn.code.length + fn.nparams) :=
        Finset.sum_le_card_nsmul _ _ _ fun r _ => (Finset.card_le_card (hids r)).trans hcard
    _ ≤ fn.code.length * (fn.code.length + fn.nparams) := Nat.mul_le_mul_right _ htargets

theorem weight_mono (fn : IrFunction) (h : ∀ r, w.regs r ⊆ w'.regs r) :
    weight fn w ≤ weight fn w' :=
  Finset.sum_le_sum fun r _ => Finset.card_le_card (h r)

/-- What flows is an id of the function. -/
theorem Flows.mem_ids {R : Nat → Set Int} (hR : ∀ r, ∀ x ∈ R r, x ∈ ids (mod.function fi))
    (hi : (mod.function fi).code[pc]? = some i) (h : Flows mod fi O R pc i id) :
    id ∈ ids (mod.function fi) := by
  unfold Flows at h
  split at h
  · obtain h | ⟨_, k, _, hid⟩ | ⟨_, hid⟩ := h
    · rw [h]
      refine Finset.mem_union_left _ (Finset.mem_image.mpr ⟨pc, ?_, rfl⟩)
      exact Finset.mem_range.mpr (List.getElem?_eq_some_iff.mp hi).1
    · exact hR _ id hid
    · exact hR _ id hid
  · split at h
    · exact hR _ id h
    · exact hR _ id h
    · exact hR _ id h
    · exact hR _ id h
    · obtain ⟨k, _, _, hid⟩ := h
      exact hR _ id hid
    · split at h
      · obtain ⟨k, _, _, hid⟩ := h
        exact hR _ id hid
      · split at h
        · obtain ⟨_, hid⟩ | ⟨_, k, _, _, _, hid⟩ := h
          · exact hR _ id hid
          · exact hR _ id hid
        · exact h.elim
    · exact h.elim

theorem flowList_ids (hl : ∀ ip ∈ l, ip ∈ (mod.function fi).code.zipIdx)
    (h : ∀ r, w.regs r ⊆ ids (mod.function fi)) (r : Nat) :
    (l.foldl (fun w ip => flowInst mod fi w (ip.2, ip.1)) w).regs r ⊆ ids (mod.function fi) := by
  induction l generalizing w with
  | nil => exact h r
  | cons ip rest ih =>
    rw [foldl_cons]
    refine ih (fun jp hjp => hl jp (mem_cons_of_mem ip hjp)) fun r id hid => ?_
    obtain ⟨hstep, _⟩ := flowInst_spec mod fi w ip.2 ip.1
    obtain hold | ⟨_, hnew⟩ := (hstep.regs r id).mp hid
    · exact h r hold
    · exact hnew.mem_ids (fun r x hx => h r hx) (mem_zipIdx (hl ip mem_cons_self))

/-- **A pass that changes something makes the sets grow.** -/
theorem flowList_weight (hl : ∀ ip ∈ l, ip ∈ (mod.function fi).code.zipIdx)
    (h : (l.foldl (fun w ip => flowInst mod fi w (ip.2, ip.1)) w).changed = true) :
    w.changed = true ∨ weight (mod.function fi) w <
      weight (mod.function fi) (l.foldl (fun w ip => flowInst mod fi w (ip.2, ip.1)) w) := by
  induction l generalizing w with
  | nil => exact Or.inl h
  | cons ip rest ih =>
    rw [foldl_cons] at h ⊢
    have hgrow := weight_mono (mod.function fi) (flowInst_advances mod fi w
      ip.2 ip.1).regs
    have hgrow' := weight_mono (mod.function fi) (flowList_advances mod fi rest
      (flowInst mod fi w (ip.2, ip.1))).regs
    obtain hchanged | hlt := ih (fun jp hjp => hl jp (mem_cons_of_mem ip hjp)) h
    · obtain ⟨hstep, _⟩ := flowInst_spec mod fi w ip.2 ip.1
      obtain hold | ⟨id, hid, hnot⟩ := hstep.changes hchanged
      · exact Or.inl hold
      · right
        have htarget : ip.1.a ∈ targets (mod.function fi) := by
          refine List.mem_toFinset.mpr (mem_map_of_mem (f := Inst.a) ?_)
          exact mem_of_getElem? (mem_zipIdx (hl ip mem_cons_self))
        have hstrict : weight (mod.function fi) w <
            weight (mod.function fi) (flowInst mod fi w (ip.2, ip.1)) := by
          refine Finset.sum_lt_sum (fun r _ => Finset.card_le_card
            ((flowInst_advances mod fi w ip.2 ip.1).regs r)) ⟨ip.1.a, htarget, ?_⟩
          refine Finset.card_lt_card ⟨(flowInst_advances mod fi w ip.2 ip.1).regs _, fun hsub => ?_⟩
          exact hnot (hsub ((hstep.regs _ id).mpr (Or.inr ⟨rfl, hid⟩)))
        exact hstrict.trans_le hgrow'
    · exact Or.inr (hgrow.trans_lt hlt)

/-- **The local fixpoint is reached**, and it is closed for the summaries at its start. -/
theorem flowLoop_spec (fuel : Nat) (hids : ∀ r, w.regs r ⊆ ids (mod.function fi))
    (hfuel : (mod.function fi).code.length *
      ((mod.function fi).code.length + (mod.function fi).nparams) <
        weight (mod.function fi) w + fuel) :
    Advances fi w (flowLoop mod fi fuel w) ∧
    ∀ pc i, (mod.function fi).code[pc]? = some i → ∀ id,
      Flows mod fi (oracleOf w.sums) (flowLoop mod fi fuel w).held pc i id →
        id ∈ (flowLoop mod fi fuel w).regs i.a := by
  induction fuel generalizing w with
  | zero =>
    have hle := weight_le hids
    omega
  | succ fuel ih =>
    have hpass : Advances fi w (flowPass mod fi w) :=
      let hadv := flowList_advances mod fi (mod.function fi).code.zipIdx
        { w with changed := false }
      ⟨hadv.regs, hadv.others, hadv.returns, hadv.kept, hadv.flag⟩
    rw [flowLoop]
    by_cases hchanged : (flowPass mod fi w).changed = true
    · rw [if_pos hchanged]
      have hgrow := flowList_weight (w := { w with changed := false }) (fun _ hip => hip) hchanged
      obtain hfalse | hlt := hgrow
      · cases hfalse
      · have hweight : weight (mod.function fi) w < weight (mod.function fi) (flowPass mod fi w) :=
          hlt
        have hids' : ∀ r, (flowPass mod fi w).regs r ⊆ ids (mod.function fi) :=
          flowList_ids (w := { w with changed := false }) (fun _ hip => hip) hids
        obtain ⟨hadv, hclosed⟩ := ih hids' (by omega)
        refine ⟨hpass.trans hadv, fun pc i hi id hid => ?_⟩
        exact hclosed pc i hi id (hid.mono hpass.oracle fun _ => Set.Subset.rfl)
    · rw [if_neg hchanged]
      have hstable := flowList_stable (w := { w with changed := false })
        (Bool.eq_false_iff.mpr hchanged)
      obtain ⟨_, hregs, hflows⟩ := hstable
      have hregs' : (flowPass mod fi w).regs = w.regs := hregs
      have hheld : (flowPass mod fi w).held = w.held := by
        funext r
        rw [Flow.held, Flow.held, hregs']
      refine ⟨hpass, fun pc i hi id hid => ?_⟩
      rw [hheld] at hid
      rw [hregs']
      exact hflows (i, pc) (List.mem_zipIdx_iff_getElem?.mpr hi) id hid

/-- What `analyzeFn` does, for the summaries that it starts from. -/
structure Analyzed (mod : IrModule) (fi : Nat) (sums : Nat → Summary) (w' : Flow) : Prop where
  others : ∀ g, g ≠ fi → w'.sums g = sums g
  keptEscapes : (sums fi).paramEscapes ⊆ (w'.sums fi).paramEscapes
  keptReturns : (sums fi).paramToRet ⊆ (w'.sums fi).paramToRet
  flag : w'.summaryChanged = false → w'.sums = sums
  escapes : ∀ p, Escapes mod fi (oracleOf sums) p → p ∈ (w'.sums fi).paramEscapes
  returns : ∀ p, Returns mod fi (oracleOf sums) p → p ∈ (w'.sums fi).paramToRet
  sound : ∀ O, (oracleOf sums).le O → Absorbing mod fi O → (oracleOf w'.sums).le O

theorem Analyzed.oracle (h : Analyzed mod fi sums w') : (oracleOf sums).le (oracleOf w'.sums) :=
  oracleOf_le_of_others h.others h.keptEscapes h.keptReturns

theorem entryRegs_ids (fn : IrFunction) (r : Nat) : entryRegs fn r ⊆ ids fn := by
  intro id hid
  unfold entryRegs at hid
  split at hid
  · next hr =>
      rw [Finset.mem_singleton] at hid
      exact Finset.mem_union_right _ (Finset.mem_image.mpr ⟨r, Finset.mem_range.mpr hr.1, hid.symm⟩)
  · exact absurd hid (Finset.notMem_empty id)

/-- **One run of `analyzeFn`.** -/
theorem analyzeFn_spec (mod : IrModule) (fi : Nat) (sums : Nat → Summary) (esc : Nat → Option Str) :
    Analyzed mod fi sums (analyzeFn mod fi sums esc) := by
  obtain ⟨w₀, hw₀⟩ : ∃ w₀ : Flow,
      w₀ = { regs := entryRegs (mod.function fi), esc := esc, sums := sums } := ⟨_, rfl⟩
  have hids : ∀ r, w₀.regs r ⊆ ids (mod.function fi) := by
    rw [hw₀]
    exact entryRegs_ids _
  have hsums₀ : w₀.sums = sums := by rw [hw₀]
  obtain ⟨hadv, hclosed⟩ := flowLoop_spec (flowFuel (mod.function fi)) hids (by
    rw [flowFuel]
    omega)
  obtain ⟨w₁, hw₁⟩ : ∃ w₁, flowLoop mod fi (flowFuel (mod.function fi)) w₀ = w₁ := ⟨_, rfl⟩
  rw [hw₁, hsums₀] at hclosed
  rw [hw₁] at hadv
  have hresult : analyzeFn mod fi sums esc = (mod.function fi).code.foldl (sinkInst mod fi) w₁ := by
    rw [analyzeFn, ← hw₀, hw₁]
  have hgrows := sinkPass_grows mod fi (mod.function fi).code w₁
  have hle : (oracleOf sums).le (oracleOf w₁.sums) := hsums₀ ▸ hadv.oracle
  -- the sets of the registers are closed, so they hold the least closed assignment
  have hhelds : Closed mod fi (oracleOf sums) w₁.held := by
    refine ⟨fun r id hid => hadv.regs r ?_, hclosed⟩
    rw [hw₀]
    exact hid
  rw [hresult]
  refine ⟨fun g hg => ?_, ?_, ?_, fun hflag => ?_, fun p hp => ?_, fun p hp => ?_,
    fun O hO habsorbs => ?_⟩
  · rw [hgrows.others g hg, hadv.others g hg, hsums₀]
  · exact (hsums₀ ▸ hadv.kept).trans hgrows.keptEscapes
  · have hret := hadv.returns
    rw [hsums₀] at hret
    exact hret ▸ hgrows.keptReturns
  · obtain ⟨hflag₁, hsums⟩ := hgrows.flag hflag
    rw [hsums, (hadv.flag hflag₁).2, hsums₀]
  · obtain ⟨hlt, i, hi, hsink⟩ := hp
    exact (sinkPass_complete hlt).1 i hi (hsink.mono hle fun r => Alias.subset hhelds r)
  · obtain ⟨hlt, i, hi, hop, hid⟩ := hp
    exact (sinkPass_complete hlt).2 i hi hop (Alias.subset hhelds _ hid)
  · have hsound₀ : Sound mod fi O w₀ := by
      refine ⟨hsums₀ ▸ hO, fun r id hid => ?_⟩
      rw [hw₀] at hid
      exact alias_closed.entry r id hid
    have hsound := flowLoop_sound (flowFuel (mod.function fi)) hsound₀ habsorbs
    rw [hw₁] at hsound
    refine hgrows.sound O hsound.oracle (fun p hp hfound => ?_) fun p hp hret => ?_
    · obtain ⟨i, hi, hsink⟩ := hfound
      exact habsorbs.escapes p ⟨hp, i, hi, hsink.mono ⟨fun _ _ h => h, fun _ _ h => h⟩ hsound.held⟩
    · obtain ⟨i, hi, hop, hid⟩ := hret
      exact habsorbs.returns p ⟨hp, i, hi, hop, hsound.held _ hid⟩

end Loop

end Leviathan.Ir
