import Leviathan.Ir.ForIn

/-!
# What a lowered loop visits

One turn of a loop is six or seven instructions (`countedLoop_turn`, `indexLoop_turn`).  The turns
of a counted loop visit exactly the numbers of its range if its body leaves the loop variable alone;
those of a loop over an index visit what stands in the iterated register, turn by turn.

Main result: `visits_snapshot_iff`, for both engines.
-/

namespace Leviathan.Ir.ForIn

open List

variable {U ω : Type} {s : Stmt U ω} {elem : Nat} {code : List (Inst U ω)}

/-! ### Running code -/

variable {st : State U ω}

/-- Visiting goes through a step, in both directions. -/
theorem visits_step {st' : State U ω} (h : step s elem code st = some st') (xs : List (Val U)) :
    Visits s elem code st xs ↔ Visits s elem code st' xs := by
  have hrun : ∀ n, (run s elem code (n + 1) st).map State.visits =
      (run s elem code n st').map State.visits := by
    intro n
    rw [run, h]
  constructor
  · rintro ⟨N, hN⟩
    exact ⟨N, fun n hn => (hrun n).symm.trans (hN (n + 1) (by omega))⟩
  · exact fun hv => Settles.succ hv hrun

/-- Where the code ends. -/
theorem visits_end (h : step s elem code st = none) (xs : List (Val U)) :
    Visits s elem code st xs ↔ st.visits = xs := by
  have hrun : ∀ n, (run s elem code (n + 1) st).map State.visits = some st.visits := by
    intro n
    rw [run, h]
    rfl
  constructor
  · rintro ⟨N, hN⟩
    exact Option.some.inj ((hrun N).symm.trans (hN (N + 1) (by omega)))
  · rintro rfl
    exact ⟨1, fun n hn => by rw [← Nat.sub_add_cancel hn]; exact hrun _⟩

/-- A step adds to what was visited. -/
theorem step_grows {st' : State U ω} (h : step s elem code st = some st') :
    st.visits <+: st'.visits := by
  have hset : ∀ r v, (st.set r v).visits = st.visits := by
    intro r v
    cases r <;> rfl
  unfold step at h
  split at h
  case h_1 => cases h
  case h_12 =>
    cases h
    exact prefix_append _ _
  all_goals
    cases h
    first | exact prefix_rfl | rw [hset]

variable {xs : List (Val U)}

theorem Visits.grows (h : Visits s elem code st xs) : st.visits <+: xs := by
  obtain ⟨N, hN⟩ := h
  have hrun : (run s elem code N st).map State.visits = some xs := hN N le_rfl
  clear hN
  induction N generalizing st with
  | zero => cases hrun
  | succ n ih =>
    rw [run] at hrun
    cases hstep : step s elem code st with
    | none =>
      rw [hstep] at hrun
      obtain rfl := Option.some.inj hrun
      exact prefix_rfl
    | some st' =>
      rw [hstep] at hrun
      exact (step_grows hstep).trans (ih hrun)

theorem fetch (pre loop : List (Inst U ω)) (k : Nat) : (pre ++ loop)[pre.length + k]? = loop[k]? := by
  rw [getElem?_append_right (Nat.le_add_right _ _), Nat.add_sub_cancel_left]

/-! ### The code of an expression -/

/-- The code of an expression: its value is in its register then, or is the local it names. -/
theorem visits_lowerExpr (s : Stmt U ω) (elem : Nat) (sc : Scopes) (t : Nat) (e : Expr U ω)
    {pre post : List (Inst U ω)} (hcode : code = pre ++ ((lowerExpr sc t e).1 ++ post))
    (L : Locals U) (T : Nat → Val U) (w : ω) (vs : List (Val U)) :
    ∃ T' : Nat → Val U, (∀ n, n ≠ t → T' n = T n) ∧
      ((lowerExpr sc t e).2 = .temp t ∧ T' t = (loweredValue sc L w e).1 ∨
        ∃ x r, e = .name x ∧ sc x = some r ∧ (lowerExpr sc t e).2 = .local r) ∧
      ∀ xs, Visits s elem code ⟨pre.length, L, T, w, vs⟩ xs ↔
        Visits s elem code ⟨pre.length + (lowerExpr sc t e).1.length, L, T',
          (loweredValue sc L w e).2, vs⟩ xs := by
  cases e with
  | name x =>
    cases hx : sc x with
    | some r =>
      have hlower : lowerExpr sc t (.name x : Expr U ω) = ([], .local r) := by
        rw [lowerExpr, hx]
      rw [hlower]
      exact ⟨T, fun _ _ => rfl, .inr ⟨x, r, rfl, hx, rfl⟩, fun xs => Iff.rfl⟩
    | none =>
      have hlower : lowerExpr sc t (.name x : Expr U ω) =
          ([.LoadConst (.temp t) .void], .temp t) := by
        rw [lowerExpr, hx]
      rw [hlower] at hcode ⊢
      refine ⟨Function.update T t .void, fun n hn => Function.update_of_ne hn _ _,
        .inl ⟨rfl, ?_⟩, fun xs => visits_step ?_ xs⟩
      · rw [Function.update_self, loweredValue, values, hx]
      · have hfetch := fetch pre (Inst.LoadConst (.temp t) .void :: post) 0
        rw [Nat.add_zero] at hfetch
        rw [step, hcode, singleton_append, hfetch]
        rfl
  | other value =>
    rw [lowerExpr] at hcode ⊢
    refine ⟨Function.update T t (value (values sc L) w).1,
      fun n hn => Function.update_of_ne hn _ _, .inl ⟨rfl, Function.update_self _ _ _⟩,
      fun xs => visits_step ?_ xs⟩
    have hfetch := fetch pre
      (Inst.compute (.temp t) (fun locals w => value (values sc locals) w) :: post) 0
    rw [Nat.add_zero] at hfetch
    rw [step, hcode, singleton_append, hfetch]
    rfl

/-! ### Counted loops -/

/-- The head of a counted loop. -/
def top (p : Nat) (L : Locals U) (T : Nat → Val U) (w : ω) (vs : List (Val U)) : State U ω :=
  ⟨p + 2, L, T, w, vs⟩

variable {L : Locals U} {T : Nat → Val U} {h : Val U}

section CountedLoop

variable {pre : List (Inst U ω)} {lo hi : Reg}
  (hcode : code = pre ++ countedLoop elem lo hi pre.length)
include hcode

theorem countedLoop_fetch (k : Nat) :
    code[pre.length + k]? = (countedLoop elem lo hi pre.length : List (Inst U ω))[k]? := by
  rw [hcode]
  exact fetch pre _ k

/-- The test at the head of a counted loop. -/
theorem countedLoop_test (hT : T 2 = h) (w : ω) (vs : List (Val U)) :
    ∃ T' : Nat → Val U, T' 2 = h ∧ ∀ xs,
      Visits s elem code (top pre.length L T w vs) xs ↔
        Visits s elem code
          ⟨if (L elem).i ≤ h.i then pre.length + 4 else pre.length + 8, L, T', w, vs⟩ xs := by
  let T' := Function.update T 3 (.bool ((L elem).i ≤ h.i))
  have hle : step s elem code (top pre.length L T w vs) =
      some ⟨pre.length + 3, L, T', w, vs⟩ := by
    rw [step, top, countedLoop_fetch hcode 2]
    show some (⟨pre.length + 2 + 1, L, Function.update T 3 (.bool ((L elem).i ≤ (T 2).i)), w, vs⟩ :
      State U ω) = _
    rw [hT]
  have hjump : step s elem code ⟨pre.length + 3, L, T', w, vs⟩ =
      some ⟨if (L elem).i ≤ h.i then pre.length + 4 else pre.length + 8, L, T', w, vs⟩ := by
    have hb : (T' 3).b = decide ((L elem).i ≤ h.i) := by
      show (Function.update T 3 (Val.bool ((L elem).i ≤ h.i)) 3).b = _
      rw [Function.update_self]
      rfl
    rw [step, countedLoop_fetch hcode 3]
    show some (⟨if (T' 3).b then pre.length + 3 + 1 else pre.length + 8, L, T', w, vs⟩ :
      State U ω) = _
    rw [hb]
    simp only [decide_eq_true_eq]
  refine ⟨T', ?_, fun xs => by rw [visits_step hle, visits_step hjump]⟩
  rw [← hT]
  rfl

/-- One turn of a counted loop. -/
theorem countedLoop_turn (hT : T 2 = h) (w : ω) (vs : List (Val U)) (hle : (L elem).i ≤ h.i) :
    ∃ T' : Nat → Val U, T' 2 = h ∧ ∀ xs,
      Visits s elem code (top pre.length L T w vs) xs ↔
        Visits s elem code (top pre.length
          (Function.update (s.code L w).1 elem (.int (((s.code L w).1 elem).i + 1))) T'
          (s.code L w).2 (vs ++ [L elem])) xs := by
  obtain ⟨T₁, hT₁, htest⟩ := countedLoop_test (s := s) hcode hT w vs
  rw [if_pos hle] at htest
  let T' := Function.update T₁ 4 (.int 1)
  have hbody : step s elem code ⟨pre.length + 4, L, T₁, w, vs⟩ =
      some ⟨pre.length + 5, (s.code L w).1, T₁, (s.code L w).2, vs ++ [L elem]⟩ := by
    rw [step, countedLoop_fetch hcode 4]
    rfl
  have hone : ∀ L w vs, step s elem code ⟨pre.length + 5, L, T₁, w, vs⟩ =
      some ⟨pre.length + 6, L, T', w, vs⟩ := by
    intro L w vs
    rw [step, countedLoop_fetch hcode 5]
    rfl
  have hplus : ∀ L w vs, step s elem code ⟨pre.length + 6, L, T', w, vs⟩ =
      some ⟨pre.length + 7, Function.update L elem (.int ((L elem).i + 1)), T', w, vs⟩ := by
    intro L w vs
    rw [step, countedLoop_fetch hcode 6]
    show some (⟨pre.length + 6 + 1, Function.update L elem (.int ((L elem).i + (T' 4).i)), T', w,
      vs⟩ : State U ω) = _
    rw [show T' 4 = .int 1 from Function.update_self _ _ _]
    rfl
  have hback : ∀ L w vs, step s elem code ⟨pre.length + 7, L, T', w, vs⟩ =
      some (top pre.length L T' w vs) := by
    intro L w vs
    rw [step, countedLoop_fetch hcode 7]
    rfl
  refine ⟨T', ?_, fun xs => ?_⟩
  · rw [← hT₁]
    rfl
  · rw [htest, visits_step hbody, visits_step (hone _ _ _), visits_step (hplus _ _ _),
      visits_step (hback _ _ _)]

/-- The end of a counted loop. -/
theorem countedLoop_end (hT : T 2 = h) (w : ω) (vs : List (Val U)) (hle : ¬(L elem).i ≤ h.i)
    (xs : List (Val U)) :
    Visits s elem code (top pre.length L T w vs) xs ↔ vs = xs := by
  obtain ⟨T', -, htest⟩ := countedLoop_test (s := s) hcode hT w vs
  have hend : step s elem code ⟨pre.length + 8, L, T', w, vs⟩ = none := by
    rw [step, countedLoop_fetch hcode 8]
    rfl
  rw [htest, if_neg hle, visits_end hend]

end CountedLoop

/-- The turns that are left visit the list. -/
def Counted (s : Stmt U ω) (elem : Nat) (h : Val U) : List (Val U) → Locals U → ω → Prop
  | [], L, _ => ¬(L elem).i ≤ h.i
  | k :: ks, L, w =>
    (L elem).i ≤ h.i ∧ L elem = k ∧
      Counted s elem h ks
        (Function.update (s.code L w).1 elem (.int (((s.code L w).1 elem).i + 1))) (s.code L w).2

/-- What a counted loop visits, by its turns. -/
theorem visits_iff_counted {pre : List (Inst U ω)} {lo hi : Reg}
    (hcode : code = pre ++ countedLoop elem lo hi pre.length) (hT : T 2 = h) (w : ω)
    (vs ks : List (Val U)) :
    Visits s elem code (top pre.length L T w vs) (vs ++ ks) ↔ Counted s elem h ks L w := by
  induction ks generalizing L T w vs with
  | nil =>
    by_cases hle : (L elem).i ≤ h.i
    · obtain ⟨T', -, hturn⟩ := countedLoop_turn (s := s) hcode hT w vs hle
      rw [hturn]
      refine iff_of_false (fun hv => ?_) fun hno => hno hle
      have hlength := hv.grows.length_le
      simp [top] at hlength
    · rw [countedLoop_end hcode hT w vs hle]
      exact iff_of_true (append_nil vs).symm hle
  | cons k ks ih =>
    by_cases hle : (L elem).i ≤ h.i
    · obtain ⟨T', hT', hturn⟩ := countedLoop_turn (s := s) hcode hT w vs hle
      have hsplit : L elem = k → vs ++ k :: ks = vs ++ [L elem] ++ ks := by
        rintro rfl
        rw [append_assoc, singleton_append]
      rw [hturn, Counted]
      constructor
      · intro hv
        obtain ⟨rest, hrest⟩ := hv.grows
        have hk : L elem = k := by
          have heq : vs ++ (L elem :: rest) = vs ++ (k :: ks) := by simpa [top] using hrest
          exact (List.cons.inj (append_cancel_left heq)).1
        rw [hsplit hk] at hv
        exact ⟨hle, hk, (ih hT' _ (vs ++ [L elem])).mp hv⟩
      · rintro ⟨-, hk, hrest⟩
        rw [hsplit hk]
        exact (ih hT' (s.code L w).2 (vs ++ [L elem])).mpr hrest
    · rw [countedLoop_end hcode hT w vs hle]
      refine iff_of_false (fun heq => ?_) fun hcounted => hle hcounted.1
      have hlength := congrArg List.length heq
      simp at hlength

/-! ### Numbers -/

theorem toInt_add_of_lt {a b : Int64} (hlo : -2 ^ 63 ≤ a.toInt + b.toInt)
    (hhi : a.toInt + b.toInt < 2 ^ 63) : (a + b).toInt = a.toInt + b.toInt := by
  rw [Int64.toInt_add]
  exact Int.bmod_eq_of_le (by omega) (by omega)

/-- The successor of a number that is not the largest. -/
theorem le_maxValue (k : Int64) : k ≤ Int64.maxValue :=
  Int64.le_iff_toInt_le.mpr k.toInt_le

theorem toInt_succ {k hi : Int64} (h : k < hi) : (k + 1).toInt = k.toInt + 1 := by
  have hlt := Int64.lt_iff_toInt_lt.mp h
  have hlo := k.le_toInt
  have hhi := hi.toInt_lt
  have hone : (1 : Int64).toInt = 1 := rfl
  rw [toInt_add_of_lt (by omega) (by omega), hone]

theorem rangeElems_eq_nil {lo hi : Int64} (h : hi < lo) : (rangeElems lo hi : List (Val U)) = [] := by
  have hlt := Int64.lt_iff_toInt_lt.mp h
  have hzero : (hi.toInt - lo.toInt + 1).toNat = 0 := by omega
  rw [rangeElems, hzero]
  rfl

theorem rangeElems_self (k : Int64) : (rangeElems k k : List (Val U)) = [.int k] := by
  have hone : (k.toInt - k.toInt + 1).toNat = 1 := by omega
  rw [rangeElems, hone]
  simp

theorem rangeElems_cons {lo hi : Int64} (h : lo < hi) :
    (rangeElems lo hi : List (Val U)) = .int lo :: rangeElems (lo + 1) hi := by
  have hlt := Int64.lt_iff_toInt_lt.mp h
  have hsucc := toInt_succ h
  have hlength : (hi.toInt - lo.toInt + 1).toNat = (hi.toInt - (lo + 1).toInt + 1).toNat + 1 := by
    omega
  rw [rangeElems, rangeElems, hlength, range_succ_eq_map, map_cons, map_map]
  congr 1
  · simp
  · refine map_congr_left fun n _ => ?_
    have hnum : lo.toInt + ((n + 1 : Nat) : Int) = (lo + 1).toInt + n := by omega
    show Val.int (Int64.ofInt (lo.toInt + ((n + 1 : Nat) : Int))) = _
    rw [hnum]

theorem rangeElems_ne_nil {lo hi : Int64} (h : lo ≤ hi) :
    (rangeElems lo hi : List (Val U)) ≠ [] := by
  rcases Int64.lt_or_eq_of_le h with hlt | rfl
  · rw [rangeElems_cons hlt]
    exact cons_ne_nil _ _
  · rw [rangeElems_self]
    exact cons_ne_nil _ _

/-- A turn that is not the last. -/
theorem keeps_cons {top : Int64} {k : Val U} {ks : List (Val U)} (hks : ks ≠ []) {w : ω} :
    Keeps s elem top (k :: ks) L w ↔
      ((s.code (Function.update L elem k) w).1 elem).i = k.i ∧
        Keeps s elem top ks (s.code (Function.update L elem k) w).1
          (s.code (Function.update L elem k) w).2 := by
  cases ks with
  | nil => exact absurd rfl hks
  | cons k' ks => exact Iff.rfl

/-- Induction along a range that is not empty. -/
theorem range_induction {hi : Int64} {motive : ∀ lo : Int64, lo ≤ hi → Prop}
    (last : motive hi (Int64.le_refl hi))
    (next : ∀ lo (h : lo < hi) (h' : lo + 1 ≤ hi), motive (lo + 1) h' →
      motive lo (Int64.le_of_lt h)) {lo : Int64} (h : lo ≤ hi) : motive lo h := by
  induction hn : (hi.toInt - lo.toInt).toNat generalizing lo with
  | zero =>
    have hle := Int64.le_iff_toInt_le.mp h
    obtain rfl : lo = hi := Int64.toInt_inj.mp (by omega)
    exact last
  | succ n ih =>
    have hlt : lo < hi := Int64.lt_iff_toInt_lt.mpr (by omega)
    have hsucc := toInt_succ hlt
    have hle : lo + 1 ≤ hi := Int64.le_iff_toInt_le.mpr (by omega)
    exact next lo hlt hle (ih hle (by omega))

/-- A counted loop from a number on visits the range exactly if the body leaves the loop variable
alone. -/
theorem counted_rangeElems {hi : Int64} {a b : Val U} {lo : Int64} (hle : lo ≤ hi) (L : Locals U)
    (w : ω) : Counted s elem b (rangeElems lo hi) (Function.update L elem a) w ↔
      a = .int lo ∧ hi ≤ b.i ∧ Keeps s elem b.i (rangeElems lo hi) L w := by
  induction hle using range_induction generalizing a L w with
  | last =>
    rw [rangeElems_self, Counted, Counted, Keeps, Function.update_self, Function.update_self]
    constructor
    · rintro ⟨hle, rfl, hend⟩
      exact ⟨rfl, hle, Int64.not_le.mp hend⟩
    · rintro ⟨rfl, hle, hend⟩
      exact ⟨hle, rfl, Int64.not_le.mpr hend⟩
  | next lo hlt hle ih =>
    rw [rangeElems_cons hlt, Counted, Function.update_self, keeps_cons (rangeElems_ne_nil hle)]
    constructor
    · rintro ⟨-, rfl, hrest⟩
      obtain ⟨hsame, hhi, hkeeps⟩ := (ih _ _).mp hrest
      exact ⟨rfl, hhi, (Int64.add_left_inj 1).mp (Val.int.inj hsame), hkeeps⟩
    · rintro ⟨rfl, hhi, hsame, hkeeps⟩
      have hlohi : (Val.int lo : Val U).i ≤ b.i := Int64.le_trans (Int64.le_of_lt hlt) hhi
      exact ⟨hlohi, rfl, (ih _ _).mpr ⟨by rw [hsame]; rfl, hhi, hkeeps⟩⟩

/-- The bounds are moved to where the loop reads them. -/
theorem countedLoop_start {pre : List (Inst U ω)} {lo hi : Reg}
    (hcode : code = pre ++ countedLoop elem lo hi pre.length) (L : Locals U) (T : Nat → Val U) (w : ω)
    (vs : List (Val U)) : ∃ T' : Nat → Val U,
      T' 2 = (⟨0, Function.update L elem ((⟨0, L, T, w, vs⟩ : State U ω).get lo), T, w, vs⟩ :
        State U ω).get hi ∧
      ∀ xs, Visits s elem code ⟨pre.length, L, T, w, vs⟩ xs ↔
        Visits s elem code (top pre.length
          (Function.update L elem ((⟨0, L, T, w, vs⟩ : State U ω).get lo)) T' w vs) xs := by
  let a := (⟨0, L, T, w, vs⟩ : State U ω).get lo
  let b := (⟨0, Function.update L elem a, T, w, vs⟩ : State U ω).get hi
  have hlo : step s elem code ⟨pre.length, L, T, w, vs⟩ =
      some ⟨pre.length + 1, Function.update L elem a, T, w, vs⟩ := by
    have hfetch := countedLoop_fetch hcode 0
    rw [Nat.add_zero] at hfetch
    rw [step, hfetch]
    cases lo <;> rfl
  have hhi : step s elem code ⟨pre.length + 1, Function.update L elem a, T, w, vs⟩ =
      some (top pre.length (Function.update L elem a) (Function.update T 2 b) w vs) := by
    rw [step, countedLoop_fetch hcode 1]
    cases hi <;> rfl
  exact ⟨Function.update T 2 b, Function.update_self _ _ _,
    fun xs => by rw [visits_step hlo, visits_step hhi]⟩

/-- What the code of a counted loop visits. -/
theorem runVisits_range {lo hi : Expr U ω} (hs : s.iterable = .range lo hi) (sc : Scopes)
    (L : Locals U) (w : ω) (xs : List (Val U)) :
    RunVisits s sc elem L w xs ↔
      Counted s elem (boundsInside s sc elem L w lo hi).2.1 xs
        (Function.update L elem (boundsInside s sc elem L w lo hi).1)
        (boundsInside s sc elem L w lo hi).2.2 := by
  let sc' : Scopes := fun x => if x = s.name then some elem else sc x
  let loCode : List (Inst U ω) := (lowerExpr sc' 0 lo).1
  let hiCode : List (Inst U ω) := (lowerExpr sc' 1 hi).1
  let w₁ := (loweredValue sc' L w lo).2
  let w₂ := (loweredValue sc' L w₁ hi).2
  have hcode : lowerForIn s sc elem = (loCode ++ hiCode) ++ countedLoop elem (lowerExpr sc' 0 lo).2
      (lowerExpr sc' 1 hi).2 (loCode ++ hiCode).length := by
    rw [lowerForIn, hs, length_append]
  suffices h : ∀ T, Visits s elem (lowerForIn s sc elem) ⟨0, L, T, w, []⟩ xs ↔
      Counted s elem (boundsInside s sc elem L w lo hi).2.1 xs
        (Function.update L elem (boundsInside s sc elem L w lo hi).1)
        (boundsInside s sc elem L w lo hi).2.2 from
    ⟨fun hv => (h fun _ => .void).mp (hv _), fun hc T => (h T).mpr hc⟩
  intro T
  have hcodeHi : lowerForIn s sc elem = loCode ++ ((lowerExpr sc' 1 hi).1 ++ countedLoop elem
      (lowerExpr sc' 0 lo).2 (lowerExpr sc' 1 hi).2 (loCode ++ hiCode).length) := by
    rw [hcode, append_assoc]
  have hcodeLo : lowerForIn s sc elem = [] ++ ((lowerExpr sc' 0 lo).1 ++ (hiCode ++ countedLoop elem
      (lowerExpr sc' 0 lo).2 (lowerExpr sc' 1 hi).2 (loCode ++ hiCode).length)) := hcodeHi
  obtain ⟨T₁, -, hlo, hvlo⟩ := visits_lowerExpr s elem sc' 0 lo hcodeLo L T w []
  obtain ⟨T₂, hT₂, hhi, hvhi⟩ := visits_lowerExpr s elem sc' 1 hi hcodeHi L T₁ w₁ []
  obtain ⟨T₃, hT₃, hstart⟩ := countedLoop_start (s := s) hcode L T₂ w₂ []
  have ha : (⟨0, L, T₂, w₂, []⟩ : State U ω).get (lowerExpr sc' 0 lo).2 =
      (boundsInside s sc elem L w lo hi).1 := by
    have hinside : (boundsInside s sc elem L w lo hi).1 = (loweredValue sc' L w lo).1 := by
      cases hi <;> rfl
    rw [hinside]
    rcases hlo with ⟨hreg, hvalue⟩ | ⟨x, r, rfl, hx, hreg⟩
    · rw [hreg, ← hvalue]
      exact hT₂ 0 (by decide)
    · rw [hreg, loweredValue, values, hx]
      rfl
  rw [ha] at hT₃ hstart
  have hb : T₃ 2 = (boundsInside s sc elem L w lo hi).2.1 := by
    rw [hT₃]
    rcases hhi with ⟨hreg, hvalue⟩ | ⟨x, r, rfl, hx, hreg⟩
    · rw [hreg]
      cases hi with
      | other value => exact hvalue
      | name x =>
        have hx : sc' x = none := by
          cases hx : sc' x with
          | none => rfl
          | some r =>
            rw [lowerExpr, hx] at hreg
            cases hreg
        have hvoid : T₂ 1 = .void := by
          rw [hvalue, loweredValue, values, hx]
        show T₂ 1 = values sc' _ x
        rw [hvoid, values, hx]
    · rw [hreg]
      show Function.update L elem _ r = values sc' (Function.update L elem _) x
      rw [values, hx]
      rfl
  have hw : w₂ = (boundsInside s sc elem L w lo hi).2.2 := by
    cases hi <;> rfl
  refine (hvlo xs).trans ?_
  show Visits s elem _ ⟨0 + loCode.length, L, T₁, w₁, []⟩ xs ↔ _
  rw [Nat.zero_add, hvhi xs]
  show Visits s elem _ ⟨loCode.length + hiCode.length, L, T₂, w₂, []⟩ xs ↔ _
  rw [← length_append, hstart xs, hw]
  exact visits_iff_counted hcode hb _ [] xs

/-! ### Loops over an index -/

variable {len j : Int64}

section IndexLoop

variable {pre : List (Inst U ω)} {iter : Reg}
  (hcode : code = pre ++ indexLoop elem iter pre.length)
include hcode

theorem indexLoop_fetch (k : Nat) :
    code[pre.length + k]? = (indexLoop elem iter pre.length : List (Inst U ω))[k]? := by
  rw [hcode]
  exact fetch pre _ k

/-- The test at the head of a loop over an index. -/
theorem indexLoop_test (hlen : T 1 = .int len) (hj : T 2 = .int j) (w : ω) (vs : List (Val U)) :
    ∃ T' : Nat → Val U,
      (∀ n, n ≠ 3 → T' n = T n) ∧ ∀ xs,
        Visits s elem code (top pre.length L T w vs) xs ↔
          Visits s elem code
            ⟨if j < len then pre.length + 4 else pre.length + 9, L, T', w, vs⟩ xs := by
  let T' := Function.update T 3 (.bool (j < len))
  have hlt : step s elem code (top pre.length L T w vs) =
      some ⟨pre.length + 3, L, T', w, vs⟩ := by
    rw [step, top, indexLoop_fetch hcode 2]
    show some (⟨pre.length + 2 + 1, L, Function.update T 3 (.bool ((T 2).i < (T 1).i)), w, vs⟩ :
      State U ω) = _
    rw [hlen, hj]
    rfl
  have hjump : step s elem code ⟨pre.length + 3, L, T', w, vs⟩ =
      some ⟨if j < len then pre.length + 4 else pre.length + 9, L, T', w, vs⟩ := by
    have hb : (T' 3).b = decide (j < len) := by
      show (Function.update T 3 (Val.bool (j < len)) 3).b = _
      rw [Function.update_self]
      rfl
    rw [step, indexLoop_fetch hcode 3]
    show some (⟨if (T' 3).b then pre.length + 3 + 1 else pre.length + 9, L, T', w, vs⟩ :
      State U ω) = _
    rw [hb]
    simp only [decide_eq_true_eq]
  exact ⟨T', fun n hn => Function.update_of_ne hn _ _,
    fun xs => by rw [visits_step hlt, visits_step hjump]⟩

/-- What a loop over an index reads its elements from: a local, or a value that only the loop
has. -/
def source (iter : Reg) (v : Val U) (L : Locals U) : Val U :=
  match iter with
  | .local r => L r
  | .temp _ => v

/-- One turn of a loop over an index. -/
theorem indexLoop_turn (hiter : iter = .temp 0 ∨ ∃ r, iter = .local r) (hlen : T 1 = .int len)
    (hj : T 2 = .int j) (w : ω) (vs : List (Val U)) (hlt : j < len) : ∃ T' : Nat → Val U,
      T' 0 = T 0 ∧ T' 1 = .int len ∧ T' 2 = .int (j + 1) ∧ ∀ xs,
        Visits s elem code (top pre.length L T w vs) xs ↔
          Visits s elem code (top pre.length
            (s.code (Function.update L elem (iterAt (source iter (T 0) L) j)) w).1 T'
            (s.code (Function.update L elem (iterAt (source iter (T 0) L) j)) w).2
            (vs ++ [iterAt (source iter (T 0) L) j])) xs := by
  obtain ⟨T₁, hT₁, htest⟩ := indexLoop_test (s := s) (L := L) hcode hlen hj w vs
  rw [if_pos hlt] at htest
  let x := iterAt (source iter (T 0) L) j
  let T₂ := Function.update T₁ 4 (.int 1)
  let T₃ := Function.update T₂ 2 (.int (j + 1))
  have hat : step s elem code ⟨pre.length + 4, L, T₁, w, vs⟩ =
      some ⟨pre.length + 5, Function.update L elem x, T₁, w, vs⟩ := by
    have hget : (⟨pre.length + 4, L, T₁, w, vs⟩ : State U ω).get iter = source iter (T 0) L := by
      rcases hiter with rfl | ⟨r, rfl⟩
      · exact hT₁ 0 (by decide)
      · rfl
    rw [step, indexLoop_fetch hcode 4]
    show some (⟨pre.length + 4 + 1, Function.update L elem
      (iterAt ((⟨pre.length + 4, L, T₁, w, vs⟩ : State U ω).get iter) (T₁ 2).i), T₁, w, vs⟩ :
        State U ω) = _
    rw [hget, hT₁ 2 (by decide), hj]
    rfl
  have hbody : step s elem code ⟨pre.length + 5, Function.update L elem x, T₁, w, vs⟩ =
      some ⟨pre.length + 6, (s.code (Function.update L elem x) w).1, T₁,
        (s.code (Function.update L elem x) w).2, vs ++ [x]⟩ := by
    rw [step, indexLoop_fetch hcode 5]
    show some (⟨pre.length + 5 + 1, (s.code (Function.update L elem x) w).1, T₁,
      (s.code (Function.update L elem x) w).2, vs ++ [Function.update L elem x elem]⟩ :
        State U ω) = _
    rw [Function.update_self]
  have hone : ∀ L w vs, step s elem code ⟨pre.length + 6, L, T₁, w, vs⟩ =
      some ⟨pre.length + 7, L, T₂, w, vs⟩ := by
    intro L w vs
    rw [step, indexLoop_fetch hcode 6]
    rfl
  have hplus : ∀ L w vs, step s elem code ⟨pre.length + 7, L, T₂, w, vs⟩ =
      some ⟨pre.length + 8, L, T₃, w, vs⟩ := by
    intro L w vs
    have hone : T₂ 4 = .int 1 := Function.update_self _ _ _
    have hindex : T₂ 2 = .int j := (hT₁ 2 (by decide)).trans hj
    rw [step, indexLoop_fetch hcode 7]
    show some (⟨pre.length + 7 + 1, L, Function.update T₂ 2 (.int ((T₂ 2).i + (T₂ 4).i)), w, vs⟩ :
      State U ω) = _
    rw [hone, hindex]
    rfl
  have hback : ∀ L w vs, step s elem code ⟨pre.length + 8, L, T₃, w, vs⟩ =
      some (top pre.length L T₃ w vs) := by
    intro L w vs
    rw [step, indexLoop_fetch hcode 8]
    rfl
  refine ⟨T₃, hT₁ 0 (by decide), (hT₁ 1 (by decide)).trans hlen, Function.update_self _ _ _,
    fun xs => ?_⟩
  rw [htest, visits_step hat, visits_step hbody, visits_step (hone _ _ _),
    visits_step (hplus _ _ _), visits_step (hback _ _ _)]

/-- The end of a loop over an index. -/
theorem indexLoop_end (hlen : T 1 = .int len) (hj : T 2 = .int j) (w : ω) (vs : List (Val U))
    (hlt : ¬j < len) (xs : List (Val U)) :
    Visits s elem code (top pre.length L T w vs) xs ↔ vs = xs := by
  obtain ⟨T', -, htest⟩ := indexLoop_test (s := s) (L := L) hcode hlen hj w vs
  have hend : step s elem code ⟨pre.length + 9, L, T', w, vs⟩ = none := by
    rw [step, indexLoop_fetch hcode 9]
    rfl
  rw [htest, if_neg hlt, visits_end hend]

end IndexLoop

/-- What the turns that are left visit, if there are `n`. -/
def indexed (s : Stmt U ω) (elem : Nat) (src : Locals U → Val U) :
    Nat → Int64 → Locals U → ω → List (Val U)
  | 0, _, _, _ => []
  | n + 1, j, L, w =>
    iterAt (src L) j ::
      indexed s elem src n (j + 1) (s.code (Function.update L elem (iterAt (src L) j)) w).1
        (s.code (Function.update L elem (iterAt (src L) j)) w).2

/-- They are the elements if these stand in their places. -/
theorem indexed_eq_iff {src : Locals U → Val U} {n : Nat} {w : ω} :
    indexed s elem src n j L w = xs ↔ n = xs.length ∧ Holds s elem src xs j L w := by
  induction xs generalizing n j L w with
  | nil =>
    cases n with
    | zero => exact iff_of_true rfl ⟨rfl, trivial⟩
    | succ n => exact iff_of_false (cons_ne_nil _ _) fun h => Nat.succ_ne_zero n h.1
  | cons x xs ih =>
    cases n with
    | zero => exact iff_of_false nofun fun h => Nat.succ_ne_zero _ h.1.symm
    | succ n =>
      rw [indexed, Holds, List.cons.injEq, length_cons, Nat.succ_inj]
      constructor
      · rintro ⟨rfl, hrest⟩
        obtain ⟨hn, hholds⟩ := ih.mp hrest
        exact ⟨hn, rfl, hholds⟩
      · rintro ⟨hn, rfl, hholds⟩
        exact ⟨rfl, ih.mpr ⟨hn, hholds⟩⟩

variable {v : Val U}

/-- What a loop over an index visits, from a turn on. -/
theorem visits_iff_indexed {pre : List (Inst U ω)} {iter : Reg}
    (hcode : code = pre ++ indexLoop elem iter pre.length)
    (hiter : iter = .temp 0 ∨ ∃ r, iter = .local r) {n : Nat} (hn : n = (len.toInt - j.toInt).toNat)
    (hv : T 0 = v) (hlen : T 1 = .int len) (hj : T 2 = .int j) (w : ω) (vs xs : List (Val U)) :
    Visits s elem code (top pre.length L T w vs) xs ↔
      vs ++ indexed s elem (source iter v) n j L w = xs := by
  induction n generalizing j L T w vs with
  | zero =>
    have hnot : ¬j < len := by
      rw [Int64.lt_iff_toInt_lt]
      omega
    rw [indexLoop_end hcode hlen hj w vs hnot, indexed, append_nil]
  | succ n ih =>
    have hlt : j < len := Int64.lt_iff_toInt_lt.mpr (by omega)
    have hsucc := toInt_succ hlt
    obtain ⟨T', hT0, hT1, hT2, hturn⟩ := indexLoop_turn (s := s) hcode hiter (L := L) hlen hj w vs hlt
    rw [hturn, hv, ih (by omega) (hT0.trans hv) hT1 hT2, indexed, append_assoc,
      singleton_append]

/-- The number of elements is a number exactly if it does not exceed the largest one. -/
theorem iterLen_eq_iff :
    (iterLen v).toInt.toNat = (elems v).length ↔ (elems v).length < 2 ^ 63 := by
  have hnum : ∀ {m : Nat} {n : Int64}, n.toInt = (m : Int).bmod (2 ^ 64) →
      (n.toInt.toNat = m ↔ m < 2 ^ 63) := by
    intro m n hn
    have hlt := n.toInt_lt
    constructor
    · intro h
      omega
    · intro h
      rw [hn, Int.bmod_eq_of_le (by omega) (by omega)]
      exact Int.toNat_natCast m
  cases v with
  | array xs =>
    refine hnum ?_
    rw [iterLen, Int64.toInt_ofNat']
    rfl
  | range lo hi =>
    rw [iterLen, elems]
    by_cases h : hi ≥ lo
    · have hle := Int64.le_iff_toInt_le.mp h
      rw [if_pos h]
      refine hnum ?_
      have hone : (1 : Int64).toInt = 1 := rfl
      rw [rangeElems, length_map, length_range, Int64.toInt_add, Int64.toInt_sub, hone,
        Int.toNat_of_nonneg (by omega), Int.bmod_add_bmod]
    · rw [if_neg h, rangeElems_eq_nil (Int64.not_le.mp h)]
      exact iff_of_true rfl (Nat.two_pow_pos 63)
  | _ => exact iff_of_true rfl (Nat.two_pow_pos 63)

/-- An element stands in its place. -/
theorem iterAt_elems {before after : List (Val U)} {x : Val U}
    (hsplit : elems v = before ++ x :: after) (hlength : (elems v).length < 2 ^ 63) :
    iterAt v (Int64.ofNat before.length) = x := by
  have hlt : before.length < (elems v).length := by
    rw [hsplit, length_append, length_cons]
    omega
  have hget : (elems v)[before.length]? = some x := by
    rw [hsplit, getElem?_append_right le_rfl, Nat.sub_self]
    rfl
  have hnum := Int64.toInt_ofNat_of_lt (show before.length < 2 ^ 63 by omega)
  cases v with
  | array xs =>
    have hlen := Int64.toInt_ofNat_of_lt (show xs.length < 2 ^ 63 from hlength)
    have hin : before.length < xs.length := hlt
    have hget' : xs[before.length]? = some x := hget
    have hbounds : (0 : Int64) ≤ Int64.ofNat before.length ∧
        Int64.ofNat before.length < Int64.ofNat xs.length := by
      rw [Int64.le_iff_toInt_le, Int64.lt_iff_toInt_lt, hnum, hlen]
      have hzero : (0 : Int64).toInt = 0 := rfl
      omega
    rw [iterAt, if_pos hbounds, hnum, Int.toNat_natCast, hget']
    rfl
  | range lo hi =>
    rw [elems, rangeElems, getElem?_map] at hget
    obtain ⟨n, hn, hx⟩ := Option.map_eq_some_iff.mp hget
    have hindex : n = before.length := by
      have := getElem?_range (show before.length < (hi.toInt - lo.toInt + 1).toNat by
        rw [elems, rangeElems, length_map, length_range] at hlt
        exact hlt)
      rw [this] at hn
      exact (Option.some.inj hn).symm
    rw [← hx, hindex, iterAt]
    refine congrArg Val.int (Int64.toInt_inj.mp ?_)
    rw [Int64.toInt_add, hnum, Int64.toInt_ofInt]
  | _ => simp [elems] at hsplit

/-- A value that only the loop has keeps its elements. -/
theorem holds_const (hlength : (elems v).length < 2 ^ 63) {before : List (Val U)}
    (hsplit : elems v = before ++ xs) (L : Locals U) (w : ω) :
    Holds s elem (fun _ => v) xs (Int64.ofNat before.length) L w := by
  induction xs generalizing before L w with
  | nil => trivial
  | cons x xs ih =>
    refine ⟨iterAt_elems hsplit hlength, ?_⟩
    have hnext : Int64.ofNat before.length + 1 = Int64.ofNat (before ++ [x]).length := by
      rw [length_append, length_singleton, Int64.ofNat_add]
      rfl
    rw [hnext]
    exact ih (by rw [hsplit, append_assoc]; rfl) _ _

/-- The number of turns is taken, before the first one. -/
theorem indexLoop_start {pre : List (Inst U ω)} {iter : Reg}
    (hcode : code = pre ++ indexLoop elem iter pre.length) (L : Locals U) (T : Nat → Val U) (w : ω)
    (vs : List (Val U)) : ∃ T' : Nat → Val U, T' 0 = T 0 ∧
      T' 1 = .int (iterLen ((⟨pre.length, L, T, w, vs⟩ : State U ω).get iter)) ∧ T' 2 = .int 0 ∧
      ∀ xs, Visits s elem code ⟨pre.length, L, T, w, vs⟩ xs ↔
        Visits s elem code (top pre.length L T' w vs) xs := by
  let T₁ := Function.update T 1
    (.int (iterLen ((⟨pre.length, L, T, w, vs⟩ : State U ω).get iter)))
  have hlen : step s elem code ⟨pre.length, L, T, w, vs⟩ =
      some ⟨pre.length + 1, L, T₁, w, vs⟩ := by
    have hfetch := indexLoop_fetch hcode 0
    rw [Nat.add_zero] at hfetch
    rw [step, hfetch]
    rfl
  have hzero : step s elem code ⟨pre.length + 1, L, T₁, w, vs⟩ =
      some (top pre.length L (Function.update T₁ 2 (.int 0)) w vs) := by
    rw [step, indexLoop_fetch hcode 1]
    rfl
  exact ⟨Function.update T₁ 2 (.int 0), rfl, rfl, rfl,
    fun xs => by rw [visits_step hlen, visits_step hzero]⟩

/-- What the code of a loop over an index visits. -/
theorem runVisits_expr {e : Expr U ω} (hs : s.iterable = .expr e) (sc : Scopes) (L : Locals U)
    (w : ω) : RunVisits s sc elem L w (elems (loweredValue sc L w e).1) ↔
      IndexFine s sc elem L (loweredValue sc L w e).2 e (elems (loweredValue sc L w e).1) := by
  let v := (loweredValue sc L w e).1
  let w' := (loweredValue sc L w e).2
  let pre : List (Inst U ω) := (lowerExpr sc 0 e).1
  have hcode : lowerForIn s sc elem = pre ++ indexLoop elem (lowerExpr sc 0 e).2 pre.length := by
    rw [lowerForIn, hs]
  have hcodeExpr : lowerForIn s sc elem = [] ++ ((lowerExpr sc 0 e).1 ++
      indexLoop elem (lowerExpr sc 0 e).2 pre.length) := hcode
  suffices h : ∀ T, Visits s elem (lowerForIn s sc elem) ⟨0, L, T, w, []⟩ (elems v) ↔
      IndexFine s sc elem L w' e (elems v) from
    ⟨fun hv => (h fun _ => .void).mp (hv _), fun hc T => (h T).mpr hc⟩
  intro T
  obtain ⟨T₁, -, hreg, hexpr⟩ := visits_lowerExpr s elem sc 0 e hcodeExpr L T w []
  obtain ⟨T₂, hT0, hT1, hT2, hstart⟩ := indexLoop_start (s := s) hcode L T₁ w' []
  have hiter : (lowerExpr sc 0 e : List (Inst U ω) × Reg).2 = .temp 0 ∨
      ∃ r, (lowerExpr sc 0 e : List (Inst U ω) × Reg).2 = .local r := by
    rcases hreg with ⟨hreg, -⟩ | ⟨x, r, -, -, hreg⟩
    · exact .inl hreg
    · exact .inr ⟨r, hreg⟩
  have hget : (⟨pre.length, L, T₁, w', []⟩ : State U ω).get (lowerExpr sc 0 e).2 = v := by
    rcases hreg with ⟨hreg, hvalue⟩ | ⟨x, r, rfl, hx, hreg⟩
    · rw [hreg]
      exact hvalue
    · rw [hreg]
      show L r = values sc L x
      rw [values, hx]
  rw [hget] at hT1
  have hvisits : Visits s elem (lowerForIn s sc elem) ⟨0, L, T, w, []⟩ (elems v) ↔
      (elems v).length < 2 ^ 63 ∧
        Holds s elem (source (lowerExpr sc 0 e).2 (T₁ 0)) (elems v) 0 L w' := by
    refine (hexpr _).trans ?_
    show Visits s elem _ ⟨0 + pre.length, L, T₁, w', []⟩ _ ↔ _
    rw [Nat.zero_add, hstart, visits_iff_indexed hcode hiter rfl hT0 hT1 hT2, nil_append,
      indexed_eq_iff, ← iterLen_eq_iff]
    have hzero : (0 : Int64).toInt = 0 := rfl
    rw [hzero, Int.sub_zero]
  rw [hvisits]
  rcases hreg with ⟨hreg, hvalue⟩ | ⟨x, r, rfl, hx, hreg⟩
  · constructor
    · rintro ⟨hlength, -⟩
      refine ⟨hlength, ?_⟩
      rintro x r rfl hx
      rw [lowerExpr, hx] at hreg
      cases hreg
    · intro hfine
      refine ⟨hfine.length, ?_⟩
      rw [hreg, hvalue]
      exact holds_const hfine.length (nil_append _).symm L w'
  · rw [hreg]
    constructor
    · rintro ⟨hlength, hholds⟩
      refine ⟨hlength, ?_⟩
      intro y r' hy hr'
      obtain rfl := Expr.name.inj hy
      obtain rfl := Option.some.inj (hx.symm.trans hr')
      exact hholds
    · exact fun hfine => ⟨hfine.length, hfine.holds x r rfl hx⟩

end Leviathan.Ir.ForIn
