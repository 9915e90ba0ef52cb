import Leviathan.Ir.ForInTurns

/-!
# A loop visits a snapshot

The evaluator goes through the value it has computed, and only a range up to the largest number keeps
it going for ever.  The lowered program reads the loop variable, and an iterated local, again at each
turn: what the body does to them counts.

**Main result** (`visits_snapshot_iff`): both engines visit the elements that were there at the
start, and end, exactly if the largest number is not in the range and the lowered loop counts, or
reads, undisturbed.
-/

namespace Leviathan.Ir.ForIn

open Leviathan

variable {U ω : Type} {s : Stmt U ω}

/-! ### The evaluator -/

theorem localLookup_bind (name : Str) (v : Val U) (env : Env U) :
    localLookup (bind name v env) name = v := by
  cases env <;> simp [localLookup, bind]

/-- A turn of a loop over a range. -/
theorem rangeLoop_turn {hi k : Int64} (h : k ≤ hi) (n : Nat) (env : Env U) (w : ω)
    (visits : List (Val U)) :
    rangeLoop s hi (n + 1) k env w visits =
      rangeLoop s hi n (k + 1) (s.exec (bind s.name (.int k) env) w).1
        (s.exec (bind s.name (.int k) env) w).2 (visits ++ [.int k]) := by
  have hbind := localLookup_bind s.name (.int k) env
  simp only [rangeLoop, if_pos h, hbind]

/-- A loop over a range ends above the upper bound. -/
theorem rangeLoop_end {hi k : Int64} (h : hi < k) (n : Nat) (env : Env U) (w : ω)
    (visits : List (Val U)) : rangeLoop s hi (n + 1) k env w visits = some visits := by
  rw [rangeLoop, if_neg (Int64.not_le.mpr h)]

/-- A loop over a range visits it, and ends if the largest number is not in it. -/
theorem rangeLoop_settles {lo hi : Int64} (hmax : hi ≠ Int64.maxValue) (hle : lo ≤ hi) (env : Env U)
    (w : ω) (visits : List (Val U)) :
    Settles (fun n => rangeLoop s hi n lo env w visits) (visits ++ rangeElems lo hi) := by
  induction hle using range_induction generalizing env w visits with
  | last =>
    have habove : hi < hi + 1 := by
      have hlt : hi < Int64.maxValue := (Int64.lt_or_eq_of_le (le_maxValue hi)).resolve_right hmax
      rw [Int64.lt_iff_toInt_lt, toInt_succ hlt]
      exact Int.lt_succ _
    refine Settles.shift 2 (Settles.pure (visits ++ rangeElems hi hi)) ?_
    intro n
    rw [rangeLoop_turn (Int64.le_refl hi), rangeLoop_end habove, rangeElems_self]
  | next lo hlt hle ih =>
    rw [rangeElems_cons hlt, List.append_cons]
    exact Settles.succ (ih _ _ _) fun n => rangeLoop_turn (Int64.le_of_lt hlt) n env w visits

/-- A loop up to the largest number does not end. -/
theorem rangeLoop_maxValue (n : Nat) (k : Int64) (env : Env U) (w : ω) (visits : List (Val U)) :
    rangeLoop s Int64.maxValue n k env w visits = none := by
  induction n generalizing k env w visits with
  | zero => rfl
  | succ n ih => rw [rangeLoop_turn (le_maxValue k), ih]

/-- A loop over an array visits its elements. -/
theorem arrayLoop_eq (xs : List (Val U)) (env : Env U) (w : ω) (visits : List (Val U)) :
    arrayLoop s xs env w visits = visits ++ xs := by
  induction xs generalizing env w visits with
  | nil => exact (List.append_nil visits).symm
  | cons x xs ih => simp only [arrayLoop, ih, localLookup_bind, List.append_assoc, List.singleton_append]

/-- What a loop visits in the evaluator. -/
theorem evalVisits_iff (env : Env U) (w : ω) :
    EvalVisits s env w (elems (evalIterable env w s.iterable).1) ↔
      EvalFine (evalIterable env w s.iterable).1 := by
  generalize hiter : evalIterable env w s.iterable = iter
  obtain ⟨v, w'⟩ := iter
  cases v with
  | range lo hi =>
    have heval : ∀ n, evalForIn s n env w = rangeLoop s hi n lo ((fun _ => none) :: env) w' [] := by
      intro n
      rw [evalForIn, hiter]
    rcases Int64.le_or_lt lo hi with hle | hlt
    · constructor
      · rintro ⟨N, hN⟩ lo hi ⟨⟩ - rfl
        have hnone := (heval N).symm.trans (hN N (Nat.le_refl N))
        rw [rangeLoop_maxValue] at hnone
        cases hnone
      · intro hfine
        obtain ⟨N, hN⟩ := rangeLoop_settles (s := s) (hfine lo hi rfl hle) hle
          ((fun _ => none) :: env) w' []
        exact ⟨N, fun n hn => (heval n).trans (hN n hn)⟩
    · refine iff_of_true (Settles.succ (Settles.pure _) ?_) ?_
      · intro n
        rw [heval, rangeLoop_end hlt, elems, rangeElems_eq_nil hlt]
      · rintro lo hi ⟨⟩ hle
        exact absurd hle (Int64.not_le.mpr hlt)
  | array xs =>
    refine iff_of_true (Settles.of_forall ?_) fun _ _ h => by cases h
    intro n
    rw [evalForIn, hiter]
    exact congrArg some (arrayLoop_eq xs _ w' [])
  | _ =>
    refine iff_of_true (Settles.of_forall ?_) fun _ _ h => by cases h
    intro n
    rw [evalForIn, hiter]
    rfl

/-! ### Both engines -/

/-- What the code of a loop visits, if it starts where the evaluator does. -/
theorem runVisits_iff {env : Env U} {sc : Scopes} {locals : Locals U}
    (hsame : ∀ x, localLookup env x = values sc locals x) (elem : Nat) (w : ω) :
    RunVisits s sc elem locals w (elems (evalIterable env w s.iterable).1) ↔
      LoweredFine s sc elem locals w (evalIterable env w s.iterable).1 := by
  have hlookup : localLookup env = values sc locals := funext hsame
  cases hs : s.iterable with
  | expr e =>
    have hvalue : evalIterable env w (.expr e) = loweredValue sc locals w e := by
      cases e with
      | name x => exact congrArg (·, w) (hsame x)
      | other value => exact congrArg (value · w) hlookup
    rw [hvalue, runVisits_expr hs, LoweredFine, hs]
  | range lo hi =>
    generalize hiter : (evalIterable env w (.range lo hi)).1 = iter
    obtain ⟨a, b, rfl⟩ : ∃ a b, iter = .range a b := ⟨_, _, hiter.symm⟩
    rw [runVisits_range hs, LoweredFine, hs, elems]
    rcases Int64.le_or_lt a b with hle | hlt
    · rw [counted_rangeElems hle]
      constructor
      · rintro ⟨hlower, hupper, hkeeps⟩ _ _ ⟨⟩
        exact ⟨fun hlt => absurd hle (Int64.not_le.mpr hlt), fun _ => hlower, fun _ => hupper,
          fun _ => hkeeps⟩
      · intro hfine
        have hcounts := hfine a b rfl
        exact ⟨hcounts.lower hle, hcounts.upper hle, hcounts.keeps hle⟩
    · rw [rangeElems_eq_nil hlt, Counted, Function.update_self, Int64.not_le]
      constructor
      · rintro hempty _ _ ⟨⟩
        have hno : ¬a ≤ b := Int64.not_le.mpr hlt
        exact ⟨fun _ => hempty, fun h => absurd h hno, fun h => absurd h hno,
          fun h => absurd h hno⟩
      · exact fun hfine => (hfine a b rfl).empty hlt

/-- **Snapshots.**  Started with the same values of the names, both engines visit the elements of
what is iterated, and end, exactly if the largest number is not among them and the lowered loop is
not disturbed. -/
theorem visits_snapshot_iff (s : Stmt U ω) {env : Env U} {sc : Scopes} {locals : Locals U}
    (hsame : ∀ x, localLookup env x = values sc locals x) (elem : Nat) (w : ω) :
    EvalVisits s env w (elems (evalIterable env w s.iterable).1) ∧
        RunVisits s sc elem locals w (elems (evalIterable env w s.iterable).1) ↔
      EvalFine (evalIterable env w s.iterable).1 ∧
        LoweredFine s sc elem locals w (evalIterable env w s.iterable).1 :=
  and_congr (evalVisits_iff env w) (runVisits_iff hsame elem w)

/-! ### Two loops -/

/-- `for (int x in xs) {}`. -/
def walk : Stmt Empty Unit where
  name := "x".toList
  iterable := .expr (.name "xs".toList)
  exec env w := (env, w)
  code locals w := (locals, w)

/-- An array in a local is visited element by element. -/
theorem walk_visits :
    EvalVisits walk [fun x => if x = "xs".toList then some (.array [.int 5, .int 7]) else none] ()
        [.int 5, .int 7] ∧
      RunVisits walk (fun x => if x = "xs".toList then some 0 else none) 1
        (fun r => if r = 0 then .array [.int 5, .int 7] else .void) () [.int 5, .int 7] := by
  refine (visits_snapshot_iff walk (fun x => ?_) 1 ()).mpr ⟨nofun, by decide, ?_⟩
  · by_cases hx : x = "xs".toList
    · subst hx
      rfl
    · simp only [localLookup, values, List.findSome?, if_neg hx]
      rfl
  · intro x r hx hr
    obtain rfl := Expr.name.inj hx
    obtain rfl := Option.some.inj hr
    exact ⟨rfl, rfl, trivial⟩

/-- `for (int i in 0..3) { i = i + 1; }`. -/
def skipping : Stmt Empty Unit where
  name := "i".toList
  iterable := .range (.other fun _ w => (.int 0, w)) (.other fun _ w => (.int 3, w))
  exec env w := (bind "i".toList (.int ((localLookup env "i".toList).i + 1)) env, w)
  code locals w := (Function.update locals 0 (.int ((locals 0).i + 1)), w)

/-- **A body that steps the loop variable.**  The evaluator goes through the four numbers; the
lowered loop leaves out every other one. -/
theorem skipping_leaves_out :
    EvalVisits skipping [] () (rangeElems 0 3) ∧
      RunVisits skipping (fun _ => none) 0 (fun _ => .void) () [.int 0, .int 2] ∧
      ¬RunVisits skipping (fun _ => none) 0 (fun _ => .void) () (rangeElems 0 3) := by
  have hskips : RunVisits skipping (fun _ => none) 0 (fun _ => .void) () [.int 0, .int 2] :=
    (runVisits_range rfl _ _ _ _).mpr <| by
      simp [Counted, skipping, boundsInside, loweredValue, Val.i]
  refine ⟨(evalVisits_iff [] ()).mpr ?_, hskips, fun hall => ?_⟩
  · rintro lo hi ⟨⟩ -
    decide
  · have hlists := Settles.unique (hskips fun _ => .void) (hall fun _ => .void)
    have hlength := congrArg List.length hlists
    simp [rangeElems] at hlength

end Leviathan.Ir.ForIn
