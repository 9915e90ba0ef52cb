import Leviathan.Ir.OwnershipFlow

/-!
# The rounds of the ownership analysis

`Within mod before n f x` says that the fact `x` about the parameters of `f` follows in `n`
rounds: from facts about the functions that are analysed `before` it in the same round, and from
facts of the round before about the others.  A module's facts may need any number of rounds, one
for each call that leads to a later function; `analyzeOwnership` makes 32.

`before` is `<`, or `≤` where a function that calls itself may see in one round what it finds
about itself.  The summaries of `n` rounds hold all that follows in `n` rounds with `<`, and
nothing that does not follow in `n` rounds with `≤`; for a module in which no function calls
itself the two are the same.
-/

namespace Leviathan.Ir

/-- A fact about the parameters of a function. -/
inductive Fact where
  | escapes (p : Nat)
  | returns (p : Nat)
deriving DecidableEq, Repr

/-- An oracle has a fact about a function. -/
def Oracle.has (O : Oracle) (g : Nat) : Fact → Prop
  | .escapes p => O.escapes g p
  | .returns p => O.returns g p

/-- The oracle of some facts. -/
def oracleOfFacts (has : Nat → Fact → Prop) : Oracle :=
  ⟨fun g p => has g (.escapes p), fun g p => has g (.returns p)⟩

/-- A fact follows from the code of a function, with what is known about its callees. -/
def Derives (mod : IrModule) (f : Nat) (O : Oracle) : Fact → Prop
  | .escapes p => Escapes mod f O p
  | .returns p => Returns mod f O p

/-- A fact follows in some rounds. -/
inductive Within (mod : IrModule) (before : Nat → Nat → Prop) : Nat → Nat → Fact → Prop where
  | step {n f : Nat} {x : Fact} (O : Oracle)
      (now : ∀ g y, before g f → O.has g y → Within mod before (n + 1) g y)
      (earlier : ∀ g y, ¬before g f → O.has g y → Within mod before n g y)
      (derives : Derives mod f O x) : Within mod before (n + 1) f x

/-- Running `analyzeFn` again on every function changes no summary. -/
def IsFixpoint (mod : IrModule) (sums : Nat → Summary) : Prop :=
  ∀ fi < mod.functions.length, ∀ esc, (analyzeFn mod fi sums esc).sums = sums

/-- No call of a function names the function itself. -/
def CallsOthers (mod : IrModule) : Prop :=
  ∀ fi, ∀ i ∈ (mod.function fi).code, (i.op = .Call → i.b ≠ fi) ∧ mod.callee i ≠ some fi

section Within

variable {mod : IrModule} {before : Nat → Nat → Prop} {n f : Nat} {x : Fact} {O O' : Oracle}

theorem oracle_le_iff : O.le O' ↔ ∀ g y, O.has g y → O'.has g y := by
  constructor
  · intro h g y hy
    cases y with
    | escapes p => exact h.1 g p hy
    | returns p => exact h.2 g p hy
  · intro h
    exact ⟨fun g p => h g (.escapes p), fun g p => h g (.returns p)⟩

theorem oracleOfFacts_has {has : Nat → Fact → Prop} (g : Nat) (y : Fact) :
    (oracleOfFacts has).has g y ↔ has g y := by
  cases y <;> exact Iff.rfl

theorem Derives.mono (h : Derives mod f O x) (hO : O.le O') : Derives mod f O' x := by
  cases x with
  | escapes p => exact Escapes.mono h hO
  | returns p => exact Returns.mono h hO

theorem absorbing_iff : Absorbing mod f O ↔ ∀ y, Derives mod f O y → O.has f y := by
  constructor
  · intro h y hy
    cases y with
    | escapes p => exact h.escapes p hy
    | returns p => exact h.returns p hy
  · intro h
    exact ⟨fun p => h (.escapes p), fun p => h (.returns p)⟩

/-- A function outside the module has no parameters. -/
theorem Derives.lt (h : Derives mod f O x) : f < mod.functions.length := by
  by_contra hge
  have hnone : mod.functions[f]? = none := List.getElem?_eq_none (Nat.le_of_not_lt hge)
  have hnparams : (mod.function f).nparams = 0 := by
    rw [IrModule.function, hnone]
    rfl
  cases x with
  | escapes p =>
    have hp := h.1
    omega
  | returns p =>
    have hp := h.1
    omega

/-- What follows in some rounds follows in more. -/
theorem Within.succ (h : Within mod before n f x) : Within mod before (n + 1) f x := by
  induction h with
  | step O _ _ hderives ihnow ihearlier => exact .step O ihnow ihearlier hderives

/-- Everything that follows is in an oracle that is closed for every function. -/
theorem Within.has (h : Within mod before n f x) (hO : ∀ g, Absorbing mod g O) : O.has f x := by
  induction h with
  | @step _ f x O' _ _ hderives ihnow ihearlier =>
    refine absorbing_iff.mp (hO f) x (hderives.mono (oracle_le_iff.mpr fun g y hy => ?_))
    by_cases hg : before g f
    · exact ihnow g y hg hy
    · exact ihearlier g y hg hy

end Within

variable {sums : Nat → Summary}

section Rounds

variable {mod : IrModule} {n : Nat}

/-- The summaries after the first `k` functions of a round. -/
def partRound (mod : IrModule) (sums : Nat → Summary) (k : Nat) : Nat → Summary :=
  ((List.range k).foldl (Analyzer.visit mod) ({ summaries := sums }, false)).1.summaries

/-- The summaries after some rounds. -/
def sumsAfter (mod : IrModule) : Nat → Nat → Summary
  | 0 => fun _ => {}
  | n + 1 => partRound mod (sumsAfter mod n) mod.functions.length

theorem visit_summaries (acc acc' : Analyzer × Bool) (fi : Nat)
    (h : acc.1.summaries = acc'.1.summaries) :
    (Analyzer.visit mod acc fi).1.summaries = (Analyzer.visit mod acc' fi).1.summaries := by
  simp only [Analyzer.visit, h]

/-- The summaries do not depend on the rest of the analyzer. -/
theorem foldl_visit_summaries (l : List Nat) (acc acc' : Analyzer × Bool)
    (h : acc.1.summaries = acc'.1.summaries) :
    (l.foldl (Analyzer.visit mod) acc).1.summaries =
      (l.foldl (Analyzer.visit mod) acc').1.summaries := by
  induction l generalizing acc acc' with
  | nil => exact h
  | cons fi rest ih => exact ih _ _ (visit_summaries acc acc' fi h)

theorem round_summaries (a : Analyzer) :
    (a.round mod).1.summaries = partRound mod a.summaries mod.functions.length :=
  foldl_visit_summaries _ _ _ rfl

theorem partRound_succ (mod : IrModule) (sums : Nat → Summary) (k : Nat) :
    ∃ esc, partRound mod sums (k + 1) = (analyzeFn mod k (partRound mod sums k) esc).sums := by
  refine ⟨fun _ => none, ?_⟩
  rw [partRound, List.range_succ, List.foldl_append]
  rfl

/-- **A round keeps what it starts from**, and leaves the functions it has not reached. -/
theorem partRound_spec (sums : Nat → Summary) (k : Nat) :
    (oracleOf sums).le (oracleOf (partRound mod sums k)) ∧
    ∀ g, k ≤ g → partRound mod sums k g = sums g := by
  induction k with
  | zero => exact ⟨⟨fun _ _ h => h, fun _ _ h => h⟩, fun _ _ => rfl⟩
  | succ k ih =>
    obtain ⟨esc, hsucc⟩ := partRound_succ mod sums k
    have hspec := analyzeFn_spec mod k (partRound mod sums k) esc
    rw [hsucc]
    refine ⟨⟨fun g p h => hspec.oracle.1 g p (ih.1.1 g p h),
      fun g p h => hspec.oracle.2 g p (ih.1.2 g p h)⟩, fun g hg => ?_⟩
    rw [hspec.others g (by omega), ih.2 g (by omega)]

/-- A round keeps what its first functions found. -/
theorem partRound_mono (sums : Nat → Summary) {k m : Nat} (hkm : k ≤ m) :
    (oracleOf (partRound mod sums k)).le (oracleOf (partRound mod sums m)) := by
  induction m, hkm using Nat.le_induction with
  | base => exact ⟨fun _ _ h => h, fun _ _ h => h⟩
  | succ m _ ih =>
    obtain ⟨esc, hsucc⟩ := partRound_succ mod sums m
    have hspec := analyzeFn_spec mod m (partRound mod sums m) esc
    rw [hsucc]
    exact ⟨fun g p h => hspec.oracle.1 g p (ih.1 g p h),
      fun g p h => hspec.oracle.2 g p (ih.2 g p h)⟩

/-- A round does not come back to a function. -/
theorem partRound_settled (sums : Nat → Summary) {g k m : Nat} (hgk : g < k) (hkm : k ≤ m) :
    partRound mod sums m g = partRound mod sums k g := by
  induction m, hkm using Nat.le_induction with
  | base => rfl
  | succ m hm ih =>
    obtain ⟨esc, hsucc⟩ := partRound_succ mod sums m
    rw [hsucc, (analyzeFn_spec mod m (partRound mod sums m) esc).others g (by omega), ih]

theorem oracleOf_has_congr {sums' : Nat → Summary} {g : Nat} (h : sums g = sums' g) (y : Fact) :
    (oracleOf sums).has g y ↔ (oracleOf sums').has g y := by
  cases y with
  | escapes p =>
    show p ∈ (sums g).paramEscapes ↔ p ∈ (sums' g).paramEscapes
    rw [h]
  | returns p =>
    show p ∈ (sums g).paramToRet ↔ p ∈ (sums' g).paramToRet
    rw [h]

/-- **What follows in some rounds is found in them.** -/
theorem sumsAfter_complete {f : Nat} {x : Fact} (h : Within mod (· < ·) n f x) :
    (oracleOf (sumsAfter mod n)).has f x := by
  induction h with
  | @step n f x O _ _ hderives ihnow ihearlier =>
    have hf := hderives.lt
    obtain ⟨esc, hsucc⟩ := partRound_succ mod (sumsAfter mod n) f
    have hspec := analyzeFn_spec mod f (partRound mod (sumsAfter mod n) f) esc
    have hO : O.le (oracleOf (partRound mod (sumsAfter mod n) f)) := by
      refine oracle_le_iff.mpr fun g y hy => ?_
      by_cases hg : g < f
      · exact (oracleOf_has_congr (partRound_settled _ hg hf.le) y).mp (ihnow g y hg hy)
      · exact oracle_le_iff.mp (partRound_spec _ f).1 g y (ihearlier g y hg hy)
    have hfound : (oracleOf (partRound mod (sumsAfter mod n) (f + 1))).has f x := by
      rw [hsucc]
      have hderives' := hderives.mono hO
      cases x with
      | escapes p => exact hspec.escapes p hderives'
      | returns p => exact hspec.returns p hderives'
    exact oracle_le_iff.mp (partRound_mono _ hf) f x hfound

/-- **No round finds what an oracle that is closed for every function does not have.** -/
theorem sumsAfter_sound (mod : IrModule) {O : Oracle} (hO : ∀ g, Absorbing mod g O) (n : Nat) :
    (oracleOf (sumsAfter mod n)).le O := by
  induction n with
  | zero => exact ⟨fun g p h => absurd h (Finset.notMem_empty p),
      fun g p h => absurd h (Finset.notMem_empty p)⟩
  | succ n ih =>
    have hpart : ∀ k, (oracleOf (partRound mod (sumsAfter mod n) k)).le O := by
      intro k
      induction k with
      | zero => exact ih
      | succ k ihk =>
        obtain ⟨esc, hsucc⟩ := partRound_succ mod (sumsAfter mod n) k
        rw [hsucc]
        exact (analyzeFn_spec mod k _ esc).sound O ihk (hO k)
    exact hpart mod.functions.length

/-- **What some rounds find follows in them**, when a function may see what it finds about
itself. -/
theorem sumsAfter_within (n : Nat) {f : Nat} {x : Fact} (h : (oracleOf (sumsAfter mod n)).has f x) :
    Within mod (· ≤ ·) n f x := by
  induction n generalizing f x with
  | zero =>
    cases x with
    | escapes p => exact absurd h (Finset.notMem_empty p)
    | returns p => exact absurd h (Finset.notMem_empty p)
  | succ n ih =>
    have hpart : ∀ k, ∀ g y, (oracleOf (partRound mod (sumsAfter mod n) k)).has g y →
        (g < k → Within mod (· ≤ ·) (n + 1) g y) ∧ (¬g < k → Within mod (· ≤ ·) n g y) := by
      intro k
      induction k with
      | zero => exact fun g y hy => ⟨fun hg => absurd hg (Nat.not_lt_zero g), fun _ => ih hy⟩
      | succ k ihk =>
        intro g y hy
        obtain ⟨esc, hsucc⟩ := partRound_succ mod (sumsAfter mod n) k
        rw [hsucc] at hy
        obtain ⟨O, hOdef⟩ : ∃ O, O = oracleOfFacts fun g y =>
          (g ≤ k → Within mod (· ≤ ·) (n + 1) g y) ∧ (¬g ≤ k → Within mod (· ≤ ·) n g y) :=
          ⟨_, rfl⟩
        have hhas : ∀ g y, O.has g y ↔ (g ≤ k → Within mod (· ≤ ·) (n + 1) g y) ∧
            (¬g ≤ k → Within mod (· ≤ ·) n g y) := by
          intro g y
          rw [hOdef, oracleOfFacts_has]
        have hle : (oracleOf (partRound mod (sumsAfter mod n) k)).le O := by
          refine oracle_le_iff.mpr fun g y hy => (hhas g y).mpr ⟨fun hg => ?_, fun hg => ?_⟩
          · by_cases hgk : g < k
            · exact (ihk g y hy).1 hgk
            · exact ((ihk g y hy).2 hgk).succ
          · exact (ihk g y hy).2 (by omega)
        have habsorbs : Absorbing mod k O := by
          refine absorbing_iff.mpr fun y hy => (hhas k y).mpr ⟨fun _ => ?_, fun hk => ?_⟩
          · exact .step O (fun g y hg hy => ((hhas g y).mp hy).1 hg)
              (fun g y hg hy => ((hhas g y).mp hy).2 hg) hy
          · exact absurd (Nat.le_refl k) hk
        have hresult := (analyzeFn_spec mod k _ esc).sound O hle habsorbs
        have hfound := (hhas g y).mp (oracle_le_iff.mp hresult g y hy)
        exact ⟨fun hg => hfound.1 (by omega), fun hg => hfound.2 (by omega)⟩
    obtain ⟨hin, hout⟩ := hpart mod.functions.length f x h
    by_cases hf : f < mod.functions.length
    · exact hin hf
    · exact (hout hf).succ

theorem sums_eq_of_le {sums' : Nat → Summary} (h : (oracleOf sums).le (oracleOf sums'))
    (h' : (oracleOf sums').le (oracleOf sums)) : sums = sums' := by
  funext g
  have hesc : (sums g).paramEscapes = (sums' g).paramEscapes :=
    Finset.Subset.antisymm (fun p hp => h.1 g p hp) fun p hp => h'.1 g p hp
  have hret : (sums g).paramToRet = (sums' g).paramToRet :=
    Finset.Subset.antisymm (fun p hp => h.2 g p hp) fun p hp => h'.2 g p hp
  cases hs : sums g
  cases hs' : sums' g
  rw [hs, hs'] at hesc hret
  rw [Summary.mk.injEq]
  exact ⟨hesc, hret⟩

/-- A round that reports no change changes nothing. -/
theorem foldl_visit_flag (l : List Nat) (acc : Analyzer × Bool)
    (h : (l.foldl (Analyzer.visit mod) acc).2 = false) :
    acc.2 = false ∧ (l.foldl (Analyzer.visit mod) acc).1.summaries = acc.1.summaries := by
  induction l generalizing acc with
  | nil => exact ⟨h, rfl⟩
  | cons fi rest ih =>
    rw [List.foldl_cons] at h ⊢
    obtain ⟨hflag, hsums⟩ := ih _ h
    simp only [Analyzer.visit, Bool.or_eq_false_iff] at hflag
    refine ⟨hflag.1, hsums.trans ?_⟩
    exact (analyzeFn_spec mod fi acc.1.summaries fun _ => none).flag hflag.2

theorem sumsAfter_stable (h : sumsAfter mod (n + 1) = sumsAfter mod n) (m : Nat) :
    sumsAfter mod (n + m) = sumsAfter mod n := by
  induction m with
  | zero => rfl
  | succ m ih =>
    show partRound mod (sumsAfter mod (n + m)) mod.functions.length = _
    rw [ih]
    exact h

/-- The loop of `analyzeOwnership` stops early only when nothing changes any more. -/
theorem run_summaries (mod : IrModule) {n : Nat} (rounds : Nat) (a : Analyzer) (h : a.summaries = sumsAfter mod n) :
    (Analyzer.run mod rounds a).summaries = sumsAfter mod (n + rounds) := by
  induction rounds generalizing n a with
  | zero => exact h
  | succ rounds ih =>
    have hround : (a.round mod).1.summaries = sumsAfter mod (n + 1) := by
      rw [round_summaries, h]
      rfl
    rw [Analyzer.run]
    simp only
    by_cases hchanged : (a.round mod).2 = true
    · rw [if_pos hchanged, ih _ hround, Nat.add_right_comm]
      rfl
    · rw [if_neg hchanged, hround]
      have hsame := (foldl_visit_flag _ _ (Bool.eq_false_iff.mpr hchanged)).2
      have hstable : sumsAfter mod (n + 1) = sumsAfter mod n :=
        hround.symm.trans (hsame.trans h)
      exact hstable.trans (sumsAfter_stable hstable (rounds + 1)).symm

theorem analyzed_summaries (mod : IrModule) :
    (analyzed mod).summaries = sumsAfter mod maxRounds := by
  have h := run_summaries mod (n := 0) maxRounds {} rfl
  rw [Nat.zero_add] at h
  exact h

end Rounds

section Fixpoint

variable {mod : IrModule}

/-- A fixpoint is closed for every function. -/
theorem IsFixpoint.absorbing (h : IsFixpoint mod sums) (g : Nat) :
    Absorbing mod g (oracleOf sums) := by
  refine absorbing_iff.mpr fun y hy => ?_
  have hspec := analyzeFn_spec mod g sums fun _ => none
  rw [← h g hy.lt fun _ => none]
  cases y with
  | escapes p => exact hspec.escapes p hy
  | returns p => exact hspec.returns p hy

/-- Summaries that are closed for every function are a fixpoint. -/
theorem isFixpoint_of_absorbing (h : ∀ g, Absorbing mod g (oracleOf sums)) :
    IsFixpoint mod sums := by
  intro fi _ esc
  have hspec := analyzeFn_spec mod fi sums esc
  exact sums_eq_of_le (hspec.sound _ ⟨fun _ _ h => h, fun _ _ h => h⟩ (h fi)) hspec.oracle

/-- **Few rounds are enough when nothing needs more.** -/
theorem isFixpoint_of_within
    (h : ∀ n f x, Within mod (· < ·) n f x → Within mod (· < ·) maxRounds f x) :
    IsFixpoint mod (analyzed mod).summaries := by
  rw [analyzed_summaries]
  refine isFixpoint_of_absorbing fun f => absorbing_iff.mpr fun x hx => ?_
  obtain ⟨O, hOdef⟩ : ∃ O, O = oracleOfFacts (Within mod (· < ·) maxRounds) := ⟨_, rfl⟩
  have hhas : ∀ g y, O.has g y ↔ Within mod (· < ·) maxRounds g y := by
    intro g y
    rw [hOdef, oracleOfFacts_has]
  have hderived : ∀ g y, Derives mod g O y → Within mod (· < ·) maxRounds g y := by
    intro g y hy
    refine h (maxRounds + 1) g y (.step O (fun g' y' _ hy' => ?_) (fun g' y' _ hy' => ?_) hy)
    · exact ((hhas g' y').mp hy').succ
    · exact (hhas g' y').mp hy'
  have hsound := sumsAfter_sound mod
    (fun g => absorbing_iff.mpr fun y hy => (hhas g y).mpr (hderived g y hy)) maxRounds
  exact sumsAfter_complete (hderived f x (hx.mono hsound))

variable {n f : Nat} {x : Fact}

/-- **A fixpoint after few rounds means that nothing needs more.** -/
theorem within_of_isFixpoint (h : IsFixpoint mod (analyzed mod).summaries)
    (hx : Within mod (· ≤ ·) n f x) : Within mod (· ≤ ·) maxRounds f x := by
  refine sumsAfter_within maxRounds ?_
  rw [← analyzed_summaries]
  exact hx.has h.absorbing

variable {O : Oracle}

/-- What is known about the function itself does not matter when it does not call itself. -/
theorem Flows.others {O' : Oracle} {R : Nat → Set Int} {pc : Nat} {i : Inst} {id : Int}
    (hcall : i.op = .Call → i.b ≠ f) (hdyn : mod.callee i ≠ some f)
    (hO : ∀ g, g ≠ f → ∀ k, O.returns g k → O'.returns g k) (h : Flows mod f O R pc i id) :
    Flows mod f O' R pc i id := by
  unfold Flows at h ⊢
  split at h
  · next halloc =>
      rw [if_pos halloc]
      exact h
  · next halloc =>
      rw [if_neg halloc]
      split at h
      · exact h
      · exact h
      · exact h
      · exact h
      · next hop =>
          obtain ⟨k, hk, hret, hid⟩ := h
          exact ⟨k, hk, hO _ (hcall hop) k hret, hid⟩
      · split at h
        · next callee hcallee =>
            obtain ⟨k, hk, hret, hid⟩ := h
            refine ⟨k, hk, hO callee (fun heq => hdyn ?_) k hret, hid⟩
            rw [hcallee, heq]
        · exact h
      · exact h

theorem Sinks.others {O' : Oracle} {R : Nat → Set Int} {i : Inst} {id : Int}
    (hcall : i.op = .Call → i.b ≠ f) (hdyn : mod.callee i ≠ some f)
    (hO : ∀ g, g ≠ f → ∀ k, O.escapes g k → O'.escapes g k) (h : Sinks mod O R i id) :
    Sinks mod O' R i id := by
  unfold Sinks at h ⊢
  split at h
  · exact h
  · exact h
  · exact h
  · exact h
  · exact h
  · exact h
  · exact h
  · exact h
  · next hop =>
      obtain ⟨k, hk, hesc, hid⟩ := h
      exact ⟨k, hk, hO _ (hcall hop) k hesc, hid⟩
  · split at h
    · next callee hcallee =>
        obtain ⟨k, hk, hesc, hid⟩ := h
        refine ⟨k, hk, hO callee (fun heq => hdyn ?_) k hesc, hid⟩
        rw [hcallee, heq]
    · exact h
  · split at h
    · exact h
    · split at h
      · next callee hcallee =>
          have hne : callee ≠ f := by
            intro heq
            refine hdyn ?_
            rw [hcallee, heq]
          exact h.imp (fun hb => ⟨hO _ hne 0 hb.1, hb.2⟩) fun hc => ⟨hO _ hne 1 hc.1, hc.2⟩
      · exact h
  · exact h

/-- What an oracle knows about the other functions. -/
def Oracle.without (O : Oracle) (f : Nat) : Oracle :=
  ⟨fun g k => g ≠ f ∧ O.escapes g k, fun g k => g ≠ f ∧ O.returns g k⟩

theorem Derives.others (hmod : CallsOthers mod) (h : Derives mod f O x) :
    Derives mod f (O.without f) x := by
  have halias : ∀ r, Alias mod f O r ⊆ Alias mod f (O.without f) r := by
    intro r id hid R hR
    refine hid R ⟨hR.entry, fun pc i hi id hflow => hR.flow pc i hi id ?_⟩
    obtain ⟨hcall, hdyn⟩ := hmod f i (List.mem_of_getElem? hi)
    exact hflow.others hcall hdyn fun g hg k hk => ⟨hg, hk⟩
  cases x with
  | escapes p =>
    obtain ⟨hp, i, hi, hsink⟩ := h
    obtain ⟨hcall, hdyn⟩ := hmod f i hi
    refine ⟨hp, i, hi, (hsink.mono ⟨fun _ _ h => h, fun _ _ h => h⟩ halias).others hcall hdyn ?_⟩
    exact fun g hg k hk => ⟨hg, hk⟩
  | returns p =>
    obtain ⟨hp, i, hi, hop, hid⟩ := h
    exact ⟨hp, i, hi, hop, halias _ hid⟩

/-- A function that does not call itself needs no facts about itself. -/
theorem within_lt_of_le (hmod : CallsOthers mod) (h : Within mod (· ≤ ·) n f x) :
    Within mod (· < ·) n f x := by
  induction h with
  | @step n f x O _ _ hderives ihnow ihearlier =>
    have hsplit : ∀ g y, (O.without f).has g y → g ≠ f ∧ O.has g y := by
      intro g y hy
      cases y with
      | escapes p => exact hy
      | returns p => exact hy
    refine .step (O.without f) (fun g y hg hy => ?_) (fun g y hg hy => ?_)
      (hderives.others hmod)
    · exact ihnow g y (Nat.le_of_lt hg) (hsplit g y hy).2
    · obtain ⟨hne, hhas⟩ := hsplit g y hy
      refine ihearlier g y (fun hle => hg ?_) hhas
      exact Nat.lt_of_le_of_ne hle hne

theorem within_le_of_lt (h : Within mod (· < ·) n f x) : Within mod (· ≤ ·) n f x := by
  induction h with
  | @step n f x O _ _ hderives ihnow ihearlier =>
    refine .step O (fun g y hg hy => ?_) (fun g y hg hy => ?_) hderives
    · by_cases hlt : g < f
      · exact ihnow g y hlt hy
      · exact (ihearlier g y hlt hy).succ
    · exact ihearlier g y (fun hlt => hg (Nat.le_of_lt hlt)) hy

end Fixpoint

variable {N : Nat}

section Chain

/-- A function that passes its parameter to the next one; the last one stores it in an object. -/
def chainFunction (N f : Nat) : IrFunction :=
  { nparams := 1, nregs := 2,
    code := [if f + 1 < N then { op := .Call, a := 1, b := f + 1, c := 0, d := 1 }
      else { op := .RawSet, a := 0, b := 0, sname := "kept".toList }, { op := .RetVoid }] }

/-- `N` functions, each of which calls the next. -/
def chain (N : Nat) : IrModule := { functions := (List.range N).map (chainFunction N) }

variable {f : Nat}

theorem chain_function (hf : f < N) : (chain N).function f = chainFunction N f := by
  rw [IrModule.function, chain, List.getElem?_map, List.getElem?_range hf]
  rfl

/-- Register 0 holds the parameter. -/
theorem chain_alias (hf : f < N) (O : Oracle) : paramId 0 ∈ Alias (chain N) f O 0 := by
  intro R hR
  refine hR.entry 0 _ ?_
  rw [chain_function hf]
  exact Finset.mem_singleton_self _

/-- The parameter of the function that is `j` calls before the last escapes in `j + 1` rounds. -/
theorem chain_within (j : Nat) (hf : f + j + 1 = N) :
    Within (chain N) (· ≤ ·) (j + 1) f (.escapes 0) := by
  induction j generalizing f with
  | zero =>
    refine .step (oracleOfFacts fun _ _ => False) (fun g y _ hy => ?_) (fun g y _ hy => ?_) ?_
    · exact absurd hy fun h => (oracleOfFacts_has g y).mp h
    · exact absurd hy fun h => (oracleOfFacts_has g y).mp h
    · have hlt : f < N := by omega
      refine ⟨?_, { op := .RawSet, a := 0, b := 0, sname := "kept".toList }, ?_,
        chain_alias hlt _⟩
      · rw [chain_function hlt]
        exact Nat.zero_lt_one
      · rw [chain_function hlt, chainFunction, if_neg (by omega)]
        exact List.mem_cons_self
  | succ j ih =>
    have hlt : f < N := by omega
    refine .step (oracleOfFacts fun g y => g = f + 1 ∧ y = .escapes 0) (fun g y hg hy => ?_)
      (fun g y _ hy => ?_) ?_
    · obtain ⟨hgf, _⟩ := (oracleOfFacts_has g y).mp hy
      omega
    · obtain ⟨hgf, hy0⟩ := (oracleOfFacts_has g y).mp hy
      rw [hgf, hy0]
      exact ih (by omega)
    · refine ⟨?_, { op := .Call, a := 1, b := f + 1, c := 0, d := 1 }, ?_,
        0, Nat.zero_lt_one, ⟨rfl, rfl⟩, chain_alias hlt _⟩
      · rw [chain_function hlt]
        exact Nat.zero_lt_one
      · rw [chain_function hlt, chainFunction, if_pos (by omega)]
        exact List.mem_cons_self

/-- **A function of the chain needs as many rounds as functions follow it.** -/
theorem chain_rounds {n : Nat} {x : Fact} (h : Within (chain N) (· ≤ ·) n f x) : N ≤ n + f := by
  induction h with
  | @step n f x O _ _ hderives _ ihearlier =>
    have hlt : f < N := by
      have hlt := hderives.lt
      rwa [chain, List.length_map, List.length_range] at hlt
    by_cases hlast : f + 1 < N
    · cases x with
      | escapes p =>
        obtain ⟨_, i, hi, hsink⟩ := hderives
        rw [chain_function hlt, chainFunction, if_pos hlast] at hi
        obtain hcall | hret := List.mem_pair.mp hi
        · rw [hcall] at hsink
          obtain ⟨k, _, hesc, _⟩ := hsink
          have hnext := ihearlier (f + 1) (.escapes k) (by omega) hesc
          omega
        · rw [hret] at hsink
          exact hsink.elim
      | returns p =>
        obtain ⟨_, i, hi, hop, _⟩ := hderives
        rw [chain_function hlt, chainFunction, if_pos hlast] at hi
        obtain hcall | hret := List.mem_pair.mp hi
        · rw [hcall] at hop
          cases hop
        · rw [hret] at hop
          cases hop
    · omega

/-- **The summaries of a chain of more than 32 functions are not a fixpoint.** -/
theorem chain_not_fixpoint (hN : maxRounds < N) :
    ¬IsFixpoint (chain N) (analyzed (chain N)).summaries := by
  intro h
  have hwithin := within_of_isFixpoint h (chain_within (N - 1) (f := 0) (by omega))
  have hrounds := chain_rounds hwithin
  omega

end Chain

end Leviathan.Ir
