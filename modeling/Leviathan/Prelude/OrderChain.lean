import Leviathan.Prelude.OrderedArray

/-!
# Chains of keys

A call of `thenBy` keeps the ranking of the elements by the keys so far and refines it by one key.
From one run to start with, a whole chain leaves the stable sort of the array by all its keys.
-/

namespace Leviathan.Prelude

open StableSort List

variable {α : Type}

/-! ### The loops of `thenBy` -/

theorem tagged_eq {o : OrderedArray α} (h : o.runId.length = o.items.length) :
    o.tagged = some (o.runId.zip o.items) := by
  refine @addEach_upTo _ _ 0 _ _ (by rw [length_zip, h, Nat.min_self, Nat.sub_zero])
    fun i hi => ?_
  have hi' : i < o.items.length := by
    rw [length_zip] at hi
    omega
  rw [elemAt_natCast, elemAt_natCast, Nat.zero_add, getElem?_eq_getElem (h ▸ hi'),
    getElem?_eq_getElem hi', getElem_zip]
  rfl

theorem foldlM_number {k : Key α} {sorted rest : List (Int × α)} {lo : Nat} {prev : Int × α}
    (h : sorted.drop lo = prev :: rest) (counter : Int) (ids : List Int) :
    ∃ last, ((List.range' (lo + 1) rest.length).map Nat.cast).foldlM (k.number sorted)
      (counter, ids) = some (last, ids ++ numbersAfter k.sameRun counter prev rest) := by
  induction rest generalizing lo prev counter ids with
  | nil => exact ⟨counter, by rw [numbersAfter, append_nil]; rfl⟩
  | cons cur rest ih =>
    have hcur : sorted.drop (lo + 1) = cur :: rest := by
      rw [← tail_drop, h, tail_cons]
    have hprev? : sorted[lo]? = some prev := by
      rw [← head?_drop, h, head?_cons]
    have hcur? : sorted[lo + 1]? = some cur := by
      rw [← head?_drop, hcur, head?_cons]
    let next := if k.sameRun prev cur then counter else counter + 1
    obtain ⟨last, hlast⟩ := ih hcur next (ids ++ [next])
    refine ⟨last, ?_⟩
    have hturn : k.number sorted (counter, ids) ((lo + 1 : Nat) : Int) =
        some (next, ids ++ [next]) := by
      have hpred : ((lo + 1 : Nat) : Int) - 1 = lo := by omega
      rw [Key.number, if_pos (by omega), hpred, elemAt_natCast, elemAt_natCast, hprev?, hcur?]
      rfl
    rw [length_cons, range'_succ, map_cons, foldlM_cons, hturn,
      numbersAfter]
    rw [append_assoc, singleton_append] at hlast
    exact hlast

theorem number_eq {k : Key α} (sorted : List (Int × α)) :
    ∃ last, (upTo 0 (sorted.length - 1)).foldlM (k.number sorted) (0, []) =
      some (last, numbers k.sameRun sorted) := by
  have hrange := upTo_natCast 0 sorted.length
  rw [Int.natCast_zero] at hrange
  rw [hrange]
  cases sorted with
  | nil => exact ⟨0, rfl⟩
  | cons first rest => exact @foldlM_number _ _ _ _ 0 _ rfl 0 [0]

/-! ### The ranking -/

/-- The items are the stable sort of `xs`, and the run ids rank them. -/
structure Ranked (le : α → α → Bool) (xs : List α) (o : OrderedArray α) : Prop where
  length : o.runId.length = o.items.length
  stable : IsStableSort le xs o.items
  rank : ∀ p ∈ o.runId.zip o.items, ∀ q ∈ o.runId.zip o.items, p.1 ≤ q.1 ↔ le p.2 q.2 = true

namespace Ranked

variable {le : α → α → Bool} {xs : List α} {o : OrderedArray α}

section
variable (h : Ranked le xs o)
include h

theorem map_snd : (o.runId.zip o.items).map Prod.snd = o.items :=
  map_snd_zip (le_of_eq h.length.symm)

/-- The comparison of the pairs is the finer order of their elements. -/
theorem notAfter_comparePairs {k : Key α} (hk : Orders k.le xs) :
    ∀ p ∈ o.runId.zip o.items, ∀ q ∈ o.runId.zip o.items,
      notAfter k.comparePairs p q = lex le k.le p.2 q.2 := by
  intro p hp q hq
  have hpq := h.rank p hp q hq
  have hqp := h.rank q hq p hp
  have hkey := notAfter_compareKeys hk p.2 (h.stable.mem_iff.mp (of_mem_zip hp).2) q.2
    (h.stable.mem_iff.mp (of_mem_zip hq).2)
  rw [Bool.eq_iff_iff, lex_iff, ← hpq, ← hqp, ← hkey]
  simp only [notAfter, Key.comparePairs, decide_eq_true_iff]
  split_ifs with hlt hgt
  · exact iff_of_true (by decide) ⟨by omega, fun hle => absurd hle (by omega)⟩
  · exact iff_of_false (by decide) fun hle => absurd hle.1 (by omega)
  · rw [decide_eq_true_iff]
    exact ⟨fun hcmp => ⟨by omega, fun _ => hcmp⟩, fun hcmp => hcmp.2 (by omega)⟩

/-- The test for one run, of pairs in order. -/
theorem sameRun_eq {k : Key α} :
    ∀ p ∈ o.runId.zip o.items, ∀ q ∈ o.runId.zip o.items,
      lex le k.le p.2 q.2 = true → k.sameRun p q = lex le k.le q.2 p.2 := by
  intro p hp q hq hle
  have hpq := h.rank p hp q hq
  have hqp := h.rank q hq p hp
  obtain ⟨hpq₁, hkey⟩ := lex_iff.mp hle
  rw [Bool.eq_iff_iff, lex_iff]
  simp only [Key.sameRun, Bool.and_eq_true, beq_iff_eq]
  constructor
  · rintro ⟨heq, hpq₂, hqp₂⟩
    exact ⟨hqp.mp (by omega), fun _ => hpq₂⟩
  · rintro ⟨hback, hkey'⟩
    have h₁ := hpq.mpr hpq₁
    have h₂ := hqp.mpr hback
    exact ⟨by omega, hkey' hpq₁, hkey hback⟩

/-- **A call of `thenBy`** refines the ranking. -/
theorem thenBy (ho : Orders le xs) {k : Key α} (hk : Orders k.le xs) :
    ∃ o', o.thenBy k = some o' ∧ Ranked (lex le k.le) xs o' := by
  have hfine : Orders (lex le k.le) o.items := (ho.lex hk).mono fun a ha => h.stable.mem_iff.mp ha
  have hpairs : Orders (fun p q : Int × α => lex le k.le p.2 q.2) (o.runId.zip o.items) := by
    rw [← h.map_snd] at hfine
    exact hfine.map
  have hcmp := h.notAfter_comparePairs hk
  obtain ⟨sorted, hsort, hstable⟩ := sort_isStableSort (le_refl _) (hpairs.congr hcmp)
  have hstable' := hstable.congr fun p hp q hq => (hcmp p hp q hq).symm
  obtain ⟨last, hnumber⟩ := number_eq (k := k) sorted
  refine ⟨⟨sorted.map Prod.snd, numbers k.sameRun sorted⟩, ?_, ?_, ?_, ?_⟩
  · rw [OrderedArray.thenBy, tagged_eq h.length, Option.bind_eq_bind, Option.bind_some, hsort,
      Option.bind_eq_bind, Option.bind_some, hnumber]
    rfl
  · exact (length_numbers sorted).trans (length_map _).symm
  · have hitems : IsStableSort (lex le k.le) _ (sorted.map Prod.snd) := .map hstable'
    rw [h.map_snd] at hitems
    exact h.stable.refine (fun a _ b _ htied => tied_of_tied_lex htied) hitems
  · have hmem : ∀ p ∈ sorted, p ∈ o.runId.zip o.items := fun p hp => hstable'.mem_iff.mp hp
    have hbefore := pairwise_numbers (hpairs.mono hmem) hstable'.sorted
      fun p hp q hq => h.sameRun_eq p (hmem p hp) q (hmem q hq)
    have hsnd : ((numbers k.sameRun sorted).zip sorted).map Prod.snd = sorted :=
      map_snd_zip (le_of_eq (length_numbers sorted).symm)
    have hrank := rank_of_pairwise (by rw [hsnd]; exact hpairs.mono hmem) hbefore
    rw [zip_map_right]
    intro p hp q hq
    obtain ⟨p', hp', rfl⟩ := List.mem_map.mp hp
    obtain ⟨q', hq', rfl⟩ := List.mem_map.mp hq
    exact hrank p' hp' q' hq'

/-- The chain behind a ranking. -/
theorem foldlM_thenBy {ks : List (Key α)} (ho : Orders le xs) (hk : ∀ k ∈ ks, Orders k.le xs) :
    ∃ o', ks.foldlM OrderedArray.thenBy o = some o' ∧ Ranked (lex le (lexLe ks)) xs o' := by
  induction ks generalizing le o with
  | nil => exact ⟨o, rfl, by rwa [lexLe, lex_true_right]⟩
  | cons k ks ih =>
    have hfirst := hk k mem_cons_self
    obtain ⟨o₁, hcall, h₁⟩ := h.thenBy ho hfirst
    obtain ⟨o', hrest, h'⟩ := ih h₁ (ho.lex hfirst) fun k' hk' => hk k' (mem_cons_of_mem _ hk')
    refine ⟨o', ?_, ?_⟩
    · rw [foldlM_cons, hcall]
      exact hrest
    · rwa [lexLe, ← lex_assoc]

/-- Neighbours have one run id exactly if they tie. -/
theorem runId_eq_iff {i : Nat} {a b : Int} {x y : α} {j : Nat} (ha : o.runId[i]? = some a)
    (hb : o.runId[j]? = some b) (hx : o.items[i]? = some x) (hy : o.items[j]? = some y) :
    a = b ↔ tied le x y = true := by
  have hp : (a, x) ∈ o.runId.zip o.items :=
    mem_of_getElem? (List.getElem?_zip_eq_some.mpr ⟨ha, hx⟩)
  have hq : (b, y) ∈ o.runId.zip o.items :=
    mem_of_getElem? (List.getElem?_zip_eq_some.mpr ⟨hb, hy⟩)
  rw [tied_iff, ← h.rank _ hp _ hq, ← h.rank _ hq _ hp]
  exact ⟨fun heq => ⟨Int.le_of_eq heq, Int.le_of_eq heq.symm⟩, fun hle => Int.le_antisymm hle.1 hle.2⟩

end

end Ranked

/-- One run to start with. -/
theorem ranked_start (xs : List α) :
    Ranked (fun _ _ => true) xs ⟨xs, List.replicate xs.length 0⟩ where
  length := length_replicate
  stable := ⟨.refl _, .imp (fun _ => rfl) (pairwise_of_forall fun _ _ => trivial), fun _ _ => rfl⟩
  rank := by
    intro p hp q hq
    have hzero : ∀ p ∈ (List.replicate xs.length (0 : Int)).zip xs, p.1 = 0 := fun p hp =>
      eq_of_mem_replicate (of_mem_zip hp).1
    rw [hzero p hp, hzero q hq]
    exact iff_of_true (Int.le_refl _) rfl

theorem orderBy_eq (xs : List α) (k : Key α) :
    orderBy xs k = (OrderedArray.mk xs (List.replicate xs.length 0)).thenBy k := by
  have hzeros : addEach (fun _ => some (0 : Int)) (upTo (0 : Nat) (xs.length - 1)) [] =
      some (List.replicate xs.length 0) :=
    addEach_upTo length_replicate fun i hi => by rw [getElem_replicate]
  rw [orderBy]
  exact congrArg (· >>= _) hzeros

/-- What `orderBy(k).thenBy(k₁)...thenBy(kₙ)` leaves. -/
theorem orderByChain_spec {xs : List α} {k : Key α} {ks : List (Key α)}
    (h : ∀ k' ∈ k :: ks, Orders k'.le xs) :
    ∃ o, orderByChain xs k ks = some o ∧ Ranked (lexLe (k :: ks)) xs o := by
  have htrue : Orders (fun _ _ => true) xs := ⟨fun _ _ _ _ => .inl rfl, fun _ _ _ _ _ _ _ _ => rfl⟩
  obtain ⟨o, hchain, hranked⟩ := (ranked_start xs).foldlM_thenBy htrue h
  rw [lex_true_left] at hranked
  refine ⟨o, ?_, hranked⟩
  rw [orderByChain, orderBy_eq, ← hchain, foldlM_cons]

/-- **Stable sorting.**  By a comparison that orders the elements of an array, `sort` returns the
stable sort; and a chain of keys whose `<` orders them leaves the stable sort by the keys, the first
one first, with one run id for neighbours exactly if they tie on every key. -/
theorem sorts_stable {xs : List α} {cmp : α → α → Int} (hcmp : Orders (notAfter cmp) xs)
    {k : Key α} {ks : List (Key α)} (hkeys : ∀ k' ∈ k :: ks, Orders k'.le xs) :
    (∃ ys, sort cmp xs = some ys ∧ IsStableSort (notAfter cmp) xs ys) ∧
      ∃ o, orderByChain xs k ks = some o ∧ IsStableSort (lexLe (k :: ks)) xs o.items ∧
        o.runId.length = o.items.length ∧
        ∀ i a b x y, o.runId[i]? = some a → o.runId[i + 1]? = some b → o.items[i]? = some x →
          o.items[i + 1]? = some y → (a = b ↔ tied (lexLe (k :: ks)) x y = true) := by
  obtain ⟨o, hchain, hranked⟩ := orderByChain_spec hkeys
  exact ⟨sort_isStableSort (le_refl _) hcmp, o, hchain, hranked.stable, hranked.length,
    fun i a b x y ha hb hx hy => hranked.runId_eq_iff ha hb hx hy⟩

/-- Pairs by their first numbers, then by their second ones. -/
theorem pairs_sorts_stable :
    (∃ ys, sort (fun p q : Int × Int => p.1 - q.1) [(2, 0), (1, 7), (2, -1)] = some ys ∧
      IsStableSort (notAfter fun p q => p.1 - q.1) [(2, 0), (1, 7), (2, -1)] ys) ∧
    ∃ o, orderByChain [(2, 0), (1, 7), (2, -1)] ⟨Int, fun a b => decide (a < b), Prod.fst⟩
        [⟨Int, fun a b => decide (a < b), Prod.snd⟩] = some o ∧
      IsStableSort (lexLe [⟨Int, fun a b => decide (a < b), Prod.fst⟩,
        ⟨Int, fun a b => decide (a < b), Prod.snd⟩]) [(2, 0), (1, 7), (2, -1)] o.items := by
  have hcmp : Orders (notAfter fun p q : Int × Int => p.1 - q.1) [(2, 0), (1, 7), (2, -1)] :=
    ⟨by decide, by decide⟩
  have hkeys : ∀ k ∈ [(⟨Int, fun a b => decide (a < b), Prod.fst⟩ : Key (Int × Int)),
      ⟨Int, fun a b => decide (a < b), Prod.snd⟩], Orders k.le [(2, 0), (1, 7), (2, -1)] := by
    intro k hk
    simp only [mem_cons, not_mem_nil, or_false] at hk
    rcases hk with rfl | rfl
    · exact ⟨by decide, by decide⟩
    · exact ⟨by decide, by decide⟩
  obtain ⟨hsort, o, hchain, hstable, -⟩ := sorts_stable hcmp hkeys
  exact ⟨hsort, o, hchain, hstable⟩

end Leviathan.Prelude
