import Leviathan.Prelude.Like

/-!
# Searching in strings

The native `indexOf` and `subStr`, and the searches that the prelude builds on them: `indexOfFrom`,
`lastIndexOf`, `split`, `replace` and `count`.  The last three go through the string with one loop
(`scan`), which looks for the next occurrence behind the end of the last one.

`Splits` says what that loop finds: the pieces before the leftmost occurrence, then those of the
rest behind it.  Each of the three is a fold over the pieces (`scan_eq`), and from there the laws
that tie them together are facts about lists of pieces.
-/

namespace Leviathan.Prelude

open List

/-! ## The strings -/

/-- `indexOf`, which is native. -/
def indexOf (sub : Bytes) : Bytes → Int
  | [] => if sub = [] then 0 else -1
  | b :: s =>
    if sub.isPrefixOf (b :: s) then 0
    else if indexOf sub s < 0 then -1 else indexOf sub s + 1

/-- `subStr`, which is native: nothing from a start outside, and a negative length is no bound. -/
def subStr (s : Bytes) (start n : Int) : Bytes :=
  if 0 ≤ start ∧ start ≤ s.length then
    if n < 0 then s.drop start.toNat else (s.drop start.toNat).take n.toNat
  else []

/-- `indexOfFrom`. -/
def indexOfFrom (s sub : Bytes) (start : Int) : Int :=
  let f := if start < 0 then 0 else start
  if f > s.length then -1
  else
    let r := indexOf sub (subStr s f (s.length - f))
    if r < 0 then -1 else r + f

/-- The loop of `lastIndexOf`. -/
def lastLoop (s sub : Bytes) : Nat → Int → Int → Option Int
  | 0, _, _ => none
  | fuel + 1, last, idx =>
    if 0 ≤ idx then lastLoop s sub fuel idx (indexOfFrom s sub (idx + 1)) else some last

/-- `lastIndexOf`. -/
def lastIndexOf (s sub : Bytes) : Option Int :=
  lastLoop s sub (s.length + 2) (-1) (indexOf sub s)

/-- `while (idx >= 0)` of `split`, `replace` and `count`: what has been gathered and the place
behind the last occurrence. -/
def scan {ρ : Type} (s sep : Bytes) (turn : ρ → Int → Int → ρ) : Nat → Int → Int → ρ → Option (ρ × Int)
  | 0, _, _, _ => none
  | fuel + 1, start, idx, r =>
    if 0 ≤ idx then
      let next := idx + sep.length
      scan s sep turn fuel next (indexOfFrom s sep next) (turn r start idx)
    else some (r, start)

/-- `split`. -/
def split (s sep : Bytes) : Option (List Bytes) :=
  if sep = [] then some (s.map fun b => [b])
  else
    (scan s sep (fun r start idx => r ++ [subStr s start (idx - start)]) (s.length + 2) 0
      (indexOf sep s) []).map fun (r, start) => r ++ [subStr s start (s.length - start)]

/-- `replace`. -/
def replace (s old new : Bytes) : Option Bytes :=
  if old = [] then some s
  else
    (scan s old (fun r start idx => r ++ subStr s start (idx - start) ++ new) (s.length + 2) 0
      (indexOf old s) []).map fun (r, start) => r ++ subStr s start (s.length - start)

/-- `count`. -/
def count (s sub : Bytes) : Option Nat :=
  if sub = [] then some 0
  else (scan s sub (fun n _ _ => n + 1) (s.length + 2) 0 (indexOf sub s) 0).map Prod.fst

/-- `joinToString` of an array of strings. -/
def joinToString (sep : Bytes) (xs : List Bytes) : Bytes :=
  (xs.foldl (fun (r, i) x => ((if 0 < i then r ++ sep else r) ++ x, i + 1)) (([] : Bytes), 0)).1

/-! ## What they mean -/

/-- `sub` occurs in `s` at `i`. -/
def Occurs (sub s : Bytes) (i : Nat) : Prop := ∃ p t, s = p ++ (sub ++ t) ∧ p.length = i

/-- The pieces of `s` between its leftmost occurrences of `sep`, none of which overlaps another. -/
inductive Splits (sep : Bytes) : Bytes → List Bytes → Prop
  | last {s : Bytes} : (∀ i, ¬ Occurs sep s i) → Splits sep s [s]
  | cut {p t : Bytes} {ps : List Bytes} :
      (∀ i, Occurs sep (p ++ (sep ++ t)) i → p.length ≤ i) → Splits sep t ps →
      Splits sep (p ++ (sep ++ t)) (p :: ps)

theorem occurs_nil_iff {sub : Bytes} {i : Nat} : Occurs sub [] i ↔ sub = [] ∧ i = 0 := by
  constructor
  · rintro ⟨p, t, h, rfl⟩
    simp_all
  · rintro ⟨rfl, rfl⟩
    exact ⟨[], [], rfl, rfl⟩

theorem occurs_zero_iff {sub s : Bytes} : Occurs sub s 0 ↔ sub <+: s := by
  constructor
  · rintro ⟨p, t, rfl, hp⟩
    rw [List.length_eq_zero_iff.mp hp]
    exact ⟨t, rfl⟩
  · rintro ⟨t, rfl⟩
    exact ⟨[], t, rfl, rfl⟩

theorem occurs_cons_succ_iff {sub s : Bytes} {b : UInt8} {i : Nat} :
    Occurs sub (b :: s) (i + 1) ↔ Occurs sub s i := by
  constructor
  · rintro ⟨_ | ⟨c, p⟩, t, h, hp⟩
    · simp at hp
    · exact ⟨p, t, (List.cons.inj h).2, by simpa using hp⟩
  · rintro ⟨p, t, rfl, rfl⟩
    exact ⟨b :: p, t, rfl, rfl⟩

/-- Behind a place, the occurrences are those of the string from there on. -/
theorem occurs_append_iff {sub u t : Bytes} {i : Nat} :
    Occurs sub (u ++ t) (u.length + i) ↔ Occurs sub t i := by
  induction u with
  | nil => simp
  | cons b u ih =>
    rw [cons_append, length_cons, Nat.add_right_comm]
    exact occurs_cons_succ_iff.trans ih

theorem Occurs.le {sub s : Bytes} {i : Nat} (h : Occurs sub s i) : i + sub.length ≤ s.length := by
  obtain ⟨p, t, rfl, rfl⟩ := h
  simp only [length_append]
  omega

/-- The native search finds the first occurrence. -/
theorem indexOf_cases (sub s : Bytes) :
    (indexOf sub s = -1 ∧ ∀ i, ¬ Occurs sub s i) ∨
      ∃ i : Nat, indexOf sub s = i ∧ IsLeast {i | Occurs sub s i} i := by
  induction s with
  | nil =>
    by_cases h : sub = []
    · exact Or.inr ⟨0, by simp [indexOf, h], by simp [IsLeast, lowerBounds, occurs_nil_iff, h]⟩
    · exact Or.inl ⟨by simp [indexOf, h], by simp [occurs_nil_iff, h]⟩
  | cons b s ih =>
    by_cases h : sub <+: b :: s
    · exact Or.inr ⟨0, by simp [indexOf, h], occurs_zero_iff.mpr h, fun i _ => Nat.zero_le i⟩
    · have hzero : ¬ Occurs sub (b :: s) 0 := fun ho => h (occurs_zero_iff.mp ho)
      rcases ih with ⟨hr, hnone⟩ | ⟨i, hr, hocc, hleast⟩
      · refine Or.inl ⟨by simp [indexOf, h, hr], ?_⟩
        rintro (_ | i) ho
        · exact hzero ho
        · exact hnone i (occurs_cons_succ_iff.mp ho)
      · refine Or.inr ⟨i + 1, ?_, occurs_cons_succ_iff.mpr hocc, ?_⟩
        · simp only [indexOf, isPrefixOf_iff_prefix, h, hr, if_false]
          rw [if_neg (by omega)]
          omega
        · rintro (_ | j) ho
          · exact absurd ho hzero
          · exact Nat.succ_le_succ (hleast (occurs_cons_succ_iff.mp ho))

/-- A slice between two places of the string. -/
theorem subStr_between (u p t : Bytes) :
    subStr (u ++ (p ++ t)) u.length ((u.length + p.length : Nat) - u.length) = p := by
  have hlen : (((u.length + p.length : Nat) : Int) - u.length).toNat = p.length := by omega
  unfold subStr
  rw [if_pos (by simp only [length_append]; omega), if_neg (by omega), hlen]
  simp

theorem subStr_rest (u t : Bytes) :
    subStr (u ++ t) u.length ((u ++ t).length - u.length) = t := by
  have h := subStr_between u t []
  rwa [append_nil, ← length_append] at h

/-- `indexOfFrom` looks from a place on. -/
theorem indexOfFrom_append (sub u t : Bytes) :
    indexOfFrom (u ++ t) sub u.length =
      if indexOf sub t < 0 then -1 else indexOf sub t + u.length := by
  unfold indexOfFrom
  rw [if_neg (by omega : ¬ (u.length : Int) < 0)]
  dsimp only
  rw [if_neg (by simp only [length_append]; omega), subStr_rest]

theorem indexOfFrom_cases (s sub : Bytes) (start : Int) :
    (indexOfFrom s sub start = -1 ∧ ∀ i, Occurs sub s i → ¬ max start 0 ≤ i) ∨
      ∃ i : Nat, indexOfFrom s sub start = i ∧
        IsLeast {i : Nat | Occurs sub s i ∧ max start 0 ≤ i} i := by
  have hclamp : indexOfFrom s sub start = indexOfFrom s sub (start.toNat : Int) := by
    unfold indexOfFrom
    rcases Int.le_total 0 start with h | h
    · rw [Int.toNat_of_nonneg h]
    · rw [Int.toNat_of_nonpos h]
      by_cases h0 : start < 0
      · simp [h0]
      · simp [show start = 0 by omega]
  have hmax : max start 0 = (start.toNat : Int) := by omega
  simp only [hclamp, hmax, Int.ofNat_le]
  by_cases hle : start.toNat ≤ s.length
  · obtain ⟨u, t, rfl, hu⟩ : ∃ u t, s = u ++ t ∧ u.length = start.toNat :=
      ⟨s.take start.toNat, s.drop start.toNat, by simp, by simpa using hle⟩
    simp only [← hu]
    have hfrom : ∀ i, Occurs sub (u ++ t) i → u.length ≤ i → ∃ j, i = u.length + j ∧ Occurs sub t j := by
      intro i ho hi
      obtain ⟨j, rfl⟩ := Nat.exists_eq_add_of_le hi
      exact ⟨j, rfl, occurs_append_iff.mp ho⟩
    rw [indexOfFrom_append]
    rcases indexOf_cases sub t with ⟨hr, hnone⟩ | ⟨i, hr, hocc, hleast⟩
    · refine Or.inl ⟨by simp [hr], fun i ho hi => ?_⟩
      obtain ⟨j, -, hj⟩ := hfrom i ho hi
      exact hnone j hj
    · refine Or.inr ⟨u.length + i, ?_, ⟨occurs_append_iff.mpr hocc, Nat.le_add_right _ _⟩, ?_⟩
      · rw [hr, if_neg (by omega)]
        omega
      · rintro k ⟨ho, hk⟩
        obtain ⟨j, rfl, hj⟩ := hfrom k ho hk
        exact Nat.add_le_add_left (hleast hj) _
  · refine Or.inl ⟨?_, fun i ho hi => ?_⟩
    · unfold indexOfFrom
      rw [if_neg (by omega : ¬ (start.toNat : Int) < 0)]
      exact if_pos (by omega)
    · have := ho.le
      omega

/-! ## The loops -/

theorem exists_splits {sep : Bytes} (hsep : sep ≠ []) (s : Bytes) : ∃ ps, Splits sep s ps := by
  induction hn : s.length using Nat.strong_induction_on generalizing s with
  | _ n ih =>
    rcases indexOf_cases sep s with ⟨-, hnone⟩ | ⟨i, -, ⟨p, t, rfl, rfl⟩, hleast⟩
    · exact ⟨_, Splits.last hnone⟩
    · have hpos := length_pos_of_ne_nil hsep
      obtain ⟨ps, hps⟩ := ih t.length (by simp only [length_append] at hn; omega) t rfl
      exact ⟨_, Splits.cut (fun i hi => hleast hi) hps⟩

/-- **The loop is a fold over the pieces**, all but the last, whatever each turn does with its
piece. -/
theorem scan_eq {ρ : Type} {s sep : Bytes} {turn : ρ → Int → Int → ρ} {f : ρ → Bytes → ρ}
    (hsep : sep ≠ [])
    (hturn : ∀ u p t r, s = u ++ (p ++ t) → turn r u.length (u.length + p.length : Nat) = f r p)
    {t : Bytes} {ps : List Bytes} (h : Splits sep t ps) :
    ∀ (u : Bytes) (fuel : Nat) (r : ρ), s = u ++ t → t.length + 1 < fuel →
      ∃ v last, s = v ++ last ∧ ps = ps.dropLast ++ [last] ∧
        scan s sep turn fuel u.length (indexOfFrom s sep u.length) r =
          some (ps.dropLast.foldl f r, (v.length : Int)) := by
  induction h with
  | @last t hnone =>
    rintro u (_ | fuel) r rfl hfuel
    · omega
    · rcases indexOf_cases sep t with ⟨hr, -⟩ | ⟨i, -, ho, -⟩
      · refine ⟨u, t, rfl, rfl, ?_⟩
        rw [scan, indexOfFrom_append, hr]
        rfl
      · exact absurd ho (hnone i)
  | @cut p t ps hfirst _ ih =>
    rintro u (_ | fuel) r rfl hfuel
    · omega
    · have hpos := length_pos_of_ne_nil hsep
      have hidx : indexOfFrom (u ++ (p ++ (sep ++ t))) sep u.length =
          ((u.length + p.length : Nat) : Int) := by
        rw [indexOfFrom_append]
        have hocc : Occurs sep (p ++ (sep ++ t)) p.length := ⟨p, t, rfl, rfl⟩
        rcases indexOf_cases sep (p ++ (sep ++ t)) with ⟨-, hnone⟩ | ⟨i, hr, ho, hleast⟩
        · exact absurd hocc (hnone _)
        · have hi : i = p.length := Nat.le_antisymm (hleast hocc) (hfirst i ho)
          rw [hr, hi, if_neg (by omega)]
          omega
      have hnext : ((u.length + p.length : Nat) : Int) + sep.length =
          ((u ++ (p ++ sep)).length : Int) := by
        simp only [length_append]
        omega
      obtain ⟨v, last, hs, hps, hscan⟩ := ih (u ++ (p ++ sep)) fuel (f r p) (by simp)
        (by simp only [length_append] at hfuel; omega)
      have hne : ps ≠ [] := by
        rw [hps]
        simp
      refine ⟨v, last, hs, ?_, ?_⟩
      · rw [dropLast_cons_of_ne_nil hne, cons_append, ← hps]
      · rw [scan, hidx, if_pos (by omega), hturn u p (sep ++ t) r rfl]
        dsimp only
        rw [hnext, hscan, dropLast_cons_of_ne_nil hne, foldl_cons]

theorem joinToString_cons (sep p : Bytes) (ps : List Bytes) :
    joinToString sep (p :: ps) = p ++ ps.flatMap (sep ++ ·) := by
  have hloop : ∀ (ps : List Bytes) (r : Bytes) (i : Nat),
      (ps.foldl (fun (r, i) x => ((if 0 < i then r ++ sep else r) ++ x, i + 1)) (r, i + 1)).1 =
        r ++ ps.flatMap (sep ++ ·) := by
    intro ps
    induction ps with
    | nil => simp
    | cons q ps ih =>
      intro r i
      rw [foldl_cons]
      simp [ih]
  exact hloop ps p 0

theorem indexOfFrom_zero (s sub : Bytes) : indexOfFrom s sub 0 = indexOf sub s := by
  have h := indexOfFrom_append sub [] s
  rcases indexOf_cases sub s with ⟨hr, -⟩ | ⟨i, hr, -⟩
  · simpa [hr] using h
  · rw [hr] at h ⊢
    rw [if_neg (by omega)] at h
    simpa using h

/-- The loop, from the beginning of the string. -/
theorem scan_start {ρ : Type} {s sep : Bytes} {turn : ρ → Int → Int → ρ} {f : ρ → Bytes → ρ}
    (hsep : sep ≠ [])
    (hturn : ∀ u p t r, s = u ++ (p ++ t) → turn r u.length (u.length + p.length : Nat) = f r p)
    {ps : List Bytes} (h : Splits sep s ps) (r : ρ) :
    ∃ v last, s = v ++ last ∧ ps = ps.dropLast ++ [last] ∧
      scan s sep turn (s.length + 2) 0 (indexOf sep s) r =
        some (ps.dropLast.foldl f r, (v.length : Int)) := by
  rw [← indexOfFrom_zero]
  exact scan_eq hsep hturn h [] _ r rfl (by omega)

variable {s sep : Bytes} {ps : List Bytes}

theorem split_eq (hsep : sep ≠ []) (h : Splits sep s ps) : split s sep = some ps := by
  have hturn : ∀ u p t (r : List Bytes), s = u ++ (p ++ t) →
      r ++ [subStr s u.length ((u.length + p.length : Nat) - u.length)] = r ++ [p] := by
    rintro u p t r rfl
    rw [subStr_between]
  obtain ⟨v, last, hs, hps, hscan⟩ :=
    @scan_start _ s sep (fun r start idx => r ++ [subStr s start (idx - start)]) (fun r p => r ++ [p])
      hsep hturn ps h []
  have hfold : ∀ (qs r : List Bytes), qs.foldl (fun r p => r ++ [p]) r = r ++ qs := by
    intro qs
    induction qs with
    | nil => simp
    | cons q qs ih => simp [ih]
  rw [split, if_neg hsep, hscan, hfold, Option.map_some]
  dsimp only
  rw [hs, subStr_rest, nil_append, ← hps]

/-- Replacing puts the new text between the pieces. -/
theorem replace_eq {new : Bytes} (hsep : sep ≠ []) (h : Splits sep s ps) :
    replace s sep new = some (joinToString new ps) := by
  have hturn : ∀ u p t (r : Bytes), s = u ++ (p ++ t) →
      r ++ subStr s u.length ((u.length + p.length : Nat) - u.length) ++ new = r ++ p ++ new := by
    rintro u p t r rfl
    rw [subStr_between]
  obtain ⟨v, last, hs, hps, hscan⟩ :=
    @scan_start _ s sep (fun r start idx => r ++ subStr s start (idx - start) ++ new)
      (fun r p => r ++ p ++ new) hsep hturn ps h []
  have hfold : ∀ (qs : List Bytes) (r : Bytes), qs.foldl (fun r p => r ++ p ++ new) r ++ last =
      r ++ joinToString new (qs ++ [last]) := by
    intro qs
    induction qs with
    | nil => simp [joinToString_cons]
    | cons q qs ih =>
      intro r
      rw [foldl_cons, ih, cons_append, joinToString_cons]
      cases qs <;> simp [joinToString_cons]
  rw [replace, if_neg hsep, hscan, Option.map_some]
  dsimp only
  rw [hs, subStr_rest, hfold, ← hps]
  rfl

theorem count_eq (hsep : sep ≠ []) (h : Splits sep s ps) :
    count s sep = some (ps.length - 1) := by
  obtain ⟨v, last, -, -, hscan⟩ :=
    @scan_start _ s sep (fun n _ _ => n + 1) (fun n _ => n + 1) hsep (fun _ _ _ _ _ => rfl) ps h 0
  have hfold : ∀ (qs : List Bytes) (n : Nat), qs.foldl (fun n _ => n + 1) n = n + qs.length := by
    intro qs
    induction qs with
    | nil => simp
    | cons q qs ih =>
      intro n
      rw [foldl_cons, ih, length_cons]
      omega
  rw [count, if_neg hsep, hscan, hfold, length_dropLast]
  simp

/-- The pieces with the separator between them are the string. -/
theorem Splits.join (h : Splits sep s ps) : joinToString sep ps = s := by
  induction h with
  | last => simp [joinToString_cons]
  | cut _ hps ih =>
    rw [joinToString_cons, ← ih]
    cases hps <;> simp [joinToString_cons]

/-- An occurrence in a piece would have been found before the one that ends the piece. -/
theorem Splits.not_occurs (hsep : sep ≠ []) (h : Splits sep s ps) :
    ∀ p ∈ ps, ∀ i, ¬ Occurs sep p i := by
  induction h with
  | last hnone => simpa using hnone
  | @cut p t ps hfirst _ ih =>
    intro q hq i ho
    rcases List.mem_cons.mp hq with rfl | hq
    · obtain ⟨a, b, hab, hi⟩ := id ho
      have hle := hfirst i ⟨a, b ++ (sep ++ t), by rw [hab]; simp, hi⟩
      have := ho.le
      have := length_pos_of_ne_nil hsep
      omega
    · exact ih q hq i ho

theorem lastLoop_eq (s sub : Bytes) (fuel : Nat) : ∀ last : Int, -1 ≤ last →
    (∀ i : Nat, last = i → Occurs sub s i) → s.length - last < fuel →
      ∃ r, lastLoop s sub fuel last (indexOfFrom s sub (last + 1)) = some r ∧
        ((r = -1 ∧ ∀ i, ¬ Occurs sub s i) ∨ ∃ i : Nat, r = i ∧ IsGreatest {i | Occurs sub s i} i) := by
  induction fuel with
  | zero =>
    intro last _ hocc hfuel
    have := (hocc last.toNat (by omega)).le
    omega
  | succ fuel ih =>
    intro last hlast hocc hfuel
    rcases indexOfFrom_cases s sub (last + 1) with ⟨hr, hnone⟩ | ⟨i, hr, ⟨hi, hge⟩, -⟩
    · refine ⟨last, by rw [lastLoop, hr]; rfl, ?_⟩
      rcases eq_or_lt_of_le hlast with rfl | hpos
      · exact Or.inl ⟨rfl, fun i ho => hnone i ho (by omega)⟩
      · refine Or.inr ⟨last.toNat, by omega, hocc _ (by omega), fun j hj => ?_⟩
        have := hnone j hj
        omega
    · have := hi.le
      obtain ⟨r, hloop, hspec⟩ := ih i (by omega) (fun j hj => Int.ofNat.inj hj ▸ hi) (by omega)
      exact ⟨r, by rw [lastLoop, hr, if_pos (by omega), hloop], hspec⟩

theorem lastIndexOf_cases (s sub : Bytes) : ∃ r, lastIndexOf s sub = some r ∧
    ((r = -1 ∧ ∀ i, ¬ Occurs sub s i) ∨ ∃ i : Nat, r = i ∧ IsGreatest {i | Occurs sub s i} i) := by
  rw [lastIndexOf, ← indexOfFrom_zero]
  exact lastLoop_eq s sub _ (-1) (by omega) (fun i h => by omega) (by omega)

/-- **The searches agree with one another.**  `split` returns the pieces between the leftmost
occurrences, none of which contains the separator, and joining them gives the string back; `count`
and `replace` are what they say in terms of `split`; `lastIndexOf` and `indexOfFrom` return the
greatest and the least place. -/
theorem searching_laws (s sep old new sub : Bytes) (start : Int) (hsep : sep ≠ []) (hold : old ≠ []) :
    (∃ ps, split s sep = some ps ∧ Splits sep s ps ∧ joinToString sep ps = s ∧
      (∀ p ∈ ps, ∀ i, ¬ Occurs sep p i) ∧ count s sep = some (ps.length - 1)) ∧
    (∃ ps, split s old = some ps ∧ replace s old new = some (joinToString new ps)) ∧
    (∃ r, lastIndexOf s sub = some r ∧ ((r = -1 ∧ ∀ i, ¬ Occurs sub s i) ∨
      ∃ i : Nat, r = i ∧ IsGreatest {i | Occurs sub s i} i)) ∧
    ((indexOfFrom s sub start = -1 ∧ ∀ i, Occurs sub s i → ¬ max start 0 ≤ i) ∨
      ∃ i : Nat, indexOfFrom s sub start = i ∧
        IsLeast {i : Nat | Occurs sub s i ∧ max start 0 ≤ i} i) := by
  obtain ⟨ps, hps⟩ := exists_splits hsep s
  obtain ⟨qs, hqs⟩ := exists_splits hold s
  exact ⟨⟨ps, split_eq hsep hps, hps, hps.join, hps.not_occurs hsep, count_eq hsep hps⟩,
    ⟨qs, split_eq hold hqs, replace_eq hold hqs⟩, lastIndexOf_cases s sub,
    indexOfFrom_cases s sub start⟩

/-- The laws at overlapping occurrences. -/
theorem searching_laws_overlap :
    ∃ ps, split [97, 97, 97] [97, 97] = some ps ∧ Splits [97, 97] [97, 97, 97] ps ∧
      joinToString [97, 97] ps = [97, 97, 97] ∧ (∀ p ∈ ps, ∀ i, ¬ Occurs [97, 97] p i) ∧
      count [97, 97, 97] [97, 97] = some (ps.length - 1) :=
  (searching_laws [97, 97, 97] [97, 97] [97] [98] [97] 1 (by decide) (by decide)).1

end Leviathan.Prelude
