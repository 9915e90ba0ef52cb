import Leviathan.Lib.TextParts
import Leviathan.Sema.ShapeMerge

/-!
# The words of a base clause

`substituteGenericToken` replaces a word in a rendered text, one type parameter after the other.
On the tree of a type this is replacing the parameter by the argument (`textParts_fill`), and all of
them at once only if no argument mentions a parameter that is still to come.
-/

namespace Leviathan.Sema

open TextPart List

/-! ### Whole words -/

section
variable {source target : Str}

theorem substituteFrom_cons (n : Nat) (before : Option Char) (c : Char) (cs : Str) :
    substituteFrom source target (n + 1) before (c :: cs) =
      if source.isPrefixOf (c :: cs) && !before.any isIdentChar &&
          !((c :: cs).drop source.length).head?.any isIdentChar then
        target ++ substituteFrom source target n source.getLast? ((c :: cs).drop source.length)
      else c :: substituteFrom source target n (some c) cs := rfl

theorem substituteFrom_nil (n : Nat) (before : Option Char) :
    substituteFrom source target n before [] = [] := by
  cases n <;> rfl

/-- As many rounds as characters suffice. -/
theorem substituteFrom_rounds (hsource : source ≠ []) (k : Nat) : ∀ (n m : Nat)
    (before : Option Char) (text : Str), text.length ≤ k → k ≤ n → k ≤ m →
    substituteFrom source target n before text = substituteFrom source target m before text := by
  induction k with
  | zero =>
    intro n m before text hk _ _
    rw [List.length_eq_zero_iff.mp (Nat.le_zero.mp hk), substituteFrom_nil, substituteFrom_nil]
  | succ k ih =>
    intro n m before text hk hn hm
    cases text with
    | nil => rw [substituteFrom_nil, substituteFrom_nil]
    | cons c cs =>
      obtain ⟨n, rfl⟩ : ∃ i, n = i + 1 := ⟨n - 1, by omega⟩
      obtain ⟨m, rfl⟩ : ∃ i, m = i + 1 := ⟨m - 1, by omega⟩
      have hcs : cs.length ≤ k := Nat.le_of_succ_le_succ hk
      have hpos : 0 < source.length := List.length_pos_iff.mpr hsource
      have hdrop : ((c :: cs).drop source.length).length ≤ k := by
        rw [length_drop, length_cons]
        omega
      rw [substituteFrom_cons, substituteFrom_cons,
        ih n m _ _ hdrop (by omega) (by omega), ih n m _ _ hcs (by omega) (by omega)]

/-- The text with the words replaced, after a character. -/
def substituteAfter (source target : Str) (before : Option Char) (text : Str) : Str :=
  substituteFrom source target text.length before text

theorem substituteAfter_cons (hsource : source ≠ []) (before : Option Char) (c : Char) (cs : Str) :
    substituteAfter source target before (c :: cs) =
      if source.isPrefixOf (c :: cs) && !before.any isIdentChar &&
          !((c :: cs).drop source.length).head?.any isIdentChar then
        target ++ substituteAfter source target source.getLast? ((c :: cs).drop source.length)
      else c :: substituteAfter source target (some c) cs := by
  have hpos : 0 < source.length := List.length_pos_iff.mpr hsource
  have hdrop : ((c :: cs).drop source.length).length ≤ cs.length := by
    rw [length_drop, length_cons]
    omega
  show substituteFrom source target (cs.length + 1) before (c :: cs) = _
  rw [substituteFrom_cons, substituteAfter, substituteAfter,
    substituteFrom_rounds hsource _ cs.length _ source.getLast? _ (Nat.le_refl _) hdrop
      (Nat.le_refl _)]

variable (hsource : IsWord isIdentChar source)
include hsource

variable (target)

theorem substituteAfter_mark {c : Char} (hc : isIdentChar c = false) (before : Option Char)
    (cs : Str) : substituteAfter source target before (c :: cs) =
      c :: substituteAfter source target (some c) cs := by
  rw [substituteAfter_cons hsource.1, if_neg]
  intro h
  rw [Bool.and_eq_true, Bool.and_eq_true, isPrefixOf_iff_prefix] at h
  obtain ⟨⟨hstarts, -⟩, -⟩ := h
  cases hs : source with
  | nil => exact hsource.1 hs
  | cons s ss =>
    rw [hs] at hstarts
    have hsc : s = c := (List.cons_prefix_cons.mp hstarts).1
    have hword := hsource.2 s (by rw [hs]; exact mem_cons_self ..)
    rw [hsc, hc] at hword
    cases hword

/-- Inside a word nothing is replaced. -/
theorem substituteAfter_inside (rest w : Str) : ∀ {before : Char},
    isIdentChar before = true → (∀ c ∈ w, isIdentChar c = true) →
    ∃ last, substituteAfter source target (some before) (w ++ rest) =
      w ++ substituteAfter source target last rest := by
  induction w with
  | nil =>
    intro before _ _
    exact ⟨some before, rfl⟩
  | cons c w ih =>
    intro before hbefore hw
    obtain ⟨last, hlast⟩ := ih (hw c (mem_cons_self ..))
      fun d hd => hw d (mem_cons_of_mem c hd)
    refine ⟨last, ?_⟩
    rw [cons_append, substituteAfter_cons hsource.1, if_neg, hlast]
    · rfl
    · intro h
      rw [Bool.and_eq_true, Bool.and_eq_true] at h
      simp [hbefore] at h

theorem substituteAfter_word {w rest : Str} (hw : IsWord isIdentChar w) {before : Option Char}
    (hbefore : before.any isIdentChar = false) (hrest : rest.head?.any isIdentChar = false) :
    ∃ last, substituteAfter source target before (w ++ rest) =
      (if w = source then target else w) ++ substituteAfter source target last rest := by
  cases w with
  | nil => exact absurd rfl hw.1
  | cons c cs =>
    rw [cons_append, substituteAfter_cons hsource.1]
    by_cases heq : c :: cs = source
    · have hdrop : (c :: (cs ++ rest)).drop source.length = rest := by
        rw [← heq]
        exact drop_left' rfl
      have hstarts : source.isPrefixOf (c :: (cs ++ rest)) = true := by
        rw [← heq, isPrefixOf_iff_prefix]
        exact ⟨rest, rfl⟩
      rw [if_pos heq, hdrop, if_pos (by rw [hstarts, hbefore, hrest]; rfl)]
      exact ⟨_, rfl⟩
    · rw [if_neg heq, if_neg]
      · obtain ⟨last, hlast⟩ := substituteAfter_inside target hsource rest cs
          (hw.2 c (mem_cons_self ..)) fun d hd => hw.2 d (mem_cons_of_mem c hd)
        exact ⟨last, by rw [hlast]; rfl⟩
      · -- a longer or shorter run of word characters is another word
        intro h
        rw [Bool.and_eq_true, Bool.and_eq_true, isPrefixOf_iff_prefix] at h
        obtain ⟨⟨⟨more, hmore⟩, -⟩, hend⟩ := h
        rw [← cons_append] at hmore
        rcases List.append_eq_append_iff.mp hmore with ⟨mid, hword, hmid⟩ | ⟨mid, hsrc, hmid⟩
        · cases mid with
          | nil => exact heq (by rw [hword, append_nil])
          | cons d mid =>
            have hd := hw.2 d (by rw [hword]; simp)
            rw [← cons_append, hword, append_assoc, drop_left] at hend
            simp [hd] at hend
        · cases mid with
          | nil => exact heq (by rw [hsrc, append_nil])
          | cons d mid =>
            have hd := hsource.2 d (by rw [hsrc]; simp)
            rw [hmid] at hrest
            simp [hd] at hrest

theorem substituteAfter_spell {ks : List TextPart} (hks : spell ks = target) {ls : List TextPart}
    (hls : Apart isIdentChar ls) : ∀ {before : Option Char},
    (startsWord ls = true → before.any isIdentChar = false) →
    substituteAfter source target before (spell ls) = spell (substitute (only source ks) ls) := by
  induction ls with
  | nil =>
    intro before _
    rfl
  | cons l ls ih =>
    intro before hbefore
    cases l with
    | mark c =>
      have hstep := substituteAfter_mark target hsource hls.1 before (spell ls)
      rw [substitute_mark, spell_cons, spell_cons]
      show substituteAfter source target before (c :: spell ls) = c :: _
      rw [hstep, ih hls.2 fun _ => by simpa using hls.1]
      rfl
    | word w =>
      have hrest : (spell ls).head?.any isIdentChar = false := by
        cases ls with
        | nil => rfl
        | cons k ls =>
          cases k with
          | mark c => exact hls.2.2.1
          | word v => exact absurd hls.2.1 (by simp [startsWord])
      obtain ⟨last, hlast⟩ :=
        substituteAfter_word target hsource hls.1 (hbefore rfl) hrest
      rw [substitute_word, spell_append, spell_cons]
      show substituteAfter source target before (w ++ spell ls) = _
      rw [hlast, ih hls.2.2 fun h => absurd h (by rw [hls.2.1]; decide)]
      congr 1
      by_cases hw : w = source
      · rw [if_pos hw, only, if_pos hw]
        exact hks.symm
      · rw [if_neg hw, only, if_neg hw]
        exact (append_nil w).symm

end

/-- **Whole words.**  On a text of words and marks `substituteGenericToken` replaces a word. -/
theorem substituteGenericToken_spell {source : Str} {ks ls : List TextPart}
    (hsource : IsWord isIdentChar source) (hls : Apart isIdentChar ls) :
    substituteGenericToken (spell ls) source (spell ks) = spell (substitute (only source ks) ls) :=
  substituteAfter_spell _ hsource rfl hls fun _ => rfl

/-- One parameter after the other. -/
theorem foldl_substituteGenericToken {table : List (Str × List TextPart)}
    (hwords : ∀ entry ∈ table, IsWord isIdentChar entry.1 ∧ Apart isIdentChar entry.2)
    {ls : List TextPart} (hls : Apart isIdentChar ls) :
    (table.map fun entry => (entry.1, spell entry.2)).foldl
        (fun text entry => substituteGenericToken text entry.1 entry.2) (spell ls) =
      spell (oneByOne table ls) := by
  induction table generalizing ls with
  | nil => rfl
  | cons entry table ih =>
    obtain ⟨hword, hapart⟩ := hwords entry (mem_cons_self ..)
    rw [map_cons, foldl_cons, substituteGenericToken_spell hword hls]
    refine ih (fun e he => hwords e (mem_cons_of_mem entry he)) (apart_substitute ?_ hls)
    intro w ks hks
    unfold only at hks
    split at hks
    · cases hks
      exact hapart
    · cases hks

/-! ### Trees of types -/

namespace TypeRef

variable {ι : Type}

mutual

/-- The words and marks of the text of a type. -/
def textParts : TypeRef ι → List TextPart
  | .inferred => [word "var".toList]
  | .union members => List.intercalate [mark ' ', mark '|', mark ' '] (textPartsEach members)
  | .function params ret =>
    [mark '('] ++ List.intercalate [mark ',', mark ' '] (textPartsEach params) ++
      [mark ')', mark ' ', mark '=', mark '>', mark ' '] ++ textParts ret
  | .named path name generics _ =>
    path.flatMap (fun seg => [word seg, mark ':', mark ':']) ++ [word name] ++
      if generics.isEmpty then []
      else [mark '<'] ++ List.intercalate [mark ',', mark ' '] (textPartsEach generics) ++ [mark '>']

def textPartsEach : List (TypeRef ι) → List (List TextPart)
  | [] => []
  | t :: ts => textParts t :: textPartsEach ts

end

theorem textPartsEach_eq_map (ts : List (TypeRef ι)) : textPartsEach ts = ts.map textParts := by
  induction ts with
  | nil => rfl
  | cons t ts ih => rw [textPartsEach, ih, map_cons]

theorem spell_textParts (t : TypeRef ι) : spell t.textParts = t.canonical := by
  have heach : ∀ ts : List (TypeRef ι), (∀ t ∈ ts, spell t.textParts = t.canonical) →
      (ts.map textParts).map spell = ts.map canonical := by
    intro ts h
    rw [map_map]
    exact map_congr_left h
  induction t using TypeRef.induction with
  | inferred => rfl
  | named path name generics hygiene ih =>
    have hpath : spell (path.flatMap fun seg => [word seg, mark ':', mark ':']) =
        path.flatMap fun seg => seg ++ "::".toList := by
      induction path with
      | nil => rfl
      | cons seg path hpath => simp [hpath, TextPart.text]
    rw [textParts, canonical, qualName, spell_append, spell_append, hpath, textPartsEach_eq_map,
      canonicals_eq_map]
    congr 1
    · simp [TextPart.text]
    · split
      · rfl
      · rw [spell_append, spell_append, spell_intercalate, heach generics ih]
        rfl
  | union members ih =>
    rw [textParts, canonical, spell_intercalate, textPartsEach_eq_map, canonicals_eq_map,
      heach members ih]
    rfl
  | function params ret ihp ihr =>
    rw [textParts, canonical, spell_append, spell_append, spell_append, spell_intercalate,
      textPartsEach_eq_map, canonicals_eq_map, heach params ihp, ihr]
    simp [TextPart.text, spell]

mutual

/-- The names of the type are words. -/
def Worded : TypeRef ι → Prop
  | .inferred => True
  | .union members => WordedEach members
  | .function params ret => WordedEach params ∧ Worded ret
  | .named path name generics _ =>
    (∀ seg ∈ path, IsWord isIdentChar seg) ∧ IsWord isIdentChar name ∧ WordedEach generics

def WordedEach : List (TypeRef ι) → Prop
  | [] => True
  | t :: ts => Worded t ∧ WordedEach ts

end

theorem wordedEach_iff (ts : List (TypeRef ι)) : WordedEach ts ↔ ∀ t ∈ ts, Worded t := by
  induction ts with
  | nil => simp [WordedEach]
  | cons t ts ih => simp [WordedEach, ih]

theorem apart_comma {parts : List (List TextPart)} (h : ∀ ls ∈ parts, Apart isIdentChar ls) :
    Apart isIdentChar (List.intercalate [mark ',', mark ' '] parts) :=
  apart_intercalate h fun _ hls => ⟨rfl, rfl, hls⟩

theorem apart_textParts {t : TypeRef ι} (h : t.Worded) : Apart isIdentChar t.textParts := by
  have heach : ∀ ts : List (TypeRef ι), (∀ t ∈ ts, t.Worded → Apart isIdentChar t.textParts) →
      WordedEach ts → ∀ ls ∈ textPartsEach ts, Apart isIdentChar ls := by
    intro ts hts hworded ls hls
    rw [textPartsEach_eq_map] at hls
    obtain ⟨t, ht, rfl⟩ := List.mem_map.mp hls
    exact hts t ht ((wordedEach_iff ts).mp hworded t ht)
  induction t using TypeRef.induction with
  | inferred =>
    have hword : ∀ c ∈ ['v', 'a', 'r'], isIdentChar c = true := by
      intro c hc
      rcases List.mem_cons.mp hc with rfl | hc
      · rfl
      · rcases List.mem_cons.mp hc with rfl | hc
        · rfl
        · rw [List.mem_singleton.mp hc]
          rfl
    exact ⟨⟨by simp, hword⟩, rfl, trivial⟩
  | named path name generics hygiene ih =>
    obtain ⟨hpath, hname, hgenerics⟩ := h
    have hhead : Apart isIdentChar
        (path.flatMap (fun seg => [word seg, mark ':', mark ':']) ++ [word name]) := by
      induction path with
      | nil => exact ⟨hname, rfl, trivial⟩
      | cons seg path ihpath =>
        exact ⟨hpath seg (mem_cons_self ..), rfl, rfl, rfl,
          ihpath fun s hs => hpath s (mem_cons_of_mem seg hs)⟩
    rw [textParts]
    split
    · rw [append_nil]
      exact hhead
    · refine hhead.append ?_ rfl
      have hopened : Apart isIdentChar (mark '<' :: _) :=
        ⟨rfl, apart_comma (heach generics ih hgenerics)⟩
      exact hopened.append ⟨rfl, trivial⟩ rfl
  | union members ih =>
    exact apart_intercalate (heach members ih h) fun _ hls => ⟨rfl, rfl, rfl, hls⟩
  | function params ret ihp ihr =>
    rw [textParts]
    have hparams : Apart isIdentChar
        ([mark '('] ++ List.intercalate [mark ',', mark ' '] (textPartsEach params)) :=
      ⟨rfl, apart_comma (heach params ihp h.1)⟩
    rw [append_assoc]
    exact hparams.append ⟨rfl, rfl, rfl, rfl, rfl, ihr h.2⟩ rfl

mutual

/-- A name without path and arguments replaced by a type. -/
def fill (f : Str → Option (TypeRef ι)) : TypeRef ι → TypeRef ι
  | .inferred => .inferred
  | .union members => .union (fillEach f members)
  | .function params ret => .function (fillEach f params) (fill f ret)
  | .named path name generics hygiene =>
    match path, generics, f name with
    | [], [], some t => t
    | _, _, _ => .named path name (fillEach f generics) hygiene

def fillEach (f : Str → Option (TypeRef ι)) : List (TypeRef ι) → List (TypeRef ι)
  | [] => []
  | t :: ts => fill f t :: fillEach f ts

end

theorem fill_bare (f : Str → Option (TypeRef ι)) (name : Str) (hygiene : Option ι) :
    (TypeRef.named [] name [] hygiene).fill f = (f name).getD (.named [] name [] hygiene) := by
  cases hf : f name <;> simp [fill, fillEach, hf]

theorem fillEach_eq_map (f : Str → Option (TypeRef ι)) (ts : List (TypeRef ι)) :
    fillEach f ts = ts.map (fill f) := by
  induction ts with
  | nil => rfl
  | cons t ts ih => rw [fillEach, ih, map_cons]

mutual

/-- The words that `f` replaces occur in the type as bare names only: not in a path, and not with
arguments. -/
def Bare (f : Str → Option (TypeRef ι)) : TypeRef ι → Prop
  | .inferred => f "var".toList = none
  | .union members => BareEach f members
  | .function params ret => BareEach f params ∧ Bare f ret
  | .named path name generics _ =>
    (path = [] ∧ generics = []) ∨
      (f name = none ∧ (∀ seg ∈ path, f seg = none) ∧ BareEach f generics)

def BareEach (f : Str → Option (TypeRef ι)) : List (TypeRef ι) → Prop
  | [] => True
  | t :: ts => Bare f t ∧ BareEach f ts

end

theorem bareEach_iff (f : Str → Option (TypeRef ι)) (ts : List (TypeRef ι)) :
    BareEach f ts ↔ ∀ t ∈ ts, Bare f t := by
  induction ts with
  | nil => simp [BareEach]
  | cons t ts ih => simp [BareEach, ih]

/-- Filling a type is replacing words in its text. -/
theorem textParts_fill {f : Str → Option (TypeRef ι)} {t : TypeRef ι} (h : t.Bare f) :
    (t.fill f).textParts = substitute (fun w => (f w).map textParts) t.textParts := by
  have heach : ∀ ts : List (TypeRef ι), (∀ t ∈ ts, t.Bare f →
      (t.fill f).textParts = substitute (fun w => (f w).map textParts) t.textParts) → BareEach f ts →
      textPartsEach (fillEach f ts) =
        (textPartsEach ts).map (substitute fun w => (f w).map textParts) := by
    intro ts hts hbare
    rw [textPartsEach_eq_map, textPartsEach_eq_map, fillEach_eq_map, map_map, map_map]
    exact map_congr_left fun t ht => hts t ht ((bareEach_iff f ts).mp hbare t ht)
  have hjoin : ∀ (sep : List TextPart) (parts : List (List TextPart)),
      substitute (fun w => (f w).map textParts) (List.intercalate sep parts) =
        List.intercalate (substitute (fun w => (f w).map textParts) sep)
          (parts.map (substitute fun w => (f w).map textParts)) :=
    intercalate_of_append rfl substitute_append
  induction t using TypeRef.induction with
  | inferred =>
    have hf : (f "var".toList).map textParts = none := by rw [show f "var".toList = none from h]; rfl
    rw [fill, textParts, substitute_word, hf]
    rfl
  | named path name generics hygiene ih =>
    rcases h with ⟨rfl, rfl⟩ | ⟨hname, hpath, hgenerics⟩
    · have hself : (TypeRef.named [] name [] hygiene : TypeRef ι).textParts = [word name] := rfl
      rw [hself, substitute_word, substitute_nil, append_nil, fill_bare]
      cases f name with
      | some t => rfl
      | none => rfl
    · have hfill : (TypeRef.named path name generics hygiene).fill f =
          .named path name (fillEach f generics) hygiene := by
        rw [fill]
        intro t _ _ hsome
        rw [hname] at hsome
        cases hsome
      have hwords : substitute (fun w => (f w).map textParts)
          (path.flatMap (fun seg => [word seg, mark ':', mark ':']) ++ [word name]) =
          path.flatMap (fun seg => [word seg, mark ':', mark ':']) ++ [word name] := by
        refine substitute_eq_self fun w hw => ?_
        rcases List.mem_append.mp hw with hw | hw
        · obtain ⟨seg, hseg, hw⟩ := List.mem_flatMap.mp hw
          simp only [mem_cons, TextPart.word.injEq, reduceCtorEq, not_mem_nil,
            or_false] at hw
          rw [hw, hpath seg hseg]
          rfl
        · cases List.mem_singleton.mp hw
          rw [hname]
          rfl
      have hempty : (fillEach f generics).isEmpty = generics.isEmpty := by
        cases generics <;> rfl
      rw [hfill, textParts, textParts, substitute_append, hwords, hempty]
      congr 1
      split
      · rfl
      · rw [substitute_append, substitute_append, hjoin, heach generics ih hgenerics]
        rfl
  | union members ih =>
    rw [fill, textParts, textParts, hjoin, heach members ih h]
    rfl
  | function params ret ihp ihr =>
    rw [fill, textParts, textParts, substitute_append, substitute_append, substitute_append, hjoin,
      heach params ihp h.1, ihr h.2]
    rfl

end TypeRef

end Leviathan.Sema
