import Leviathan.Lib.Text

/-!
# Spellings of applied terms

A term is a head applied to arguments, and an argument is a choice of terms.  It
is written `head<a, b | c>`: the arguments in angle brackets after the head, the
terms of a choice separated by bars.

The text can be read in one way only: if the heads are plain, that is without the
characters of the punctuation, then two terms with the same text are the same
term (`alts_injective`).  The proof reads both texts from the left and compares
what remains, so every lemma carries the rest of the text along.
-/

namespace Leviathan.Spelling

open List

/-- A head with its arguments, each of them a choice. -/
inductive Term where
  | app (head : Str) (args : List (List Term))

mutual

/-- The text of a term. -/
def term : Term → Str
  | .app head args => head ++ argList args

/-- The bracketed arguments, if there are any. -/
def argList : List (List Term) → Str
  | [] => []
  | a :: as => '<' :: (alts a ++ argTail as)

/-- The arguments after the first one, and the closing bracket. -/
def argTail : List (List Term) → Str
  | [] => ['>']
  | a :: as => ',' :: ' ' :: (alts a ++ argTail as)

/-- The text of a choice. -/
def alts : List Term → Str
  | [] => []
  | t :: ts => term t ++ altTail ts

/-- The terms of a choice after the first one. -/
def altTail : List Term → Str
  | [] => []
  | t :: ts => ' ' :: '|' :: ' ' :: (term t ++ altTail ts)

end

/-- A character of the punctuation. -/
def isMark (c : Char) : Bool := c = '<' || c = '>' || c = ',' || c = '|' || c = ' '

/-- A head without punctuation. -/
def PlainHead (head : Str) : Prop := head ≠ [] ∧ ∀ c ∈ head, isMark c = false

instance (head : Str) : Decidable (PlainHead head) :=
  decidable_of_iff (head ≠ [] ∧ head.all (fun c => !isMark c) = true) (by simp [PlainHead])

mutual

/-- Every head in the term is plain. -/
def Plain : Term → Prop
  | .app head args => PlainHead head ∧ PlainArgs args

/-- Every argument is a plain choice. -/
def PlainArgs : List (List Term) → Prop
  | [] => True
  | a :: as => PlainAlts a ∧ PlainArgs as

/-- Every term of the choice is plain. -/
def PlainAlts : List Term → Prop
  | [] => True
  | t :: ts => Plain t ∧ PlainAlts ts

end

/-- A text that starts with one of the given marks, or is empty. -/
def Starts (marks : List Char) (rest : Str) : Prop := ∀ c, rest.head? = some c → c ∈ marks

/-- A plain head is cut off in front of a mark in one way only. -/
theorem head_inj {head head' rest rest' : Str} (hhead : ∀ c ∈ head, isMark c = false)
    (hhead' : ∀ c ∈ head', isMark c = false)
    (hrest : ∀ c, rest.head? = some c → isMark c = true)
    (hrest' : ∀ c, rest'.head? = some c → isMark c = true) (h : head ++ rest = head' ++ rest') :
    head = head' ∧ rest = rest' := by
  induction head generalizing head' with
  | nil =>
    cases head' with
    | nil => exact ⟨rfl, h⟩
    | cons c cs =>
      have hmark := hrest c (by rw [nil_append] at h; rw [h]; rfl)
      rw [hhead' c mem_cons_self] at hmark
      cases hmark
  | cons c cs ih =>
    cases head' with
    | nil =>
      have hmark := hrest' c (by rw [nil_append] at h; rw [← h]; rfl)
      rw [hhead c mem_cons_self] at hmark
      cases hmark
    | cons d ds =>
      obtain ⟨rfl, htail⟩ := List.cons.inj h
      obtain ⟨rfl, heq⟩ := ih (fun e he => hhead e (mem_cons_of_mem _ he))
        (fun e he => hhead' e (mem_cons_of_mem _ he)) htail
      exact ⟨rfl, heq⟩

/-- What follows a head starts with a mark. -/
theorem argList_starts (args : List (List Term)) {rest : Str} (hrest : Starts [',', '>', ' '] rest)
    (c : Char) (h : (argList args ++ rest).head? = some c) : isMark c = true := by
  cases args with
  | nil =>
    have hmem := hrest c h
    simp only [mem_cons, not_mem_nil, or_false] at hmem
    rcases hmem with rfl | rfl | rfl <;> rfl
  | cons a as =>
    obtain rfl : '<' = c := Option.some.inj h
    rfl

/-- What follows a term of a choice starts with a bar, a comma or a bracket. -/
theorem altTail_starts (ts : List Term) {rest : Str} (hrest : Starts [',', '>'] rest) :
    Starts [',', '>', ' '] (altTail ts ++ rest) := by
  intro c h
  cases ts with
  | nil =>
    have hmem := hrest c h
    simp only [mem_cons, not_mem_nil, or_false] at hmem ⊢
    rcases hmem with hmem | hmem
    · exact .inl hmem
    · exact .inr (.inl hmem)
  | cons t ts =>
    obtain rfl : ' ' = c := Option.some.inj h
    decide

/-- What follows an argument starts with a comma or a bracket. -/
theorem argTail_starts (as : List (List Term)) (rest : Str) :
    Starts [',', '>'] (argTail as ++ rest) := by
  intro c h
  cases as with
  | nil =>
    obtain rfl : '>' = c := Option.some.inj h
    decide
  | cons a as =>
    obtain rfl : ',' = c := Option.some.inj h
    decide

/-- A choice with a plain term in it is not empty text. -/
theorem alts_ne {t : Term} {ts : List Term} {rest rest' : Str} (ht : Plain t)
    (hrest' : Starts [',', '>'] rest') : alts (t :: ts) ++ rest ≠ alts [] ++ rest' := by
  intro h
  cases t with
  | app head args =>
    rw [Plain] at ht
    obtain ⟨c, cs, rfl⟩ := exists_cons_of_ne_nil ht.1.1
    rw [alts, alts, term, nil_append] at h
    have hmem := hrest' c (by rw [← h]; rfl)
    have hplain := ht.1.2 c mem_cons_self
    simp only [mem_cons, not_mem_nil, or_false] at hmem
    rcases hmem with rfl | rfl <;> exact absurd hplain (by decide)

mutual

/-- A term is read in one way. -/
theorem term_inj : ∀ {t u : Term} {rest rest' : Str}, Plain t → Plain u →
    Starts [',', '>', ' '] rest → Starts [',', '>', ' '] rest' →
    term t ++ rest = term u ++ rest' → t = u ∧ rest = rest'
  | .app head args, .app head' args', rest, rest', ht, hu, hrest, hrest', h => by
    rw [term, term, append_assoc, append_assoc] at h
    rw [Plain] at ht hu
    obtain ⟨rfl, hargs⟩ := head_inj ht.1.2 hu.1.2 (argList_starts args hrest)
      (argList_starts args' hrest') h
    obtain ⟨rfl, heq⟩ := argList_inj ht.2 hu.2 hrest hrest' hargs
    exact ⟨rfl, heq⟩

/-- A list of arguments is read in one way. -/
theorem argList_inj : ∀ {as bs : List (List Term)} {rest rest' : Str}, PlainArgs as →
    PlainArgs bs → Starts [',', '>', ' '] rest → Starts [',', '>', ' '] rest' →
    argList as ++ rest = argList bs ++ rest' → as = bs ∧ rest = rest'
  | [], [], _, _, _, _, _, _, h => ⟨rfl, h⟩
  | [], b :: bs, rest, rest', _, _, hrest, _, h => by
    have hmem := hrest '<' (by rw [argList, nil_append] at h; rw [h, argList]; rfl)
    exact absurd hmem (by decide)
  | a :: as, [], rest, rest', _, _, _, hrest', h => by
    have hmem := hrest' '<' (by
      rw [argList, argList, nil_append] at h
      rw [← h]
      rfl)
    exact absurd hmem (by decide)
  | a :: as, b :: bs, rest, rest', ha, hb, _, _, h => by
    rw [argList, argList, cons_append, cons_append, append_assoc,
      append_assoc] at h
    rw [PlainArgs] at ha hb
    obtain ⟨rfl, htail⟩ := alts_inj ha.1 hb.1 (argTail_starts as rest) (argTail_starts bs rest')
      (List.cons.inj h).2
    obtain ⟨rfl, heq⟩ := argTail_inj ha.2 hb.2 htail
    exact ⟨rfl, heq⟩

/-- The remaining arguments are read in one way. -/
theorem argTail_inj : ∀ {as bs : List (List Term)} {rest rest' : Str}, PlainArgs as →
    PlainArgs bs → argTail as ++ rest = argTail bs ++ rest' → as = bs ∧ rest = rest'
  | [], [], _, _, _, _, h => ⟨rfl, (List.cons.inj h).2⟩
  | [], b :: bs, rest, rest', _, _, h => by
    rw [argTail, argTail] at h
    exact absurd (List.cons.inj h).1 (by decide)
  | a :: as, [], rest, rest', _, _, h => by
    rw [argTail, argTail] at h
    exact absurd (List.cons.inj h).1 (by decide)
  | a :: as, b :: bs, rest, rest', ha, hb, h => by
    rw [argTail, argTail] at h
    simp only [cons_append, append_assoc, List.cons.injEq, true_and] at h
    rw [PlainArgs] at ha hb
    obtain ⟨rfl, htail⟩ := alts_inj ha.1 hb.1 (argTail_starts as rest) (argTail_starts bs rest') h
    obtain ⟨rfl, heq⟩ := argTail_inj ha.2 hb.2 htail
    exact ⟨rfl, heq⟩

/-- A choice is read in one way. -/
theorem alts_inj : ∀ {ts us : List Term} {rest rest' : Str}, PlainAlts ts → PlainAlts us →
    Starts [',', '>'] rest → Starts [',', '>'] rest' →
    alts ts ++ rest = alts us ++ rest' → ts = us ∧ rest = rest'
  | [], [], _, _, _, _, _, _, h => ⟨rfl, h⟩
  | [], u :: us, rest, rest', _, hu, hrest, _, h => by
    rw [PlainAlts] at hu
    exact absurd h.symm (alts_ne hu.1 hrest)
  | t :: ts, [], rest, rest', ht, _, _, hrest', h => by
    rw [PlainAlts] at ht
    exact absurd h (alts_ne ht.1 hrest')
  | t :: ts, u :: us, rest, rest', ht, hu, hrest, hrest', h => by
    rw [alts, alts, append_assoc, append_assoc] at h
    rw [PlainAlts] at ht hu
    obtain ⟨rfl, htail⟩ := term_inj ht.1 hu.1 (altTail_starts ts hrest) (altTail_starts us hrest') h
    obtain ⟨rfl, heq⟩ := altTail_inj ht.2 hu.2 hrest hrest' htail
    exact ⟨rfl, heq⟩

/-- The remaining terms of a choice are read in one way. -/
theorem altTail_inj : ∀ {ts us : List Term} {rest rest' : Str}, PlainAlts ts → PlainAlts us →
    Starts [',', '>'] rest → Starts [',', '>'] rest' →
    altTail ts ++ rest = altTail us ++ rest' → ts = us ∧ rest = rest'
  | [], [], _, _, _, _, _, _, h => ⟨rfl, h⟩
  | [], u :: us, rest, rest', _, _, hrest, _, h => by
    have hmem := hrest ' ' (by rw [altTail, nil_append] at h; rw [h, altTail]; rfl)
    exact absurd hmem (by decide)
  | t :: ts, [], rest, rest', _, _, _, hrest', h => by
    have hmem := hrest' ' ' (by
      rw [altTail, altTail, nil_append] at h
      rw [← h]
      rfl)
    exact absurd hmem (by decide)
  | t :: ts, u :: us, rest, rest', ht, hu, hrest, hrest', h => by
    rw [altTail, altTail] at h
    simp only [cons_append, append_assoc, List.cons.injEq, true_and] at h
    rw [PlainAlts] at ht hu
    obtain ⟨rfl, htail⟩ := term_inj ht.1 hu.1 (altTail_starts ts hrest) (altTail_starts us hrest') h
    obtain ⟨rfl, heq⟩ := altTail_inj ht.2 hu.2 hrest hrest' htail
    exact ⟨rfl, heq⟩

end

/-- **One reading.**  Two plain choices with the same text are the same. -/
theorem alts_injective {ts us : List Term} (hts : PlainAlts ts) (hus : PlainAlts us)
    (h : alts ts = alts us) : ts = us := by
  have hend : Starts [',', '>'] [] := fun c hc => by cases hc
  have hnil : alts ts ++ [] = alts us ++ [] := by rw [h]
  exact (alts_inj hts hus hend hend hnil).1

/-- Induction over a term: what holds of the terms in the arguments holds of it. -/
theorem Term.induction {P : Term → Prop}
    (app : ∀ head args, (∀ arg ∈ args, ∀ t ∈ arg, P t) → P (.app head args)) : ∀ t, P t := by
  intro t
  refine @Term.rec P (fun args => ∀ arg ∈ args, ∀ t ∈ arg, P t) (fun ts => ∀ t ∈ ts, P t) app
    ?_ ?_ ?_ ?_ t
  · intro arg harg
    cases harg
  · intro arg args harg hargs other hother
    rcases List.mem_cons.mp hother with rfl | hother
    · exact harg
    · exact hargs other hother
  · intro t ht
    cases ht
  · intro t ts ht hts u hu
    rcases List.mem_cons.mp hu with rfl | hu
    · exact ht
    · exact hts u hu

/-- Plain choices taken together. -/
theorem plainAlts_append {ts us : List Term} (hts : PlainAlts ts) (hus : PlainAlts us) :
    PlainAlts (ts ++ us) := by
  induction ts with
  | nil => exact hus
  | cons t ts ih =>
    rw [PlainAlts] at hts
    rw [cons_append, PlainAlts]
    exact ⟨hts.1, ih hts.2⟩

/-- The text of a choice is the texts of its terms, with bars between them. -/
theorem alts_append {ts us : List Term} (hts : ts ≠ []) (hus : us ≠ []) :
    alts (ts ++ us) = alts ts ++ (" | ".toList ++ alts us) := by
  obtain ⟨t, ts, rfl⟩ := exists_cons_of_ne_nil hts
  obtain ⟨u, us, rfl⟩ := exists_cons_of_ne_nil hus
  have htail : ∀ ts : List Term, altTail (ts ++ u :: us) = altTail ts ++ (" | ".toList ++ alts (u :: us)) := by
    intro ts
    induction ts with
    | nil => simp [altTail, alts]
    | cons t ts ih => simp [altTail, ih]
  rw [cons_append, alts, alts, htail, append_assoc]

/-- The text of the choices in a list, all taken together. -/
theorem alts_flatten {choices : List (List Term)} (h : ∀ ts ∈ choices, ts ≠ []) :
    alts choices.flatten = List.intercalate " | ".toList (choices.map alts) := by
  induction choices with
  | nil => simp [alts]
  | cons ts rest ih =>
    cases rest with
    | nil => simp [List.intercalate]
    | cons us rest =>
      have hrest : (us :: rest).flatten ≠ [] := by
        simp only [flatten_cons, ne_eq, append_eq_nil_iff, not_and]
        intro hnil
        exact absurd hnil (h us (by simp))
      rw [flatten_cons, alts_append (h ts mem_cons_self) hrest,
        ih fun vs hvs => h vs (mem_cons_of_mem _ hvs)]
      simp [List.intercalate]

/-- The text of a list of arguments. -/
theorem argList_cons (a : List Term) (as : List (List Term)) :
    argList (a :: as) =
      "<".toList ++ List.intercalate ", ".toList ((a :: as).map alts) ++ ">".toList := by
  have htail : ∀ (a : List Term) (as : List (List Term)), alts a ++ argTail as =
      List.intercalate ", ".toList ((a :: as).map alts) ++ ">".toList := by
    intro a as
    induction as generalizing a with
    | nil => simp [argTail, List.intercalate]
    | cons b bs ih =>
      rw [argTail, ih b]
      simp [List.intercalate]
  rw [argList, htail]
  simp

end Leviathan.Spelling
