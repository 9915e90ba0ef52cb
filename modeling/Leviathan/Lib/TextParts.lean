import Mathlib.Data.List.Basic

/-!
# Texts of words and marks

A text is written as words and single marks between them.  Replacing words by texts of the same
kind is replacing textParts by lists of textParts, and replacements one after the other compose
(`substitute_substitute`).  Replacing several words one after the other replaces them all at once
if no text put in mentions a word that is still to be replaced (`oneByOne_eq`).
-/

namespace Leviathan

/-- A word or a mark. -/
inductive TextPart where
  | word (w : List Char)
  | mark (c : Char)
deriving DecidableEq, Repr

namespace TextPart

def text : TextPart → List Char
  | word w => w
  | mark c => [c]

/-- The text of parts. -/
def spell (ls : List TextPart) : List Char := ls.flatMap text

@[simp] theorem spell_nil : spell [] = [] := rfl

@[simp] theorem spell_cons (l : TextPart) (ls : List TextPart) :
    spell (l :: ls) = l.text ++ spell ls := rfl

@[simp] theorem spell_append (ls ks : List TextPart) : spell (ls ++ ks) = spell ls ++ spell ks :=
  List.flatMap_append

/-! ### Texts that can be told apart -/

/-- The parts begin with a word. -/
def startsWord : List TextPart → Bool
  | word _ :: _ => true
  | _ => false

variable (isWordChar : Char → Bool)

/-- A word has characters, all of them word characters. -/
def IsWord (w : List Char) : Prop := w ≠ [] ∧ ∀ c ∈ w, isWordChar c = true

/-- Words and marks take turns: no word follows a word. -/
def Apart : List TextPart → Prop
  | [] => True
  | mark c :: ls => isWordChar c = false ∧ Apart ls
  | word w :: ls => IsWord isWordChar w ∧ startsWord ls = false ∧ Apart ls

variable {isWordChar}

theorem Apart.append {ls ks : List TextPart} (hls : Apart isWordChar ls)
    (hks : Apart isWordChar ks) (hmark : startsWord ks = false) :
    Apart isWordChar (ls ++ ks) := by
  induction ls with
  | nil => exact hks
  | cons l ls ih =>
    cases l with
    | mark c => exact ⟨hls.1, ih hls.2⟩
    | word w =>
      refine ⟨hls.1, ?_, ih hls.2.2⟩
      cases ls with
      | nil => exact hmark
      | cons k ls => cases k <;> exact hls.2.1

/-! ### Replacing words -/

/-- Replace the words that `f` has a text for. -/
def substitute (f : List Char → Option (List TextPart)) (ls : List TextPart) : List TextPart :=
  ls.flatMap fun l =>
    match l with
    | word w => (f w).getD [word w]
    | mark c => [mark c]

section
variable {f g : List Char → Option (List TextPart)}

@[simp] theorem substitute_nil : substitute f [] = [] := rfl

@[simp] theorem substitute_word (w : List Char) (ls : List TextPart) :
    substitute f (word w :: ls) = (f w).getD [word w] ++ substitute f ls := rfl

@[simp] theorem substitute_mark (c : Char) (ls : List TextPart) :
    substitute f (mark c :: ls) = mark c :: substitute f ls := rfl

@[simp] theorem substitute_append (ls ks : List TextPart) :
    substitute f (ls ++ ks) = substitute f ls ++ substitute f ks := List.flatMap_append

/-- A text is left as it is if none of its words is replaced. -/
theorem substitute_eq_self {ls : List TextPart} (h : ∀ w, word w ∈ ls → f w = none) :
    substitute f ls = ls := by
  induction ls with
  | nil => rfl
  | cons l ls ih =>
    have hls := ih fun w hw => h w (List.mem_cons_of_mem l hw)
    cases l with
    | mark c => rw [substitute_mark, hls]
    | word w =>
      rw [substitute_word, hls, h w (List.mem_cons_self ..)]
      rfl

/-- One replacement after another. -/
theorem substitute_substitute (ls : List TextPart) :
    substitute g (substitute f ls) = substitute (fun w =>
      match f w with
      | some ks => some (substitute g ks)
      | none => g w) ls := by
  induction ls with
  | nil => rfl
  | cons l ls ih =>
    cases l with
    | mark c => rw [substitute_mark, substitute_mark, substitute_mark, ih]
    | word w =>
      rw [substitute_word, substitute_append, ih, substitute_word]
      cases hf : f w with
      | some ks => rfl
      | none => simp

theorem apart_substitute (hf : ∀ w ks, f w = some ks → Apart isWordChar ks) {ls : List TextPart}
    (hls : Apart isWordChar ls) : Apart isWordChar (substitute f ls) := by
  induction ls with
  | nil => trivial
  | cons l ls ih =>
    cases l with
    | mark c => exact ⟨hls.1, ih hls.2⟩
    | word w =>
      have hmark : startsWord (substitute f ls) = false := by
        cases ls with
        | nil => rfl
        | cons k ls =>
          cases k with
          | mark c => rfl
          | word v => exact absurd hls.2.1 (by simp [startsWord])
      rw [substitute_word]
      refine Apart.append ?_ (ih hls.2.2) hmark
      cases hfw : f w with
      | some ks => exact hf w ks hfw
      | none => exact ⟨hls.1, rfl, trivial⟩

end

/-! ### Lists between marks -/

/-- A function that goes through a text piece by piece goes through a joined text part by
part. -/
theorem intercalate_of_append {α β : Type} {φ : List α → List β} (hnil : φ [] = [])
    (happend : ∀ xs ys, φ (xs ++ ys) = φ xs ++ φ ys) (sep : List α) (parts : List (List α)) :
    φ (List.intercalate sep parts) = List.intercalate (φ sep) (parts.map φ) := by
  induction parts with
  | nil => simpa [List.intercalate] using hnil
  | cons x parts ih =>
    cases parts with
    | nil => simp [List.intercalate]
    | cons y parts =>
      have hjoin : ∀ {γ : Type} (s a b : List γ) (l : List (List γ)),
          List.intercalate s (a :: b :: l) = a ++ (s ++ List.intercalate s (b :: l)) := by
        intro γ s a b l
        simp [List.intercalate]
      rw [List.map_cons, List.map_cons, hjoin, hjoin, happend, happend, ih, List.map_cons]

theorem spell_intercalate (sep : List TextPart) (parts : List (List TextPart)) :
    spell (List.intercalate sep parts) = List.intercalate (spell sep) (parts.map spell) :=
  intercalate_of_append rfl spell_append sep parts

theorem apart_intercalate {c : Char} {sep : List TextPart} {parts : List (List TextPart)}
    (hparts : ∀ ls ∈ parts, Apart isWordChar ls)
    (hends : ∀ ls, Apart isWordChar ls → Apart isWordChar (mark c :: sep ++ ls)) :
    Apart isWordChar (List.intercalate (mark c :: sep) parts) := by
  induction parts with
  | nil => trivial
  | cons x parts ih =>
    have hx := hparts x (List.mem_cons_self ..)
    cases parts with
    | nil => simpa [List.intercalate] using hx
    | cons y parts =>
      have hjoin : List.intercalate (mark c :: sep) (x :: y :: parts) =
          x ++ (mark c :: sep ++ List.intercalate (mark c :: sep) (y :: parts)) := by
        simp [List.intercalate]
      rw [hjoin]
      refine hx.append (hends _ (ih fun ls hls => hparts ls (List.mem_cons_of_mem x hls))) rfl

/-! ### One word after the other -/

/-- Only this word is replaced. -/
def only (w : List Char) (ks : List TextPart) : List Char → Option (List TextPart) :=
  fun v => if v = w then some ks else none

/-- The text for a word in a table. -/
def among : List (List Char × List TextPart) → List Char → Option (List TextPart)
  | [], _ => none
  | (w, ks) :: table, v => if v = w then some ks else among table v

/-- The words of the table are replaced one after the other. -/
def oneByOne (table : List (List Char × List TextPart)) (ls : List TextPart) : List TextPart :=
  table.foldl (fun ls entry => substitute (only entry.1 entry.2) ls) ls

/-- No text of the table mentions a word that comes later in it. -/
def NoneLater : List (List Char × List TextPart) → Prop
  | [] => True
  | entry :: table => (∀ w, word w ∈ entry.2 → among table w = none) ∧ NoneLater table

/-- **One by one is all at once** where no text mentions a word that is still to be replaced. -/
theorem oneByOne_eq {table : List (List Char × List TextPart)} (h : NoneLater table)
    (ls : List TextPart) : oneByOne table ls = substitute (among table) ls := by
  induction table generalizing ls with
  | nil => exact (substitute_eq_self fun _ _ => rfl).symm
  | cons entry table ih =>
    show oneByOne table (substitute (only entry.1 entry.2) ls) = _
    rw [ih h.2, substitute_substitute]
    congr 1
    funext w
    show _ = if w = entry.1 then some entry.2 else among table w
    by_cases hw : w = entry.1
    · rw [if_pos hw]
      simp only [only, if_pos hw]
      rw [substitute_eq_self h.1]
    · rw [if_neg hw]
      simp only [only, if_neg hw]

end TextPart

end Leviathan
