import Leviathan.Lib.Text

/-!
# Lines and words

Line-oriented files are written one blank-separated record a line, and read with
`getline` and the stream operator `>>`.  `lines` and `words` are those readers,
`unwords` the writer, and a `Word` is a string that survives them: not empty and
without a blank.
-/

namespace Leviathan.Text

/-- A string that `>>` reads in one piece. -/
def IsWord (s : Str) : Prop := s ≠ [] ∧ s.all (fun c => !isSpace c) = true

instance (s : Str) : Decidable (IsWord s) :=
  inferInstanceAs (Decidable (s ≠ [] ∧ s.all (fun c => !isSpace c) = true))

/-- A word, with the proof that it is one. -/
structure Word where
  text : Str
  isWord : IsWord text
deriving DecidableEq

/-- `getline`, until the end of the file: a line break at the end of the file does
not start another line. -/
def lines : Str → List Str
  | [] => []
  | c :: cs =>
    if c = '\n' then [] :: lines cs
    else match lines cs with
      | [] => [[c]]
      | l :: ls => (c :: l) :: ls

/-- The words that `>>` reads from a line. -/
def words (s : Str) : List Str := (s.splitOnP isSpace).filter (!·.isEmpty)

/-- Words with one blank between two of them. -/
def unwords (ws : List Str) : Str := List.intercalate [' '] ws

theorem IsWord.not_isSpace {s : Str} (h : IsWord s) {c : Char} (hc : c ∈ s) : isSpace c = false := by
  simpa using List.all_eq_true.mp h.2 c hc

/-- A word holds no line break. -/
theorem IsWord.newline_not_mem {s : Str} (h : IsWord s) : '\n' ∉ s :=
  fun hmem => absurd (h.not_isSpace hmem) (by decide)

theorem unwords_cons_cons (w v : Str) (ws : List Str) :
    unwords (w :: v :: ws) = w ++ ' ' :: unwords (v :: ws) := by
  simp [unwords, List.intercalate]

@[simp] theorem unwords_singleton (w : Str) : unwords [w] = w := by
  simp [unwords, List.intercalate]

/-- A line that is one word. -/
theorem words_of_isWord {w : Str} (h : IsWord w) : words w = [w] := by
  have hsplit : w.splitOnP isSpace = [w] :=
    List.splitOnP_eq_singleton fun c hc => h.not_isSpace hc
  rw [words, hsplit]
  simp [h.1]

/-- The first word of a line. -/
theorem words_append {w : Str} (h : IsWord w) (rest : Str) :
    words (w ++ ' ' :: rest) = w :: words rest := by
  have hsplit : (w ++ ' ' :: rest).splitOnP isSpace = w :: rest.splitOnP isSpace :=
    List.splitOnP_append_cons_of_forall_mem (fun c hc => h.not_isSpace hc) ' ' (by decide) rest
  rw [words, hsplit]
  simp [h.1, words]

/-- **Words round-trip.**  What is printed as words is read as these words. -/
theorem words_unwords {ws : List Str} (hne : ws ≠ []) (h : ∀ w ∈ ws, IsWord w) :
    words (unwords ws) = ws := by
  induction ws with
  | nil => exact absurd rfl hne
  | cons w ws ih =>
    have hw := h w List.mem_cons_self
    cases ws with
    | nil => rw [unwords_singleton, words_of_isWord hw]
    | cons v ws =>
      rw [unwords_cons_cons, words_append hw,
        ih (List.cons_ne_nil v ws) fun u hu => h u (List.mem_cons_of_mem w hu)]

/-- Words with blanks between them make one line. -/
theorem newline_not_mem_unwords {ws : List Str} (h : ∀ w ∈ ws, IsWord w) : '\n' ∉ unwords ws := by
  induction ws with
  | nil => simp [unwords, List.intercalate]
  | cons w ws ih =>
    have hw := (h w List.mem_cons_self).newline_not_mem
    cases ws with
    | nil => rwa [unwords_singleton]
    | cons v ws =>
      rw [unwords_cons_cons, List.mem_append, List.mem_cons]
      rintro (hmem | heq | hmem)
      · exact hw hmem
      · exact absurd heq (by decide)
      · exact ih (fun u hu => h u (List.mem_cons_of_mem w hu)) hmem

/-- The first line of a file. -/
theorem lines_append {l : Str} (h : '\n' ∉ l) (rest : Str) :
    lines (l ++ '\n' :: rest) = l :: lines rest := by
  induction l with
  | nil => simp [lines]
  | cons c l ih =>
    obtain ⟨hc, hl⟩ := not_or.mp (fun hmem => h (List.mem_cons.mpr hmem))
    rw [List.cons_append, lines, if_neg (fun heq => hc heq.symm), ih hl]

/-- A printed number is a word. -/
theorem isWord_decimal (n : Int) : IsWord (decimal n) :=
  ⟨decimal_ne_nil n, List.all_eq_true.mpr fun _ hc => by simp [decimal_not_isSpace hc]⟩

end Leviathan.Text
