import Leviathan.Lib.Text

/-!
# The quoted parts of a statement

A statement is text with quoted parts, string literals and quoted names, and with placeholders.
`read` finds them by the quoting rules of MySQL: a quote is closed by the same quote, a doubled
quote inside stands for one, and in string literals a backslash escapes the character after it.

The other side is a statement put together from pieces.  The key fact is `read_sql_iff`: pieces
of bare text between the quoted ones are read back exactly when no quoted name has a backtick.
-/

namespace Leviathan.SqlText

open List

/-- The quoting characters. -/
inductive Quote where
  | single
  | double
  | backtick
deriving DecidableEq, Repr

/-- The character of a quote. -/
def Quote.char : Quote → Char
  | .single => '\''
  | .double => '"'
  | .backtick => '`'

/-- A backslash escapes in string literals and not in quoted names. -/
def Quote.escapes : Quote → Bool
  | .backtick => false
  | _ => true

/-- The quote that a character opens. -/
def opens (c : Char) : Option Quote :=
  if c = '\'' then some .single
  else if c = '"' then some .double
  else if c = '`' then some .backtick
  else none

/-- What the statement holds at one place. -/
inductive Token where
  | quoted (q : Quote) (content : Str)
  | placeholder
  | other (c : Char)
deriving DecidableEq, Repr

/-- The characters that an escape stands for; `\%` and `\_` keep their backslash. -/
def unescape (c : Char) : Str :=
  if c = '0' then ['\x00']
  else if c = 'b' then ['\x08']
  else if c = 'n' then ['\n']
  else if c = 'r' then ['\r']
  else if c = 't' then ['\t']
  else if c = 'Z' then ['\x1a']
  else if c = '%' ∨ c = '_' then ['\\', c]
  else [c]

/-- Where the reader stands.  After a quote inside a quoted part the next character decides
whether it was doubled. -/
inductive Mode where
  | plain
  | inside (q : Quote) (content : Str)
  | escaped (q : Quote) (content : Str)
  | closing (q : Quote) (content : Str)

/-- One character outside of quotes. -/
def start (c : Char) : List Token × Mode :=
  match opens c with
  | some q => ([], .inside q [])
  | none => ([if c = '?' then .placeholder else .other c], .plain)

/-- One character. -/
def step : Mode → Char → List Token × Mode
  | .plain, c => start c
  | .inside q s, c =>
    if c = q.char then ([], .closing q s)
    else if c = '\\' ∧ q.escapes = true then ([], .escaped q s)
    else ([], .inside q (s ++ [c]))
  | .escaped q s, c => ([], .inside q (s ++ unescape c))
  | .closing q s, c =>
    if c = q.char then ([], .inside q (s ++ [c]))
    else (.quoted q s :: (start c).1, (start c).2)

/-- The end of the statement; a quote that is still open is an error. -/
def finish : Mode → Option (List Token)
  | .plain => some []
  | .closing q s => some [.quoted q s]
  | _ => none

/-- The tokens of a statement. -/
def read : Mode → Str → Option (List Token)
  | m, [] => finish m
  | m, c :: cs => (read (step m c).2 cs).map ((step m c).1 ++ ·)

/-- The placeholders outside of quotes. -/
def placeholders (ts : List Token) : Nat := ts.count .placeholder

/-! ### Pieces -/

/-- A piece of a statement; a placeholder carries what it stands for. -/
inductive Piece (α : Type) where
  | text (s : Str)
  | name (s : Str)
  | string (s : Str)
  | hole (a : α)

/-- A character of a string literal as it is written. -/
def writeChar (c : Char) : Str :=
  if c = '\'' then ['\'', '\''] else if c = '\\' then ['\\', '\\'] else [c]

namespace Piece

variable {α β : Type}

/-- The text of a piece. -/
def sql : Piece α → Str
  | text s => s
  | name s => '`' :: (s ++ ['`'])
  | string s => '\'' :: (s.flatMap writeChar ++ ['\''])
  | hole _ => ['?']

/-- What a reader has to find there. -/
def tokens : Piece α → List Token
  | text s => s.map .other
  | name s => [.quoted .backtick s]
  | string s => [.quoted .single s]
  | hole _ => [.placeholder]

/-- What a placeholder stands for. -/
def stands : Piece α → Option α
  | hole a => some a
  | _ => none

end Piece

/-- The text of a list of pieces. -/
def sql {α : Type} (ps : List (Piece α)) : Str := ps.flatMap Piece.sql

/-- The tokens of a list of pieces. -/
def tokens {α : Type} (ps : List (Piece α)) : List Token := ps.flatMap Piece.tokens

/-- What the placeholders stand for, from left to right. -/
def holes {α : Type} (ps : List (Piece α)) : List α := ps.filterMap Piece.stands

/-- The names that are quoted. -/
def names {α : Type} (ps : List (Piece α)) : List Str :=
  ps.filterMap fun
    | .name s => some s
    | _ => none

/-- Text with no quote and no placeholder. -/
def Bare (s : Str) : Prop := ∀ c ∈ s, opens c = none ∧ c ≠ '?'

instance (s : Str) : Decidable (Bare s) := inferInstanceAs (Decidable (∀ c ∈ s, _))

/-- A piece of text is bare and not empty. -/
def Piece.Fine {α : Type} : Piece α → Prop
  | .text s => s ≠ [] ∧ Bare s
  | _ => True

/-- Two pieces that may follow each other: not two string literals, and not two names. -/
def Piece.Apart {α : Type} : Piece α → Piece α → Prop
  | .name _, .name _ => False
  | .string _, .string _ => False
  | _, _ => True

/-- Pieces that keep apart what is quoted. -/
structure Formed {α : Type} (ps : List (Piece α)) : Prop where
  fine : ∀ p ∈ ps, p.Fine
  apart : ps.IsChain Piece.Apart

section Pieces

variable {α : Type}

@[simp] theorem sql_append (ps qs : List (Piece α)) : sql (ps ++ qs) = sql ps ++ sql qs :=
  flatMap_append

@[simp] theorem sql_cons (p : Piece α) (ps : List (Piece α)) : sql (p :: ps) = p.sql ++ sql ps :=
  rfl

@[simp] theorem sql_nil : sql ([] : List (Piece α)) = [] := rfl

@[simp] theorem holes_append (ps qs : List (Piece α)) :
    holes (ps ++ qs) = holes ps ++ holes qs :=
  filterMap_append

@[simp] theorem holes_text (s : Str) (ps : List (Piece α)) :
    holes (.text s :: ps) = holes ps := rfl

@[simp] theorem holes_name (s : Str) (ps : List (Piece α)) :
    holes (.name s :: ps) = holes ps := rfl

@[simp] theorem holes_string (s : Str) (ps : List (Piece α)) :
    holes (.string s :: ps) = holes ps := rfl

@[simp] theorem holes_hole (a : α) (ps : List (Piece α)) :
    holes (.hole a :: ps) = a :: holes ps := rfl

@[simp] theorem holes_nil : holes ([] : List (Piece α)) = [] := rfl

/-- Bare text may stand before anything that is well formed. -/
theorem Formed.text {s : Str} {ps : List (Piece α)} (hne : s ≠ []) (hs : Bare s)
    (h : Formed ps) : Formed (.text s :: ps) := by
  refine ⟨?_, ?_⟩
  · intro p hp
    rcases List.mem_cons.mp hp with rfl | hp
    · exact ⟨hne, hs⟩
    · exact h.fine p hp
  · refine List.isChain_cons.mpr ⟨?_, h.apart⟩
    intro q _
    trivial

/-- Two well formed lists, with bare text between them. -/
theorem Formed.between {s : Str} {ps qs : List (Piece α)} (hne : s ≠ []) (hs : Bare s)
    (hp : Formed ps) (hq : Formed qs) : Formed (ps ++ .text s :: qs) := by
  have htail := hq.text hne hs
  refine ⟨?_, ?_⟩
  · intro p h
    rcases List.mem_append.mp h with h | h
    · exact hp.fine p h
    · exact htail.fine p h
  · refine List.isChain_append.mpr ⟨hp.apart, htail.apart, ?_⟩
    intro a _ b hb
    obtain rfl : Piece.text s = b := by simpa using hb
    cases a <;> trivial

/-- Pieces that start with text, if with anything. -/
def Led (ps : List (Piece α)) : Prop := ∀ p ∈ ps.head?, ∃ s, p = .text s

theorem Led.append {ps qs : List (Piece α)} (hp : Led ps) (hq : Led qs) : Led (ps ++ qs) := by
  cases ps with
  | nil => exact hq
  | cons p ps => exact hp

theorem led_text (s : Str) (ps : List (Piece α)) : Led (.text s :: ps) := by
  intro p hp
  exact ⟨s, (Option.some.inj hp).symm⟩

/-- Pieces that start with text may stand after anything. -/
theorem Formed.append {ps qs : List (Piece α)} (hp : Formed ps) (hq : Formed qs) (hled : Led qs) :
    Formed (ps ++ qs) := by
  refine ⟨?_, ?_⟩
  · intro p h
    rcases List.mem_append.mp h with h | h
    · exact hp.fine p h
    · exact hq.fine p h
  · refine List.isChain_append.mpr ⟨hp.apart, hq.apart, ?_⟩
    intro a _ b hb
    obtain ⟨s, rfl⟩ := hled b hb
    cases a <;> trivial

@[simp] theorem formed_nil : Formed ([] : List (Piece α)) := ⟨nofun, .nil⟩

/-- Pieces in parentheses. -/
theorem Formed.enclosed {s t : Str} {ps : List (Piece α)} (h : Formed ps)
    (hs : s ≠ [] ∧ Bare s) (ht : t ≠ [] ∧ Bare t) : Formed (.text s :: (ps ++ [.text t])) :=
  (Formed.between ht.1 ht.2 h formed_nil).text hs.1 hs.2

theorem formed_name (s : Str) : Formed [(.name s : Piece α)] :=
  ⟨fun p hp => by rw [List.mem_singleton.mp hp]; trivial, .singleton _⟩

theorem formed_string (s : Str) : Formed [(.string s : Piece α)] :=
  ⟨fun p hp => by rw [List.mem_singleton.mp hp]; trivial, .singleton _⟩

theorem formed_hole (a : α) : Formed [(.hole a : Piece α)] :=
  ⟨fun p hp => by rw [List.mem_singleton.mp hp]; trivial, .singleton _⟩

/-- Lists of pieces with a separator between them. -/
def joined (sep : Str) : List (List (Piece α)) → List (Piece α)
  | [] => []
  | [ps] => ps
  | ps :: qs :: rest => ps ++ .text sep :: joined sep (qs :: rest)

theorem sql_joined (sep : Str) (pss : List (List (Piece α))) :
    sql (joined sep pss) = List.intercalate sep (pss.map sql) := by
  induction pss with
  | nil => rfl
  | cons ps pss ih =>
    cases pss with
    | nil => simp [joined]
    | cons qs rest =>
      rw [joined, sql_append, sql_cons, ih]
      simp [Piece.sql]

theorem holes_joined (sep : Str) (pss : List (List (Piece α))) :
    holes (joined sep pss) = pss.flatMap holes := by
  induction pss with
  | nil => rfl
  | cons ps pss ih =>
    cases pss with
    | nil => simp [joined]
    | cons qs rest => rw [joined, holes_append, holes_text, ih, ← flatMap_cons]

theorem formed_joined {sep : Str} (hne : sep ≠ []) (hsep : Bare sep)
    {pss : List (List (Piece α))} (h : ∀ ps ∈ pss, Formed ps) : Formed (joined sep pss) := by
  induction pss with
  | nil => exact formed_nil
  | cons ps pss ih =>
    have hps := h ps mem_cons_self
    have ih := ih fun qs hqs => h qs (mem_cons_of_mem ps hqs)
    cases pss with
    | nil => exact hps
    | cons qs rest => exact hps.between hne hsep ih

theorem Formed.tail {p : Piece α} {ps : List (Piece α)} (h : Formed (p :: ps)) : Formed ps :=
  ⟨fun q hq => h.fine q (mem_cons_of_mem p hq), h.apart.tail⟩

end Pieces

/-! ### Reading -/

/-- Bare text is read character by character. -/
theorem read_bare {s : Str} (hs : Bare s) (rest : Str) :
    read .plain (s ++ rest) = (read .plain rest).map (s.map Token.other ++ ·) := by
  induction s with
  | nil => simp
  | cons c cs ih =>
    obtain ⟨hopen, hmark⟩ := hs c mem_cons_self
    have ih := ih fun d hd => hs d (mem_cons_of_mem c hd)
    rw [cons_append, read]
    simp only [step, start, hopen, if_neg hmark, ih, Option.map_map]
    rfl

/-- A closed quote ends at the next character, unless that is the quote again. -/
theorem read_closing {q : Quote} {s rest : Str} (h : rest.head? ≠ some q.char) :
    read (.closing q s) rest = (read .plain rest).map (.quoted q s :: ·) := by
  cases rest with
  | nil => rfl
  | cons c cs =>
    have hc : c ≠ q.char := fun he => h (by rw [head?_cons, he])
    simp only [read, step, if_neg hc, Option.map_map]
    rfl

/-- The characters of a literal are read back. -/
theorem read_literal (s acc rest : Str) :
    read (.inside .single acc) (s.flatMap writeChar ++ '\'' :: rest) =
      read (.closing .single (acc ++ s)) rest := by
  induction s generalizing acc with
  | nil => simp [read, step, Quote.char]
  | cons c cs ih =>
    rw [flatMap_cons, append_assoc]
    by_cases hquote : c = '\''
    · subst hquote
      simp [writeChar, read, step, Quote.char, ih]
    · by_cases hback : c = '\\'
      · subst hback
        simp [writeChar, read, step, Quote.char, Quote.escapes, unescape, ih]
      · simp [writeChar, hquote, hback, read, step, Quote.char, ih]

/-- A name with no backtick is read back. -/
theorem read_name {s : Str} (hs : '`' ∉ s) (acc rest : Str) :
    read (.inside .backtick acc) (s ++ '`' :: rest) = read (.closing .backtick (acc ++ s)) rest := by
  induction s generalizing acc with
  | nil => simp [read, step, Quote.char]
  | cons c cs ih =>
    have hc : c ≠ '`' := fun he => hs (by rw [he]; exact mem_cons_self)
    have ih := ih (fun h => hs (mem_cons_of_mem c h)) (acc ++ [c])
    rw [cons_append, read]
    simp [step, Quote.char, Quote.escapes, hc, ih]

/-- A name as it would be written by the quoting rules. -/
def double (s : Str) : Str := s.flatMap fun c => if c = '`' then ['`', '`'] else [c]

/-- What a quoted name was read from. -/
theorem inside_name {t acc content : Str} {ts : List Token}
    (h : read (.inside .backtick acc) t = some (.quoted .backtick content :: ts)) :
    ∃ s rest, content = acc ++ s ∧ t = double s ++ '`' :: rest ∧
      read .plain rest = some ts := by
  induction t using List.twoStepInduction generalizing acc with
  | nil => cases h
  | singleton c =>
    by_cases hc : c = '`'
    · subst hc
      simp [read, step, Quote.char, finish] at h
      exact ⟨[], [], by simp [h.1], rfl, by simp [h.2, read, finish]⟩
    · simp [read, step, Quote.char, Quote.escapes, hc, finish] at h
  | cons_cons c d cs ih ih' =>
    by_cases hc : c = '`'
    · subst hc
      by_cases hd : d = '`'
      · subst hd
        simp only [read, step, Quote.char, if_true, nil_append, Option.map_id'] at h
        obtain ⟨s, rest, hcontent, ht, hrest⟩ := ih h
        exact ⟨'`' :: s, rest, by simp [hcontent], by simp [double, ht], hrest⟩
      · have hclose : read (.closing .backtick acc) (d :: cs) =
            some (.quoted .backtick content :: ts) := by
          simpa [read, step, Quote.char] using h
        rw [read_closing (by simpa [Quote.char] using hd)] at hclose
        obtain ⟨us, hus, heq⟩ := Option.map_eq_some_iff.mp hclose
        obtain ⟨hq, rfl⟩ := List.cons.inj heq
        obtain ⟨-, rfl⟩ := Token.quoted.inj hq
        exact ⟨[], d :: cs, by simp, by simp [double], hus⟩
    · have hnext : read (.inside .backtick (acc ++ [c])) (d :: cs) =
          some (.quoted .backtick content :: ts) := by
        rw [read] at h
        simpa [step, Quote.char, Quote.escapes, hc] using h
      obtain ⟨s, rest, hcontent, ht, hrest⟩ := ih' d hnext
      exact ⟨c :: s, rest, by simp [hcontent], by simp [double, hc, ht], hrest⟩

/-- Text that goes on with a backtick is no name in front of its doubled form. -/
theorem no_backtick_ahead {s rest t : Str} (hrest : rest.head? ≠ some '`') (k : Nat)
    (h : s ++ '`' :: rest = '`' :: (List.replicate k '`' ++ (double s ++ '`' :: t))) : False := by
  induction s generalizing k with
  | nil =>
    have hr : rest = List.replicate k '`' ++ '`' :: t := by simpa [double] using h
    cases k with
    | zero => simp [hr] at hrest
    | succ k => simp [hr, replicate_succ] at hrest
  | cons c cs ih =>
    obtain ⟨rfl, htail⟩ := List.cons.inj h
    have hcs : cs ++ '`' :: rest = List.replicate k '`' ++ (double ('`' :: cs) ++ '`' :: t) := htail
    have hdouble : double ('`' :: cs) = '`' :: '`' :: double cs := rfl
    refine ih (k + 1) ?_
    rw [hcs, hdouble, ← cons_append, ← replicate_succ, replicate_succ',
      replicate_succ']
    simp

/-- A name that stands for itself in doubled form has no backtick. -/
theorem not_mem_of_double {s rest t : Str} (hrest : rest.head? ≠ some '`')
    (h : s ++ '`' :: rest = double s ++ '`' :: t) : '`' ∉ s ∧ rest = t := by
  induction s with
  | nil => simpa [double] using h
  | cons c cs ih =>
    by_cases hc : c = '`'
    · subst hc
      exfalso
      refine no_backtick_ahead (s := cs) hrest 0 (t := t) ?_
      simpa [double] using h
    · have htail : cs ++ '`' :: rest = double cs ++ '`' :: t := by
        simpa [double, hc] using h
      obtain ⟨hmem, hr⟩ := ih htail
      exact ⟨by simp [hmem, Ne.symm hc], hr⟩

section Pieces

variable {α : Type}

/-- What follows a quoted piece does not start with the same quote. -/
theorem head_sql {p : Piece α} {ps : List (Piece α)} (h : Formed (p :: ps)) :
    (∀ s, p = .name s → (sql ps).head? ≠ some '`') ∧
      ∀ s, p = .string s → (sql ps).head? ≠ some '\'' := by
  cases ps with
  | nil => simp
  | cons q qs =>
    have hapart := h.apart.rel
    have hfine := h.fine q (by simp)
    cases q with
    | text t =>
      obtain ⟨hne, hbare⟩ := hfine
      obtain ⟨c, cs, rfl⟩ := exists_cons_of_ne_nil hne
      have hopen := (hbare c mem_cons_self).1
      simp only [sql_cons, Piece.sql, cons_append, head?_cons, Option.some.injEq, ne_eq]
      refine ⟨fun _ _ he => ?_, fun _ _ he => ?_⟩
      · rw [he] at hopen
        cases hopen
      · rw [he] at hopen
        cases hopen
    | name t =>
      refine ⟨fun s hs => ?_, fun s _ => by simp [Piece.sql]⟩
      subst hs
      exact hapart.elim
    | string t =>
      refine ⟨fun s _ => by simp [Piece.sql], fun s hs => ?_⟩
      subst hs
      exact hapart.elim
    | hole a => exact ⟨fun s _ => by simp [Piece.sql], fun s _ => by simp [Piece.sql]⟩

/-- **Pieces and their reader.**  The statement put together from well formed pieces is read as
exactly these pieces if and only if no quoted name has a backtick. -/
theorem read_sql_iff {ps : List (Piece α)} (h : Formed ps) :
    read .plain (sql ps) = some (tokens ps) ↔ ∀ s ∈ names ps, '`' ∉ s := by
  induction ps with
  | nil => simp [read, finish, tokens, names]
  | cons p ps ih =>
    have ih := ih h.tail
    obtain ⟨hname, hstring⟩ := head_sql h
    cases p with
    | text s =>
      have hfine := h.fine (.text s) mem_cons_self
      have htokens : tokens (.text s :: ps) = s.map Token.other ++ tokens ps := rfl
      rw [sql_cons, Piece.sql, read_bare hfine.2, htokens, Option.map_eq_some_iff]
      simpa [names] using ih
    | name s =>
      have hhead := hname s rfl
      have htext : sql (.name s :: ps) = '`' :: (s ++ '`' :: sql ps) := by simp [Piece.sql]
      have htokens : tokens (.name s :: ps) = .quoted .backtick s :: tokens ps := rfl
      have hnames : names (.name s :: ps) = s :: names ps := rfl
      have hopen : read .plain ('`' :: (s ++ '`' :: sql ps)) =
          read (.inside .backtick []) (s ++ '`' :: sql ps) := by
        simp [read, step, start, opens]
      rw [htext, hopen, htokens, hnames, forall_mem_cons]
      constructor
      · intro hread
        obtain ⟨t, rest, rfl, hsplit, hrest⟩ := inside_name hread
        obtain ⟨hmem, rfl⟩ := not_mem_of_double hhead hsplit
        exact ⟨hmem, ih.mp hrest⟩
      · rintro ⟨hmem, hrest⟩
        rw [read_name hmem, nil_append, read_closing hhead, ih.mpr hrest]
        rfl
    | string s =>
      have hhead := hstring s rfl
      have htext : sql (.string s :: ps) = '\'' :: (s.flatMap writeChar ++ '\'' :: sql ps) := by
        simp [Piece.sql]
      have htokens : tokens (.string s :: ps) = .quoted .single s :: tokens ps := rfl
      have hopen : read .plain ('\'' :: (s.flatMap writeChar ++ '\'' :: sql ps)) =
          read (.inside .single []) (s.flatMap writeChar ++ '\'' :: sql ps) := by
        simp [read, step, start, opens]
      rw [htext, hopen, read_literal, nil_append, read_closing hhead, htokens,
        Option.map_eq_some_iff]
      simpa [names] using ih
    | hole a =>
      have htokens : tokens (.hole a :: ps) = .placeholder :: tokens ps := rfl
      have hopen : read .plain (sql (.hole a :: ps)) =
          (read .plain (sql ps)).map (.placeholder :: ·) := by
        simp [read, Piece.sql, step, start, opens]
      rw [hopen, htokens, Option.map_eq_some_iff]
      simpa [names] using ih

/-- The placeholders that a reader finds are the holes. -/
theorem placeholders_tokens (ps : List (Piece α)) : placeholders (tokens ps) = (holes ps).length := by
  induction ps with
  | nil => rfl
  | cons p ps ih =>
    have hsum : placeholders (tokens (p :: ps)) =
        placeholders p.tokens + placeholders (tokens ps) := count_append
    rw [hsum, ih]
    cases p with
    | text s =>
      have hnone : placeholders (Piece.text s : Piece α).tokens = 0 := by
        simp [placeholders, Piece.tokens, count_eq_zero]
      rw [hnone, holes_text, Nat.zero_add]
    | name s => simp [placeholders, Piece.tokens]
    | string s => simp [placeholders, Piece.tokens]
    | hole a => simp [placeholders, Piece.tokens, Nat.add_comm]

end Pieces

end Leviathan.SqlText
