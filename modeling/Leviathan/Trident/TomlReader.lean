import Leviathan.Lib.Fallible
import Leviathan.Lib.Text

/-!
# The TOML subset of trident's files

`manifest.cpp` and `lock.cpp` each carry the same small hand-written reader: a
cursor over the text, blanks and `#` comments, identifiers, quoted strings,
arrays of strings, `key = value` lines and `[[table]]` headers.  It is modelled
once.  The cursor is what is left of the text; the line number in an error is
counted in the part already read, as `line()` does.

The two files differ in the tables and keys they know, so the loop over their
items takes the file's own step (`readItems`).  Every step consumes text, so the
loop's bound, the length of the text, is never reached (`readItems_fuel`).

The main facts are the readings of what the writers print: a quoted string is
read back whatever it contains (`parseString_quote`), and so is an array of them
(`parseStringArray_render`).
-/

variable {c : Char} {rest rest' key value : Str} {n : Nat}

namespace Leviathan.Trident

/-- The file being read: its name and its whole text. -/
structure TomlReader where
  path : Str
  text : Str

namespace TomlReader

variable (f : TomlReader)

/-- `line()`: the line of the cursor, from 1. -/
def line (rest : Str) : Nat :=
  1 + (f.text.take (f.text.length - rest.length)).count '\n'

/-- `fail`: an error at the cursor. -/
def fail {α : Type} (rest msg : Str) : Except Str α :=
  .error (f.path ++ ":".toList ++ Text.decimal (f.line rest) ++ ": ".toList ++ msg)

/-- A blank of the format. -/
def isBlank (c : Char) : Bool := c = ' ' || c = '\t' || c = '\r' || c = '\n'

/-- `skipWhitespaceAndComments`; the flag says that the cursor is in a comment. -/
def skip : Bool → Str → Str
  | _, [] => []
  | true, c :: cs => skip (c ≠ '\n') cs
  | false, c :: cs =>
    if isBlank c then skip false cs
    else if c = '#' then skip true cs
    else c :: cs

/-- `skipWhitespaceAndComments` from outside a comment. -/
def skipWhitespaceAndComments (rest : Str) : Str := skip false rest

/-- The text after one given character. -/
def eat (c : Char) : Str → Option Str
  | [] => none
  | d :: ds => if d = c then some ds else none

/-- One expected character, without skipping blanks. -/
def expect (c : Char) (msg rest : Str) : Except Str Str :=
  match eat c rest with
  | some cs => .ok cs
  | none => f.fail rest msg

/-- A character of an identifier. -/
def isIdentChar (c : Char) : Bool := c.isAlphanum || c = '_' || c = '-'

/-- `parseIdent`. -/
def parseIdent (rest : Str) : Except Str (Str × Str) :=
  let rest := skipWhitespaceAndComments rest
  if (rest.takeWhile isIdentChar).isEmpty then f.fail rest "expected an identifier".toList
  else .ok (rest.takeWhile isIdentChar, rest.dropWhile isIdentChar)

/-- The character an escape stands for. -/
def unescape (e : Char) : Char :=
  if e = 'n' then '\n' else if e = 't' then '\t' else e

/-- The characters of a string up to its closing quote; none if there is none. -/
def stringBody : Str → Option (Str × Str)
  | [] => none
  | c :: cs =>
    if c = '"' then some ([], cs)
    else if c = '\\' then
      match cs with
      | [] => none
      | e :: es => (stringBody es).map (fun p => (unescape e :: p.1, p.2))
    else (stringBody cs).map (fun p => (c :: p.1, p.2))

/-- `parseString`. -/
def parseString (rest : Str) : Except Str (Str × Str) := do
  let rest ← f.expect '"' "expected a quoted string".toList (skipWhitespaceAndComments rest)
  match stringBody rest with
  | some p => .ok p
  | none => f.fail [] "unterminated string".toList

/-- What follows an element of an array: whether there is another one. -/
def arraySep (rest : Str) : Except Str (Bool × Str) :=
  let rest := skipWhitespaceAndComments rest
  match eat ',' rest with
  | some rest =>
    let rest := skipWhitespaceAndComments rest
    match eat ']' rest with
    | some rest => .ok (false, rest)
    | none => .ok (true, rest)
  | none =>
    match eat ']' rest with
    | some rest => .ok (false, rest)
    | none => f.fail rest "expected ',' or ']' in array".toList

/-- The elements of an array after the first `[`, at least one of them. -/
def arrayItems : Nat → Str → Except Str (List Str × Str)
  | 0, rest => .ok ([], rest)
  | n + 1, rest => do
    let (s, rest) ← f.parseString rest
    let (more, rest) ← f.arraySep rest
    if more then do
      let (items, rest) ← arrayItems n rest
      .ok (s :: items, rest)
    else .ok ([s], rest)

/-- `parseStringArray`; each element consumes text, which bounds their number. -/
def parseStringArray (rest : Str) : Except Str (List Str × Str) := do
  let rest ← f.expect '[' "expected '['".toList (skipWhitespaceAndComments rest)
  let rest := skipWhitespaceAndComments rest
  match eat ']' rest with
  | some rest => .ok ([], rest)
  | none => f.arrayItems (rest.length + 1) rest

/-- `parseInt`: an optional minus and a digit run, read by `atoi`. -/
def parseInt (rest : Str) : Except Str (Int32 × Str) :=
  let rest := skipWhitespaceAndComments rest
  let sign := rest.takeWhile (· = '-') |>.take 1
  let digits := (rest.drop sign.length).takeWhile Char.isDigit
  if digits.isEmpty then f.fail (rest.drop sign.length) "expected an integer".toList
  else .ok (Text.atoi (sign ++ digits), rest.drop (sign.length + digits.length))

/-- The rest of a `[[table]]` header after its first bracket. -/
def tableHeader (table rest : Str) : Except Str Str := do
  let rest ← f.expect '[' ("only '[[".toList ++ table ++ "]]' tables are supported".toList) rest
  let (name, rest) ← f.parseIdent rest
  let rest ← f.expect ']' "expected ']]'".toList rest
  let rest ← f.expect ']' "expected ']]'".toList rest
  let unknown :=
    "unknown table '[[".toList ++ name ++ "]]' (only [[".toList ++ table ++ "]])".toList
  if name = table then Except.ok rest else f.fail rest unknown

/-- A `key =`, up to the value. -/
def keyHeader (rest : Str) : Except Str (Str × Str) := do
  let (key, rest) ← f.parseIdent rest
  let rest ← f.expect '=' ("expected '=' after '".toList ++ key ++ "'".toList)
    (skipWhitespaceAndComments rest)
  .ok (key, skipWhitespaceAndComments rest)

/-- The next item of a file: the end, a `[[table]]` header or a key and its value,
which `onKey` reads. -/
def readItem {σ : Type} (table : Str) (onTable : σ → σ)
    (onKey : σ → Str → Str → Except Str (σ × Str)) (st : σ) (rest : Str) :
    Except Str (Option (σ × Str)) :=
  let rest := skipWhitespaceAndComments rest
  match rest, eat '[' rest with
  | [], _ => .ok none
  | _, some rest => (f.tableHeader table rest).map (fun rest => some (onTable st, rest))
  | _, none => do
    let (key, rest) ← f.keyHeader rest
    let (st, rest) ← onKey st key rest
    .ok (some (st, rest))

/-- The loop over the items of a file; each consumes text, which bounds their number. -/
def readItems {σ : Type} (table : Str) (onTable : σ → σ)
    (onKey : σ → Str → Str → Except Str (σ × Str)) : Nat → σ → Str → Except Str σ
  | 0, st, _ => .ok st
  | n + 1, st, rest =>
    match f.readItem table onTable onKey st rest with
    | .error err => .error err
    | .ok none => .ok st
    | .ok (some (st, rest)) => readItems table onTable onKey n st rest

/-! ### Every step consumes text -/

/-- Skipping never lengthens the text. -/
theorem length_skip_le (inComment : Bool) (rest : Str) :
    (skip inComment rest).length ≤ rest.length := by
  induction rest generalizing inComment with
  | nil => cases inComment <;> simp [skip]
  | cons c cs ih =>
    cases inComment with
    | true => exact (ih _).trans (by simp)
    | false =>
      unfold skip
      split
      · exact (ih _).trans (by simp)
      · split
        · exact (ih _).trans (by simp)
        · exact le_rfl

theorem length_skipWhitespaceAndComments_le (rest : Str) :
    (skipWhitespaceAndComments rest).length ≤ rest.length :=
  length_skip_le false rest

/-- Eating a character shortens the text by one. -/
theorem length_eat (h : eat c rest = some rest') : rest.length = rest'.length + 1 := by
  cases rest with
  | nil => cases h
  | cons d ds =>
    simp only [eat, Option.ite_none_right_eq_some, Option.some.injEq] at h
    simp [h.2]

variable {f}

theorem expect_ok {msg : Str} : f.expect c msg rest = .ok rest' ↔ eat c rest = some rest' := by
  unfold expect
  cases eat c rest <;> simp [fail]

theorem length_parseIdent {name : Str} (h : f.parseIdent rest = .ok (name, rest')) :
    rest'.length < rest.length := by
  unfold parseIdent at h
  have hskip := length_skipWhitespaceAndComments_le rest
  generalize skipWhitespaceAndComments rest = cs at h hskip
  dsimp only at h
  split at h
  · cases h
  · rename_i hne
    cases h
    have hsplit := congrArg List.length (List.takeWhile_append_dropWhile (p := isIdentChar) (l := cs))
    have hpos : 0 < (cs.takeWhile isIdentChar).length := by
      rw [List.length_pos_iff]
      simpa using hne
    rw [List.length_append] at hsplit
    omega

@[simp] theorem stringBody_close (rest : Str) : stringBody ('"' :: rest) = some ([], rest) := by
  rw [stringBody.eq_def]
  rfl

@[simp] theorem stringBody_escape (e : Char) (rest : Str) :
    stringBody ('\\' :: e :: rest) =
      (stringBody rest).map (fun p => (unescape e :: p.1, p.2)) := by
  rw [stringBody.eq_def]
  rfl

theorem stringBody_plain (hq : c ≠ '"') (hb : c ≠ '\\') (rest : Str) :
    stringBody (c :: rest) = (stringBody rest).map (fun p => (c :: p.1, p.2)) := by
  rw [stringBody.eq_def]
  simp [hq, hb]

theorem length_stringBody {s : Str} (h : stringBody rest = some (s, rest')) :
    rest'.length < rest.length := by
  induction rest using stringBody.induct generalizing s with
  | case1 => cases h
  | case2 cs =>
    rw [stringBody_close] at h
    cases h
    simp
  | case3 _ => simp [stringBody] at h
  | case4 e es _ ih =>
    rw [stringBody_escape, Option.map_eq_some_iff] at h
    obtain ⟨⟨t, u⟩, htu, heq⟩ := h
    obtain ⟨-, rfl⟩ := Prod.mk.inj heq
    have hlt : u.length < _ := ih htu
    simp only [List.length_cons]
    omega
  | case5 c cs hq hb ih =>
    rw [stringBody_plain hq hb, Option.map_eq_some_iff] at h
    obtain ⟨⟨t, u⟩, htu, heq⟩ := h
    obtain ⟨-, rfl⟩ := Prod.mk.inj heq
    have hlt : u.length < _ := ih htu
    simp only [List.length_cons]
    omega

theorem length_parseString {s : Str} (h : f.parseString rest = .ok (s, rest')) :
    rest'.length < rest.length := by
  obtain ⟨body, hq, h⟩ := bind_eq_ok.mp h
  have hskip := length_skipWhitespaceAndComments_le rest
  have heat := length_eat (expect_ok.mp hq)
  cases hbody : stringBody body with
  | none => simp [hbody, fail] at h
  | some p =>
    simp only [hbody, Except.ok.injEq] at h
    have hlt := length_stringBody (h ▸ hbody)
    omega

theorem length_arraySep_le {more : Bool} (h : f.arraySep rest = .ok (more, rest')) :
    rest'.length ≤ rest.length := by
  unfold arraySep at h
  have hskip := length_skipWhitespaceAndComments_le rest
  cases hc : eat ',' (skipWhitespaceAndComments rest) with
  | some rest₁ =>
    have heat := length_eat hc
    have hskip₁ := length_skipWhitespaceAndComments_le rest₁
    simp only [hc] at h
    cases hb : eat ']' (skipWhitespaceAndComments rest₁) with
    | some rest₂ =>
      have heat₂ := length_eat hb
      simp only [hb, Except.ok.injEq, Prod.mk.injEq] at h
      rw [← h.2]
      omega
    | none =>
      simp only [hb, Except.ok.injEq, Prod.mk.injEq] at h
      rw [← h.2]
      omega
  | none =>
    simp only [hc] at h
    cases hb : eat ']' (skipWhitespaceAndComments rest) with
    | some rest₁ =>
      have heat := length_eat hb
      simp only [hb, Except.ok.injEq, Prod.mk.injEq] at h
      rw [← h.2]
      omega
    | none => simp [hb, fail] at h

theorem length_arrayItems_le {items : List Str} (h : f.arrayItems n rest = .ok (items, rest')) :
    rest'.length ≤ rest.length := by
  induction n generalizing rest items with
  | zero =>
    cases h
    exact le_rfl
  | succ n ih =>
    rw [arrayItems] at h
    obtain ⟨⟨s, rest₁⟩, hs, h⟩ := bind_eq_ok.mp h
    obtain ⟨⟨more, rest₂⟩, hsep, h⟩ := bind_eq_ok.mp h
    have hlt := length_parseString hs
    have hle := length_arraySep_le hsep
    cases more with
    | false =>
      cases h
      omega
    | true =>
      obtain ⟨⟨items', rest₃⟩, hitems, h⟩ := bind_eq_ok.mp h
      cases h
      have hle' := ih hitems
      omega

theorem length_parseStringArray_le {items : List Str}
    (h : f.parseStringArray rest = .ok (items, rest')) : rest'.length ≤ rest.length := by
  obtain ⟨rest₁, hopen, h⟩ := bind_eq_ok.mp h
  have hskip := length_skipWhitespaceAndComments_le rest
  have heat := length_eat (expect_ok.mp hopen)
  have hskip₁ := length_skipWhitespaceAndComments_le rest₁
  dsimp only at h
  cases hb : eat ']' (skipWhitespaceAndComments rest₁) with
  | some rest₂ =>
    have heat₂ := length_eat hb
    simp only [hb, Except.ok.injEq, Prod.mk.injEq] at h
    rw [← h.2]
    omega
  | none =>
    simp only [hb] at h
    have hle := length_arrayItems_le h
    omega

theorem length_parseInt_le {n : Int32} (h : f.parseInt rest = .ok (n, rest')) :
    rest'.length ≤ rest.length := by
  have hskip := length_skipWhitespaceAndComments_le rest
  unfold parseInt at h
  dsimp only at h
  split at h
  · cases h
  · cases h
    rw [List.length_drop]
    omega

theorem length_tableHeader_le {table : Str} (h : f.tableHeader table rest = .ok rest') :
    rest'.length ≤ rest.length := by
  obtain ⟨rest₁, h₁, h⟩ := bind_eq_ok.mp h
  obtain ⟨⟨name, rest₂⟩, h₂, h⟩ := bind_eq_ok.mp h
  obtain ⟨rest₃, h₃, h⟩ := bind_eq_ok.mp h
  obtain ⟨rest₄, h₄, h⟩ := bind_eq_ok.mp h
  have l₁ := length_eat (expect_ok.mp h₁)
  have l₂ := length_parseIdent h₂
  have l₃ := length_eat (expect_ok.mp h₃)
  have l₄ := length_eat (expect_ok.mp h₄)
  dsimp only at h
  split at h
  · cases h
    omega
  · cases h

theorem length_keyHeader (h : f.keyHeader rest = .ok (key, rest')) :
    rest'.length < rest.length := by
  obtain ⟨⟨key', rest₁⟩, h₁, h⟩ := bind_eq_ok.mp h
  obtain ⟨rest₂, h₂, h⟩ := bind_eq_ok.mp h
  cases h
  have l₁ := length_parseIdent h₁
  have s₁ := length_skipWhitespaceAndComments_le rest₁
  have l₂ := length_eat (expect_ok.mp h₂)
  have s₂ := length_skipWhitespaceAndComments_le rest₂
  omega

section
variable {σ : Type} {table : Str} {onTable : σ → σ}
  {onKey : σ → Str → Str → Except Str (σ × Str)}

/-- An item consumes text if its value does not lengthen it. -/
theorem length_readItem
    (hkey : ∀ st key rest st' rest', onKey st key rest = .ok (st', rest') →
      rest'.length ≤ rest.length) {st st' : σ}
    (h : f.readItem table onTable onKey st rest = .ok (some (st', rest'))) :
    rest'.length < rest.length := by
  unfold readItem at h
  have hskip := length_skipWhitespaceAndComments_le rest
  generalize skipWhitespaceAndComments rest = cs at h hskip
  cases cs with
  | nil => cases h
  | cons c cs =>
    cases hopen : eat '[' (c :: cs) with
    | some rest₁ =>
      have heat := length_eat hopen
      simp only [hopen] at h
      cases htable : f.tableHeader table rest₁ with
      | error err => simp [htable, Except.map] at h
      | ok rest₂ =>
        have hle := length_tableHeader_le htable
        simp only [htable, Except.map, Except.ok.injEq, Option.some.injEq,
          Prod.mk.injEq] at h
        rw [← h.2]
        omega
    | none =>
      simp only [hopen] at h
      obtain ⟨⟨key, rest₁⟩, h₁, h⟩ := bind_eq_ok.mp h
      obtain ⟨⟨st₂, rest₂⟩, h₂, h⟩ := bind_eq_ok.mp h
      obtain ⟨-, rfl⟩ := Prod.mk.inj (Option.some.inj (Except.ok.inj h))
      have l₁ := length_keyHeader h₁
      have l₂ : rest₂.length ≤ rest₁.length := hkey _ _ _ _ _ h₂
      show rest₂.length < rest.length
      omega

/-- The loop reads the text from state `st` to its end in state `st'`. -/
def Reads (f : TomlReader) (table : Str) (onTable : σ → σ)
    (onKey : σ → Str → Str → Except Str (σ × Str)) (st : σ) (rest : Str) (st' : σ) : Prop :=
  ∀ n, rest.length < n → f.readItems table onTable onKey n st rest = .ok st'

/-- The end of the text. -/
theorem Reads.nil (st : σ) : Reads f table onTable onKey st [] st := by
  intro n hn
  obtain ⟨n, rfl⟩ : ∃ k, n = k + 1 := ⟨n - 1, by simp at hn; omega⟩
  rfl

/-- One item, and the rest after it. -/
theorem Reads.item
    (hkey : ∀ st key rest st' rest', onKey st key rest = .ok (st', rest') →
      rest'.length ≤ rest.length) {st st₁ st' : σ} {rest₁ : Str}
    (hitem : f.readItem table onTable onKey st rest = .ok (some (st₁, rest₁)))
    (h : Reads f table onTable onKey st₁ rest₁ st') :
    Reads f table onTable onKey st rest st' := by
  intro n hn
  obtain ⟨n, rfl⟩ : ∃ k, n = k + 1 := ⟨n - 1, by omega⟩
  have hlt := length_readItem hkey hitem
  rw [readItems, hitem]
  exact h n (by omega)

end

/-! ### Reading what the writers print -/

/-- Nothing is skipped in front of a character that is no blank and no comment. -/
theorem skip_of_cons (hb : isBlank c = false) (hc : c ≠ '#') :
    skipWhitespaceAndComments (c :: rest) = c :: rest := by
  simp [skipWhitespaceAndComments, skip, hb, hc]

/-- A blank is skipped. -/
theorem skip_blank (hb : isBlank c = true) :
    skipWhitespaceAndComments (c :: rest) = skipWhitespaceAndComments rest := by
  simp [skipWhitespaceAndComments, skip, hb]

@[simp] theorem eat_cons_self (c : Char) (rest : Str) : eat c (c :: rest) = some rest := by
  simp [eat]

theorem expect_cons_self (c : Char) (msg rest : Str) : f.expect c msg (c :: rest) = .ok rest :=
  expect_ok.mpr (eat_cons_self c rest)

/-- The characters of a quoted string, its closing quote and nothing else. -/
private theorem stringBody_quote (s rest : Str) :
    stringBody (s.flatMap (fun c => if c = '"' ∨ c = '\\' then ['\\', c] else [c]) ++ '"' :: rest) =
      some (s, rest) := by
  induction s with
  | nil => simp
  | cons c cs ih =>
    rw [List.flatMap_cons, List.append_assoc]
    by_cases hc : c = '"' ∨ c = '\\'
    · have hun : unescape c = c := by rcases hc with rfl | rfl <;> rfl
      simp only [hc, if_true, List.cons_append, List.nil_append, stringBody_escape, ih, hun,
        Option.map_some]
    · obtain ⟨hq, hb⟩ := not_or.mp hc
      simp only [hc, if_false, List.cons_append, List.nil_append, stringBody_plain hq hb, ih,
        Option.map_some]

/-- **Strings round-trip.**  A quoted string is read back, whatever it contains. -/
theorem parseString_quote (s rest : Str) : f.parseString (Text.quote s ++ rest) = .ok (s, rest) := by
  have hquote : Text.quote s ++ rest = '"' ::
      (s.flatMap (fun c => if c = '"' ∨ c = '\\' then ['\\', c] else [c]) ++ '"' :: rest) := by
    simp [Text.quote]
  rw [parseString, hquote, skip_of_cons (by decide) (by decide), expect_cons_self, ok_bind,
    stringBody_quote]

/-- Nothing is skipped in front of a quoted string. -/
theorem skip_quote (s rest : Str) :
    skipWhitespaceAndComments (Text.quote s ++ rest) = Text.quote s ++ rest :=
  skip_of_cons (by decide) (by decide)

/-- The elements of a printed array, with their separators. -/
private theorem arrayItems_render (s : Str) (items : List Str) (rest : Str)
    (hn : items.length < n) :
    f.arrayItems n (List.intercalate ", ".toList ((s :: items).map Text.quote) ++ ']' :: rest) =
      .ok (s :: items, rest) := by
  induction items generalizing s n with
  | nil =>
    obtain ⟨n, rfl⟩ : ∃ k, n = k + 1 := ⟨n - 1, by omega⟩
    have hsep : f.arraySep (']' :: rest) = .ok (false, rest) := by
      simp [arraySep, skip_of_cons (c := ']') (by decide) (by decide), eat]
    simp [arrayItems, List.intercalate, parseString_quote, hsep]
  | cons t items ih =>
    obtain ⟨n, rfl⟩ : ∃ k, n = k + 1 := ⟨n - 1, by omega⟩
    have hcut : List.intercalate ", ".toList ((s :: t :: items).map Text.quote) ++ ']' :: rest =
        Text.quote s ++ ',' :: ' ' ::
          (List.intercalate ", ".toList ((t :: items).map Text.quote) ++ ']' :: rest) := by
      simp [List.intercalate]
    have hhead : ∃ more, List.intercalate ", ".toList ((t :: items).map Text.quote) ++ ']' :: rest =
        '"' :: more := by
      cases items <;> exact ⟨_, by simp [List.intercalate, Text.quote]; rfl⟩
    have hsep : f.arraySep (',' :: ' ' ::
        (List.intercalate ", ".toList ((t :: items).map Text.quote) ++ ']' :: rest)) =
        .ok (true, List.intercalate ", ".toList ((t :: items).map Text.quote) ++ ']' :: rest) := by
      obtain ⟨more, hmore⟩ := hhead
      rw [hmore]
      simp [arraySep, skip_of_cons (c := ',') (by decide) (by decide), skip_blank (c := ' ') rfl,
        skip_of_cons (c := '"') (by decide) (by decide), eat]
    rw [hcut, arrayItems, parseString_quote, ok_bind]
    dsimp only
    rw [hsep, ok_bind]
    dsimp only
    rw [ih t (n := n) (by simp only [List.length_cons] at hn; omega)]
    rfl

/-- A printed array is longer than it has elements. -/
private theorem length_le_intercalate (items : List Str) :
    items.length ≤ (List.intercalate ", ".toList (items.map Text.quote)).length := by
  induction items with
  | nil => simp
  | cons s items ih =>
    cases items with
    | nil => simp [List.intercalate, Text.quote]
    | cons t items =>
      have hcut : List.intercalate ", ".toList ((s :: t :: items).map Text.quote) =
          Text.quote s ++ ", ".toList ++
            List.intercalate ", ".toList ((t :: items).map Text.quote) := by
        simp [List.intercalate]
      rw [hcut, List.length_append, List.length_append]
      simp only [List.length_cons] at ih ⊢
      have hsep : (", ".toList).length = 2 := rfl
      omega

/-- **Arrays round-trip.**  A printed array of strings is read back. -/
theorem parseStringArray_render (s : Str) (items : List Str) (rest : Str) :
    f.parseStringArray ('[' :: (List.intercalate ", ".toList ((s :: items).map Text.quote) ++
      ']' :: rest)) = .ok (s :: items, rest) := by
  have hhead : ∃ more, List.intercalate ", ".toList ((s :: items).map Text.quote) ++ ']' :: rest =
      '"' :: more := by
    cases items <;> exact ⟨_, by simp [List.intercalate, Text.quote]; rfl⟩
  have hskip : skipWhitespaceAndComments
      (List.intercalate ", ".toList ((s :: items).map Text.quote) ++ ']' :: rest) =
      List.intercalate ", ".toList ((s :: items).map Text.quote) ++ ']' :: rest := by
    obtain ⟨more, hmore⟩ := hhead
    rw [hmore]
    exact skip_of_cons (by decide) (by decide)
  have heat : eat ']'
      (List.intercalate ", ".toList ((s :: items).map Text.quote) ++ ']' :: rest) = none := by
    obtain ⟨more, hmore⟩ := hhead
    rw [hmore]
    rfl
  rw [parseStringArray, skip_of_cons (by decide) (by decide), expect_cons_self, ok_bind]
  dsimp only
  rw [hskip, heat]
  refine arrayItems_render s items rest ?_
  have hlen := length_le_intercalate (s :: items)
  rw [List.length_append]
  simp only [List.length_cons] at hlen ⊢
  omega

/-- The text of an identifier. -/
def IsIdent (name : Str) : Prop := name ≠ [] ∧ name.all isIdentChar = true

instance (name : Str) : Decidable (IsIdent name) :=
  inferInstanceAs (Decidable (name ≠ [] ∧ name.all isIdentChar = true))

/-- A character of an identifier is no blank and starts no comment. -/
theorem isIdentChar_not_blank (h : isIdentChar c = true) :
    isBlank c = false ∧ c ≠ '#' ∧ c ≠ '[' := by
  refine ⟨?_, ?_, ?_⟩
  · by_contra hb
    simp only [isBlank, Bool.or_eq_true, decide_eq_true_eq, Bool.not_eq_false] at hb
    rcases hb with ((rfl | rfl) | rfl) | rfl <;> exact absurd h (by decide)
  · rintro rfl; exact absurd h (by decide)
  · rintro rfl; exact absurd h (by decide)

/-- An identifier is read up to the first character that cannot belong to it. -/
theorem parseIdent_append {name : Str} (rest : Str) (hname : IsIdent name)
    (hr : ∀ c, rest.head? = some c → isIdentChar c = false) :
    f.parseIdent (name ++ rest) = .ok (name, rest) := by
  obtain ⟨hne, hall⟩ := hname
  rw [List.all_eq_true] at hall
  obtain ⟨c, cs, rfl⟩ := List.exists_cons_of_ne_nil hne
  obtain ⟨hb, hc, -⟩ := isIdentChar_not_blank (hall c List.mem_cons_self)
  have htake : ((c :: cs) ++ rest).takeWhile isIdentChar = c :: cs := by
    rw [List.takeWhile_append_of_pos hall]
    cases rest with
    | nil => simp
    | cons d ds => simp [hr d rfl]
  have hdrop : ((c :: cs) ++ rest).dropWhile isIdentChar = rest := by
    rw [List.dropWhile_append_of_pos hall]
    cases rest with
    | nil => simp
    | cons d ds => simp [hr d rfl]
  rw [parseIdent, List.cons_append, skip_of_cons hb hc, ← List.cons_append]
  simp only [htake, hdrop]
  rfl

/-- A `key = ` line is read up to its value. -/
theorem keyHeader_render (hkey : IsIdent key) (hvalue : skipWhitespaceAndComments value = value) :
    f.keyHeader (key ++ (" = ".toList ++ value)) = .ok (key, value) := by
  have hblank : ∀ rest : Str, skipWhitespaceAndComments (' ' :: rest) =
      skipWhitespaceAndComments rest := fun _ => skip_blank rfl
  have heq : skipWhitespaceAndComments ('=' :: ' ' :: value) = '=' :: ' ' :: value :=
    skip_of_cons (by decide) (by decide)
  have hname := parseIdent_append (f := f) (" = ".toList ++ value) hkey
    (by intro c hc; obtain rfl : ' ' = c := by simpa using hc
        decide)
  rw [keyHeader, hname, ok_bind]
  show (f.expect '=' _ (skipWhitespaceAndComments (' ' :: '=' :: ' ' :: value)) >>= _) = _
  rw [hblank, heq, expect_cons_self, ok_bind, hblank, hvalue]

/-- A printed table header is read to its end. -/
theorem tableHeader_render {table : Str} (htable : IsIdent table) (rest : Str) :
    f.tableHeader table ('[' :: (table ++ ("]]".toList ++ rest))) = .ok rest := by
  have hname := parseIdent_append (f := f) ("]]".toList ++ rest) htable
    (by intro c hc; obtain rfl : ']' = c := by simpa using hc
        decide)
  rw [tableHeader, expect_cons_self, ok_bind, hname, ok_bind]
  show (f.expect ']' _ (']' :: ']' :: rest) >>= _) = _
  rw [expect_cons_self, ok_bind, expect_cons_self, ok_bind]
  simp

section
variable {σ : Type} {table : Str} {onTable : σ → σ}
  {onKey : σ → Str → Str → Except Str (σ × Str)}

/-- A line break between items is skipped. -/
theorem Reads.newline {st st' : σ} (h : Reads f table onTable onKey st rest st') :
    Reads f table onTable onKey st ('\n' :: rest) st' := by
  intro n hn
  have hrest := h n (by simp only [List.length_cons] at hn; omega)
  obtain ⟨n, rfl⟩ : ∃ k, n = k + 1 := ⟨n - 1, by omega⟩
  rw [readItems] at hrest ⊢
  rw [← hrest]
  simp only [readItem, skip_blank (c := '\n') rfl]

/-- A printed table header opens a table. -/
theorem readItem_table (htable : IsIdent table) (st : σ) (rest : Str) :
    f.readItem table onTable onKey st ("[[".toList ++ (table ++ ("]]".toList ++ rest))) =
      .ok (some (onTable st, rest)) := by
  have hskip : skipWhitespaceAndComments ("[[".toList ++ (table ++ ("]]".toList ++ rest))) =
      '[' :: '[' :: (table ++ ("]]".toList ++ rest)) := skip_of_cons (by decide) (by decide)
  simp only [readItem, hskip, eat_cons_self, tableHeader_render htable]
  rfl

/-- A printed key is given its value. -/
theorem readItem_key (hkey : IsIdent key) (hvalue : skipWhitespaceAndComments value = value)
    {st st' : σ} (h : onKey st key value = .ok (st', rest)) :
    f.readItem table onTable onKey st (key ++ (" = ".toList ++ value)) = .ok (some (st', rest)) := by
  obtain ⟨c, cs, rfl⟩ := List.exists_cons_of_ne_nil hkey.1
  obtain ⟨hb, hc, hopen⟩ := isIdentChar_not_blank
    (List.all_eq_true.mp hkey.2 c List.mem_cons_self)
  have hskip : skipWhitespaceAndComments (c :: cs ++ (" = ".toList ++ value)) =
      c :: cs ++ (" = ".toList ++ value) := skip_of_cons hb hc
  have heat : eat '[' (c :: cs ++ (" = ".toList ++ value)) = none := by simp [eat, hopen]
  simp only [readItem, hskip, heat]
  rw [List.cons_append]
  dsimp only
  rw [← List.cons_append, keyHeader_render hkey hvalue, ok_bind]
  dsimp only
  rw [h, ok_bind]

section
variable {st st' : σ}
  (hlength : ∀ st key rest st' rest', onKey st key rest = .ok (st', rest') → rest'.length ≤ rest.length)
include hlength

/-- A printed line whose value is read back leaves the line break. -/
theorem Reads.line {s : σ} (hkey : IsIdent key)
    (hvalue : skipWhitespaceAndComments (value ++ '\n' :: rest) = value ++ '\n' :: rest)
    (hread : onKey st key (value ++ '\n' :: rest) = .ok (s, '\n' :: rest))
    (h : Reads f table onTable onKey s rest st') :
    Reads f table onTable onKey st ((key ++ (" = ".toList ++ (value ++ "\n".toList))) ++ rest) st' := by
  have htext : (key ++ (" = ".toList ++ (value ++ "\n".toList))) ++ rest =
      key ++ (" = ".toList ++ (value ++ '\n' :: rest)) := by
    simp
  rw [htext]
  exact Reads.item hlength (readItem_key hkey hvalue hread) h.newline

/-- A printed header between two line breaks opens a table. -/
theorem Reads.header (htable : IsIdent table)
    (h : Reads f table onTable onKey (onTable st) rest st') :
    Reads f table onTable onKey st
      ('\n' :: ("[[".toList ++ (table ++ ("]]".toList ++ '\n' :: rest)))) st' :=
  Reads.newline (Reads.item hlength (readItem_table htable st _) (Reads.newline h))

end

/-- What every table and every key preserves holds at the end of the file. -/
theorem readItems_invariant {P : σ → Prop} (htable : ∀ st, P st → P (onTable st))
    (hkey : ∀ st key rest st' rest', P st → onKey st key rest = .ok (st', rest') → P st')
    {st st' : σ} (hst : P st) (h : f.readItems table onTable onKey n st rest = .ok st') :
    P st' := by
  induction n generalizing st rest with
  | zero =>
    rw [← Except.ok.inj h]
    exact hst
  | succ n ih =>
    rw [readItems] at h
    cases hitem : f.readItem table onTable onKey st rest with
    | error err =>
      rw [hitem] at h
      cases h
    | ok next =>
      rw [hitem] at h
      cases next with
      | none =>
        rw [← Except.ok.inj h]
        exact hst
      | some p =>
        obtain ⟨s, rest₁⟩ := p
        refine ih ?_ h
        unfold readItem at hitem
        generalize skipWhitespaceAndComments rest = cs at hitem
        cases cs with
        | nil => cases hitem
        | cons c cs =>
          cases hopen : eat '[' (c :: cs) with
          | some rest₂ =>
            simp only [hopen] at hitem
            cases hheader : f.tableHeader table rest₂ with
            | error err => simp [hheader, Except.map] at hitem
            | ok rest₃ =>
              simp only [hheader, Except.map, Except.ok.injEq, Option.some.injEq,
                Prod.mk.injEq] at hitem
              rw [← hitem.1]
              exact htable st hst
          | none =>
            simp only [hopen] at hitem
            obtain ⟨⟨key, rest₂⟩, -, hitem⟩ := bind_eq_ok.mp hitem
            obtain ⟨⟨s₁, rest₃⟩, hread, hitem⟩ := bind_eq_ok.mp hitem
            obtain ⟨rfl, -⟩ := Prod.mk.inj (Option.some.inj (Except.ok.inj hitem))
            exact hkey st key rest₂ _ _ hst hread

end

/-- Nothing is skipped in front of a printed number. -/
theorem skip_decimal (n : Int) (rest : Str) :
    skipWhitespaceAndComments (Text.decimal n ++ rest) = Text.decimal n ++ rest := by
  cases n with
  | ofNat n =>
    obtain ⟨d, ds, hd, hdigit⟩ := Text.toDigits_cons n
    have hident : isIdentChar d = true := by simp [isIdentChar, Char.isAlphanum, hdigit]
    obtain ⟨hb, hc, -⟩ := isIdentChar_not_blank hident
    rw [Text.decimal, hd]
    exact skip_of_cons hb hc
  | negSucc n => exact skip_of_cons (by decide) (by decide)

/-- A printed number is a sign and digits, the sign only if it is negative. -/
private theorem decimal_cut (n : Int) (rest : Str) (hend : ∀ c, rest.head? = some c → c.isDigit = false) :
    ∃ sign digits, Text.decimal n = sign ++ digits ∧ digits ≠ [] ∧
      ((Text.decimal n ++ rest).takeWhile (· = '-')).take 1 = sign ∧
      ((Text.decimal n ++ rest).drop sign.length).takeWhile Char.isDigit = digits := by
  cases n with
  | ofNat n =>
    obtain ⟨d, ds, hd, hdigit⟩ := Text.toDigits_cons n
    obtain ⟨-, hminus, -⟩ := Text.not_isSpace_of_isDigit hdigit
    refine ⟨[], Nat.toDigits 10 n, rfl, Nat.toDigits_ne_nil, ?_, ?_⟩
    · rw [Text.decimal, hd]
      simp [hminus]
    · exact (Text.takeWhile_digits_append (fun c hc => Text.isDigit_of_mem_toDigits hc) hend).1
  | negSucc n =>
    refine ⟨['-'], Nat.toDigits 10 (n + 1), rfl, Nat.toDigits_ne_nil, by simp [Text.decimal], ?_⟩
    exact (Text.takeWhile_digits_append (fun c hc => Text.isDigit_of_mem_toDigits hc) hend).1

/-- A printed number is read back up to the end of its line. -/
theorem parseInt_decimal (n : Int32) (rest : Str) :
    f.parseInt (Text.decimal n.toInt ++ '\n' :: rest) = .ok (n, '\n' :: rest) := by
  obtain ⟨sign, digits, hcut, hne, hsign, hdigits⟩ := decimal_cut n.toInt ('\n' :: rest) (by
    intro c hc
    obtain rfl : '\n' = c := by simpa using hc
    decide)
  have hempty : digits.isEmpty = false := by simpa using hne
  have hatoi : Text.atoi (sign ++ digits) = n := hcut ▸ Text.atoi_decimal n
  have hdrop : (Text.decimal n.toInt ++ '\n' :: rest).drop (sign.length + digits.length) = '\n' :: rest := by
    rw [hcut, ← List.length_append, List.drop_left]
  unfold parseInt
  simp only [skip_decimal, hsign, hdigits, hempty, hatoi, hdrop, Bool.false_eq_true, if_false]

end TomlReader

end Leviathan.Trident
