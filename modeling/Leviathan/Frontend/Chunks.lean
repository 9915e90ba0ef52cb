import Leviathan.Frontend.Lexer
import Leviathan.Lib.Fallible

/-!
# Written text as the lexer reads it back

A program that writes source text writes tokens with white space between them.  A
`Chunk` is one such token with the white space before it; `render` is the text of
a list of chunks and `lexAt` the tokens the lexer makes of that text.  The main
result is `tokenizeFrom_render`: chunk by chunk, the lexer takes the text of a
chunk off its input and returns the chunk's token.

A string is written with its quotes and backslashes escaped (`Text.quote`).  Its
token carries the escaped text as it stands, and a string with a newline in it is
no token at all (`tokenizeFrom_newline`).
-/

namespace Leviathan.Frontend

open List

open Text (quote)

/-- A token as a program writes it. -/
inductive Lexeme where
  | word (w : Str)
  | symbol (c : Char) (kind : TokenKind)
  | numeral (n : Nat)
  | string (s : Str)

namespace Lexeme

/-- The text of a token. -/
def text : Lexeme → Str
  | word w => w
  | symbol c _ => [c]
  | numeral n => Nat.toDigits 10 n
  | string s => quote s

/-- The kind of a token. -/
def kind : Lexeme → TokenKind
  | word _ => .Identifier
  | symbol _ kind => kind
  | numeral _ => .IntLiteral
  | string _ => .StringLiteral

/-- A word that is an identifier, one of the one-byte symbols that no byte after
them changes (or `=` and `-`), any numeral, a string without a newline. -/
def Plain : Lexeme → Prop
  | word w => (w.head?.map isIdentStart).getD false = true ∧ w.all isIdentCont = true ∧
      keywordKind w = .Identifier
  | symbol c kind => (c, kind) ∈ [('{', TokenKind.LBrace), ('}', .RBrace), (';', .Semicolon),
      ('=', .Eq), ('-', .Minus)]
  | numeral _ => True
  | string s => '\n' ∉ s

end Lexeme

/-- What may follow a token without becoming part of it. -/
def Lexeme.Ends (l : Lexeme) (after : Str) : Prop :=
  match l with
  | .symbol _ _ => after.head? ≠ some '=' ∧ after.head? ≠ some '>'
  | _ => ∀ c, after.head? = some c → c = ' ' ∨ c = '\n' ∨ c = ';'

/-! ### One token -/

variable {start : Nat} {c : Char} {cs : Str}

/-- A byte that starts a word or a numeral starts no operator. -/
private theorem scanToken_default {allowHoles : Bool} (hc : isIdentCont c = true) :
    scanToken allowHoles start c cs = lexDefault allowHoles start c cs := by
  unfold scanToken
  split <;> first | rfl | exact absurd hc (by decide)

/-- A digit starts no word. -/
theorem not_isIdentStart_of_isDigit (hc : isDigit c = true) : isIdentStart c = false := by
  by_contra h
  simp only [isDigit, isIdentStart, Bool.and_eq_true, Bool.or_eq_true, decide_eq_true_eq,
    Bool.not_eq_false] at hc h
  rcases h with (⟨h, _⟩ | ⟨h, _⟩) | rfl
  · exact absurd (le_trans h hc.2) (by decide)
  · exact absurd (le_trans h hc.2) (by decide)
  · exact absurd hc.2 (by decide)

/-- The digits of a printed number are the lexer's digits. -/
theorem isDigit_of_mem_toDigits {n : Nat} (hc : c ∈ Nat.toDigits 10 n) : isDigit c = true := by
  have := Text.isDigit_of_mem_toDigits hc
  simpa [Char.isDigit, isDigit, Char.le_def] using this

/-- A digit may stand in a word. -/
theorem isIdentCont_of_isDigit (hc : isDigit c = true) : isIdentCont c = true := by
  unfold isDigit at hc
  unfold isIdentCont
  rw [hc, Bool.or_true]

variable {after : Str}

/-- A word is read up to its end. -/
private theorem scanToken_word {w : Str} (hw : (Lexeme.word w).Plain)
    (he : (Lexeme.word w).Ends after) (hcs : w ++ after = c :: cs) :
    scanToken false start c cs = ⟨.Identifier, w.length, []⟩ := by
  obtain ⟨hstart, hall, hkey⟩ := hw
  have hlast : ∀ d, after.head? = some d → isIdentCont d = false ∧ d ≠ '"' ∧ d ≠ '\'' := by
    intro d hd
    rcases he d hd with rfl | rfl | rfl <;> decide
  cases w with
  | nil => exact absurd hstart (by decide)
  | cons c' w =>
    rw [List.cons_append] at hcs
    obtain ⟨rfl, rfl⟩ := List.cons.inj hcs
    have hc : isIdentStart c' = true := hstart
    have hall' : ∀ d ∈ c' :: w, isIdentCont d = true := List.all_eq_true.mp hall
    have hdigit : isDigit c' = false := by
      by_contra h
      rw [not_isIdentStart_of_isDigit (by simpa using h)] at hc
      exact absurd hc (by decide)
    have hquote : ∀ d, (w ++ after).head? = some d → d ≠ '"' ∧ d ≠ '\'' := by
      intro d hd
      cases w with
      | nil => exact (hlast d hd).2
      | cons d' w =>
        obtain rfl : d' = d := Option.some.inj hd
        have := hall' d' (by simp)
        constructor <;> rintro rfl <;> exact absurd this (by decide)
    have hraw : ¬ (c' = 'r' ∧ ((w ++ after).head? = some '"' ∨
        (w ++ after).head? = some '\'')) := by
      rintro ⟨_, h | h⟩
      · exact (hquote _ h).1 rfl
      · exact (hquote _ h).2 rfl
    have htake : ((c' :: w) ++ after).takeWhile (fun d => isIdentCont d || (false && d = '$'))
        = c' :: w := by
      simp only [Bool.false_and, Bool.or_false]
      rw [List.takeWhile_append_of_pos hall']
      cases after with
      | nil => simp
      | cons d after => simp [(hlast d rfl).1]
    rw [scanToken_default (hall' c' List.mem_cons_self)]
    unfold lexDefault
    rw [if_neg (by simp [hdigit]), if_neg hraw, if_pos hc]
    unfold lexIdentifier
    simp only [← List.cons_append, htake, hkey]

/-- A run of digits has no separator in it. -/
private theorem scanDigitRun_digits {ds base : Str} (hd : ∀ c ∈ ds, isDigit c = true)
    (he : ∀ c, after.head? = some c → isDigit c = false ∧ c ≠ '_') :
    scanDigitRun isDigit base start (ds ++ after) =
      (ds.length, ds.countP (fun c => c ≠ '_'), []) := by
  have hsep : '_' ∉ ds := fun h => absurd (hd _ h) (by decide)
  have hrun : (ds ++ after).takeWhile (fun c => isDigit c || c = '_') = ds := by
    rw [List.takeWhile_append_of_pos (fun c hc => by simp [hd c hc])]
    cases after with
    | nil => simp
    | cons d after => simp [he d rfl]
  have hdoubled : ∀ run : Str, '_' ∉ run → doubled run = false := by
    intro run
    induction run with
    | nil => intro _; rfl
    | cons c run ih =>
      intro h
      have hc : c ≠ '_' := fun hc => h (by simp [hc])
      unfold doubled
      split
      · rfl
      · next heq => exact absurd (List.cons.inj heq).1 hc
      · next heq =>
          cases heq
          exact ih (fun hr => h (List.mem_cons_of_mem c hr))
  have hhead : ds.head? ≠ some '_' := fun h => hsep (List.mem_of_mem_head? h)
  have hlast : ds.getLast? ≠ some '_' := fun h => hsep (List.mem_of_mem_getLast? h)
  unfold scanDigitRun
  simp only [hrun, hdoubled ds hsep, hhead, hlast, decide_false, Bool.or_false, Bool.false_eq_true,
    if_false]

/-- A numeral is read up to its end. -/
private theorem scanToken_numeral {n : Nat} (he : (Lexeme.numeral n).Ends after)
    (hcs : Nat.toDigits 10 n ++ after = c :: cs) :
    scanToken false start c cs = ⟨.IntLiteral, (Nat.toDigits 10 n).length, []⟩ := by
  have hd : ∀ d ∈ Nat.toDigits 10 n, isDigit d = true := fun _ => isDigit_of_mem_toDigits
  have hlast : ∀ d, after.head? = some d → isDigit d = false ∧ d ≠ '_' ∧ d ≠ '.' ∧ d ≠ 'x' ∧
      d ≠ 'X' ∧ d ≠ 'b' ∧ d ≠ 'B' := by
    intro d hd
    rcases he d hd with rfl | rfl | rfl <;> decide
  have hfraction : startsFraction after = false := by
    unfold startsFraction
    split
    · exact absurd rfl (hlast '.' rfl).2.2.1
    · rfl
  have hdec : lexDecimal start (Nat.toDigits 10 n ++ after) =
      ⟨.IntLiteral, (Nat.toDigits 10 n).length, []⟩ := by
    unfold lexDecimal
    rw [scanDigitRun_digits hd (fun c hc => ⟨(hlast c hc).1, (hlast c hc).2.1⟩)]
    simp [hfraction]
  obtain ⟨d, ds, hds, -⟩ := Text.toDigits_cons n
  rw [hds, List.cons_append] at hcs
  obtain ⟨rfl, rfl⟩ := List.cons.inj hcs
  have hc : isDigit d = true := hd d (by simp [hds])
  have hx : ∀ x, (ds ++ after).head? = some x → x ≠ 'x' ∧ x ≠ 'X' ∧ x ≠ 'b' ∧ x ≠ 'B' := by
    intro x hx
    cases ds with
    | nil => exact (hlast x hx).2.2.2
    | cons x' ds =>
      obtain rfl : x' = x := Option.some.inj hx
      have := hd x' (by simp [hds])
      refine ⟨?_, ?_, ?_, ?_⟩ <;> rintro rfl <;> exact absurd this (by decide)
  have hnum : lexNumber start (d :: (ds ++ after)) = lexDecimal start (d :: (ds ++ after)) := by
    unfold lexNumber
    split
    · next x xs heq =>
        obtain ⟨h1, h2, h3, h4⟩ := hx x (by rw [(List.cons.inj heq).2]; rfl)
        rw [if_neg (by simp [h1, h2]), if_neg (by simp [h3, h4])]
    · rfl
  rw [scanToken_default (isIdentCont_of_isDigit hc)]
  unfold lexDefault
  rw [if_pos hc, hnum, ← List.cons_append, ← hds, hdec]

/-! ### Strings -/

/-- A string between its quotes as it is written. -/
def escape (s : Str) : Str :=
  s.flatMap (fun c => if c = '"' ∨ c = '\\' then ['\\', c] else [c])

theorem quote_eq (s : Str) : quote s = '"' :: (escape s ++ ['"']) := rfl

theorem escape_cons (c : Char) (s : Str) :
    escape (c :: s) = (if c = '"' ∨ c = '\\' then ['\\', c] else [c]) ++ escape s :=
  List.flatMap_cons

variable {s : Str}

/-- Only quotes and backslashes are changed by the escapes. -/
theorem escape_eq_self : escape s = s ↔ '"' ∉ s ∧ '\\' ∉ s := by
  have hlen : ∀ s : Str, s.length ≤ (escape s).length := by
    intro s
    induction s with
    | nil => exact le_rfl
    | cons c s ih =>
      rw [escape_cons]
      split <;> simp <;> omega
  induction s with
  | nil => simp [escape]
  | cons c s ih =>
    rw [escape_cons]
    by_cases hc : c = '"' ∨ c = '\\'
    · rw [if_pos hc]
      constructor
      · intro h
        have h' := congrArg List.length h
        have := hlen s
        simp at h'
        omega
      · rintro ⟨h1, h2⟩
        rcases hc with rfl | rfl
        · exact absurd List.mem_cons_self h1
        · exact absurd List.mem_cons_self h2
    · rw [if_neg hc]
      rw [not_or] at hc
      simp [ih, Ne.symm hc.1, Ne.symm hc.2]

/-- Escapes never make a string empty, and never fill an empty one. -/
@[simp] theorem escape_eq_nil : escape s = [] ↔ s = [] := by
  cases s with
  | nil => simp [escape]
  | cons c s => rw [escape_cons]; split <;> simp

/-- A backslash takes the byte after it along. -/
theorem stringBody_backslash (c : Char) (cs : Str) :
    stringBody '"' ('\\' :: c :: cs) =
      ((stringBody '"' cs).1 + 2, (stringBody '"' cs).2) := rfl

/-- A byte that is neither a quote nor a backslash nor a newline is one byte of the
string. -/
theorem stringBody_cons (hq : c ≠ '"') (hb : c ≠ '\\') (hn : c ≠ '\n') :
    stringBody '"' (c :: cs) = ((stringBody '"' cs).1 + 1, (stringBody '"' cs).2) := by
  rw [stringBody.eq_4 '"' c cs (fun h => absurd h hb) (fun _ _ h => absurd h hb)]
  rw [if_neg hn, if_neg hq]

/-- A newline ends a string unclosed. -/
theorem stringBody_newline (cs : Str) : stringBody '"' ('\n' :: cs) = (0, false) := by
  rw [stringBody.eq_4 '"' '\n' cs (by simp) (by simp), if_pos rfl]

/-- The body of a written string without a newline ends at its own quote. -/
theorem stringBody_escape (hs : '\n' ∉ s) (after : Str) :
    stringBody '"' (escape s ++ '"' :: after) = ((escape s).length + 1, true) := by
  induction s with
  | nil => rfl
  | cons c s ih =>
    have ih := ih (fun h => hs (List.mem_cons_of_mem c h))
    have hn : c ≠ '\n' := fun h => hs (by simp [h])
    rw [escape_cons]
    by_cases hc : c = '"' ∨ c = '\\'
    · rw [if_pos hc]
      simp only [cons_append, nil_append, stringBody_backslash, ih, length_cons]
    · rw [if_neg hc]
      rw [not_or] at hc
      simp only [cons_append, nil_append, stringBody_cons hc.1 hc.2 hn, ih,
        length_cons]

/-- A written string with a newline in it is not closed. -/
theorem stringBody_escape_newline (hs : '\n' ∈ s) (after : Str) :
    (stringBody '"' (escape s ++ after)).2 = false := by
  induction s with
  | nil => cases hs
  | cons c s ih =>
    rw [escape_cons]
    by_cases hn : c = '\n'
    · subst hn
      rw [if_neg (by decide)]
      simp only [List.cons_append, List.nil_append, stringBody_newline]
    · have ih := ih ((List.mem_cons.mp hs).resolve_left (Ne.symm hn))
      by_cases hc : c = '"' ∨ c = '\\'
      · rw [if_pos hc]
        simp only [cons_append, nil_append, stringBody_backslash, ih]
      · rw [if_neg hc]
        rw [not_or] at hc
        simp only [cons_append, nil_append, stringBody_cons hc.1 hc.2 hn, ih]

/-- The first byte of a string that is not empty is written without a quote. -/
theorem not_opens_triple (hs : s ≠ []) (after : Str) :
    ['"', '"'].isPrefixOf (escape s ++ after) = false := by
  cases s with
  | nil => exact absurd rfl hs
  | cons c s =>
    rw [escape_cons]
    split
    · rfl
    · next hc =>
        rw [not_or] at hc
        simp [List.isPrefixOf, Ne.symm hc.1]

/-- A written string is read up to its closing quote. -/
private theorem scanToken_string (hs : '\n' ∉ s) (he : (Lexeme.string s).Ends after)
    (hcs : quote s ++ after = c :: cs) :
    scanToken false start c cs = ⟨.StringLiteral, (quote s).length, []⟩ := by
  rw [quote_eq, cons_append] at hcs
  cases hcs
  have hsingle : ['"', '"'].isPrefixOf ((escape s ++ ['"']) ++ after) = false := by
    cases s with
    | nil =>
      cases after with
      | nil => rfl
      | cons d after => rcases he d rfl with rfl | rfl | rfl <;> rfl
    | cons c s =>
      rw [List.append_assoc]
      exact not_opens_triple (List.cons_ne_nil c s) _
  have hbody : stringBody '"' ((escape s ++ ['"']) ++ after) = ((escape s).length + 1, true) := by
    rw [List.append_assoc]
    exact stringBody_escape hs after
  unfold scanToken lexString lexDelimited
  simp only [hsingle, hbody, quote_eq]
  simp
  omega

/-- A symbol is its own token. -/
private theorem scanToken_symbol {kind : TokenKind} (hc : (Lexeme.symbol c kind).Plain)
    (he : (Lexeme.symbol c kind).Ends after) :
    scanToken false start c after = ⟨kind, 1, []⟩ := by
  have hop : ∀ (longer : List (Char × TokenKind)) (single : TokenKind),
      (∀ p ∈ longer, p.1 = '=' ∨ p.1 = '>') → operator after longer single = ⟨single, 1, []⟩ := by
    intro longer single hlonger
    unfold operator
    cases after with
    | nil => rfl
    | cons d after =>
      have hd : longer.lookup d = none := by
        rw [List.lookup_eq_none_iff]
        intro p hp
        rcases hlonger p hp with h | h
        · simpa [h] using fun hd : d = '=' => he.1 (by simp [hd])
        · simpa [h] using fun hd : d = '>' => he.2 (by simp [hd])
      simp only [hd]
  simp only [Lexeme.Plain, List.mem_cons, Prod.mk.injEq, List.not_mem_nil, or_false] at hc
  rcases hc with ⟨rfl, rfl⟩ | ⟨rfl, rfl⟩ | ⟨rfl, rfl⟩ | ⟨rfl, rfl⟩ | ⟨rfl, rfl⟩
  · rfl
  · rfl
  · rfl
  · exact hop _ _ (by simp)
  · exact hop _ _ (by simp)

variable {l : Lexeme}

/-- **One token.**  A token followed by what may follow it is read as what it is. -/
theorem scanToken_lexeme (hl : l.Plain) (he : l.Ends after) (hcs : l.text ++ after = c :: cs) :
    scanToken false start c cs = ⟨l.kind, l.text.length, []⟩ := by
  cases l with
  | word w => exact scanToken_word hl he hcs
  | symbol c' kind =>
    cases hcs
    exact scanToken_symbol hl he
  | numeral n => exact scanToken_numeral he hcs
  | string s => exact scanToken_string hl he hcs

/-- A token has a first byte, which is no white space and starts no comment. -/
theorem Lexeme.text_cons (hl : l.Plain) :
    ∃ c cs, l.text = c :: cs ∧ c ≠ ' ' ∧ c ≠ '\t' ∧ c ≠ '\r' ∧ c ≠ '\n' ∧ c ≠ '/' := by
  have hcont : ∀ c, isIdentCont c = true →
      c ≠ ' ' ∧ c ≠ '\t' ∧ c ≠ '\r' ∧ c ≠ '\n' ∧ c ≠ '/' := by
    intro c hc
    refine ⟨?_, ?_, ?_, ?_, ?_⟩ <;> rintro rfl <;> exact absurd hc (by decide)
  cases l with
  | word w =>
    cases w with
    | nil => exact absurd hl.1 (by decide)
    | cons c w => exact ⟨c, w, rfl, hcont c (List.all_eq_true.mp hl.2.1 c List.mem_cons_self)⟩
  | symbol c kind =>
    refine ⟨c, [], rfl, ?_⟩
    simp only [Lexeme.Plain, List.mem_cons, Prod.mk.injEq, List.not_mem_nil, or_false] at hl
    rcases hl with ⟨rfl, rfl⟩ | ⟨rfl, rfl⟩ | ⟨rfl, rfl⟩ | ⟨rfl, rfl⟩ | ⟨rfl, rfl⟩ <;> decide
  | numeral n =>
    obtain ⟨d, ds, hds, -⟩ := Text.toDigits_cons n
    have hd : isDigit d = true := isDigit_of_mem_toDigits (n := n) (by simp [hds])
    exact ⟨d, ds, hds, hcont d (isIdentCont_of_isDigit hd)⟩
  | string s => exact ⟨'"', _, rfl, by decide⟩

/-! ### Chunks -/

/-- A token with the white space before it. -/
structure Chunk where
  blanks : Str
  lexeme : Lexeme

namespace Chunk

def text (k : Chunk) : Str := k.blanks ++ k.lexeme.text

/-- The token of a chunk that starts at a position. -/
def token (k : Chunk) (pos : Nat) : Token :=
  ⟨k.lexeme.kind, ⟨pos + k.blanks.length, k.lexeme.text.length⟩, k.lexeme.text⟩

/-- The white space of a chunk is white space. -/
def Blank (k : Chunk) : Prop := k.blanks.all (fun b => b = ' ' || b = '\n') = true

end Chunk

/-- The text of a list of chunks. -/
def render (ks : List Chunk) : Str := ks.flatMap Chunk.text

/-- The tokens of a list of chunks that starts at a position. -/
def lexAt : Nat → List Chunk → List Token
  | _, [] => []
  | pos, k :: ks => k.token pos :: lexAt (pos + k.text.length) ks

theorem lexAt_append (pos : Nat) (ks ks' : List Chunk) :
    lexAt pos (ks ++ ks') = lexAt pos ks ++ lexAt (pos + (render ks).length) ks' := by
  induction ks generalizing pos with
  | nil => simp [lexAt, render]
  | cons k ks ih => simp [lexAt, ih, render, Nat.add_assoc]

theorem length_lexAt (pos : Nat) (ks : List Chunk) : (lexAt pos ks).length = ks.length := by
  induction ks generalizing pos with
  | nil => rfl
  | cons k ks ih => simp [lexAt, ih]

/-- Chunks that are kept apart: what follows each of them does not change it. -/
def Spaced : List Chunk → Str → Prop
  | [], _ => True
  | k :: ks, after => k.Blank ∧ k.lexeme.Ends (render ks ++ after) ∧ Spaced ks after

/-- The white space of a chunk is skipped. -/
theorem skipTrivia_blanks {blanks : Str} (hb : blanks.all (fun b => b = ' ' || b = '\n') = true)
    (hc : c ≠ ' ' ∧ c ≠ '\t' ∧ c ≠ '\r' ∧ c ≠ '\n' ∧ c ≠ '/') (pos : Nat) :
    skipTrivia .blanks pos (blanks ++ c :: cs) = (pos + blanks.length, c :: cs, []) := by
  obtain ⟨h1, h2, h3, h4, h5⟩ := hc
  induction blanks generalizing pos with
  | nil =>
    rw [nil_append, skipTrivia.eq_6 _ _ _ (fun _ h => absurd h h5) (fun _ h => absurd h h5),
      if_neg (by simp [h1, h2, h3, h4])]
    rfl
  | cons b blanks ih =>
    simp only [all_cons, Bool.and_eq_true] at hb
    have hstep : skipTrivia .blanks pos (b :: (blanks ++ c :: cs)) =
        skipTrivia .blanks (pos + 1) (blanks ++ c :: cs) := by
      rcases Bool.or_eq_true _ _ ▸ hb.1 with h | h
      · rw [of_decide_eq_true h]; rfl
      · rw [of_decide_eq_true h]; rfl
    rw [cons_append, hstep, ih hb.2 (pos + 1), length_cons]
    congr 1
    omega

variable {L : Lexer} {pos : Nat}

/-- The text of a token, cut out of the file. -/
private theorem make_prefix {kind : TokenKind} {text : Str} (after : Str) (hne : text ≠ [])
    (h : text ++ after <+: L.text.drop pos) :
    L.make kind pos (pos + text.length) = .ok ⟨kind, ⟨pos, text.length⟩, text⟩ := by
  have hpos : ¬ L.text.length < pos := by
    intro hlt
    rw [drop_eq_nil_of_le (by omega)] at h
    exact hne (List.append_eq_nil_iff.mp (List.prefix_nil.mp h)).1
  obtain ⟨tail, htail⟩ := h
  unfold Lexer.make
  rw [if_neg hpos, ← htail]
  simp

/-- **Step lemma.**  The lexer takes one chunk off its input. -/
theorem tokenizeFrom_chunk {k : Chunk} (hL : L.allowHoles = false) (hb : k.Blank)
    (hp : k.lexeme.Plain) (he : k.lexeme.Ends after) (h : k.text ++ after <+: L.text.drop pos)
    (fuel : Nat) :
    L.tokenizeFrom (fuel + 1) pos (k.text ++ after) =
      (L.tokenizeFrom fuel (pos + k.text.length) after).map
        (fun (tokens, diags) => (k.token pos :: tokens, diags)) := by
  obtain ⟨c, cs, hcs, hc⟩ := Lexeme.text_cons hp
  have hskip : skipTrivia .blanks pos (k.text ++ after) =
      (pos + k.blanks.length, c :: (cs ++ after), []) := by
    unfold Chunk.text
    rw [append_assoc, hcs, cons_append]
    exact skipTrivia_blanks hb hc pos
  have hscan : scanToken L.allowHoles (pos + k.blanks.length) c (cs ++ after) =
      ⟨k.lexeme.kind, k.lexeme.text.length, []⟩ := by
    rw [hL]
    exact scanToken_lexeme hp he (by rw [hcs, cons_append])
  have hmake : L.make k.lexeme.kind (pos + k.blanks.length)
      (pos + k.blanks.length + k.lexeme.text.length) = .ok (k.token pos) := by
    refine make_prefix after (by simp [hcs]) ?_
    rw [← drop_drop]
    have := h.drop k.blanks.length
    rwa [Chunk.text, append_assoc, drop_left] at this
  have hdrop : (c :: (cs ++ after)).drop k.lexeme.text.length = after := by
    rw [← cons_append, ← hcs, drop_left]
  have hlen : pos + k.blanks.length + k.lexeme.text.length = pos + k.text.length := by
    simp [Chunk.text]
    omega
  rw [hlen] at hmake
  rw [Lexer.tokenizeFrom, hskip]
  simp only [hscan, hdrop, hlen, hmake, ok_bind]
  cases L.tokenizeFrom fuel (pos + k.text.length) after with
  | error e => rfl
  | ok r => rfl

/-- **Run lemma.**  The lexer takes a list of chunks off its input. -/
theorem tokenizeFrom_render {ks : List Chunk} (hL : L.allowHoles = false) (hs : Spaced ks after)
    (hp : ∀ k ∈ ks, k.lexeme.Plain) (h : render ks ++ after <+: L.text.drop pos) (fuel : Nat) :
    L.tokenizeFrom (fuel + ks.length) pos (render ks ++ after) =
      (L.tokenizeFrom fuel (pos + (render ks).length) after).map
        (fun (tokens, diags) => (lexAt pos ks ++ tokens, diags)) := by
  induction ks generalizing pos with
  | nil =>
    simp only [render, lexAt, flatMap_nil, nil_append, length_nil, Nat.add_zero]
    cases L.tokenizeFrom fuel pos after <;> rfl
  | cons k ks ih =>
    obtain ⟨hb, he, hs⟩ := hs
    have htext : render (k :: ks) ++ after = k.text ++ (render ks ++ after) := by
      simp [render]
    have hlen : pos + (render (k :: ks)).length =
        pos + k.text.length + (render ks).length := by
      simp [render]
      omega
    have htail : render ks ++ after <+: L.text.drop (pos + k.text.length) := by
      rw [htext] at h
      rw [← drop_drop]
      simpa using h.drop k.text.length
    rw [htext] at h ⊢
    rw [length_cons, ← Nat.add_assoc,
      tokenizeFrom_chunk hL hb (hp k mem_cons_self) he h,
      ih hs (fun k' hk' => hp k' (mem_cons_of_mem k hk')) htail, hlen]
    cases L.tokenizeFrom fuel (pos + k.text.length + (render ks).length) after <;> rfl

/-- A string with a newline in it is reported, whatever follows. -/
theorem tokenizeFrom_newline {blanks : Str} {fuel : Nat} {tokens : List Token}
    {diags : List Diagnostic} (hb : (Chunk.mk blanks (.string s)).Blank) (hs : '\n' ∈ s)
    (h : L.tokenizeFrom (fuel + 1) pos (blanks ++ quote s ++ after) = .ok (tokens, diags)) :
    diags ≠ [] := by
  have hskip : skipTrivia .blanks pos (blanks ++ quote s ++ after) =
      (pos + blanks.length, '"' :: (escape s ++ '"' :: after), []) := by
    rw [quote_eq, append_assoc, cons_append, append_assoc, cons_append,
      nil_append]
    exact skipTrivia_blanks hb (by decide) pos
  have hscan : (scanToken L.allowHoles (pos + blanks.length) '"'
      (escape s ++ '"' :: after)).diags ≠ [] := by
    unfold scanToken lexString lexDelimited
    simp only [not_opens_triple (ne_nil_of_mem hs), stringBody_escape_newline hs]
    simp
  rw [Lexer.tokenizeFrom, hskip] at h
  obtain ⟨token, -, h⟩ := bind_eq_ok.mp h
  obtain ⟨⟨tokens', diags'⟩, -, h⟩ := bind_eq_ok.mp h
  cases h
  simp [hscan]

/-- A token that a program writes; its strings may be any strings. -/
def Lexeme.Written : Lexeme → Prop
  | .string _ => True
  | l => l.Plain

theorem Lexeme.Written.plain (hl : l.Written) (hs : ∀ s, l = .string s → '\n' ∉ s) : l.Plain := by
  cases l with
  | word w => exact hl
  | symbol c kind => exact hl
  | numeral n => exact hl
  | string s => exact hs s rfl

/-- A written token has at least one byte. -/
theorem Lexeme.Written.text_pos (hl : l.Written) : 1 ≤ l.text.length := by
  by_cases hs : ∃ s, l = .string s
  · obtain ⟨s, rfl⟩ := hs
    simp [Lexeme.text, quote_eq]
  · obtain ⟨c, cs, hcs, -⟩ := Lexeme.text_cons (hl.plain (fun s h => absurd ⟨s, h⟩ hs))
    simp [hcs]

/-- **Newlines.**  A string with a newline in it is reported, wherever it stands. -/
theorem tokenizeFrom_render_newline {ks : List Chunk} {fuel : Nat} {tokens : List Token}
    {diags : List Diagnostic} (hL : L.allowHoles = false) (hs : Spaced ks after)
    (hw : ∀ k ∈ ks, k.lexeme.Written) (hn : ∃ k ∈ ks, ∃ s, k.lexeme = .string s ∧ '\n' ∈ s)
    (h : render ks ++ after <+: L.text.drop pos)
    (hok : L.tokenizeFrom (fuel + ks.length) pos (render ks ++ after) = .ok (tokens, diags)) :
    diags ≠ [] := by
  induction ks generalizing pos tokens with
  | nil =>
    obtain ⟨k, hk, -⟩ := hn
    cases hk
  | cons k ks ih =>
    obtain ⟨hb, he, hs⟩ := hs
    have htext : render (k :: ks) ++ after = k.text ++ (render ks ++ after) := by
      simp [render]
    rw [htext] at h hok
    rw [length_cons, ← Nat.add_assoc] at hok
    by_cases hk : ∃ s, k.lexeme = .string s ∧ '\n' ∈ s
    · obtain ⟨blanks, l⟩ := k
      obtain ⟨s, rfl, hs'⟩ := hk
      exact tokenizeFrom_newline hb hs' hok
    · have hplain : k.lexeme.Plain := (hw k mem_cons_self).plain
        (fun s hl hnl => hk ⟨s, hl, hnl⟩)
      have htail : render ks ++ after <+: L.text.drop (pos + k.text.length) := by
        rw [← drop_drop]
        simpa using h.drop k.text.length
      have hn' : ∃ k ∈ ks, ∃ s, k.lexeme = .string s ∧ '\n' ∈ s := by
        obtain ⟨k', hk', hstr⟩ := hn
        rcases List.mem_cons.mp hk' with rfl | hk'
        · exact absurd hstr hk
        · exact ⟨k', hk', hstr⟩
      rw [tokenizeFrom_chunk hL hb hplain he h] at hok
      cases hrest : L.tokenizeFrom (fuel + ks.length) (pos + k.text.length)
          (render ks ++ after) with
      | error e => rw [hrest] at hok; cases hok
      | ok r =>
        obtain ⟨tokens', diags'⟩ := r
        rw [hrest] at hok
        cases hok
        exact ih hs (fun k' hk' => hw k' (mem_cons_of_mem k hk')) hn' htail hrest

end Leviathan.Frontend
