import Leviathan.Frontend.Truncation

/-!
# The spans of the tokens

`Lexer.hpp` promises a token stream for every file: the last token is `End`,
malformed text makes an error token, and nothing is thrown.  `Faithful` says what a
token stream has to do with the text it was read from.  The lexer produces such a
stream except in two cases.  A string that is open at the end of the range and
ends in a backslash takes the cursor one byte past the end, since the byte after a
backslash is skipped unread (`EndsInEscape`); and a range that ends at 0 is taken
for the whole file.
-/

variable {s body cs : Str} {n start first : Nat} {c : Char} {allowHoles : Bool}
  {diags : List Diagnostic} {tokens : List Token}

namespace Leviathan.Frontend

open List

/-! ## What stands between the tokens -/

/-- The four bytes of white space. -/
def isBlank (c : Char) : Prop := c = ' ' ∨ c = '\t' ∨ c = '\r' ∨ c = '\n'

/-- White space or a comment at the front of a text, with its number of bytes.  A
line comment runs to the end of the line, a block comment to the first `*/`. -/
inductive Blank : Str → Nat → Prop where
  | space (c : Char) (cs : Str) : isBlank c → Blank (c :: cs) 1
  | line (body after : Str) : '\n' ∉ body → (∀ c ∈ after.head?, c = '\n') →
      Blank ('/' :: '/' :: (body ++ after)) (body.length + 2)
  | block (body after : Str) : ¬ ['*', '/'] <:+: body →
      Blank ('/' :: '*' :: (body ++ '*' :: '/' :: after)) (body.length + 4)

/-- A block comment that does not end. -/
def OpenComment (s : Str) : Prop := ∃ body, s = '/' :: '*' :: body ∧ ¬ ['*', '/'] <:+: body

/-- The error that reports a block comment that does not end. -/
def openCommentError (start : Nat) : Diagnostic :=
  ⟨⟨start, 2⟩, "unterminated block comment".toList⟩

/-- `n` bytes of white space and comments. -/
inductive Gap : Str → Nat → Prop where
  | none (s : Str) : Gap s 0
  | more {s : Str} {m n : Nat} : Blank s m → Gap (s.drop m) n → Gap s (m + n)

theorem Blank.bounds (h : Blank s n) : 1 ≤ n ∧ n ≤ s.length := by
  cases h with
  | space c cs _ => simp
  | line body after _ _ => simp
  | block body after _ =>
    simp only [length_cons, length_append]
    omega

theorem Gap.le_length (h : Gap s n) : n ≤ s.length := by
  induction h with
  | none s => omega
  | more hb _ ih =>
    have := hb.bounds
    rw [length_drop] at ih
    omega

/-- Every byte of a gap lies in white space or in a comment of it. -/
theorem Gap.covers (h : Gap s n) :
    ∀ p, p < n → ∃ a b, a ≤ p ∧ p < b ∧ b ≤ n ∧ Blank (s.drop a) (b - a) := by
  induction h with
  | none s =>
    intro p hp
    omega
  | @more s m n hb _ ih =>
    intro p hp
    by_cases hpm : p < m
    · exact ⟨0, m, by omega, hpm, by omega, by simpa using hb⟩
    · obtain ⟨a, b, ha, hpb, hbn, hblank⟩ := ih (p - m) (by omega)
      refine ⟨m + a, m + b, by omega, by omega, by omega, ?_⟩
      rw [← drop_drop, Nat.add_sub_add_left]
      exact hblank

/-! ## Skipping -/

theorem skipTrivia_line {after : Str} (hbody : '\n' ∉ body) (hafter : ∀ c ∈ after.head?, c = '\n')
    (pos : Nat) :
    skipTrivia .line pos (body ++ after) = skipTrivia .blanks (pos + body.length) after := by
  induction body generalizing pos with
  | nil =>
    cases after with
    | nil => simp [skipTrivia]
    | cons c cs =>
      obtain rfl := hafter c rfl
      simp [skipTrivia]
  | cons c body ih =>
    have hc : c ≠ '\n' := fun h => hbody (h ▸ mem_cons_self)
    have hmem : '\n' ∉ body := fun h => hbody (mem_cons_of_mem c h)
    rw [cons_append, skipTrivia, if_neg hc, ih hmem, length_cons]
    congr 1
    omega

/-- One byte of a block comment that does not start its end. -/
theorem skipTrivia_block_cons {pos : Nat} (h : ¬ ['*', '/'] <+: c :: cs) :
    skipTrivia (.block start) pos (c :: cs) = skipTrivia (.block start) (pos + 1) cs := by
  rw [skipTrivia]
  intro rest hc hcs
  exact h ⟨rest, by simp [hc, hcs]⟩

theorem skipTrivia_block {after : Str} (hbody : ¬ ['*', '/'] <:+: body) (start pos : Nat) :
    skipTrivia (.block start) pos (body ++ '*' :: '/' :: after) =
      skipTrivia .blanks (pos + body.length + 2) after := by
  induction body generalizing pos with
  | nil => simp [skipTrivia]
  | cons c body ih =>
    have hrest : ¬ ['*', '/'] <:+: body :=
      fun h => hbody (h.trans (suffix_cons c body).isInfix)
    have hhere : ¬ ['*', '/'] <+: c :: (body ++ '*' :: '/' :: after) := by
      intro hpre
      obtain ⟨hc, hpre⟩ := List.cons_prefix_cons.mp hpre
      cases body with
      | nil =>
        obtain ⟨hstar, -⟩ := List.cons_prefix_cons.mp hpre
        exact absurd hstar (by decide)
      | cons d body =>
        obtain ⟨hd, -⟩ := List.cons_prefix_cons.mp hpre
        exact hbody ⟨[], body, by rw [← hc, ← hd]; rfl⟩
    rw [cons_append, skipTrivia_block_cons hhere, ih hrest, length_cons]
    congr 1
    omega

theorem skipTrivia_block_open (hbody : ¬ ['*', '/'] <:+: body) (start pos : Nat) :
    skipTrivia (.block start) pos body = (pos + body.length, [], [openCommentError start]) := by
  induction body generalizing pos with
  | nil => simp [skipTrivia, openCommentError]
  | cons c body ih =>
    have hrest : ¬ ['*', '/'] <:+: body :=
      fun h => hbody (h.trans (suffix_cons c body).isInfix)
    rw [skipTrivia_block_cons (fun h => hbody h.isInfix), ih hrest, length_cons]
    congr 1
    omega

/-- White space and comments are skipped. -/
theorem skipTrivia_blank (h : Blank s n) (pos : Nat) :
    skipTrivia .blanks pos s = skipTrivia .blanks (pos + n) (s.drop n) := by
  cases h with
  | space c cs hc =>
    rw [skipTrivia]
    · exact if_pos hc
    · intro rest hslash _
      rcases hc with rfl | rfl | rfl | rfl <;> cases hslash
    · intro rest hslash _
      rcases hc with rfl | rfl | rfl | rfl <;> cases hslash
  | line body after hbody hafter =>
    rw [skipTrivia, skipTrivia_line hbody hafter]
    have hdrop : (body ++ after).drop body.length = after := drop_left
    simp only [drop_succ_cons, hdrop]
    congr 1
    omega
  | block body after hbody =>
    rw [skipTrivia, skipTrivia_block hbody]
    have hdrop : (body ++ '*' :: '/' :: after).drop (body.length + 2) = after := by
      rw [drop_append]
      simp
    simp only [drop_succ_cons, hdrop]
    congr 1
    omega

theorem skipTrivia_openComment (h : OpenComment s) (pos : Nat) :
    skipTrivia .blanks pos s = (pos + s.length, [], [openCommentError pos]) := by
  obtain ⟨body, rfl, hbody⟩ := h
  rw [skipTrivia, skipTrivia_block_open hbody]
  simp only [length_cons]
  congr 1
  omega

/-- A text at whose front nothing is skipped. -/
def Solid (s : Str) : Prop := (∀ n, ¬ Blank s n) ∧ ¬ OpenComment s

/-- The first end of a block comment. -/
theorem split_first_close (h : ['*', '/'] <:+: s) :
    ∃ body after, s = body ++ '*' :: '/' :: after ∧ ¬ ['*', '/'] <:+: body := by
  induction s with
  | nil => exact absurd h (by simp)
  | cons c cs ih =>
    by_cases hhere : ['*', '/'] <+: c :: cs
    · obtain ⟨after, hafter⟩ := hhere
      exact ⟨[], after, by simpa using hafter.symm, by simp⟩
    · have hcs : ['*', '/'] <:+: cs := by
        rcases List.infix_cons_iff.mp h with hpre | hinf
        · exact absurd hpre hhere
        · exact hinf
      obtain ⟨body, after, hsplit, hbody⟩ := ih hcs
      refine ⟨c :: body, after, by rw [hsplit]; rfl, ?_⟩
      intro hinf
      rcases List.infix_cons_iff.mp hinf with hpre | hinf
      · -- a close at the front of the longer body is one at the front of the text
        apply hhere
        rw [hsplit]
        exact hpre.trans ⟨'*' :: '/' :: after, by simp⟩
      · exact hbody hinf

theorem Solid.not_slash (h : Solid ('/' :: '/' :: cs)) : False := by
  have hsplit := takeWhile_append_dropWhile (p := fun c => decide (c ≠ '\n')) (l := cs)
  have hbody : '\n' ∉ cs.takeWhile (fun c => decide (c ≠ '\n')) := by
    intro hmem
    have := mem_takeWhile_imp hmem
    simp at this
  have hafter : ∀ c ∈ (cs.dropWhile (fun c => decide (c ≠ '\n'))).head?, c = '\n' := by
    intro c hc
    have := head?_dropWhile_not (fun c => decide (c ≠ '\n')) cs
    rw [Option.mem_def.mp hc] at this
    simpa using this
  have hblank := Blank.line _ _ hbody hafter
  rw [hsplit] at hblank
  exact h.1 _ hblank

theorem Solid.not_star (h : Solid ('/' :: '*' :: cs)) : False := by
  by_cases hinf : ['*', '/'] <:+: cs
  · obtain ⟨body, after, rfl, hbody⟩ := split_first_close hinf
    exact h.1 _ (Blank.block body after hbody)
  · exact h.2 ⟨cs, rfl, hinf⟩

theorem skipTrivia_solid (h : Solid s) (pos : Nat) : skipTrivia .blanks pos s = (pos, s, []) := by
  cases s with
  | nil => rfl
  | cons c cs =>
    rw [skipTrivia]
    · refine if_neg ?_
      intro hc
      exact h.1 1 (Blank.space c cs hc)
    · intro rest hc hcs
      subst hc hcs
      exact h.not_slash
    · intro rest hc hcs
      subst hc hcs
      exact h.not_star

/-- `skipTrivia` takes the white space and the comments up to the next token, or to
a block comment that does not end. -/
theorem skipTrivia_spec (s : Str) (pos : Nat) :
    ∃ n, Gap s n ∧
      ((Solid (s.drop n) ∧ skipTrivia .blanks pos s = (pos + n, s.drop n, [])) ∨
        (OpenComment (s.drop n) ∧
          skipTrivia .blanks pos s = (pos + s.length, [], [openCommentError (pos + n)]))) := by
  induction hlen : s.length using Nat.strong_induction_on generalizing s pos with
  | _ len ih =>
    by_cases hopen : OpenComment s
    · exact ⟨0, Gap.none s, Or.inr ⟨hopen, skipTrivia_openComment hopen pos ▸ hlen ▸ rfl⟩⟩
    · by_cases hblank : ∃ m, Blank s m
      · obtain ⟨m, hm⟩ := hblank
        have hbounds := hm.bounds
        obtain ⟨n, hgap, hn⟩ := ih (s.drop m).length (by rw [length_drop]; omega)
          (s.drop m) (pos + m) rfl
        refine ⟨m + n, Gap.more hm hgap, ?_⟩
        rw [skipTrivia_blank hm, ← drop_drop, ← Nat.add_assoc]
        rcases hn with hn | hn
        · exact Or.inl hn
        · refine Or.inr ⟨hn.1, ?_⟩
          rw [hn.2, length_drop]
          congr 1
          omega
      · have hsolid : Solid s := ⟨fun n hn => hblank ⟨n, hn⟩, hopen⟩
        exact ⟨0, Gap.none s, Or.inl ⟨hsolid, skipTrivia_solid hsolid pos⟩⟩

/-! ## How far one token reaches -/

/-- The body of a literal that is open at the end of the text, whose last byte is a
backslash that escapes nothing; `stops` are the places where the literal ends. -/
inductive OpenEscape (stops : Str → Prop) : Str → Prop where
  | last : OpenEscape stops ['\\']
  | escaped (c : Char) (cs : Str) : OpenEscape stops cs → OpenEscape stops ('\\' :: c :: cs)
  | plain (c : Char) (cs : Str) : c ≠ '\\' → ¬ stops (c :: cs) → OpenEscape stops cs →
      OpenEscape stops (c :: cs)

/-- A string ends at its quote and at the end of the line. -/
def stringStops (quote : Char) (s : Str) : Prop := s.head? = some '\n' ∨ s.head? = some quote

/-- A multiline string ends at three quotes. -/
def tripleStops (quote : Char) (s : Str) : Prop := [quote, quote, quote] <+: s

theorem OpenEscape.plain_inv {stops : Str → Prop} (hc : c ≠ '\\') (h : OpenEscape stops (c :: cs)) :
    ¬ stops (c :: cs) ∧ OpenEscape stops cs := by
  cases h with
  | last => exact absurd rfl hc
  | escaped d ds _ => exact absurd rfl hc
  | plain c cs _ hstop hcs => exact ⟨hstop, hcs⟩

/-- A scan of a literal that skips the byte after a backslash unread reaches past
the text exactly with an open escape, and then by one byte. -/
theorem escape_reach {stops : Str → Prop} {f : Str → Nat} (hnil : f [] = 0)
    (hlast : f ['\\'] = 2) (hescaped : ∀ c cs, f ('\\' :: c :: cs) = f cs + 2)
    (hstop : ∀ c cs, c ≠ '\\' → stops (c :: cs) → f (c :: cs) ≤ cs.length + 1)
    (hplain : ∀ c cs, c ≠ '\\' → ¬ stops (c :: cs) → f (c :: cs) = f cs + 1) (cs : Str) :
    (OpenEscape stops cs → f cs = cs.length + 1) ∧ (¬ OpenEscape stops cs → f cs ≤ cs.length) := by
  induction hlen : cs.length using Nat.strong_induction_on generalizing cs with
  | _ len ih =>
    subst hlen
    match cs with
    | [] => exact ⟨(fun h => nomatch h), fun _ => by rw [hnil]; exact Nat.zero_le _⟩
    | c :: cs =>
      by_cases hc : c = '\\'
      · subst hc
        match cs with
        | [] => exact ⟨fun _ => hlast, fun h => absurd OpenEscape.last h⟩
        | c :: cs =>
          have hcs := ih cs.length (by simp) cs rfl
          simp only [hescaped, length_cons]
          constructor
          · intro h
            cases h with
            | escaped _ _ h => rw [hcs.1 h]
            | plain _ _ hne _ _ => exact absurd rfl hne
          · intro h
            have := hcs.2 (fun h' => h (OpenEscape.escaped c cs h'))
            omega
      · by_cases hs : stops (c :: cs)
        · exact ⟨fun h => absurd hs (h.plain_inv hc).1, fun _ => hstop c cs hc hs⟩
        · have hcs := ih cs.length (by simp) cs rfl
          rw [hplain c cs hc hs, length_cons]
          constructor
          · intro h
            rw [hcs.1 (h.plain_inv hc).2]
          · intro h
            have := hcs.2 (fun h' => h (OpenEscape.plain c cs hc hs h'))
            omega

/-- One byte of a string that is no backslash. -/
theorem stringBody_plain {quote : Char} (hc : c ≠ '\\') :
    stringBody quote (c :: cs) =
      if c = '\n' then (0, false)
      else if c = quote then (1, true)
      else ((stringBody quote cs).1 + 1, (stringBody quote cs).2) := by
  rw [stringBody]
  · intro h
    exact absurd h hc
  · intro d ds h
    exact absurd h hc

theorem stringBody_reach (quote : Char) (cs : Str) :
    (OpenEscape (stringStops quote) cs → (stringBody quote cs).1 = cs.length + 1) ∧
      (¬ OpenEscape (stringStops quote) cs → (stringBody quote cs).1 ≤ cs.length) := by
  refine escape_reach (f := fun cs => (stringBody quote cs).1) rfl rfl (fun _ _ => rfl) ?_ ?_ cs
  · intro c cs hc hstop
    rw [stringBody_plain hc]
    by_cases hline : c = '\n'
    · rw [if_pos hline]
      exact Nat.zero_le _
    · have hquote : c = quote := by
        rcases hstop with h | h
        · exact absurd (Option.some.inj h) hline
        · exact Option.some.inj h
      rw [if_neg hline, if_pos hquote]
      exact Nat.le_add_left 1 _
  · intro c cs hc hstop
    have hline : c ≠ '\n' := fun h => hstop (Or.inl (congrArg some h))
    have hquote : c ≠ quote := fun h => hstop (Or.inr (congrArg some h))
    rw [stringBody_plain hc, if_neg hline, if_neg hquote]

theorem tripleStringBody_plain {quote : Char} (hc : c ≠ '\\') :
    tripleStringBody quote (c :: cs) =
      if [quote, quote, quote].isPrefixOf (c :: cs) then (3, true)
      else ((tripleStringBody quote cs).1 + 1, (tripleStringBody quote cs).2) := by
  rw [tripleStringBody]
  · intro h
    exact absurd h hc
  · intro d ds h
    exact absurd h hc

theorem tripleStringBody_reach (quote : Char) (cs : Str) :
    (OpenEscape (tripleStops quote) cs → (tripleStringBody quote cs).1 = cs.length + 1) ∧
      (¬ OpenEscape (tripleStops quote) cs → (tripleStringBody quote cs).1 ≤ cs.length) := by
  refine escape_reach (f := fun cs => (tripleStringBody quote cs).1) rfl rfl (fun _ _ => rfl)
    ?_ ?_ cs
  · intro c cs hc hstop
    rw [tripleStringBody_plain hc, if_pos (List.isPrefixOf_iff_prefix.mpr hstop)]
    exact hstop.length_le
  · intro c cs hc hstop
    rw [tripleStringBody_plain hc, if_neg (fun h => hstop (List.isPrefixOf_iff_prefix.mp h))]

theorem quasiBody_le (cs : Str) : (quasiBody cs).1 ≤ cs.length := by
  fun_induction quasiBody cs with
  | case1 => exact Nat.le_refl 0
  | case2 cs n closed hrest ih =>
    rw [hrest] at ih
    simp only [length_cons]
    omega
  | case3 cs => simp
  | case4 c cs _ hc n closed hrest ih =>
    rw [hrest] at ih
    simp only [length_cons]
    omega

theorem rawStringBody_le (quote : Char) (cs : Str) : (rawStringBody quote cs).1 ≤ cs.length := by
  fun_induction rawStringBody quote cs with
  | case1 => exact Nat.le_refl 0
  | case2 cs => simp
  | case3 cs => exact Nat.zero_le _
  | case4 c cs _ hc n closed hrest ih =>
    rw [hrest] at ih
    simp only [length_cons]
    omega

/-- A token of at least one byte that lies in the next `room` bytes. -/
structure Scan.Fits (scan : Scan) (room : Nat) : Prop where
  kind : scan.kind ≠ .End
  pos : 1 ≤ scan.length
  le : scan.length ≤ room

theorem operator_fits {longer : List (Char × TokenKind)} {single : TokenKind}
    (hl : ∀ p ∈ longer, p.2 ≠ .End) (hs : single ≠ .End) :
    (operator cs longer single).Fits (cs.length + 1) := by
  unfold operator
  cases cs with
  | nil => exact ⟨hs, Nat.le_refl 1, Nat.le_refl 1⟩
  | cons d cs =>
    cases h : longer.lookup d with
    | none =>
      simp only [h]
      exact ⟨hs, Nat.le_refl 1, Nat.le_add_left 1 _⟩
    | some kind =>
      simp only [h]
      obtain ⟨l₁, l₂, hlonger, -⟩ := List.lookup_eq_some_iff.mp h
      exact ⟨hl (d, kind) (by simp [hlonger]), by simp, by simp⟩

theorem lexDelimited_fits {kind : TokenKind} {what : Str} {opening room : Nat} {body : Nat × Bool}
    (hk : kind ≠ .End) (hopening : 1 ≤ opening) (hroom : opening + body.1 ≤ room) :
    (lexDelimited kind what start opening body).Fits room := by
  unfold lexDelimited
  split
  · exact ⟨hk, by dsimp only; omega, hroom⟩
  · exact ⟨nofun, by dsimp only; omega, hroom⟩

theorem keywordKind_ne_end (word : Str) : keywordKind word ≠ .End := by
  unfold keywordKind
  cases h : keywordTable.lookup word with
  | none => decide
  | some kind =>
    obtain ⟨l₁, l₂, htable, -⟩ := List.lookup_eq_some_iff.mp h
    have hall : keywordTable.all (fun p => decide (p.2 ≠ .End)) = true := by decide
    have := List.all_eq_true.mp hall (word, kind) (by rw [htable]; simp)
    simpa using this

theorem length_takeWhile_cons {p : Char → Bool} (c : Char) (cs : Str) (hc : p c = true) :
    1 ≤ ((c :: cs).takeWhile p).length ∧ ((c :: cs).takeWhile p).length ≤ cs.length + 1 := by
  have hle := ( takeWhile_prefix p (l := c :: cs)).length_le
  rw [takeWhile_cons_of_pos hc] at hle ⊢
  exact ⟨by simp, hle⟩

theorem startsFraction_length (h : startsFraction s = true) : 2 ≤ s.length := by
  unfold startsFraction at h
  split at h
  · simp
  · cases h

theorem lexDecimal_fits (hc : isDigit c = true) (start : Nat) :
    (lexDecimal start (c :: cs)).Fits (cs.length + 1) := by
  have hrun := length_takeWhile_cons (p := fun c => isDigit c || c = '_') c cs (by simp [hc])
  unfold lexDecimal
  dsimp only [scanDigitRun]
  split
  · next hfraction =>
      have hlen := startsFraction_length hfraction
      refine ⟨nofun, by dsimp only; omega, ?_⟩
      dsimp only
      have hle := ( takeWhile_prefix (fun c => isDigit c || c = '_')
        (l := ((c :: cs).drop ((c :: cs).takeWhile fun c => isDigit c || c = '_').length).drop
          1)).length_le
      simp only [length_drop, length_cons] at hle hlen
      omega
  · exact ⟨nofun, hrun.1, hrun.2⟩

theorem lexBased_fits (pred : Char → Bool) (baseName : Str) (start : Nat) (ds : Str) :
    (lexBased pred baseName start ds).Fits (ds.length + 2) := by
  have hle := ( takeWhile_prefix (fun c => pred c || c = '_') (l := ds)).length_le
  refine ⟨nofun, ?_, ?_⟩
  · dsimp only [lexBased, scanDigitRun]
    omega
  · dsimp only [lexBased, scanDigitRun]
    omega

theorem lexNumber_fits (hc : isDigit c = true) (start : Nat) :
    (lexNumber start (c :: cs)).Fits (cs.length + 1) := by
  unfold lexNumber
  split
  · next x ds heq =>
      obtain ⟨rfl, rfl⟩ := List.cons.inj heq
      split
      · exact lexBased_fits _ _ _ _
      · split
        · exact lexBased_fits _ _ _ _
        · exact lexDecimal_fits hc start
  · exact lexDecimal_fits hc start

theorem lexDefault_fits (allowHoles : Bool) (start : Nat) (c : Char) (cs : Str) :
    (lexDefault allowHoles start c cs).Fits (cs.length + 1) := by
  unfold lexDefault
  split
  · next hc => exact lexNumber_fits hc start
  · split
    · next hraw =>
        have hlen : 1 ≤ cs.length := by
          cases cs with
          | nil => simp at hraw
          | cons d ds => simp
        have hle := rawStringBody_le (cs.headD '"') cs.tail
        rw [List.length_tail] at hle
        exact lexDelimited_fits (by decide) (by decide) (by omega)
    · split
      · next hident =>
          have hrun := length_takeWhile_cons
            (p := fun c => isIdentCont c || (allowHoles && c = '$')) c cs
            (by simp [isIdentCont, hident])
          exact ⟨keywordKind_ne_end _, hrun.1, hrun.2⟩
      · exact ⟨nofun, Nat.le_refl 1, Nat.le_add_left 1 _⟩

theorem lexHole_fits (allowHoles : Bool) (start : Nat) (cs : Str) :
    (lexHole allowHoles start cs).Fits (cs.length + 1) := by
  have hle := (List.takeWhile_prefix (fun c => isIdentCont c || c = '$') (l := cs)).length_le
  unfold lexHole
  split
  · exact ⟨nofun, by dsimp only; omega, by dsimp only; omega⟩
  · exact ⟨nofun, Nat.le_refl 1, Nat.le_add_left 1 _⟩

/-- The token at `c` is a string that is open at the end of the text and ends in a
backslash that escapes nothing. -/
def StartsOpenEscape (c : Char) (cs : Str) : Prop :=
  (c = '"' ∨ c = '\'') ∧
    (([c, c] <+: cs ∧ OpenEscape (tripleStops c) (cs.drop 2)) ∨
      (¬ [c, c] <+: cs ∧ OpenEscape (stringStops c) cs))

theorem lexDelimited_length (kind : TokenKind) (what : Str) (start opening : Nat)
    (body : Nat × Bool) :
    (lexDelimited kind what start opening body).length = opening + body.1 := by
  unfold lexDelimited
  split <;> rfl

/-- Both kinds of string stay inside the text unless they end in an open escape. -/
theorem lexQuoted_fits (hc : c = '"' ∨ c = '\'') (h : ¬ StartsOpenEscape c cs) :
    (if [c, c].isPrefixOf cs then lexTripleString start c (cs.drop 2)
      else lexString start c cs).Fits (cs.length + 1) := by
  split
  · next hpre =>
      have hpre := List.isPrefixOf_iff_prefix.mp hpre
      have hlen := hpre.length_le
      have hbody := (tripleStringBody_reach c (cs.drop 2)).2
        (fun hopen => h ⟨hc, Or.inl ⟨hpre, hopen⟩⟩)
      rw [List.length_drop] at hbody
      simp only [List.length_cons, List.length_nil] at hlen
      exact lexDelimited_fits (by decide) (by decide) (by omega)
  · next hpre =>
      have hpre : ¬ [c, c] <+: cs := fun hp => hpre (List.isPrefixOf_iff_prefix.mpr hp)
      have hbody := (stringBody_reach c cs).2 (fun hopen => h ⟨hc, Or.inr ⟨hpre, hopen⟩⟩)
      exact lexDelimited_fits (by decide) (by decide) (by omega)

theorem scanToken_fits (h : ¬ StartsOpenEscape c cs) :
    (scanToken allowHoles start c cs).Fits (cs.length + 1) := by
  unfold scanToken
  split
  case h_25 => exact lexQuoted_fits (Or.inl rfl) h
  case h_26 => exact lexQuoted_fits (Or.inr rfl) h
  case h_28 =>
      have := quasiBody_le cs
      exact lexDelimited_fits (by decide) (by decide) (by omega)
  case h_29 => exact lexHole_fits allowHoles start cs
  case h_30 => exact lexDefault_fits allowHoles start _ cs
  all_goals
    first
    | exact ⟨nofun, Nat.le_refl 1, Nat.le_add_left 1 _⟩
    | exact operator_fits (by decide) (by decide)

/-- An open escape takes the cursor one byte past the text. -/
theorem scanToken_open (h : StartsOpenEscape c cs) :
    (scanToken allowHoles start c cs).length = cs.length + 2 := by
  have hquoted : scanToken allowHoles start c cs =
      if [c, c].isPrefixOf cs then lexTripleString start c (cs.drop 2)
      else lexString start c cs := by
    rcases h.1 with rfl | rfl
    · rfl
    · rfl
  rw [hquoted]
  rcases h.2 with ⟨hpre, hopen⟩ | ⟨hpre, hopen⟩
  · have hlen := hpre.length_le
    have hbody := (tripleStringBody_reach c (cs.drop 2)).1 hopen
    rw [if_pos (List.isPrefixOf_iff_prefix.mpr hpre), lexTripleString, lexDelimited_length, hbody,
      List.length_drop]
    simp only [List.length_cons, List.length_nil] at hlen
    omega
  · have hbody := (stringBody_reach c cs).1 hopen
    rw [if_neg (fun hp => hpre (List.isPrefixOf_iff_prefix.mp hp)), lexString,
      lexDelimited_length, hbody]
    omega

theorem StartsOpenEscape.solid (h : StartsOpenEscape c cs) : Solid (c :: cs) := by
  constructor
  · intro n hblank
    cases hblank with
    | space _ _ hc =>
      rcases h.1 with rfl | rfl
      · exact absurd hc (by unfold isBlank; decide)
      · exact absurd hc (by unfold isBlank; decide)
    | line body after _ _ => exact absurd h.1 (by decide)
    | block body after _ => exact absurd h.1 (by decide)
  · intro hopen
    obtain ⟨body, hbody, -⟩ := hopen
    obtain ⟨rfl, -⟩ := List.cons.inj hbody
    exact absurd h.1 (by decide)

/-- The text from `pos` on comes, after white space, comments and tokens, to a
string that is open at its end and ends in a backslash that escapes nothing. -/
inductive EndsInEscape (allowHoles : Bool) : Nat → Str → Prop where
  | here {pos : Nat} {c : Char} {cs : Str} : StartsOpenEscape c cs →
      EndsInEscape allowHoles pos (c :: cs)
  | blank {pos n : Nat} {s : Str} : Blank s n → EndsInEscape allowHoles (pos + n) (s.drop n) →
      EndsInEscape allowHoles pos s
  | token {pos : Nat} {c : Char} {cs : Str} : Solid (c :: cs) →
      EndsInEscape allowHoles (pos + (scanToken allowHoles pos c cs).length)
        ((c :: cs).drop (scanToken allowHoles pos c cs).length) →
      EndsInEscape allowHoles pos (c :: cs)

/-- An open escape after a gap is one of the whole text. -/
theorem EndsInEscape.gap (hgap : Gap s n) {pos : Nat}
    (h : EndsInEscape allowHoles (pos + n) (s.drop n)) : EndsInEscape allowHoles pos s := by
  induction hgap generalizing pos with
  | none s => simpa using h
  | @more s m n hm _ ih =>
    refine EndsInEscape.blank hm (ih ?_)
    rw [List.drop_drop, Nat.add_assoc]
    exact h

/-! ## Token streams -/

/-- The end of a span. -/
def SourceSpan.stop (s : SourceSpan) : Nat := s.offset + s.length

/-- A byte between the tokens lies in white space or in a comment of the range, or
in a block comment without an end that was reported; none of these meets a token. -/
def Skipped (text : Str) (first last : Nat) (tokens : List Token) (diags : List Diagnostic)
    (p : Nat) : Prop :=
  ∃ a b, first ≤ a ∧ a ≤ p ∧ p < b ∧ b ≤ last ∧
    (∀ t ∈ tokens, t.span.stop ≤ a ∨ b ≤ t.span.offset) ∧
    (Blank ((text.take last).drop a) (b - a) ∨
      (b = last ∧ OpenComment ((text.take last).drop a) ∧ openCommentError a ∈ diags))

/-- What the tokens of the range from `first` to `last` have to do with the text. -/
structure Faithful (text : Str) (first last : Nat) (tokens : List Token)
    (diags : List Diagnostic) : Prop where
  /-- the last token is the only `End` -/
  ended : ∃ init e, tokens = init ++ [e] ∧ e.kind = .End ∧ ∀ t ∈ init, t.kind ≠ .End
  inside : ∀ t ∈ tokens, first ≤ t.span.offset ∧ t.span.stop ≤ last
  ordered : tokens.Pairwise
    (fun s t => s.span.offset < t.span.offset ∧ s.span.stop ≤ t.span.offset)
  slices : ∀ t ∈ tokens, t.text = (text.drop t.span.offset).take t.span.length
  covered : ∀ p, first ≤ p → p < last →
    (∃ t ∈ tokens, t.span.offset ≤ p ∧ p < t.span.stop) ∨ Skipped text first last tokens diags p

/-- The stream of a range that holds no token. -/
def endStream (last : Nat) : List Token := [⟨.End, ⟨last, 0⟩, []⟩]

theorem Faithful.end {text : Str} {last : Nat} (hle : first ≤ last)
    (hgap : Gap ((text.take last).drop first) n)
    (hrest : first + n = last ∨
      (OpenComment ((text.take last).drop (first + n)) ∧ openCommentError (first + n) ∈ diags)) :
    Faithful text first last (endStream last) diags where
  ended := ⟨[], ⟨.End, ⟨last, 0⟩, []⟩, rfl, rfl, fun _ h => absurd h (by simp)⟩
  inside := by
    intro t ht
    obtain rfl := List.mem_singleton.mp ht
    exact ⟨hle, Nat.le_refl last⟩
  ordered := List.pairwise_singleton _ _
  slices := by
    intro t ht
    obtain rfl := List.mem_singleton.mp ht
    rfl
  covered := by
    intro p hfirst hlast
    have hlen := hgap.le_length
    rw [List.length_drop, List.length_take] at hlen
    have hfree : ∀ a b, b ≤ last → ∀ t ∈ endStream last, t.span.stop ≤ a ∨ b ≤ t.span.offset := by
      intro a b hb t ht
      obtain rfl := List.mem_singleton.mp ht
      exact Or.inr hb
    right
    by_cases hp : p - first < n
    · obtain ⟨a, b, ha, hpb, hbn, hblank⟩ := hgap.covers (p - first) hp
      rw [List.drop_drop] at hblank
      refine ⟨first + a, first + b, by omega, by omega, by omega, by omega,
        hfree _ _ (by omega), Or.inl ?_⟩
      rw [Nat.add_sub_add_left]
      exact hblank
    · rcases hrest with hend | ⟨hopen, herror⟩
      · omega
      · exact ⟨first + n, last, by omega, by omega, hlast, Nat.le_refl last,
          hfree _ _ (Nat.le_refl last), Or.inr ⟨rfl, hopen, herror⟩⟩

/-- A gap and a token before a faithful stream. -/
theorem Faithful.cons {text : Str} {last : Nat} {token : Token} {diags' : List Diagnostic}
    (hgap : Gap ((text.take last).drop first) n) (hoffset : token.span.offset = first + n)
    (hkind : token.kind ≠ .End) (hlength : 1 ≤ token.span.length)
    (hslice : token.text = (text.drop token.span.offset).take token.span.length)
    (hsub : ∀ d ∈ diags, d ∈ diags') (hstop : token.span.stop ≤ last)
    (h : Faithful text token.span.stop last tokens diags) :
    Faithful text first last (token :: tokens) diags' where
  ended := by
    obtain ⟨init, e, rfl, he, hinit⟩ := h.ended
    refine ⟨token :: init, e, rfl, he, ?_⟩
    intro t ht
    rcases List.mem_cons.mp ht with rfl | ht
    · exact hkind
    · exact hinit t ht
  inside := by
    intro t ht
    rcases List.mem_cons.mp ht with rfl | ht
    · exact ⟨by omega, hstop⟩
    · have := h.inside t ht
      unfold SourceSpan.stop at this ⊢
      exact ⟨by omega, this.2⟩
  ordered := by
    refine List.Pairwise.cons ?_ h.ordered
    intro t ht
    have := (h.inside t ht).1
    unfold SourceSpan.stop at this ⊢
    exact ⟨by omega, this⟩
  slices := by
    intro t ht
    rcases List.mem_cons.mp ht with rfl | ht
    · exact hslice
    · exact h.slices t ht
  covered := by
    intro p hfirst hlast
    by_cases hp : p - first < n
    · -- in the gap before the token, which is before all later tokens
      right
      obtain ⟨a, b, ha, hpb, hbn, hblank⟩ := hgap.covers (p - first) hp
      rw [List.drop_drop] at hblank
      refine ⟨first + a, first + b, by omega, by omega, by omega, ?_, ?_, Or.inl ?_⟩
      · unfold SourceSpan.stop at hstop
        omega
      · intro t ht
        right
        rcases List.mem_cons.mp ht with rfl | ht
        · omega
        · have := (h.inside t ht).1
          unfold SourceSpan.stop at this
          omega
      · rw [Nat.add_sub_add_left]
        exact hblank
    · by_cases htoken : p < token.span.stop
      · exact Or.inl ⟨token, List.mem_cons_self, by omega, htoken⟩
      · rcases h.covered p (by omega) hlast with hin | hskip
        · obtain ⟨t, ht, hspan⟩ := hin
          exact Or.inl ⟨t, List.mem_cons_of_mem token ht, hspan⟩
        · obtain ⟨a, b, ha, hap, hpb, hbl, hfree, hpiece⟩ := hskip
          right
          refine ⟨a, b, ?_, hap, hpb, hbl, ?_, ?_⟩
          · unfold SourceSpan.stop at ha
            omega
          · intro t ht
            rcases List.mem_cons.mp ht with rfl | ht
            · exact Or.inl ha
            · exact hfree t ht
          · rcases hpiece with hblank | ⟨hb, hopen, herror⟩
            · exact Or.inl hblank
            · exact Or.inr ⟨hb, hopen, hsub _ herror⟩

/-! ## The loop -/

namespace Lexer

variable {L : Lexer} {fuel pos p : Nat} {rest : Str} {skipped : List Diagnostic}

theorem rest_drop (L : Lexer) (pos n : Nat) : (L.rest pos).drop n = L.rest (pos + n) := by
  unfold rest
  rw [List.drop_drop]

theorem length_rest (hstop : L.stop ≤ L.text.length) (pos : Nat) :
    (L.rest pos).length = L.stop - pos := by
  unfold rest
  rw [List.length_drop, List.length_take, Nat.min_eq_left hstop]

/-- The token of one round. -/
def tokenAt (L : Lexer) (pos : Nat) (c : Char) (cs : Str) : Token :=
  let scan := scanToken L.allowHoles pos c cs
  ⟨scan.kind, ⟨pos, scan.length⟩, (L.text.drop pos).take scan.length⟩

theorem tokenizeFrom_end (hskip : skipTrivia .blanks pos rest = (p, [], skipped))
    (hp : p ≤ L.text.length) :
    L.tokenizeFrom fuel pos rest = .ok (endStream p, skipped) := by
  have hmake : L.make .End p p = .ok ⟨.End, ⟨p, 0⟩, []⟩ := by
    unfold make
    rw [if_neg (by omega), Nat.sub_self]
    rfl
  unfold tokenizeFrom
  rw [hskip]
  dsimp only
  rw [hmake]
  rfl

theorem tokenizeFrom_token (hskip : skipTrivia .blanks pos rest = (p, c :: cs, skipped))
    (hp : p ≤ L.text.length) :
    L.tokenizeFrom (fuel + 1) pos rest =
      (L.tokenizeFrom fuel (p + (scanToken L.allowHoles p c cs).length)
        ((c :: cs).drop (scanToken L.allowHoles p c cs).length)).bind fun r =>
          .ok (L.tokenAt p c cs :: r.1,
            skipped ++ (scanToken L.allowHoles p c cs).diags ++ r.2) := by
  have hmake : L.make (scanToken L.allowHoles p c cs).kind p
      (p + (scanToken L.allowHoles p c cs).length) = .ok (L.tokenAt p c cs) := by
    unfold make
    rw [if_neg (by omega), Nat.add_sub_cancel_left]
    rfl
  rw [tokenizeFrom, hskip]
  dsimp only
  rw [hmake]
  rfl

/-- White space and comments before the first token change nothing. -/
theorem tokenizeFrom_blank (h : Blank rest n) :
    L.tokenizeFrom fuel pos rest = L.tokenizeFrom fuel (pos + n) (rest.drop n) := by
  cases fuel with
  | zero => rw [tokenizeFrom, tokenizeFrom, skipTrivia_blank h]
  | succ fuel => rw [tokenizeFrom, tokenizeFrom, skipTrivia_blank h]

/-- Without an open escape at its end the range is lexed to a faithful stream whose
last token stands at the end of the range. -/
theorem tokenizeFrom_faithful (hstop : L.stop ≤ L.text.length) (hrest : rest = L.rest pos)
    (hpos : pos ≤ L.stop) (hfuel : rest.length ≤ fuel)
    (h : ¬ EndsInEscape L.allowHoles pos rest) :
    ∃ tokens diags, L.tokenizeFrom fuel pos rest = .ok (tokens, diags) ∧
      Faithful L.text pos L.stop tokens diags ∧ ∃ t ∈ tokens, L.stop ≤ t.span.stop := by
  induction fuel generalizing pos rest with
  | zero =>
    have hnil : rest = [] := List.eq_nil_of_length_eq_zero (Nat.le_zero.mp hfuel)
    have hlen := L.length_rest hstop pos
    rw [← hrest, hnil, List.length_nil] at hlen
    have hskip : skipTrivia .blanks pos rest = (L.stop, [], []) := by
      rw [hnil, show L.stop = pos by omega]
      rfl
    refine ⟨_, _, tokenizeFrom_end hskip hstop, ?_, _, List.mem_singleton_self _, Nat.le_refl _⟩
    exact Faithful.end hpos (Gap.none _) (Or.inl (by omega))
  | succ fuel ih =>
    have hlen := L.length_rest hstop pos
    rw [← hrest] at hlen
    obtain ⟨n, hgap, hn⟩ := skipTrivia_spec rest pos
    have hgaplen := hgap.le_length
    have hgap' : Gap ((L.text.take L.stop).drop pos) n := by
      rw [hrest] at hgap
      exact hgap
    rcases hn with ⟨hsolid, hskip⟩ | ⟨hopen, hskip⟩
    · cases hdrop : rest.drop n with
      | nil =>
        have hall : rest.length ≤ n := List.drop_eq_nil_iff.mp hdrop
        rw [hdrop, show pos + n = L.stop by omega] at hskip
        refine ⟨_, _, tokenizeFrom_end hskip hstop, ?_, _, List.mem_singleton_self _,
          Nat.le_refl _⟩
        exact Faithful.end hpos hgap' (Or.inl (by omega))
      | cons c cs =>
        have hcs : cs.length + 1 = rest.length - n := by
          rw [← List.length_cons, ← hdrop, List.length_drop]
        rw [hdrop] at hskip hsolid
        have hclosed : ¬ StartsOpenEscape c cs := by
          intro hopen
          apply h
          apply EndsInEscape.gap hgap
          rw [hdrop]
          exact EndsInEscape.here hopen
        have hfits : (scanToken L.allowHoles (pos + n) c cs).Fits (cs.length + 1) :=
          scanToken_fits hclosed
        obtain ⟨hkind, hone, hroom⟩ := hfits
        have hnext : (c :: cs).drop (scanToken L.allowHoles (pos + n) c cs).length =
            L.rest (pos + n + (scanToken L.allowHoles (pos + n) c cs).length) := by
          rw [← hdrop, hrest, rest_drop, rest_drop]
        have hlater : ¬ EndsInEscape L.allowHoles
            (pos + n + (scanToken L.allowHoles (pos + n) c cs).length)
            ((c :: cs).drop (scanToken L.allowHoles (pos + n) c cs).length) := by
          intro hlater
          apply h
          apply EndsInEscape.gap hgap
          rw [hdrop]
          exact EndsInEscape.token hsolid hlater
        obtain ⟨tokens, diags, hrun, hfaithful, t, ht, hlast⟩ := ih hnext (by omega)
          (by rw [List.length_drop, List.length_cons]; omega) hlater
        refine ⟨L.tokenAt (pos + n) c cs :: tokens,
          [] ++ (scanToken L.allowHoles (pos + n) c cs).diags ++ diags, ?_, ?_, t,
          List.mem_cons_of_mem _ ht, hlast⟩
        · rw [tokenizeFrom_token hskip (by omega), hrun]
          rfl
        · refine Faithful.cons hgap' rfl hkind hone rfl ?_ ?_ hfaithful
          · intro d hd
            exact List.mem_append_right _ hd
          · show pos + n + (scanToken L.allowHoles (pos + n) c cs).length ≤ L.stop
            omega
    · rw [show pos + rest.length = L.stop by omega] at hskip
      refine ⟨_, _, tokenizeFrom_end hskip hstop, ?_, _, List.mem_singleton_self _,
        Nat.le_refl _⟩
      refine Faithful.end hpos hgap' (Or.inr ⟨?_, List.mem_singleton_self _⟩)
      rw [hrest, rest_drop] at hopen
      exact hopen

/-- A round on an open escape makes a token that passes the end of the range. -/
theorem tokenizeFrom_here (hstop : L.stop ≤ L.text.length) (hrest : c :: cs = L.rest pos)
    (hopen : StartsOpenEscape c cs)
    (hrun : L.tokenizeFrom (fuel + 1) pos (c :: cs) = .ok (tokens, diags)) :
    ∃ t ∈ tokens, L.stop < t.span.stop := by
  have hlen := L.length_rest hstop pos
  rw [← hrest, List.length_cons] at hlen
  rw [tokenizeFrom_token (skipTrivia_solid hopen.solid pos) (by omega)] at hrun
  obtain ⟨later, -, hrun⟩ := bind_eq_ok.mp hrun
  obtain ⟨rfl, -⟩ := Prod.mk.inj (Except.ok.inj hrun)
  refine ⟨_, List.mem_cons_self, ?_⟩
  show L.stop < pos + (scanToken L.allowHoles pos c cs).length
  rw [scanToken_open hopen]
  omega

/-- With an open escape at the end, no token stream stays in the range. -/
theorem tokenizeFrom_escapes (hstop : L.stop ≤ L.text.length) (hrest : rest = L.rest pos)
    (hfuel : rest.length ≤ fuel) (h : EndsInEscape L.allowHoles pos rest)
    (hrun : L.tokenizeFrom fuel pos rest = .ok (tokens, diags)) :
    ∃ t ∈ tokens, L.stop < t.span.stop := by
  induction h generalizing fuel tokens diags with
  | @here pos c cs hopen =>
    obtain ⟨fuel, rfl⟩ : ∃ k, fuel = k + 1 := ⟨fuel - 1, by simp at hfuel; omega⟩
    exact tokenizeFrom_here hstop hrest hopen hrun
  | @blank pos n s hblank _ ih =>
    rw [tokenizeFrom_blank hblank] at hrun
    have hbounds := hblank.bounds
    refine ih ?_ ?_ hrun
    · rw [hrest, rest_drop]
    · rw [List.length_drop]
      omega
  | @token pos c cs hsolid _ ih =>
    obtain ⟨fuel, rfl⟩ : ∃ k, fuel = k + 1 := ⟨fuel - 1, by simp at hfuel; omega⟩
    by_cases hopen : StartsOpenEscape c cs
    · exact tokenizeFrom_here hstop hrest hopen hrun
    · have hlen := L.length_rest hstop pos
      rw [← hrest, List.length_cons] at hlen
      have hfits : (scanToken L.allowHoles pos c cs).Fits (cs.length + 1) :=
        scanToken_fits hopen
      rw [tokenizeFrom_token (skipTrivia_solid hsolid pos) (by omega)] at hrun
      obtain ⟨later, hlater, hrun⟩ := bind_eq_ok.mp hrun
      obtain ⟨rfl, -⟩ := Prod.mk.inj (Except.ok.inj hrun)
      have hnext : (c :: cs).drop (scanToken L.allowHoles pos c cs).length =
          L.rest (pos + (scanToken L.allowHoles pos c cs).length) := by
        rw [hrest, rest_drop]
      have hone := hfits.pos
      obtain ⟨t, ht, hpast⟩ := ih hnext
        (by rw [List.length_drop]; simp only [List.length_cons] at hfuel ⊢; omega) hlater
      exact ⟨t, List.mem_cons_of_mem _ ht, hpast⟩

end Lexer

/-- The lexer returns tokens and errors, and they are faithful to the range. -/
def LexesFaithfully (result : Except Thrown (List Token × List Diagnostic)) (text : Str)
    (first last : Nat) : Prop :=
  ∃ tokens diags, result = .ok (tokens, diags) ∧ Faithful text first last tokens diags

theorem Lexer.tokenizeAt_faithful_iff {L : Lexer} (first : Nat)
    (hstop : L.stop ≤ L.text.length) (hfirst : first ≤ L.stop) :
    LexesFaithfully (L.tokenizeAt first) L.text first L.stop ↔
      ¬ EndsInEscape L.allowHoles first ((L.text.take L.stop).drop first) := by
  constructor
  · intro h hescape
    obtain ⟨tokens, diags, hrun, hfaithful⟩ := h
    obtain ⟨t, ht, hpast⟩ := tokenizeFrom_escapes hstop rfl (Nat.le_refl _) hescape hrun
    have := (hfaithful.inside t ht).2
    omega
  · intro h
    obtain ⟨tokens, diags, hrun, hfaithful, -⟩ :=
      tokenizeFrom_faithful hstop rfl hfirst (Nat.le_refl _) h
    exact ⟨tokens, diags, hrun, hfaithful⟩

/-- Whatever is returned has a token that reaches the end of the range. -/
theorem Lexer.tokenizeAt_reaches {L : Lexer} (hstop : L.stop ≤ L.text.length)
    (hfirst : first ≤ L.stop) (hrun : L.tokenizeAt first = .ok (tokens, diags)) :
    ∃ t ∈ tokens, L.stop ≤ t.span.stop := by
  by_cases hescape : EndsInEscape L.allowHoles first (L.rest first)
  · obtain ⟨t, ht, hpast⟩ := tokenizeFrom_escapes hstop rfl (Nat.le_refl _) hescape hrun
    exact ⟨t, ht, by omega⟩
  · obtain ⟨tokens', diags', hrun', -, t, ht, hlast⟩ :=
      tokenizeFrom_faithful hstop rfl hfirst (Nat.le_refl _) hescape
    obtain ⟨rfl, -⟩ := Prod.mk.inj (Except.ok.inj (hrun.symm.trans hrun'))
    exact ⟨t, ht, hlast⟩

/-- The lexer is total and faithful to a file, and to every range of it, exactly when
no string is open at the end with a backslash that escapes nothing, and the range is
not the empty one at the front of a file that is not empty. -/
theorem lexer_faithful_iff (text : Str) (allowHoles : Bool) (hsize : text.length < 2 ^ 32) :
    (LexesFaithfully (Lexer.mk text allowHoles 0).tokenize text 0 text.length ↔
      ¬ EndsInEscape allowHoles 0 text) ∧
    ∀ first last, first ≤ last → last ≤ text.length →
      (LexesFaithfully ((Lexer.mk text allowHoles 0).tokenizeRange first last) text first last ↔
        (last = 0 → text = []) ∧
          ¬ EndsInEscape allowHoles first ((text.take last).drop first)) := by
  have hwhole : (Lexer.mk text allowHoles 0).stop = text.length := Nat.mod_eq_of_lt hsize
  have hfile : LexesFaithfully ((Lexer.mk text allowHoles 0).tokenizeAt 0) text 0 text.length ↔
      ¬ EndsInEscape allowHoles 0 text := by
    have h := Lexer.tokenizeAt_faithful_iff (L := Lexer.mk text allowHoles 0) 0
      hwhole.le (Nat.zero_le _)
    rw [hwhole] at h
    simpa only [List.take_length, List.drop_zero] using h
  refine ⟨hfile, ?_⟩
  intro first last hfirst hlast
  by_cases hzero : last = 0
  · -- the end of the range is taken for the end of the file
    subst hzero
    obtain rfl := Nat.le_zero.mp hfirst
    constructor
    · intro h
      obtain ⟨tokens, diags, hrun, hfaithful⟩ := h
      obtain ⟨t, ht, hreach⟩ := Lexer.tokenizeAt_reaches (L := Lexer.mk text allowHoles 0)
        hwhole.le (Nat.zero_le _) hrun
      have hin := (hfaithful.inside t ht).2
      have hempty : text = [] := List.eq_nil_of_length_eq_zero (by omega)
      subst hempty
      exact ⟨fun _ => rfl, hfile.mp ⟨tokens, diags, hrun, hfaithful⟩⟩
    · intro h
      obtain ⟨hempty, hescape⟩ := h
      obtain rfl := hempty rfl
      exact hfile.mpr hescape
  · have hstop : (Lexer.mk text allowHoles last).stop = last := if_neg hzero
    have h := Lexer.tokenizeAt_faithful_iff (L := Lexer.mk text allowHoles last) first
      (hstop.le.trans hlast) (hfirst.trans hstop.ge)
    rw [hstop] at h
    constructor
    · intro hfaithful
      exact ⟨fun h0 => absurd h0 hzero, h.mp hfaithful⟩
    · intro hcond
      exact h.mpr hcond.2

/-- The file `a` is lexed faithfully. -/
theorem lexer_faithful_word :
    LexesFaithfully (Lexer.mk ['a'] false 0).tokenize ['a'] 0 1 := by
  refine (lexer_faithful_iff ['a'] false (by decide)).1.mpr ?_
  intro h
  have hsolid : ∀ n, ¬ Blank ['a'] n := by
    intro n hblank
    cases hblank with
    | space _ _ hc => exact absurd hc (by unfold isBlank; decide)
  cases h with
  | here hopen => exact absurd hopen.1 (by decide)
  | blank hblank _ => exact hsolid _ hblank
  | token _ hrest =>
    cases hrest with
    | blank hblank _ => nomatch hblank

/-- A quote and a backslash: the lexer throws. -/
theorem lexer_throws_on_open_escape :
    (Lexer.mk ['"', '\\'] false 0).tokenize = .error .out_of_range ∧
      ¬ LexesFaithfully (Lexer.mk ['"', '\\'] false 0).tokenize ['"', '\\'] 0 2 := by
  have hthrow : (Lexer.mk ['"', '\\'] false 0).tokenize = .error .out_of_range := by
    rfl
  refine ⟨hthrow, ?_⟩
  intro h
  obtain ⟨tokens, diags, hrun, -⟩ := h
  rw [hthrow] at hrun
  cases hrun

end Leviathan.Frontend
