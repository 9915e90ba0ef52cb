import Leviathan.Frontend.Chunks

/-!
# Text cut short

The lexer keeps the size of a file in 32 bits, so of a longer file it sees a front
part only.  What it makes of written text that is cut anywhere is
`tokenizeFrom_cut`: an error, or the tokens of the chunks before the cut and after
them tokens that are no braces.
-/

namespace Leviathan.Frontend

open List

open Text (quote)

/-- The kinds of the two braces. -/
def TokenKind.isBrace (k : TokenKind) : Bool := k = .LBrace || k = .RBrace

variable {cs : Str}

private theorem operator_isBrace {longer : List (Char × TokenKind)} {single : TokenKind}
    (hl : ∀ p ∈ longer, p.2.isBrace = false) (hs : single.isBrace = false) :
    (operator cs longer single).kind.isBrace = false := by
  unfold operator
  cases cs with
  | nil => exact hs
  | cons d cs =>
    cases h : longer.lookup d with
    | none =>
      simp only [h]
      exact hs
    | some kind =>
      simp only [h]
      obtain ⟨l₁, l₂, hlonger, -⟩ := List.lookup_eq_some_iff.mp h
      exact hl (d, kind) (by simp [hlonger])

variable {start : Nat}

private theorem lexDelimited_isBrace {kind : TokenKind} {what : Str} {opening : Nat}
    {body : Nat × Bool} (hk : kind.isBrace = false) :
    (lexDelimited kind what start opening body).kind.isBrace = false := by
  unfold lexDelimited
  split
  · exact hk
  · rfl

private theorem keywordKind_isBrace (word : Str) : (keywordKind word).isBrace = false := by
  unfold keywordKind
  cases h : keywordTable.lookup word with
  | none => rfl
  | some kind =>
    obtain ⟨l₁, l₂, htable, -⟩ := List.lookup_eq_some_iff.mp h
    have hall : keywordTable.all (fun p => !p.2.isBrace) = true := by decide
    have := List.all_eq_true.mp hall (word, kind) (by rw [htable]; simp)
    simpa using this

private theorem lexDecimal_isBrace (start : Nat) (rest : Str) :
    (lexDecimal start rest).kind.isBrace = false := by
  unfold lexDecimal
  dsimp only
  split <;> rfl

private theorem lexDefault_isBrace {allowHoles : Bool} {c : Char} :
    (lexDefault allowHoles start c cs).kind.isBrace = false := by
  unfold lexDefault
  split
  · unfold lexNumber
    split
    · split
      · rfl
      · split
        · rfl
        · exact lexDecimal_isBrace _ _
    · exact lexDecimal_isBrace _ _
  · split
    · exact lexDelimited_isBrace rfl
    · split
      · exact keywordKind_isBrace _
      · rfl

/-- Only a brace is a brace. -/
theorem scanToken_isBrace {allowHoles : Bool} {c : Char} (hl : c ≠ '{') (hr : c ≠ '}') :
    (scanToken allowHoles start c cs).kind.isBrace = false := by
  unfold scanToken
  split
  case h_3 => exact absurd rfl hl
  case h_4 => exact absurd rfl hr
  case h_25 => split <;> exact lexDelimited_isBrace rfl
  case h_26 => split <;> exact lexDelimited_isBrace rfl
  case h_28 => exact lexDelimited_isBrace rfl
  case h_29 =>
      unfold lexHole
      split <;> rfl
  case h_30 => exact lexDefault_isBrace
  all_goals first | rfl | exact operator_isBrace (by decide) (by decide)

/-- Skipping white space and comments leaves a rear part of the text. -/
theorem skipTrivia_suffix (mode : Trivia) (pos : Nat) (rest : Str) :
    (skipTrivia mode pos rest).2.1 <:+ rest := by
  fun_induction skipTrivia mode pos rest with
  | case1 | case2 | case3 => exact suffix_rfl
  | case4 pos cs ih => exact ih.trans ((suffix_cons _ _).trans (suffix_cons _ _))
  | case5 pos cs ih => exact ih.trans ((suffix_cons _ _).trans (suffix_cons _ _))
  | case6 pos c cs _ _ _ ih => exact ih.trans (suffix_cons _ _)
  | case7 pos c cs => exact suffix_rfl
  | case8 pos c ih => exact ih.trans (suffix_cons _ _)
  | case9 pos c cs _ ih => exact ih.trans (suffix_cons _ _)
  | case10 start pos cs ih => exact ih.trans ((suffix_cons _ _).trans (suffix_cons _ _))
  | case11 start pos c cs _ ih => exact ih.trans (suffix_cons _ _)

variable {L : Lexer} {fuel pos : Nat} {tokens : List Token} {diags : List Diagnostic}

/-- Text without braces has no brace tokens. -/
theorem tokenizeFrom_isBrace {rest : Str} (hl : '{' ∉ rest) (hr : '}' ∉ rest)
    (h : L.tokenizeFrom fuel pos rest = .ok (tokens, diags)) :
    ∀ t ∈ tokens, t.kind.isBrace = false := by
  have hmake : ∀ {kind start pos token}, L.make kind start pos = .ok token → token.kind = kind := by
    intro kind start pos token h
    unfold Lexer.make at h
    split at h
    · cases h
    · cases h
      rfl
  have hsuffix := skipTrivia_suffix .blanks pos rest
  induction fuel generalizing pos rest tokens diags with
  | zero =>
    unfold Lexer.tokenizeFrom at h
    split at h
    · obtain ⟨last, hlast, h⟩ := bind_eq_ok.mp h
      cases h
      simp [hmake hlast, TokenKind.isBrace]
    · cases h
      simp
  | succ fuel ih =>
    unfold Lexer.tokenizeFrom at h
    split at h
    · obtain ⟨last, hlast, h⟩ := bind_eq_ok.mp h
      cases h
      simp [hmake hlast, TokenKind.isBrace]
    · next p c cs skipped hskip =>
        rw [hskip] at hsuffix
        have hsub : ∀ {d}, d ∉ rest → d ∉ c :: cs := fun hd hmem => hd (hsuffix.subset hmem)
        obtain ⟨token, htoken, h⟩ := bind_eq_ok.mp h
        obtain ⟨⟨tokens', diags'⟩, hrest, h⟩ := bind_eq_ok.mp h
        cases h
        have hdrop : ∀ {d}, d ∉ rest →
            d ∉ (c :: cs).drop (scanToken L.allowHoles p c cs).length :=
          fun hd hmem => hsub hd (mem_of_mem_drop hmem)
        intro t ht
        rcases List.mem_cons.mp ht with rfl | ht
        · rw [hmake htoken]
          exact scanToken_isBrace (fun h => hsub hl (by simp [h])) (fun h => hsub hr (by simp [h]))
        · exact ih (hdrop hl) (hdrop hr) hrest (skipTrivia_suffix _ _ _) t ht

/-- The body of a string that is cut before its closing quote is not closed. -/
theorem stringBody_cut {s p : Str} (hp : p <+: escape s) : (stringBody '"' p).2 = false := by
  induction s generalizing p with
  | nil =>
    rw [List.prefix_nil.mp hp]
    rfl
  | cons c s ih =>
    rw [escape_cons] at hp
    by_cases hc : c = '"' ∨ c = '\\'
    · rw [if_pos hc] at hp
      rcases p with _ | ⟨d, _ | ⟨d', p⟩⟩
      · rfl
      · obtain rfl := (List.cons_prefix_cons.mp hp).1
        rfl
      · obtain ⟨rfl, htail⟩ := List.cons_prefix_cons.mp hp
        obtain ⟨-, hp'⟩ := List.cons_prefix_cons.mp htail
        rw [stringBody_backslash]
        exact ih hp'
    · rw [if_neg hc] at hp
      rw [not_or] at hc
      rcases p with _ | ⟨d, p⟩
      · rfl
      · obtain ⟨rfl, hp'⟩ := List.cons_prefix_cons.mp hp
        by_cases hn : d = '\n'
        · rw [hn, stringBody_newline]
        · rw [stringBody_cons hc.1 hc.2 hn]
          exact ih hp'

/-- What may follow a token may also be cut short. -/
theorem Lexeme.Ends.cut {l : Lexeme} {after cut : Str} (h : l.Ends after) (hcut : cut <+: after) :
    l.Ends cut := by
  have hhead : ∀ c, cut.head? = some c → after.head? = some c := by
    intro c hc
    obtain ⟨tail, rfl⟩ := hcut
    cases cut with
    | nil => cases hc
    | cons d cut => exact hc
  cases l with
  | symbol c kind => exact ⟨fun hc => h.1 (hhead _ hc), fun hc => h.2 (hhead _ hc)⟩
  | word w => exact fun c hc => h c (hhead c hc)
  | numeral n => exact fun c hc => h c (hhead c hc)
  | string s => exact fun c hc => h c (hhead c hc)

variable {t : Str}

/-- A front part of two texts one after the other. -/
private theorem prefix_append_cases {a b : Str} (h : t <+: a ++ b) :
    t <+: a ∨ ∃ t', t = a ++ t' ∧ t' <+: b := by
  rcases prefix_or_prefix_of_prefix h (prefix_append a b) with h' | ⟨t', rfl⟩
  · exact .inl h'
  · exact .inr ⟨t', rfl, (prefix_append_right_inj a).mp h⟩

/-- No token but the two braces has a brace in it, strings apart. -/
private theorem brace_not_mem_text {l : Lexeme} (hl : l.Plain) (hstring : ∀ s, l ≠ .string s)
    (hsymbol : ∀ c kind, l ≠ .symbol c kind) : '{' ∉ l.text ∧ '}' ∉ l.text := by
  cases l with
  | word w =>
    have hall := List.all_eq_true.mp hl.2.1
    exact ⟨fun h => absurd (hall _ h) (by decide), fun h => absurd (hall _ h) (by decide)⟩
  | symbol c kind => exact absurd rfl (hsymbol c kind)
  | numeral n =>
    exact ⟨fun h => absurd (isDigit_of_mem_toDigits h) (by decide),
      fun h => absurd (isDigit_of_mem_toDigits h) (by decide)⟩
  | string s => exact absurd rfl (hstring s)

/-- A string that is cut before its closing quote is reported. -/
private theorem tokenizeFrom_cut_string {blanks s p : Str}
    (hb : (Chunk.mk blanks (.string s)).Blank) (hp : p <+: escape s)
    (h : L.tokenizeFrom (fuel + 1) pos (blanks ++ '"' :: p) = .ok (tokens, diags)) :
    diags ≠ [] := by
  have htriple : ['"', '"'].isPrefixOf p = false := by
    by_contra hfirst
    have hfront : ['"', '"'] <+: escape s :=
      (List.isPrefixOf_iff_prefix.mp (by simpa using hfirst)).trans hp
    have hs : s ≠ [] := by
      rintro rfl
      exact absurd (List.prefix_nil.mp hfront) (by simp)
    have := not_opens_triple hs []
    rw [List.append_nil, List.isPrefixOf_iff_prefix.mpr hfront] at this
    cases this
  have hscan : (scanToken L.allowHoles (pos + blanks.length) '"' p).diags ≠ [] := by
    unfold scanToken lexString lexDelimited
    simp only [htriple, stringBody_cut hp]
    simp
  rw [Lexer.tokenizeFrom, skipTrivia_blanks hb (by decide) pos] at h
  obtain ⟨token, -, h⟩ := bind_eq_ok.mp h
  obtain ⟨⟨tokens', diags'⟩, -, h⟩ := bind_eq_ok.mp h
  cases h
  simp [hscan]

/-- A chunk that is cut is reported or has no braces in it. -/
private theorem tokenizeFrom_cut_chunk {k : Chunk} (hb : k.Blank) (hw : k.lexeme.Written)
    (ht : t <+: k.text) (hlt : t.length < k.text.length) (hfuel : t.length ≤ fuel)
    (h : L.tokenizeFrom fuel pos t = .ok (tokens, diags)) :
    diags ≠ [] ∨ ∀ token ∈ tokens, token.kind.isBrace = false := by
  obtain ⟨blanks, l⟩ := k
  have hblank : ∀ c ∈ blanks, c ≠ '{' ∧ c ≠ '}' := by
    intro c hc
    have := List.all_eq_true.mp hb c hc
    constructor <;> rintro rfl <;> exact absurd this (by decide)
  have hnone : '{' ∉ t → '}' ∉ t → diags ≠ [] ∨ ∀ token ∈ tokens, token.kind.isBrace = false :=
    fun hl hr => .inr (tokenizeFrom_isBrace hl hr h)
  rcases prefix_append_cases ht with hin | ⟨p, rfl, hpre⟩
  · exact hnone (fun hm => (hblank _ (hin.subset hm)).1 rfl) (fun hm => (hblank _ (hin.subset hm)).2 rfl)
  · have hplen : p.length < l.text.length := by
      simpa [Chunk.text] using hlt
    cases l with
    | string s =>
      rcases p with _ | ⟨c, p⟩
      · refine hnone ?_ ?_ <;> rw [append_nil] <;> intro hm
        · exact (hblank _ hm).1 rfl
        · exact (hblank _ hm).2 rfl
      · have hquote : c :: p <+: '"' :: (escape s ++ ['"']) := hpre
        obtain ⟨rfl, hbody⟩ := List.cons_prefix_cons.mp hquote
        have hcut : p <+: escape s := by
          rcases List.prefix_concat_iff.mp hbody with rfl | hcut
          · simp [Lexeme.text, quote_eq] at hplen
          · exact hcut
        obtain ⟨fuel, rfl⟩ : ∃ f, fuel = f + 1 := ⟨fuel - 1, by simp at hfuel; omega⟩
        exact .inl (tokenizeFrom_cut_string hb hcut h)
    | symbol c kind =>
      have : p = [] := by
        simpa [Lexeme.text] using hplen
      subst this
      refine hnone ?_ ?_ <;> rw [append_nil] <;> intro hm
      · exact (hblank _ hm).1 rfl
      · exact (hblank _ hm).2 rfl
    | word w =>
      have hp : (Lexeme.word w).Plain := hw
      have htext := brace_not_mem_text hp (by simp) (by simp)
      refine hnone ?_ ?_ <;> intro hm <;> rcases List.mem_append.mp hm with hm | hm
      · exact (hblank _ hm).1 rfl
      · exact htext.1 (hpre.subset hm)
      · exact (hblank _ hm).2 rfl
      · exact htext.2 (hpre.subset hm)
    | numeral n =>
      have hp : (Lexeme.numeral n).Plain := hw
      have htext := brace_not_mem_text hp (by simp) (by simp)
      refine hnone ?_ ?_ <;> intro hm <;> rcases List.mem_append.mp hm with hm | hm
      · exact (hblank _ hm).1 rfl
      · exact htext.1 (hpre.subset hm)
      · exact (hblank _ hm).2 rfl
      · exact htext.2 (hpre.subset hm)

/-- **Written text, cut.**  The lexer reports an error, or it finds the tokens of the
chunks before the cut and no brace after them. -/
theorem tokenizeFrom_cut {ks : List Chunk} {after : Str} (hL : L.allowHoles = false)
    (hs : Spaced ks after) (hw : ∀ k ∈ ks, k.lexeme.Written) (ht : t <+: render ks)
    (hlt : t.length < (render ks).length) (htext : t <+: L.text.drop pos) (hfuel : t.length ≤ fuel)
    (h : L.tokenizeFrom fuel pos t = .ok (tokens, diags)) :
    diags ≠ [] ∨ ∃ ks' ks'' cut, ks = ks' ++ ks'' ∧ ks'' ≠ [] ∧ tokens = lexAt pos ks' ++ cut ∧
      ∀ token ∈ cut, token.kind.isBrace = false := by
  induction ks generalizing pos t fuel tokens diags with
  | nil => simp [render] at hlt
  | cons k ks ih =>
    obtain ⟨hb, he, hs⟩ := hs
    have hk_written := hw k mem_cons_self
    have hrender : render (k :: ks) = k.text ++ render ks := by simp [render]
    rw [hrender] at ht hlt
    by_cases hk : t.length < k.text.length
    · have htk : t <+: k.text := by
        rcases prefix_append_cases ht with hin | ⟨t', rfl, -⟩
        · exact hin
        · simp at hk
      rcases tokenizeFrom_cut_chunk hb hk_written htk hk hfuel h with hd | hcut
      · exact .inl hd
      · exact .inr ⟨[], k :: ks, tokens, rfl, by simp, rfl, hcut⟩
    · obtain ⟨t', rfl, ht'⟩ : ∃ t', t = k.text ++ t' ∧ t' <+: render ks := by
        rcases prefix_append_cases ht with hin | h'
        · have hlen : t.length = k.text.length := le_antisymm hin.length_le (not_lt.mp hk)
          exact ⟨[], by simp [hin.eq_of_length hlen], nil_prefix⟩
        · exact h'
      have hpos : 1 ≤ k.lexeme.text.length := hk_written.text_pos
      obtain ⟨fuel, rfl⟩ : ∃ f, fuel = f + 1 := by
        refine ⟨fuel - 1, ?_⟩
        simp [Chunk.text] at hfuel
        omega
      by_cases hnl : ∃ s, k.lexeme = .string s ∧ '\n' ∈ s
      · obtain ⟨blanks, l⟩ := k
        obtain ⟨s, rfl, hnl⟩ := hnl
        exact .inl (tokenizeFrom_newline hb hnl h)
      have hplain : k.lexeme.Plain := hk_written.plain (fun s hl hn => hnl ⟨s, hl, hn⟩)
      have htail : t' <+: L.text.drop (pos + k.text.length) := by
        rw [← drop_drop]
        simpa using htext.drop k.text.length
      rw [tokenizeFrom_chunk hL hb hplain (he.cut (ht'.trans (prefix_append _ _))) htext] at h
      cases hrest : L.tokenizeFrom fuel (pos + k.text.length) t' with
      | error e => rw [hrest] at h; cases h
      | ok r =>
        obtain ⟨tokens', diags'⟩ := r
        rw [hrest] at h
        cases h
        have hlt' : t'.length < (render ks).length := by simpa using hlt
        have hfuel' : t'.length ≤ fuel := by
          simp [Chunk.text] at hfuel
          omega
        rcases ih hs (fun k' hk' => hw k' (mem_cons_of_mem k hk')) ht' hlt' htail hfuel'
          hrest with hd | ⟨ks', ks'', cut, rfl, hne, rfl, hcut⟩
        · exact .inl hd
        · exact .inr ⟨k :: ks', ks'', cut, rfl, hne, rfl, hcut⟩

end Leviathan.Frontend
