import Leviathan.Frontend.ParserExpr

/-!
# The cursor and the lookahead

What the cursor shows of a list of tokens, and that no parenthesis is taken for the parameters of
a lambda where `=>` stands in type arguments only.
-/

namespace Leviathan.Frontend

/-! ### Texts without a lambda -/

/-- A balanced stretch of tokens: a search for the end of a bracket passes over it. -/
structure Closed (ts : List Token) : Prop where
  angles : ∀ depth rest, 1 ≤ depth → skipAngles depth (ts ++ rest) = skipAngles depth rest
  parens : ∀ depth rest, 1 ≤ depth → skipParens depth (ts ++ rest) = skipParens depth rest

theorem Closed.single {t : Token} (h : t.kind = .Identifier ∨ t.kind = .Comma) : Closed [t] := by
  refine ⟨fun depth rest hd => ?_, fun depth rest hd => ?_⟩
  · have hpos : ¬ depth ≤ 0 := by omega
    rcases h with h | h <;> simp [skipAngles, h, hpos]
  · have hpos : depth ≠ 0 := by omega
    rcases h with h | h <;> simp [skipParens, h, hpos]

theorem Closed.append {ts us : List Token} (hts : Closed ts) (hus : Closed us) :
    Closed (ts ++ us) := by
  refine ⟨fun depth rest hd => ?_, fun depth rest hd => ?_⟩
  · rw [List.append_assoc, hts.angles depth _ hd, hus.angles depth rest hd]
  · rw [List.append_assoc, hts.parens depth _ hd, hus.parens depth rest hd]

/-- Tokens in which `=>` stands only between `::<` and its `>`. -/
inductive Woven : List Token → Prop where
  | nil : Woven []
  | token {t : Token} {ts : List Token} : t.kind ≠ .Arrow → Woven ts → Woven (t :: ts)
  | types {colons lt gt : Token} {body ts : List Token} : colons.kind = .ColonColon →
      lt.kind = .Lt → gt.kind = .Gt → Closed body → Woven ts →
      Woven (colons :: lt :: (body ++ gt :: ts))

namespace Woven

variable {t : Token} {ts rest : List Token}

theorem head (h : Woven (t :: ts)) : t.kind ≠ .Arrow := by
  cases h with
  | token ht _ => exact ht
  | types hcolons _ _ _ _ =>
    rw [hcolons]
    decide

theorem tail (h : Woven (t :: ts)) (ht : t.kind ≠ .ColonColon) : Woven ts := by
  cases h with
  | token _ hts => exact hts
  | types hcolons _ _ _ _ => exact absurd hcolons ht

/-- The end of a parenthesis is not inside type arguments. -/
theorem skipParens (h : Woven ts) : ∀ depth, 1 ≤ depth → Woven (Frontend.skipParens depth ts) := by
  induction h with
  | nil =>
    intro depth _
    exact nil
  | @token _ us ht hts ih =>
    intro depth hd
    have hgo : ∀ next, Woven (if next = 0 then us else Frontend.skipParens next us) := by
      intro next
      split
      · exact hts
      · next hzero => exact ih next (Nat.pos_of_ne_zero hzero)
    exact hgo _
  | types hcolons hlt hgt hbody hts ih =>
    intro depth hd
    have hne : depth ≠ 0 := by omega
    rw [Frontend.skipParens, Frontend.skipParens, hbody.parens, Frontend.skipParens]
    · simpa [hcolons, hlt, hgt, hne] using ih depth hd
    · simpa [hcolons, hlt] using hd

theorem skipAngles (h : Woven ts) :
    ∀ depth, 1 ≤ depth → Woven (Frontend.skipAngles depth ts) := by
  induction h with
  | nil =>
    intro depth _
    exact nil
  | @token _ us ht hts ih =>
    intro depth hd
    have hgo : ∀ next : Int, Woven (if next ≤ 0 then us else Frontend.skipAngles next us) := by
      intro next
      split
      · exact hts
      · next hpos => exact ih next (by omega)
    exact hgo _
  | types hcolons hlt hgt hbody hts ih =>
    intro depth hd
    have hne : ¬ depth ≤ 0 := by omega
    have hnext : ¬ depth + 1 ≤ 0 := by omega
    rw [Frontend.skipAngles, Frontend.skipAngles, hbody.angles, Frontend.skipAngles]
    · simpa [hcolons, hlt, hgt, hne, hnext] using ih depth hd
    · simp only [hcolons, hlt, reduceCtorEq, if_false, if_true]
      omega

theorem skipPath (h : Woven ts) (hskip : skipPath ts = some rest) : Woven rest := by
  induction ts using Frontend.skipPath.induct with
  | case1 c t ts hc ht ih =>
    rw [Frontend.skipPath, if_pos hc, if_pos ht] at hskip
    refine ih ?_ hskip
    cases h with
    | token _ hts => exact hts.tail (by rw [ht]; decide)
    | types _ hlt _ _ _ =>
      rw [hlt] at ht
      exact absurd ht (by decide)
  | case2 c t ts hc ht =>
    rw [Frontend.skipPath, if_pos hc, if_neg ht] at hskip
    cases hskip
  | case3 c t ts hc =>
    rw [Frontend.skipPath, if_neg hc] at hskip
    cases hskip
    exact h
  | case4 c hc =>
    rw [Frontend.skipPath, if_pos hc] at hskip
    cases hskip
  | case5 c hc =>
    rw [Frontend.skipPath, if_neg hc] at hskip
    cases hskip
    exact h
  | case6 =>
    cases hskip
    exact h

theorem skipGenerics (h : Woven ts) :
    Woven (if startsWith [.Lt] ts then Frontend.skipAngles 0 ts else ts) := by
  split
  · next hlt =>
    cases ts with
    | nil => exact nil
    | cons t ts =>
      have ht : t.kind = .Lt := by simpa [startsWith] using hlt
      rw [Frontend.skipAngles]
      simp only [ht, if_true]
      exact (h.tail (by rw [ht]; decide)).skipAngles 1 (by decide)
  · exact h

theorem skipNullable (h : Woven ts) :
    Woven (if startsWith [.Question] ts then ts.drop 1 else ts) := by
  split
  · next hq =>
    cases ts with
    | nil => exact nil
    | cons t ts =>
      have ht : t.kind = .Question := by simpa [startsWith] using hq
      exact h.tail (by rw [ht]; decide)
  · exact h

theorem skipTypeLA (n : Nat) (h : Woven ts) (hskip : skipTypeLA n ts = some rest) :
    Woven rest := by
  cases n with
  | zero => cases hskip
  | succ n =>
    cases ts with
    | nil => cases hskip
    | cons t ts =>
      rw [Frontend.skipTypeLA] at hskip
      by_cases hparen : t.kind = .LParen
      · -- an expression in parentheses is never followed by `=>`
        rw [if_pos hparen] at hskip
        have hpast : Woven (Frontend.skipParens 0 (t :: ts)) := by
          rw [Frontend.skipParens]
          simpa [hparen] using (h.tail (by rw [hparen]; decide)).skipParens 1 (by decide)
        cases hp : Frontend.skipParens 0 (t :: ts) with
        | nil =>
          rw [hp] at hskip
          cases hskip
        | cons arrow more =>
          rw [hp] at hskip hpast
          dsimp only at hskip
          rw [if_neg hpast.head] at hskip
          cases hskip
      · rw [if_neg hparen] at hskip
        by_cases hname : t.kind = .Identifier
        · rw [if_pos hname] at hskip
          cases hpath : Frontend.skipPath ts with
          | none =>
            rw [hpath] at hskip
            cases hskip
          | some path =>
            rw [hpath] at hskip
            have hwoven : Woven path := (h.tail (by rw [hname]; decide)).skipPath hpath
            rw [← Option.some.inj hskip]
            exact hwoven.skipGenerics.skipNullable
        · rw [if_neg hname] at hskip
          cases hskip

theorem skipName (hskip : (match ts with
    | t :: rest => if t.kind = .Identifier then some rest else none
    | [] => none) = some rest) (h : Woven ts) : Woven rest := by
  cases ts with
  | nil => cases hskip
  | cons t ts =>
    dsimp only at hskip
    by_cases ht : t.kind = .Identifier
    · rw [if_pos ht] at hskip
      cases hskip
      exact h.tail (by rw [ht]; decide)
    · rw [if_neg ht] at hskip
      cases hskip

theorem skipLambdaParam (h : Woven ts) (hskip : skipLambdaParam ts = some rest) :
    Woven rest := by
  unfold Frontend.skipLambdaParam at hskip
  dsimp only at hskip
  split at hskip
  · next t more hskip' =>
    by_cases ht : t.kind = .Identifier
    · rw [if_pos ht] at hskip
      cases hskip
      exact (h.skipTypeLA _ hskip').tail (by rw [ht]; decide)
    · rw [if_neg ht] at hskip
      exact skipName hskip h
  · exact skipName hskip h

theorem skipLambdaParams (n : Nat) : ∀ {ts rest : List Token}, Woven ts →
    skipLambdaParams n ts = some rest → Woven rest := by
  induction n with
  | zero =>
    intro ts rest _ hskip
    cases hskip
  | succ n ih =>
    intro ts rest h hskip
    rw [Frontend.skipLambdaParams] at hskip
    cases hparam : Frontend.skipLambdaParam ts with
    | none =>
      rw [hparam] at hskip
      cases hskip
    | some more =>
      have hmore : Woven more := h.skipLambdaParam hparam
      rw [hparam] at hskip
      cases more with
      | nil =>
        cases hskip
        exact nil
      | cons t more =>
        by_cases ht : t.kind = .Comma
        · exact ih (hmore.tail (by rw [ht]; decide)) (by simpa [ht] using hskip)
        · have hrest : t :: more = rest := by simpa [ht] using hskip
          rw [← hrest]
          exact hmore

theorem startsWith_arrow (h : Woven ts) : startsWith [.RParen, .Arrow] ts = false := by
  cases ts with
  | nil => rfl
  | cons t ts =>
    cases ts with
    | nil => simp [startsWith]
    | cons u ts =>
      by_cases ht : t.kind = .RParen
      · have hu : u.kind ≠ .Arrow := (h.tail (by rw [ht]; decide)).head
        simp [startsWith, hu]
      · simp [startsWith, ht]

end Woven

theorem looksLikeLambda_false {c : Cursor} (h : Woven c.rest) : looksLikeLambda c = false := by
  unfold looksLikeLambda
  cases hc : c.rest with
  | nil => rfl
  | cons l ts =>
    rw [hc] at h
    dsimp only
    by_cases hl : l.kind = .LParen
    · have hts : Woven ts := h.tail (by rw [hl]; decide)
      rw [if_neg (fun hne => hne hl)]
      split
      · exact hts.startsWith_arrow
      · cases hparams : skipLambdaParams (ts.length + 1) ts with
        | none => rfl
        | some rest => exact (hts.skipLambdaParams _ hparams).startsWith_arrow
    · rw [if_pos hl]

/-! ### The cursor -/

namespace Cursor

variable {t u : Token} {ts : List Token} {ds : List Diagnostic}

@[simp] theorem cur_cons : (⟨t :: ts, ds⟩ : Cursor).cur = t := rfl

@[simp] theorem kind_cons : (⟨t :: ts, ds⟩ : Cursor).kind = t.kind := rfl

@[simp] theorem peek_one : (⟨t :: u :: ts, ds⟩ : Cursor).peek 1 = u := rfl

@[simp] theorem advance_cons : (⟨t :: u :: ts, ds⟩ : Cursor).advance = ⟨u :: ts, ds⟩ := rfl

theorem advance_of_ne (h : ts ≠ []) : (⟨t :: ts, ds⟩ : Cursor).advance = ⟨ts, ds⟩ := by
  cases ts with
  | nil => exact absurd rfl h
  | cons u ts => rfl

theorem expect_of_kind {k : TokenKind} {what : String} (hk : t.kind = k) (h : ts ≠ []) :
    (⟨t :: ts, ds⟩ : Cursor).expect k what = ⟨ts, ds⟩ := by
  rw [expect, if_pos (by exact hk)]
  exact advance_of_ne h

end Cursor

end Leviathan.Frontend
