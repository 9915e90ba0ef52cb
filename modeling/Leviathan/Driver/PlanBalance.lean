import Leviathan.Driver.BuildPlan

/-!
# What every run of the plan reader does

Whatever the tokens are, the reader only adds to the sink, leaves `ok` alone until
the end, and takes the braces of a plan in pairs.  So an error of the lexer is
never lost, and a plan is only read to its end if the tokens taken off are
balanced (`block_balanced`).
-/

namespace Leviathan.Driver

open Frontend

/-- The braces a token opens. -/
def kindDepth : TokenKind → Int
  | .LBrace => 1
  | .RBrace => -1
  | _ => 0

/-- The braces a list of tokens opens and does not close. -/
def depth (kinds : List TokenKind) : Int := (kinds.map kindDepth).sum

@[simp] theorem depth_nil : depth [] = 0 := rfl

@[simp] theorem depth_cons (k : TokenKind) (ks : List TokenKind) :
    depth (k :: ks) = kindDepth k + depth ks := by simp [depth]

@[simp] theorem depth_append (ks ks' : List TokenKind) :
    depth (ks ++ ks') = depth ks + depth ks' := by simp [depth]

/-- A run of the reader from `r` to `r'` that opens `d` braces. -/
structure Moves (r : PlanReader) (d : Int) (r' : PlanReader) : Prop where
  sink : r.sink <+: r'.sink
  toks : ∃ taken, r.toks = taken ++ r'.toks ∧ depth (taken.map Token.kind) = d

namespace Moves

variable {r r' r'' : PlanReader} {d d' : Int}

theorem refl (r : PlanReader) : Moves r 0 r := ⟨List.prefix_rfl, [], rfl, rfl⟩

theorem trans (h : Moves r d r') (h' : Moves r' d' r'') : Moves r (d + d') r'' := by
  obtain ⟨taken, htaken, hd⟩ := h.toks
  obtain ⟨taken', htaken', hd'⟩ := h'.toks
  refine ⟨h.sink.trans h'.sink, taken ++ taken', ?_, ?_⟩
  · rw [htaken, htaken', List.append_assoc]
  · rw [List.map_append, depth_append, hd, hd']

theorem error (r : PlanReader) (message : Str) : Moves r 0 (r.error message) :=
  ⟨List.prefix_append _ _, [], rfl, rfl⟩

theorem advance (r : PlanReader) : Moves r (kindDepth r.cur.kind) r.advance := by
  unfold PlanReader.advance
  by_cases h : r.cur.kind = .End
  · rw [if_pos h, h]
    exact refl r
  · rw [if_neg h]
    refine ⟨List.prefix_rfl, [r.cur], ?_, by simp⟩
    cases htoks : r.toks with
    | nil => exact absurd (by rw [PlanReader.cur, htoks]; rfl) h
    | cons t ts => simp [PlanReader.cur, htoks]

end Moves

section Reader

variable {r r' : PlanReader}

theorem moves_expect {k : TokenKind} {what : Str} (h : r.expect k what = .ok r') :
    Moves r (kindDepth k) r' := by
  unfold PlanReader.expect at h
  split at h
  · next hk =>
      cases h
      have hk : r.cur.kind = k := of_decide_eq_true hk
      rw [← hk]
      exact Moves.advance r
  · cases h

theorem moves_expectIdent {text : Str} (h : r.expectIdent text = .ok r') : Moves r 0 r' := by
  unfold PlanReader.expectIdent at h
  split at h
  · next hk =>
      cases h
      have hk : r.cur.kind = .Identifier := of_decide_eq_true hk.1
      have := Moves.advance r
      rwa [hk] at this
  · cases h

theorem moves_scalar {v : Str} (h : r.scalar = .ok (v, r')) : Moves r 0 r' := by
  unfold PlanReader.scalar at h
  have := Moves.advance r
  split at h
  · next hk =>
      cases h
      rwa [show r.cur.kind = .StringLiteral from of_decide_eq_true hk] at this
  · split at h
    · next hk =>
        cases h
        rwa [show r.cur.kind = .IntLiteral from of_decide_eq_true hk] at this
    · cases h

theorem moves_skipSemicolon (r : PlanReader) : Moves r 0 r.skipSemicolon := by
  unfold PlanReader.skipSemicolon
  split
  · next hk =>
      have := Moves.advance r
      rwa [show r.cur.kind = .Semicolon from of_decide_eq_true hk] at this
  · exact Moves.refl r

variable {α : Type} {onField : PlanReader.OnField α} {row row' : α}

theorem moves_field (h : r.field onField row = .ok (row', r')) : Moves r 0 r' := by
  unfold PlanReader.field at h
  split at h
  · next hk =>
      have hname := Moves.advance r
      rw [show r.cur.kind = .Identifier from of_decide_eq_true hk] at hname
      obtain ⟨r₁, h₁, h⟩ := bind_eq_ok.mp h
      obtain ⟨⟨v, r₂⟩, h₂, h⟩ := bind_eq_ok.mp h
      have hvalue := (hname.trans (moves_expect h₁)).trans (moves_scalar h₂)
      dsimp only at h
      split at h
      · cases h
        exact hvalue.trans (moves_skipSemicolon r₂)
      · next message _ =>
          cases h
          exact (hvalue.trans (Moves.error r₂ message)).trans (moves_skipSemicolon _)
  · cases h

theorem moves_fields {fuel : Nat} (h : PlanReader.fields onField fuel row r = .ok (row', r')) :
    Moves r 0 r' := by
  induction fuel generalizing row r with
  | zero =>
    unfold PlanReader.fields at h
    split at h <;> obtain ⟨-, rfl⟩ := Prod.mk.inj (Except.ok.inj h) <;> exact Moves.refl r
  | succ fuel ih =>
    unfold PlanReader.fields at h
    split at h
    · obtain ⟨-, rfl⟩ := Prod.mk.inj (Except.ok.inj h)
      exact Moves.refl r
    · obtain ⟨⟨row₁, r₁⟩, h₁, h⟩ := bind_eq_ok.mp h
      exact (moves_field h₁).trans (ih h)

theorem moves_fieldBlock (h : r.fieldBlock onField row = .ok (row', r')) : Moves r 0 r' := by
  unfold PlanReader.fieldBlock at h
  obtain ⟨r₁, h₁, h⟩ := bind_eq_ok.mp h
  obtain ⟨⟨row₂, r₂⟩, h₂, h⟩ := bind_eq_ok.mp h
  obtain ⟨r₃, h₃, h⟩ := bind_eq_ok.mp h
  cases h
  exact ((moves_expect h₁).trans (moves_fields h₂)).trans (moves_expect h₃)

end Reader

/-- What a part of the plan does from the reader `r`: if it goes through, it opens
`d` braces; in any case the plan's `ok` stays what it was. -/
structure Reads (r : PlanReader) (d : Int) (ok : Bool) (x : PlanState.Result) : Prop where
  moves : ∀ st, x = .ok st → Moves r d st.reader
  kept : ∀ st, x = .ok st ∨ x = .error st → st.plan.ok = ok

namespace Reads

variable {r : PlanReader} {d : Int} {ok : Bool} {st : PlanState}

theorem of_ok (hr : Moves r d st.reader) (hok : st.plan.ok = ok) : Reads r d ok (.ok st) := by
  refine ⟨?_, ?_⟩
  · intro st' h
    cases h
    exact hr
  · rintro st' (h | h)
    · cases h
      exact hok
    · cases h

theorem of_error (hok : st.plan.ok = ok) : Reads r d ok (.error st) := by
  refine ⟨?_, ?_⟩
  · intro st' h
    cases h
  rintro st' (h | h)
  · cases h
  · cases h
    exact hok

/-- A step of the reader, then the rest of the part. -/
theorem lift_bind {α : Type} {x : PlanReader.Result α} {f : α → PlanState.Result}
    (hok : st.plan.ok = ok) (h : ∀ a, x = .ok a → Reads r d ok (f a)) :
    Reads r d ok (st.lift x >>= f) := by
  cases x with
  | error r' => exact of_error hok
  | ok a => exact h a rfl

end Reads

section Plan

variable {st : PlanState}

theorem reads_entryRow (st : PlanState) : Reads st.reader 0 st.plan.ok st.entryRow := by
  refine Reads.lift_bind rfl ?_
  rintro ⟨⟨kind, target⟩, r⟩ h
  dsimp only
  split
  · exact Reads.of_ok (moves_fieldBlock h) rfl
  · exact Reads.of_error rfl

theorem reads_srcRow (st : PlanState) : Reads st.reader 0 st.plan.ok st.srcRow := by
  refine Reads.lift_bind rfl ?_
  rintro ⟨s, r⟩ h
  dsimp only
  split
  · exact Reads.of_error rfl
  · exact Reads.of_ok (moves_fieldBlock h) rfl

theorem reads_edgeRow (st : PlanState) : Reads st.reader 0 st.plan.ok st.edgeRow := by
  refine Reads.lift_bind rfl ?_
  rintro ⟨e, r⟩ h
  exact Reads.of_ok (moves_fieldBlock h) rfl

theorem reads_assetRow (st : PlanState) : Reads st.reader 0 st.plan.ok st.assetRow := by
  refine Reads.lift_bind rfl ?_
  rintro ⟨a, r⟩ h
  dsimp only
  split
  · exact Reads.of_error rfl
  · split
    · exact Reads.of_error rfl
    · exact Reads.of_ok (moves_fieldBlock h) rfl

theorem reads_planField (st : PlanState) (name : Str) : Reads st.reader 0 st.plan.ok (st.planField name) := by
  refine Reads.lift_bind rfl ?_
  intro r₁ h₁
  refine Reads.lift_bind rfl ?_
  rintro ⟨v, r₂⟩ h₂
  refine Reads.of_ok (((moves_expect h₁).trans (moves_scalar h₂)).trans (moves_skipSemicolon r₂)) ?_
  dsimp only
  repeat' split
  all_goals rfl

/-- A part after the name of an item. -/
private theorem Reads.after_name {x : PlanState.Result} (hk : st.reader.isAt .Identifier = true)
    (h : Reads st.reader.advance 0 st.plan.ok x) : Reads st.reader 0 st.plan.ok x := by
  have hname := Moves.advance st.reader
  rw [show st.reader.cur.kind = .Identifier from of_decide_eq_true hk] at hname
  exact ⟨fun st' hst' => hname.trans (h.moves st' hst'), h.kept⟩

theorem reads_item (st : PlanState) : Reads st.reader 0 st.plan.ok st.item := by
  unfold PlanState.item
  split
  · next hk =>
      refine Reads.after_name hk ?_
      dsimp only
      split
      · exact reads_entryRow { st with reader := st.reader.advance }
      split
      · exact reads_srcRow { st with reader := st.reader.advance }
      split
      · exact reads_edgeRow { st with reader := st.reader.advance }
      split
      · exact reads_assetRow { st with reader := st.reader.advance }
      split
      · exact reads_planField { st with reader := st.reader.advance } _
      · exact Reads.of_error rfl
  · exact Reads.of_error rfl

theorem reads_items (fuel : Nat) (st : PlanState) : Reads st.reader 0 st.plan.ok (PlanState.items fuel st) := by
  induction fuel generalizing st with
  | zero =>
    unfold PlanState.items
    split <;> exact Reads.of_ok (Moves.refl _) rfl
  | succ fuel ih =>
    unfold PlanState.items
    split
    · exact Reads.of_ok (Moves.refl _) rfl
    · have hitem := reads_item st
      cases hx : st.item with
      | error st' => exact Reads.of_error (hitem.kept st' (.inr hx))
      | ok st' =>
        have hrest := ih st'
        rw [hitem.kept st' (.inl hx)] at hrest
        exact ⟨fun st'' h => (hitem.moves st' hx).trans (hrest.moves st'' h), hrest.kept⟩

/-- **Every run of the reader.**  The plan's `ok` is left alone, whether the plan is
read to its end or not. -/
theorem reads_block (st : PlanState) : Reads st.reader 0 st.plan.ok st.block := by
  refine Reads.lift_bind rfl ?_
  intro r₁ h₁
  refine Reads.lift_bind rfl ?_
  intro r₂ h₂
  have hitems := reads_items r₂.toks.length { st with reader := r₂ }
  cases hx : PlanState.items r₂.toks.length { st with reader := r₂ } with
  | error st' => exact Reads.of_error (hitems.kept st' (.inr hx))
  | ok st' =>
    refine Reads.lift_bind (hitems.kept st' (.inl hx)) ?_
    intro r₃ h₃
    refine Reads.of_ok ?_ (hitems.kept st' (.inl hx))
    exact (((moves_expectIdent h₁).trans (moves_expect h₂)).trans (hitems.moves st' hx)).trans
      (moves_expect h₃)

private theorem lift_eq_ok {α : Type} {x : PlanReader.Result α} {a : α} (h : st.lift x = .ok a) :
    x = .ok a := by
  cases x with
  | error r => cases h
  | ok b => rw [Except.ok.inj h]

/-- A plan that is read to its end opens one brace first and closes it at last. -/
theorem block_balanced {st' : PlanState} (h : st.block = .ok st') :
    ∃ r, Moves st.reader 1 r ∧ Moves r (-1) st'.reader := by
  obtain ⟨r₁, h₁, h⟩ := bind_eq_ok.mp h
  obtain ⟨r₂, h₂, h⟩ := bind_eq_ok.mp h
  obtain ⟨st₃, h₃, h⟩ := bind_eq_ok.mp h
  obtain ⟨r₄, h₄, h⟩ := bind_eq_ok.mp h
  cases h
  refine ⟨r₂, (moves_expectIdent (lift_eq_ok h₁)).trans (moves_expect (lift_eq_ok h₂)), ?_⟩
  exact ((reads_items _ _).moves st₃ h₃).trans (moves_expect (lift_eq_ok h₄))

end Plan

end Leviathan.Driver
