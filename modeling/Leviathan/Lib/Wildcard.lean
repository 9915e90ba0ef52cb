import Mathlib.Computability.Language

/-!
# Patterns with wildcards

A pattern is a row of pieces: a symbol, any one symbol, or any run of symbols.  Its language is the
product of the languages of the pieces.

The greedy matcher gives up, at a run, every earlier choice but that of where the run ends.
`mem_language_of_later_start` is why it may: the pieces between two runs take one symbol each, so
that what matches with the first run ending later leaves less for the second run than what has been
found.
-/

namespace Leviathan.Wildcard

variable {α β : Type}

/-- A piece of a pattern. -/
inductive Piece (α : Type) where
  | anyRun
  | anyOne
  | one (a : α)
  deriving DecidableEq

/-- The runs that a piece stands for. -/
def Piece.language : Piece α → Language α
  | .anyRun => ⊤
  | .anyOne => {u : List α | ∃ a, u = [a]}
  | .one a => {[a]}

/-- The pieces with other symbols. -/
def Piece.map (f : α → β) : Piece α → Piece β
  | .anyRun => .anyRun
  | .anyOne => .anyOne
  | .one a => .one (f a)

/-- The language of a pattern. -/
def language (ps : List (Piece α)) : Language α := (ps.map Piece.language).prod

variable {u : List α}

theorem mem_language_nil : u ∈ language ([] : List (Piece α)) ↔ u = [] :=
  Language.mem_one u

theorem language_cons (p : Piece α) (ps : List (Piece α)) :
    language (p :: ps) = p.language * language ps := List.prod_cons

variable {ps : List (Piece α)}

theorem mem_language_anyRun : u ∈ language (.anyRun :: ps) ↔ ∃ d, u.drop d ∈ language ps := by
  rw [language_cons, Language.mem_mul]
  constructor
  · rintro ⟨t, -, v, hv, rfl⟩
    refine ⟨t.length, ?_⟩
    rwa [List.drop_left]
  · rintro ⟨d, hd⟩
    exact ⟨u.take d, trivial, u.drop d, hd, List.take_append_drop d u⟩

theorem mem_language_anyOne :
    u ∈ language (.anyOne :: ps) ↔ ∃ a v, u = a :: v ∧ v ∈ language ps := by
  rw [language_cons, Language.mem_mul]
  constructor
  · rintro ⟨t, ⟨a, rfl⟩, v, hv, rfl⟩
    exact ⟨a, v, rfl, hv⟩
  · rintro ⟨a, v, rfl, hv⟩
    exact ⟨[a], ⟨a, rfl⟩, v, hv, rfl⟩

theorem mem_language_one {a : α} :
    u ∈ language (.one a :: ps) ↔ ∃ v, u = a :: v ∧ v ∈ language ps := by
  rw [language_cons, Language.mem_mul]
  constructor
  · rintro ⟨t, rfl, v, hv, rfl⟩
    exact ⟨v, rfl, hv⟩
  · rintro ⟨v, rfl, hv⟩
    exact ⟨[a], rfl, v, hv, rfl⟩

/-- Pieces that are no runs take a symbol each. -/
theorem drop_mem_language {w : List (Piece α)} (hw : .anyRun ∉ w) :
    ∀ {u : List α}, u ∈ language (w ++ ps) → w.length ≤ u.length ∧ u.drop w.length ∈ language ps := by
  induction w with
  | nil => exact fun hu => ⟨Nat.zero_le _, hu⟩
  | cons p w ih =>
    intro u hu
    have hrest : .anyRun ∉ w := fun h => hw (List.mem_cons_of_mem p h)
    have hcons : ∃ a v, u = a :: v ∧ v ∈ language (w ++ ps) := by
      cases p with
      | anyRun => exact absurd List.mem_cons_self hw
      | anyOne => exact mem_language_anyOne.mp hu
      | one a =>
        obtain ⟨v, hv⟩ := mem_language_one.mp hu
        exact ⟨a, v, hv⟩
    obtain ⟨a, v, rfl, hv⟩ := hcons
    obtain ⟨hlength, hdrop⟩ := ih hrest hv
    exact ⟨Nat.succ_le_succ hlength, hdrop⟩

/-- **The exchange.**  A match that starts later leaves, at the run behind `w`, no more than what is
left there now. -/
theorem mem_language_of_later_start {w : List (Piece α)} (hw : .anyRun ∉ w) {text : List α}
    {start d : Nat} (h : text.drop (start + d) ∈ language (w ++ .anyRun :: ps)) :
    ∃ e, text.drop (start + w.length + e) ∈ language ps := by
  obtain ⟨-, hrun⟩ := drop_mem_language hw h
  obtain ⟨e, he⟩ := mem_language_anyRun.mp hrun
  rw [List.drop_drop, List.drop_drop] at he
  refine ⟨d + e, ?_⟩
  have hplace : start + w.length + (d + e) = start + d + (w.length + e) := by omega
  rwa [hplace]

/-- At the end of the text only runs may be left. -/
theorem nil_mem_language_iff : [] ∈ language ps ↔ ∀ p ∈ ps, p = .anyRun := by
  induction ps with
  | nil => exact iff_of_true (mem_language_nil.mpr rfl) nofun
  | cons p ps ih =>
    rw [List.forall_mem_cons, ← ih]
    cases p with
    | anyRun => simp [mem_language_anyRun]
    | anyOne => simp [mem_language_anyOne]
    | one a => simp [mem_language_one]

end Leviathan.Wildcard
