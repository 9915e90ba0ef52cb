import Mathlib.Data.List.Basic

/-!
# Histories

A history is a list of entries, the newest first.  `Past P log` says that every entry satisfies
`P` with what came before it.
-/

namespace Leviathan.History

variable {ε : Type*} {P : List ε → ε → Prop}

/-- Every entry satisfies `P`, which sees the entries before it and the entry. -/
def Past (P : List ε → ε → Prop) : List ε → Prop
  | [] => True
  | x :: before => P before x ∧ Past P before

/-- What `Past` says of one entry. -/
theorem Past.entry {log later before : List ε} {x : ε} (h : Past P log)
    (hlog : log = later ++ x :: before) : P before x := by
  induction later generalizing log with
  | nil =>
    rw [hlog] at h
    exact h.1
  | cons y later ih =>
    rw [hlog] at h
    exact ih h.2 rfl

end Leviathan.History
