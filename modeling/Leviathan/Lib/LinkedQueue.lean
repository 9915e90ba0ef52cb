import Mathlib

/-!
# Queues linked through a pointer in each node

The nodes of a queue are linked by one `next` pointer each.  `Segment next p l q` says
that following the pointers from `p` passes the nodes of `l`, in this order, and arrives
at `q`; `Queue next head tail l` that a head and a tail pointer are those of the null
terminated list `l`.

Several lists may share the pointers, as long as a node stands on one of them.  So each
operation comes with what it makes of its own list and, through `Segment.congr`, with
what it leaves alone.
-/

namespace Leviathan.LinkedQueue

open List

variable {ρ : Type*}

/-- Following `next` from `p` passes the nodes `l` and arrives at `q`. -/
def Segment (next : ρ → Option ρ) : Option ρ → List ρ → Option ρ → Prop
  | p, [], q => p = q
  | p, r :: l, q => p = some r ∧ Segment next (next r) l q

theorem Segment.congr {next next' : ρ → Option ρ} :
    ∀ {l : List ρ} {p q : Option ρ}, (∀ r ∈ l, next' r = next r) →
      Segment next p l q → Segment next' p l q := by
  intro l
  induction l with
  | nil =>
    intro p q _ h
    exact h
  | cons r l ih =>
    intro p q hsame h
    obtain ⟨hp, hl⟩ := h
    refine ⟨hp, ?_⟩
    rw [hsame r mem_cons_self]
    exact ih (fun x hx => hsame x (mem_cons_of_mem r hx)) hl

theorem segment_append {next : ρ → Option ρ} {l l' : List ρ} :
    ∀ {p q : Option ρ}, Segment next p (l ++ l') q ↔
      ∃ m, Segment next p l m ∧ Segment next m l' q := by
  induction l with
  | nil =>
    intro p q
    constructor
    · intro h
      exact ⟨p, rfl, h⟩
    · intro h
      obtain ⟨m, rfl, h'⟩ := h
      exact h'
  | cons r l ih =>
    intro p q
    constructor
    · intro h
      obtain ⟨hp, hl⟩ := h
      obtain ⟨m, hm, hm'⟩ := ih.mp hl
      exact ⟨m, ⟨hp, hm⟩, hm'⟩
    · intro h
      obtain ⟨m, ⟨hp, hm⟩, hm'⟩ := h
      exact ⟨hp, ih.mpr ⟨m, hm, hm'⟩⟩

section

variable [DecidableEq ρ] {next : ρ → Option ρ}

theorem Segment.update_of_not_mem {l : List ρ} {p q v : Option ρ} {z : ρ} (hz : z ∉ l)
    (h : Segment next p l q) : Segment (Function.update next z v) p l q := by
  refine h.congr ?_
  intro r hr
  have hne : r ≠ z := by
    intro heq
    exact hz (heq ▸ hr)
  exact Function.update_of_ne hne v next

/-- Pointing the last node of a segment elsewhere. -/
theorem Segment.relink {l : List ρ} {p q : Option ρ} {z : ρ} (hz : z ∉ l)
    (h : Segment next p (l ++ [z]) q) (v : Option ρ) :
    Segment (Function.update next z v) p (l ++ [z]) v := by
  obtain ⟨m, hm, hz', _⟩ := segment_append.mp h
  refine segment_append.mpr ⟨m, hm.update_of_not_mem hz, hz', ?_⟩
  exact Function.update_self z v next

end

/-- The queue of the nodes `l`: null terminated, with its first and its last node at
hand. -/
structure Queue (next : ρ → Option ρ) (head tail : Option ρ) (l : List ρ) : Prop where
  segment : Segment next head l none
  tail_eq : tail = l.getLast?

theorem Queue.congr {next next' : ρ → Option ρ} {head tail : Option ρ} {l : List ρ}
    (hsame : ∀ r ∈ l, next' r = next r) (h : Queue next head tail l) :
    Queue next' head tail l :=
  ⟨h.segment.congr hsame, h.tail_eq⟩

theorem queue_nil (next : ρ → Option ρ) : Queue next none none [] := ⟨rfl, rfl⟩

theorem Queue.head_eq {next : ρ → Option ρ} {head tail : Option ρ} {l : List ρ}
    (h : Queue next head tail l) : head = l.head? := by
  cases l with
  | nil => exact h.segment
  | cons r l => exact h.segment.1

section

variable [DecidableEq ρ] {next : ρ → Option ρ} {head tail : Option ρ} {l : List ρ}

/-- The pointers after `t` has been linked behind the tail. -/
def linkLast (next : ρ → Option ρ) (tail : Option ρ) (t : ρ) : ρ → Option ρ :=
  match tail with
  | some z => Function.update (Function.update next t none) z (some t)
  | none => Function.update next t none

/-- Linking behind the tail touches the new node and the old tail. -/
theorem linkLast_of_ne {t r : ρ} (ht : r ≠ t) (htail : tail ≠ some r) :
    linkLast next tail t r = next r := by
  cases tail with
  | none => exact Function.update_of_ne ht none next
  | some z =>
    have hz : r ≠ z := fun heq => htail (congrArg some heq.symm)
    show Function.update (Function.update next t none) z (some t) r = next r
    rw [Function.update_of_ne hz, Function.update_of_ne ht]

/-- **Appending a node.** -/
theorem Queue.append (h : Queue next head tail l) (hl : l.Nodup) {t : ρ} (ht : t ∉ l) :
    Queue (linkLast next tail t) (if tail = none then some t else head) (some t) (l ++ [t]) := by
  refine ⟨?_, by rw [getLast?_append_of_ne_nil _ (by simp)]; rfl⟩
  rcases eq_nil_or_concat l with rfl | ⟨l, z, rfl⟩
  · have htail : tail = none := h.tail_eq
    subst htail
    exact ⟨rfl, show Function.update next t none t = none from Function.update_self t none next⟩
  · have htail : tail = some z := by
      rw [h.tail_eq, concat_eq_append, getLast?_append_of_ne_nil _ (by simp)]
      rfl
    subst htail
    rw [concat_eq_append] at hl ht h ⊢
    have hz : z ∉ l := by
      intro hmem
      exact (List.nodup_append.mp hl).2.2 z hmem z (by simp) rfl
    have htz : t ≠ z := by
      intro heq
      exact ht (by simp [heq])
    rw [if_neg (by simp)]
    have hlinked := (h.segment.update_of_not_mem (v := none) ht).relink hz (some t)
    refine segment_append.mpr ⟨some t, hlinked, rfl, ?_⟩
    show Function.update (Function.update next t none) z (some t) t = none
    rw [Function.update_of_ne htz, Function.update_self]

/-- **Taking the first node.** -/
theorem Queue.pop {t : ρ} (h : Queue next head tail (t :: l)) (ht : t ∉ l) :
    Queue (Function.update next t none) (next t) (if next t = none then none else tail) l := by
  have hseg : Segment next (next t) l none := h.segment.2
  refine ⟨hseg.update_of_not_mem ht, ?_⟩
  cases l with
  | nil =>
    have hnone : next t = none := hseg
    rw [if_pos hnone]
    rfl
  | cons r l =>
    have hsome : next t = some r := hseg.1
    rw [if_neg (by rw [hsome]; simp), h.tail_eq, getLast?_cons_cons]

/-- The pointers after the node behind `prev` has been bypassed. -/
def bypass (next : ρ → Option ρ) (prev : Option ρ) (after : Option ρ) : ρ → Option ρ :=
  match prev with
  | some z => Function.update next z after
  | none => next

theorem bypass_of_ne {prev after : Option ρ} {r : ρ} (hr : prev ≠ some r) :
    bypass next prev after r = next r := by
  cases prev with
  | none => rfl
  | some z =>
    have hz : r ≠ z := fun heq => hr (congrArg some heq.symm)
    exact Function.update_of_ne hz after next

/-- **Unlinking a node** between the nodes `pre` before it and `post` after it. -/
theorem Queue.unlink {pre post : List ρ} {t : ρ} (h : Queue next head tail (pre ++ t :: post))
    (hnodup : (pre ++ t :: post).Nodup) :
    Queue (bypass next pre.getLast? (next t)) (if pre.getLast? = none then next t else head)
      (if tail = some t then pre.getLast? else tail) (pre ++ post) := by
  obtain ⟨m, hpre, hm, hpost⟩ := segment_append.mp h.segment
  obtain ⟨_, hnodup', hdisj⟩ := List.nodup_append.mp hnodup
  have htpost : t ∉ post := (List.nodup_cons.mp hnodup').1
  refine ⟨?_, ?_⟩
  · rcases eq_nil_or_concat pre with rfl | ⟨pre, z, rfl⟩
    · exact hpost
    · rw [concat_eq_append] at hnodup hpre hdisj ⊢
      have hlast : (pre ++ [z]).getLast? = some z := by
        rw [getLast?_append_of_ne_nil _ (by simp)]
        rfl
      rw [hlast, if_neg (by simp)]
      have hz : z ∉ pre := by
        intro hmem
        have hpn := (List.nodup_append.mp hnodup).1
        exact (List.nodup_append.mp hpn).2.2 z hmem z (by simp) rfl
      have hzpost : z ∉ post := by
        intro hmem
        exact hdisj z (by simp) z (mem_cons_of_mem t hmem) rfl
      exact segment_append.mpr ⟨next t, hpre.relink hz (next t), hpost.update_of_not_mem hzpost⟩
  · rw [h.tail_eq]
    cases post with
    | nil =>
      rw [getLast?_append_of_ne_nil _ (by simp), append_nil]
      exact if_pos rfl
    | cons r post =>
      have hlast : (pre ++ t :: r :: post).getLast? = (r :: post).getLast? := by
        rw [getLast?_append_of_ne_nil _ (by simp), getLast?_cons_cons]
      have hne : (r :: post).getLast? ≠ some t := by
        intro heq
        exact htpost (mem_of_getLast? heq)
      rw [hlast, if_neg hne, getLast?_append_of_ne_nil _ (by simp)]

end

end Leviathan.LinkedQueue
