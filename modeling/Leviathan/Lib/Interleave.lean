import Mathlib

/-!
# Interleaved runs on append-only tables

A table maps keys to lists and only grows: an action appends something under some
keys.  What it appends depends on the entries it reads, and on nothing else
(`Action.framed`).

A run takes labelled actions in some order.  If no action reads what an action of
another label writes, every action does what it would do in a run of its own label
alone (`effects_own`).  Two runs with the same actions of each label, in the same
order, then give the same table (`run_eq`), provided that where two labels
write one entry they append the same.
-/

namespace Leviathan.Interleave

open List

variable {κ β ε γ : Type}

/-- What an action does: what it appends under each key, and what it reports. -/
structure Effect (κ β ε : Type) where
  appends : κ → List β
  reports : List ε

/-- The table after an effect. -/
def after (t : κ → List β) (e : Effect κ β ε) : κ → List β := fun k => t k ++ e.appends k

/-- An action on tables. -/
structure Action (κ β ε : Type) where
  effect : (κ → List β) → Effect κ β ε
  reads : (κ → List β) → κ → Prop
  framed : ∀ t t', (∀ k, reads t k → t k = t' k) → effect t = effect t'

/-! ### Actions one after the other -/

/-- The effect of a list of actions. -/
def seqEffect : List (Action κ β ε) → (κ → List β) → Effect κ β ε
  | [], _ => ⟨fun _ => [], []⟩
  | a :: l, t =>
    let e := a.effect t
    let f := seqEffect l (after t e)
    ⟨fun k => e.appends k ++ f.appends k, e.reports ++ f.reports⟩

/-- What one of a list of actions reads. -/
def seqReads : List (Action κ β ε) → (κ → List β) → κ → Prop
  | [], _, _ => False
  | a :: l, t, k => a.reads t k ∨ seqReads l (after t (a.effect t)) k

theorem seqEffect_framed (l : List (Action κ β ε)) (t t' : κ → List β)
    (h : ∀ k, seqReads l t k → t k = t' k) : seqEffect l t = seqEffect l t' := by
  induction l generalizing t t' with
  | nil => rfl
  | cons a l ih =>
    have ha : a.effect t = a.effect t' := a.framed t t' fun k hk => h k (.inl hk)
    have hl : seqEffect l (after t (a.effect t)) = seqEffect l (after t' (a.effect t)) := by
      apply ih
      intro k hk
      unfold after
      rw [h k (.inr hk)]
    rw [seqEffect, seqEffect, ← ha, hl]

/-- A list of actions as one action. -/
def seq (l : List (Action κ β ε)) : Action κ β ε where
  effect := seqEffect l
  reads := seqReads l
  framed := seqEffect_framed l

/-! ### Runs -/

/-- The effects of a run, each with the label of its action. -/
def effects : List (γ × Action κ β ε) → (κ → List β) → List (γ × Effect κ β ε)
  | [], _ => []
  | (g, a) :: l, t => (g, a.effect t) :: effects l (after t (a.effect t))

/-- The table after a run. -/
def run (l : List (γ × Action κ β ε)) (t : κ → List β) : κ → List β :=
  (effects l t).foldl (fun t e => after t e.2) t

/-- The actions of a run, each with the table it is taken on. -/
def steps : List (γ × Action κ β ε) → (κ → List β) → List (Action κ β ε × (κ → List β))
  | [], _ => []
  | (_, a) :: l, t => (a, t) :: steps l (after t (a.effect t))

/-- The actions of one label. -/
def own [DecidableEq γ] (g : γ) (l : List (γ × Action κ β ε)) : List (γ × Action κ β ε) :=
  l.filter (fun x => x.1 = g)

/-- Actions of different labels leave each other alone, each label run by itself. -/
structure Apart [DecidableEq γ] (l : List (γ × Action κ β ε)) (t : κ → List β) : Prop where
  /-- What one label reads no other one writes. -/
  reads : ∀ g h, g ≠ h → ∀ x ∈ steps (own g l) t, ∀ y ∈ steps (own h l) t, ∀ k,
    x.1.reads x.2 k → (y.1.effect y.2).appends k = []
  /-- Where two labels write, they append the same. -/
  writes : ∀ g h, g ≠ h → ∀ x ∈ steps (own g l) t, ∀ y ∈ steps (own h l) t, ∀ k,
    (x.1.effect x.2).appends k ≠ [] → (y.1.effect y.2).appends k ≠ [] →
    (x.1.effect x.2).appends k = (y.1.effect y.2).appends k

theorem run_apply (l : List (γ × Action κ β ε)) (t : κ → List β) (k : κ) :
    run l t k = t k ++ (effects l t).flatMap (fun e => e.2.appends k) := by
  unfold run
  generalize effects l t = es
  induction es generalizing t with
  | nil => simp
  | cons e es ih =>
    rw [foldl_cons, ih, flatMap_cons]
    unfold after
    rw [append_assoc]

/-- Every effect of a run is the effect of one of its steps. -/
theorem exists_step_of_mem_effects {l : List (γ × Action κ β ε)} {t : κ → List β}
    {e : γ × Effect κ β ε} (h : e ∈ effects l t) : ∃ x ∈ steps l t, x.1.effect x.2 = e.2 := by
  induction l generalizing t with
  | nil => cases h
  | cons ga l ih =>
    obtain ⟨g, a⟩ := ga
    rw [effects] at h
    rw [steps]
    rcases List.mem_cons.mp h with rfl | h
    · exact ⟨(a, t), mem_cons_self, rfl⟩
    · obtain ⟨x, hx, he⟩ := ih h
      exact ⟨x, mem_cons_of_mem _ hx, he⟩

/-- A step takes one of the actions of the run. -/
theorem exists_label_of_mem_steps {l : List (γ × Action κ β ε)} {t : κ → List β}
    {x : Action κ β ε × (κ → List β)} (h : x ∈ steps l t) : ∃ g, (g, x.1) ∈ l := by
  induction l generalizing t with
  | nil => cases h
  | cons ga l ih =>
    obtain ⟨g, a⟩ := ga
    rw [steps] at h
    rcases List.mem_cons.mp h with rfl | h
    · exact ⟨g, mem_cons_self⟩
    · obtain ⟨g', hg'⟩ := ih h
      exact ⟨g', mem_cons_of_mem _ hg'⟩

section
variable [DecidableEq γ]

theorem own_cons_self (g : γ) (a : Action κ β ε) (l : List (γ × Action κ β ε)) :
    own g ((g, a) :: l) = (g, a) :: own g l := by
  simp [own]

theorem own_cons_of_ne {g h : γ} (hne : h ≠ g) (a : Action κ β ε) (l : List (γ × Action κ β ε)) :
    own g ((h, a) :: l) = own g l := by
  simp [own, hne]

/-- The invariant of a run: beside the table there is one for each label, that of its
own run, and the two agree on whatever the label still reads. -/
theorem effects_own_aux (l : List (γ × Action κ β ε)) (t : κ → List β) (ts : γ → κ → List β)
    (hagree : ∀ g, ∀ x ∈ steps (own g l) (ts g), ∀ k, x.1.reads x.2 k → t k = ts g k)
    (hreads : ∀ g h, g ≠ h → ∀ x ∈ steps (own g l) (ts g), ∀ y ∈ steps (own h l) (ts h), ∀ k,
      x.1.reads x.2 k → (y.1.effect y.2).appends k = []) (g : γ) :
    (effects l t).filter (fun e => e.1 = g) = effects (own g l) (ts g) := by
  induction l generalizing t ts with
  | nil => rfl
  | cons ha l ih =>
    obtain ⟨h, a⟩ := ha
    have hhead : (a, ts h) ∈ steps (own h ((h, a) :: l)) (ts h) := by
      rw [own_cons_self, steps]
      exact mem_cons_self
    have ha : a.effect t = a.effect (ts h) :=
      (a.framed (ts h) t fun k hk => (hagree h _ hhead k hk).symm).symm
    -- the label's own table moves on, the others stay
    let ts' : γ → κ → List β := fun i => if i = h then after (ts h) (a.effect (ts h)) else ts i
    have hself : ts' h = after (ts h) (a.effect (ts h)) := if_pos rfl
    have hother : ∀ i, i ≠ h → ts' i = ts i := fun i hi => if_neg hi
    have hsteps : ∀ i, ∀ x ∈ steps (own i l) (ts' i),
        x ∈ steps (own i ((h, a) :: l)) (ts i) := by
      intro i x hx
      by_cases hi : i = h
      · subst hi
        rw [hself] at hx
        rw [own_cons_self, steps]
        exact mem_cons_of_mem _ hx
      · rw [hother i hi] at hx
        rwa [own_cons_of_ne (Ne.symm hi)]
    have hrest := ih (after t (a.effect t)) ts' ?_ ?_
    · by_cases hg : g = h
      · subst hg
        rw [effects, own_cons_self, effects, filter_cons_of_pos (by simp), hrest, hself, ha]
      · have hgh : h ≠ g := Ne.symm hg
        rw [effects, own_cons_of_ne hgh, filter_cons_of_neg (by simp [hgh]), hrest,
          hother g hg]
    · intro i x hx k hk
      have hold := hagree i x (hsteps i x hx) k hk
      by_cases hi : i = h
      · subst hi
        rw [hself]
        unfold after
        rw [hold, ha]
      · rw [hother i hi]
        have hnone := hreads i h hi x (hsteps i x hx) _ hhead k hk
        unfold after
        rw [ha, hnone, append_nil, hold]
    · intro i j hij x hx y hy k hk
      exact hreads i j hij x (hsteps i x hx) y (hsteps j y hy) k hk

/-- **Interleaving.**  In a run whose labels leave each other alone each label does what
it does by itself. -/
theorem effects_own {l : List (γ × Action κ β ε)} {t : κ → List β} (h : Apart l t) (g : γ) :
    (effects l t).filter (fun e => e.1 = g) = effects (own g l) t :=
  effects_own_aux l t (fun _ => t) (fun _ _ _ _ _ => rfl) h.reads g

end

/-! ### Two orders -/

/-- Lists that agree on the elements of each label are rearrangements of each other. -/
theorem perm_of_filter_eq {α : Type} [DecidableEq γ] {es es' : List (γ × α)}
    (h : ∀ g, es.filter (fun e => e.1 = g) = es'.filter (fun e => e.1 = g)) : es.Perm es' := by
  classical
  rw [perm_iff_count]
  intro e
  have hcount : ∀ l : List (γ × α), (l.filter (fun x => x.1 = e.1)).count e = l.count e := by
    intro l
    exact count_filter (by simp)
  rw [← hcount es, ← hcount es', h e.1]

/-- Pieces that can be swapped can be put together in any order. -/
theorem flatMap_perm {α : Type} {f : α → List β} {l l' : List α} (hperm : l.Perm l')
    (h : ∀ x ∈ l, ∀ y ∈ l, f x ++ f y = f y ++ f x) : l.flatMap f = l'.flatMap f := by
  induction hperm with
  | nil => rfl
  | cons x _ ih =>
    rw [flatMap_cons, flatMap_cons, ih]
    intro y hy z hz
    exact h y (mem_cons_of_mem _ hy) z (mem_cons_of_mem _ hz)
  | swap x y l =>
    have hcomm : f y ++ f x = f x ++ f y := h y (by simp) x (by simp)
    simp only [flatMap_cons, ← append_assoc]
    rw [hcomm]
  | trans hfirst _ ih ih' =>
    rw [ih h, ih']
    intro x hx y hy
    exact h x (hfirst.mem_iff.mpr hx) y (hfirst.mem_iff.mpr hy)

/-- Lists can be swapped if they are the same unless one is empty. -/
theorem append_comm_of_eq {l l' : List β} (h : l ≠ [] → l' ≠ [] → l = l') : l ++ l' = l' ++ l := by
  by_cases hl : l = []
  · simp [hl]
  · by_cases hl' : l' = []
    · simp [hl']
    · rw [h hl hl']

/-- Lists can be swapped if every element of one is every element of the other. -/
theorem append_comm_of_forall_eq {l l' : List β} (h : ∀ a ∈ l, ∀ b ∈ l', a = b) :
    l ++ l' = l' ++ l := by
  cases l with
  | nil => simp
  | cons a l =>
    cases l' with
    | nil => simp
    | cons b l' =>
      have hl : a :: l = List.replicate (l.length + 1) b :=
        eq_replicate_of_mem fun x hx => h x hx b mem_cons_self
      have hl' : b :: l' = List.replicate (l'.length + 1) b :=
        eq_replicate_of_mem fun x hx =>
          (h a mem_cons_self x hx).symm.trans (h a mem_cons_self b mem_cons_self)
      rw [hl, hl', replicate_append_replicate, replicate_append_replicate, Nat.add_comm]

/-- Pieces of labelled lists that agree on each label, put together. -/
theorem flatMap_eq_of_filter_eq {α : Type} [DecidableEq γ] {f : γ × α → List β}
    {es es' : List (γ × α)} (hfilter : ∀ g, es.filter (fun e => e.1 = g) = es'.filter (fun e => e.1 = g))
    (h : ∀ x ∈ es, ∀ y ∈ es, x.1 ≠ y.1 → f x ≠ [] → f y ≠ [] → f x = f y) :
    es.flatMap f = es'.flatMap f := by
  by_cases hone : ∃ g, ∀ x ∈ es, f x ≠ [] → x.1 = g
  · -- only one label has something to add
    obtain ⟨g, hg⟩ := hone
    have hdrop : ∀ l : List (γ × α), (∀ x ∈ l, f x ≠ [] → x.1 = g) →
        l.flatMap f = (l.filter (fun e => e.1 = g)).flatMap f := by
      intro l hl
      induction l with
      | nil => rfl
      | cons x l ih =>
        have hrest := ih fun y hy => hl y (mem_cons_of_mem _ hy)
        by_cases hx : x.1 = g
        · rw [filter_cons_of_pos (by simp [hx]), flatMap_cons, flatMap_cons, hrest]
        · have hnil : f x = [] := by
            by_contra hne
            exact hx (hl x mem_cons_self hne)
          rw [filter_cons_of_neg (by simp [hx]), flatMap_cons, hnil, hrest]
          rfl
    have hperm := perm_of_filter_eq hfilter
    rw [hdrop es hg, hdrop es' fun x hx => hg x (hperm.mem_iff.mpr hx), hfilter g]
  · -- two labels add the same, so every piece is that one
    apply flatMap_perm (perm_of_filter_eq hfilter)
    intro x hx y hy
    apply append_comm_of_eq
    intro hfx hfy
    by_cases hxy : x.1 = y.1
    · obtain ⟨z, hz, hfz, hlabel⟩ : ∃ z ∈ es, f z ≠ [] ∧ z.1 ≠ x.1 := by
        by_contra hnone
        refine hone ⟨x.1, fun z hz hfz => ?_⟩
        by_contra hlabel
        exact hnone ⟨z, hz, hfz, hlabel⟩
      have hxz := h x hx z hz (Ne.symm hlabel) hfx hfz
      have hyz := h y hy z hz (by rw [← hxy]; exact Ne.symm hlabel) hfy hfz
      rw [hxz, hyz]
    · exact h x hx y hy hxy hfx hfy

section
variable [DecidableEq γ] {l l' : List (γ × Action κ β ε)} {t : κ → List β}

section
variable (h : Apart l t) (hown : ∀ g, own g l = own g l')
include h hown

theorem Apart.of_own_eq : Apart l' t := by
  refine ⟨?_, ?_⟩
  · intro g i hgi
    rw [← hown g, ← hown i]
    exact h.reads g i hgi
  · intro g i hgi
    rw [← hown g, ← hown i]
    exact h.writes g i hgi

/-- Runs with the same actions of each label have the same effects of each label. -/
theorem effects_filter_eq (g : γ) :
    (effects l t).filter (fun e => e.1 = g) = (effects l' t).filter (fun e => e.1 = g) := by
  rw [effects_own h g, effects_own (h.of_own_eq hown) g, hown g]

/-- **Order.**  Runs with the same actions of each label, in the same order for each,
give the same table, if the labels leave each other alone. -/
theorem run_eq : run l t = run l' t := by
  funext k
  rw [run_apply, run_apply]
  congr 1
  apply flatMap_eq_of_filter_eq (effects_filter_eq h hown)
  intro x hx y hy hlabel
  have hstep : ∀ e ∈ effects l t, ∃ s ∈ steps (own e.1 l) t, s.1.effect s.2 = e.2 := by
    intro e he
    have hmem : e ∈ effects (own e.1 l) t := by
      rw [← effects_own h e.1]
      exact List.mem_filter.mpr ⟨he, by simp⟩
    exact exists_step_of_mem_effects hmem
  obtain ⟨s, hs, hx⟩ := hstep x hx
  obtain ⟨s', hs', hy⟩ := hstep y hy
  rw [← hx, ← hy]
  exact h.writes x.1 y.1 hlabel s hs s' hs' k

/-- They report the same, too. -/
theorem effects_perm : (effects l t).Perm (effects l' t) :=
  perm_of_filter_eq (effects_filter_eq h hown)

end

end

end Leviathan.Interleave
