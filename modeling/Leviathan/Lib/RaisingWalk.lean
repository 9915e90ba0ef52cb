import Mathlib

/-!
# Raising worklists

A *raising worklist* keeps, for each key, the largest value demanded of it so
far.  It takes demands from the front of a queue; a demand that is not above
the value already held for its key is dropped, any other one raises that value,
is *expanded* at the new value, and the demands the expansion yields go to the
back of the queue.  Version selection is such a walk, and so is the check of a
recorded selection against its own edges.

The walk is given here as a small-step relation `Step` on explicit states, over
arbitrary keys, values and demands.  `Sound` says everything that holds of every
state a walk from `roots` can reach:

* each root demand, and each demand an expansion produced, is still queued or is
  already covered by the held value;
* the held value of a key is the one it was last expanded at, and is the largest
  of those;
* every expansion answers a demand met before it, down to the roots;
* no key is expanded twice at one value, and the queue is exactly as long as the
  demands still unprocessed.

`Sound.step` and `Sound.of_walk` are the step and the run lemma.
-/

namespace Leviathan.RaisingWalk

open List

variable {κ ν ρ : Type*}

/-- A state of the walk: the value held for each key, the demands still queued,
the expansions made so far (oldest first) and the number of demands taken. -/
structure State (κ ν ρ : Type*) where
  sel : κ → Option ν
  queue : List ρ
  log : List (κ × ν)
  steps : Nat

section
variable [LinearOrder ν] (key : ρ → κ) (val : ρ → ν) (expand : κ → ν → Option (List ρ))

/-- The walk before its first step. -/
def start (roots : List ρ) : State κ ν ρ := ⟨fun _ => none, roots, [], 0⟩

/-- The held values already meet demand `r`. -/
def Covers (sel : κ → Option ν) (r : ρ) : Prop :=
  ∃ v, sel (key r) = some v ∧ val r ≤ v

/-- One demand is taken from the queue. -/
inductive Step [DecidableEq κ] : State κ ν ρ → State κ ν ρ → Prop
  | keep {sel : κ → Option ν} {r : ρ} {queue : List ρ} {log : List (κ × ν)} {n : Nat}
      (hcov : Covers key val sel r) :
      Step ⟨sel, r :: queue, log, n⟩ ⟨sel, queue, log, n + 1⟩
  | raise {sel : κ → Option ν} {r : ρ} {queue subs : List ρ} {log : List (κ × ν)} {n : Nat}
      (hnew : ¬ Covers key val sel r)
      (hsubs : expand (key r) (val r) = some subs) :
      Step ⟨sel, r :: queue, log, n⟩
        ⟨Function.update sel (key r) (some (val r)), queue ++ subs,
          log ++ [(key r, val r)], n + 1⟩

/-- A run of the walk. -/
abbrev Walk [DecidableEq κ] : State κ ν ρ → State κ ν ρ → Prop := Relation.ReflTransGen (Step key val expand)

/-- A demand is reachable: it is a root, or an expansion of a reachable demand
produces it. -/
inductive Reach (roots : List ρ) : ρ → Prop
  | root {r : ρ} (hr : r ∈ roots) : Reach roots r
  | sub {r s : ρ} {subs : List ρ} (hr : Reach roots r)
      (hsubs : expand (key r) (val r) = some subs) (hs : s ∈ subs) : Reach roots s

/-- A demand the walk has met: a root, or a demand produced by one of the
expansions of `log`, made in answer to a demand met before. -/
inductive Met (roots : List ρ) (log : List (κ × ν)) : ρ → Prop
  | root {r : ρ} (hr : r ∈ roots) : Met roots log r
  | sub {r s : ρ} {subs : List ρ} (hr : Met roots log r) (hlog : (key r, val r) ∈ log)
      (hsubs : expand (key r) (val r) = some subs) (hs : s ∈ subs) : Met roots log s

/-- The number of demands the expansions of `log` produced. -/
def produced (log : List (κ × ν)) : Nat :=
  (log.map (fun kv => ((expand kv.1 kv.2).getD []).length)).sum

/-- What holds of every state that a walk from `roots` reaches. -/
structure Sound (roots : List ρ) (s : State κ ν ρ) : Prop where
  roots_met : ∀ r ∈ roots, r ∈ s.queue ∨ Covers key val s.sel r
  subs_met : ∀ kv ∈ s.log, ∃ subs, expand kv.1 kv.2 = some subs ∧
    ∀ r ∈ subs, r ∈ s.queue ∨ Covers key val s.sel r
  held_logged : ∀ k v, s.sel k = some v → (k, v) ∈ s.log
  logged_le : ∀ kv ∈ s.log, ∃ w, s.sel kv.1 = some w ∧ kv.2 ≤ w
  queue_met : ∀ r ∈ s.queue, Met key val expand roots s.log r
  log_met : ∀ kv ∈ s.log, ∃ r, Met key val expand roots s.log r ∧ (key r, val r) = kv
  log_nodup : s.log.Nodup
  balance : s.steps + s.queue.length = roots.length + produced expand s.log
end

variable {sel : κ → Option ν} {r : ρ} {roots roots' : List ρ} {log : List (κ × ν)}
  {s s' : State κ ν ρ}

section
variable [LinearOrder ν] {key : ρ → κ} {val : ρ → ν} {expand : κ → ν → Option (List ρ)}

/-- Raising a value keeps every demand met that was met before. -/
theorem Covers.update [DecidableEq κ] {t : ρ} (ht : Covers key val sel t)
    (hnew : ¬ Covers key val sel r) :
    Covers key val (Function.update sel (key r) (some (val r))) t := by
  obtain ⟨v, hv, hle⟩ := ht
  by_cases hk : key t = key r
  · refine ⟨val r, by simp [hk], le_of_not_ge fun hge => ?_⟩
    exact hnew ⟨v, by rw [← hk]; exact hv, hge.trans hle⟩
  · exact ⟨v, by simp [hk, hv], hle⟩

/-- A raised demand is met from then on. -/
theorem covers_update_self [DecidableEq κ] (sel : κ → Option ν) (r : ρ) :
    Covers key val (Function.update sel (key r) (some (val r))) r :=
  ⟨val r, by simp, le_rfl⟩

omit [LinearOrder ν] in
/-- More expansions meet more demands. -/
theorem Met.append (h : Met key val expand roots log r) (more : List (κ × ν)) :
    Met key val expand roots (log ++ more) r := by
  induction h with
  | root hr => exact .root hr
  | sub _ hlog hsubs hs ih => exact .sub ih (mem_append_left more hlog) hsubs hs

omit [LinearOrder ν] in
/-- A demand the walk met is reachable. -/
theorem Met.reach (h : Met key val expand roots log r) : Reach key val expand roots r := by
  induction h with
  | root hr => exact .root hr
  | sub _ _ hsubs hs ih => exact .sub ih hsubs hs

/-- Nothing has happened yet. -/
theorem Sound.start (roots : List ρ) : Sound key val expand roots (start roots) where
  roots_met _ hr := Or.inl hr
  subs_met _ h := by cases h
  held_logged _ _ h := by cases h
  logged_le _ h := by cases h
  queue_met _ hr := .root hr
  log_met _ h := by cases h
  log_nodup := nodup_nil
  balance := by simp [RaisingWalk.start, produced]

/-- Dropping a demand that is already met. -/
private theorem Sound.keep {queue : List ρ} {n : Nat}
    (h : Sound key val expand roots ⟨sel, r :: queue, log, n⟩) (hcov : Covers key val sel r) :
    Sound key val expand roots ⟨sel, queue, log, n + 1⟩ := by
  have hdrop : ∀ t, t ∈ r :: queue ∨ Covers key val sel t → t ∈ queue ∨ Covers key val sel t := by
    rintro t (ht | ht)
    · rcases List.mem_cons.mp ht with rfl | ht
      · exact Or.inr hcov
      · exact Or.inl ht
    · exact Or.inr ht
  refine ⟨fun t ht => hdrop t (h.roots_met t ht), ?_, h.held_logged, h.logged_le,
    fun t ht => h.queue_met t (mem_cons_of_mem r ht), h.log_met, h.log_nodup, ?_⟩
  · intro kv hkv
    obtain ⟨subs, hsubs, hmet⟩ := h.subs_met kv hkv
    exact ⟨subs, hsubs, fun t ht => hdrop t (hmet t ht)⟩
  · have hb := h.balance
    simp only [length_cons] at hb ⊢
    omega

/-- Raising a value and expanding the key at it. -/
private theorem Sound.raise [DecidableEq κ] {queue subs : List ρ} {n : Nat}
    (h : Sound key val expand roots ⟨sel, r :: queue, log, n⟩) (hnew : ¬ Covers key val sel r)
    (hsubs : expand (key r) (val r) = some subs) :
    Sound key val expand roots
      ⟨Function.update sel (key r) (some (val r)), queue ++ subs,
        log ++ [(key r, val r)], n + 1⟩ := by
  have hkeep : ∀ t, t ∈ r :: queue ∨ Covers key val sel t →
      t ∈ queue ++ subs ∨ Covers key val (Function.update sel (key r) (some (val r))) t := by
    rintro t (ht | ht)
    · rcases List.mem_cons.mp ht with rfl | ht
      · exact Or.inr (covers_update_self sel t)
      · exact Or.inl (mem_append_left subs ht)
    · exact Or.inr (ht.update hnew)
  have hr : Met key val expand roots (log ++ [(key r, val r)]) r :=
    (h.queue_met r mem_cons_self).append _
  refine ⟨fun t ht => hkeep t (h.roots_met t ht), ?_, ?_, ?_, ?_, ?_, ?_, ?_⟩
  · intro kv hkv
    rcases List.mem_append.mp hkv with hkv | hkv
    · obtain ⟨old, hold, hmet⟩ := h.subs_met kv hkv
      exact ⟨old, hold, fun t ht => hkeep t (hmet t ht)⟩
    · obtain rfl := List.mem_singleton.mp hkv
      exact ⟨subs, hsubs, fun t ht => Or.inl (mem_append_right queue ht)⟩
  · intro k v hkv
    dsimp only at hkv ⊢
    by_cases hk : k = key r
    · subst hk
      simp only [Function.update_self, Option.some.injEq] at hkv
      simp [hkv]
    · rw [Function.update_of_ne hk] at hkv
      exact mem_append_left _ (h.held_logged k v hkv)
  · intro kv hkv
    dsimp only at hkv ⊢
    rcases List.mem_append.mp hkv with hkv | hkv
    · obtain ⟨w, hw, hle⟩ := h.logged_le kv hkv
      by_cases hk : kv.1 = key r
      · refine ⟨val r, by simp [hk], hle.trans (le_of_not_ge fun hge => ?_)⟩
        exact hnew ⟨w, by rw [← hk]; exact hw, hge⟩
      · exact ⟨w, by rw [Function.update_of_ne hk]; exact hw, hle⟩
    · obtain rfl := List.mem_singleton.mp hkv
      exact ⟨val r, by simp, le_rfl⟩
  · intro t ht
    rcases List.mem_append.mp ht with ht | ht
    · exact (h.queue_met t (mem_cons_of_mem r ht)).append _
    · exact .sub hr (by simp) hsubs ht
  · intro kv hkv
    rcases List.mem_append.mp hkv with hkv | hkv
    · obtain ⟨t, ht, heq⟩ := h.log_met kv hkv
      exact ⟨t, ht.append _, heq⟩
    · obtain rfl := List.mem_singleton.mp hkv
      exact ⟨r, hr, rfl⟩
  · refine List.nodup_append.mpr ⟨h.log_nodup, nodup_singleton _, ?_⟩
    rintro kv hkv _ hmem rfl
    obtain rfl := List.mem_singleton.mp hmem
    -- an older expansion at this value would have left the demand met
    obtain ⟨w, hw, hle⟩ := h.logged_le _ hkv
    exact hnew ⟨w, hw, hle⟩
  · have hb := h.balance
    simp only [length_cons, length_append, produced, map_append, map_cons,
      map_nil, sum_append, sum_cons, sum_nil, hsubs, Option.getD_some] at hb ⊢
    omega

/-- **Step lemma.**  Each step keeps the walk sound. -/
theorem Sound.step [DecidableEq κ] {t : State κ ν ρ} (h : Sound key val expand roots s)
    (hst : Step key val expand s t) :
    Sound key val expand roots t := by
  cases hst with
  | keep hcov => exact h.keep hcov
  | raise hnew hsubs => exact h.raise hnew hsubs

/-- **Run lemma.**  Every state reached from the start is sound. -/
theorem Sound.of_walk [DecidableEq κ] (h : Walk key val expand (RaisingWalk.start roots) s) :
    Sound key val expand roots s := by
  induction h with
  | refl => exact Sound.start roots
  | tail _ hst ih => exact ih.step hst

/-- Once the queue is empty every root demand is met. -/
theorem Sound.root_covered (h : Sound key val expand roots s) (hq : s.queue = []) (hr : r ∈ roots) :
    Covers key val s.sel r := by
  rcases h.roots_met r hr with hr | hr
  · rw [hq] at hr; cases hr
  · exact hr

/-- Once the queue is empty every demand of an expanded key is met. -/
theorem Sound.sub_covered (h : Sound key val expand roots s) (hq : s.queue = []) {kv : κ × ν}
    (hkv : kv ∈ s.log) {subs : List ρ} (hsubs : expand kv.1 kv.2 = some subs) (hr : r ∈ subs) :
    Covers key val s.sel r := by
  obtain ⟨subs', hsubs', hmet⟩ := h.subs_met kv hkv
  obtain rfl : subs' = subs := Option.some.inj (hsubs'.symm.trans hsubs)
  rcases hmet r hr with hr | hr
  · rw [hq] at hr; cases hr
  · exact hr

/-! ### Walks in which superseded values do not matter

The order of the queue decides which values of a key are expanded before a
higher one takes over.  If everything a superseded value can contribute is
demanded without it as well, the final values do not depend on that order: they
are the largest reachable ones. -/

/-- A demand reached through the highest reachable value of each key only. -/
inductive TopReach (key : ρ → κ) (val : ρ → ν) (expand : κ → ν → Option (List ρ))
    (roots : List ρ) : ρ → Prop
  | root {r : ρ} (hr : r ∈ roots) : TopReach key val expand roots r
  | sub {r s : ρ} {subs : List ρ} (hr : TopReach key val expand roots r)
      (htop : ∀ t, Reach key val expand roots t → key t = key r → val t ≤ val r)
      (hsubs : expand (key r) (val r) = some subs) (hs : s ∈ subs) :
      TopReach key val expand roots s

/-- Superseded values do not matter: each reachable demand is met by one reached
through highest values only, and a key can be expanded at every value below the
highest one. -/
structure Settled (key : ρ → κ) (val : ρ → ν) (expand : κ → ν → Option (List ρ))
    (roots : List ρ) : Prop where
  met : ∀ r, Reach key val expand roots r →
    ∃ t, TopReach key val expand roots t ∧ key t = key r ∧ val r ≤ val t
  superseded : ∀ r t, Reach key val expand roots r → Reach key val expand roots t →
    key r = key t → val r < val t → (expand (key r) (val r)).isSome

omit [LinearOrder ν] in
/-- Reachability depends on the members of the root list only. -/
theorem Reach.of_subset (hsub : ∀ r ∈ roots, r ∈ roots') (h : Reach key val expand roots r) :
    Reach key val expand roots' r := by
  induction h with
  | root hr => exact .root (hsub _ hr)
  | sub _ hsubs hs ih => exact .sub ih hsubs hs

omit [LinearOrder ν] in
/-- If one expansion yields, up to keys and values, all that another one yields, it
reaches as much. -/
theorem Reach.simulate {expand' : κ → ν → Option (List ρ)}
    (hsim : ∀ k v subs, expand k v = some subs → ∃ subs', expand' k v = some subs' ∧
      ∀ s ∈ subs, ∃ s' ∈ subs', key s' = key s ∧ val s' = val s)
    (h : Reach key val expand roots r) :
    ∃ r', Reach key val expand' roots r' ∧ key r' = key r ∧ val r' = val r := by
  induction h with
  | root hr => exact ⟨_, .root hr, rfl, rfl⟩
  | sub _ hsubs hs ih =>
    obtain ⟨r', hr', hkey, hval⟩ := ih
    obtain ⟨subs', hsubs', hall⟩ := hsim _ _ _ hsubs
    obtain ⟨s', hs', hkey', hval'⟩ := hall _ hs
    exact ⟨s', .sub hr' (by rw [hkey, hval]; exact hsubs') hs', hkey', hval'⟩

omit [LinearOrder ν] in
/-- The order of the roots does not matter. -/
theorem Reach.perm (hperm : roots.Perm roots') (r : ρ) :
    Reach key val expand roots r ↔ Reach key val expand roots' r :=
  ⟨.of_subset fun _ => hperm.mem_iff.mp, .of_subset fun _ => hperm.mem_iff.mpr⟩

/-- Nor does it for the demands reached through highest values. -/
theorem TopReach.perm (hperm : roots.Perm roots') (h : TopReach key val expand roots r) :
    TopReach key val expand roots' r := by
  induction h with
  | root hr => exact .root (hperm.mem_iff.mp hr)
  | sub _ htop hsubs hs ih =>
    exact .sub ih (fun t ht => htop t ((Reach.perm hperm t).mpr ht)) hsubs hs

theorem Settled.perm (hperm : roots.Perm roots') (h : Settled key val expand roots) :
    Settled key val expand roots' where
  met r hr := by
    obtain ⟨t, ht, hkey, hval⟩ := h.met r ((Reach.perm hperm r).mpr hr)
    exact ⟨t, ht.perm hperm, hkey, hval⟩
  superseded r t hr ht :=
    h.superseded r t ((Reach.perm hperm r).mpr hr) ((Reach.perm hperm t).mpr ht)

/-- A demand below a met demand on the same key is met. -/
theorem Covers.of_le {t : ρ} (ht : Covers key val sel t) (hkey : key t = key r)
    (hval : val r ≤ val t) : Covers key val sel r := by
  obtain ⟨v, hv, hle⟩ := ht
  exact ⟨v, by rw [← hkey]; exact hv, hval.trans hle⟩

section
variable (h : Sound key val expand roots s)
include h

/-- The value held for a key is the value of a reachable demand. -/
theorem Sound.held_reach {k : κ} {v : ν} (hv : s.sel k = some v) :
    ∃ r, Reach key val expand roots r ∧ key r = k ∧ val r = v := by
  obtain ⟨r, hmet, heq⟩ := h.log_met _ (h.held_logged k v hv)
  obtain ⟨hkey, hval⟩ := Prod.mk.inj heq
  exact ⟨r, hmet.reach, hkey, hval⟩

/-- A finished walk meets every demand reached through highest values. -/
theorem Sound.covers_top (hq : s.queue = []) (hr : TopReach key val expand roots r) :
    Covers key val s.sel r := by
  induction hr with
  | root hr => exact h.root_covered hq hr
  | @sub r t subs hr htop hsubs ht ih =>
    obtain ⟨v, hv, hle⟩ := ih
    -- the held value is reachable, so it is not above the highest one
    obtain ⟨r', hr', hkey, hval⟩ := h.held_reach hv
    obtain rfl : v = val r := le_antisymm (hval ▸ htop r' hr' hkey) hle
    exact h.sub_covered hq (h.held_logged _ _ hv) hsubs ht

/-- If superseded values do not matter, a finished walk meets every reachable demand. -/
theorem Sound.covers_reach (hq : s.queue = []) (hset : Settled key val expand roots)
    (hr : Reach key val expand roots r) :
    Covers key val s.sel r := by
  obtain ⟨t, ht, hkey, hval⟩ := hset.met r hr
  exact (h.covers_top hq ht).of_le hkey hval

/-- The held values of a finished walk are bounded by those of any other one that
reaches as much. -/
theorem Sound.sel_le (h' : Sound key val expand roots' s') (hq' : s'.queue = [])
    (hset' : Settled key val expand roots')
    (hroots : ∀ r, Reach key val expand roots r → Reach key val expand roots' r) {k : κ} {v : ν}
    (hv : s.sel k = some v) : ∃ w, s'.sel k = some w ∧ v ≤ w := by
  obtain ⟨r, hr, rfl, rfl⟩ := h.held_reach hv
  exact h'.covers_reach hq' hset' (hroots r hr)

/-- **Order independence.**  If superseded values do not matter, two finished walks
with the same reachable demands hold the same values. -/
theorem Sound.sel_eq (h' : Sound key val expand roots' s') (hq : s.queue = []) (hq' : s'.queue = [])
    (hset : Settled key val expand roots) (hset' : Settled key val expand roots')
    (hroots : ∀ r, Reach key val expand roots r ↔ Reach key val expand roots' r) :
    s.sel = s'.sel := by
  funext k
  cases hk : s.sel k with
  | none =>
    cases hk' : s'.sel k with
    | none => rfl
    | some w =>
      obtain ⟨v, hv, _⟩ := h'.sel_le h hq hset (fun r => (hroots r).mpr) hk'
      rw [hk] at hv
      cases hv
  | some v =>
    obtain ⟨w, hw, hle⟩ := h.sel_le h' hq' hset' (fun r => (hroots r).mp) hk
    obtain ⟨v', hv', hle'⟩ := h'.sel_le h hq hset (fun r => (hroots r).mpr) hw
    obtain rfl : v' = v := Option.some.inj (hv'.symm.trans hk)
    rw [hw, le_antisymm hle hle']

/-- If superseded values do not matter and one walk finishes, no walk that reaches
no more gets stuck on a demand that cannot be expanded. -/
theorem Sound.expandable (h' : Sound key val expand roots' s') (hq : s.queue = [])
    (hset : Settled key val expand roots)
    (hroots : ∀ r, Reach key val expand roots' r → Reach key val expand roots r)
    (hr : r ∈ s'.queue) : (expand (key r) (val r)).isSome := by
  have hreach := hroots r (h'.queue_met r hr).reach
  obtain ⟨v, hv, hle⟩ := h.covers_reach hq hset hreach
  obtain ⟨t, ht, htkey, htval⟩ := h.held_reach hv
  rcases hle.eq_or_lt with heq | hlt
  · obtain ⟨subs, hsubs, _⟩ := h.subs_met _ (h.held_logged _ _ hv)
    rw [heq, hsubs]
    rfl
  · exact hset.superseded r t hreach ht htkey.symm (by rw [htval]; exact hlt)

/-- If the expansion of a key does not depend on the value, a finished walk meets
every reachable demand. -/
theorem Sound.covers_reach_const (hq : s.queue = []) (hconst : ∀ k v w, expand k v = expand k w)
    (hr : Reach key val expand roots r) :
    Covers key val s.sel r := by
  induction hr with
  | root hr => exact h.root_covered hq hr
  | sub _ hsubs hs ih =>
    obtain ⟨v, hv, -⟩ := ih
    exact h.sub_covered hq (h.held_logged _ _ hv) (hconst _ _ v ▸ hsubs) hs

/-- A walk makes at most as many steps as its roots and the expansions of all the
reachable demands call for. -/
theorem Sound.steps_lt (hq : s.queue ≠ []) {nodes : List (κ × ν)}
    (hnodes : ∀ r, Reach key val expand roots r → (key r, val r) ∈ nodes) :
    s.steps < roots.length + produced expand nodes := by
  have hsub : s.log ⊆ nodes := by
    intro kv hkv
    obtain ⟨r, hmet, rfl⟩ := h.log_met kv hkv
    exact hnodes r hmet.reach
  obtain ⟨l, hperm, hsubl⟩ := h.log_nodup.subperm hsub
  have hle : produced expand s.log ≤ produced expand nodes := by
    unfold produced
    rw [← (hperm.map _).sum_eq]
    exact (hsubl.map _).sum_le_sum (fun _ _ => Nat.zero_le _)
  have hb := h.balance
  have hpos : 0 < s.queue.length := List.length_pos_iff.mpr hq
  omega

end

omit [LinearOrder ν] in
/-- Reachable demands stay inside any set closed under expansion. -/
theorem Reach.mem_of_closed {nodes : List (κ × ν)} (hroots : ∀ r ∈ roots, (key r, val r) ∈ nodes)
    (hclosed : ∀ kv ∈ nodes, ∀ r ∈ (expand kv.1 kv.2).getD [], (key r, val r) ∈ nodes)
    (h : Reach key val expand roots r) : (key r, val r) ∈ nodes := by
  induction h with
  | root hr => exact hroots _ hr
  | sub _ hsubs hs ih => exact hclosed _ ih _ (by simp only [hsubs, Option.getD_some]; exact hs)

end

end Leviathan.RaisingWalk
