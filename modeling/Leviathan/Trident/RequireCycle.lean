import Leviathan.Trident.Mvs

/-!
# The cycle search is exact

`findRequireCycle` colours the entries while it searches: white entries are new, gray entries
are on the path from the start of the search, black entries are finished.  `Searching` says how
the four parts of the search state belong together.  A finished entry is accessible under the
edges of the graph, because everything it requires was finished before it; an edge to a gray
entry closes the rest of the path to a cycle.

The recorded graph has one record for each module, the first entry with its name; an edge to a
module without an entry is a leaf.  `work` counts the rounds that are left, and shows that the
rounds the model allows are enough.
-/

variable {m : ModuleId} {j i k : Nat} {rest : List (Nat × Nat)}

namespace Leviathan.Trident

open List

variable (entries : List BuildListEntry)

/-- The requirements of an entry. -/
def requiresAt (i : Nat) : List Require := (entries[i]?.map (·.requires_)).getD []

/-- `indexByModule`. -/
def indexByModule (m : ModuleId) : Option Nat := entries.findIdx? fun e => e.mod = m

/-- One entry requires another. -/
def Edge (i j : Nat) : Prop := ∃ r ∈ requiresAt entries i, indexByModule entries r.mod = some j

/-- The search from one start. -/
def visit (s : CycleSearch) (start : Nat) : Except Str CycleSearch :=
  if s.color.getD start .Black = .White then (s.enter start).drain entries (cycleRounds entries)
  else .ok s

/-- The edges that a frame has looked at lead to finished entries, or to the frame above. -/
def Looked (color : List Color) : Option Nat → List (Nat × Nat) → Prop
  | _, [] => True
  | above, (i, nextEdge) :: rest =>
    nextEdge ≤ (requiresAt entries i).length ∧
    (∀ r ∈ (requiresAt entries i).take nextEdge, ∀ j, indexByModule entries r.mod = some j →
      color[j]? = some .Black ∨ above = some j) ∧
    Looked color (some i) rest

/-- **The search state is in order**; `above` is an entry that is about to be pushed. -/
structure Searching (above : Option Nat) (s : CycleSearch) : Prop where
  colors : s.color.length = entries.length
  positions : s.pathPosition.length = entries.length
  path : s.path = (s.stack.map Prod.fst).reverse
  gray : ∀ i : Nat, s.color[i]? = some Color.Gray ↔ i ∈ s.path
  position : ∀ k i : Nat, s.path[k]? = some i → s.pathPosition[i]? = some k
  linked : s.path.IsChain (Edge entries)
  looked : Looked entries s.color above s.stack
  black : ∀ i : Nat, s.color[i]? = some Color.Black → Acc (fun j i => Edge entries i j) i

/-- The record of a module. -/
def recordOf (m : ModuleId) : Option BuildListEntry := entries.find? fun e => e.mod = m

/-- The recorded graph, restricted to recorded modules. -/
def Requires (m m' : ModuleId) : Prop :=
  ∃ e, recordOf entries m = some e ∧ (∃ r ∈ e.requires_, r.mod = m') ∧
    ∃ f, recordOf entries m' = some f

/-- A chain of entries, closed, each of which requires the next. -/
structure RequireCycle (chain : List BuildListEntry) : Prop where
  long : 2 ≤ chain.length
  closed : chain.head? = chain.getLast?
  recorded : ∀ e ∈ chain, recordOf entries e.mod = some e
  requires : chain.IsChain fun e f => Requires entries e.mod f.mod

/-- A cycle of entries, as `findRequireCycle` writes it. -/
def Reported (text : Str) : Prop :=
  ∃ chain : List Nat, 2 ≤ chain.length ∧ chain.head? = chain.getLast? ∧
    chain.IsChain (Edge entries) ∧
    text = ((chain.map fun i => (entries[i]?.map renderSelected).getD []).intersperse
      " -> ".toList).flatten

/-- The rounds that are left. -/
def work (s : CycleSearch) : Nat :=
  (∑ i ∈ Finset.range entries.length,
    if s.color[i]? = some .White then (requiresAt entries i).length + 1 else 0) +
  (s.stack.map fun f => (requiresAt entries f.1).length + 1 - f.2).sum

/-- What some rounds did: the state is in order, and no entry became white again. -/
structure Advanced (s s' : CycleSearch) : Prop where
  searching : Searching entries none s'
  seen : ∀ i : Nat, s'.color[i]? = some Color.White → s.color[i]? = some Color.White

section Steps

variable {entries} {above : Option Nat} {s s' : CycleSearch}

theorem lt_of_indexByModule (hj : indexByModule entries m = some j) : j < entries.length := by
  obtain ⟨hlt, _⟩ := List.findIdx?_eq_some_iff_getElem.mp hj
  exact hlt

/-- Looking again after a colour changed: finished entries stay finished, and the frame above
is finished or the same. -/
theorem Looked.mono {color color' : List Color} {stack : List (Nat × Nat)}
    {above above' : Option Nat} (hl : Looked entries color above stack)
    (hblack : ∀ i : Nat, color[i]? = some Color.Black → color'[i]? = some Color.Black)
    (habove : ∀ i : Nat, above = some i → color'[i]? = some Color.Black ∨ above' = some i) :
    Looked entries color' above' stack := by
  induction stack generalizing above above' with
  | nil => trivial
  | cons f rest ih =>
    obtain ⟨hle, hlooked, hrest⟩ := hl
    refine ⟨hle, fun r hr j hj => ?_, ih hrest fun i hi => Or.inr hi⟩
    obtain hb | ha := hlooked r hr j hj
    · exact Or.inl (hblack j hb)
    · exact habove j ha

theorem color_set {color : List Color} {c : Color} (hi : i < color.length) :
    (color.set i c)[j]? = if j = i then some c else color[j]? := by
  by_cases hji : j = i
  · rw [hji, getElem?_set_self hi, if_pos rfl]
  · rw [getElem?_set_ne fun h => hji h.symm, if_neg hji]

/-- The entry at the end of the path is nowhere else on it. -/
theorem Searching.nodup (hs : Searching entries above s) : s.path.Nodup := by
  rw [nodup_iff_getElem?_ne_getElem?]
  intro i j hij hj heq
  obtain ⟨x, hx⟩ : ∃ x, s.path[j]? = some x := ⟨s.path[j], getElem?_eq_getElem hj⟩
  have h₁ := hs.position j x hx
  have h₂ := hs.position i x (heq.trans hx)
  rw [h₁] at h₂
  cases h₂
  exact Nat.lt_irrefl _ hij

/-- **A new entry is pushed.** -/
theorem Searching.enter (hs : Searching entries (some j) s) (hj : s.color[j]? = some .White)
    (hedge : ∀ i, s.path.getLast? = some i → Edge entries i j) :
    Searching entries none (s.enter j) := by
  have hlt : j < s.color.length := (List.getElem?_eq_some_iff.mp hj).1
  have hnot : j ∉ s.path := by
    intro hmem
    rw [← hs.gray] at hmem
    rw [hj] at hmem
    cases hmem
  refine ⟨?_, ?_, ?_, ?_, ?_, ?_, ?_, ?_⟩
  · exact (length_set ..).trans hs.colors
  · exact (length_set ..).trans hs.positions
  · simp [CycleSearch.enter, hs.path]
  · intro i
    simp only [CycleSearch.enter, mem_append, mem_singleton]
    rw [color_set hlt]
    by_cases hij : i = j
    · simp [hij]
    · rw [if_neg hij, hs.gray i]
      simp [hij]
  · intro k i hk
    simp only [CycleSearch.enter] at hk ⊢
    by_cases hkl : k < s.path.length
    · rw [getElem?_append_left hkl] at hk
      have hij : i ≠ j := by
        intro heq
        subst heq
        exact hnot (mem_of_getElem? hk)
      rw [getElem?_set_ne fun h => hij h.symm]
      exact hs.position k i hk
    · rw [getElem?_append_right (by omega)] at hk
      obtain ⟨hk0, hki⟩ := List.getElem?_eq_some_iff.mp hk
      simp only [length_singleton] at hk0
      have hkeq : k = s.path.length := by omega
      subst hkeq
      simp only [Nat.sub_self, getElem_singleton] at hki
      subst hki
      rw [getElem?_set_self (by rw [hs.positions, ← hs.colors]; exact hlt)]
  · refine List.isChain_append.mpr ⟨hs.linked, List.IsChain.singleton j, ?_⟩
    intro x hx y hy
    simp only [head?_cons, Option.mem_def, Option.some.injEq] at hy
    subst hy
    exact hedge x hx
  · refine ⟨Nat.zero_le _, fun r hr => absurd hr not_mem_nil, ?_⟩
    refine hs.looked.mono (fun i hi => ?_) fun i hi => Or.inr hi
    simp only [CycleSearch.enter]
    rw [color_set hlt, if_neg]
    · exact hi
    · intro heq
      subst heq
      rw [hi] at hj
      cases hj
  · intro i hi
    simp only [CycleSearch.enter] at hi
    rw [color_set hlt] at hi
    split at hi
    · cases hi
    · exact hs.black i hi

/-- **The top entry is finished**: what it requires was finished before it. -/
theorem Searching.finish (hs : Searching entries none s)
    (hstack : s.stack = (i, (requiresAt entries i).length) :: rest) :
    Searching entries none
      { color := s.color.set i .Black, path := s.path.dropLast
        pathPosition := s.pathPosition.set i entries.length, stack := rest } := by
  have hpath : s.path = (rest.map Prod.fst).reverse ++ [i] := by
    rw [hs.path, hstack]
    simp
  have hdrop : s.path.dropLast = (rest.map Prod.fst).reverse := by
    rw [hpath, dropLast_concat]
  have hgray : s.color[i]? = some .Gray := by
    rw [hs.gray, hpath]
    simp
  have hlt : i < s.color.length := (List.getElem?_eq_some_iff.mp hgray).1
  have hnodup := hs.nodup
  rw [hpath] at hnodup
  have hnot : i ∉ (rest.map Prod.fst).reverse := by
    have hdisj := (List.nodup_append.mp hnodup).2.2
    intro hmem
    exact hdisj i hmem i (List.mem_singleton.mpr rfl) rfl
  have hl := hs.looked
  rw [hstack] at hl
  obtain ⟨_, hlooked, hrest⟩ := hl
  rw [take_length] at hlooked
  have hacc : Acc (fun j i => Edge entries i j) i := by
    refine Acc.intro i fun j hj => ?_
    obtain ⟨r, hr, hrj⟩ := hj
    obtain hb | habove := hlooked r hr j hrj
    · exact hs.black j hb
    · cases habove
  refine ⟨?_, ?_, hdrop, ?_, ?_, ?_, ?_, ?_⟩
  · exact (length_set ..).trans hs.colors
  · exact (length_set ..).trans hs.positions
  · intro j
    simp only
    rw [color_set hlt, hdrop]
    by_cases hji : j = i
    · subst hji
      simp only [if_true, hnot, iff_false]
      intro h
      cases h
    · rw [if_neg hji, hs.gray j, hpath]
      simp [hji]
  · intro k j hk
    simp only at hk ⊢
    rw [hdrop] at hk
    have hji : j ≠ i := by
      intro heq
      subst heq
      exact hnot (mem_of_getElem? hk)
    rw [getElem?_set_ne fun h => hji h.symm]
    refine hs.position k j ?_
    rw [hpath, getElem?_append_left]
    · exact hk
    · exact (List.getElem?_eq_some_iff.mp hk).1
  · simp only
    rw [hdrop]
    have hlinked := hs.linked
    rw [hpath] at hlinked
    exact (List.isChain_append.mp hlinked).1
  · refine hrest.mono (fun j hj => ?_) fun j hj => ?_
    · simp only
      rw [color_set hlt]
      split
      · rfl
      · exact hj
    · cases hj
      left
      simp only
      rw [color_set hlt, if_pos rfl]
  · intro j hj
    simp only at hj
    rw [color_set hlt] at hj
    split at hj
    · next hji =>
        subst hji
        exact hacc
    · exact hs.black j hj

/-- The last entry of the path is the top frame's. -/
theorem Searching.last (hs : Searching entries above s) (hstack : s.stack = (i, k) :: rest) :
    s.path.getLast? = some i := by
  rw [hs.path, hstack, getLast?_reverse]
  rfl

section
variable {r : Require} (hs : Searching entries none s) (hstack : s.stack = (i, k) :: rest)
  (hr : (requiresAt entries i)[k]? = some r)
include hs hstack hr

/-- **The top frame looks at its next edge.** -/
theorem Searching.skip
    (hdone : ∀ j : Nat, indexByModule entries r.mod = some j →
      s.color[j]? = some Color.Black ∨ above = some j) :
    Searching entries above { s with stack := (i, k + 1) :: rest } := by
  have hl := hs.looked
  rw [hstack] at hl
  obtain ⟨_, hlooked, hrest⟩ := hl
  obtain ⟨hk, hrk⟩ := List.getElem?_eq_some_iff.mp hr
  refine ⟨hs.colors, hs.positions, ?_, hs.gray, hs.position, hs.linked, ⟨hk, ?_, hrest⟩, hs.black⟩
  · rw [hs.path, hstack]
    rfl
  · intro r' hr' j hj
    rw [take_add_one, hr] at hr'
    obtain hold | hnew := List.mem_append.mp hr'
    · obtain hb | ha := hlooked r' hold j hj
      · exact Or.inl hb
      · cases ha
    · cases List.mem_singleton.mp hnew
      exact hdone j hj

/-- An edge to a gray entry closes a cycle, and `renderCycle` writes it. -/
theorem Searching.closes (hj : indexByModule entries r.mod = some j)
    (hgray : s.color[j]? = some .Gray) :
    Reported entries (renderCycle entries s j) := by
  obtain ⟨p, hp⟩ := mem_iff_getElem?.mp ((hs.gray j).mp hgray)
  obtain ⟨hlt, hpj⟩ := List.getElem?_eq_some_iff.mp hp
  have hpos : s.pathPosition.getD j entries.length = p := by
    rw [getD_eq_getElem?_getD, hs.position p j hp]
    rfl
  have hdrop : s.path.drop p = j :: s.path.drop (p + 1) := by
    rw [drop_eq_getElem_cons hlt, hpj]
  have hedge : Edge entries i j := ⟨r, mem_of_getElem? hr, hj⟩
  refine ⟨s.path.drop p ++ [j], ?_, ?_, ?_, ?_⟩
  · rw [hdrop]
    simp
  · rw [getLast?_concat, hdrop]
    rfl
  · refine List.isChain_append.mpr ⟨hs.linked.drop p, List.IsChain.singleton j, ?_⟩
    intro x hx y hy
    cases hy
    rw [getLast?_drop, if_neg (by omega), hs.last hstack] at hx
    cases hx
    exact hedge
  · rw [renderCycle, hpos]

end

end Steps

section Work

variable {entries} {s s' : CycleSearch}

/-- Looking at an edge is one round's work. -/
theorem work_skip (hstack : s.stack = (i, k) :: rest) (hk : k < (requiresAt entries i).length) :
    work entries { s with stack := (i, k + 1) :: rest } + 1 = work entries s := by
  simp only [work, hstack, map_cons, sum_cons]
  omega

/-- A new entry's work moves from the white entries to the stack. -/
theorem work_enter (hj : s.color[j]? = some .White) (hlen : j < entries.length) :
    work entries (s.enter j) = work entries s := by
  have hlt : j < s.color.length := (List.getElem?_eq_some_iff.mp hj).1
  have hwhite := Finset.sum_erase_add (Finset.range entries.length)
    (fun i => if s.color[i]? = some Color.White then (requiresAt entries i).length + 1 else 0)
    (Finset.mem_range.mpr hlen)
  have hgray := Finset.sum_erase_add (Finset.range entries.length)
    (fun i => if (s.enter j).color[i]? = some Color.White
      then (requiresAt entries i).length + 1 else 0) (Finset.mem_range.mpr hlen)
  have hself : (s.enter j).color[j]? = some .Gray := getElem?_set_self hlt
  have hrest : ∀ i ∈ (Finset.range entries.length).erase j,
      (if (s.enter j).color[i]? = some Color.White then (requiresAt entries i).length + 1 else 0) =
      if s.color[i]? = some Color.White then (requiresAt entries i).length + 1 else 0 := by
    intro i hi
    have hne : (s.enter j).color[i]? = s.color[i]? :=
      getElem?_set_ne fun h => Finset.ne_of_mem_erase hi h.symm
    rw [hne]
  rw [Finset.sum_congr rfl hrest] at hgray
  simp only [hself, hj, if_true] at hwhite hgray
  have hstack : (s.enter j).stack = (j, 0) :: s.stack := rfl
  simp only [work, hstack, map_cons, sum_cons]
  rw [← hwhite, ← hgray]
  simp
  omega

/-- Finishing an entry is one round's work. -/
theorem work_finish (hstack : s.stack = (i, (requiresAt entries i).length) :: rest)
    (hgray : s.color[i]? = some .Gray) :
    work entries
      { color := s.color.set i .Black, path := s.path.dropLast
        pathPosition := s.pathPosition.set i entries.length, stack := rest } + 1 =
      work entries s := by
  have hlt : i < s.color.length := (List.getElem?_eq_some_iff.mp hgray).1
  have hwhite : ∀ j : Nat,
      (s.color.set i .Black)[j]? = some Color.White ↔ s.color[j]? = some Color.White := by
    intro j
    rw [color_set hlt]
    by_cases hji : j = i
    · simp [hji, hgray]
    · rw [if_neg hji]
  simp only [work, hstack, map_cons, sum_cons, hwhite]
  omega

end Work

section Runs

variable {entries} {s s' : CycleSearch} {text : Str}

/-- What is not a coloured entry. -/
theorem color_getD (color : List Color) (hj : j < color.length) :
    color[j]? = some (color.getD j .Black) := by
  rw [getD_eq_getElem?_getD, getElem?_eq_getElem hj]
  rfl

theorem not_white_of_enter (hj : s.color[j]? = some .White) (i : Nat)
    (hi : (s.enter j).color[i]? = some Color.White) : s.color[i]? = some Color.White := by
  have hlt : j < s.color.length := (List.getElem?_eq_some_iff.mp hj).1
  simp only [CycleSearch.enter] at hi
  rw [color_set hlt] at hi
  split at hi
  · cases hi
  · exact hi

/-- **One round.**  The top frame finishes, looks at an edge, or finds a cycle. -/
theorem round_spec (hs : Searching entries none s) (hne : s.stack ≠ []) :
    (∀ s', s.round entries = .ok s' →
      Advanced entries s s' ∧ work entries s' + 1 = work entries s) ∧
    (∀ text, s.round entries = .error text → Reported entries text) := by
  obtain ⟨⟨i, k⟩, rest, hstack⟩ : ∃ f rest, s.stack = f :: rest := exists_cons_of_ne_nil hne
  have hl := hs.looked
  rw [hstack] at hl
  have hk : k ≤ (requiresAt entries i).length := hl.1
  have hedges : (entries[i]?.map (·.requires_)).getD [] = requiresAt entries i := rfl
  simp only [CycleSearch.round, hstack, hedges]
  cases hr : (requiresAt entries i)[k]? with
  | none =>
    have hkeq : k = (requiresAt entries i).length := by
      have hge := List.getElem?_eq_none_iff.mp hr
      omega
    subst hkeq
    have hgray : s.color[i]? = some .Gray := by
      rw [hs.gray, hs.path, hstack]
      simp
    have hlt : i < s.color.length := (List.getElem?_eq_some_iff.mp hgray).1
    refine ⟨fun s' h => ?_, fun text h => nomatch h⟩
    cases h
    refine ⟨⟨hs.finish hstack, fun j hj => ?_⟩, work_finish hstack hgray⟩
    simp only at hj
    rw [color_set hlt] at hj
    split at hj
    · cases hj
    · exact hj
  | some r =>
    have hlt : k < (requiresAt entries i).length := (List.getElem?_eq_some_iff.mp hr).1
    have hwork : work entries { s with stack := (i, k + 1) :: rest } + 1 = work entries s :=
      work_skip hstack hlt
    have hedges' : entries.findIdx? (fun e => e.mod = r.mod) = indexByModule entries r.mod := rfl
    simp only [hedges']
    cases hj : indexByModule entries r.mod with
    | none =>
      refine ⟨fun s' h => ?_, fun text h => nomatch h⟩
      cases h
      refine ⟨⟨hs.skip hstack hr fun j h => ?_, fun j h => h⟩, hwork⟩
      rw [hj] at h
      cases h
    | some j =>
      have hjlen := lt_of_indexByModule hj
      have hcolor := color_getD s.color (hs.colors.symm ▸ hjlen)
      simp only
      cases hc : s.color.getD j .Black with
      | White =>
        rw [hc] at hcolor
        refine ⟨fun s' h => ?_, fun text h => nomatch h⟩
        cases h
        have hskip : Searching entries (some j) { s with stack := (i, k + 1) :: rest } := by
          refine hs.skip hstack hr fun j' h => ?_
          rw [hj] at h
          exact Or.inr h
        refine ⟨⟨hskip.enter hcolor fun i' hi' => ?_, fun i' hi' => ?_⟩, ?_⟩
        · have hlast := hs.last hstack
          rw [hi'] at hlast
          cases hlast
          exact ⟨r, mem_of_getElem? hr, hj⟩
        · exact not_white_of_enter (s := { s with stack := (i, k + 1) :: rest }) hcolor i' hi'
        · rw [work_enter (s := { s with stack := (i, k + 1) :: rest }) hcolor hjlen]
          exact hwork
      | Gray =>
        rw [hc] at hcolor
        refine ⟨fun s' h => (nomatch h), fun text h => ?_⟩
        cases h
        exact hs.closes hstack hr hj hcolor
      | Black =>
        rw [hc] at hcolor
        refine ⟨fun s' h => ?_, fun text h => nomatch h⟩
        cases h
        refine ⟨⟨hs.skip hstack hr fun j' h => ?_, fun i' hi' => hi'⟩, hwork⟩
        rw [hj] at h
        cases h
        exact Or.inl hcolor

/-- A frame on the stack is work. -/
theorem stack_nil_of_work (hs : Searching entries none s) (hw : work entries s = 0) :
    s.stack = [] := by
  by_contra hne
  obtain ⟨f, rest, hstack⟩ := exists_cons_of_ne_nil hne
  have hl := hs.looked
  rw [hstack] at hl
  have hk : f.2 ≤ (requiresAt entries f.1).length := hl.1
  simp only [work, hstack, map_cons, sum_cons] at hw
  omega

/-- **The inner `while` runs to its end**: it empties the stack or finds a cycle. -/
theorem drain_spec {fuel : Nat} (hs : Searching entries none s) (hfuel : work entries s ≤ fuel) :
    (∀ s', s.drain entries fuel = .ok s' →
      Advanced entries s s' ∧ work entries s' ≤ work entries s ∧ s'.stack = []) ∧
    (∀ text, s.drain entries fuel = .error text → Reported entries text) := by
  induction fuel generalizing s with
  | zero =>
    refine ⟨fun s' h => ?_, fun text h => nomatch h⟩
    cases h
    exact ⟨⟨hs, fun i hi => hi⟩, Nat.le_refl _, stack_nil_of_work hs (by omega)⟩
  | succ fuel ih =>
    rw [CycleSearch.drain]
    by_cases hempty : s.stack.isEmpty
    · rw [if_pos hempty]
      refine ⟨fun s' h => ?_, fun text h => nomatch h⟩
      cases h
      exact ⟨⟨hs, fun i hi => hi⟩, Nat.le_refl _, List.isEmpty_iff.mp hempty⟩
    · rw [if_neg hempty]
      have hne : s.stack ≠ [] := fun h => hempty (List.isEmpty_iff.mpr h)
      obtain ⟨hok, herror⟩ := round_spec hs hne
      cases hround : s.round entries with
      | error text =>
        refine ⟨fun s' h => (nomatch h), fun text' h => ?_⟩
        cases h
        exact herror text hround
      | ok s₁ =>
        obtain ⟨hadv, hwork⟩ := hok s₁ hround
        obtain ⟨hok', herror'⟩ := ih hadv.searching (by omega)
        refine ⟨fun s' h => ?_, herror'⟩
        obtain ⟨hadv', hwork', hstack⟩ := hok' s' h
        exact ⟨⟨hadv'.searching, fun i hi => hadv.seen i (hadv'.seen i hi)⟩, by omega, hstack⟩

/-- **The outer loop**: every start is finished, or a cycle is found. -/
theorem visits_spec (starts : List Nat) (hs : Searching entries none s) (hstack : s.stack = [])
    (hwork : work entries s ≤ cycleRounds entries) (hstarts : ∀ i ∈ starts, i < entries.length) :
    (∀ s', starts.foldlM (visit entries) s = .ok s' →
      Advanced entries s s' ∧ s'.stack = [] ∧ ∀ i ∈ starts, s'.color[i]? ≠ some Color.White) ∧
    (∀ text, starts.foldlM (visit entries) s = .error text →
      Reported entries text) := by
  induction starts generalizing s with
  | nil =>
    refine ⟨fun s' h => ?_, fun text h => nomatch h⟩
    cases h
    exact ⟨⟨hs, fun i hi => hi⟩, hstack, fun i hi => absurd hi not_mem_nil⟩
  | cons start rest ih =>
    have hlt := hstarts start mem_cons_self
    have hrest : ∀ i ∈ rest, i < entries.length := fun i hi =>
      hstarts i (mem_cons_of_mem start hi)
    have hcolor := color_getD s.color (hs.colors.symm ▸ hlt)
    rw [foldlM_cons]
    by_cases hw : s.color.getD start .Black = .White
    · rw [hw] at hcolor
      have habove : Searching entries (some start) s :=
        ⟨hs.colors, hs.positions, hs.path, hs.gray, hs.position, hs.linked,
          by rw [hstack]; trivial, hs.black⟩
      have hpath : s.path = [] := by
        rw [hs.path, hstack]
        rfl
      have henter := habove.enter hcolor fun i hi => by
        rw [hpath] at hi
        cases hi
      have hwenter := work_enter hcolor hlt
      obtain ⟨hok, herror⟩ := drain_spec henter (hwenter.trans_le hwork)
      rw [visit, if_pos hw]
      cases hdrain : (s.enter start).drain entries (cycleRounds entries) with
      | error text =>
        refine ⟨fun s' h => (nomatch h), fun text' h => ?_⟩
        cases h
        exact herror text hdrain
      | ok s₁ =>
        obtain ⟨hadv, hwork₁, hstack₁⟩ := hok s₁ hdrain
        obtain ⟨hok', herror'⟩ := ih hadv.searching hstack₁ (by omega) hrest
        refine ⟨fun s' h => ?_, herror'⟩
        obtain ⟨hadv', hstack', hseen⟩ := hok' s' h
        refine ⟨⟨hadv'.searching, fun i hi => ?_⟩, hstack', fun i hi => ?_⟩
        · exact not_white_of_enter hcolor i (hadv.seen i (hadv'.seen i hi))
        · obtain hhead | htail := List.mem_cons.mp hi
          · intro hwhite
            have hself := hadv.seen i (hadv'.seen i hwhite)
            rw [hhead] at hself
            have hgray : (s.enter start).color[start]? = some .Gray :=
              getElem?_set_self (hs.colors.symm ▸ hlt)
            rw [hgray] at hself
            cases hself
          · exact hseen i htail
    · rw [visit, if_neg hw]
      obtain ⟨hok', herror'⟩ := ih hs hstack hwork hrest
      refine ⟨fun s' h => ?_, herror'⟩
      obtain ⟨hadv', hstack', hseen⟩ := hok' s' h
      refine ⟨hadv', hstack', fun i hi => ?_⟩
      obtain hhead | htail := List.mem_cons.mp hi
      · intro hwhite
        have hself := hadv'.seen i hwhite
        rw [hhead, hcolor] at hself
        exact hw (Option.some.inj hself)
      · exact hseen i htail

/-- The state before the first start. -/
def initialSearch (entries : List BuildListEntry) : CycleSearch :=
  { color := List.replicate entries.length .White
    pathPosition := List.replicate entries.length entries.length }

theorem initialSearch_searching : Searching entries none (initialSearch entries) := by
  refine ⟨length_replicate, length_replicate, rfl, fun i => ⟨fun h => ?_, fun h => ?_⟩,
    fun k i h => (nomatch h), List.IsChain.nil, trivial, fun i h => ?_⟩
  · cases (List.mem_replicate.mp (mem_of_getElem? h)).2
  · cases h
  · cases (List.mem_replicate.mp (mem_of_getElem? h)).2

theorem initialSearch_work : work entries (initialSearch entries) = cycleRounds entries := by
  have hsum : ∀ i ∈ Finset.range entries.length,
      (if (initialSearch entries).color[i]? = some Color.White
        then (requiresAt entries i).length + 1 else 0) = (requiresAt entries i).length + 1 := by
    intro i hi
    have hwhite : (initialSearch entries).color[i]? = some Color.White :=
      getElem?_replicate_of_lt (Finset.mem_range.mp hi)
    rw [if_pos hwhite]
  have hmap : (List.range entries.length).map (fun i => (requiresAt entries i).length + 1) =
      entries.map fun e => e.requires_.length + 1 := by
    refine ext_getElem (by simp) fun i h₁ h₂ => ?_
    simp only [length_map] at h₂
    simp [requiresAt, getElem?_eq_getElem h₂]
  rw [work, Finset.sum_congr rfl hsum, cycleRounds, ← hmap]
  rfl

theorem findRequireCycle_eq :
    findRequireCycle entries =
      match (List.range entries.length).foldlM (visit entries)
        (initialSearch entries) with
      | .ok _ => []
      | .error cycle => cycle :=
  rfl

end Runs

section Exact

variable {entries}

theorem recordOf_eq (m : ModuleId) :
    recordOf entries m = (indexByModule entries m).bind fun i => entries[i]? := by
  induction entries with
  | nil => rfl
  | cons e rest ih =>
    rw [recordOf, indexByModule, find?_cons, findIdx?_cons]
    by_cases he : e.mod = m
    · simp [he]
    · simp only [recordOf, indexByModule] at ih
      simp only [he, decide_false, Bool.false_eq_true, if_false, ih, Option.bind_map]
      rfl

/-- The record that an index of a module names. -/
theorem recordOf_index (hi : indexByModule entries m = some i) :
    ∃ e, entries[i]? = some e ∧ e.mod = m ∧ recordOf entries m = some e := by
  obtain ⟨hlt, hmod, _⟩ := List.findIdx?_eq_some_iff_getElem.mp hi
  refine ⟨entries[i], getElem?_eq_getElem hlt, of_decide_eq_true hmod, ?_⟩
  rw [recordOf_eq, hi]
  exact getElem?_eq_getElem hlt

/-- A recorded requirement is an edge of the search. -/
theorem Requires.edge {m' : ModuleId} (h : Requires entries m m') :
    ∃ i j, indexByModule entries m = some i ∧ indexByModule entries m' = some j ∧
      Edge entries i j := by
  obtain ⟨e, he, ⟨r, hr, hrm⟩, f, hf⟩ := h
  rw [recordOf_eq] at he hf
  obtain ⟨i, hi, hei⟩ := Option.bind_eq_some_iff.mp he
  obtain ⟨j, hj, _⟩ := Option.bind_eq_some_iff.mp hf
  refine ⟨i, j, hi, hj, r, ?_, hrm.symm ▸ hj⟩
  rw [requiresAt, hei]
  exact hr

/-- An edge between two records is a recorded requirement. -/
theorem Edge.requires {e f : BuildListEntry} (h : Edge entries i j) (he : entries[i]? = some e)
    (hrec : recordOf entries e.mod = some e) (hf : entries[j]? = some f) :
    Requires entries e.mod f.mod := by
  obtain ⟨r, hr, hj⟩ := h
  obtain ⟨f', hf', hmod, hrf⟩ := recordOf_index hj
  rw [hf] at hf'
  cases hf'
  rw [requiresAt, he] at hr
  exact ⟨e, hrec, ⟨r, hr, hmod.symm⟩, f, hmod.symm ▸ hrf⟩

theorem transGen_edge {m' : ModuleId} (h : Relation.TransGen (Requires entries) m m') :
    ∃ i j, indexByModule entries m = some i ∧ indexByModule entries m' = some j ∧
      Relation.TransGen (Edge entries) i j := by
  induction h with
  | single h =>
    obtain ⟨i, j, hi, hj, hij⟩ := h.edge
    exact ⟨i, j, hi, hj, .single hij⟩
  | tail _ h ih =>
    obtain ⟨i, j, hi, hj, hij⟩ := ih
    obtain ⟨j', k, hj', hk, hjk⟩ := h.edge
    rw [hj] at hj'
    cases hj'
    exact ⟨i, k, hi, hk, hij.tail hjk⟩

/-- An accessible entry is on no cycle. -/
theorem Acc.no_cycle (h : Acc (fun j i => Edge entries i j) i) :
    ¬Relation.TransGen (Edge entries) i i := by
  induction h with
  | intro i _ ih =>
    intro hcycle
    obtain ⟨j, hij, hji⟩ := Relation.TransGen.head'_iff.mp hcycle
    exact ih j hij (Relation.TransGen.tail' hji hij)

/-- Everything after the head of a chain is the target of an edge. -/
theorem target_of_mem_tail {a : Nat} {l : List Nat} (h : (a :: l).IsChain (Edge entries)) :
    ∀ j ∈ l, ∃ i, Edge entries i j := by
  induction l generalizing a with
  | nil => exact fun j hj => absurd hj not_mem_nil
  | cons b rest ih =>
    intro j hj
    obtain ⟨hab, hrest⟩ := List.isChain_cons_cons.mp h
    obtain hhead | htail := List.mem_cons.mp hj
    · exact ⟨a, hhead ▸ hab⟩
    · exact ih hrest j htail

/-- A chain that ends where it starts names records only. -/
theorem recorded_of_closed {chain : List Nat} (hlen : 2 ≤ chain.length)
    (hclosed : chain.head? = chain.getLast?) (hchain : chain.IsChain (Edge entries)) :
    ∀ j ∈ chain, ∃ e, entries[j]? = some e ∧ recordOf entries e.mod = some e := by
  intro j hj
  obtain ⟨i, r, _, hrj⟩ : ∃ i, Edge entries i j := by
    match chain, hlen, hclosed, hchain, hj with
    | a :: b :: rest, _, hclosed, hchain, hj =>
      have htail := target_of_mem_tail hchain
      obtain hhead | hmem := List.mem_cons.mp hj
      · refine htail j ?_
        rw [getLast?_cons_cons, head?_cons] at hclosed
        rw [hhead]
        exact mem_of_getLast? hclosed.symm
      · exact htail j hmem
  obtain ⟨e, he, hmod, hrec⟩ := recordOf_index hrj
  exact ⟨e, he, hmod.symm ▸ hrec⟩

/-- The entries of a list of indices that are all in range. -/
theorem exists_entries (chain : List Nat) (h : ∀ j ∈ chain, ∃ e, entries[j]? = some e) :
    ∃ es : List BuildListEntry, chain.map (fun i => entries[i]?) = es.map some := by
  induction chain with
  | nil => exact ⟨[], rfl⟩
  | cons j rest ih =>
    obtain ⟨e, he⟩ := h j mem_cons_self
    obtain ⟨es, hes⟩ := ih fun i hi => h i (mem_cons_of_mem j hi)
    exact ⟨e :: es, by simp [he, hes]⟩

/-- The indices of a reported cycle name the entries of a cycle. -/
theorem Reported.cycle {text : Str} (h : Reported entries text) :
    ∃ chain, RequireCycle entries chain ∧
      text = ((chain.map renderSelected).intersperse " -> ".toList).flatten := by
  obtain ⟨chain, hlen, hclosed, hchain, htext⟩ := h
  have hrec := recorded_of_closed hlen hclosed hchain
  obtain ⟨es, hes⟩ := exists_entries chain fun j hj => by
    obtain ⟨e, he, _⟩ := hrec j hj
    exact ⟨e, he⟩
  have hlength : es.length = chain.length := by
    have hl := congrArg List.length hes
    rw [length_map, length_map] at hl
    exact hl.symm
  have hmem : ∀ e ∈ es, recordOf entries e.mod = some e := by
    intro e he
    have hin : some e ∈ chain.map fun i => entries[i]? := by
      rw [hes]
      exact mem_map_of_mem he
    obtain ⟨j, hj, hje⟩ := List.mem_map.mp hin
    obtain ⟨e', he', hrec'⟩ := hrec j hj
    rw [hje] at he'
    cases he'
    exact hrec'
  refine ⟨es, ⟨hlength.symm ▸ hlen, ?_, hmem, ?_⟩, ?_⟩
  · have hends := congrArg (Option.map fun i => entries[i]?) hclosed
    rw [← head?_map, ← getLast?_map, hes, head?_map, getLast?_map] at hends
    exact Option.map_injective (Option.some_injective _) hends
  · have hmap : (chain.map fun i => entries[i]?).IsChain fun o o' =>
        ∀ e f, o = some e → o' = some f → Requires entries e.mod f.mod := by
      rw [isChain_map]
      refine hchain.imp_of_mem_imp fun i j hi hj hij e f he hf => ?_
      obtain ⟨e', he', hrec'⟩ := hrec i hi
      rw [he] at he'
      cases he'
      exact hij.requires he hrec' hf
    rw [hes, isChain_map] at hmap
    exact hmap.imp fun e f h => h e f rfl rfl
  · have hrender : (chain.map fun i => (entries[i]?.map renderSelected).getD []) =
        es.map renderSelected := by
      have hgetD := congrArg (List.map fun o => ((o.map renderSelected).getD [] : Str)) hes
      rw [map_map, map_map] at hgetD
      exact hgetD
    rw [htext, hrender]

/-- A chain leads from its head to its last element. -/
theorem transGen_of_isChain {e : BuildListEntry} {l : List BuildListEntry} (hne : l ≠ [])
    (h : (e :: l).IsChain fun e f => Requires entries e.mod f.mod) :
    ∀ f, l.getLast? = some f → Relation.TransGen (Requires entries) e.mod f.mod := by
  induction l generalizing e with
  | nil => exact absurd rfl hne
  | cons g rest ih =>
    intro f hf
    obtain ⟨heg, hrest⟩ := List.isChain_cons_cons.mp h
    cases rest with
    | nil =>
      cases hf
      exact .single heg
    | cons g' rest =>
      rw [getLast?_cons_cons] at hf
      exact .head heg (ih (cons_ne_nil g' rest) hrest f hf)

theorem RequireCycle.transGen {chain : List BuildListEntry} (h : RequireCycle entries chain) :
    ∃ m, Relation.TransGen (Requires entries) m m := by
  match chain, h with
  | e :: f :: rest, h =>
    have hlast := h.closed
    rw [head?_cons, getLast?_cons_cons] at hlast
    exact ⟨e.mod, transGen_of_isChain (cons_ne_nil f rest) h.requires e hlast.symm⟩
  | [e], h => exact absurd h.long (Nat.not_succ_le_self 1)
  | [], h => exact absurd h.long (by decide)

/-- A rendered cycle is not the empty string. -/
theorem rendered_ne_nil {chain : List BuildListEntry} (hlen : 2 ≤ chain.length) :
    ((chain.map renderSelected).intersperse " -> ".toList).flatten ≠ [] := by
  match chain, hlen with
  | e :: f :: rest, _ => simp [renderSelected]

/-- When every entry is finished, no entry is on a cycle. -/
theorem Searching.acyclic {s : CycleSearch} (hs : Searching entries none s)
    (hstack : s.stack = []) (hseen : ∀ i < entries.length, s.color[i]? ≠ some Color.White) :
    ¬∃ m, Relation.TransGen (Requires entries) m m := by
  intro h
  obtain ⟨m, hm⟩ := h
  obtain ⟨i, j, hi, hj, hij⟩ := transGen_edge hm
  rw [hi] at hj
  cases hj
  have hlt := lt_of_indexByModule hi
  refine Acc.no_cycle (hs.black i ?_) hij
  have hcolor := color_getD s.color (hs.colors.symm ▸ hlt)
  cases hc : s.color.getD i .Black with
  | White =>
    rw [hc] at hcolor
    exact absurd hcolor (hseen i hlt)
  | Gray =>
    rw [hc, hs.gray, hs.path, hstack] at hcolor
    cases hcolor
  | Black =>
    rw [hc] at hcolor
    exact hcolor

/-- **The cycle search is exact.**  The result is empty if and only if the recorded graph has
no cycle, and a non-empty result is the chain of a cycle. -/
theorem findRequireCycle_exact (entries : List BuildListEntry) :
    (findRequireCycle entries = [] ↔ ¬∃ m, Relation.TransGen (Requires entries) m m) ∧
    (findRequireCycle entries ≠ [] → ∃ chain, RequireCycle entries chain ∧
      findRequireCycle entries =
        ((chain.map renderSelected).intersperse " -> ".toList).flatten) := by
  obtain ⟨hok, herror⟩ := visits_spec (List.range entries.length) initialSearch_searching rfl
    initialSearch_work.le fun i hi => List.mem_range.mp hi
  rw [findRequireCycle_eq]
  cases hvisit : (List.range entries.length).foldlM (visit entries)
      (initialSearch entries) with
  | ok s =>
    obtain ⟨hadv, hstack, hseen⟩ := hok s hvisit
    refine ⟨⟨fun _ => ?_, fun _ => rfl⟩, fun h => absurd rfl h⟩
    exact hadv.searching.acyclic hstack fun i hi => hseen i (List.mem_range.mpr hi)
  | error text =>
    obtain ⟨chain, hcycle, htext⟩ := (herror text hvisit).cycle
    have hne : text ≠ [] := htext ▸ rendered_ne_nil hcycle.long
    refine ⟨⟨fun h => absurd h hne, fun h => absurd hcycle.transGen h⟩, fun _ => ?_⟩
    exact ⟨chain, hcycle, htext⟩

end Exact

end Leviathan.Trident
