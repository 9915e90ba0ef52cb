import Leviathan.Trident.Mvs

/-!
# Version selection is a raising walk

The loop of `selectVersions` refines the raising worklist: a module is a key, a
version a value, a requirement a demand, and expanding a module at a version is
reading its manifest there.  `selectLoop_ok` and `selectLoop_error` say so for
the two ways the loop can end, and `Selection.WellFormed` is what its map adds to
the abstract state: each entry sits under its own module and records the
requirements of that module's manifest at the selected version.

`SelectionContract` is what a build list promises, and `Selection.contract` reads
it off the sound final state.
-/

namespace Leviathan.Trident

open RaisingWalk (Covers Step Walk Sound)

variable {provider : ModuleProvider}

/-- The requirements a module's manifest declares at a version, if it can be
read and expanded. -/
def requiresOf (provider : ModuleProvider) (mod : ModuleId) (v : Version) :
    Option (List Require) :=
  (fetchRequires provider mod v).toOption

/-- The selected version of every module of the map. -/
def Selection.selected (w : Selection) (mod : ModuleId) : Option Version :=
  (w.entries[mod]?).map (·.selected)

/-- The abstract state of the loop. -/
def Selection.state (w : Selection) (queue : List Require) (steps : Nat) :
    RaisingWalk.State ModuleId Version Require :=
  ⟨w.selected, queue, w.fetched, steps⟩

/-- Every entry sits under its own module, records that module's requirements at
the selected version, and is not materialized yet. -/
def Selection.WellFormed (provider : ModuleProvider) (w : Selection) : Prop :=
  ∀ mod e, w.entries[mod]? = some e →
    e.mod = mod ∧ fetchRequires provider mod e.selected = .ok e.requires_ ∧
      e.contentHash = [] ∧ e.storeDir = []

variable {subs : List Require}

/-- Reading succeeds exactly when `requiresOf` is defined. -/
theorem requiresOf_eq_some {mod : ModuleId} {v : Version} :
    requiresOf provider mod v = some subs ↔ fetchRequires provider mod v = .ok subs := by
  unfold requiresOf
  cases fetchRequires provider mod v <;> simp [Except.toOption]

/-- A manifest is read and expanded, in this order. -/
theorem fetchRequires_ok {mod : ModuleId} {v : Version} :
    fetchRequires provider mod v = .ok subs ↔
      ∃ pm, provider.manifestOf mod v = .ok pm ∧ expandRequires pm = .ok subs := by
  unfold fetchRequires
  cases provider.manifestOf mod v with
  | error err => simp
  | ok pm =>
    cases h : expandRequires pm with
    | error err => simp [h]
    | ok reqs => simp [h]

/-- The loop fetches exactly the requirements that are not met yet. -/
theorem Selection.needFetch_iff (w : Selection) (r : Require) :
    w.needFetch r = true ↔ ¬ Covers Require.mod Require.min w.selected r := by
  unfold needFetch Covers selected
  cases w.entries[r.mod]? with
  | none => simp
  | some e => simp [compareSemVer_pos_iff]

/-- Raising an entry sets the selected version of its module and no other. -/
theorem Selection.selected_raise (w : Selection) (r : Require) (subs : List Require) :
    (w.raise r subs).selected = Function.update w.selected r.mod (some r.min) := by
  funext mod
  by_cases hmod : mod = r.mod
  · subst hmod
    simp only [selected, raise, Std.TreeMap.getElem?_insert_self, Function.update_self,
      Option.map_some]
    cases w.entries[r.mod]? <;> rfl
  · have hne : compare r.mod mod ≠ .eq := fun h => hmod (compare_eq_iff_eq.mp h).symm
    simp [selected, raise, Std.TreeMap.getElem?_insert, hne, hmod]

variable {w : Selection} {r : Require}

/-- Raising keeps the map well formed. -/
theorem Selection.WellFormed.raise (h : w.WellFormed provider)
    (hsubs : fetchRequires provider r.mod r.min = .ok subs) :
    (w.raise r subs).WellFormed provider := by
  intro mod e he
  by_cases hmod : mod = r.mod
  · subst hmod
    simp only [Selection.raise, Std.TreeMap.getElem?_insert_self, Option.some.injEq] at he
    subst he
    cases hold : w.entries[r.mod]? with
    | none => exact ⟨rfl, hsubs, rfl, rfl⟩
    | some old =>
      obtain ⟨hmod, -, hhash, hdir⟩ := h r.mod old hold
      exact ⟨hmod, hsubs, hhash, hdir⟩
  · have hne : compare r.mod mod ≠ .eq := fun heq => hmod (compare_eq_iff_eq.mp heq).symm
    simp only [Selection.raise, Std.TreeMap.getElem?_insert, hne, if_false] at he
    exact h mod e he

/-- Nothing is selected at the start. -/
theorem Selection.selected_empty : ({} : Selection).selected = fun _ => none := by
  funext mod
  simp [selected]

/-- The start of the loop is the start of the walk. -/
theorem Selection.state_empty (roots : List Require) :
    ({} : Selection).state roots 0 = RaisingWalk.start roots := by
  simp [state, RaisingWalk.start, Selection.selected_empty]

theorem Selection.wellFormed_empty : ({} : Selection).WellFormed provider := by
  intro mod e he
  simp at he

/-- Fetching a requirement is a raising step. -/
theorem Selection.step_raise (hneed : w.needFetch r = true)
    (hsubs : fetchRequires provider r.mod r.min = .ok subs) (queue : List Require) (s : Nat) :
    Step Require.mod Require.min (requiresOf provider) (w.state (r :: queue) s)
      ((w.raise r subs).state (queue ++ subs) (s + 1)) := by
  have hstate : (w.raise r subs).state (queue ++ subs) (s + 1) =
      ⟨Function.update w.selected r.mod (some r.min), queue ++ subs,
        w.fetched ++ [(r.mod, r.min)], s + 1⟩ := by
    rw [Selection.state, Selection.selected_raise]
    rfl
  rw [hstate]
  exact Step.raise ((w.needFetch_iff r).mp hneed) (requiresOf_eq_some.mpr hsubs)

/-- Passing over a requirement is a keeping step. -/
theorem Selection.step_keep (hneed : ¬ w.needFetch r = true) (queue : List Require) (s : Nat) :
    Step Require.mod Require.min (requiresOf provider) (w.state (r :: queue) s)
      (w.state queue (s + 1)) := by
  refine Step.keep ?_
  by_contra hcov
  exact hneed ((w.needFetch_iff r).mpr hcov)

variable {s : Nat}

/-- **The loop, when it succeeds**, is a run of the walk down to an empty queue. -/
theorem selectLoop_ok {n : Nat} {queue : List Require} {w' : Selection} (hw : w.WellFormed provider)
    (h : selectLoop provider n queue w = .ok w') :
    w'.WellFormed provider ∧ ∃ s', Walk Require.mod Require.min (requiresOf provider)
      (w.state queue s) (w'.state [] s') := by
  induction n, queue, w using selectLoop.induct provider generalizing s with
  | case1 n w =>
    have hw' : w = w' := by cases n <;> simpa [selectLoop] using h
    subst hw'
    exact ⟨hw, s, .refl⟩
  | case2 r queue w => simp [selectLoop] at h
  | case3 n r queue w hneed err herr => simp [selectLoop, hneed, herr] at h
  | case4 n r queue w hneed subs hsubs ih =>
    simp only [selectLoop, hneed, if_true, hsubs] at h
    obtain ⟨hw', s', hwalk⟩ := ih (s := s + 1) (hw.raise hsubs) h
    exact ⟨hw', s', .head (Selection.step_raise hneed hsubs queue s) hwalk⟩
  | case5 n r queue w hneed ih =>
    simp only [selectLoop, hneed, if_false, Bool.false_eq_true] at h
    obtain ⟨hw', s', hwalk⟩ := ih (s := s + 1) hw h
    exact ⟨hw', s', .head (Selection.step_keep hneed queue s) hwalk⟩

/-- **The loop, when it fails**, has walked to a requirement whose manifest cannot
be read, or has used up the cap with requirements still queued. -/
theorem selectLoop_error {n : Nat} {queue : List Require} {err : Str}
    (h : selectLoop provider n queue w = .error err) :
    ∃ (w' : Selection) (r : Require) (queue' : List Require) (s' : Nat),
      Walk Require.mod Require.min (requiresOf provider)
        (w.state queue s) (w'.state (r :: queue') s') ∧
      (¬ Covers Require.mod Require.min w'.selected r ∧ requiresOf provider r.mod r.min = none ∨
        s' = s + n) := by
  induction n, queue, w using selectLoop.induct provider generalizing s with
  | case1 n w => cases n <;> simp [selectLoop] at h
  | case2 r queue w => exact ⟨w, r, queue, s, .refl, Or.inr rfl⟩
  | case3 n r queue w hneed e herr =>
    refine ⟨w, r, queue, s, .refl, Or.inl ⟨(w.needFetch_iff r).mp hneed, ?_⟩⟩
    simp [requiresOf, herr, Except.toOption]
  | case4 n r queue w hneed subs hsubs ih =>
    simp only [selectLoop, hneed, if_true, hsubs] at h
    obtain ⟨w', t, queue', s', hwalk, hend⟩ := ih (s := s + 1) h
    exact ⟨w', t, queue', s', .head (Selection.step_raise hneed hsubs queue s) hwalk,
      hend.imp id fun hs => by omega⟩
  | case5 n r queue w hneed ih =>
    simp only [selectLoop, hneed, if_false, Bool.false_eq_true] at h
    obtain ⟨w', t, queue', s', hwalk, hend⟩ := ih (s := s + 1) h
    exact ⟨w', t, queue', s', .head (Selection.step_keep hneed queue s) hwalk,
      hend.imp id fun hs => by omega⟩

variable {roots : List Require}

/-- A finished walk of the resolver is sound, with an empty queue. -/
theorem selectWalk_sound (h : selectWalk provider roots = .ok w) :
    w.WellFormed provider ∧ ∃ s, Sound Require.mod Require.min (requiresOf provider) roots
      (w.state [] s) := by
  obtain ⟨hw, s, hwalk⟩ := selectLoop_ok (s := 0) Selection.wellFormed_empty h
  rw [Selection.state_empty] at hwalk
  exact ⟨hw, s, Sound.of_walk hwalk⟩

/-- The walk behind a successful selection. -/
theorem selectVersions_ok {buildList : List BuildListEntry}
    (h : selectVersions roots provider = .ok buildList) :
    ∃ w, selectWalk provider roots = .ok w ∧ buildList = w.buildList := by
  unfold selectVersions at h
  cases hwalk : selectWalk provider roots with
  | error err => simp [hwalk] at h
  | ok w =>
    simp only [hwalk] at h
    split at h
    · exact ⟨w, rfl, (Except.ok.inj h).symm⟩
    · cases h

/-- The entries of the build list are the entries of the map. -/
theorem Selection.mem_buildList (hw : w.WellFormed provider) (e : BuildListEntry) :
    e ∈ w.buildList ↔ w.entries[e.mod]? = some e := by
  unfold buildList
  constructor
  · intro he
    obtain ⟨⟨mod, e'⟩, hmem, rfl⟩ := List.mem_map.mp he
    have hget := Std.TreeMap.mem_toList_iff_getElem?_eq_some.mp hmem
    rw [(hw mod e' hget).1]
    exact hget
  · intro he
    exact List.mem_map.mpr ⟨(e.mod, e), Std.TreeMap.mem_toList_iff_getElem?_eq_some.mpr he, rfl⟩

/-- A met requirement has an entry at least as high in the build list. -/
theorem Selection.exists_entry (hw : w.WellFormed provider)
    (h : Covers Require.mod Require.min w.selected r) :
    ∃ e ∈ w.buildList, e.mod = r.mod ∧ r.min ≤ e.selected := by
  obtain ⟨v, hv, hle⟩ := h
  obtain ⟨e, he, rfl⟩ := Option.map_eq_some_iff.mp hv
  have hmod : e.mod = r.mod := (hw r.mod e he).1
  refine ⟨e, (w.mem_buildList hw e).mpr (by rw [hmod]; exact he), hmod, hle⟩

/-- The build list is sorted, with one entry for a module. -/
theorem Selection.buildList_sorted (hw : w.WellFormed provider) :
    w.buildList.Pairwise (fun a b => a.mod < b.mod) := by
  unfold buildList
  rw [List.pairwise_map]
  refine (Std.TreeMap.ordered_keys_toList (t := w.entries)).imp_of_mem ?_
  intro a b ha hb hlt
  rw [(hw _ _ (Std.TreeMap.mem_toList_iff_getElem?_eq_some.mp ha)).1,
    (hw _ _ (Std.TreeMap.mem_toList_iff_getElem?_eq_some.mp hb)).1]
  exact compare_lt_iff_lt.mp hlt

/-- An entry's requirements are those of its manifest at the selected version,
which the walk has read. -/
theorem Selection.entry_fetched (hw : w.WellFormed provider)
    (hs : Sound Require.mod Require.min (requiresOf provider) roots (w.state [] s))
    {e : BuildListEntry} (he : e ∈ w.buildList) :
    (e.mod, e.selected) ∈ w.fetched ∧ requiresOf provider e.mod e.selected = some e.requires_ := by
  have hget := (w.mem_buildList hw e).mp he
  refine ⟨hs.held_logged e.mod e.selected ?_, requiresOf_eq_some.mpr (hw e.mod e hget).2.1⟩
  simp [Selection.state, Selection.selected, hget]

/-- The contract of a build list that the walk ending in `w` selected for the
root requirements. -/
structure SelectionContract (provider : ModuleProvider) (roots : List Require) (w : Selection)
    (buildList : List BuildListEntry) : Prop where
  /-- sorted, with one entry for a module -/
  sorted : buildList.Pairwise (fun a b => a.mod < b.mod)
  /-- every root requirement names a listed module, no higher than selected -/
  roots_met : ∀ r ∈ roots, ∃ e ∈ buildList, e.mod = r.mod ∧ r.min ≤ e.selected
  /-- so does every requirement an entry records -/
  requires_met : ∀ e ∈ buildList, ∀ r ∈ e.requires_,
    ∃ e' ∈ buildList, e'.mod = r.mod ∧ r.min ≤ e'.selected
  /-- an entry records what its manifest declares at the selected version -/
  recorded : ∀ e ∈ buildList, ∃ pm, provider.manifestOf e.mod e.selected = .ok pm ∧
    expandRequires pm = .ok e.requires_
  /-- a root, or a manifest the walk read, asks for exactly the selected version -/
  minimal : ∀ e ∈ buildList,
    (∃ r ∈ roots, r.mod = e.mod ∧ r.min = e.selected) ∨
    ∃ visited ∈ w.fetched, ∃ pm reqs,
      provider.manifestOf visited.1 visited.2 = .ok pm ∧ expandRequires pm = .ok reqs ∧
      ∃ r ∈ reqs, r.mod = e.mod ∧ r.min = e.selected

/-- The selected version of an entry is asked for by a root or by a manifest the
walk read. -/
theorem Selection.entry_asked (hw : w.WellFormed provider)
    (hs : Sound Require.mod Require.min (requiresOf provider) roots (w.state [] s))
    {e : BuildListEntry} (he : e ∈ w.buildList) :
    (∃ r ∈ roots, r.mod = e.mod ∧ r.min = e.selected) ∨
    ∃ visited ∈ w.fetched, ∃ pm reqs,
      provider.manifestOf visited.1 visited.2 = .ok pm ∧ expandRequires pm = .ok reqs ∧
      ∃ r ∈ reqs, r.mod = e.mod ∧ r.min = e.selected := by
  obtain ⟨r, hmet, heq⟩ := hs.log_met _ (w.entry_fetched hw hs he).1
  obtain ⟨hmod, hmin⟩ := Prod.mk.inj heq
  cases hmet with
  | root hr => exact Or.inl ⟨r, hr, hmod, hmin⟩
  | @sub t _ reqs _ hvis hreqs hr =>
    obtain ⟨pm, hpm, hexp⟩ := fetchRequires_ok.mp (requiresOf_eq_some.mp hreqs)
    exact Or.inr ⟨(t.mod, t.min), hvis, pm, reqs, hpm, hexp, r, hr, hmod, hmin⟩

/-- A finished walk meets the contract. -/
theorem Selection.contract (h : selectWalk provider roots = .ok w) :
    SelectionContract provider roots w w.buildList := by
  obtain ⟨hw, s, hs⟩ := selectWalk_sound h
  exact
    { sorted := w.buildList_sorted hw
      roots_met := fun r hr => w.exists_entry hw (hs.root_covered rfl hr)
      requires_met := by
        intro e he r hr
        obtain ⟨hmem, hreq⟩ := w.entry_fetched hw hs he
        exact w.exists_entry hw (hs.sub_covered rfl hmem hreq hr)
      recorded := fun e he =>
        fetchRequires_ok.mp (requiresOf_eq_some.mp (w.entry_fetched hw hs he).2)
      minimal := fun e he => w.entry_asked hw hs he }

/-- **Soundness and minimality of selection.**  Whenever `selectVersions`
succeeds, its build list is sorted with one entry for a module; every root
requirement and every requirement recorded in an entry names a listed module at
no more than its selected version; each entry records exactly the requirements
its manifest declares at the selected version; and each selected version is the
minimum of a root requirement or of a requirement in a manifest the walk read. -/
theorem selectVersions_sound_minimal (roots : List Require) (provider : ModuleProvider)
    (buildList : List BuildListEntry) (h : selectVersions roots provider = .ok buildList) :
    ∃ w, selectWalk provider roots = .ok w ∧ SelectionContract provider roots w buildList := by
  obtain ⟨w, hwalk, rfl⟩ := selectVersions_ok h
  exact ⟨w, hwalk, w.contract hwalk⟩

/-- A provider that serves a fixed table of manifests, as the fake one of the
resolver's tests does. -/
def tableProvider (table : List ((Str × Str) × List (Str × Str))) : ModuleProvider where
  manifestOf mod version :=
    match table.find? (fun row => row.1 = (mod.path, formatSemVer version)) with
    | none => .error ("no such version ".toList ++ formatSemVer version ++ " for module '".toList ++
        mod.path ++ "'".toList)
    | some row => .ok { deps := row.2.map (fun dep =>
      { path := dep.1, version := dep.2, kind := .Vcs }) }

/-- The diamond of the resolver's tests: the root asks for `a` at 1.1.0 and for
`b`, which asks for `a` at 1.5.0. -/
def diamondProvider : ModuleProvider :=
  tableProvider [(("a".toList, "1.1.0".toList), []), (("a".toList, "1.5.0".toList), []),
    (("b".toList, "1.0.0".toList), [("a".toList, "1.5.0".toList)])]

/-- The roots of the diamond. -/
def diamondRoots : List Require :=
  [{ mod := ⟨"a".toList, 1⟩, min := ⟨1, 1, 0⟩ }, { mod := ⟨"b".toList, 1⟩, min := ⟨1, 0, 0⟩ }]

/-- The build list of the diamond. -/
def diamondBuildList : List BuildListEntry :=
  [{ mod := ⟨"a".toList, 1⟩, selected := ⟨1, 5, 0⟩ },
    { mod := ⟨"b".toList, 1⟩, selected := ⟨1, 0, 0⟩,
      requires_ := [{ mod := ⟨"a".toList, 1⟩, min := ⟨1, 5, 0⟩ }] }]

theorem selectVersions_diamond :
    selectVersions diamondRoots diamondProvider = .ok diamondBuildList ∧
    ∃ w, selectWalk diamondProvider diamondRoots = .ok w ∧
      SelectionContract diamondProvider diamondRoots w diamondBuildList := by
  have h : selectVersions diamondRoots diamondProvider = .ok diamondBuildList := by
    decide +kernel
  exact ⟨h, selectVersions_sound_minimal diamondRoots diamondProvider diamondBuildList h⟩

end Leviathan.Trident
