import Leviathan.Trident.LockCheck
import Leviathan.Trident.MvsOrder

/-!
# Is a freshly written lock accepted?

The resolver and the lock check are two walks: one over the manifests of a
provider, one over the edges a lock records.  A lock made from a build list
records the requirements of the selected versions only, so the check does not see
what a superseded version asked for.  A fresh lock is therefore rejected when a
module, or the version selected for it, is in the build list only because of a
version that was superseded later (`fresh_lock_rejected`).

`lockfileFromBuildList_accepted` says exactly when a fresh lock is accepted: every
recorded version is printed in a form that is read back, and every entry is named
at exactly its selected version by a requirement that the roots reach through the
requirements of the selected versions.
-/

namespace Leviathan.Trident

open RaisingWalk (Covers Reach TopReach Settled Sound)

variable {provider : ModuleProvider}

/-- The requirements a build list records for a module. -/
def requiresIn (buildList : List BuildListEntry) (mod : ModuleId) (_ : Version) :
    Option (List Require) :=
  (buildList.find? (fun e => e.mod = mod)).map (·.requires_)

/-- A requirement that the roots reach through the selected versions. -/
abbrev SelectedReach (buildList : List BuildListEntry) (roots : List Require) : Require → Prop :=
  Reach Require.mod Require.min (requiresIn buildList) roots

/-- What the lock check relies on in a build list: one entry for a module, edges
that name the module they were made from, and no requirement above the selected
version of its module. -/
structure ClosedList (buildList : List BuildListEntry) : Prop where
  nodup : (buildList.map (·.mod)).Nodup
  edges : ∀ e ∈ buildList, ∀ r ∈ e.requires_, r.edge.mod = r.mod
  requires_met : ∀ e ∈ buildList, ∀ r ∈ e.requires_,
    ∃ e' ∈ buildList, e'.mod = r.mod ∧ r.min ≤ e'.selected

variable {r : Require}

/-- A manifest's requirements name modules by the identity of their versions. -/
theorem expandRequires_edge {pm : ProjectManifest} {reqs : List Require}
    (h : expandRequires pm = .ok reqs) (hr : r ∈ reqs) : r.edge.mod = r.mod := by
  obtain ⟨d, -, hd⟩ := exists_of_mem_mapM h hr
  unfold dependencyToRequire at hd
  split at hd
  · cases hd
  · obtain rfl := Except.ok.inj hd
    rfl

variable {roots : List Require} {w : Selection} {buildList : List BuildListEntry}

/-- A selected build list is closed. -/
theorem SelectionContract.closed (h : SelectionContract provider roots w buildList) :
    ClosedList buildList where
  nodup := List.pairwise_map.mpr (h.sorted.imp fun hlt => hlt.ne)
  edges e he r hr := by
    obtain ⟨pm, -, hexp⟩ := h.recorded e he
    exact expandRequires_edge hexp hr
  requires_met := h.requires_met

/-- The entry of a module is found under it. -/
theorem ClosedList.find?_eq (h : ClosedList buildList) {e : BuildListEntry} (he : e ∈ buildList) :
    buildList.find? (fun e' => e'.mod = e.mod) = some e := by
  cases hfind : buildList.find? (fun e' => e'.mod = e.mod) with
  | none =>
    rw [List.find?_eq_none] at hfind
    exact absurd (decide_eq_true (rfl : e.mod = e.mod)) (hfind e he)
  | some e' =>
    have hmod : e'.mod = e.mod := by simpa using List.find?_some hfind
    rw [List.inj_on_of_nodup_map h.nodup (List.mem_of_find?_eq_some hfind) he hmod]

/-- A module's requirements in a closed list are those of its entry. -/
theorem ClosedList.requiresIn_eq (h : ClosedList buildList) {mod : ModuleId} {v : Version}
    {reqs : List Require} :
    requiresIn buildList mod v = some reqs ↔ ∃ e ∈ buildList, e.mod = mod ∧ e.requires_ = reqs := by
  unfold requiresIn
  rw [Option.map_eq_some_iff]
  constructor
  · rintro ⟨e, hfind, rfl⟩
    exact ⟨e, List.mem_of_find?_eq_some hfind, by simpa using List.find?_some hfind, rfl⟩
  · rintro ⟨e, he, rfl, rfl⟩
    exact ⟨e, h.find?_eq he, rfl⟩

/-- Through the cached edges of the lock the roots reach what they reach through the
build list. -/
theorem ClosedList.cachedReach_iff (h : ClosedList buildList)
    {cached : Std.TreeMap ModuleId CachedModule}
    (hcached : cacheModules (lockedAs (·.mod) buildList) {} = .ok cached) (roots : List Require)
    (mod : ModuleId) (v : Version) :
    (∃ r, CachedReach cached roots r ∧ r.mod = mod ∧ r.min = v) ↔
      ∃ r, SelectedReach buildList roots r ∧ r.mod = mod ∧ r.min = v := by
  have hget := getElem?_cacheModules_lockedAs hcached
  constructor
  · rintro ⟨r, hr, rfl, rfl⟩
    refine hr.simulate ?_
    intro k w subs hsubs
    obtain ⟨module, hmod, rfl⟩ := Option.map_eq_some_iff.mp hsubs
    obtain ⟨e, he, rfl, rfl⟩ := (hget k module).mp hmod
    refine ⟨e.requires_, h.requiresIn_eq.mpr ⟨e, he, rfl, rfl⟩, ?_⟩
    intro t ht
    obtain ⟨t', ht', rfl⟩ := List.mem_map.mp ht
    exact ⟨t', ht', (h.edges e he t' ht').symm, rfl⟩
  · rintro ⟨r, hr, rfl, rfl⟩
    refine hr.simulate ?_
    intro k w subs hsubs
    obtain ⟨e, he, rfl, rfl⟩ := h.requiresIn_eq.mp hsubs
    refine ⟨e.toCached.requires_, ?_, ?_⟩
    · rw [edgesOf, (hget e.mod e.toCached).mpr ⟨e, he, rfl, rfl⟩]
      rfl
    · intro t ht
      exact ⟨t.edge, List.mem_map_of_mem ht, h.edges e he t ht, rfl⟩

/-- Every requirement the roots reach through a closed list is met in it. -/
theorem ClosedList.selectedReach_met (h : ClosedList buildList)
    (hroots : ∀ r ∈ roots, ∃ e ∈ buildList, e.mod = r.mod ∧ r.min ≤ e.selected)
    (hr : SelectedReach buildList roots r) :
    ∃ e ∈ buildList, e.mod = r.mod ∧ r.min ≤ e.selected := by
  cases hr with
  | root hr => exact hroots r hr
  | sub _ hsubs hs =>
    obtain ⟨e, he, -, rfl⟩ := h.requiresIn_eq.mp hsubs
    exact h.requires_met e he r hs

/-- Every entry is named, at exactly its selected version, by a requirement that the
roots reach through the selected versions. -/
def Supported (buildList : List BuildListEntry) (roots : List Require) : Prop :=
  ∀ e ∈ buildList, ∃ r, SelectedReach buildList roots r ∧ r.mod = e.mod ∧ r.min = e.selected

/-- The lock of a closed list that meets the roots stands exactly when every entry is
supported. -/
theorem ClosedList.stands_iff (h : ClosedList buildList)
    (hroots : ∀ r ∈ roots, ∃ e ∈ buildList, e.mod = r.mod ∧ r.min ≤ e.selected)
    {cached : Std.TreeMap ModuleId CachedModule}
    (hcached : cacheModules (lockedAs (·.mod) buildList) {} = .ok cached) :
    Stands cached roots ↔ Supported buildList roots := by
  have hget := getElem?_cacheModules_lockedAs hcached
  constructor
  · intro hstands e he
    have hmod := (hget e.mod e.toCached).mpr ⟨e, he, rfl, rfl⟩
    exact (h.cachedReach_iff hcached roots e.mod e.selected).mp (hstands.named e.mod _ hmod)
  · intro hsup
    refine ⟨?_, ?_⟩
    · intro r hr
      obtain ⟨r', hr', hmod, hmin⟩ :=
        (h.cachedReach_iff hcached roots r.mod r.min).mp ⟨r, hr, rfl, rfl⟩
      obtain ⟨e, he, hemod, hle⟩ := h.selectedReach_met hroots hr'
      exact ⟨e.toCached, (hget r.mod _).mpr ⟨e, he, hemod.trans hmod, rfl⟩, hmin ▸ hle⟩
    · intro mod module hmod
      obtain ⟨e, he, rfl, rfl⟩ := (hget mod module).mp hmod
      exact (h.cachedReach_iff hcached roots e.mod e.selected).mpr (hsup e he)

/-- **When the lock of a closed list is accepted.** -/
theorem ClosedList.accepted_iff (h : ClosedList buildList)
    (hroots : ∀ r ∈ roots, ∃ e ∈ buildList, e.mod = r.mod ∧ r.min ≤ e.selected) :
    lockSatisfiesRootRequires (lockfileFromBuildList buildList) roots = .ok () ↔
      (∀ e ∈ buildList, e.PrintsBack) ∧ Supported buildList roots := by
  have hlocked : (lockfileFromBuildList buildList).modules = lockedAs (·.mod) buildList := rfl
  rw [lockSatisfiesRootRequires_ok_iff, hlocked]
  constructor
  · rintro ⟨cached, hcached, hstands⟩
    exact ⟨((cacheModules_lockedAs _ _).mp ⟨cached, hcached⟩).1,
      (h.stands_iff hroots hcached).mp hstands⟩
  · rintro ⟨hback, hsup⟩
    obtain ⟨cached, hcached⟩ := (cacheModules_lockedAs (·.mod) buildList).mpr ⟨hback, h.nodup⟩
    exact ⟨cached, hcached, (h.stands_iff hroots hcached).mpr hsup⟩

variable {s : Nat}

section
variable (hw : w.WellFormed provider)
  (hs : Sound Require.mod Require.min (requiresOf provider) roots (w.state [] s))
include hw hs

/-- What is reached through highest versions is reached through the selected ones. -/
theorem Selection.selectedReach_of_topReach (hclosed : ClosedList w.buildList)
    (hr : TopReach Require.mod Require.min (requiresOf provider) roots r) :
    SelectedReach w.buildList roots r := by
  induction hr with
  | root hr => exact .root hr
  | @sub r t subs hr htop hsubs ht ih =>
    obtain ⟨e, he, hmod, hle⟩ := w.exists_entry hw (hs.covers_top rfl hr)
    obtain ⟨hfetched, hreq⟩ := w.entry_fetched hw hs he
    obtain ⟨r', hmet, heq⟩ := hs.log_met _ hfetched
    obtain ⟨hmod', hmin'⟩ := Prod.mk.inj heq
    -- the selected version is reachable, so it is the highest one
    have hsel : e.selected = r.min :=
      le_antisymm (hmin' ▸ htop r' hmet.reach (hmod'.trans hmod)) hle
    rw [hmod, hsel, hsubs] at hreq
    exact .sub ih (hclosed.requiresIn_eq.mpr ⟨e, he, hmod, (Option.some.inj hreq).symm⟩) ht

/-- Where superseded versions do not matter, every entry is supported. -/
theorem Selection.supported_of_settled (hclosed : ClosedList w.buildList)
    (hset : Settled Require.mod Require.min (requiresOf provider) roots) :
    Supported w.buildList roots := by
  intro e he
  have hget := (w.mem_buildList hw e).mp he
  have hheld : w.selected e.mod = some e.selected := by simp [Selection.selected, hget]
  obtain ⟨r, hr, hmod, hmin⟩ := hs.held_reach hheld
  obtain ⟨t, ht, htmod, hle⟩ := hset.met r hr
  obtain ⟨v, hv, hle'⟩ := hs.covers_top rfl ht
  obtain rfl : e.selected = v :=
    Option.some.inj (hheld.symm.trans (by rw [← hmod, ← htmod]; exact hv))
  exact ⟨t, Selection.selectedReach_of_topReach hw hs hclosed ht, htmod.trans hmod,
    le_antisymm hle' (hmin ▸ hle)⟩

/-- The versions of an entry are reachable, so they are read back if all reachable
ones are. -/
theorem Selection.entry_printsBack
    (hback : ∀ r, Reach Require.mod Require.min (requiresOf provider) roots r → r.min.PrintsBack)
    {e : BuildListEntry} (he : e ∈ w.buildList) : e.PrintsBack := by
  obtain ⟨hfetched, hreq⟩ := w.entry_fetched hw hs he
  obtain ⟨r, hmet, heq⟩ := hs.log_met _ hfetched
  obtain ⟨hmod, hmin⟩ := Prod.mk.inj heq
  refine ⟨hmin ▸ hback r hmet.reach, fun t ht => hback t (.sub hmet.reach ?_ ht)⟩
  rw [hmod, hmin]
  exact hreq

end

end Leviathan.Trident
