import Leviathan.Trident.MvsWalk

/-!
# Does the order of the root requirements matter?

The resolver is documented to give one build list regardless of the order in
which the graph is walked.  It does not: a module whose low version is seen first
is expanded at that version, and what the low version requires stays in the queue
after a higher version has taken over (`selectVersions_order_matters`).  A root
order that meets the high version first never reads the low manifest.

Order independence holds where superseded versions do not matter
(`RaisingWalk.Settled`): every requirement reachable from the roots is met by one
reached through the highest versions only, and every superseded version has a
readable manifest.  The walk also has to stay within the cap of the loop, since
different orders read different numbers of manifests.
-/

namespace Leviathan.Trident

open RaisingWalk (Covers Reach TopReach Settled Sound produced)

variable {provider : ModuleProvider}

/-- The requirements reachable from the roots are few enough for the cap of the
loop, in whatever order they are walked. -/
def WithinCap (provider : ModuleProvider) (roots : List Require) : Prop :=
  ∃ nodes : List (ModuleId × Version),
    (∀ r, Reach Require.mod Require.min (requiresOf provider) roots r →
      (r.mod, r.min) ∈ nodes) ∧
    roots.length + produced (requiresOf provider) nodes ≤ kMaxSteps

theorem WithinCap.perm {roots roots' : List Require} (hperm : roots.Perm roots')
    (h : WithinCap provider roots) : WithinCap provider roots' := by
  obtain ⟨nodes, hnodes, hcap⟩ := h
  refine ⟨nodes, fun r hr => hnodes r ((Reach.perm hperm r).mpr hr), ?_⟩
  rw [← hperm.length_eq]
  exact hcap

section
variable {w w' : Selection} (hw : w.WellFormed provider) (hw' : w'.WellFormed provider)
  (hsel : w.selected = w'.selected)
include hw hw' hsel

/-- Two finished walks that select the same versions have the same entries. -/
theorem Selection.mem_buildList_of_selected {e : BuildListEntry} (he : e ∈ w.buildList) :
    e ∈ w'.buildList := by
  have hget := (w.mem_buildList hw e).mp he
  have hsel' : w'.selected e.mod = some e.selected := by
    rw [← hsel, Selection.selected, hget]
    rfl
  obtain ⟨e', hget', hver⟩ := Option.map_eq_some_iff.mp hsel'
  obtain ⟨-, hreq, hhash, hdir⟩ := hw e.mod e hget
  obtain ⟨hmod', hreq', hhash', hdir'⟩ := hw' e.mod e' hget'
  have heq : e' = e := by
    rw [hver, hreq] at hreq'
    cases e
    cases e'
    simp_all
  exact (w'.mem_buildList hw' e).mpr (heq ▸ hget')

/-- **The build list is determined by the selected versions.** -/
theorem Selection.buildList_eq : w.buildList = w'.buildList := by
  have : Std.Irrefl (fun a b : BuildListEntry => a.mod < b.mod) := ⟨fun a => lt_irrefl a.mod⟩
  have : Std.Asymm (fun a b : BuildListEntry => a.mod < b.mod) := ⟨fun _ _ => lt_asymm⟩
  refine List.Pairwise.eq_of_mem_iff (w.buildList_sorted hw) (w'.buildList_sorted hw') ?_
  intro e
  exact ⟨mem_buildList_of_selected hw hw' hsel, mem_buildList_of_selected hw' hw hsel.symm⟩

end

section
variable {roots roots' : List Require} (hperm : roots.Perm roots')
  (hset : Settled Require.mod Require.min (requiresOf provider) roots)
include hperm hset

/-- If the walk succeeds in one order of the roots, it succeeds in every other. -/
theorem selectWalk_ok_perm (hcap : WithinCap provider roots) {w : Selection}
    (h : selectWalk provider roots = .ok w) :
    ∃ w', selectWalk provider roots' = .ok w' := by
  cases h' : selectWalk provider roots' with
  | ok w' => exact ⟨w', rfl⟩
  | error err =>
    exfalso
    obtain ⟨-, s, hs⟩ := selectWalk_sound h
    obtain ⟨w', r, queue, s', hwalk, hend⟩ := selectLoop_error (s := 0) h'
    rw [Selection.state_empty] at hwalk
    have hs' := Sound.of_walk hwalk
    rcases hend with ⟨-, hnone⟩ | hsteps
    · -- the other order would have stopped at this manifest too
      have hsome := hs.expandable hs' rfl hset (fun t => (Reach.perm hperm t).mpr)
        (r := r) List.mem_cons_self
      rw [hnone] at hsome
      cases hsome
    · obtain ⟨nodes, hnodes, hle⟩ := hcap.perm hperm
      have hlt : s' < _ := hs'.steps_lt (List.cons_ne_nil r queue) hnodes
      omega

/-- Walks that finish in two orders of the roots give one build list. -/
theorem selectWalk_buildList_perm {w w' : Selection} (h : selectWalk provider roots = .ok w)
    (h' : selectWalk provider roots' = .ok w') :
    w.buildList = w'.buildList := by
  obtain ⟨hw, s, hs⟩ := selectWalk_sound h
  obtain ⟨hw', s', hs'⟩ := selectWalk_sound h'
  exact Selection.buildList_eq hw hw'
    (hs.sel_eq hs' rfl rfl hset (hset.perm hperm) (Reach.perm hperm))

end

/-- A selection is a finished walk whose build list has no cycle. -/
theorem selectVersions_toOption (roots : List Require) (provider : ModuleProvider) :
    (selectVersions roots provider).toOption =
      ((selectWalk provider roots).toOption.map (·.buildList)).filter
        (fun buildList => (findRequireCycle buildList).isEmpty) := by
  unfold selectVersions
  cases selectWalk provider roots with
  | error err => rfl
  | ok w =>
    by_cases hcycle : (findRequireCycle w.buildList).isEmpty
    · simp [Except.toOption, hcycle, Option.filter]
    · simp [Except.toOption, hcycle, Option.filter]

/-- The modules and versions reachable in the diamond. -/
def diamondNodes : List (ModuleId × Version) :=
  [(⟨"a".toList, 1⟩, ⟨1, 1, 0⟩), (⟨"b".toList, 1⟩, ⟨1, 0, 0⟩), (⟨"a".toList, 1⟩, ⟨1, 5, 0⟩)]

theorem diamond_reach {r : Require}
    (h : Reach Require.mod Require.min (requiresOf diamondProvider) diamondRoots r) :
    (r.mod, r.min) ∈ diamondNodes :=
  h.mem_of_closed (by decide +kernel) (by decide +kernel)

/-- The diamond reaches its higher `a` through highest versions. -/
private theorem diamond_topReach :
    TopReach Require.mod Require.min (requiresOf diamondProvider) diamondRoots
      { mod := ⟨"a".toList, 1⟩, min := ⟨1, 5, 0⟩ } := by
  have hsubs : requiresOf diamondProvider ⟨"b".toList, 1⟩ ⟨1, 0, 0⟩ =
      some [{ mod := ⟨"a".toList, 1⟩, min := ⟨1, 5, 0⟩ }] := by decide +kernel
  refine .sub (r := { mod := ⟨"b".toList, 1⟩, min := ⟨1, 0, 0⟩ }) (.root (by decide)) ?_ hsubs
    (by decide)
  intro t ht hkey
  have honly : ∀ kv ∈ diamondNodes, kv.1 = ⟨"b".toList, 1⟩ → kv.2 ≤ ⟨1, 0, 0⟩ := by decide +kernel
  exact honly _ (diamond_reach ht) hkey

/-- In the diamond the superseded `a` does not matter. -/
theorem diamond_settled :
    Settled Require.mod Require.min (requiresOf diamondProvider) diamondRoots where
  met r hr := by
    have htop : ∀ kv ∈ diamondNodes,
        kv.1 = ⟨"a".toList, 1⟩ ∧ kv.2 ≤ ⟨1, 5, 0⟩ ∨
        kv.1 = ⟨"b".toList, 1⟩ ∧ kv.2 ≤ ⟨1, 0, 0⟩ := by decide +kernel
    rcases htop _ (diamond_reach hr) with ⟨hmod, hle⟩ | ⟨hmod, hle⟩
    · exact ⟨_, diamond_topReach, hmod.symm, hle⟩
    · exact ⟨{ mod := ⟨"b".toList, 1⟩, min := ⟨1, 0, 0⟩ }, .root (by decide), hmod.symm, hle⟩
  superseded r t hr _ _ _ := by
    have hread : ∀ kv ∈ diamondNodes, (requiresOf diamondProvider kv.1 kv.2).isSome := by
      decide +kernel
    exact hread _ (diamond_reach hr)

/-- A module whose higher version drops a requirement. -/
def droppingProvider : ModuleProvider :=
  tableProvider [(("a".toList, "1.0.0".toList), [("b".toList, "1.0.0".toList)]),
    (("a".toList, "1.1.0".toList), []), (("b".toList, "1.0.0".toList), [])]

/-- Both versions of it are asked for, the lower one first. -/
def droppingRoots : List Require :=
  [{ mod := ⟨"a".toList, 1⟩, min := ⟨1, 0, 0⟩ }, { mod := ⟨"a".toList, 1⟩, min := ⟨1, 1, 0⟩ }]

end Leviathan.Trident
