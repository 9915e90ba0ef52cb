import Leviathan.Trident.Lock
import Leviathan.Trident.MvsWalk

/-!
# The check of a lock against the root requirements

`lockSatisfiesRootRequires` of `resolve.cpp` re-runs selection over the edges the
lock records, without a provider, and accepts the lock if the walk reaches
exactly the locked modules, each at exactly its locked version.
-/

namespace Leviathan.Trident

open List

open RaisingWalk (Covers Reach TopReach Settled Step Walk Sound produced)

/-- `parseRequireEdge`: the text after the last `@` is the version. -/
def parseRequireEdge (text : Str) : Option Require :=
  match Text.splitLast "@".toList text with
  | none => none
  | some (path, version) =>
    match parseSemVer version with
    | .error _ => none
    | .ok v => some { mod := ⟨path, identityMajor v⟩, min := v }

/-- `struct CachedModule`. -/
structure CachedModule where
  selected : Version
  requires_ : List Require
deriving DecidableEq, Repr

/-- The edges of a lock entry; the first bad one is an error. -/
def parseEdges (edges : List Str) : Except Str (List Require) :=
  edges.mapM fun edge =>
    match parseRequireEdge edge with
    | none => .error ("lock has invalid require edge '".toList ++ edge ++ "'".toList)
    | some r => .ok r

/-- One lock entry as a cached module. -/
def cachedModule (m : LockedModule) : Except Str CachedModule :=
  match parseSemVer m.selected with
  | .error _ => .error ("lock has invalid selected version for '".toList ++
      serializeModuleId m.mod ++ "'".toList)
  | .ok selected => (parseEdges m.requires_).map (CachedModule.mk selected)

/-- The modules of a lock by identity; a repeated one is an error. -/
def cacheModules : List LockedModule → Std.TreeMap ModuleId CachedModule →
    Except Str (Std.TreeMap ModuleId CachedModule)
  | [], cached => .ok cached
  | m :: ms, cached => do
    let value ← cachedModule m
    if cached.contains m.mod then
      .error ("lock contains duplicate module '".toList ++ serializeModuleId m.mod ++ "'".toList)
    else cacheModules ms (cached.insert m.mod value)

/-- Whether a requirement raises the minimum of its module. -/
def increased (minimums : Std.TreeMap ModuleId Version) (r : Require) : Bool :=
  match minimums[r.mod]? with
  | none => true
  | some min => 0 < compareSemVer r.min min

/-- The error of a requirement whose module the lock lacks. -/
def missingModule (mod : ModuleId) : Str :=
  "lock is missing required module '".toList ++ serializeModuleId mod ++ "'".toList

/-- The walk over the cached edges; it makes at most `n` rounds. -/
def verifyLoop (cached : Std.TreeMap ModuleId CachedModule) :
    Nat → List Require → Std.TreeMap ModuleId Version → Except Str (Std.TreeMap ModuleId Version)
  | _, [], minimums => .ok minimums
  | 0, _ :: _, minimums => .ok minimums
  | n + 1, r :: queue, minimums =>
    if increased minimums r then
      match cached[r.mod]? with
      | none => .error (missingModule r.mod)
      | some module =>
        verifyLoop cached n (queue ++ module.requires_) (minimums.insert r.mod r.min)
    else verifyLoop cached n queue minimums

/-- The edges of the cached modules. -/
def cachedEdges (cached : Std.TreeMap ModuleId CachedModule) : List Require :=
  cached.toList.flatMap (·.2.requires_)

/-- More rounds than the walk can make: a module is entered at most once for each
requirement that names it, and then queues no more edges than there are. -/
def verifyRounds (cached : Std.TreeMap ModuleId CachedModule) (roots : List Require) : Nat :=
  roots.length + (roots.length + (cachedEdges cached).length) * (cachedEdges cached).length

/-- A minimum that is not the locked selection. -/
def isStale (cached : Std.TreeMap ModuleId CachedModule) (entry : ModuleId × Version) : Bool :=
  match cached[entry.1]? with
  | none => true
  | some module => compareSemVer module.selected entry.2 ≠ 0

/-- `lockSatisfiesRootRequires`. -/
def lockSatisfiesRootRequires (lock : Lockfile) (rootRequires : List Require) : Except Str Unit := do
  let cached ← cacheModules lock.modules {}
  let minimums ← verifyLoop cached (verifyRounds cached rootRequires) rootRequires {}
  if minimums.size ≠ cached.size then
    .error "lock contains modules no longer reachable from the manifest".toList
  else match minimums.toList.find? (isStale cached) with
    | some entry => .error ("lock selection for '".toList ++ serializeModuleId entry.1 ++
        "' is not the current MVS minimum".toList)
    | none => .ok ()

/-! ### The walk over the cached edges -/

/-- The edges recorded for a module, whatever the version. -/
def edgesOf (cached : Std.TreeMap ModuleId CachedModule) (mod : ModuleId) (_ : Version) :
    Option (List Require) :=
  (cached[mod]?).map (·.requires_)

variable {cached : Std.TreeMap ModuleId CachedModule}

/-- The minimums as the held values of the walk. -/
def minimumOf (minimums : Std.TreeMap ModuleId Version) (mod : ModuleId) : Option Version :=
  minimums[mod]?

theorem minimumOf_insert (minimums : Std.TreeMap ModuleId Version) (mod : ModuleId) (v : Version) :
    minimumOf (minimums.insert mod v) = Function.update (minimumOf minimums) mod (some v) := by
  funext k
  by_cases hk : k = mod
  · subst hk
    simp [minimumOf]
  · have hne : compare mod k ≠ .eq := fun h => hk (compare_eq_iff_eq.mp h).symm
    simp [minimumOf, Std.TreeMap.getElem?_insert, hne, hk]

/-- The loop enters a module exactly when its requirement is not met yet. -/
theorem increased_iff (minimums : Std.TreeMap ModuleId Version) (r : Require) :
    increased minimums r = true ↔ ¬ Covers Require.mod Require.min (minimumOf minimums) r := by
  unfold increased Covers minimumOf
  cases minimums[r.mod]? with
  | none => simp
  | some v => simp [compareSemVer_pos_iff]

/-- The loop is a run of the walk: to the end, to a module the lock lacks, or for
as many rounds as it was given. -/
theorem verifyLoop_walk (n s : Nat) (queue : List Require)
    (minimums : Std.TreeMap ModuleId Version) (log : List (ModuleId × Version)) :
    ∃ minimums' queue' log' s',
      Walk Require.mod Require.min (edgesOf cached) ⟨minimumOf minimums, queue, log, s⟩
        ⟨minimumOf minimums', queue', log', s'⟩ ∧
      (queue' = [] ∧ verifyLoop cached n queue minimums = .ok minimums' ∨
        (∃ r ∈ queue', cached[r.mod]? = none ∧
          verifyLoop cached n queue minimums = .error (missingModule r.mod)) ∨
        queue' ≠ [] ∧ s' = s + n) := by
  induction n generalizing s queue minimums log with
  | zero =>
    cases queue with
    | nil => exact ⟨minimums, [], log, s, .refl, .inl ⟨rfl, rfl⟩⟩
    | cons r queue => exact ⟨minimums, r :: queue, log, s, .refl, .inr (.inr ⟨by simp, rfl⟩)⟩
  | succ n ih =>
    cases queue with
    | nil => exact ⟨minimums, [], log, s, .refl, .inl ⟨rfl, rfl⟩⟩
    | cons r queue =>
      by_cases hinc : increased minimums r = true
      · have hnew := (increased_iff minimums r).mp hinc
        cases hmod : cached[r.mod]? with
        | none =>
          refine ⟨minimums, r :: queue, log, s, .refl, .inr (.inl ⟨r, by simp, hmod, ?_⟩)⟩
          rw [verifyLoop, if_pos hinc, hmod]
        | some module =>
          obtain ⟨minimums', queue', log', s', hwalk, hend⟩ :=
            ih (s + 1) (queue ++ module.requires_) (minimums.insert r.mod r.min)
              (log ++ [(r.mod, r.min)])
          have hstep : Step Require.mod Require.min (edgesOf cached)
              ⟨minimumOf minimums, r :: queue, log, s⟩
              ⟨minimumOf (minimums.insert r.mod r.min), queue ++ module.requires_,
                log ++ [(r.mod, r.min)], s + 1⟩ := by
            rw [minimumOf_insert]
            exact Step.raise hnew (by simp [edgesOf, hmod])
          refine ⟨minimums', queue', log', s', .head hstep hwalk, ?_⟩
          rw [verifyLoop, if_pos hinc, hmod]
          exact hend.imp id (Or.imp id fun ⟨hne, hs⟩ => ⟨hne, by omega⟩)
      · have hcov : Covers Require.mod Require.min (minimumOf minimums) r := by
          by_contra hcov
          exact hinc ((increased_iff minimums r).mpr hcov)
        obtain ⟨minimums', queue', log', s', hwalk, hend⟩ := ih (s + 1) queue minimums log
        refine ⟨minimums', queue', log', s', .head (Step.keep hcov) hwalk, ?_⟩
        rw [verifyLoop, if_neg hinc]
        exact hend.imp id (Or.imp id fun ⟨hne, hs⟩ => ⟨hne, by omega⟩)

/-- A requirement reached through the cached edges. -/
abbrev CachedReach (cached : Std.TreeMap ModuleId CachedModule) (roots : List Require) :
    Require → Prop :=
  Reach Require.mod Require.min (edgesOf cached) roots

/-- Every reachable requirement is a root or an edge. -/
theorem mem_of_cachedReach {roots : List Require} {r : Require} (h : CachedReach cached roots r) :
    r ∈ roots ++ cachedEdges cached := by
  cases h with
  | root hr => exact mem_append_left _ hr
  | @sub t _ subs _ hsubs hr =>
    obtain ⟨module, hmod, rfl⟩ := Option.map_eq_some_iff.mp hsubs
    refine mem_append_right _ (List.mem_flatMap.mpr ⟨(t.mod, module), ?_, hr⟩)
    exact Std.TreeMap.mem_toList_iff_getElem?_eq_some.mpr hmod

/-- No module records more edges than there are. -/
theorem length_edgesOf_le (mod : ModuleId) (v : Version) :
    ((edgesOf cached mod v).getD []).length ≤ (cachedEdges cached).length := by
  unfold edgesOf
  cases hmod : cached[mod]? with
  | none => simp
  | some module =>
    have hmem := Std.TreeMap.mem_toList_iff_getElem?_eq_some.mpr hmod
    have hsub : module.requires_.Sublist (cachedEdges cached) := by
      obtain ⟨before, after, hcut⟩ := append_of_mem hmem
      rw [cachedEdges, hcut, flatMap_append, flatMap_cons]
      exact (sublist_append_left _ _).trans (sublist_append_right _ _)
    exact hsub.length_le

/-- The rounds the check allows are never used up. -/
theorem steps_lt_verifyRounds {roots : List Require}
    {s : RaisingWalk.State ModuleId Version Require}
    (h : Sound Require.mod Require.min (edgesOf cached) roots s) (hq : s.queue ≠ []) :
    s.steps < verifyRounds cached roots := by
  have hnodes : ∀ r, Reach Require.mod Require.min (edgesOf cached) roots r →
      (r.mod, r.min) ∈ (roots ++ cachedEdges cached).map (fun r => (r.mod, r.min)) :=
    fun r hr => mem_map_of_mem (mem_of_cachedReach hr)
  have hlt := h.steps_lt hq hnodes
  have hle : produced (edgesOf cached)
      ((roots ++ cachedEdges cached).map (fun r => (r.mod, r.min))) ≤
      (roots.length + (cachedEdges cached).length) * (cachedEdges cached).length := by
    refine (sum_le_card_nsmul _ (cachedEdges cached).length ?_).trans ?_
    · intro k hk
      obtain ⟨kv, -, rfl⟩ := List.mem_map.mp hk
      exact length_edgesOf_le kv.1 kv.2
    · simp
  unfold verifyRounds
  omega

/-- What the walk over the cached edges computes: it fails exactly when it reaches
a module the lock lacks, and else ends with the highest reachable minimums. -/
theorem verifyLoop_spec (roots : List Require) :
    (∃ minimums, verifyLoop cached (verifyRounds cached roots) roots {} = .ok minimums ∧
      (∀ r, CachedReach cached roots r → Covers Require.mod Require.min (minimumOf minimums) r) ∧
      (∀ mod v, minimums[mod]? = some v →
        (cached[mod]?).isSome ∧ ∃ r, CachedReach cached roots r ∧ r.mod = mod ∧ r.min = v)) ∨
    (∃ r, CachedReach cached roots r ∧ cached[r.mod]? = none ∧
      verifyLoop cached (verifyRounds cached roots) roots {} = .error (missingModule r.mod)) := by
  obtain ⟨minimums, queue, log, s, hwalk, hend⟩ :=
    @verifyLoop_walk cached (verifyRounds cached roots) 0 roots {} []
  have hstart : (⟨minimumOf {}, roots, [], 0⟩ : RaisingWalk.State ModuleId Version Require) =
      RaisingWalk.start roots := by
    have hnone : minimumOf {} = fun _ => none := by
      funext mod
      simp [minimumOf]
    rw [hnone]
    rfl
  rw [hstart] at hwalk
  have hs := Sound.of_walk hwalk
  rcases hend with ⟨rfl, hok⟩ | ⟨r, hr, hnone, herr⟩ | ⟨hne, hsteps⟩
  · refine .inl ⟨minimums, hok, fun r hr => hs.covers_reach_const rfl (fun _ _ _ => rfl) hr, ?_⟩
    intro mod v hv
    have hlog := hs.held_logged mod v hv
    obtain ⟨subs, hsubs, -⟩ := hs.subs_met _ hlog
    obtain ⟨module, hmod, -⟩ := Option.map_eq_some_iff.mp hsubs
    exact ⟨by rw [hmod]; rfl, hs.held_reach hv⟩
  · exact .inr ⟨r, (hs.queue_met r hr).reach, hnone, herr⟩
  · have hlt := steps_lt_verifyRounds hs hne
    dsimp only at hlt
    omega

/-- A lock stands over its cached edges: the requirements reachable from the roots
name exactly the locked modules, none above its locked version, and each locked
version is the one some of them names. -/
structure Stands (cached : Std.TreeMap ModuleId CachedModule) (roots : List Require) : Prop where
  met : ∀ r, CachedReach cached roots r →
    ∃ module, cached[r.mod]? = some module ∧ r.min ≤ module.selected
  named : ∀ mod module, cached[mod]? = some module →
    ∃ r, CachedReach cached roots r ∧ r.mod = mod ∧ r.min = module.selected

/-- A map whose keys all occur in a second map of the same size has all of that
map's keys. -/
theorem mem_of_size_eq {α β : Type} {m : Std.TreeMap ModuleId α} {m' : Std.TreeMap ModuleId β}
    (hsub : ∀ k ∈ m, k ∈ m') (hsize : m.size = m'.size) {k : ModuleId} (hk : k ∈ m') : k ∈ m := by
  have hkeys : m.keys ⊆ m'.keys := fun k hk =>
    Std.TreeMap.mem_keys.mpr (hsub k (Std.TreeMap.mem_keys.mp hk))
  have hperm : m.keys.Perm m'.keys :=
    (Std.TreeMap.nodup_keys.subperm hkeys).perm_of_length_le
      (by rw [Std.TreeMap.length_keys, Std.TreeMap.length_keys, hsize])
  exact Std.TreeMap.mem_keys.mp (hperm.mem_iff.mpr (Std.TreeMap.mem_keys.mpr hk))

/-- Maps with the same keys have the same size. -/
theorem size_eq_of_mem_iff {α β : Type} {m : Std.TreeMap ModuleId α} {m' : Std.TreeMap ModuleId β}
    (h : ∀ k, k ∈ m ↔ k ∈ m') : m.size = m'.size := by
  have hperm : m.keys.Perm m'.keys :=
    (perm_ext_iff_of_nodup Std.TreeMap.nodup_keys Std.TreeMap.nodup_keys).mpr (by
      intro k
      rw [Std.TreeMap.mem_keys, Std.TreeMap.mem_keys, h k])
  rw [← Std.TreeMap.length_keys, ← Std.TreeMap.length_keys, hperm.length_eq]

/-- A module is locked at exactly this version. -/
def LockedAt (cached : Std.TreeMap ModuleId CachedModule) (mod : ModuleId) (v : Version) : Prop :=
  ∃ module : CachedModule, cached[mod]? = some module ∧ module.selected = v

theorem isStale_eq_false {mod : ModuleId} {v : Version} :
    isStale cached (mod, v) = false ↔ LockedAt cached mod v := by
  unfold isStale LockedAt
  cases cached[mod]? with
  | none => simp
  | some module => simp [compareSemVer_eq_zero_iff]

/-- No entry of the minimums is stale exactly when every minimum is locked. -/
theorem find?_isStale_eq_none {minimums : Std.TreeMap ModuleId Version} :
    minimums.toList.find? (isStale cached) = none ↔
      ∀ (mod : ModuleId) (v : Version), minimums[mod]? = some v → LockedAt cached mod v := by
  rw [find?_eq_none]
  constructor
  · intro h mod v hv
    have hfalse := h (mod, v) (Std.TreeMap.mem_toList_iff_getElem?_eq_some.mpr hv)
    exact isStale_eq_false.mp (Bool.not_eq_true _ ▸ hfalse)
  · rintro h ⟨mod, v⟩ hmem
    have hfalse := isStale_eq_false.mpr (h mod v (Std.TreeMap.mem_toList_iff_getElem?_eq_some.mp hmem))
    simp [hfalse]

/-- **What the lock check checks.**  A lock is accepted exactly when it can be cached
and stands over its cached edges. -/
theorem lockSatisfiesRootRequires_ok_iff (lock : Lockfile) (roots : List Require) :
    lockSatisfiesRootRequires lock roots = .ok () ↔
      ∃ cached, cacheModules lock.modules {} = .ok cached ∧ Stands cached roots := by
  constructor
  · intro h
    obtain ⟨cached, hcached, h⟩ := bind_eq_ok.mp h
    obtain ⟨minimums, hmin, h⟩ := bind_eq_ok.mp h
    refine ⟨cached, hcached, ?_⟩
    rcases @verifyLoop_spec cached roots with ⟨minimums', hmin', hcov, hheld⟩ | ⟨r, -, -, herr⟩
    · obtain rfl : minimums' = minimums := Except.ok.inj (hmin'.symm.trans hmin)
      split at h
      · cases h
      · rename_i hsize
        split at h
        · cases h
        · rename_i hfind
          have hlocked := find?_isStale_eq_none.mp hfind
          refine ⟨?_, ?_⟩
          · intro r hr
            obtain ⟨v, hv, hle⟩ := hcov r hr
            obtain ⟨module, hmod, rfl⟩ := hlocked r.mod v hv
            exact ⟨module, hmod, hle⟩
          · intro mod module hmod
            have hmem : mod ∈ minimums' := by
              refine mem_of_size_eq ?_ (not_not.mp hsize)
                (Std.TreeMap.mem_iff_isSome_getElem?.mpr (by rw [hmod]; rfl))
              intro k hk
              obtain ⟨v, hv⟩ := Option.isSome_iff_exists.mp (Std.TreeMap.mem_iff_isSome_getElem?.mp hk)
              exact Std.TreeMap.mem_iff_isSome_getElem?.mpr (hheld k v hv).1
            obtain ⟨v, hv⟩ := Option.isSome_iff_exists.mp (Std.TreeMap.mem_iff_isSome_getElem?.mp hmem)
            obtain ⟨module', hmod', hsel⟩ := hlocked mod v hv
            obtain rfl : module' = module := Option.some.inj (hmod'.symm.trans hmod)
            obtain ⟨r, hr, hrmod, hrmin⟩ := (hheld mod v hv).2
            exact ⟨r, hr, hrmod, hrmin.trans hsel.symm⟩
    · rw [hmin] at herr
      cases herr
  · rintro ⟨cached, hcached, hstands⟩
    rcases @verifyLoop_spec cached roots with ⟨minimums, hmin, hcov, hheld⟩ | ⟨r, hr, hnone, -⟩
    · have hkeys : ∀ k, k ∈ minimums ↔ k ∈ cached := by
        intro k
        rw [Std.TreeMap.mem_iff_isSome_getElem?, Std.TreeMap.mem_iff_isSome_getElem?]
        constructor
        · intro hk
          obtain ⟨v, hv⟩ := Option.isSome_iff_exists.mp hk
          exact (hheld k v hv).1
        · intro hk
          obtain ⟨module, hmod⟩ := Option.isSome_iff_exists.mp hk
          obtain ⟨r, hr, rfl, -⟩ := hstands.named k module hmod
          obtain ⟨v, hv, -⟩ := hcov r hr
          rw [show minimums[r.mod]? = some v from hv]
          rfl
      have hlocked : ∀ (mod : ModuleId) (v : Version), minimums[mod]? = some v →
          LockedAt cached mod v := by
        intro mod v hv
        obtain ⟨r, hr, rfl, rfl⟩ := (hheld mod v hv).2
        obtain ⟨module, hmod, hle⟩ := hstands.met r hr
        obtain ⟨r', hr', hmod', hmin'⟩ := hstands.named r.mod module hmod
        obtain ⟨w, hw, hle'⟩ := hcov r' hr'
        obtain rfl : r.min = w := Option.some.inj (hv.symm.trans (hmod' ▸ hw))
        exact ⟨module, hmod, le_antisymm (hmin' ▸ hle') hle⟩
      rw [lockSatisfiesRootRequires, hcached, ok_bind, hmin, ok_bind,
        if_neg (not_not_intro (size_eq_of_mem_iff hkeys)), find?_isStale_eq_none.mpr hlocked]
    · obtain ⟨module, hmod, -⟩ := hstands.met r hr
      rw [hnone] at hmod
      cases hmod

/-! ### The lock of a build list -/

/-- A requirement as a lock edge records it. -/
def Require.edge (r : Require) : Require := { mod := ⟨r.mod.path, identityMajor r.min⟩, min := r.min }

/-- An edge is read back exactly when its version is. -/
theorem parseRequireEdge_serialize (r : Require) :
    parseRequireEdge (serializeRequireEdge r) = if r.min.PrintsBack then some r.edge else none := by
  have hcut : serializeRequireEdge r = r.mod.path ++ ('@' :: [] ++ formatSemVer r.min) := by
    simp [serializeRequireEdge]
  have hsplit := Text.splitLast_append '@' [] r.mod.path (by simp)
    (at_not_mem_formatSemVer r.min)
  unfold parseRequireEdge
  rw [hcut, show "@".toList = ['@'] from rfl, hsplit]
  dsimp only
  split
  · rename_i err herr
    rw [if_neg]
    intro hback
    rw [Version.PrintsBack, herr] at hback
    cases hback
  · rename_i v hv
    obtain ⟨rfl, -⟩ := parseSemVer_formatSemVer_ok hv
    rw [if_pos (show r.min.PrintsBack from hv)]
    rfl

/-- The edges of an entry are read back exactly when all their versions are. -/
theorem parseEdges_serialize (reqs edges : List Require) :
    parseEdges (reqs.map serializeRequireEdge) = .ok edges ↔
      (∀ r ∈ reqs, r.min.PrintsBack) ∧ edges = reqs.map Require.edge := by
  unfold parseEdges
  induction reqs generalizing edges with
  | nil => simp [pure, Except.pure, eq_comm]
  | cons r reqs ih =>
    rw [map_cons, mapM_cons, parseRequireEdge_serialize]
    by_cases hr : r.min.PrintsBack
    · rw [if_pos hr]
      simp only [ok_bind, forall_mem_cons, map_cons]
      constructor
      · intro h
        obtain ⟨rest, hrest, h⟩ := bind_eq_ok.mp h
        obtain ⟨hall, rfl⟩ := (ih rest).mp hrest
        exact ⟨⟨hr, hall⟩, (Except.ok.inj h).symm⟩
      · rintro ⟨⟨-, hall⟩, rfl⟩
        exact bind_eq_ok.mpr ⟨_, (ih _).mpr ⟨hall, rfl⟩, rfl⟩
    · simp [hr]

/-- All versions of an entry are read back as they were. -/
def BuildListEntry.PrintsBack (e : BuildListEntry) : Prop :=
  e.selected.PrintsBack ∧ ∀ r ∈ e.requires_, r.min.PrintsBack

/-- An entry as the check caches it. -/
def BuildListEntry.toCached (e : BuildListEntry) : CachedModule :=
  ⟨e.selected, e.requires_.map Require.edge⟩

/-- The lock entry of `e`, stored under any identity, can be cached exactly when its
versions are read back. -/
theorem cachedModule_lockedModule (e : BuildListEntry) (mod : ModuleId) (value : CachedModule) :
    cachedModule { lockedModule e with mod := mod } = .ok value ↔
      e.PrintsBack ∧ value = e.toCached := by
  unfold cachedModule lockedModule BuildListEntry.PrintsBack BuildListEntry.toCached
  dsimp only
  split
  · rename_i err herr
    constructor
    · intro h
      cases h
    · rintro ⟨⟨hback, -⟩, -⟩
      rw [Version.PrintsBack, herr] at hback
      cases hback
  · rename_i v hv
    obtain ⟨rfl, -⟩ := parseSemVer_formatSemVer_ok hv
    constructor
    · intro h
      cases hedges : parseEdges (e.requires_.map serializeRequireEdge) with
      | error err => rw [hedges] at h; cases h
      | ok edges =>
        rw [hedges] at h
        obtain ⟨hall, rfl⟩ := (parseEdges_serialize _ _).mp hedges
        exact ⟨⟨hv, hall⟩, (Except.ok.inj h).symm⟩
    · rintro ⟨⟨-, hall⟩, rfl⟩
      rw [(parseEdges_serialize _ _).mpr ⟨hall, rfl⟩]
      rfl

/-- The entries of a lock are cached one by one, each under a new identity. -/
theorem cacheModules_ok {ms : List LockedModule} {cached₀ cached : Std.TreeMap ModuleId CachedModule}
    (h : cacheModules ms cached₀ = .ok cached) :
    (ms.map (·.mod)).Nodup ∧ (∀ m ∈ ms, m.mod ∉ cached₀) ∧
      (∀ m ∈ ms, ∃ value, cachedModule m = .ok value ∧ cached[m.mod]? = some value) ∧
      ∀ mod, mod ∉ ms.map (·.mod) → cached[mod]? = cached₀[mod]? := by
  induction ms generalizing cached₀ with
  | nil =>
    obtain rfl := Except.ok.inj h
    simp
  | cons m ms ih =>
    rw [cacheModules] at h
    obtain ⟨value, hvalue, h⟩ := bind_eq_ok.mp h
    split at h
    · cases h
    · rename_i hnew
      have hnew' : m.mod ∉ cached₀ := by
        simpa [Std.TreeMap.contains_iff_mem] using hnew
      obtain ⟨hnodup, hfresh, hcached, hother⟩ := ih h
      have hm : m.mod ∉ ms.map (·.mod) := by
        intro hmem
        obtain ⟨m', hm', heq⟩ := List.mem_map.mp hmem
        exact hfresh m' hm' (by rw [heq]; simp)
      refine ⟨List.nodup_cons.mpr ⟨hm, hnodup⟩, ?_, ?_, ?_⟩
      · intro m' hm'
        rcases List.mem_cons.mp hm' with rfl | hm'
        · exact hnew'
        · exact fun hmem => hfresh m' hm' (by simp [hmem])
      · intro m' hm'
        rcases List.mem_cons.mp hm' with rfl | hm'
        · exact ⟨value, hvalue, by rw [hother _ hm]; simp⟩
        · exact hcached m' hm'
      · intro mod hmod
        obtain ⟨hne, hmod⟩ := not_or.mp (fun h => hmod (List.mem_cons.mpr h))
        rw [hother mod hmod, Std.TreeMap.getElem?_insert,
          if_neg (fun heq => hne (compare_eq_iff_eq.mp heq).symm)]

/-- Entries that can each be cached, under different identities, can be cached together. -/
theorem cacheModules_of_nodup {ms : List LockedModule}
    {cached₀ : Std.TreeMap ModuleId CachedModule} (hnodup : (ms.map (·.mod)).Nodup)
    (hfresh : ∀ m ∈ ms, m.mod ∉ cached₀) (hok : ∀ m ∈ ms, ∃ value, cachedModule m = .ok value) :
    ∃ cached, cacheModules ms cached₀ = .ok cached := by
  induction ms generalizing cached₀ with
  | nil => exact ⟨cached₀, rfl⟩
  | cons m ms ih =>
    obtain ⟨value, hvalue⟩ := hok m mem_cons_self
    obtain ⟨hm, hnodup⟩ := List.nodup_cons.mp hnodup
    have hnew : ¬ cached₀.contains m.mod = true := by
      rw [Std.TreeMap.contains_iff_mem]
      exact hfresh m mem_cons_self
    have hfresh' : ∀ m' ∈ ms, m'.mod ∉ cached₀.insert m.mod value := by
      intro m' hm' hmem
      rcases Std.TreeMap.mem_insert.mp hmem with heq | hmem
      · exact hm (List.mem_map.mpr ⟨m', hm', (compare_eq_iff_eq.mp heq).symm⟩)
      · exact hfresh m' (mem_cons_of_mem m hm') hmem
    rw [cacheModules, hvalue, ok_bind, if_neg hnew]
    exact ih hnodup hfresh' fun m' hm' => hok m' (mem_cons_of_mem m hm')

/-- The lock entries of a build list, each stored under the identity `ident` gives it. -/
def lockedAs (ident : BuildListEntry → ModuleId) (buildList : List BuildListEntry) :
    List LockedModule :=
  buildList.map (fun e => { lockedModule e with mod := ident e })

/-- **The cache of a lock**: it can be built exactly when every version is read back
and no identity occurs twice, and then holds each entry under its identity. -/
theorem cacheModules_lockedAs (ident : BuildListEntry → ModuleId)
    (buildList : List BuildListEntry) :
    (∃ cached, cacheModules (lockedAs ident buildList) {} = .ok cached) ↔
      (∀ e ∈ buildList, e.PrintsBack) ∧ (buildList.map ident).Nodup := by
  have hmods : (lockedAs ident buildList).map (·.mod) = buildList.map ident := by
    simp [lockedAs, Function.comp_def]
  constructor
  · rintro ⟨cached, h⟩
    obtain ⟨hnodup, -, hcached, -⟩ := cacheModules_ok h
    refine ⟨fun e he => ?_, hmods ▸ hnodup⟩
    obtain ⟨value, hvalue, -⟩ := hcached _ (mem_map_of_mem he)
    exact ((cachedModule_lockedModule e (ident e) value).mp hvalue).1
  · rintro ⟨hback, hnodup⟩
    refine cacheModules_of_nodup (by rw [hmods]; exact hnodup) (by simp) ?_
    intro m hm
    obtain ⟨e, he, rfl⟩ := List.mem_map.mp hm
    exact ⟨_, (cachedModule_lockedModule e (ident e) _).mpr ⟨hback e he, rfl⟩⟩

/-- The modules of such a cache. -/
theorem getElem?_cacheModules_lockedAs {ident : BuildListEntry → ModuleId}
    {buildList : List BuildListEntry} {cached : Std.TreeMap ModuleId CachedModule}
    (h : cacheModules (lockedAs ident buildList) {} = .ok cached) (mod : ModuleId)
    (value : CachedModule) :
    cached[mod]? = some value ↔ ∃ e ∈ buildList, ident e = mod ∧ e.toCached = value := by
  obtain ⟨-, -, hcached, hother⟩ := cacheModules_ok h
  have hentry : ∀ e ∈ buildList, cached[ident e]? = some e.toCached := by
    intro e he
    obtain ⟨value, hvalue, hget⟩ := hcached _ (mem_map_of_mem he)
    rw [hget, ((cachedModule_lockedModule e (ident e) value).mp hvalue).2]
  constructor
  · intro hget
    by_cases hmod : mod ∈ (lockedAs ident buildList).map (·.mod)
    · obtain ⟨m, hm, rfl⟩ := List.mem_map.mp hmod
      obtain ⟨e, he, rfl⟩ := List.mem_map.mp hm
      exact ⟨e, he, rfl, Option.some.inj ((hentry e he).symm.trans hget)⟩
    · rw [hother mod hmod] at hget
      simp at hget
  · rintro ⟨e, he, rfl, rfl⟩
    exact hentry e he

end Leviathan.Trident
