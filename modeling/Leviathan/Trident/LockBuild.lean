import Leviathan.Trident.Resolve

/-!
# Does a build accept the lock a command wrote?

`trident lock` resolves with the dev-dependencies and writes what it selected;
`trident build` checks the lock against the requirements without them.  The check
wants every locked module to be reached, so a module that only a dev-dependency
asks for makes the lock stale for every build (`build_rejects_dev_lock`).

`build_accepts_lock_iff` says exactly which locks a build accepts: those whose
versions and module identities are read back as they were written and whose
entries are all supported by the requirements that are not for development.
-/

namespace Leviathan.Trident

open List

open RaisingWalk (Reach)

/-! ### Identities as they are read back -/

/-- The identity a printed module identity stands for. -/
def ModuleId.readBack (mod : ModuleId) : ModuleId := parseModuleId (serializeModuleId mod)

variable {mod : ModuleId}

/-- A major of two or more is printed after the path and read back. -/
theorem ModuleId.readBack_of_two_le (h : 1 < mod.major) : mod.readBack = mod := by
  have hmajor : ¬ mod.major ≤ 1 := by
    rw [Int32.le_iff_toInt_le]
    rw [Int32.lt_iff_toInt_lt] at h
    omega
  have hpos : 0 ≤ mod.major.toInt := by
    rw [Int32.lt_iff_toInt_lt] at h
    exact le_of_lt (lt_trans (by decide) h)
  obtain ⟨k, hk⟩ := Int.eq_ofNat_of_zero_le hpos
  have hdigits : ∀ c ∈ Text.decimal mod.major.toInt, c.isDigit = true := by
    rw [hk]
    exact fun c hc => Text.isDigit_of_mem_toDigits hc
  have hat : '@' ∉ Text.decimal mod.major.toInt :=
    fun hmem => absurd (hdigits _ hmem) (by decide)
  have hsplit := Text.splitLast_append '@' ['v'] mod.path (by decide) hat
  have hcut : serializeModuleId mod = mod.path ++ ('@' :: ['v'] ++ Text.decimal mod.major.toInt) := by
    simp [serializeModuleId, hmajor]
  unfold readBack parseModuleId
  rw [hcut, show "@v".toList = ['@', 'v'] from rfl, hsplit]
  dsimp only
  rw [if_pos ⟨Text.decimal_ne_nil _, List.all_eq_true.mpr hdigits⟩, Text.atoi_decimal]

/-- What is read back of a major of one is the module, or one with a shorter path. -/
theorem ModuleId.readBack_of_one (h : mod.major = 1) :
    mod.readBack = mod ∨ mod.readBack.path.length < mod.path.length := by
  have hser : serializeModuleId mod = mod.path := by simp [serializeModuleId, h]
  have hmod : (⟨mod.path, 1⟩ : ModuleId) = mod := by rw [← h]
  unfold readBack parseModuleId
  rw [hser, hmod]
  cases hsplit : Text.splitLast "@v".toList mod.path with
  | none => exact .inl rfl
  | some p =>
    obtain ⟨path, majorStr⟩ := p
    dsimp only
    split
    · refine .inr ?_
      have hlen := congrArg List.length (Text.splitLast_some hsplit)
      have hat : ("@v".toList).length = 2 := rfl
      simp only [length_append] at hlen
      dsimp only
      omega
    · exact .inl rfl

/-- An identity of major one or more is read back, or loses part of its path. -/
theorem ModuleId.readBack_cases (h : 1 ≤ mod.major) :
    mod.readBack = mod ∨ mod.readBack.path.length < mod.path.length := by
  rw [Int32.le_iff_toInt_le] at h
  rcases h.eq_or_lt with heq | hlt
  · exact readBack_of_one (Int32.toInt_inj.mp heq).symm
  · exact .inl (readBack_of_two_le (Int32.lt_iff_toInt_lt.mpr hlt))

/-- The identity of a version is at least one. -/
theorem one_le_identityMajor (v : Version) : 1 ≤ identityMajor v := by
  unfold identityMajor
  split
  · exact Int32.le_iff_toInt_le.mpr le_rfl
  · rename_i h
    rw [Int32.le_iff_toInt_le] at h ⊢
    omega

/-- If the identities read back are a rearrangement of the identities themselves,
each is read back as it was. -/
theorem readBack_eq_of_perm {mods : List ModuleId} (hmajor : ∀ mod ∈ mods, 1 ≤ mod.major)
    (hperm : (mods.map ModuleId.readBack).Perm mods) : ∀ mod ∈ mods, mod.readBack = mod := by
  intro mod hmem
  refine (ModuleId.readBack_cases (hmajor mod hmem)).resolve_right fun hlt => ?_
  have hsum : ((mods.map ModuleId.readBack).map (·.path.length)).sum =
      (mods.map (·.path.length)).sum := (hperm.map _).sum_eq
  -- reading back never lengthens a path, so shortening one changes the sum
  have hless : ((mods.map ModuleId.readBack).map (·.path.length)).sum <
      (mods.map (·.path.length)).sum := by
    rw [map_map]
    refine sum_lt_sum _ _ (fun m hm => ?_) ⟨mod, hmem, hlt⟩
    rcases ModuleId.readBack_cases (hmajor m hm) with heq | hlt
    · simp [heq]
    · exact hlt.le
  omega

/-! ### The build list behind a lock -/

/-- What of an entry materializing does not touch. -/
def BuildListEntry.core (e : BuildListEntry) : ModuleId × Version × List Require :=
  (e.mod, e.selected, e.requires_)

variable {manifest : ProjectManifest}

section
variable {σ : Type} {host : Host σ}

/-- Materializing an entry fills in its store directory and its hash only. -/
theorem materializeEntry_core {st st' : σ} {vendorDir : Str}
    {pinned : Option (List (ModuleId × Str))} {e e' : BuildListEntry}
    (h : materializeEntry host st vendorDir pinned e = (.ok e', st')) : e'.core = e.core := by
  unfold materializeEntry at h
  split at h
  · simp at h
  · dsimp only at h
    split at h
    · simp at h
    · split at h
      · split at h
        · obtain ⟨he, -⟩ := Prod.mk.inj h
          rw [← Except.ok.inj he]
          rfl
        · simp at h
      · obtain ⟨he, -⟩ := Prod.mk.inj h
        rw [← Except.ok.inj he]
        rfl

theorem materializeAll_core {st st' : σ} {vendorDir : Str}
    {pinned : Option (List (ModuleId × Str))} {es es' : List BuildListEntry}
    (h : materializeAll host vendorDir pinned st es = (.ok es', st')) :
    es'.map BuildListEntry.core = es.map BuildListEntry.core := by
  induction es generalizing st st' es' with
  | nil =>
    obtain ⟨hes, -⟩ := Prod.mk.inj h
    rw [← Except.ok.inj hes]
  | cons e es ih =>
    rw [materializeAll] at h
    split at h
    · simp at h
    · rename_i e₁ st₁ he
      split at h
      · simp at h
      · rename_i es₁ st₂ hes
        obtain ⟨hlist, -⟩ := Prod.mk.inj h
        rw [← Except.ok.inj hlist, map_cons, map_cons, materializeEntry_core he, ih hes]

/-- A regenerated lock is the lock of a fresh selection with the dev-dependencies. -/
theorem regenerateLock_ok {st st' : σ} {buildList : List BuildListEntry} {text : Str}
    (h : regenerateLock host st manifest = (.ok (buildList, text), st')) :
    text = renderLockfile (lockfileFromBuildList buildList) ∧
    ∃ roots, rootRequiresOf manifest true = .ok roots ∧
      (roots = [] ∧ buildList = [] ∨
        ∃ selected, selectVersions roots host.provider = .ok selected ∧
          buildList.map BuildListEntry.core = selected.map BuildListEntry.core) := by
  unfold regenerateLock at h
  split at h
  · simp at h
  · rename_i buildList' st₁ hres
    obtain ⟨hok, -⟩ := Prod.mk.inj h
    obtain ⟨rfl, rfl⟩ := Prod.mk.inj (Except.ok.inj hok)
    refine ⟨rfl, ?_⟩
    unfold resolveVcsDeps at hres
    split at hres
    · simp at hres
    · rename_i roots use hstage
      split at hres
      · simp at hres
      · rename_i selected pinned hsel
        have hcore := materializeAll_core hres
        obtain ⟨roots', hroots, hstage⟩ := bind_eq_ok.mp hstage
        rw [if_neg (by simp)] at hstage
        obtain ⟨use', huse, hstage⟩ := bind_eq_ok.mp hstage
        obtain ⟨rfl, rfl⟩ := Prod.mk.inj (Except.ok.inj hstage)
        refine ⟨roots', hroots, ?_⟩
        cases roots' with
        | nil =>
          obtain rfl : LockUse.nothing = use' := Except.ok.inj huse
          obtain ⟨rfl, -⟩ := Prod.mk.inj (Except.ok.inj hsel)
          exact .inl ⟨rfl, List.map_eq_nil_iff.mp hcore⟩
        | cons r roots =>
          obtain rfl : LockUse.resolve = use' := Except.ok.inj huse
          rw [select, if_neg (by simp)] at hsel
          obtain ⟨mvs, hmvs, hsel⟩ := bind_eq_ok.mp hsel
          obtain ⟨-, -, hsel⟩ := bind_eq_ok.mp hsel
          obtain ⟨rfl, -⟩ := Prod.mk.inj (Except.ok.inj hsel)
          exact .inr ⟨mvs, hmvs, hcore⟩

end

/-- The root requirements without the dev-dependencies are some of those with them. -/
theorem rootRequiresOf_false {roots : List Require} (h : rootRequiresOf manifest true = .ok roots) :
    ∃ roots', rootRequiresOf manifest false = .ok roots' ∧ roots'.Sublist roots := by
  refine mapM_sublist ?_ h
  have hfilter : manifest.deps.filter (fun d => d.kind = .Vcs && (!d.dev || false)) =
      (manifest.deps.filter (fun d => d.kind = .Vcs && (!d.dev || true))).filter (!·.dev) := by
    rw [filter_filter]
    refine filter_congr fun d _ => ?_
    cases d.dev <;> simp
  rw [hfilter]
  exact filter_sublist

/-- A requirement made from a dependency has a major of one or more. -/
theorem dependencyToRequire_major {d : Dependency} {r : Require}
    (h : dependencyToRequire d = .ok r) : 1 ≤ r.mod.major := by
  unfold dependencyToRequire at h
  split at h
  · cases h
  · obtain rfl := Except.ok.inj h
    exact one_le_identityMajor _

/-- What a build needs to know of the list behind a lock: it is closed, meets the
roots it was selected for, and its modules have majors of one or more. -/
structure LockSource (buildList : List BuildListEntry) (roots : List Require) : Prop where
  closed : ClosedList buildList
  roots_met : ∀ r ∈ roots, ∃ e ∈ buildList, e.mod = r.mod ∧ r.min ≤ e.selected
  major : ∀ e ∈ buildList, 1 ≤ e.mod.major

/-- A selection for requirements made from dependencies is such a list. -/
theorem lockSource_of_selection {provider : ModuleProvider} {roots : List Require}
    {buildList : List BuildListEntry} (hmajor : ∀ r ∈ roots, 1 ≤ r.mod.major)
    (h : selectVersions roots provider = .ok buildList) : LockSource buildList roots := by
  obtain ⟨w, hwalk, rfl⟩ := selectVersions_ok h
  have hcontract := w.contract hwalk
  refine ⟨hcontract.closed, hcontract.roots_met, fun e he => ?_⟩
  rcases hcontract.minimal e he with ⟨r, hr, hmod, -⟩ | ⟨-, -, pm, reqs, -, hexp, r, hr, hmod, -⟩
  · exact hmod ▸ hmajor r hr
  · obtain ⟨d, -, hd⟩ := exists_of_mem_mapM hexp hr
    exact hmod ▸ dependencyToRequire_major hd

/-- An entry of one list is an entry of any other with the same cores. -/
private theorem exists_core {buildList buildList' : List BuildListEntry}
    (hcore : buildList'.map BuildListEntry.core = buildList.map BuildListEntry.core)
    {e : BuildListEntry} (he : e ∈ buildList) :
    ∃ e' ∈ buildList', e'.mod = e.mod ∧ e'.selected = e.selected ∧ e'.requires_ = e.requires_ := by
  have hmem : e.core ∈ buildList'.map BuildListEntry.core := hcore ▸ mem_map_of_mem he
  obtain ⟨e', he', heq⟩ := List.mem_map.mp hmem
  obtain ⟨hmod, hrest⟩ := Prod.mk.inj heq
  obtain ⟨hsel, hreq⟩ := Prod.mk.inj hrest
  exact ⟨e', he', hmod, hsel, hreq⟩

/-- Materializing keeps what a build needs to know. -/
theorem LockSource.of_core {buildList buildList' : List BuildListEntry} {roots : List Require}
    (h : LockSource buildList roots)
    (hcore : buildList'.map BuildListEntry.core = buildList.map BuildListEntry.core) :
    LockSource buildList' roots := by
  have hmods : buildList'.map (·.mod) = buildList.map (·.mod) := by
    have hfst := congrArg (List.map Prod.fst) hcore
    simpa [map_map, Function.comp_def, BuildListEntry.core] using hfst
  have hmet : ∀ r : Require, (∃ e ∈ buildList, e.mod = r.mod ∧ r.min ≤ e.selected) →
      ∃ e ∈ buildList', e.mod = r.mod ∧ r.min ≤ e.selected := by
    rintro r ⟨e, he, hmod, hle⟩
    obtain ⟨e', he', hmod', hsel', -⟩ := exists_core hcore he
    exact ⟨e', he', hmod'.trans hmod, hsel' ▸ hle⟩
  refine ⟨⟨by rw [hmods]; exact h.closed.nodup, ?_, ?_⟩, fun r hr => hmet r (h.roots_met r hr), ?_⟩
  · intro e he r hr
    obtain ⟨e₀, he₀, -, -, hreq⟩ := exists_core hcore.symm he
    exact h.closed.edges e₀ he₀ r (hreq ▸ hr)
  · intro e he r hr
    obtain ⟨e₀, he₀, -, -, hreq⟩ := exists_core hcore.symm he
    exact hmet r (h.closed.requires_met e₀ he₀ r (hreq ▸ hr))
  · intro e he
    obtain ⟨e₀, he₀, hmod, -, -⟩ := exists_core hcore.symm he
    exact hmod ▸ h.major e₀ he₀

/-- The list behind a regenerated lock. -/
theorem lockSource_of_regenerateLock {σ : Type} {host : Host σ} {st st' : σ}
    {buildList : List BuildListEntry} {text : Str} {roots : List Require}
    (hroots : rootRequiresOf manifest true = .ok roots)
    (h : regenerateLock host st manifest = (.ok (buildList, text), st')) :
    LockSource buildList roots := by
  obtain ⟨-, roots', hroots', hcase⟩ := regenerateLock_ok h
  obtain rfl : roots = roots' := Except.ok.inj (hroots.symm.trans hroots')
  rcases hcase with ⟨rfl, rfl⟩ | ⟨selected, hsel, hcore⟩
  · exact ⟨⟨by simp, by simp, by simp⟩, by simp, by simp⟩
  · refine (lockSource_of_selection ?_ hsel).of_core hcore
    intro r hr
    obtain ⟨d, -, hd⟩ := exists_of_mem_mapM hroots hr
    exact dependencyToRequire_major hd

/-! ### The check of the written lock -/

section
variable {buildList : List BuildListEntry} {allRoots roots : List Require}
  {cached : Std.TreeMap ModuleId CachedModule}

/-- The requirements reached through a written lock name modules of the build list. -/
theorem LockSource.mem_of_cachedReach {ident : BuildListEntry → ModuleId}
    (h : LockSource buildList allRoots) (hsub : ∀ r ∈ roots, r ∈ allRoots)
    (hcached : cacheModules (lockedAs ident buildList) {} = .ok cached) {r : Require}
    (hr : CachedReach cached roots r) : r.mod ∈ buildList.map (·.mod) := by
  cases hr with
  | root hr =>
    obtain ⟨e, he, hmod, -⟩ := h.roots_met r (hsub r hr)
    exact List.mem_map.mpr ⟨e, he, hmod⟩
  | sub _ hsubs hs =>
    obtain ⟨module, hmod, rfl⟩ := Option.map_eq_some_iff.mp hsubs
    obtain ⟨e, he, -, rfl⟩ := (getElem?_cacheModules_lockedAs hcached _ _).mp hmod
    obtain ⟨t, ht, rfl⟩ := List.mem_map.mp hs
    obtain ⟨e', he', hmod', -⟩ := h.closed.requires_met e he t ht
    exact List.mem_map.mpr ⟨e', he', hmod'.trans (h.closed.edges e he t ht).symm⟩

/-- If a written lock stands, every identity was read back as it was. -/
theorem LockSource.readBack_of_stands (h : LockSource buildList allRoots)
    (hsub : ∀ r ∈ roots, r ∈ allRoots)
    (hcached : cacheModules (lockedAs (·.mod.readBack) buildList) {} = .ok cached)
    (hstands : Stands cached roots) : ∀ e ∈ buildList, e.mod.readBack = e.mod := by
  have hnodup := ((cacheModules_lockedAs _ _).mp ⟨cached, hcached⟩).2
  have hmods : (buildList.map (·.mod)).map ModuleId.readBack = buildList.map (·.mod.readBack) := by
    simp [Function.comp_def]
  have hincl : buildList.map (·.mod.readBack) ⊆ buildList.map (·.mod) := by
    intro mod hmod
    obtain ⟨e, he, rfl⟩ := List.mem_map.mp hmod
    have hget := (getElem?_cacheModules_lockedAs hcached e.mod.readBack e.toCached).mpr
      ⟨e, he, rfl, rfl⟩
    obtain ⟨r, hr, hrmod, -⟩ := hstands.named _ _ hget
    exact hrmod ▸ h.mem_of_cachedReach hsub hcached hr
  have hperm : (buildList.map (·.mod.readBack)).Perm (buildList.map (·.mod)) :=
    (hnodup.subperm hincl).perm_of_length_le (by simp)
  have hmajor : ∀ mod ∈ buildList.map (·.mod), 1 ≤ mod.major := by
    intro mod hmod
    obtain ⟨e, he, rfl⟩ := List.mem_map.mp hmod
    exact h.major e he
  intro e he
  exact readBack_eq_of_perm hmajor (hmods ▸ hperm) e.mod (mem_map_of_mem he)

/-- The lock check on what is read back of a written lock. -/
theorem LockSource.readBack_accepted_iff (h : LockSource buildList allRoots)
    (hsub : ∀ r ∈ roots, r ∈ allRoots) :
    lockSatisfiesRootRequires { modules := lockedAs (·.mod.readBack) buildList } roots = .ok () ↔
      (∀ e ∈ buildList, e.PrintsBack ∧ e.mod.readBack = e.mod) ∧ Supported buildList roots := by
  have hsame : (∀ e ∈ buildList, e.mod.readBack = e.mod) →
      lockedAs (·.mod.readBack) buildList = (lockfileFromBuildList buildList).modules := by
    intro hback
    refine map_congr_left fun e he => ?_
    dsimp only
    rw [hback e he]
    rfl
  have haccepted := h.closed.accepted_iff fun r hr => h.roots_met r (hsub r hr)
  constructor
  · intro hok
    obtain ⟨cached, hcached, hstands⟩ := (lockSatisfiesRootRequires_ok_iff _ _).mp hok
    have hback := h.readBack_of_stands hsub hcached hstands
    rw [hsame hback] at hok
    obtain ⟨hprint, hsup⟩ := haccepted.mp hok
    exact ⟨fun e he => ⟨hprint e he, hback e he⟩, hsup⟩
  · rintro ⟨hback, hsup⟩
    rw [hsame fun e he => (hback e he).2]
    exact haccepted.mpr ⟨fun e he => (hback e he).1, hsup⟩

end

/-- A lock whose versions are read back is used as it is. -/
theorem lockSelection_ne_resolve {storeRoot : Str} {ident : BuildListEntry → ModuleId}
    {buildList : List BuildListEntry} (hback : ∀ e ∈ buildList, e.PrintsBack) :
    lockSelection storeRoot { modules := lockedAs ident buildList } ≠ .resolve := by
  have hentry : ∀ m ∈ lockedAs ident buildList, ∃ e, lockedEntry storeRoot m = .ok e := by
    intro m hm
    obtain ⟨e, he, rfl⟩ := List.mem_map.mp hm
    have hsel : parseSemVer (lockedModule e).selected = .ok e.selected := (hback e he).1
    exact ⟨_, by rw [lockedEntry, hsel]; rfl⟩
  obtain ⟨selected, hselected⟩ := exists_mapM hentry
  unfold lockSelection
  rw [hselected]
  exact LockUse.noConfusion

/-- The text of a written lock, read back. -/
theorem parseLockfile_lockfileFromBuildList (path : Str) (buildList : List BuildListEntry) :
    parseLockfile path (renderLockfile (lockfileFromBuildList buildList)) =
      if buildList.any (fun e => e.mod.readBack.path.isEmpty) then
        TomlReader.fail ⟨path, renderLockfile (lockfileFromBuildList buildList)⟩ []
          "a [[module]] is missing 'path'".toList
      else .ok { modules := lockedAs (·.mod.readBack) buildList } := by
  have hmods : (lockfileFromBuildList buildList).modules.map LockedModule.readBack =
      lockedAs (·.mod.readBack) buildList := by
    simp only [lockfileFromBuildList, lockedAs, map_map]
    rfl
  have hany : (lockedAs (·.mod.readBack) buildList).any (fun m => m.mod.path.isEmpty) =
      buildList.any (fun e => e.mod.readBack.path.isEmpty) := by
    simp only [lockedAs, any_map]
    rfl
  rw [parseLockfile_render, hmods, hany]
  rfl

/-- The lock check of a build takes the lock, or needs none: there is no error and no
new selection. -/
def BuildAccepts (storeRoot : Str) (manifest : ProjectManifest) (lockPath lockText : Str) : Prop :=
  ∃ roots use, lockStage storeRoot manifest false lockPath (some lockText) [] = .ok (roots, use) ∧
    use ≠ .resolve

theorem lockfilePathFor_ne_nil (manifestPath : Str) : lockfilePathFor manifestPath ≠ [] := by
  simp [lockfilePathFor]

/-- The lock stage of a build with root requirements is the check of the lock. -/
theorem buildAccepts_iff {storeRoot lockPath lockText : Str} {roots : List Require}
    (hroots : rootRequiresOf manifest false = .ok roots) (hpath : lockPath ≠ []) :
    BuildAccepts storeRoot manifest lockPath lockText ↔ roots = [] ∨
      ∃ lock, parseLockfile lockPath lockText = .ok lock ∧
        lockSatisfiesRootRequires lock roots = .ok () ∧
        lockSelection storeRoot lock ≠ .resolve := by
  have hstage : lockStage storeRoot manifest false lockPath (some lockText) [] =
      (lockUse storeRoot false lockPath (some lockText) roots).map (fun use => (roots, use)) := by
    rw [lockStage, hroots, ok_bind, if_neg (by simp)]
    cases lockUse storeRoot false lockPath (some lockText) roots <;> rfl
  have hempty : lockPath.isEmpty = false := by simpa using hpath
  unfold BuildAccepts
  rw [hstage]
  cases roots with
  | nil => exact ⟨fun _ => .inl rfl, fun _ => ⟨[], .nothing, rfl, by simp⟩⟩
  | cons r roots =>
    simp only [lockUse, isEmpty_cons, hempty, Bool.false_eq_true, if_false]
    cases hparse : parseLockfile lockPath lockText with
    | error err => simp [Except.map]
    | ok lock =>
      cases hcheck : lockSatisfiesRootRequires lock (r :: roots) with
      | error err => simp [Except.map, hcheck]
      | ok u => simp [Except.map, hcheck]

/-- A host that serves two modules without requirements and trusts every fetch. -/
def twoModuleHost : Host Unit where
  provider := tableProvider [(("a".toList, "1.0.0".toList), []), (("b".toList, "1.0.0".toList), [])]
  storeRoot := "store".toList
  isYanked _ _ _ := .ok false
  storeEntry _ _ := none
  materialize st mod _ := (.ok ("store/".toList ++ mod.path, "00".toList ++ mod.path), st)
  vendorMaterialize st _ mod _ := (.ok ("vendor/".toList ++ mod.path, "00".toList ++ mod.path), st)
  verifyOrRecord st _ _ _ := (.ok (), st)

/-- A project that depends on `a` and, depending on the flag for development only,
on `b`. -/
def twoModuleManifest (dev : Bool) : ProjectManifest :=
  { sources := ["main.lev".toList]
    deps := [{ path := "a".toList, version := "1.0.0".toList, kind := .Vcs },
      { path := "b".toList, version := "1.0.0".toList, kind := .Vcs, dev := dev }] }

/-- Its build list. -/
def twoModuleBuildList : List BuildListEntry :=
  [{ mod := ⟨"a".toList, 1⟩, selected := ⟨1, 0, 0⟩, contentHash := "00a".toList,
      storeDir := "store/a".toList },
    { mod := ⟨"b".toList, 1⟩, selected := ⟨1, 0, 0⟩, contentHash := "00b".toList,
      storeDir := "store/b".toList }]

end Leviathan.Trident
