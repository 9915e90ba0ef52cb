import Leviathan.Trident.LockBuild

/-!
# Writing and reading a lock

A lock is three texts one inside the other: the identity of a module, an edge to a
required version, and the quoted strings of the file.  The quoted strings come
back whatever they contain (`parseLockfile_render`), so the codec is exact where
the two inner spellings are: `lockfile_codec` says for which identities, edges and
locks that is.

A module of major one is spelled by its bare path.  If that path itself ends in
`@v` and digits, the spelling is the one of another module's higher major.
-/

namespace Leviathan.Trident

/-- A path that ends in `@v` and digits, as a higher major is spelled. -/
def Suffixed (path : Str) : Prop :=
  ∃ before digits, path = before ++ ("@v".toList ++ digits) ∧ digits ≠ [] ∧
    digits.all Char.isDigit = true

/-- The identities whose spelling stands for them: a major of one or more, and at
major one a path that does not look like a higher major. -/
def ModuleId.Spelled (mod : ModuleId) : Prop :=
  1 ≤ mod.major ∧ (mod.major = 1 → ¬ Suffixed mod.path)

/-- What follows the last `@v` of a text are digits exactly if it ends in `@v` and
digits. -/
theorem suffixed_iff (path : Str) :
    Suffixed path ↔ ∃ before digits, Text.splitLast "@v".toList path = some (before, digits) ∧
      digits ≠ [] ∧ digits.all Char.isDigit = true := by
  constructor
  · intro h
    obtain ⟨before, digits, hpath, hne, hall⟩ := h
    have hat : '@' ∉ digits := by
      intro hmem
      exact absurd (List.all_eq_true.mp hall _ hmem) (by decide)
    have hsplit := Text.splitLast_append '@' ['v'] before (by decide) hat
    refine ⟨before, digits, ?_, hne, hall⟩
    rw [hpath]
    exact hsplit
  · intro h
    obtain ⟨before, digits, hsplit, hne, hall⟩ := h
    refine ⟨before, digits, ?_, hne, hall⟩
    rw [Text.splitLast_some hsplit]

/-- A bare path is read as major one, or as part of a higher major. -/
theorem parseModuleId_path (path : Str) :
    (¬ Suffixed path ∧ parseModuleId path = ⟨path, 1⟩) ∨
      (Suffixed path ∧ (parseModuleId path).path.length < path.length) := by
  by_cases h : Suffixed path
  · right
    obtain ⟨before, digits, hsplit, hne, hall⟩ := (suffixed_iff path).mp h
    have hlen := congrArg List.length (Text.splitLast_some hsplit)
    have htwo : ("@v".toList).length = 2 := rfl
    refine ⟨h, ?_⟩
    unfold parseModuleId
    rw [hsplit]
    dsimp only
    rw [if_pos ⟨hne, hall⟩]
    simp only [List.length_append] at hlen
    dsimp only
    omega
  · left
    refine ⟨h, ?_⟩
    unfold parseModuleId
    cases hsplit : Text.splitLast "@v".toList path with
    | none => rfl
    | some p =>
      obtain ⟨before, digits⟩ := p
      dsimp only
      apply if_neg
      intro hdigits
      exact h ((suffixed_iff path).mpr ⟨before, digits, hsplit, hdigits.1, hdigits.2⟩)

/-- **Identities.**  The spelling of an identity is read back exactly if it stands
for it. -/
theorem ModuleId.readBack_eq_iff (mod : ModuleId) : mod.readBack = mod ↔ mod.Spelled := by
  by_cases hmajor : 1 < mod.major
  · have hone : mod.major ≠ 1 := by
      intro h
      rw [h] at hmajor
      exact absurd hmajor (by decide)
    have hle : 1 ≤ mod.major := by
      rw [Int32.lt_iff_toInt_lt] at hmajor
      rw [Int32.le_iff_toInt_le]
      omega
    exact ⟨fun _ => ⟨hle, fun h => absurd h hone⟩, fun _ => readBack_of_two_le hmajor⟩
  · have hle : mod.major ≤ 1 := by
      rw [Int32.lt_iff_toInt_lt] at hmajor
      rw [Int32.le_iff_toInt_le]
      omega
    have hser : serializeModuleId mod = mod.path := if_pos hle
    unfold readBack Spelled
    rw [hser]
    rcases parseModuleId_path mod.path with ⟨hplain, hparse⟩ | ⟨hsuffixed, hshort⟩
    · rw [hparse]
      constructor
      · intro h
        have hone : mod.major = 1 := (congrArg ModuleId.major h).symm
        exact ⟨by rw [hone]; decide, fun _ => hplain⟩
      · intro h
        have hone : mod.major = 1 := by
          apply Int32.toInt_inj.mp
          have hge := Int32.le_iff_toInt_le.mp h.1
          have hle := Int32.le_iff_toInt_le.mp hle
          omega
        rw [← hone]
    · constructor
      · intro h
        rw [h] at hshort
        omega
      · intro h
        have hone : mod.major = 1 := by
          apply Int32.toInt_inj.mp
          have hge := Int32.le_iff_toInt_le.mp h.1
          have hle := Int32.le_iff_toInt_le.mp hle
          omega
        exact absurd hsuffixed (h.2 hone)

/-- Two identities that are spelled alike and whose spelling stands for them are one. -/
theorem serializeModuleId_injective {mod mod' : ModuleId} (hmod : mod.Spelled)
    (hmod' : mod'.Spelled) (h : serializeModuleId mod = serializeModuleId mod') : mod = mod' :=
  calc mod = mod.readBack := (mod.readBack_eq_iff.mpr hmod).symm
    _ = mod'.readBack := congrArg parseModuleId h
    _ = mod' := mod'.readBack_eq_iff.mpr hmod'

/-! ### Edges -/

/-- The requirements an edge stands for: a version without negative numbers, of the
module whose major is the one of that version. -/
def Require.Spelled (r : Require) : Prop :=
  (0 ≤ r.min.major.toInt ∧ 0 ≤ r.min.minor.toInt ∧ 0 ≤ r.min.patch.toInt) ∧
    r.mod.major = identityMajor r.min

/-- **Edges.**  A written edge is read back exactly if it stands for its
requirement. -/
theorem parseRequireEdge_serialize_iff (r : Require) :
    (parseRequireEdge (serializeRequireEdge r)).map (fun e => (e.mod, e.min)) =
      some (r.mod, r.min) ↔ r.Spelled := by
  rw [parseRequireEdge_serialize]
  by_cases hback : r.min.PrintsBack
  · rw [if_pos hback]
    have hnum := r.min.printsBack_iff.mp hback
    constructor
    · intro h
      have hmod : (⟨r.mod.path, identityMajor r.min⟩ : ModuleId) = r.mod :=
        congrArg Prod.fst (Option.some.inj h)
      exact ⟨hnum, (congrArg ModuleId.major hmod).symm⟩
    · intro h
      have hmod : (⟨r.mod.path, identityMajor r.min⟩ : ModuleId) = r.mod := by
        rw [← h.2]
      exact congrArg (fun mod => some (mod, r.min)) hmod
  · rw [if_neg hback]
    constructor
    · intro h
      cases h
    · intro h
      exact absurd (r.min.printsBack_iff.mpr h.1) hback

/-! ### Locks -/

/-- **Locks.**  A written lock is read back exactly if every module has a path and
an identity that stands for it. -/
theorem parseLockfile_render_iff (path : Str) (lock : Lockfile) :
    parseLockfile path (renderLockfile lock) = .ok lock ↔
      ∀ m ∈ lock.modules, m.mod.path ≠ [] ∧ m.mod.Spelled := by
  have hmodule : ∀ m : LockedModule, m.readBack = m ↔ m.mod.Spelled := by
    intro m
    rw [← ModuleId.readBack_eq_iff]
    exact ⟨fun h => congrArg LockedModule.mod h, fun h => congrArg (fun mod => { m with mod := mod }) h⟩
  rw [parseLockfile_render]
  split
  · next hempty =>
      constructor
      · intro h
        cases h
      · intro h
        obtain ⟨_, hmem, hpath⟩ := List.any_eq_true.mp hempty
        obtain ⟨m, hm, rfl⟩ := List.mem_map.mp hmem
        rw [(hmodule m).mpr (h m hm).2] at hpath
        exact absurd (List.isEmpty_iff.mp hpath) (h m hm).1
  · next hempty =>
      constructor
      · intro h m hm
        have hmods : lock.modules.map LockedModule.readBack = lock.modules :=
          congrArg Lockfile.modules (Except.ok.inj h)
        have hself : m.readBack = m := List.map_inj_left.mp (hmods.trans (List.map_id _).symm) m hm
        refine ⟨?_, (hmodule m).mp hself⟩
        intro hpath
        apply hempty
        refine List.any_eq_true.mpr ⟨m.readBack, List.mem_map_of_mem hm, ?_⟩
        rw [hself, hpath]
        decide
      · intro h
        have hmods : lock.modules.map LockedModule.readBack = lock.modules.map id :=
          List.map_congr_left fun m hm => (hmodule m).mpr (h m hm).2
        rw [hmods, List.map_id]

/-- **The codec of a lock.**  A lock, an identity and an edge are read back as they
were written exactly if they stand for what they spell; so two identities never
share one spelling as long as both stand for theirs. -/
theorem lockfile_codec (path : Str) (lock : Lockfile) (mod : ModuleId) (r : Require) :
    (parseLockfile path (renderLockfile lock) = .ok lock ↔
      ∀ m ∈ lock.modules, m.mod.path ≠ [] ∧ m.mod.Spelled) ∧
    (parseModuleId (serializeModuleId mod) = mod ↔ mod.Spelled) ∧
    ((parseRequireEdge (serializeRequireEdge r)).map (fun e => (e.mod, e.min)) =
      some (r.mod, r.min) ↔ r.Spelled) ∧
    ∀ mod', mod.Spelled → mod'.Spelled → serializeModuleId mod = serializeModuleId mod' →
      mod = mod' :=
  ⟨parseLockfile_render_iff path lock, mod.readBack_eq_iff, parseRequireEdge_serialize_iff r,
    fun _ => serializeModuleId_injective⟩

/-- The lock of the tests, and a requirement of its module. -/
theorem lockfile_codec_widget :
    let mod : ModuleId := ⟨"example.com/widget".toList, 2⟩
    let lock : Lockfile := { modules := [{ mod := mod, selected := "2.1.0".toList }] }
    let r : Require := { mod := mod, min := ⟨2, 0, 0⟩ }
    parseLockfile [] (renderLockfile lock) = .ok lock ∧
      parseModuleId (serializeModuleId mod) = mod ∧
      (parseRequireEdge (serializeRequireEdge r)).map (fun e => (e.mod, e.min)) =
        some (r.mod, r.min) := by
  have hspelled : (⟨"example.com/widget".toList, 2⟩ : ModuleId).Spelled :=
    ⟨by decide, fun h => absurd h (by decide)⟩
  obtain ⟨hlock, hmod, hedge, -⟩ := lockfile_codec []
    { modules := [{ mod := ⟨"example.com/widget".toList, 2⟩, selected := "2.1.0".toList }] }
    ⟨"example.com/widget".toList, 2⟩ { mod := ⟨"example.com/widget".toList, 2⟩, min := ⟨2, 0, 0⟩ }
  refine ⟨hlock.mpr ?_, hmod.mpr hspelled, hedge.mpr ⟨by decide, by decide⟩⟩
  intro m hm
  rw [List.mem_singleton.mp hm]
  exact ⟨by decide, hspelled⟩

/-- A module of major one whose path ends in `@v2` shares its spelling with the
major two of another module, and a lock that names it is read back with that one. -/
theorem suffixed_path_not_read_back :
    let mod : ModuleId := ⟨"example.com/a@v2".toList, 1⟩
    let other : ModuleId := ⟨"example.com/a".toList, 2⟩
    mod ≠ other ∧ serializeModuleId mod = serializeModuleId other ∧
      parseLockfile [] (renderLockfile { modules := [{ mod := mod }] }) =
        .ok { modules := [{ mod := other }] } := by
  refine ⟨by decide, by decide, ?_⟩
  rw [parseLockfile_render]
  decide +kernel

end Leviathan.Trident
