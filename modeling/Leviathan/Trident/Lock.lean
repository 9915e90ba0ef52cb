import Leviathan.Trident.Mvs
import Leviathan.Trident.TomlReader

/-!
# The lockfile

`lock.cpp`: the lock records, for each selected module, its identity, its
version, its content hash and its requirements as text.  `lockfileFromBuildList`
makes the value, `renderLockfile` is the text `writeLockfile` puts on disk, and
`parseLockfile` reads it again.

A string is quoted and read back whatever it contains, so a lock loses at most
what the spelling of a module's identity loses: `parseLockfile_render` says
exactly what is read back, `LockedModule.readBack` for every entry.  A module of
major 1 whose path ends in `@v` and digits is spelled like a higher major of
another module.
-/

namespace Leviathan.Trident

/-- `struct LockedModule`. -/
structure LockedModule where
  mod : ModuleId := ⟨[], 0⟩
  selected : Str := []
  hash : Str := []
  requires_ : List Str := []
deriving DecidableEq, Repr

/-- `struct Lockfile`. -/
structure Lockfile where
  version : Int32 := 1
  modules : List LockedModule := []
deriving DecidableEq, Repr

/-- `serializeRequireEdge`: the full required version after the path. -/
def serializeRequireEdge (r : Require) : Str := r.mod.path ++ "@".toList ++ formatSemVer r.min

/-- `serializeModuleId`. -/
def serializeModuleId (mod : ModuleId) : Str :=
  if mod.major ≤ 1 then mod.path else mod.path ++ "@v".toList ++ Text.decimal mod.major.toInt

/-- `parseModuleId`: digits after the last `@v` are a major. -/
def parseModuleId (text : Str) : ModuleId :=
  match Text.splitLast "@v".toList text with
  | some (path, majorStr) =>
    if majorStr ≠ [] ∧ majorStr.all Char.isDigit then ⟨path, Text.atoi majorStr⟩
    else ⟨text, 1⟩
  | none => ⟨text, 1⟩

/-- The lock entry of a selected module. -/
def lockedModule (e : BuildListEntry) : LockedModule :=
  { mod := e.mod
    selected := formatSemVer e.selected
    hash := "sha256:".toList ++ e.contentHash
    requires_ := e.requires_.map serializeRequireEdge }

/-- `lockfileFromBuildList`. -/
def lockfileFromBuildList (buildList : List BuildListEntry) : Lockfile :=
  { version := 1, modules := buildList.map lockedModule }

/-- One `key = value` line. -/
def lockLine (key value : Str) : Str := key ++ (" = ".toList ++ (value ++ "\n".toList))

/-- One `[[module]]` table. -/
def renderModule (m : LockedModule) : Str :=
  "\n[[module]]\n".toList ++
    (lockLine "path".toList (Text.quote (serializeModuleId m.mod)) ++
    (lockLine "selected".toList (Text.quote m.selected) ++
    (lockLine "hash".toList (Text.quote m.hash) ++
    if m.requires_.isEmpty then []
    else lockLine "requires".toList
      ("[".toList ++ (List.intercalate ", ".toList (m.requires_.map Text.quote) ++ "]".toList)))))

/-- The text `writeLockfile` writes. -/
def renderLockfile (lock : Lockfile) : Str :=
  lockLine "version".toList (Text.decimal lock.version.toInt) ++ lock.modules.flatMap renderModule

/-- The state of `parseLockfile`: the finished modules and the open one. -/
structure LockState where
  version : Int32 := 1
  sawVersion : Bool := false
  done : List LockedModule := []
  cur : Option LockedModule := none

/-- The modules read so far. -/
def LockState.modules (st : LockState) : List LockedModule := st.done ++ st.cur.toList

/-- A `[[module]]` header. -/
def LockState.openModule (st : LockState) : LockState :=
  { st with done := st.modules, cur := some {} }

/-- The value of a key, in the open module or at the top. -/
def LockState.readKey (f : TomlReader) (st : LockState) (key rest : Str) :
    Except Str (LockState × Str) :=
  match st.cur with
  | some m =>
    if key = "path".toList then do
      let (text, rest) ← f.parseString rest
      .ok ({ st with cur := some { m with mod := parseModuleId text } }, rest)
    else if key = "selected".toList then do
      let (text, rest) ← f.parseString rest
      .ok ({ st with cur := some { m with selected := text } }, rest)
    else if key = "hash".toList then do
      let (text, rest) ← f.parseString rest
      .ok ({ st with cur := some { m with hash := text } }, rest)
    else if key = "requires".toList then do
      let (items, rest) ← f.parseStringArray rest
      .ok ({ st with cur := some { m with requires_ := m.requires_ ++ items } }, rest)
    else f.fail rest ("unknown [[module]] field '".toList ++ key ++ "'".toList)
  | none =>
    if key = "version".toList then do
      let (version, rest) ← f.parseInt rest
      .ok ({ st with version := version, sawVersion := true }, rest)
    else f.fail rest ("unknown lockfile field '".toList ++ key ++ "'".toList)

/-- `parseLockfile`. -/
def parseLockfile (path text : Str) : Except Str Lockfile := do
  let f : TomlReader := ⟨path, text⟩
  let st ← f.readItems "module".toList LockState.openModule (LockState.readKey f)
    (text.length + 1) {} text
  if ¬ st.sawVersion then f.fail [] "lockfile is missing 'version'".toList
  else if st.modules.any (fun m => m.mod.path.isEmpty) then
    f.fail [] "a [[module]] is missing 'path'".toList
  else .ok { version := st.version, modules := st.modules }

/-- `lockfilePathFor`: the manifest's name with `.lock` for its extension. -/
def lockfilePathFor (manifestPath : Str) : Str :=
  let (dir, base) := match Text.splitLast "/".toList manifestPath with
    | none => ([], manifestPath)
    | some (before, after) => (before ++ "/".toList, after)
  let stem := match Text.splitLast ".".toList base with
    | none => base
    | some (before, _) => before
  dir ++ stem ++ ".lock".toList

/-! ### What is read back -/

/-- A lock entry after a round trip. -/
def LockedModule.readBack (m : LockedModule) : LockedModule :=
  { m with mod := parseModuleId (serializeModuleId m.mod) }

/-- Reading a value never lengthens the text. -/
theorem LockState.length_readKey_le {f : TomlReader} {st : LockState} {key rest : Str}
    {st' : LockState} {rest' : Str} (h : st.readKey f key rest = .ok (st', rest')) :
    rest'.length ≤ rest.length := by
  have hstring : ∀ {g : Str × Str → LockState × Str}, (∀ p, (g p).2 = p.2) →
      (f.parseString rest >>= fun p => .ok (g p)) = Except.ok (st', rest') →
      rest'.length ≤ rest.length := by
    intro g hsnd hg
    obtain ⟨p, hs, hg⟩ := bind_eq_ok.mp hg
    obtain rfl : p.2 = rest' := (hsnd p).symm.trans (congrArg Prod.snd (Except.ok.inj hg))
    exact (TomlReader.length_parseString hs).le
  unfold readKey at h
  cases hcur : st.cur with
  | some m =>
    simp only [hcur] at h
    split_ifs at h
    · exact hstring (fun _ => rfl) h
    · exact hstring (fun _ => rfl) h
    · exact hstring (fun _ => rfl) h
    · obtain ⟨⟨items, res⟩, hitems, h⟩ := bind_eq_ok.mp h
      obtain ⟨-, rfl⟩ := Prod.mk.inj (Except.ok.inj h)
      exact TomlReader.length_parseStringArray_le hitems
    · cases h
  | none =>
    simp only [hcur] at h
    split_ifs at h
    · obtain ⟨⟨v, res⟩, hv, h⟩ := bind_eq_ok.mp h
      obtain ⟨-, rfl⟩ := Prod.mk.inj (Except.ok.inj h)
      exact TomlReader.length_parseInt_le hv
    · cases h

/-- The text from state `st` on is read to its end in `st'`. -/
abbrev LockReads (f : TomlReader) (st : LockState) (rest : Str) (st' : LockState) : Prop :=
  TomlReader.Reads f "module".toList LockState.openModule (LockState.readKey f) st rest st'

section
variable {f : TomlReader} {st s st' : LockState} {rest : Str}

/-- A printed line whose value is read back. -/
theorem LockReads.line {key value : Str} (hkey : TomlReader.IsIdent key)
    (hvalue : TomlReader.skipWhitespaceAndComments (value ++ '\n' :: rest) = value ++ '\n' :: rest)
    (hread : st.readKey f key (value ++ '\n' :: rest) = .ok (s, '\n' :: rest))
    (h : LockReads f s rest st') : LockReads f st (lockLine key value ++ rest) st' :=
  TomlReader.Reads.line (fun _ _ _ _ _ => LockState.length_readKey_le) hkey hvalue hread h

/-- A printed string line. -/
theorem LockReads.stringLine {key value : Str} (hkey : TomlReader.IsIdent key)
    (hread : st.readKey f key (Text.quote value ++ '\n' :: rest) = .ok (s, '\n' :: rest))
    (h : LockReads f s rest st') : LockReads f st (lockLine key (Text.quote value) ++ rest) st' :=
  .line hkey (TomlReader.skip_quote value _) hread h

/-- The requirements of an open module, if there are any. -/
theorem LockReads.requires {m : LockedModule} (hcur : st.cur = some m) (hreq : m.requires_ = [])
    (edges : List Str)
    (h : LockReads f { st with cur := some { m with requires_ := edges } } rest st') :
    LockReads f st ((if edges.isEmpty then [] else lockLine "requires".toList
      ("[".toList ++ (List.intercalate ", ".toList (edges.map Text.quote) ++ "]".toList))) ++ rest)
      st' := by
  cases edges with
  | nil =>
    have hst : { st with cur := some { m with requires_ := [] } } = st := by
      rw [← hreq, ← hcur]
    rw [hst] at h
    exact h
  | cons edge edges =>
    refine .line (s := { st with cur := some { m with requires_ := edge :: edges } })
      (by decide) (TomlReader.skip_of_cons (by decide) (by decide)) ?_ h
    have harray := TomlReader.parseStringArray_render (f := f) edge edges ('\n' :: rest)
    have htext : ("[".toList ++ (List.intercalate ", ".toList ((edge :: edges).map Text.quote) ++
        "]".toList)) ++ '\n' :: rest =
        '[' :: (List.intercalate ", ".toList ((edge :: edges).map Text.quote) ++
          ']' :: '\n' :: rest) := by
      simp
    rw [htext]
    simp only [LockState.readKey, hcur]
    rw [if_neg (by decide), if_neg (by decide), if_neg (by decide), if_pos trivial, harray,
      ok_bind]
    simp only [hreq, List.nil_append]

/-- A printed header opens a module. -/
theorem LockReads.header (h : LockReads f st.openModule rest st') :
    LockReads f st ("\n[[module]]\n".toList ++ rest) st' := by
  show LockReads f st
    ('\n' :: ("[[".toList ++ ("module".toList ++ ("]]".toList ++ '\n' :: rest)))) st'
  exact TomlReader.Reads.header (fun _ _ _ _ _ => LockState.length_readKey_le) (by decide) h

/-- A printed module is read as one more module. -/
theorem LockReads.module {m : LockedModule}
    (h : LockReads f { st with done := st.modules, cur := some m.readBack } rest st') :
    LockReads f st (renderModule m ++ rest) st' := by
  have hassoc : ∀ a b c d e : Str, (a ++ (b ++ (c ++ (d ++ e)))) ++ rest =
      a ++ (b ++ (c ++ (d ++ (e ++ rest)))) := by simp
  unfold renderModule
  rw [hassoc]
  refine LockReads.header ?_
  refine LockReads.stringLine (by decide) (s := { st with
    done := st.modules, cur := some { mod := parseModuleId (serializeModuleId m.mod) } }) ?_ ?_
  · simp only [LockState.readKey, LockState.openModule]
    rw [if_pos trivial, TomlReader.parseString_quote, ok_bind]
  refine LockReads.stringLine (by decide) (s := { st with
    done := st.modules, cur := some { mod := parseModuleId (serializeModuleId m.mod),
                                      selected := m.selected } }) ?_ ?_
  · simp only [LockState.readKey]
    rw [if_neg (by decide), if_pos trivial, TomlReader.parseString_quote, ok_bind]
  refine LockReads.stringLine (by decide) (s := { st with
    done := st.modules, cur := some { mod := parseModuleId (serializeModuleId m.mod),
                                      selected := m.selected, hash := m.hash } }) ?_ ?_
  · simp only [LockState.readKey]
    rw [if_neg (by decide), if_neg (by decide), if_pos trivial, TomlReader.parseString_quote, ok_bind]
  exact LockReads.requires rfl rfl m.requires_ h

/-- The printed modules are read in order. -/
theorem LockReads.exists_modules (f : TomlReader) (ms : List LockedModule) (st : LockState) :
    ∃ st', LockReads f st (ms.flatMap renderModule) st' ∧ st'.version = st.version ∧
      st'.sawVersion = st.sawVersion ∧
      st'.modules = st.modules ++ ms.map LockedModule.readBack := by
  induction ms generalizing st with
  | nil => exact ⟨st, TomlReader.Reads.nil st, rfl, rfl, by simp⟩
  | cons m ms ih =>
    obtain ⟨st', hreads, hver, hsaw, hmods⟩ :=
      ih { st with done := st.modules, cur := some m.readBack }
    refine ⟨st', ?_, hver, hsaw, ?_⟩
    · rw [List.flatMap_cons]
      exact hreads.module
    · rw [hmods]
      simp [LockState.modules]

/-- The printed lock is read from its first line to its last module. -/
theorem LockReads.exists_lockfile (f : TomlReader) (lock : Lockfile) :
    ∃ st', LockReads f {} (renderLockfile lock) st' ∧ st'.version = lock.version ∧
      st'.sawVersion = true ∧ st'.modules = lock.modules.map LockedModule.readBack := by
  obtain ⟨st', hreads, hver, hsaw, hmods⟩ := LockReads.exists_modules f lock.modules
    { version := lock.version, sawVersion := true }
  refine ⟨st', ?_, hver, hsaw, by simpa [LockState.modules] using hmods⟩
  have hint := TomlReader.parseInt_decimal (f := f) lock.version (lock.modules.flatMap renderModule)
  unfold renderLockfile
  refine LockReads.line (s := { version := lock.version, sawVersion := true }) (by decide)
    (TomlReader.skip_decimal _ _) ?_ hreads
  simp only [LockState.readKey]
  rw [if_pos trivial, hint, ok_bind]

end

/-- **What a lock loses.**  Reading a written lock back gives every entry with the
module its printed identity stands for, and fails if one of these has no path. -/
theorem parseLockfile_render (path : Str) (lock : Lockfile) :
    parseLockfile path (renderLockfile lock) =
      if (lock.modules.map LockedModule.readBack).any (fun m => m.mod.path.isEmpty) then
        TomlReader.fail ⟨path, renderLockfile lock⟩ [] "a [[module]] is missing 'path'".toList
      else .ok { lock with modules := lock.modules.map LockedModule.readBack } := by
  obtain ⟨st', hreads, hver, hsaw, hmods⟩ :=
    LockReads.exists_lockfile ⟨path, renderLockfile lock⟩ lock
  unfold parseLockfile
  dsimp only
  rw [hreads _ (Nat.lt_succ_self _), ok_bind, hmods, hver, hsaw, if_neg (not_not_intro rfl)]

end Leviathan.Trident
