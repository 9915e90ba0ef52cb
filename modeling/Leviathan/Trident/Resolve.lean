import Leviathan.Trident.LockFresh

/-!
# Resolving a project's VCS dependencies

`resolveVcsDeps` of `resolve.cpp` and `regenerateLock` of `commands.cpp`.  A
command such as `trident lock` resolves afresh, dev-dependencies included, and
writes the lock; `trident build` and `trident run` leave the dev-dependencies out
and use the lock as it is, if it is there and stands.

The outside world (the provider's fetches, the store, the checksum database) is a
`Host` over a state type of its own; each operation that can change that state
returns the new one.
-/

namespace Leviathan.Trident

/-- What resolution asks of the world outside: manifests, yank marks, store
entries, fetches and checksums. -/
structure Host (σ : Type) where
  provider : ModuleProvider
  storeRoot : Str
  /-- `checksumDbIsYanked` -/
  isYanked : σ → ModuleId → Version → Except Str Bool
  /-- the store directory of a hash, if there is one, and what `verifyStoreEntry` says -/
  storeEntry : σ → Str → Option (Except Str Unit)
  /-- `materialize` of the source provider: store directory and content hash -/
  materialize : σ → ModuleId → Version → Except Str (Str × Str) × σ
  /-- `materialize` of the vendor provider -/
  vendorMaterialize : σ → Str → ModuleId → Version → Except Str (Str × Str) × σ
  /-- `checksumDbVerifyOrRecord` -/
  verifyOrRecord : σ → ModuleId → Version → Str → Except Str Unit × σ

/-- The root requirements of a manifest: its VCS dependencies, without the
dev-dependencies if these are left out. -/
def rootRequiresOf (manifest : ProjectManifest) (includeDevDeps : Bool) :
    Except Str (List Require) :=
  (manifest.deps.filter (fun d => d.kind = .Vcs && (!d.dev || includeDevDeps))).mapM
    dependencyToRequire

/-- How a resolution uses the lock. -/
inductive LockUse where
  /-- there is nothing to resolve -/
  | nothing
  /-- the lock's selection as it is, with the pinned hashes -/
  | verbatim (selected : List BuildListEntry) (pinned : List (ModuleId × Str))
  /-- a new selection -/
  | resolve
deriving DecidableEq

/-- The hint at the end of a lock error. -/
def runLock : Str := " — run `trident lock`".toList

/-- The hash of a lock entry without its scheme. -/
def hexHash (hash : Str) : Str :=
  if "sha256:".toList.isPrefixOf hash then hash.drop 7 else hash

/-- A lock entry as a selected module. -/
def lockedEntry (storeRoot : Str) (m : LockedModule) : Except Str BuildListEntry :=
  (parseSemVer m.selected).map fun selected =>
    { mod := m.mod
      selected := selected
      contentHash := hexHash m.hash
      storeDir := storeRoot ++ "/".toList ++ hexHash m.hash
      requires_ := m.requires_.filterMap parseRequireEdge }

/-- The lock's selection, or none if one of its versions cannot be read. -/
def lockSelection (storeRoot : Str) (lock : Lockfile) : LockUse :=
  match lock.modules.mapM (lockedEntry storeRoot) with
  | .error _ => .resolve
  | .ok selected => .verbatim selected (lock.modules.map fun m => (m.mod, hexHash m.hash))

/-- The use of the lock in `resolveVcsDeps`: `lockPath` is empty for a command that
recomputes the lock, `lockText` is the file's text if it can be read. -/
def lockUse (storeRoot : Str) (includeDevDeps : Bool) (lockPath : Str) (lockText : Option Str)
    (rootRequires : List Require) : Except Str LockUse :=
  if rootRequires.isEmpty then
    match if includeDevDeps && !lockPath.isEmpty then lockText else none with
    | none => .ok .nothing
    | some text =>
      match parseLockfile lockPath text with
      | .error lerr => .error (lerr ++ runLock)
      | .ok lock =>
        if lock.modules.isEmpty then .ok .nothing
        else .error ("trident.lock is stale: the manifest no longer has VCS ".toList ++
          "dependencies".toList ++ runLock)
  else
    match if lockPath.isEmpty then none else lockText with
    | none => .ok .resolve
    | some text =>
      match parseLockfile lockPath text with
      | .error lerr => .error (lerr ++ runLock)
      | .ok lock =>
        match lockSatisfiesRootRequires lock rootRequires with
        | .error lerr => .error ("trident.lock is stale: ".toList ++ lerr ++ runLock)
        | .ok () => .ok (lockSelection storeRoot lock)

/-- The first stage of `resolveVcsDeps`: the root requirements and the use of the
lock for them. -/
def lockStage (storeRoot : Str) (manifest : ProjectManifest) (includeDevDeps : Bool)
    (lockPath : Str) (lockText : Option Str) (vendorDir : Str) :
    Except Str (List Require × LockUse) := do
  let rootRequires ← rootRequiresOf manifest includeDevDeps
  if ¬ rootRequires.isEmpty ∧ ¬ vendorDir.isEmpty ∧ lockPath.isEmpty then
    .error "internal error: vendor mode requires a lock path".toList
  else do
    let use ← lockUse storeRoot includeDevDeps lockPath lockText rootRequires
    .ok (rootRequires, use)

/-- The name of a module at a version, in an error. -/
def atVersion (mod : ModuleId) (v : Version) : Str := mod.path ++ "@".toList ++ formatSemVer v

section
variable {σ : Type} (host : Host σ)

/-- A new selection must not contain a yanked version. -/
def checkYanks (st : σ) : List BuildListEntry → Except Str Unit
  | [] => .ok ()
  | e :: es =>
    match host.isYanked st e.mod e.selected with
    | .error yerr => .error ("cannot check yank policy for ".toList ++ atVersion e.mod e.selected ++
        ": ".toList ++ yerr)
    | .ok true => .error (atVersion e.mod e.selected ++
        " is yanked and cannot be selected by a new resolution; ".toList ++
        "an existing consistent trident.lock may continue to use it ".toList ++
        "(run `trident why ".toList ++ e.mod.path ++ "` to inspect the chain)".toList)
    | .ok false => checkYanks st es

/-- The selection to materialize, with the pinned hashes if it is the lock's. -/
def select (st : σ) (vendorDir : Str) (rootRequires : List Require) :
    LockUse → Except Str (List BuildListEntry × Option (List (ModuleId × Str)))
  | .nothing => .ok ([], none)
  | .verbatim selected pinned =>
    let cycle := findRequireCycle selected
    if cycle.isEmpty then .ok (selected, some pinned)
    else .error ("trident.lock declares a require cycle (".toList ++ cycle ++
      ") — a trident-written lock is always acyclic, so this file was ".toList ++
      "hand-edited or corrupted".toList ++ runLock)
  | .resolve =>
    if ¬ vendorDir.isEmpty then
      .error ("vendor mode requires a valid, up-to-date trident.lock — run `trident ".toList ++
        "lock` (with network) first, then `trident vendor`, then rebuild with ".toList ++
        "--vendor".toList)
    else do
      let buildList ← selectVersions rootRequires host.provider
      checkYanks host st buildList
      .ok (buildList, none)

/-- The hash the lock pins for a module: the last one recorded for it. -/
def pinnedHash (pinned : Option (List (ModuleId × Str))) (mod : ModuleId) : Option Str :=
  pinned.bind fun pins => (pins.reverse.find? (fun p => p.1 = mod)).map (·.2)

/-- Fetch one entry, or find it in the store under its pinned hash. -/
def fetchEntry (st : σ) (vendorDir : Str) (pinned : Option (List (ModuleId × Str)))
    (e : BuildListEntry) : Except Str (Str × Str) × σ :=
  let fetch : Except Str (Str × Str) × σ :=
    let (result, st) := if vendorDir.isEmpty then host.materialize st e.mod e.selected
      else host.vendorMaterialize st vendorDir e.mod e.selected
    match result with
    | .error merr => (.error ("materializing ".toList ++ atVersion e.mod e.selected ++
        ": ".toList ++ merr), st)
    | .ok fetched => (.ok fetched, st)
  match if vendorDir.isEmpty then pinnedHash pinned e.mod else none with
  | none => fetch
  | some hash =>
    match host.storeEntry st hash with
    | none => fetch
    | some (.error merr) => (.error ("verifying cached ".toList ++ atVersion e.mod e.selected ++
        ": ".toList ++ merr), st)
    | some (.ok ()) => (.ok (host.storeRoot ++ "/".toList ++ hash, hash), st)

/-- One round of the materializing loop. -/
def materializeEntry (st : σ) (vendorDir : Str) (pinned : Option (List (ModuleId × Str)))
    (e : BuildListEntry) : Except Str BuildListEntry × σ :=
  match fetchEntry host st vendorDir pinned e with
  | (.error err, st) => (.error err, st)
  | (.ok (storeDir, contentHash), st) =>
    let (verified, st) := if vendorDir.isEmpty then
        host.verifyOrRecord st e.mod e.selected contentHash
      else (.ok (), st)
    match verified with
    | .error cerr => (.error ("checksum verification failed for ".toList ++
        atVersion e.mod e.selected ++ ": ".toList ++ cerr), st)
    | .ok () =>
      match pinnedHash pinned e.mod with
      | some hash =>
        if hash = contentHash then
          (.ok { e with storeDir := storeDir, contentHash := contentHash }, st)
        else (.error ("content for ".toList ++ atVersion e.mod e.selected ++
          " does not match trident.lock (expected sha256:".toList ++ hash ++
          ", got sha256:".toList ++ contentHash ++
          ") — possible tampering; if this is ".toList ++
          "an intentional dependency change, run `trident lock`".toList), st)
      | none => (.ok { e with storeDir := storeDir, contentHash := contentHash }, st)

/-- The materializing loop: the first error ends it. -/
def materializeAll (vendorDir : Str) (pinned : Option (List (ModuleId × Str))) :
    σ → List BuildListEntry → Except Str (List BuildListEntry) × σ
  | st, [] => (.ok [], st)
  | st, e :: es =>
    match materializeEntry host st vendorDir pinned e with
    | (.error err, st) => (.error err, st)
    | (.ok e, st) =>
      match materializeAll vendorDir pinned st es with
      | (.error err, st) => (.error err, st)
      | (.ok es, st) => (.ok (e :: es), st)

/-- `resolveVcsDeps`. -/
def resolveVcsDeps (st : σ) (manifest : ProjectManifest) (includeDevDeps : Bool)
    (lockPath : Str) (lockText : Option Str) (vendorDir : Str) :
    Except Str (List BuildListEntry) × σ :=
  match lockStage host.storeRoot manifest includeDevDeps lockPath lockText vendorDir with
  | .error err => (.error err, st)
  | .ok (rootRequires, use) =>
    match select host st vendorDir rootRequires use with
    | .error err => (.error err, st)
    | .ok (selected, pinned) => materializeAll host vendorDir pinned st selected

/-- `regenerateLock`: the fresh build list and the text of the new lock. -/
def regenerateLock (st : σ) (manifest : ProjectManifest) :
    Except Str (List BuildListEntry × Str) × σ :=
  match resolveVcsDeps host st manifest true [] none [] with
  | (.error err, st) => (.error err, st)
  | (.ok buildList, st) =>
    (.ok (buildList, renderLockfile (lockfileFromBuildList buildList)), st)

end

end Leviathan.Trident
