import Leviathan.Lib.Fallible
import Leviathan.Lib.Words
import Leviathan.Trident.SemVer

/-!
# The checksum database

`checksum.cpp`: an append-only log of one record a line.  Each line starts with the
record's chain hash and the previous one; a content record then names a module, its
major, a version and a content hash, and a yank record does the same, without the
content hash, after the word `yank`.

The database is the text of the file; a missing file is an empty one.  SHA-256 is
any function from strings to words.
-/

namespace Leviathan.Trident

open Text (Word IsWord words unwords lines)

/-- `kGenesisHash`, the previous hash of the first record. -/
def kGenesisHash : Str := List.replicate 61 '0'

/-- `ChecksumEntry::Kind`. -/
inductive ChecksumKind where
  | Content
  | Yank
deriving DecidableEq, Repr

/-- `struct ChecksumEntry`. -/
structure ChecksumEntry where
  kind : ChecksumKind := .Content
  path : Str
  major : Int32
  version : Str
  contentHash : Str := []
  chainHash : Str
deriving DecidableEq, Repr

section
variable (sha : Str → Word)

/-- `chainHashOfPayload`. -/
def chainHashOfPayload (prevChainHash payload : Str) : Str :=
  (sha (prevChainHash ++ " ".toList ++ payload)).text

/-- `contentPayload`. -/
def contentPayload (path : Str) (major : Int32) (version contentHash : Str) : Str :=
  unwords [path, Text.decimal major.toInt, version, contentHash]

/-- `yankPayload`. -/
def yankPayload (path : Str) (major : Int32) (version : Str) : Str :=
  unwords ["yank".toList, path, Text.decimal major.toInt, version]

/-- An error at a line of the database. -/
def dbError (dbPath : Str) (lineNo : Nat) (msg : Str) : Str :=
  dbPath ++ ":".toList ++ Text.decimal lineNo ++ ": ".toList ++ msg

/-- The fields of a line: the record it stands for, with its chain hash, the previous
chain hash and the payload the hash covers. -/
def readFields (line : Str) : Except Str (ChecksumEntry × Str × Str) :=
  match words line with
  | chainHash :: prevChainHash :: first :: rest =>
    if first = "yank".toList then
      match rest with
      | [path, majorText, version] =>
        .ok ({ kind := .Yank, path := path, major := Text.atoi majorText, version := version,
               chainHash := chainHash },
          prevChainHash, yankPayload path (Text.atoi majorText) version)
      | _ => .error "malformed checksum DB yank record".toList
    else
      match rest with
      | [majorText, version, contentHash] =>
        .ok ({ path := first, major := Text.atoi majorText, version := version,
               contentHash := contentHash, chainHash := chainHash },
          prevChainHash, contentPayload first (Text.atoi majorText) version contentHash)
      | _ => .error "malformed checksum DB content record".toList
  | _ => .error "malformed checksum DB record".toList

/-- One line of the database, checked against the chain. -/
def readLine (lastChainHash line : Str) : Except Str ChecksumEntry := do
  let (e, prevChainHash, payload) ← readFields line
  if prevChainHash ≠ lastChainHash then
    .error ("checksum DB chain broken (this record's previous-hash link does not ".toList ++
      "match the prior record) — the log may have been edited, reordered, or ".toList ++
      "truncated".toList)
  else if chainHashOfPayload sha prevChainHash payload ≠ e.chainHash then
    .error ("checksum DB record hash does not match its own content — the log has ".toList ++
      "been tampered with".toList)
  else .ok e

/-- The loop of `loadChecksumDb` over the lines after the first `lineNo`. -/
def loadLines (dbPath : Str) : Nat → List Str → List ChecksumEntry → Str →
    Except Str (List ChecksumEntry × Str)
  | _, [], entries, lastChainHash => .ok (entries, lastChainHash)
  | lineNo, line :: rest, entries, lastChainHash =>
    if line.isEmpty then loadLines dbPath (lineNo + 1) rest entries lastChainHash
    else match readLine sha lastChainHash line with
      | .error msg => .error (dbError dbPath (lineNo + 1) msg)
      | .ok e => loadLines dbPath (lineNo + 1) rest (entries ++ [e]) e.chainHash

/-- `loadChecksumDb`: the records and the last chain hash. -/
def loadChecksumDb (dbPath db : Str) : Except Str (List ChecksumEntry × Str) :=
  loadLines sha dbPath 0 (lines db) [] kGenesisHash

/-- `appendChecksumEntry`. -/
def appendChecksumEntry (db prevChainHash path : Str) (major : Int32)
    (version contentHash : Str) : Str :=
  let chainHash := chainHashOfPayload sha prevChainHash (contentPayload path major version contentHash)
  db ++ unwords [chainHash, prevChainHash, path, Text.decimal major.toInt, version, contentHash] ++
    "\n".toList

/-- `appendYankEntry`. -/
def appendYankEntry (db prevChainHash path : Str) (major : Int32) (version : Str) : Str :=
  let payload := yankPayload path major version
  db ++ unwords [chainHashOfPayload sha prevChainHash payload, prevChainHash, payload] ++
    "\n".toList

/-- A record is about this module at this version. -/
def ChecksumEntry.isAbout (e : ChecksumEntry) (mod : ModuleId) (versionText : Str) : Bool :=
  e.path = mod.path && e.major = mod.major && e.version = versionText

/-- `checksumDbVerifyOrRecord`: the outcome and the database after it. -/
def checksumDbVerifyOrRecord (dbPath db : Str) (mod : ModuleId) (version : Version)
    (contentHash : Str) : Except Str Unit × Str :=
  match loadChecksumDb sha dbPath db with
  | .error err => (.error err, db)
  | .ok (entries, lastChainHash) =>
    let versionText := formatSemVer version
    match entries.find? (fun e => e.kind = .Content && e.isAbout mod versionText) with
    | some e =>
      if e.contentHash = contentHash then (.ok (), db)
      else (.error ("content for ".toList ++ mod.path ++ "@".toList ++ versionText ++
        " does not match the checksum ".toList ++ "DB (recorded sha256:".toList ++
        e.contentHash ++ ", fetched sha256:".toList ++ contentHash ++
        ") — the tag may have been moved or the content swapped after it was first ".toList ++
        "recorded".toList), db)
    | none => (.ok (), appendChecksumEntry sha db lastChainHash mod.path mod.major versionText
        contentHash)

/-- `checksumDbIsYanked`. -/
def checksumDbIsYanked (dbPath db : Str) (mod : ModuleId) (version : Version) : Except Str Bool :=
  match loadChecksumDb sha dbPath db with
  | .error err => .error err
  | .ok (entries, _) =>
    .ok (entries.any (fun e => e.kind = .Yank && e.isAbout mod (formatSemVer version)))

/-- `checksumDbYank`. -/
def checksumDbYank (dbPath db : Str) (mod : ModuleId) (version : Version) : Except Str Unit × Str :=
  match loadChecksumDb sha dbPath db with
  | .error err => (.error err, db)
  | .ok (entries, lastChainHash) =>
    let versionText := formatSemVer version
    let about := entries.filter (fun e => e.isAbout mod versionText)
    if ¬ about.any (fun e => e.kind = .Content) then
      (.error ("cannot yank ".toList ++ mod.path ++ "@".toList ++ versionText ++
        ": no immutable content hash is recorded in the checksum DB ".toList ++
        "(fetch or publish the version first)".toList), db)
    else if about.any (fun e => e.kind = .Yank) then (.ok (), db)
    else (.ok (), appendYankEntry sha db lastChainHash mod.path mod.major versionText)

end

end Leviathan.Trident
