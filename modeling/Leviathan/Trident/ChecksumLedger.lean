import Leviathan.Trident.Checksum

/-!
# The checksum database keeps a ledger

The abstract database is a ledger: a list of records, to which recording and
yanking append.  The file is a refinement of it: after every history of operations
it is the printed ledger, and loading it gives the ledger's records back in order
(`checksumDb_history`).

The reader tells a yank record by the word `yank` where a content record has its
module's path.  A module of that name is recorded with a line the reader takes for
a yank, whose hash then does not match: from then on the database cannot be loaded
(`checksumDb_yank_path`).  Histories that do not record that module are the ones
the theorem is about.
-/

namespace Leviathan.Trident

open List

open Text (Word IsWord words unwords lines)

/-- A record of the ledger. -/
inductive Record where
  | content (path : Word) (major : Int32) (version : Version) (contentHash : Word)
  | yank (path : Word) (major : Int32) (version : Version)
deriving DecidableEq

/-- The fields of a record, as they are printed. -/
def Record.fields : Record → List Str
  | .content path major version contentHash =>
    [path.text, Text.decimal major.toInt, formatSemVer version, contentHash.text]
  | .yank path major version =>
    ["yank".toList, path.text, Text.decimal major.toInt, formatSemVer version]

/-- The entry a record is loaded as, but for its chain hash. -/
def Record.entry (chainHash : Str) : Record → ChecksumEntry
  | .content path major version contentHash =>
    { path := path.text, major := major, version := formatSemVer version,
      contentHash := contentHash.text, chainHash := chainHash }
  | .yank path major version =>
    { kind := .Yank, path := path.text, major := major, version := formatSemVer version,
      chainHash := chainHash }

/-- The reader does not take the record for one of the other kind. -/
def Record.Plain : Record → Prop
  | .content path _ _ _ => path.text ≠ "yank".toList
  | .yank _ _ _ => True

section
variable (sha : Str → Word)

/-- The chain hash of a record after `prev`. -/
def Record.chainHash (prev : Str) (r : Record) : Str :=
  chainHashOfPayload sha prev (unwords r.fields)

/-- The line of a record after `prev`. -/
def Record.line (prev : Str) (r : Record) : Str :=
  unwords (r.chainHash sha prev :: prev :: r.fields)

/-- The printed ledger, its records chained from `prev`. -/
def renderFrom : Str → List Record → Str
  | _, [] => []
  | prev, r :: rs => r.line sha prev ++ '\n' :: renderFrom (r.chainHash sha prev) rs

/-- The last chain hash of a ledger chained from `prev`. -/
def lastHash : Str → List Record → Str
  | prev, [] => prev
  | prev, r :: rs => lastHash (r.chainHash sha prev) rs

/-- The entries of a ledger chained from `prev`. -/
def entriesFrom : Str → List Record → List ChecksumEntry
  | _, [] => []
  | prev, r :: rs => r.entry (r.chainHash sha prev) :: entriesFrom (r.chainHash sha prev) rs

end

/-! ### Printing and loading a ledger -/

section
variable {sha : Str → Word} {prev : Str}

theorem isWord_kGenesisHash : IsWord kGenesisHash := by decide

/-- A printed version is a word. -/
theorem isWord_formatSemVer (v : Version) : IsWord (formatSemVer v) := by
  refine ⟨by simp [formatSemVer], ?_⟩
  have hdot : ".".toList.all (fun c => !Text.isSpace c) = true := by decide
  simp only [formatSemVer, all_append, hdot, (Text.isWord_decimal _).2, Bool.and_self]

theorem Record.isWord_fields (r : Record) : ∀ w ∈ r.fields, IsWord w := by
  cases r with
  | content path major version contentHash =>
    simp [Record.fields, path.isWord, contentHash.isWord, Text.isWord_decimal, isWord_formatSemVer]
  | yank path major version =>
    have hyank : IsWord "yank".toList := by decide
    simp only [Record.fields, forall_mem_cons, not_mem_nil, false_implies, implies_true,
      path.isWord, Text.isWord_decimal, isWord_formatSemVer, hyank, and_self]

theorem Record.isWord_chainHash (r : Record) : IsWord (r.chainHash sha prev) := (sha _).isWord

theorem Record.isWord_lineFields (r : Record) (hprev : IsWord prev) :
    ∀ w ∈ r.chainHash sha prev :: prev :: r.fields, IsWord w := by
  intro w hw
  rcases List.mem_cons.mp hw with rfl | hw
  · exact r.isWord_chainHash
  rcases List.mem_cons.mp hw with rfl | hw
  · exact hprev
  · exact r.isWord_fields w hw

/-- The words of a printed record. -/
theorem Record.words_line (r : Record) (hprev : IsWord prev) :
    words (r.line sha prev) = r.chainHash sha prev :: prev :: r.fields :=
  Text.words_unwords (cons_ne_nil _ _) (r.isWord_lineFields hprev)

/-- A plain record's line is read as the record. -/
theorem Record.readFields_line {r : Record} (hplain : r.Plain) (hprev : IsWord prev) :
    readFields (r.line sha prev) =
      .ok (r.entry (r.chainHash sha prev), prev, unwords r.fields) := by
  unfold readFields
  rw [r.words_line hprev]
  cases r with
  | content path major version contentHash =>
    simp only [Record.fields]
    rw [if_neg hplain, Text.atoi_decimal]
    rfl
  | yank path major version =>
    simp only [Record.fields]
    rw [if_pos trivial, Text.atoi_decimal]
    rfl

/-- **Records round-trip.** -/
theorem Record.readLine_line {r : Record} (hplain : r.Plain) (hprev : IsWord prev) :
    readLine sha prev (r.line sha prev) = .ok (r.entry (r.chainHash sha prev)) := by
  have hhash : (r.entry (r.chainHash sha prev)).chainHash = r.chainHash sha prev := by
    cases r <;> rfl
  unfold readLine
  rw [Record.readFields_line hplain hprev, ok_bind]
  dsimp only
  rw [if_neg (not_not_intro rfl), hhash]
  exact if_neg (not_not_intro rfl)

/-- A printed line is not an empty one. -/
theorem Record.line_ne_nil (r : Record) : r.line sha prev ≠ [] := by
  intro hnil
  have hhash := (@Record.isWord_chainHash sha prev r).1
  rw [Record.line, Text.unwords_cons_cons] at hnil
  exact hhash (List.append_eq_nil_iff.mp hnil).1

/-- Loading the lines of a ledger gives its entries. -/
theorem loadLines_renderFrom {rs : List Record} (hplain : ∀ r ∈ rs, r.Plain) (hprev : IsWord prev)
    (dbPath : Str) (lineNo : Nat) (entries : List ChecksumEntry) :
    loadLines sha dbPath lineNo (lines (renderFrom sha prev rs)) entries prev =
      .ok (entries ++ entriesFrom sha prev rs, lastHash sha prev rs) := by
  induction rs generalizing prev lineNo entries with
  | nil => simp [renderFrom, lines, loadLines, entriesFrom, lastHash]
  | cons r rs ih =>
    have hline : '\n' ∉ r.line sha prev :=
      Text.newline_not_mem_unwords (r.isWord_lineFields hprev)
    have hne : (r.line sha prev).isEmpty = false := by simpa using r.line_ne_nil
    have hhash : (r.entry (r.chainHash sha prev)).chainHash = r.chainHash sha prev := by
      cases r <;> rfl
    rw [renderFrom, Text.lines_append hline, loadLines]
    simp only [hne, Bool.false_eq_true, if_false,
      Record.readLine_line (hplain r mem_cons_self) hprev, hhash]
    rw [ih (fun r' hr' => hplain r' (mem_cons_of_mem r hr')) r.isWord_chainHash]
    simp [entriesFrom, lastHash]

/-- **Ledgers round-trip.**  Loading a printed ledger gives its entries. -/
theorem loadChecksumDb_renderFrom {rs : List Record} (hplain : ∀ r ∈ rs, r.Plain) (dbPath : Str) :
    loadChecksumDb sha dbPath (renderFrom sha kGenesisHash rs) =
      .ok (entriesFrom sha kGenesisHash rs, lastHash sha kGenesisHash rs) := by
  rw [loadChecksumDb, loadLines_renderFrom hplain isWord_kGenesisHash, nil_append]

/-- One more record is one more line. -/
theorem renderFrom_append (rs : List Record) (r : Record) :
    renderFrom sha prev (rs ++ [r]) =
      renderFrom sha prev rs ++ (r.line sha (lastHash sha prev rs) ++ "\n".toList) := by
  induction rs generalizing prev with
  | nil => simp [renderFrom, lastHash]
  | cons r' rs ih => simp [renderFrom, lastHash, ih]

/-- Appending a content record prints it. -/
theorem appendChecksumEntry_eq (rs : List Record) (path : Word) (major : Int32) (version : Version)
    (contentHash : Word) :
    appendChecksumEntry sha (renderFrom sha prev rs) (lastHash sha prev rs) path.text major
        (formatSemVer version) contentHash.text =
      renderFrom sha prev (rs ++ [.content path major version contentHash]) := by
  rw [renderFrom_append, appendChecksumEntry, append_assoc]
  rfl

/-- Appending a yank record prints it. -/
theorem appendYankEntry_eq (rs : List Record) (path : Word) (major : Int32) (version : Version) :
    appendYankEntry sha (renderFrom sha prev rs) (lastHash sha prev rs) path.text major
        (formatSemVer version) =
      renderFrom sha prev (rs ++ [.yank path major version]) := by
  have hline : ∀ prev : Str, unwords [chainHashOfPayload sha prev
      (yankPayload path.text major (formatSemVer version)), prev,
      yankPayload path.text major (formatSemVer version)] =
      (Record.yank path major version).line sha prev := by
    intro prev
    simp only [Record.line, Record.chainHash, Record.fields, yankPayload, Text.unwords_cons_cons,
      Text.unwords_singleton]
  rw [renderFrom_append, appendYankEntry, append_assoc]
  simp only [hline]

end

/-! ### Histories -/

/-- An operation on the database. -/
inductive DbOp where
  | verifyOrRecord (path : Word) (major : Int32) (version : Version) (contentHash : Word)
  | yank (path : Word) (major : Int32) (version : Version)

/-- The operation does not record a module the reader takes for a yank record. -/
def DbOp.Plain : DbOp → Prop
  | .verifyOrRecord path _ _ _ => path.text ≠ "yank".toList
  | .yank _ _ _ => True

/-- An operation on the database file: its outcome and the file after it. -/
def DbOp.run (sha : Str → Word) (dbPath db : Str) : DbOp → Except Str Unit × Str
  | .verifyOrRecord path major version contentHash =>
    checksumDbVerifyOrRecord sha dbPath db ⟨path.text, major⟩ version contentHash.text
  | .yank path major version => checksumDbYank sha dbPath db ⟨path.text, major⟩ version

/-- The database file after a history, starting without one. -/
def runDb (sha : Str → Word) (dbPath : Str) (ops : List DbOp) : Str :=
  ops.foldl (fun db op => (op.run sha dbPath db).2) []

/-- The hash the ledger first recorded for a module at a version. -/
def recordedHash (rs : List Record) (path : Word) (major : Int32) (version : Version) :
    Option Word :=
  rs.findSome? fun
    | .content p m v hash => if p = path ∧ m = major ∧ v = version then some hash else none
    | .yank _ _ _ => none

/-- The ledger has a yank mark for a module at a version. -/
def yankedIn (rs : List Record) (path : Word) (major : Int32) (version : Version) : Bool :=
  rs.any (· = .yank path major version)

/-- An operation on the ledger: whether it succeeds, and the ledger after it. -/
def ledgerStep (rs : List Record) : DbOp → Bool × List Record
  | .verifyOrRecord path major version contentHash =>
    match recordedHash rs path major version with
    | some hash => (hash = contentHash, rs)
    | none => (true, rs ++ [.content path major version contentHash])
  | .yank path major version =>
    if (recordedHash rs path major version).isNone then (false, rs)
    else if yankedIn rs path major version then (true, rs)
    else (true, rs ++ [.yank path major version])

/-- The ledger after a history. -/
def ledger (ops : List DbOp) : List Record := ops.foldl (fun rs op => (ledgerStep rs op).2) []

section
variable {sha : Str → Word} {prev : Str}

theorem Word.text_inj {v w : Word} : v.text = w.text ↔ v = w := by
  constructor
  · intro h
    cases v
    cases w
    simpa using h
  · rintro rfl
    rfl

/-- What an entry is about is what its record is about. -/
theorem Record.isAbout_content (p path : Word) (m major : Int32) (v version : Version) (hash : Word)
    (chain : Str) :
    ((Record.content p m v hash).entry chain).isAbout ⟨path.text, major⟩ (formatSemVer version) = true ↔
      p = path ∧ m = major ∧ v = version := by
  have hversion : formatSemVer v = formatSemVer version ↔ v = version :=
    ⟨formatSemVer_injective, congrArg formatSemVer⟩
  unfold ChecksumEntry.isAbout
  rw [Bool.and_eq_true, Bool.and_eq_true, decide_eq_true_iff, decide_eq_true_iff,
    decide_eq_true_iff, and_assoc]
  simp only [Record.entry, Word.text_inj, hversion]

theorem Record.isAbout_yank (p path : Word) (m major : Int32) (v version : Version) (chain : Str) :
    ((Record.yank p m v).entry chain).isAbout ⟨path.text, major⟩ (formatSemVer version) = true ↔
      Record.yank p m v = .yank path major version := by
  have hversion : formatSemVer v = formatSemVer version ↔ v = version :=
    ⟨formatSemVer_injective, congrArg formatSemVer⟩
  unfold ChecksumEntry.isAbout
  rw [Bool.and_eq_true, Bool.and_eq_true, decide_eq_true_iff, decide_eq_true_iff,
    decide_eq_true_iff, and_assoc]
  simp only [Record.entry, Word.text_inj, hversion, Record.yank.injEq]

section
variable (rs : List Record) (path : Word) (major : Int32) (version : Version)

/-- The first content entry about a module holds its recorded hash. -/
theorem find?_entriesFrom :
    ((entriesFrom sha prev rs).find? (fun e => e.kind = .Content &&
        e.isAbout ⟨path.text, major⟩ (formatSemVer version))).map (·.contentHash) =
      (recordedHash rs path major version).map (·.text) := by
  induction rs generalizing prev with
  | nil => rfl
  | cons r rs ih =>
    have ih := @ih (r.chainHash sha prev)
    rw [entriesFrom, recordedHash, findSome?_cons]
    cases r with
    | content p m v hash =>
      have hentry := Record.isAbout_content p path m major v version hash
        ((Record.content p m v hash).chainHash sha prev)
      by_cases habout : p = path ∧ m = major ∧ v = version
      · rw [find?_cons_of_pos (by rw [hentry.mpr habout]; rfl)]
        simp only [habout, and_self, if_true]
        rfl
      · rw [find?_cons_of_neg (by rw [Bool.and_eq_true, hentry]; exact fun h => habout h.2)]
        simp only [habout, if_false]
        exact ih
    | yank p m v => exact ih

/-- The yank entries about a module are its yank marks. -/
theorem any_entriesFrom :
    (entriesFrom sha prev rs).any (fun e => e.kind = .Yank &&
        e.isAbout ⟨path.text, major⟩ (formatSemVer version)) = yankedIn rs path major version := by
  induction rs generalizing prev with
  | nil => rfl
  | cons r rs ih =>
    have ih := @ih (r.chainHash sha prev)
    rw [entriesFrom, yankedIn, any_cons, any_cons, ih]
    congr 1
    cases r with
    | content p m v hash => rfl
    | yank p m v =>
      rw [Bool.eq_iff_iff, Bool.and_eq_true, Record.isAbout_yank]
      exact ⟨fun h => decide_eq_true h.2, fun h => ⟨rfl, of_decide_eq_true h⟩⟩

/-- Whether a content entry is about a module says whether a hash is recorded. -/
theorem any_content_entriesFrom :
    ((entriesFrom sha prev rs).filter (fun e => e.isAbout ⟨path.text, major⟩ (formatSemVer version))).any
        (fun e => e.kind = .Content) = (recordedHash rs path major version).isSome := by
  have hfind := congrArg Option.isSome (@find?_entriesFrom sha prev rs path major version)
  rw [Option.isSome_map, Option.isSome_map] at hfind
  rw [← hfind, Bool.eq_iff_iff, any_filter, any_eq_true, find?_isSome]
  exact exists_congr fun e => and_congr_right fun _ => by rw [Bool.and_comm]

/-- Whether a yank entry is about a module says whether it is marked. -/
theorem any_yank_entriesFrom :
    ((entriesFrom sha prev rs).filter (fun e => e.isAbout ⟨path.text, major⟩ (formatSemVer version))).any
        (fun e => e.kind = .Yank) = yankedIn rs path major version := by
  rw [← @any_entriesFrom sha prev, any_filter]
  exact congrArg (List.any (entriesFrom sha prev rs)) (funext fun e => Bool.and_comm _ _)

end

/-- **Step lemma.**  On the printed ledger an operation does what it does on the
ledger: it succeeds in the same cases and leaves the printed new ledger. -/
theorem DbOp.run_renderFrom {rs : List Record} (hplain : ∀ r ∈ rs, r.Plain) (dbPath : Str)
    (op : DbOp) :
    (op.run sha dbPath (renderFrom sha kGenesisHash rs)).2 =
        renderFrom sha kGenesisHash (ledgerStep rs op).2 ∧
      ((op.run sha dbPath (renderFrom sha kGenesisHash rs)).1 = .ok () ↔
        (ledgerStep rs op).1 = true) := by
  have hload := @loadChecksumDb_renderFrom sha rs hplain dbPath
  cases op with
  | verifyOrRecord path major version contentHash =>
    have hfind := @find?_entriesFrom sha kGenesisHash rs path major version
    simp only [DbOp.run, checksumDbVerifyOrRecord, hload, ledgerStep]
    cases hrec : recordedHash rs path major version with
    | none =>
      rw [hrec, Option.map_none, Option.map_eq_none_iff] at hfind
      simp only [hfind, appendChecksumEntry_eq, and_self]
    | some hash =>
      rw [hrec, Option.map_some, Option.map_eq_some_iff] at hfind
      obtain ⟨e, he, hhash⟩ := hfind
      simp only [he, hhash, Word.text_inj]
      by_cases heq : hash = contentHash
      · simp [heq]
      · simp [heq]
  | yank path major version =>
    simp only [DbOp.run, checksumDbYank, hload, ledgerStep, any_content_entriesFrom,
      any_yank_entriesFrom]
    cases hrec : recordedHash rs path major version with
    | none => simp
    | some hash =>
      by_cases hyank : yankedIn rs path major version = true
      · simp [hyank]
      · simp [hyank, appendYankEntry_eq]

end

/-- What an operation can do to the ledger: nothing, or append one record, plain if
the operation is. -/
theorem ledgerStep_cases (rs : List Record) (op : DbOp) :
    (ledgerStep rs op).2 = rs ∨
      ∃ r : Record, (op.Plain → r.Plain) ∧ (ledgerStep rs op).2 = rs ++ [r] := by
  cases op with
  | verifyOrRecord path major version contentHash =>
    simp only [ledgerStep]
    cases recordedHash rs path major version with
    | none => exact .inr ⟨_, id, rfl⟩
    | some hash => exact .inl rfl
  | yank path major version =>
    simp only [ledgerStep]
    split_ifs
    · exact .inl rfl
    · exact .inl rfl
    · exact .inr ⟨.yank path major version, fun _ => trivial, rfl⟩

/-- A plain operation keeps the ledger plain. -/
theorem ledgerStep_plain {rs : List Record} (hplain : ∀ r ∈ rs, r.Plain) {op : DbOp}
    (hop : op.Plain) : ∀ r ∈ (ledgerStep rs op).2, r.Plain := by
  rcases ledgerStep_cases rs op with heq | ⟨r, hr, heq⟩
  · rw [heq]
    exact hplain
  · rw [heq]
    intro r' hr'
    rcases List.mem_append.mp hr' with h | h
    · exact hplain r' h
    · rw [List.mem_singleton.mp h]
      exact hr hop

/-- The ledger only grows. -/
theorem prefix_ledgerStep (rs : List Record) (op : DbOp) : rs <+: (ledgerStep rs op).2 := by
  rcases ledgerStep_cases rs op with heq | ⟨r, -, heq⟩
  · rw [heq]
  · rw [heq]
    exact prefix_append _ _

/-- A hash recorded in a part of the ledger is the one recorded in all of it. -/
theorem recordedHash_of_prefix {rs rs' : List Record} (hpre : rs <+: rs') {path : Word}
    {major : Int32} {version : Version} {hash : Word}
    (h : recordedHash rs path major version = some hash) :
    recordedHash rs' path major version = some hash := by
  obtain ⟨more, rfl⟩ := hpre
  rw [recordedHash, findSome?_append, ← recordedHash, h]
  rfl

theorem ledger_append (ops ops' : List DbOp) :
    ledger (ops ++ ops') = ops'.foldl (fun rs op => (ledgerStep rs op).2) (ledger ops) := by
  rw [ledger, foldl_append, ← ledger]

theorem runDb_append (sha : Str → Word) (dbPath : Str) (ops : List DbOp) (op : DbOp) :
    runDb sha dbPath (ops ++ [op]) = (op.run sha dbPath (runDb sha dbPath ops)).2 := by
  rw [runDb, foldl_append, ← runDb]
  rfl

/-- A longer history extends the ledger. -/
theorem prefix_ledger (ops more : List DbOp) : ledger ops <+: ledger (ops ++ more) := by
  induction more using List.reverseRecOn with
  | nil => simp
  | append_singleton more op ih =>
    rw [← append_assoc, ledger_append]
    exact ih.trans (prefix_ledgerStep _ op)

/-- **Run lemma.**  After a plain history the file is the printed ledger. -/
theorem runDb_eq_renderFrom (sha : Str → Word) (dbPath : Str) (ops : List DbOp)
    (hplain : ∀ op ∈ ops, op.Plain) :
    runDb sha dbPath ops = renderFrom sha kGenesisHash (ledger ops) ∧
      ∀ r ∈ ledger ops, r.Plain := by
  induction ops using List.reverseRecOn with
  | nil => exact ⟨rfl, by simp [ledger]⟩
  | append_singleton ops op ih =>
    obtain ⟨hfile, hrecords⟩ := ih fun o ho => hplain o (mem_append_left _ ho)
    rw [runDb_append, ledger_append, hfile]
    exact ⟨(DbOp.run_renderFrom hrecords dbPath op).1,
      ledgerStep_plain hrecords (hplain op (by simp))⟩

/-- An operation that reports an error leaves the file as it was. -/
theorem DbOp.run_error {sha : Str → Word} {dbPath db err : Str} {op : DbOp}
    (h : (op.run sha dbPath db).1 = .error err) : (op.run sha dbPath db).2 = db := by
  cases hload : loadChecksumDb sha dbPath db with
  | error loadErr =>
    cases op with
    | verifyOrRecord path major version contentHash =>
      simp only [DbOp.run, checksumDbVerifyOrRecord, hload]
    | yank path major version => simp only [DbOp.run, checksumDbYank, hload]
  | ok loaded =>
    obtain ⟨entries, last⟩ := loaded
    cases op with
    | verifyOrRecord path major version contentHash =>
      simp only [DbOp.run, checksumDbVerifyOrRecord, hload] at h ⊢
      split at h
      · split at h
        · cases h
        · rename_i hne
          rw [if_neg hne]
      · cases h
    | yank path major version =>
      simp only [DbOp.run, checksumDbYank, hload] at h ⊢
      split_ifs at h ⊢
      · rfl

/-- What holds of the database after a history. -/
structure DbHistory (sha : Str → Word) (dbPath : Str) (ops : List DbOp) : Prop where
  /-- loading succeeds, with exactly the ledger's records in order -/
  loads : loadChecksumDb sha dbPath (runDb sha dbPath ops) =
    .ok (entriesFrom sha kGenesisHash (ledger ops), lastHash sha kGenesisHash (ledger ops))
  /-- the next operation succeeds exactly when the ledger allows it -/
  outcome : ∀ op : DbOp, (op.run sha dbPath (runDb sha dbPath ops)).1 = .ok () ↔
    (ledgerStep (ledger ops) op).1 = true
  /-- the hash recorded first stays recorded -/
  first_hash : ∀ more path major version hash,
    recordedHash (ledger ops) path major version = some hash →
    recordedHash (ledger (ops ++ more)) path major version = some hash
  /-- an operation that reports an error leaves the file unchanged -/
  unchanged : ∀ (op : DbOp) err, (op.run sha dbPath (runDb sha dbPath ops)).1 = .error err →
    runDb sha dbPath (ops ++ [op]) = runDb sha dbPath ops

/-- **The checksum database over whole histories.**  After every history that does not
record a module named `yank`, the database loads as exactly the records made, in
order; the hash recorded first for a module at a version never changes; and an
operation that reports a mismatch changes nothing. -/
theorem checksumDb_history (sha : Str → Word) (dbPath : Str) (ops : List DbOp)
    (hplain : ∀ op ∈ ops, op.Plain) : DbHistory sha dbPath ops := by
  obtain ⟨hfile, hrecords⟩ := runDb_eq_renderFrom sha dbPath ops hplain
  refine ⟨?_, ?_, ?_, ?_⟩
  · rw [hfile]
    exact loadChecksumDb_renderFrom hrecords dbPath
  · intro op
    rw [hfile]
    exact (DbOp.run_renderFrom hrecords dbPath op).2
  · intro more path major version hash
    exact recordedHash_of_prefix (prefix_ledger ops more)
  · intro op err herr
    rw [runDb_append]
    exact DbOp.run_error herr

/-- A stand-in for SHA-256 that is good enough to run a history. -/
def plainHash (s : Str) : Word :=
  ⟨'h' :: s.filter (fun c => !Text.isSpace c), by
    refine ⟨cons_ne_nil _ _, ?_⟩
    have hh : (!Text.isSpace 'h') = true := by decide
    rw [all_cons, hh, Bool.true_and, all_filter]
    exact List.all_eq_true.mpr fun c _ => by cases Text.isSpace c <;> rfl⟩

theorem checksumDb_history_yanked :
    DbHistory plainHash "checksum.db".toList
      [.verifyOrRecord ⟨"json".toList, by decide⟩ 1 ⟨1, 2, 0⟩ ⟨"aaaa".toList, by decide⟩,
        .yank ⟨"json".toList, by decide⟩ 1 ⟨1, 2, 0⟩] :=
  checksumDb_history plainHash "checksum.db".toList _ (by
    intro op hop
    rcases List.mem_cons.mp hop with rfl | hop
    · show "json".toList ≠ "yank".toList
      decide
    · rw [List.mem_singleton.mp hop]
      trivial)

/-- The record of a module named `yank`. -/
def yankPathRecord : Record :=
  .content ⟨"yank".toList, by decide⟩ 1 ⟨1, 2, 0⟩ ⟨"aaaa".toList, by decide⟩

/-- Its line is read as a yank record. -/
theorem readLine_yankPathRecord {sha : Str → Word} {e : ChecksumEntry}
    (h : readLine sha kGenesisHash (yankPathRecord.line sha kGenesisHash) = .ok e) :
    e.kind = .Yank := by
  obtain ⟨⟨e', prev, payload⟩, hfields, h⟩ := bind_eq_ok.mp h
  rw [readFields, Record.words_line _ isWord_kGenesisHash] at hfields
  simp only [yankPathRecord, Record.fields] at hfields
  rw [if_pos trivial] at hfields
  dsimp only at h
  split_ifs at h
  obtain rfl := Except.ok.inj h
  rw [← (Prod.mk.inj (Except.ok.inj hfields)).1]

/-- Once a module named `yank` is recorded, whatever the hash function, the database
no longer loads as what was recorded. -/
theorem checksumDb_yank_path : ¬ ∃ (sha : Str → Word) (dbPath : Str),
    DbHistory sha dbPath
      [.verifyOrRecord ⟨"yank".toList, by decide⟩ 1 ⟨1, 2, 0⟩ ⟨"aaaa".toList, by decide⟩] := by
  intro hhistory
  obtain ⟨sha, dbPath, h⟩ := hhistory
  have hfile : runDb sha dbPath
      [.verifyOrRecord ⟨"yank".toList, by decide⟩ 1 ⟨1, 2, 0⟩ ⟨"aaaa".toList, by decide⟩] =
      yankPathRecord.line sha kGenesisHash ++ '\n' :: [] :=
    (@DbOp.run_renderFrom sha [] (by simp) dbPath _).1
  have hline : '\n' ∉ yankPathRecord.line sha kGenesisHash :=
    Text.newline_not_mem_unwords (Record.isWord_lineFields _ isWord_kGenesisHash)
  have hne : (yankPathRecord.line sha kGenesisHash).isEmpty = false := by
    simpa using Record.line_ne_nil yankPathRecord
  have hloads := h.loads
  rw [hfile, loadChecksumDb, Text.lines_append hline, loadLines] at hloads
  simp only [hne, Bool.false_eq_true, if_false] at hloads
  cases hread : readLine sha kGenesisHash (yankPathRecord.line sha kGenesisHash) with
  | error msg => rw [hread] at hloads; cases hloads
  | ok e =>
    rw [hread] at hloads
    have hentries : [e] = _ := (Prod.mk.inj (Except.ok.inj hloads)).1
    have hkind := readLine_yankPathRecord hread
    rw [(List.cons.inj hentries).1] at hkind
    cases hkind

theorem yankedIn_ledger {ops : List DbOp} {path : Word} {major : Int32} {version : Version} :
    yankedIn (ledger ops) path major version = true ↔
      ∃ before, before ++ [.yank path major version] <+: ops ∧
        (ledgerStep (ledger before) (.yank path major version)).1 = true := by
  constructor
  · induction ops using List.reverseRecOn with
    | nil => simp [ledger, yankedIn]
    | append_singleton ops op ih =>
      rw [ledger_append, foldl_cons, foldl_nil]
      by_cases hold : yankedIn (ledger ops) path major version = true
      · obtain ⟨before, hpre, hok⟩ := ih hold
        exact fun _ => ⟨before, hpre.trans (prefix_append _ _), hok⟩
      · cases op <;> grind [ledgerStep, yankedIn]
  · rintro ⟨before, ⟨more, rfl⟩, hok⟩
    have hyank : yankedIn (ledger (before ++ [.yank path major version])) path major version := by
      rw [ledger_append, foldl_cons, foldl_nil]
      grind [ledgerStep, yankedIn]
    obtain ⟨r, hr, heq⟩ := List.any_eq_true.mp hyank
    exact List.any_eq_true.mpr ⟨r, (prefix_ledger _ more).subset hr, heq⟩

end Leviathan.Trident
