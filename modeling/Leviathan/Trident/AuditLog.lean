import Leviathan.Lib.Words
import Leviathan.Trident.SemVer

/-!
# The audit log

`appendAuditRecord` reads the whole log, adds one record, sorts and writes the whole log again;
`readAuditRecords` reads it line by line with three scanners: one cuts the comment off, one finds
the `=`, one reads the quoted value.  `readAuditRecords_renderAudit` says that the scanners agree
on every string.  The hash is the one field that is not kept as it was given: it is written with
one `sha256:` in front (`AuditRecord.stored`).

The log is the text of the file, if there is one.  Reading and writing the file itself does not
fail here.
-/

namespace Leviathan.Trident

open List

open Text (isSpace lines)

/-- `struct AuditRecord`. -/
structure AuditRecord where
  path : Str := []
  selected : Str := []
  hash : Str := []
  auditor : Str := []
deriving DecidableEq, Repr

variable {s key : Str} {r : AuditRecord}

namespace AuditLog

/-- `trim`. -/
def trim (text : Str) : Str := ((text.dropWhile isSpace).reverse.dropWhile isSpace).reverse

/-- The loop of `stripComment`. -/
def stripFrom : Bool → Bool → Str → Str
  | _, _, [] => []
  | quoted, escaped, c :: cs =>
    if quoted && escaped then c :: stripFrom quoted false cs
    else if quoted && c = '\\' then c :: stripFrom quoted true cs
    else if c = '"' then c :: stripFrom (!quoted) escaped cs
    else if c = '#' && !quoted then []
    else c :: stripFrom quoted escaped cs

/-- `stripComment`. -/
def stripComment (line : Str) : Str := stripFrom false false line

/-- What `quote` writes for one character. -/
def quoteChar (c : Char) : Str :=
  (if c = '\\' ∨ c = '"' then ['\\'] else []) ++ (if c = '\n' then ['\\', 'n'] else [c])

/-- `quote`. -/
def quote (text : Str) : Str := '"' :: (text.flatMap quoteChar ++ ['"'])

/-- The loop of `parseQuoted` between the quotes. -/
def unquote : Str → Str
  | [] => []
  | [c] => [c]
  | c :: next :: rest =>
    if c = '\\' then (if next = 'n' then '\n' else next) :: unquote rest
    else c :: unquote (next :: rest)

/-- `parseQuoted`. -/
def parseQuoted (text : Str) : Option Str :=
  let value := trim text
  if value.length < 2 ∨ value.head? ≠ some '"' ∨ value.getLast? ≠ some '"' then none
  else some (unquote value.tail.dropLast)

/-- `splitAssignment`. -/
def splitAssignment (line : Str) : Option (Str × Str) :=
  if '=' ∈ line then
    let key := trim (line.takeWhile (· ≠ '='))
    let value := trim ((line.dropWhile (· ≠ '=')).tail)
    if key = [] then none else some (key, value)
  else none

/-- The assignment of one field. -/
def setField (r : AuditRecord) (key parsed : Str) : Option AuditRecord :=
  if key = "path".toList then some { r with path := parsed }
  else if key = "selected".toList then some { r with selected := parsed }
  else if key = "hash".toList then some { r with hash := parsed }
  else if key = "auditor".toList then some { r with auditor := parsed }
  else none

/-- An error with its place. -/
def errorAt (path : Str) (lineNo : Nat) (msg : Str) : Str :=
  path ++ ":".toList ++ Text.decimal lineNo ++ ": ".toList ++ msg

/-- One line of the log; `current` is the last record. -/
def readLine (path : Str) (lineNo : Nat) (records : List AuditRecord) (line : Str) :
    Except Str (List AuditRecord) :=
  let line := trim (stripComment line)
  if line = [] then .ok records
  else if line = "[[audit]]".toList then .ok (records ++ [{}])
  else match splitAssignment line with
    | none => .error (errorAt path lineNo "expected key = value".toList)
    | some (key, value) =>
      match records.getLast? with
      | none =>
        if key ≠ "version".toList ∨ value ≠ "1".toList then
          .error (errorAt path lineNo "only top-level 'version = 1' is supported".toList)
        else .ok records
      | some current =>
        match parseQuoted value with
        | none => .error (errorAt path lineNo "expected quoted string".toList)
        | some parsed =>
          match setField current key parsed with
          | none => .error (errorAt path lineNo
              ("unknown audit field '".toList ++ key ++ "'".toList))
          | some r => .ok (records.dropLast ++ [r])

/-- The loop of `readAuditRecords`. -/
def readLines (path : Str) : Nat → List AuditRecord → List Str → Except Str (List AuditRecord)
  | _, records, [] => .ok records
  | lineNo, records, line :: rest => do
    let records ← readLine path (lineNo + 1) records line
    readLines path (lineNo + 1) records rest

/-- A record lacks a field. -/
def lacksField (r : AuditRecord) : Bool :=
  r.path.isEmpty || r.selected.isEmpty || r.hash.isEmpty || r.auditor.isEmpty

/-- `readAuditRecords`, on the text of a log. -/
def readAuditRecords (path text : Str) : Except Str (List AuditRecord) := do
  let records ← readLines path 0 [] (lines text)
  if records.any lacksField then
    .error (path ++ ": every [[audit]] requires path, selected, hash, and auditor".toList)
  else return records

/-- `normalizeHash`. -/
def normalizeHash (hash : Str) : Str :=
  if "sha256:".toList.isPrefixOf hash then hash.drop 7 else hash

/-- The order of the written records. -/
def auditLe (a b : AuditRecord) : Bool :=
  if a.path ≠ b.path then a.path ≤ b.path
  else if a.selected ≠ b.selected then a.selected ≤ b.selected
  else a.auditor ≤ b.auditor

/-- One assignment. -/
def renderField (key value : Str) : Str := key ++ " = ".toList ++ quote value ++ "\n".toList

/-- One record of the log. -/
def renderRecord (r : AuditRecord) : Str :=
  "\n[[audit]]\n".toList ++ renderField "path".toList r.path ++
    renderField "selected".toList r.selected ++
    renderField "hash".toList ("sha256:".toList ++ normalizeHash r.hash) ++
    renderField "auditor".toList r.auditor

/-- The text that `appendAuditRecord` writes. -/
def renderAudit (records : List AuditRecord) : Str :=
  "version = 1\n".toList ++ records.flatMap renderRecord

/-- The test for a record that is in the log already. -/
def sameAudit (existing record : AuditRecord) : Bool :=
  existing.path = record.path && existing.selected = record.selected &&
    normalizeHash existing.hash = normalizeHash record.hash && existing.auditor = record.auditor

/-- `appendAuditRecord`: the log after it. -/
def appendAuditRecord (path : Str) (log : Option Str) (record : AuditRecord) :
    Except Str (Option Str) := do
  let records ← match log with
    | none => .ok []
    | some text => readAuditRecords path text
  if records.any (sameAudit · record) then return log
  else return some (renderAudit ((records ++ [record]).mergeSort auditLe))

section Scanners

/-- Inside quotes, the text of a quoted string is kept. -/
theorem stripFrom_quoted (s rest : Str) :
    stripFrom true false (s.flatMap quoteChar ++ rest) =
      s.flatMap quoteChar ++ stripFrom true false rest := by
  induction s with
  | nil => rfl
  | cons c s ih =>
    rw [flatMap_cons, append_assoc, append_assoc, ← ih]
    by_cases hn : c = '\n'
    · subst hn
      rfl
    · by_cases hb : c = '\\'
      · subst hb
        rfl
      · by_cases hq : c = '"'
        · subst hq
          rfl
        · simp [quoteChar, hn, hb, hq, stripFrom]

/-- Outside quotes, a text without a quote or a `#` is kept. -/
theorem stripFrom_plain (hs : ∀ c ∈ s, c ≠ '"' ∧ c ≠ '#') (rest : Str) :
    stripFrom false false (s ++ rest) = s ++ stripFrom false false rest := by
  induction s with
  | nil => rfl
  | cons c s ih =>
    obtain ⟨hq, hh⟩ := hs c mem_cons_self
    rw [cons_append, stripFrom]
    simp only [Bool.false_and, Bool.false_eq_true, if_false, hq, hh, decide_false]
    rw [ih fun d hd => hs d (mem_cons_of_mem c hd)]
    rfl

/-- **No comment starts inside a quoted string.** -/
theorem stripComment_quote (hkey : ∀ c ∈ key, c ≠ '"' ∧ c ≠ '#') (s : Str) :
    stripComment (key ++ quote s) = key ++ quote s := by
  have hopen : stripFrom false false (quote s) =
      '"' :: stripFrom true false (s.flatMap quoteChar ++ ['"']) := by
    rw [quote, stripFrom]
    simp
  rw [stripComment, stripFrom_plain hkey, hopen, stripFrom_quoted]
  rfl

/-- A text that neither starts nor ends with a blank. -/
def Trimmed (s : Str) : Prop :=
  (∀ c, s.head? = some c → isSpace c = false) ∧ ∀ c, s.getLast? = some c → isSpace c = false

theorem dropWhile_of_head (h : ∀ c, s.head? = some c → isSpace c = false) :
    s.dropWhile isSpace = s := by
  cases s with
  | nil => rfl
  | cons c cs =>
    have hc := h c rfl
    rw [List.dropWhile_cons, if_neg (by rw [hc]; exact Bool.false_ne_true)]

theorem Trimmed.trim (h : Trimmed s) : trim s = s := by
  rw [AuditLog.trim, dropWhile_of_head h.1, dropWhile_of_head, List.reverse_reverse]
  intro c hc
  rw [List.head?_reverse] at hc
  exact h.2 c hc

theorem quote_getLast (s : Str) : (quote s).getLast? = some '"' := by
  rw [quote, ← cons_append, getLast?_concat]

theorem trimmed_quote (s : Str) : Trimmed (quote s) := by
  refine ⟨fun c hc => ?_, fun c hc => ?_⟩
  · cases hc
    rfl
  · rw [quote_getLast] at hc
    cases hc
    rfl

/-- The characters between the quotes are read back. -/
theorem unquote_quoted (s : Str) : unquote (s.flatMap quoteChar) = s := by
  induction s with
  | nil => rfl
  | cons c s ih =>
    rw [flatMap_cons]
    by_cases hn : c = '\n'
    · subst hn
      show '\n' :: unquote (s.flatMap quoteChar) = _
      rw [ih]
    · by_cases hb : c = '\\'
      · subst hb
        show '\\' :: unquote (s.flatMap quoteChar) = _
        rw [ih]
      · by_cases hq : c = '"'
        · subst hq
          show '"' :: unquote (s.flatMap quoteChar) = _
          rw [ih]
        · have hone : quoteChar c = [c] := by simp [quoteChar, hn, hb, hq]
          rw [hone, singleton_append]
          cases hrest : s.flatMap quoteChar with
          | nil =>
            rw [hrest] at ih
            rw [← ih]
            rfl
          | cons d rest => rw [unquote, if_neg hb, ← hrest, ih]

/-- **A quoted value is read back**, whatever it holds. -/
theorem parseQuoted_quote (s : Str) : parseQuoted (quote s) = some s := by
  have hcond : ¬((quote s).length < 2 ∨ (quote s).head? ≠ some '"' ∨
      (quote s).getLast? ≠ some '"') := by
    rw [quote_getLast]
    simp [quote]
  have hbody : (quote s).tail.dropLast = s.flatMap quoteChar := by
    rw [quote, tail_cons, dropLast_concat]
  rw [parseQuoted]
  simp only [(trimmed_quote s).trim]
  rw [if_neg hcond, hbody, unquote_quoted]

/-- No line ends inside a quoted string. -/
theorem newline_not_mem_quote (s : Str) : '\n' ∉ quote s := by
  intro h
  rw [quote, mem_cons, mem_append, mem_flatMap] at h
  obtain h | ⟨c, _, hc⟩ | h := h
  · exact absurd h (by decide)
  · rw [quoteChar, mem_append] at hc
    obtain hc | hc := hc
    · split at hc
      · exact absurd (List.mem_singleton.mp hc) (by decide)
      · exact not_mem_nil hc
    · split at hc
      · exact absurd hc (by decide)
      · next hn => exact hn (List.mem_singleton.mp hc).symm
  · exact absurd (List.mem_singleton.mp h) (by decide)

end Scanners

section Lines

variable {path : Str} {lineNo : Nat} {records : List AuditRecord}

/-- A key of the format. -/
structure IsKey (key : Str) : Prop where
  ne_nil : key ≠ []
  plain : ∀ c ∈ key, c ≠ '"' ∧ c ≠ '#' ∧ c ≠ '=' ∧ c ≠ '\n' ∧ isSpace c = false

/-- The line of an assignment. -/
theorem IsKey.line (hkey : IsKey key) (s : Str) :
    trim (stripComment (key ++ " = ".toList ++ quote s)) = key ++ " = ".toList ++ quote s := by
  have hplain : ∀ c ∈ key ++ " = ".toList, c ≠ '"' ∧ c ≠ '#' := by
    intro c hc
    obtain hc | hc := List.mem_append.mp hc
    · exact ⟨(hkey.plain c hc).1, (hkey.plain c hc).2.1⟩
    · have hcases : c = ' ' ∨ c = '=' ∨ c = ' ' := by simpa using hc
      obtain h | h | h := hcases
      · subst h
        decide
      · subst h
        decide
      · subst h
        decide
  rw [stripComment_quote hplain]
  refine Trimmed.trim ⟨fun c hc => ?_, fun c hc => ?_⟩
  · cases key with
    | nil => exact absurd rfl hkey.ne_nil
    | cons d key =>
      cases hc
      exact (hkey.plain _ mem_cons_self).2.2.2.2
  · rw [getLast?_append, quote_getLast] at hc
    cases hc
    rfl

theorem IsKey.splitAssignment (hkey : IsKey key) (s : Str) :
    splitAssignment (key ++ " = ".toList ++ quote s) = some (key, quote s) := by
  have heq : key ++ " = ".toList ++ quote s = (key ++ [' ']) ++ '=' :: (' ' :: quote s) := by
    simp
  have hno : ∀ c ∈ key ++ [' '], decide (c ≠ '=') = true := by
    intro c hc
    obtain hc | hc := List.mem_append.mp hc
    · exact decide_eq_true (hkey.plain c hc).2.2.1
    · cases List.mem_singleton.mp hc
      decide
  have htake : ((key ++ [' ']) ++ '=' :: (' ' :: quote s)).takeWhile (· ≠ '=') = key ++ [' '] := by
    rw [takeWhile_append_of_pos hno]
    simp
  have hdrop : ((key ++ [' ']) ++ '=' :: (' ' :: quote s)).dropWhile (· ≠ '=') =
      '=' :: (' ' :: quote s) := by
    rw [dropWhile_append_of_pos hno]
    simp
  have hkeyTrim : trim (key ++ [' ']) = key := by
    have hhead : ∀ c, (key ++ [' ']).head? = some c → isSpace c = false := by
      intro c hc
      cases key with
      | nil => exact absurd rfl hkey.ne_nil
      | cons d key =>
        cases hc
        exact (hkey.plain _ mem_cons_self).2.2.2.2
    rw [trim, dropWhile_of_head hhead, reverse_append]
    show ((' ' :: key.reverse).dropWhile isSpace).reverse = key
    have hblank : isSpace ' ' = true := by decide
    rw [dropWhile_cons, if_pos hblank, dropWhile_of_head, reverse_reverse]
    intro c hc
    rw [head?_reverse] at hc
    exact (hkey.plain c (mem_of_getLast? hc)).2.2.2.2
  have hvalueTrim : trim (' ' :: quote s) = quote s := by
    have hblank : isSpace ' ' = true := by decide
    have hskip : (' ' :: quote s).dropWhile isSpace = (quote s).dropWhile isSpace := by
      rw [dropWhile_cons, if_pos hblank]
    rw [trim, hskip]
    exact (trimmed_quote s).trim
  rw [AuditLog.splitAssignment, heq, if_pos (by simp), htake, hdrop, tail_cons, hkeyTrim,
    hvalueTrim]
  simp only [hkey.ne_nil, if_false]

/-- **One assignment is read into the last record.** -/
theorem IsKey.readLine (hkey : IsKey key) (s : Str) {r' : AuditRecord}
    (hset : setField r key s = some r') :
    readLine path lineNo (records ++ [r]) (key ++ " = ".toList ++ quote s) =
      .ok (records ++ [r']) := by
  have hne : key ++ " = ".toList ++ quote s ≠ [] := by
    intro h
    have := congrArg List.length h
    simp [quote] at this
  have hheader : key ++ " = ".toList ++ quote s ≠ "[[audit]]".toList := by
    intro h
    have hlast := congrArg List.getLast? h
    rw [getLast?_append, quote_getLast, Option.some_or] at hlast
    exact absurd hlast (by decide)
  rw [AuditLog.readLine]
  simp only [hkey.line s]
  rw [if_neg hne, if_neg hheader, hkey.splitAssignment s]
  simp only [getLast?_concat, parseQuoted_quote, hset, dropLast_concat]

theorem readLine_header :
    readLine path lineNo records "[[audit]]".toList = .ok (records ++ [({} : AuditRecord)]) := by
  have hline : trim (stripComment "[[audit]]".toList) = "[[audit]]".toList := by decide
  rw [AuditLog.readLine]
  simp only [hline]
  rw [if_neg (by decide), if_pos trivial]

theorem readLine_empty : readLine path lineNo records [] = .ok records := rfl

theorem readLine_version :
    readLine path lineNo [] "version = 1".toList = .ok [] := by
  have hline : trim (stripComment "version = 1".toList) = "version = 1".toList := by decide
  rw [AuditLog.readLine]
  simp only [hline]
  rw [if_neg (by decide), if_neg (by decide)]
  rfl

/-- What `stored` changes: the hash has one `sha256:` in front. -/
def stored (r : AuditRecord) : AuditRecord :=
  { r with hash := "sha256:".toList ++ normalizeHash r.hash }

/-- One line of the text. -/
theorem readLines_line {line rest : Str} {records' : List AuditRecord} (hline : '\n' ∉ line)
    (hread : AuditLog.readLine path (lineNo + 1) records line = .ok records') :
    readLines path lineNo records (lines (line ++ '\n' :: rest)) =
      readLines path (lineNo + 1) records' (lines rest) := by
  rw [Text.lines_append hline, readLines, hread]
  rfl

/-- One assignment of the text. -/
theorem IsKey.readLines (hkey : IsKey key) (s rest : Str) {r' : AuditRecord}
    (hset : setField r key s = some r') :
    readLines path lineNo (records ++ [r]) (lines (renderField key s ++ rest)) =
      readLines path (lineNo + 1) (records ++ [r']) (lines rest) := by
  have htext : renderField key s ++ rest = (key ++ " = ".toList ++ quote s) ++ '\n' :: rest := by
    simp [renderField]
  have hline : '\n' ∉ key ++ " = ".toList ++ quote s := by
    intro h
    obtain h | h := List.mem_append.mp h
    · obtain h | h := List.mem_append.mp h
      · exact (hkey.plain _ h).2.2.2.1 rfl
      · exact absurd h (by decide)
    · exact newline_not_mem_quote s h
  rw [htext, readLines_line hline (hkey.readLine s hset)]

theorem isKey_of_field
    (h : key = "path".toList ∨ key = "selected".toList ∨
      key = "hash".toList ∨ key = "auditor".toList) : IsKey key := by
  obtain h | h | h | h := h <;> subst h <;> exact ⟨by decide, by simp [isSpace]⟩

/-- **One record is read as it is stored.** -/
theorem readLines_renderRecord (r : AuditRecord) (rest : Str) :
    readLines path lineNo records (lines (renderRecord r ++ rest)) =
      readLines path (lineNo + 6) (records ++ [stored r]) (lines rest) := by
  have htext : renderRecord r ++ rest = [] ++ '\n' :: ("[[audit]]".toList ++ '\n' ::
      (renderField "path".toList r.path ++ (renderField "selected".toList r.selected ++
        (renderField "hash".toList ("sha256:".toList ++ normalizeHash r.hash) ++
          (renderField "auditor".toList r.auditor ++ rest))))) := by
    have hhead : "\n[[audit]]\n".toList = '\n' :: ("[[audit]]".toList ++ ['\n']) := by decide
    unfold renderRecord
    rw [hhead]
    simp only [append_assoc, cons_append, nil_append]
  have hpath : setField {} "path".toList r.path = some { path := r.path } := by
    rw [setField, if_pos rfl]
  have hselected : setField { path := r.path } "selected".toList r.selected =
      some { path := r.path, selected := r.selected } := by
    rw [setField, if_neg (by decide), if_pos rfl]
  have hhash : setField { path := r.path, selected := r.selected } "hash".toList
      ("sha256:".toList ++ normalizeHash r.hash) =
      some { path := r.path, selected := r.selected, hash := (stored r).hash } := by
    rw [setField, if_neg (by decide), if_neg (by decide), if_pos rfl]
    rfl
  have hauditor : setField { path := r.path, selected := r.selected, hash := (stored r).hash }
      "auditor".toList r.auditor = some (stored r) := by
    rw [setField, if_neg (by decide), if_neg (by decide), if_neg (by decide), if_pos rfl]
    rfl
  rw [htext, readLines_line not_mem_nil readLine_empty,
    readLines_line (by decide) readLine_header,
    (isKey_of_field (.inl rfl)).readLines _ _ hpath,
    (isKey_of_field (.inr (.inl rfl))).readLines _ _ hselected,
    (isKey_of_field (.inr (.inr (.inl rfl)))).readLines _ _ hhash,
    (isKey_of_field (.inr (.inr (.inr rfl)))).readLines _ _ hauditor]

theorem readLines_renderRecords (path : Str) (lineNo : Nat) (records rs : List AuditRecord) :
    ∃ n, readLines path lineNo records (lines (rs.flatMap renderRecord)) =
      readLines path n (records ++ rs.map stored) [] := by
  induction rs generalizing lineNo records with
  | nil => exact ⟨lineNo, by simp [lines]⟩
  | cons r rs ih =>
    obtain ⟨n, hn⟩ := ih (lineNo + 6) (records ++ [stored r])
    refine ⟨n, ?_⟩
    rw [flatMap_cons, readLines_renderRecord, hn]
    simp

/-- The fields that are written as they are have some text. -/
structure Named (r : AuditRecord) : Prop where
  path : r.path ≠ []
  selected : r.selected ≠ []
  auditor : r.auditor ≠ []

theorem Named.lacksField (h : Named r) : lacksField (stored r) = false := by
  simp [AuditLog.lacksField, stored, h.path, h.selected, h.auditor]

/-- **The written log is read back**, each record as it is stored. -/
theorem readAuditRecords_renderAudit (path : Str) {rs : List AuditRecord}
    (hrs : ∀ r ∈ rs, Named r) :
    readAuditRecords path (renderAudit rs) = .ok (rs.map stored) := by
  have htext : renderAudit rs = "version = 1".toList ++ '\n' :: rs.flatMap renderRecord := by
    have hhead : "version = 1\n".toList = "version = 1".toList ++ ['\n'] := by decide
    unfold renderAudit
    rw [hhead, append_assoc, singleton_append]
  obtain ⟨n, hn⟩ := readLines_renderRecords path 1 [] rs
  have hread : readLines path 0 [] (lines (renderAudit rs)) = .ok (rs.map stored) := by
    rw [htext, readLines_line (by decide) readLine_version, hn]
    simp [readLines]
  have hlacks : (rs.map stored).any lacksField = false := by
    rw [any_eq_false]
    intro x hx
    obtain ⟨r, hr, hrx⟩ := List.mem_map.mp hx
    rw [← hrx, (hrs r hr).lacksField]
    exact Bool.false_ne_true
  rw [readAuditRecords, hread]
  show (if (rs.map stored).any lacksField = true then _ else _) = _
  rw [if_neg (by rw [hlacks]; exact Bool.false_ne_true)]
  rfl

end Lines

section Appending

variable {path : Str}

theorem normalizeHash_stored (r : AuditRecord) :
    normalizeHash (stored r).hash = normalizeHash r.hash := by
  have hstored : (stored r).hash = "sha256:".toList ++ normalizeHash r.hash := rfl
  rw [hstored, normalizeHash, if_pos (List.isPrefixOf_iff_prefix.mpr (prefix_append _ _))]
  rfl

theorem stored_stored (r : AuditRecord) : stored (stored r) = stored r := by
  have h := normalizeHash_stored r
  rw [stored, h]
  rfl

/-- The test for a record in the log compares what is stored. -/
theorem sameAudit_iff (a b : AuditRecord) : sameAudit a b = true ↔ stored a = stored b := by
  obtain ⟨ap, as, ah, aa⟩ := a
  obtain ⟨bp, bs, bh, ba⟩ := b
  simp only [sameAudit, stored, Bool.and_eq_true, decide_eq_true_eq, AuditRecord.mk.injEq,
    append_cancel_left_eq, and_assoc]

variable {records : List AuditRecord}

/-- A readable log has no record without a name. -/
theorem named_of_read {text : Str} (h : readAuditRecords path text = .ok records) :
    ∀ r ∈ records, Named r := by
  rw [readAuditRecords] at h
  cases hlines : readLines path 0 [] (lines text) with
  | error err =>
    rw [hlines] at h
    cases h
  | ok rs =>
    rw [hlines] at h
    have hread : (if rs.any lacksField = true then
        Except.error (path ++ ": every [[audit]] requires path, selected, hash, and auditor".toList)
      else Except.ok rs) = Except.ok records := h
    by_cases hlacks : rs.any lacksField = true
    · rw [if_pos hlacks] at hread
      cases hread
    · rw [if_neg hlacks] at hread
      cases hread
      intro r hr
      have hfalse : lacksField r = false := by
        have hall := List.any_eq_false.mp (Bool.eq_false_iff.mpr hlacks) r hr
        exact Bool.eq_false_iff.mpr hall
      simp only [lacksField, Bool.or_eq_false_iff, isEmpty_eq_false_iff] at hfalse
      exact ⟨hfalse.1.1.1, hfalse.1.1.2, hfalse.2⟩

/-- A log holds some records, up to the spelling of their hashes. -/
def Holds (path : Str) (log : Option Str) (records : List AuditRecord) : Prop :=
  match log with
  | none => records = []
  | some text => ∃ rs, readAuditRecords path text = .ok rs ∧
      ∀ x, x ∈ rs.map stored ↔ x ∈ records.map stored

/-- A log that `appendAuditRecord` wrote: its hashes are spelled as they are stored. -/
def Written (path : Str) (log : Option Str) : Prop :=
  ∀ text rs, log = some text → readAuditRecords path text = .ok rs → ∀ r ∈ rs, stored r = r

/-- **One record is appended.**  The call succeeds on a readable log, keeps what the log holds
and adds the record. -/
theorem appendAuditRecord_spec {log : Option Str} (hlog : Holds path log records) (hr : Named r) :
    ∃ log', appendAuditRecord path log r = .ok log' ∧ log' ≠ none ∧
      Holds path log' (records ++ [r]) ∧ (Written path log → Written path log') := by
  obtain ⟨rs, hread, hrs, hnamed⟩ : ∃ rs,
      (match log with
        | none => .ok []
        | some text => readAuditRecords path text) = Except.ok rs ∧
      (∀ x, x ∈ rs.map stored ↔ x ∈ records.map stored) ∧ ∀ q ∈ rs, Named q := by
    cases log with
    | none =>
      have hnil : records = [] := hlog
      exact ⟨[], rfl, by simp [hnil], fun q hq => absurd hq not_mem_nil⟩
    | some text =>
      obtain ⟨rs, hread, hrs⟩ := hlog
      exact ⟨rs, hread, hrs, named_of_read hread⟩
  have happend : appendAuditRecord path log r =
      if rs.any (sameAudit · r) then .ok log
      else .ok (some (renderAudit ((rs ++ [r]).mergeSort auditLe))) := by
    cases log with
    | none =>
      cases hread
      rfl
    | some text =>
      have htext : readAuditRecords path text = .ok rs := hread
      simp only [appendAuditRecord, htext]
      rfl
  by_cases hsame : rs.any (sameAudit · r) = true
  · rw [if_pos hsame] at happend
    obtain ⟨q, hq, hqr⟩ := List.any_eq_true.mp hsame
    have hin : stored r ∈ rs.map stored := by
      rw [← (sameAudit_iff q r).mp hqr]
      exact mem_map_of_mem hq
    refine ⟨log, happend, fun hnone => ?_, ?_, id⟩
    · subst hnone
      cases hread
      cases hq
    · cases log with
      | none =>
        cases hread
        cases hq
      | some text =>
        refine ⟨rs, hread, fun x => ?_⟩
        rw [map_append, mem_append, ← hrs x, map_singleton, mem_singleton]
        exact ⟨Or.inl, fun h => h.elim id fun hx => hx ▸ hin⟩
  · rw [if_neg hsame] at happend
    have hperm := mergeSort_perm (rs ++ [r]) auditLe
    have hall : ∀ q ∈ (rs ++ [r]).mergeSort auditLe, Named q := by
      intro q hq
      obtain hold | hnew := List.mem_append.mp (hperm.mem_iff.mp hq)
      · exact hnamed q hold
      · cases List.mem_singleton.mp hnew
        exact hr
    have hback := readAuditRecords_renderAudit path hall
    refine ⟨_, happend, Option.some_ne_none _, ⟨_, hback, fun x => ?_⟩, fun _ => ?_⟩
    · have htwice : stored ∘ stored = stored := funext stored_stored
      rw [map_map, htwice, (hperm.map stored).mem_iff, map_append, map_append,
        mem_append, mem_append, hrs x]
    · intro text rs' htext hread'
      cases htext
      rw [hback] at hread'
      cases hread'
      intro q hq
      obtain ⟨q', _, hqq⟩ := List.mem_map.mp hq
      rw [← hqq, stored_stored]

/-- The calls of `appendAuditRecord`, one after the other. -/
def appendAll (path : Str) (log : Option Str) (appended : List AuditRecord) :
    Except Str (Option Str) :=
  appended.foldlM (appendAuditRecord path) log

theorem appendAll_spec {log : Option Str} {appended : List AuditRecord}
    (hlog : Holds path log records) (happended : ∀ r ∈ appended, Named r) :
    ∃ log', appendAll path log appended = .ok log' ∧ (log' = none → log = none ∧ appended = []) ∧
      Holds path log' (records ++ appended) ∧ (Written path log → Written path log') := by
  induction appended generalizing log records with
  | nil => exact ⟨log, rfl, fun h => ⟨h, rfl⟩, by rw [append_nil]; exact hlog, id⟩
  | cons r rest ih =>
    obtain ⟨log₁, hok, hsome, hholds, hwritten⟩ :=
      appendAuditRecord_spec hlog (happended r mem_cons_self)
    obtain ⟨log', hok', hnone, hholds', hwritten'⟩ :=
      ih hholds fun q hq => happended q (mem_cons_of_mem r hq)
    refine ⟨log', ?_, fun h => absurd (hnone h).1 hsome, ?_, fun h => hwritten' (hwritten h)⟩
    · rw [appendAll, foldlM_cons, hok]
      exact hok'
    · rw [append_assoc] at hholds'
      exact hholds'

/-- **The audit log keeps what is appended.**  A log made by any calls with named records is read
back as exactly the appended records, each with its hash as it is stored; and a call on any
readable log keeps all its records, up to the spelling of the hash, and adds its own. -/
theorem auditLog_keeps (path : Str) :
    (∀ appended : List AuditRecord, (∀ r ∈ appended, Named r) →
      ∃ log, appendAll path none appended = .ok log ∧ (log = none → appended = []) ∧
        ∀ text, log = some text → ∃ records, readAuditRecords path text = .ok records ∧
          ∀ x, x ∈ records ↔ ∃ r ∈ appended, x = stored r) ∧
    ∀ (text : Str) (before : List AuditRecord) (r : AuditRecord),
      readAuditRecords path text = .ok before → Named r →
      ∃ text' after, appendAuditRecord path (some text) r = .ok (some text') ∧
        readAuditRecords path text' = .ok after ∧
        ∀ x, x ∈ after.map stored ↔ x ∈ before.map stored ∨ x = stored r := by
  constructor
  · intro appended happended
    have hempty : Holds path none [] := rfl
    obtain ⟨log, hok, hnone, hholds, hwritten⟩ := appendAll_spec hempty happended
    refine ⟨log, hok, fun h => (hnone h).2, fun text htext => ?_⟩
    subst htext
    obtain ⟨records, hread, hmem⟩ := hholds
    have hself := hwritten (fun _ _ h => nomatch h) text records rfl hread
    have hmap : records.map stored = records := by
      rw [map_congr_left hself]
      exact map_id records
    refine ⟨records, hread, fun x => ?_⟩
    rw [← hmap, hmem x, nil_append, mem_map]
    exact exists_congr fun r => and_congr_right fun _ => eq_comm
  · intro text before r hread hr
    have hholds : Holds path (some text) before := ⟨before, hread, fun _ => Iff.rfl⟩
    obtain ⟨log', hok, hsome, hholds', _⟩ := appendAuditRecord_spec hholds hr
    cases log' with
    | none => exact absurd rfl hsome
    | some text' =>
      obtain ⟨after, hread', hmem⟩ := hholds'
      refine ⟨text', after, hok, hread', fun x => ?_⟩
      rw [hmem x, map_append, mem_append, map_singleton, mem_singleton]

/-- One audit by a named auditor. -/
theorem auditLog_keeps_one :
    ∃ log, appendAll "log".toList none [⟨"m".toList, "1.0.0".toList, "ab".toList, "x".toList⟩] =
        .ok log ∧
      (log = none → [(⟨"m".toList, "1.0.0".toList, "ab".toList, "x".toList⟩ : AuditRecord)] = []) ∧
      ∀ text, log = some text → ∃ records, readAuditRecords "log".toList text = .ok records ∧
        ∀ x, x ∈ records ↔
          ∃ r ∈ [(⟨"m".toList, "1.0.0".toList, "ab".toList, "x".toList⟩ : AuditRecord)],
            x = stored r := by
  refine (auditLog_keeps "log".toList).1 _ fun r hr => ?_
  cases List.mem_singleton.mp hr
  exact ⟨by decide, by decide, by decide⟩

theorem appendAll_single (path : Str) (r : AuditRecord) :
    appendAll path none [r] = .ok (some (renderAudit [r])) := by
  have hsort : ([] ++ [r]).mergeSort auditLe = [r] := mergeSort_singleton r
  show (do let log ← appendAuditRecord path none r; pure log) = _
  show Except.ok (some (renderAudit (([] ++ [r]).mergeSort auditLe))) = _
  rw [hsort]

/-- A bare hash is read back with `sha256:` in front, and a record without an auditor makes the
whole log unreadable. -/
theorem auditLog_changes :
    (do
      let log ← appendAll "log".toList none [⟨"m".toList, "1.0.0".toList, "ab".toList, "x".toList⟩]
      readAuditRecords "log".toList (log.getD [])) =
      Except.ok [⟨"m".toList, "1.0.0".toList, "sha256:ab".toList, "x".toList⟩] ∧
    (do
      let log ← appendAll "log".toList none [⟨"m".toList, "1.0.0".toList, "ab".toList, []⟩]
      readAuditRecords "log".toList (log.getD [])) =
      Except.error "log: every [[audit]] requires path, selected, hash, and auditor".toList := by
  rw [appendAll_single, appendAll_single]
  constructor
  · have hnamed : ∀ r ∈ [(⟨"m".toList, "1.0.0".toList, "ab".toList, "x".toList⟩ : AuditRecord)],
        Named r := by
      intro r hr
      cases List.mem_singleton.mp hr
      exact ⟨by decide, by decide, by decide⟩
    exact readAuditRecords_renderAudit "log".toList hnamed
  · decide

end Appending

end AuditLog

end Leviathan.Trident
