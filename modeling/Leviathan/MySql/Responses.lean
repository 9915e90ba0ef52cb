import Leviathan.MySql.Connection

/-!
# The answers of the server

What a server may answer to a command, packet by packet, and what such an answer means.  The
packets of an answer, dispatched one after the other to a new command, give its meaning with
the last of them (`run_payloads`), unless the answer has one of two forms that `dispatchCommand`
takes for something else (`Response.Plain`).
-/

variable {p : Bytes} {n : Nat} {kind : Kind} {deprecateEof : Bool} {tail : List Bytes}

namespace Leviathan.MySql

open List

/-- An answer, by its payloads. -/
inductive Response where
  | ok (p : Bytes)
  | err (p : Bytes)
  /-- the definitions of the columns, the EOF packet behind them, the rows, and the packet that
  ends them -/
  | resultSet (columns : List Bytes) (eof : Bytes) (rows : List Bytes) (last : Bytes)
  /-- the answer to a prepare: the head, and two lists of definitions with their EOF packets -/
  | prepared (head : Bytes) (params : List Bytes) (paramsEof : Bytes) (columns : List Bytes)
      (columnsEof : Bytes)

namespace Response

/-- The EOF packet behind a list of definitions. -/
def closing (deprecateEof : Bool) (eof : Bytes) : List Bytes := if deprecateEof then [] else [eof]

/-- A list of definitions with its EOF packet; without definitions there is none. -/
def definitions (deprecateEof : Bool) (defs : List Bytes) (eof : Bytes) : List Bytes :=
  if defs = [] then [] else defs ++ closing deprecateEof eof

/-- The payloads of an answer in their order. -/
def payloads (deprecateEof : Bool) : Response → List Bytes
  | ok p => [p]
  | err p => [p]
  | resultSet columns eof rows last =>
    Wire.writeLenenc columns.length ::
      (columns ++ (closing deprecateEof eof ++ (rows ++ [last])))
  | prepared head params paramsEof columns columnsEof =>
    head :: (definitions deprecateEof params paramsEof
      ++ definitions deprecateEof columns columnsEof)

/-- A cell of a text row: a NULL mark, or a string behind its length. -/
def textCell : Option Bytes → Bytes
  | none => [0xFB]
  | some s => Wire.writeLenStr s

/-- A row in the format of the command: the cells of a text row one behind the other, or a binary
row, which starts with zero. -/
def RowFormat (kind : Kind) (p : Bytes) : Prop :=
  if kind = .execute then Proto.head p = some 0
  else ∃ cells : List (Option Bytes), cells ≠ [] ∧ p = cells.flatMap textCell

/-- The packet that ends the rows: ERR, or EOF, or in its place an OK packet under 0xFE. -/
def LastFormat (deprecateEof : Bool) (p : Bytes) : Prop :=
  Proto.isErr p = true ∨
    Proto.head p = some 0xFE ∧ if deprecateEof then 7 ≤ p.length else p.length = 5

/-- The documented answers to a command of a kind. -/
def Documented (kind : Kind) (deprecateEof : Bool) : Response → Prop
  | ok p => kind ≠ .prepare ∧ Proto.head p = some 0 ∧ 7 ≤ p.length
  | err p => Proto.isErr p = true
  | resultSet columns eof rows last =>
    kind ≠ .prepare ∧ columns ≠ [] ∧ columns.length < 2 ^ 63 ∧
      -- a definition starts with the length of its catalog, "def"
      (∀ p ∈ columns, Proto.head p = some 3) ∧ (Proto.head eof = some 0xFE ∧ eof.length = 5) ∧
      (∀ p ∈ rows, RowFormat kind p) ∧ LastFormat deprecateEof last
  | prepared head params _ columns _ =>
    kind = .prepare ∧ Proto.head head = some 0 ∧ Wire.u16 head 5 = .ok columns.length ∧
      Wire.u16 head 7 = .ok params.length

/-- The forms of an answer that are recognized: the packet in place of EOF is short enough to
pass for one, the number of columns does not look like an OK packet, and a payload makes up one
packet (or, as the sequence id has eight bits, 256 more, and so on). -/
def Plain (deprecateEof : Bool) (r : Response) : Prop :=
  (∀ p ∈ r.payloads deprecateEof, Framing.packetCount p.length % 256 = 1) ∧
    match r with
    | resultSet columns _ _ last =>
      deprecateEof = true → columns.length < 2 ^ 24 ∧ (Proto.isErr last = false → last.length < 9)
    | _ => True

variable {V : Type} (cells : Cells V)

/-- What the packet that ends the rows makes of them. -/
def endRows (deprecateEof : Bool) (columns : List ColumnDef) (last : Bytes)
    (rows : List (List V)) : Except Exn (CommandResult V × Option Nat) :=
  if Proto.isErr last then return (.failed (← CommandState.classifyErr last), none)
  else do
    let status ← CommandState.endStatus deprecateEof last
    return (.resultSet columns rows status, some status)

/-- The meaning of an answer, and the status in it. -/
def decode (kind : Kind) (deprecateEof : Bool) :
    Response → Except Exn (CommandResult V × Option Nat)
  | ok p => do
    let o ← Proto.parseOk p
    return (.ok o, some o.statusFlags)
  | err p => return (.failed (← CommandState.classifyErr p), none)
  | resultSet columns _ rows last => do
    let columns ← columns.mapM Proto.parseColumnDef
    let rows ← rows.mapM fun p => CommandState.decodeRow cells kind p columns
    endRows deprecateEof columns last rows
  | prepared head params _ columns _ => do
    let stmtId ← Wire.u32 head 1
    return (.prepared stmtId params.length columns.length, none)

end Response

namespace CommandState

variable {V : Type} (cells : Cells V)

/-- Packets for one command after the other: what the answer comes to, and the packets that are
left then, or none while it goes on. -/
def run (c : CommandState V) :
    List Bytes → Option (Except Exn (CommandResult V × Option Nat) × List Bytes)
  | [] => none
  | p :: rest =>
    match c.dispatchCommand cells p with
    | .error e => some (.error e, rest)
    | .ok (.more c') => run c' rest
    | .ok (.done r status) => some (.ok (r, status), rest)

/-- The answer comes to `outcome`, with its last packet if it can be read. -/
def Ends (c : CommandState V) (ps : List Bytes)
    (outcome : Except Exn (CommandResult V × Option Nat)) : Prop :=
  ∃ rest, c.run cells ps = some (outcome, rest) ∧ (∀ r, outcome = .ok r → rest = [])

variable {cells} {c : CommandState V}

theorem ends_more {c' : CommandState V} {ps : List Bytes}
    {outcome : Except Exn (CommandResult V × Option Nat)}
    (h : c.dispatchCommand cells p = .ok (.more c')) (hrest : Ends cells c' ps outcome) :
    Ends cells c (p :: ps) outcome := by
  obtain ⟨rest, hrun, hempty⟩ := hrest
  refine ⟨rest, ?_, hempty⟩
  rw [run, h]
  exact hrun

theorem ends_done {r : CommandResult V} {status : Option Nat}
    (h : c.dispatchCommand cells p = .ok (.done r status)) :
    Ends cells c [p] (.ok (r, status)) := by
  refine ⟨[], ?_, fun _ _ => rfl⟩
  rw [run, h]

theorem ends_error {ps : List Bytes} {e : Exn} (h : c.dispatchCommand cells p = .error e) :
    Ends cells c (p :: ps) (.error e) := by
  refine ⟨ps, ?_, ?_⟩
  · rw [run, h]
  · intro r hr
    cases hr

/-! ### Rows -/

theorem head_of_cons (x : UInt8) (p : Bytes) : Proto.head (x :: p) = some x.toNat := rfl

theorem isErr_of_head (h : Proto.head p = some n) (hn : n ≠ 0xFF) : Proto.isErr p = false := by
  rw [Proto.isErr, h]
  simpa using hn

theorem isEof_of_head (h : Proto.head p = some n) (hn : n ≠ 0xFE) : Proto.isEof p = false := by
  rw [Proto.isEof, h]
  simp [hn]

/-- The first byte of a length is below the marks of NULL, EOF and ERR, or it announces eight
bytes. -/
theorem head_writeLenenc (v : Nat) : ∃ n, Proto.head (Wire.writeLenenc v) = some n ∧ n ≠ 0xFF ∧
    n ≠ 0xFB ∧ (n = 0 → v = 0) ∧ (n = 0xFE → 2 ^ 24 ≤ v ∧ (Wire.writeLenenc v).length = 9) := by
  unfold Wire.writeLenenc
  by_cases hinline : (v : Int) < 0xFB
  · rw [if_pos hinline]
    refine ⟨v, ?_, by omega, by omega, fun h => h, by omega⟩
    show some (UInt8.ofNat ((v : Int) % 256).toNat).toNat = some v
    rw [Wire.toNat_ofNat_byte (by omega)]
    congr 1
    omega
  rw [if_neg hinline]
  by_cases htwo : (v : Int) ≤ 0xFFFF
  · rw [if_pos htwo]
    exact ⟨0xFC, rfl, by decide, by decide, fun h => absurd h (by decide), fun h => absurd h (by decide)⟩
  rw [if_neg htwo]
  by_cases hthree : (v : Int) ≤ 0xFFFFFF
  · rw [if_pos hthree]
    exact ⟨0xFD, rfl, by decide, by decide, fun h => absurd h (by decide), fun h => absurd h (by decide)⟩
  · rw [if_neg hthree]
    exact ⟨0xFE, rfl, by decide, by decide, fun h => absurd h (by decide), fun _ => ⟨by omega, rfl⟩⟩

/-- A row is not taken for the packet that ends the rows. -/
theorem row_format (h : Response.RowFormat kind p) :
    p ≠ [] ∧ Proto.isErr p = false ∧ Proto.isEof p = false := by
  by_cases hkind : kind = .execute
  · rw [Response.RowFormat, if_pos hkind] at h
    refine ⟨?_, isErr_of_head h (by decide), isEof_of_head h (by decide)⟩
    intro hnil
    rw [hnil] at h
    cases h
  · rw [Response.RowFormat, if_neg hkind] at h
    obtain ⟨cells, hcells, rfl⟩ := h
    cases cells with
    | nil => exact absurd rfl hcells
    | cons cell rest =>
      rw [flatMap_cons]
      cases cell with
      | none =>
        have hhead : Proto.head (Response.textCell none ++ rest.flatMap Response.textCell)
            = some 0xFB := rfl
        exact ⟨by simp [Response.textCell], isErr_of_head hhead (by decide),
          isEof_of_head hhead (by decide)⟩
      | some s =>
        obtain ⟨n, hn, hff, hfb, _, hfe⟩ := head_writeLenenc s.length
        have hhead : Proto.head (Response.textCell (some s)
            ++ rest.flatMap Response.textCell) = some n := by
          show Option.map UInt8.toNat ((Wire.writeLenenc s.length ++ s) ++ _).head? = _
          cases hw : Wire.writeLenenc (s.length : Int) with
          | nil =>
            rw [hw] at hn
            cases hn
          | cons x xs =>
            rw [hw] at hn
            exact hn
        refine ⟨?_, isErr_of_head hhead hff, ?_⟩
        · intro hnil
          rw [hnil] at hhead
          cases hhead
        · by_cases heq : n = 0xFE
          · obtain ⟨_, hlength⟩ := hfe heq
            have hlong : 9 ≤ (Response.textCell (some s)
                ++ rest.flatMap Response.textCell).length := by
              show 9 ≤ ((Wire.writeLenenc s.length ++ s) ++ _).length
              rw [length_append, length_append, hlength]
              omega
            rw [Proto.isEof]
            have hnot : ¬ (Response.textCell (some s)
                ++ rest.flatMap Response.textCell).length < 9 := by omega
            rw [decide_eq_false hnot, Bool.and_false]
          · exact isEof_of_head hhead heq

theorem byteAt_zero (hp : p ≠ []) : ∃ n, byteAt p 0 = .ok n ∧ Proto.head p = some n := by
  cases p with
  | nil => exact absurd rfl hp
  | cons x rest => exact ⟨x.toNat, rfl, rfl⟩

theorem dispatch_row (cells : Cells V) (hkind : c.kind ≠ .prepare) (hsub : c.sub = .rows) (p : Bytes) :
    c.dispatchCommand cells p = c.onRow cells p := by
  rw [dispatchCommand, if_neg hkind, hsub]

/-- The rows, and the packet that ends them. -/
theorem ends_rows {columns : List ColumnDef} {last : Bytes} (hkind : kind ≠ .prepare)
    (hlast : Response.LastFormat deprecateEof last)
    (hshort : deprecateEof = true → Proto.isErr last = false → last.length < 9)
    (rows : List Bytes) : ∀ c : CommandState V, c.kind = kind → c.deprecateEof = deprecateEof →
      c.sub = .rows → c.columns = columns → (∀ p ∈ rows, Response.RowFormat kind p) →
      Ends cells c (rows ++ [last]) (do
        let decoded ← rows.mapM fun p => decodeRow cells kind p columns
        Response.endRows deprecateEof columns last (c.rows ++ decoded)) := by
  induction rows with
  | nil =>
    intro c hc hdep hsub hcolumns _
    have hdispatch := dispatch_row cells (hc ▸ hkind) hsub last
    show Ends cells c [last] (Response.endRows deprecateEof columns last (c.rows ++ []))
    rw [append_nil, Response.endRows]
    by_cases herr : Proto.isErr last = true
    · rw [onRow, if_pos herr] at hdispatch
      rw [if_pos herr]
      cases hclass : classifyErr last with
      | error e =>
        rw [hclass] at hdispatch
        exact ends_error hdispatch
      | ok e =>
        rw [hclass] at hdispatch
        exact ends_done hdispatch
    · obtain ⟨hhead, hlength⟩ := hlast.resolve_left herr
      have hfalse : Proto.isErr last = false := by simpa using herr
      have hnine : last.length < 9 := by
        cases hd : deprecateEof with
        | true => exact hshort hd hfalse
        | false =>
          rw [hd] at hlength
          have hfive : last.length = 5 := hlength
          omega
      have hbyte : byteAt last 0 = .ok 0xFE := by
        obtain ⟨n, hn, hn'⟩ := byteAt_zero (p := last) (by
          intro hnil
          rw [hnil] at hhead
          cases hhead)
        rw [hhead] at hn'
        cases hn'
        exact hn
      rw [onRow, if_neg herr, hbyte] at hdispatch
      simp only [bind, Except.bind, hnine, and_self, if_true] at hdispatch
      rw [if_neg herr]
      rw [hdep] at hdispatch
      cases hstatus : endStatus deprecateEof last with
      | error e =>
        rw [hstatus] at hdispatch
        exact ends_error hdispatch
      | ok status =>
        rw [hstatus, hcolumns] at hdispatch
        exact ends_done hdispatch
  | cons p rest ih =>
    intro c hc hdep hsub hcolumns hrows
    obtain ⟨hne, herr, heof⟩ := row_format (hrows p mem_cons_self)
    obtain ⟨n, hbyte, hhead⟩ := byteAt_zero hne
    have hdispatch := dispatch_row cells (hc ▸ hkind) hsub p
    have hrow : ¬ (n = 0xFE ∧ p.length < 9) := by
      intro hand
      rw [Proto.isEof, hhead, hand.1] at heof
      simp [hand.2] at heof
    rw [onRow, if_neg (by rw [herr]; exact Bool.false_ne_true), hbyte] at hdispatch
    simp only [bind, Except.bind, if_neg hrow] at hdispatch
    subst hc hdep hcolumns
    rw [cons_append, mapM_cons]
    cases hdecoded : decodeRow cells c.kind p c.columns with
    | error e =>
      rw [hdecoded] at hdispatch
      exact ends_error hdispatch
    | ok row =>
      rw [hdecoded] at hdispatch
      have hrest := ih { c with rows := c.rows ++ [row] } rfl rfl hsub rfl
        fun q hq => hrows q (mem_cons_of_mem _ hq)
      refine ends_more hdispatch ?_
      simp only [bind, Except.bind, pure, Except.pure] at hrest ⊢
      cases hmap : rest.mapM fun q => decodeRow cells c.kind q c.columns with
      | error e =>
        rw [hmap] at hrest
        exact hrest
      | ok decoded =>
        rw [hmap] at hrest
        simp only [append_assoc, singleton_append] at hrest
        exact hrest

/-! ### Column definitions -/

theorem dispatch_column (cells : Cells V) (hkind : c.kind ≠ .prepare) (hsub : c.sub = .columns) (p : Bytes) :
    c.dispatchCommand cells p = c.onColumn p := by
  rw [dispatchCommand, if_neg hkind, hsub]

/-- The definitions of the columns that are left, with the EOF packet, lead to the rows. -/
theorem ends_columns {eof : Bytes} (hhead : Proto.head eof = some 0xFE) (hlength : eof.length = 5)
    (outcome : List ColumnDef → Except Exn (CommandResult V × Option Nat)) (columns : List Bytes) :
    ∀ c : CommandState V, c.kind ≠ .prepare → c.sub = .columns →
      (∀ p ∈ columns, Proto.head p = some 3) →
      (c.deprecateEof = true → columns ≠ []) → c.columnCount = c.columns.length + columns.length →
      (∀ decoded, Ends cells { c with columns := c.columns ++ decoded, sub := .rows } tail
        (outcome (c.columns ++ decoded))) →
      Ends cells c (columns ++ (Response.closing c.deprecateEof eof ++ tail)) (do
        let decoded ← columns.mapM Proto.parseColumnDef
        outcome (c.columns ++ decoded)) := by
  induction columns with
  | nil =>
    intro c hkind hsub _ hsome _ htail
    have hdep : c.deprecateEof = false := by
      cases hd : c.deprecateEof with
      | true => exact absurd rfl (hsome hd)
      | false => rfl
    have hdispatch := dispatch_column cells hkind hsub eof
    have hcond : (!c.deprecateEof && Proto.isEof eof) = true := by
      rw [hdep, Proto.isEof, hhead, hlength]
      rfl
    rw [onColumn, if_pos hcond] at hdispatch
    rw [Response.closing, hdep]
    show Ends cells c (eof :: tail) (outcome (c.columns ++ []))
    have hrest := htail []
    rw [append_nil] at hrest ⊢
    exact ends_more hdispatch hrest
  | cons p rest ih =>
    intro c hkind hsub hheads _ hcount htail
    have hdispatch := dispatch_column cells hkind hsub p
    have hnot : ¬ (!c.deprecateEof && Proto.isEof p) = true := by
      rw [isEof_of_head (hheads p mem_cons_self) (by decide), Bool.and_false]
      exact Bool.false_ne_true
    rw [onColumn, if_neg hnot] at hdispatch
    rw [cons_append, mapM_cons]
    cases hparsed : Proto.parseColumnDef p with
    | error e =>
      rw [hparsed] at hdispatch
      exact ends_error hdispatch
    | ok column =>
      rw [hparsed] at hdispatch
      simp only [bind, Except.bind, pure, Except.pure] at hdispatch ih ⊢
      rw [length_append, length_singleton] at hdispatch
      by_cases hlast : c.columns.length + 1 = c.columnCount ∧ c.deprecateEof = true
      · -- the last definition, with no EOF packet behind it
        rw [if_pos hlast] at hdispatch
        have hnil : rest = [] := by
          rw [length_cons] at hcount
          exact List.length_eq_zero_iff.mp (by omega)
        rw [hnil, Response.closing, hlast.2]
        exact ends_more hdispatch (htail [column])
      · rw [if_neg hlast] at hdispatch
        have hmore : c.deprecateEof = true → rest ≠ [] := by
          intro hdep hnil
          rw [hnil, length_singleton] at hcount
          exact hlast ⟨hcount.symm, hdep⟩
        have hrest := ih { c with columns := c.columns ++ [column] } hkind hsub
          (fun q hq => hheads q (mem_cons_of_mem _ hq)) hmore
          (by
            rw [length_cons] at hcount
            show c.columnCount = (c.columns ++ [column]).length + rest.length
            rw [length_append, length_singleton]
            omega)
          (fun decoded => by
            have hone := htail (column :: decoded)
            rw [← singleton_append, ← append_assoc] at hone
            exact hone)
        refine ends_more hdispatch ?_
        cases hmap : rest.mapM Proto.parseColumnDef with
        | error e =>
          rw [hmap] at hrest
          exact hrest
        | ok decoded =>
          rw [hmap] at hrest
          simp only [append_assoc, singleton_append] at hrest
          exact hrest

/-! ### The definitions of a prepare -/

/-- What follows the definitions. -/
def afterDefinitions (c : CommandState V) : Dispatched V :=
  if c.sub = .prepParams then c.afterPrepParams else c.completePrepare

theorem dispatch_definition (cells : Cells V) (hkind : c.kind = .prepare)
    (hsub : c.sub = .prepParams ∨ c.sub = .prepColumns) (p : Bytes) :
    c.dispatchCommand cells p = .ok (
      if c.prepRemaining > 0 then
        if c.prepRemaining - 1 = 0 ∧ c.deprecateEof = true then
          afterDefinitions { c with prepRemaining := c.prepRemaining - 1 }
        else .more { c with prepRemaining := c.prepRemaining - 1 }
      else c.afterDefinitions) := by
  rw [dispatchCommand, if_pos hkind, onPreparePacket, afterDefinitions]
  rcases hsub with h | h
  · simp only [h, pure, Except.pure]
    split
    · split
      · rfl
      · rfl
    · rw [afterDefinitions, h]
      rfl
  · simp only [h, pure, Except.pure]
    split
    · split
      · rfl
      · rfl
    · rw [afterDefinitions, h]
      rfl

/-- The answer goes on with `tail`, or it is complete. -/
def Continues (cells : Cells V) (tail : List Bytes)
    (outcome : Except Exn (CommandResult V × Option Nat)) : Dispatched V → Prop
  | .more c => Ends cells c tail outcome
  | .done r status => tail = [] ∧ outcome = .ok (r, status)

theorem ends_of_continues {d : Dispatched V} {outcome : Except Exn (CommandResult V × Option Nat)}
    (h : c.dispatchCommand cells p = .ok d) (hd : Continues cells tail outcome d) :
    Ends cells c (p :: tail) outcome := by
  cases d with
  | more c' => exact ends_more h hd
  | done r status =>
    obtain ⟨hnil, houtcome⟩ := hd
    rw [hnil, houtcome]
    exact ends_done h

/-- Parameter and column definitions are counted. -/
theorem ends_definitions (cells : Cells V) (eof : Bytes) (tail : List Bytes)
    (outcome : Except Exn (CommandResult V × Option Nat)) (defs : List Bytes) :
    ∀ c : CommandState V, c.kind = .prepare → (c.sub = .prepParams ∨ c.sub = .prepColumns) →
      c.prepRemaining = defs.length → (c.deprecateEof = true → defs ≠ []) →
      Continues cells tail outcome (afterDefinitions { c with prepRemaining := 0 }) →
      Ends cells c (defs ++ (Response.closing c.deprecateEof eof ++ tail)) outcome := by
  induction defs with
  | nil =>
    intro c hkind hsub hremaining hsome hafter
    have hdep : c.deprecateEof = false := by
      cases hd : c.deprecateEof with
      | true => exact absurd rfl (hsome hd)
      | false => rfl
    have hzero : c.prepRemaining = 0 := hremaining
    have hdispatch := dispatch_definition cells hkind hsub eof
    rw [if_neg (by omega)] at hdispatch
    have hsame : ({ c with prepRemaining := 0 } : CommandState V) = c := by
      rw [← hzero]
    rw [hsame] at hafter
    rw [Response.closing, hdep]
    exact ends_of_continues hdispatch hafter
  | cons p rest ih =>
    intro c hkind hsub hremaining _ hafter
    have hdispatch := dispatch_definition cells hkind hsub p
    rw [length_cons] at hremaining
    rw [if_pos (by omega)] at hdispatch
    have hpred : c.prepRemaining - 1 = rest.length := by omega
    rw [hpred] at hdispatch
    by_cases hlast : rest.length = 0 ∧ c.deprecateEof = true
    · rw [if_pos hlast] at hdispatch
      rw [List.length_eq_zero_iff.mp hlast.1] at hdispatch ⊢
      rw [Response.closing, hlast.2]
      exact ends_of_continues hdispatch hafter
    · rw [if_neg hlast] at hdispatch
      refine ends_more hdispatch ?_
      refine ih { c with prepRemaining := rest.length } hkind hsub rfl ?_ hafter
      intro hdep hnil
      exact hlast ⟨by rw [hnil]; rfl, hdep⟩

/-- After the parameters come the columns of the prepared statement, if it has any. -/
theorem continues_columns (cells : Cells V) (columns : List Bytes) (eof : Bytes)
    {c : CommandState V}
    (hkind : c.kind = .prepare) (hcount : c.prepNumColumns = columns.length) :
    Continues cells (Response.definitions c.deprecateEof columns eof)
      (.ok (.prepared c.prepStmtId c.prepNumParams c.prepNumColumns, none)) c.afterPrepParams := by
  rw [afterPrepParams, Response.definitions]
  by_cases hnone : columns = []
  · have hzero : ¬ c.prepNumColumns > 0 := by
      rw [hcount, hnone]
      exact Nat.lt_irrefl 0
    rw [if_neg hzero, if_pos hnone]
    exact ⟨rfl, rfl⟩
  · have hpos : c.prepNumColumns > 0 := by
      rw [hcount]
      exact List.length_pos_iff.mpr hnone
    rw [if_pos hpos, if_neg hnone]
    have hends := ends_definitions cells eof []
      (.ok (.prepared c.prepStmtId c.prepNumParams c.prepNumColumns, none)) columns
      { c with sub := .prepColumns, prepRemaining := c.prepNumColumns } hkind (Or.inr rfl) hcount
      (fun _ => hnone) (show Continues cells [] _ _ from ⟨rfl, rfl⟩)
    rw [append_nil] at hends
    exact hends

/-! ### Whole answers -/

theorem isLocalInfile_of_head (h : Proto.head p = some n) (hn : n ≠ 0xFB) :
    Proto.isLocalInfile p = false := by
  rw [Proto.isLocalInfile, h]
  simpa using hn

theorem dispatch_first (cells : Cells V) (hkind : c.kind ≠ .prepare) (hsub : c.sub = .first) (p : Bytes) :
    c.dispatchCommand cells p = c.onFirst p := by
  rw [dispatchCommand, if_neg hkind, hsub]

/-- The state of a command that was just sent. -/
def fresh (promise : Nat) (kind : Kind) (deprecateEof : Bool) : CommandState V :=
  { promise, kind, deprecateEof }

/-- The state of a prepare whose head was read. -/
def headRead (promise : Nat) (kind : Kind) (deprecateEof : Bool) (id numParams numColumns : Nat) :
    CommandState V :=
  { promise, kind, deprecateEof, prepStmtId := id, prepNumParams := numParams,
    prepNumColumns := numColumns }

/-- The number of columns is not taken for an OK packet. -/
theorem ends_count (promise : Nat) (hkind : kind ≠ .prepare) (hzero : n ≠ 0) (hn : n < 2 ^ 63)
    (hfew : deprecateEof = true → n < 2 ^ 24) {outcome : Except Exn (CommandResult V × Option Nat)}
    (h : Ends cells { promise, kind, deprecateEof, sub := .columns, columnCount := n } tail outcome) :
    Ends cells (fresh promise kind deprecateEof) (Wire.writeLenenc n :: tail) outcome := by
  obtain ⟨b, hhead, hff, hfb, hnull, hfe⟩ := head_writeLenenc n
  have hok : Proto.isOk (Wire.writeLenenc n) deprecateEof = false := by
    rw [Proto.isOk, hhead]
    by_cases hlen : (Wire.writeLenenc n).length < 7
    · rw [if_pos hlen]
    · rw [if_neg hlen, if_neg (by
        intro heq
        exact hzero (hnull (Option.some.inj heq)))]
      cases hd : deprecateEof with
      | false => rfl
      | true =>
        have hfew' := hfew hd
        have hne : b ≠ 0xFE := by
          intro heq
          have := (hfe heq).1
          omega
        simpa using hne
  have hcount : Wire.readLenenc (Wire.writeLenenc n) 0 = .ok ⟨n, (Wire.writeLenenc n).length⟩ :=
    Wire.readLenenc_writeLenenc hn ⟨[], by simp⟩
  have hdispatch := dispatch_first (c := fresh promise kind deprecateEof) cells hkind rfl (Wire.writeLenenc n)
  rw [onFirst, isErr_of_head hhead hff, isLocalInfile_of_head hhead hfb,
    show (fresh promise kind deprecateEof : CommandState V).deprecateEof = deprecateEof from rfl,
    hok, hcount] at hdispatch
  exact ends_more hdispatch h

/-- **The packets of a documented answer come to its meaning with the last of them**, and no
earlier. -/
theorem ends_payloads {r : Response} (promise : Nat) (hdoc : r.Documented kind deprecateEof)
    (hplain : r.Plain deprecateEof) :
    Ends cells (fresh promise kind deprecateEof) (r.payloads deprecateEof)
      (r.decode cells kind deprecateEof) := by
  cases r with
  | ok p =>
    obtain ⟨hkind, hhead, hlength⟩ := hdoc
    have hok : Proto.isOk p deprecateEof = true := by
      rw [Proto.isOk, hhead, if_neg (by omega), if_pos rfl]
    have hdispatch := dispatch_first (c := fresh promise kind deprecateEof) cells hkind rfl p
    rw [onFirst, isErr_of_head hhead (by decide), isLocalInfile_of_head hhead (by decide),
      show (fresh promise kind deprecateEof : CommandState V).deprecateEof = deprecateEof from rfl,
      hok] at hdispatch
    show Ends cells _ [p] _
    rw [Response.decode]
    cases hparsed : Proto.parseOk p with
    | error e =>
      rw [hparsed] at hdispatch
      exact ends_error hdispatch
    | ok o =>
      rw [hparsed] at hdispatch
      exact ends_done hdispatch
  | err p =>
    have hdispatch : (fresh promise kind deprecateEof : CommandState V).dispatchCommand cells p
        = (do return .done (.failed (← classifyErr p)) none) := by
      have herr : Proto.isErr p = true := hdoc
      by_cases hkind : kind = .prepare
      · rw [dispatchCommand, if_pos (show (fresh promise kind deprecateEof : CommandState V).kind
          = .prepare from hkind), onPreparePacket]
        show (if Proto.isErr p = true then _ else _) = _
        rw [if_pos herr]
      · rw [dispatch_first cells hkind rfl, onFirst, if_pos herr]
    show Ends cells _ [p] _
    rw [Response.decode]
    cases hclass : classifyErr p with
    | error e =>
      rw [hclass] at hdispatch
      exact ends_error hdispatch
    | ok e =>
      rw [hclass] at hdispatch
      exact ends_done hdispatch
  | resultSet columns eof rows last =>
    obtain ⟨hkind, hsome, hmany, hcolumns, ⟨heof, hfive⟩, hrows, hlast⟩ := hdoc
    obtain ⟨-, hplain⟩ := hplain
    have hlength : columns.length ≠ 0 := by
      intro h
      exact hsome (List.length_eq_zero_iff.mp h)
    rw [Response.payloads, Response.decode]
    refine ends_count promise hkind hlength hmany (fun hd => (hplain hd).1) ?_
    have hrest : ∀ decoded : List ColumnDef, Ends cells
        { promise, kind, deprecateEof, sub := .rows, columnCount := columns.length,
          columns := decoded } (rows ++ [last]) (do
        let rows ← rows.mapM fun p => decodeRow cells kind p decoded
        Response.endRows deprecateEof decoded last rows) := by
      intro decoded
      exact ends_rows hkind hlast (fun hd => (hplain hd).2) rows
        { promise, kind, deprecateEof, sub := .rows, columnCount := columns.length,
          columns := decoded } rfl rfl rfl rfl hrows
    exact ends_columns heof hfive (fun decoded => do
        let rows ← rows.mapM fun p => decodeRow cells kind p decoded
        Response.endRows deprecateEof decoded last rows) columns
      { promise, kind, deprecateEof, sub := .columns, columnCount := columns.length } hkind rfl
      hcolumns (fun _ => hsome) (by simp) hrest
  | prepared head params paramsEof columns columnsEof =>
    obtain ⟨hkind, hhead, hcolumns, hparams⟩ := hdoc
    rw [Response.payloads, Response.decode]
    have hdispatch : (fresh promise kind deprecateEof : CommandState V).dispatchCommand cells head
        = (fresh promise kind deprecateEof : CommandState V).onPreparePacket head := by
      rw [dispatchCommand, if_pos (show (fresh promise kind deprecateEof : CommandState V).kind
        = .prepare from hkind)]
    have herr : ¬ Proto.isErr head = true := by
      rw [isErr_of_head hhead (by decide)]
      exact Bool.false_ne_true
    have hsub : (fresh promise kind deprecateEof : CommandState V).sub = .first := rfl
    rw [onPreparePacket, hsub] at hdispatch
    simp only [if_neg herr, hcolumns, hparams, bind, Except.bind, pure, Except.pure] at hdispatch
    cases hid : Wire.u32 head 1 with
    | error e =>
      rw [hid] at hdispatch
      exact ends_error hdispatch
    | ok id =>
      rw [hid] at hdispatch
      by_cases hnone : params = []
      · have hrest := continues_columns cells columns columnsEof
          (c := headRead promise kind deprecateEof id 0 columns.length) hkind rfl
        have hafter : (fresh promise kind deprecateEof : CommandState V).dispatchCommand cells
            head = .ok (headRead promise kind deprecateEof id 0 columns.length).afterPrepParams := by
          rw [hdispatch, hnone, afterPrepParams]
          show (if columns.length > 0 then _ else _) = Except.ok (if columns.length > 0 then _ else _)
          split
          · rfl
          · rfl
        rw [hnone]
        exact ends_of_continues hafter hrest
      · have hrest := continues_columns cells columns columnsEof
          (c := { headRead promise kind deprecateEof id params.length columns.length with
            sub := .prepParams }) hkind rfl
        have hpos : params.length > 0 := List.length_pos_iff.mpr hnone
        simp only [if_pos hpos] at hdispatch
        refine ends_more hdispatch ?_
        rw [Response.definitions, if_neg hnone, append_assoc]
        exact ends_definitions cells paramsEof _ _ params
          { headRead promise kind deprecateEof id params.length columns.length with
            sub := .prepParams, prepRemaining := params.length } hkind (Or.inl rfl) rfl
          (fun _ => hnone) hrest

end CommandState

end Leviathan.MySql
