import Leviathan.Frontend.Chunks
import Leviathan.Driver.BuildPlan

/-!
# The items of a plan

A plan is a list of items, each a field or a row, and the reader's loop reads one
item in one turn.  `Item.chunks` is the text of an item as a list of chunks,
`Item.Accepted` says which items the reader takes and `Item.apply` what it does
with one it takes.  `items_lexAt` runs the loop over a whole list of items.

The strings come back as they were written, escapes and all.
-/

namespace Leviathan.Driver

open Frontend List
open Text (quote)

/-- A field or a row of a plan. -/
inductive Item where
  | out (v : Str)
  | mode (v : Str)
  | target (v : Str)
  | optLevel (n : Int32)
  | entry (kind target : Str)
  | src (s : PlanSource)
  | edge (e : PlanEdge)
  | asset (a : PlanAsset)

/-! ### Text -/

/-- A string field. -/
def fieldChunks (blanks name value : Str) : List Chunk :=
  [⟨blanks, .word name⟩, ⟨[' '], .symbol '=' .Eq⟩, ⟨[' '], .string value⟩,
    ⟨[], .symbol ';' .Semicolon⟩]

/-- A row: its name and its fields between braces. -/
def rowChunks (name : Str) (fields : List (Str × Str)) : List Chunk :=
  ⟨"\n    ".toList, .word name⟩ :: ⟨[' '], .symbol '{' .LBrace⟩ ::
    (fields.flatMap (fun (f, v) => fieldChunks [' '] f v) ++ [⟨[' '], .symbol '}' .RBrace⟩])

/-- A printed integer. -/
def integerChunks (n : Int) : List Chunk :=
  match n with
  | .ofNat n => [⟨[' '], .numeral n⟩]
  | .negSucc n => [⟨[' '], .symbol '-' .Minus⟩, ⟨[], .numeral (n + 1)⟩]

def PlanSource.fields (s : PlanSource) : List (Str × Str) :=
  [("path".toList, s.path), ("moduleId".toList, s.moduleId), ("origin".toList, s.origin)]

def PlanEdge.fields (e : PlanEdge) : List (Str × Str) :=
  [("from".toList, e.from_), ("to".toList, e.to_)]

def PlanAsset.fields (a : PlanAsset) : List (Str × Str) :=
  [("rel".toList, a.rel), ("path".toList, a.path), ("moduleId".toList, a.moduleId),
    ("hash".toList, a.hash)]

/-- An item as it is written. -/
def Item.chunks : Item → List Chunk
  | out v => fieldChunks "\n    ".toList "out".toList v
  | mode v => fieldChunks "\n    ".toList "mode".toList v
  | target v => fieldChunks "\n    ".toList "target".toList v
  | optLevel n =>
    ⟨"\n    ".toList, .word "optLevel".toList⟩ :: ⟨[' '], .symbol '=' .Eq⟩ ::
      (integerChunks n.toInt ++ [⟨[], .symbol ';' .Semicolon⟩])
  | entry kind tgt => rowChunks "entry".toList [("kind".toList, kind), ("target".toList, tgt)]
  | src s => rowChunks "src".toList s.fields
  | edge e => rowChunks "edge".toList e.fields
  | asset a => rowChunks "asset".toList a.fields

/-! ### Reading an item -/

/-- The items the reader takes. -/
def Item.Accepted : Item → Prop
  | optLevel n => 0 ≤ n.toInt
  | entry kind _ => (entryKindOf kind).isSome
  | src s => s.path ≠ []
  | asset a => a.rel ≠ [] ∧ a.path ≠ []
  | _ => True

def PlanSource.escaped (s : PlanSource) : PlanSource :=
  ⟨escape s.path, escape s.moduleId, escape s.origin⟩

def PlanEdge.escaped (e : PlanEdge) : PlanEdge := ⟨escape e.from_, escape e.to_⟩

def PlanAsset.escaped (a : PlanAsset) : PlanAsset :=
  ⟨escape a.rel, escape a.path, escape a.moduleId, escape a.hash⟩

/-- What an item does to the plan. -/
def Item.applyPlan (plan : BuildPlan) : Item → BuildPlan
  | out v => { plan with out := escape v }
  | mode v => { plan with mode := escape v }
  | target v => { plan with target := escape v }
  | optLevel n => { plan with optLevel := n }
  | entry kind tgt =>
    { plan with entryKind := (entryKindOf kind).getD .Script, entryTarget := escape tgt }
  | src s => { plan with sources := plan.sources ++ [s.escaped] }
  | edge e => { plan with edges := plan.edges ++ [e.escaped] }
  | asset a => { plan with assets := plan.assets ++ [a.escaped] }

/-- Whether an item is the entry. -/
def Item.isEntry : Item → Bool
  | entry _ _ => true
  | _ => false

/-- What an item does to the state of the reader: `ts` are the tokens after it. -/
def Item.apply (st : PlanState) (ts : List Token) (i : Item) : PlanState :=
  { plan := i.applyPlan st.plan
    sawEntry := st.sawEntry || i.isEntry
    reader := ⟨ts, st.reader.sink⟩ }

/-- A string token is read without its quotes, escapes and all. -/
@[simp] theorem unquote_quote (s : Str) : unquote (quote s) = escape s := by
  unfold unquote
  rw [quote_eq]
  simp

variable {α : Type} {onField : PlanReader.OnField α} {row row' : α} {value name : Str}
  {t₁ t₂ t₃ : Token} {fs : List (Str × Str)}

section Reader

variable {t : Token} {ts : List Token} {sink : List Diagnostic} {k : TokenKind}

theorem advance_cons (h : t.kind ≠ .End) :
    PlanReader.advance ⟨t :: ts, sink⟩ = ⟨ts, sink⟩ := if_neg h

theorem isAt_cons : PlanReader.isAt ⟨t :: ts, sink⟩ k = true ↔ t.kind = k :=
  decide_eq_true_iff

theorem expect_cons (h : t.kind = k) (hk : k ≠ .End) (what : Str) :
    PlanReader.expect ⟨t :: ts, sink⟩ k what = .ok ⟨ts, sink⟩ := by
  unfold PlanReader.expect
  rw [if_pos (isAt_cons.mpr h), advance_cons (h ▸ hk)]

private theorem scalar_string {s : Str} (hk : t.kind = .StringLiteral) (ht : t.text = quote s) :
    PlanReader.scalar ⟨t :: ts, sink⟩ = .ok (escape s, ⟨ts, sink⟩) := by
  unfold PlanReader.scalar
  rw [if_pos (isAt_cons.mpr hk), advance_cons (by rw [hk]; decide)]
  change Except.ok (unquote t.text, _) = _
  rw [ht, unquote_quote]

private theorem skipSemicolon_cons (h : t.kind = .Semicolon) :
    PlanReader.skipSemicolon ⟨t :: ts, sink⟩ = ⟨ts, sink⟩ := by
  unfold PlanReader.skipSemicolon
  rw [if_pos (isAt_cons.mpr h), advance_cons (by rw [h]; decide)]

private theorem field_tokens {t₄ : Token} (h₁ : t₁.kind = .Identifier) (h₂ : t₂.kind = .Eq)
    (h₃ : t₃.kind = .StringLiteral) (hvalue : t₃.text = quote value) (h₄ : t₄.kind = .Semicolon)
    (h : onField row t₁.text (escape value) = .ok row') :
    PlanReader.field onField row ⟨t₁ :: t₂ :: t₃ :: t₄ :: ts, sink⟩ = .ok (row', ⟨ts, sink⟩) := by
  unfold PlanReader.field
  rw [if_pos (isAt_cons.mpr h₁), advance_cons (by rw [h₁]; decide), expect_cons h₂ (by decide),
    ok_bind, scalar_string h₃ hvalue, ok_bind]
  simp only [PlanReader.cur, headD_cons, h, skipSemicolon_cons h₄]

variable {pos : Nat}

/-- **Step lemma.**  A turn of the field loop on a written field. -/
theorem field_fieldChunks {blanks : Str} (h : onField row name (escape value) = .ok row') :
    PlanReader.field onField row ⟨lexAt pos (fieldChunks blanks name value) ++ ts, sink⟩ =
      .ok (row', ⟨ts, sink⟩) :=
  field_tokens rfl rfl rfl rfl rfl h

/-- **Run lemma.**  The field loop on written fields, up to the closing brace. -/
theorem fields_fieldChunks {fuel : Nat} (hfuel : fs.length ≤ fuel) (hbrace : t.kind = .RBrace)
    (h : fs.foldlM (fun row (f, v) => onField row f (escape v)) row = .ok row') :
    PlanReader.fields onField fuel row
        ⟨lexAt pos (fs.flatMap (fun (f, v) => fieldChunks [' '] f v)) ++ t :: ts, sink⟩ =
      .ok (row', ⟨t :: ts, sink⟩) := by
  induction fs generalizing row pos fuel with
  | nil =>
    obtain rfl : row = row' := Except.ok.inj h
    unfold PlanReader.fields
    rw [if_pos (by simp [lexAt, PlanReader.isAt, PlanReader.cur, hbrace])]
    rfl
  | cons fv fs ih =>
    obtain ⟨f, v⟩ := fv
    obtain ⟨row₁, h₁, h₂⟩ := bind_eq_ok.mp h
    cases fuel with
    | zero => simp at hfuel
    | succ fuel =>
      rw [flatMap_cons, lexAt_append, append_assoc]
      unfold PlanReader.fields
      rw [if_neg (by simp [fieldChunks, lexAt, PlanReader.isAt, PlanReader.cur, Chunk.token,
        Lexeme.kind])]
      simp only [field_fieldChunks h₁, ok_bind]
      exact ih (by simpa using hfuel) h₂

/-- A written row after its name. -/
theorem fieldBlock_rowChunks
    (h : fs.foldlM (fun row (f, v) => onField row f (escape v)) row = .ok row') :
    PlanReader.fieldBlock onField row ⟨(lexAt pos (rowChunks name fs)).tail ++ ts, sink⟩ =
      .ok (row', ⟨ts, sink⟩) := by
  unfold PlanReader.fieldBlock rowChunks
  simp only [lexAt, tail_cons, lexAt_append, cons_append, append_assoc,
    nil_append]
  have hfuel : ∀ p, fs.length ≤ (lexAt p (fs.flatMap (fun (f, v) => fieldChunks [' '] f v)) ++
      (Chunk.mk [' '] (.symbol '}' .RBrace)).token
        (p + (render (fs.flatMap (fun (f, v) => fieldChunks [' '] f v))).length) :: ts).length := by
    intro p
    rw [length_append, length_lexAt]
    have : fs.length ≤ (fs.flatMap (fun (f, v) => fieldChunks [' '] f v)).length := by
      clear h
      induction fs with
      | nil => exact le_rfl
      | cons fv fs ih => simp [fieldChunks] at ih ⊢; omega
    omega
  rw [expect_cons (k := .LBrace) rfl (by decide), ok_bind,
    fields_fieldChunks (hfuel _) rfl h, ok_bind]
  dsimp only
  rw [expect_cons (k := .RBrace) rfl (by decide), ok_bind]

end Reader

variable {n : Int32} {i : Item}

section Item

variable {st : PlanState} {t : Token} {ts : List Token} {sink : List Diagnostic} {pos : Nat}

/-- A turn of the plan's loop, by the name it starts with. -/
private theorem item_cons (hst : st.reader = ⟨t :: ts, sink⟩) (hk : t.kind = .Identifier) :
    st.item =
      (if t.text = "entry".toList then { st with reader := ⟨ts, sink⟩ }.entryRow
       else if t.text = "src".toList then { st with reader := ⟨ts, sink⟩ }.srcRow
       else if t.text = "edge".toList then { st with reader := ⟨ts, sink⟩ }.edgeRow
       else if t.text = "asset".toList then { st with reader := ⟨ts, sink⟩ }.assetRow
       else if t.text = "out".toList ∨ t.text = "mode".toList ∨ t.text = "target".toList ∨
          t.text = "optLevel".toList then { st with reader := ⟨ts, sink⟩ }.planField t.text
       else { st with reader := ⟨ts, sink⟩ }.fail
          ("unknown plan field or block '".toList ++ t.text ++ "'".toList)) := by
  unfold PlanState.item
  rw [hst, if_pos (isAt_cons.mpr hk), advance_cons (by rw [hk]; decide)]
  rfl

/-- The state at the row after its name. -/
private def atRow (st : PlanState) (pos : Nat) (name : Str) (fs : List (Str × Str))
    (ts : List Token) : PlanState :=
  { st with reader := ⟨(lexAt pos (rowChunks name fs)).tail ++ ts, st.reader.sink⟩ }

/-- A written row after its name, inside the plan. -/
private theorem lift_fieldBlock (row' : α)
    (h : fs.foldlM (fun row (f, v) => onField row f (escape v)) row = .ok row') :
    (atRow st pos name fs ts).lift ((atRow st pos name fs ts).reader.fieldBlock onField row) =
      .ok (row', ⟨ts, st.reader.sink⟩) := by
  unfold atRow
  rw [fieldBlock_rowChunks h]
  rfl

private theorem entryRow_chunks (st : PlanState) (pos : Nat) (ts : List Token) (kind target : Str) :
    (atRow st pos "entry".toList [("kind".toList, kind), ("target".toList, target)] ts).entryRow =
      match entryKindOf (escape kind) with
      | some entryKind =>
        .ok { st with
          plan := { st.plan with entryKind, entryTarget := escape target }
          sawEntry := true
          reader := ⟨ts, st.reader.sink⟩ }
      | none =>
        PlanState.fail { st with reader := ⟨ts, st.reader.sink⟩ }
          "entry.kind must be 'script', 'file', or 'function'".toList := by
  unfold PlanState.entryRow
  rw [lift_fieldBlock (escape kind, escape target) rfl, ok_bind]
  rfl

private theorem srcRow_chunks (st : PlanState) (pos : Nat) (ts : List Token) (s : PlanSource) :
    (atRow st pos "src".toList s.fields ts).srcRow =
      if (escape s.path).isEmpty then
        PlanState.fail { st with reader := ⟨ts, st.reader.sink⟩ } "'src' is missing 'path'".toList
      else
        .ok { st with
          plan := { st.plan with sources := st.plan.sources ++ [s.escaped] }
          reader := ⟨ts, st.reader.sink⟩ } := by
  unfold PlanState.srcRow
  rw [lift_fieldBlock s.escaped rfl, ok_bind]
  rfl

private theorem edgeRow_chunks (st : PlanState) (pos : Nat) (ts : List Token) (e : PlanEdge) :
    (atRow st pos "edge".toList e.fields ts).edgeRow =
      .ok { st with
        plan := { st.plan with edges := st.plan.edges ++ [e.escaped] }
        reader := ⟨ts, st.reader.sink⟩ } := by
  unfold PlanState.edgeRow
  rw [lift_fieldBlock e.escaped rfl, ok_bind]
  rfl

private theorem assetRow_chunks (st : PlanState) (pos : Nat) (ts : List Token) (a : PlanAsset) :
    (atRow st pos "asset".toList a.fields ts).assetRow =
      if (escape a.rel).isEmpty then
        PlanState.fail { st with reader := ⟨ts, st.reader.sink⟩ } "'asset' is missing 'rel'".toList
      else if (escape a.path).isEmpty then
        PlanState.fail { st with reader := ⟨ts, st.reader.sink⟩ } "'asset' is missing 'path'".toList
      else
        .ok { st with
          plan := { st.plan with assets := st.plan.assets ++ [a.escaped] }
          reader := ⟨ts, st.reader.sink⟩ } := by
  unfold PlanState.assetRow
  rw [lift_fieldBlock a.escaped rfl, ok_bind]
  rfl

/-- A written string field of the plan after its name. -/
private theorem planField_string (h₁ : t₁.kind = .Eq) (h₂ : t₂.kind = .StringLiteral)
    (hvalue : t₂.text = quote value) (h₃ : t₃.kind = .Semicolon) :
    PlanState.planField name { st with reader := ⟨t₁ :: t₂ :: t₃ :: ts, sink⟩ } =
      .ok { st with
        plan :=
          if name = "out".toList then { st.plan with out := escape value }
          else if name = "mode".toList then { st.plan with mode := escape value }
          else if name = "target".toList then { st.plan with target := escape value }
          else { st.plan with optLevel := Text.atoi (escape value) }
        reader := ⟨ts, sink⟩ } := by
  unfold PlanState.planField
  dsimp only
  rw [expect_cons h₁ (by decide)]
  dsimp only [PlanState.lift, Except.mapError]
  rw [ok_bind, scalar_string h₂ hvalue]
  dsimp only
  rw [ok_bind, skipSemicolon_cons h₃]

/-- The written level of a plan after its name. -/
private theorem planField_numeral (h₁ : t₁.kind = .Eq) (h₂ : t₂.kind = .IntLiteral)
    (hvalue : Text.atoi t₂.text = n) (h₃ : t₃.kind = .Semicolon) :
    PlanState.planField "optLevel".toList { st with reader := ⟨t₁ :: t₂ :: t₃ :: ts, sink⟩ } =
      .ok { st with plan := { st.plan with optLevel := n }, reader := ⟨ts, sink⟩ } := by
  have hscalar : PlanReader.scalar ⟨t₂ :: t₃ :: ts, sink⟩ = .ok (t₂.text, ⟨t₃ :: ts, sink⟩) := by
    unfold PlanReader.scalar
    rw [if_neg (by rw [isAt_cons, h₂]; decide), if_pos (isAt_cons.mpr h₂),
      advance_cons (by rw [h₂]; decide)]
    rfl
  unfold PlanState.planField
  dsimp only
  rw [expect_cons h₁ (by decide)]
  dsimp only [PlanState.lift, Except.mapError]
  rw [ok_bind, hscalar]
  dsimp only
  rw [ok_bind, skipSemicolon_cons h₃, if_neg (by decide), if_neg (by decide), if_neg (by decide),
    hvalue]

/-- A level with a sign is refused. -/
private theorem planField_minus (h₁ : t₁.kind = .Eq) (h₂ : t₂.kind = .Minus) :
    ∃ r, PlanState.planField name { st with reader := ⟨t₁ :: t₂ :: ts, sink⟩ } =
      .error { st with reader := r } := by
  have hscalar : ∃ r, PlanReader.scalar ⟨t₂ :: ts, sink⟩ = .error r := by
    unfold PlanReader.scalar
    rw [if_neg (by rw [isAt_cons, h₂]; decide), if_neg (by rw [isAt_cons, h₂]; decide)]
    exact ⟨_, rfl⟩
  obtain ⟨r, hr⟩ := hscalar
  refine ⟨r, ?_⟩
  unfold PlanState.planField
  dsimp only
  rw [expect_cons h₁ (by decide)]
  dsimp only [PlanState.lift, Except.mapError]
  rw [ok_bind, hr]
  rfl

/-- The level of a plan is read back if it has no sign. -/
private theorem optLevel_chunks (hn : 0 ≤ n.toInt) :
    ∃ m : Nat, integerChunks n.toInt = [⟨[' '], .numeral m⟩] ∧
      Text.atoi (Nat.toDigits 10 m) = n := by
  obtain ⟨m, hm⟩ := Int.eq_ofNat_of_zero_le hn
  refine ⟨m, by rw [hm]; rfl, ?_⟩
  have := Text.atoi_decimal n
  rwa [hm] at this

/-- Only the three kinds are kinds, and none of them has an escape in it. -/
theorem entryKindOf_escape (kind : Str) : entryKindOf (escape kind) = entryKindOf kind := by
  by_cases h : escape kind = kind
  · rw [h]
  · have hspecial : '"' ∈ kind ∨ '\\' ∈ kind := by
      rw [escape_eq_self] at h
      tauto
    have hescape : '\\' ∈ escape kind := by
      rcases hspecial with h | h
      · exact List.mem_flatMap.mpr ⟨_, h, by simp⟩
      · exact List.mem_flatMap.mpr ⟨_, h, by simp⟩
    have hnone : ∀ s : Str, ('"' ∈ s ∨ '\\' ∈ s) → entryKindOf s = none := by
      intro s hs
      unfold entryKindOf
      rw [if_neg, if_neg, if_neg] <;> rintro rfl <;> revert hs <;> decide
    rw [hnone _ (Or.inr hescape), hnone _ hspecial]

/-- A turn of the plan's loop on a field of the plan. -/
private theorem item_field (name : Str) (hst : st.reader = ⟨t :: t₁ :: t₂ :: t₃ :: ts, sink⟩)
    (hk : t.kind = .Identifier) (ht : t.text = name)
    (hname : name ∈ ["out".toList, "mode".toList, "target".toList, "optLevel".toList]) :
    st.item = PlanState.planField name { st with reader := ⟨t₁ :: t₂ :: t₃ :: ts, sink⟩ } := by
  rw [item_cons hst hk, ht]
  simp only [mem_cons, not_mem_nil, or_false] at hname
  rw [if_neg, if_neg, if_neg, if_neg, if_pos hname] <;>
    rcases hname with rfl | rfl | rfl | rfl <;> decide

/-- A turn of the plan's loop on a string field. -/
private theorem item_fieldChunks
    (hst : st.reader = ⟨lexAt pos (fieldChunks "\n ".toList name value) ++ ts, sink⟩)
    (hname : name ∈ ["out".toList, "mode".toList, "target".toList, "optLevel".toList]) :
    st.item = .ok { st with
        plan :=
          if name = "out".toList then { st.plan with out := escape value }
          else if name = "mode".toList then { st.plan with mode := escape value }
          else if name = "target".toList then { st.plan with target := escape value }
          else { st.plan with optLevel := Text.atoi (escape value) }
        reader := ⟨ts, sink⟩ } := by
  rw [item_field name hst rfl rfl hname]
  exact planField_string rfl rfl rfl rfl

/-- A turn of the plan's loop on the level. -/
private theorem item_optLevel (hn : 0 ≤ n.toInt)
    (hst : st.reader = ⟨lexAt pos (Item.optLevel n).chunks ++ ts, sink⟩) :
    st.item = .ok { st with plan := { st.plan with optLevel := n }, reader := ⟨ts, sink⟩ } := by
  obtain ⟨m, hm, hatoi⟩ := optLevel_chunks hn
  rw [Item.chunks, hm] at hst
  rw [item_field "optLevel".toList hst rfl rfl (by decide)]
  exact planField_numeral rfl rfl hatoi rfl

section
variable (hst : st.reader = ⟨t :: ts, sink⟩) (hk : t.kind = .Identifier)
include hst hk

private theorem item_entry (ht : t.text = "entry".toList) :
    st.item = { st with reader := ⟨ts, sink⟩ }.entryRow := by
  rw [item_cons hst hk, ht, if_pos rfl]

private theorem item_src (ht : t.text = "src".toList) :
    st.item = { st with reader := ⟨ts, sink⟩ }.srcRow := by
  rw [item_cons hst hk, ht, if_neg (by decide), if_pos rfl]

private theorem item_edge (ht : t.text = "edge".toList) :
    st.item = { st with reader := ⟨ts, sink⟩ }.edgeRow := by
  rw [item_cons hst hk, ht, if_neg (by decide), if_neg (by decide), if_pos rfl]

private theorem item_asset (ht : t.text = "asset".toList) :
    st.item = { st with reader := ⟨ts, sink⟩ }.assetRow := by
  rw [item_cons hst hk, ht, if_neg (by decide), if_neg (by decide), if_neg (by decide), if_pos rfl]

end

/-- **Step lemma.**  A turn of the plan's loop on an item that the reader takes. -/
theorem item_accepted (hi : i.Accepted)
    (hst : st.reader = ⟨lexAt pos i.chunks ++ ts, st.reader.sink⟩) :
    st.item = .ok (i.apply st ts) := by
  cases i with
  | out v =>
    rw [item_fieldChunks hst (by decide)]
    simp [Item.apply, Item.applyPlan, Item.isEntry]
  | mode v =>
    rw [item_fieldChunks hst (by decide)]
    simp [Item.apply, Item.applyPlan, Item.isEntry]
  | target v =>
    rw [item_fieldChunks hst (by decide)]
    simp [Item.apply, Item.applyPlan, Item.isEntry]
  | optLevel n =>
    rw [item_optLevel hi hst]
    simp [Item.apply, Item.applyPlan, Item.isEntry]
  | entry kind tgt =>
    obtain ⟨k, hk⟩ := Option.isSome_iff_exists.mp hi
    have hrow := entryRow_chunks st pos ts kind tgt
    rw [entryKindOf_escape, hk] at hrow
    rw [item_entry hst rfl rfl]
    refine hrow.trans ?_
    simp [Item.apply, Item.applyPlan, Item.isEntry, hk]
  | src s =>
    rw [item_src hst rfl rfl]
    refine (srcRow_chunks st pos ts s).trans ?_
    have hpath : s.path ≠ [] := hi
    rw [if_neg (by simpa using hpath)]
    simp [Item.apply, Item.applyPlan, Item.isEntry]
  | edge e =>
    rw [item_edge hst rfl rfl]
    refine (edgeRow_chunks st pos ts e).trans ?_
    simp [Item.apply, Item.applyPlan, Item.isEntry]
  | asset a =>
    rw [item_asset hst rfl rfl]
    refine (assetRow_chunks st pos ts a).trans ?_
    rw [if_neg (by simpa using hi.1), if_neg (by simpa using hi.2)]
    simp [Item.apply, Item.applyPlan, Item.isEntry]

/-- An item that the reader does not take stops it, with the plan as it was. -/
theorem item_refused (hi : ¬ i.Accepted)
    (hst : st.reader = ⟨lexAt pos i.chunks ++ ts, st.reader.sink⟩) :
    ∃ r, st.item = .error { st with reader := r } := by
  cases i with
  | out v => exact absurd trivial hi
  | mode v => exact absurd trivial hi
  | target v => exact absurd trivial hi
  | edge e => exact absurd trivial hi
  | optLevel n =>
    have hneg : ∃ m, n.toInt = Int.negSucc m := Int.eq_negSucc_of_lt_zero (not_le.mp hi)
    obtain ⟨m, hm⟩ := hneg
    rw [Item.chunks, hm] at hst
    rw [item_field "optLevel".toList hst rfl rfl (by decide)]
    exact planField_minus rfl rfl
  | entry kind tgt =>
    have hk : entryKindOf kind = none := by simpa [Item.Accepted] using hi
    have hrow := entryRow_chunks st pos ts kind tgt
    rw [entryKindOf_escape, hk] at hrow
    rw [item_entry hst rfl rfl]
    exact ⟨_, hrow⟩
  | src s =>
    rw [item_src hst rfl rfl]
    have hpath : s.path = [] := by simpa [Item.Accepted] using hi
    have hrow := srcRow_chunks st pos ts s
    rw [if_pos (by simp [hpath])] at hrow
    exact ⟨_, hrow⟩
  | asset a =>
    rw [item_asset hst rfl rfl]
    by_cases hrel : a.rel = []
    · have hrow := assetRow_chunks st pos ts a
      rw [if_pos (by simp [hrel])] at hrow
      exact ⟨_, hrow⟩
    · have hpath : a.path = [] := by
        simp only [Item.Accepted, not_and, ne_eq, not_not] at hi
        exact hi hrel
      have hrow := assetRow_chunks st pos ts a
      rw [if_neg (by simpa using hrel), if_pos (by simp [hpath])] at hrow
      exact ⟨_, hrow⟩

/-- At a written item the plan's loop takes a turn. -/
private theorem items_step (fuel : Nat) (hst : st.reader = ⟨lexAt pos i.chunks ++ ts, sink⟩) :
    PlanState.items (fuel + 1) st = st.item >>= PlanState.items fuel := by
  have hcont : ¬ (st.reader.isAt .RBrace || st.reader.isAt .End) = true := by
    rw [hst]
    cases i <;> simp [Item.chunks, fieldChunks, rowChunks, lexAt, Chunk.token, Lexeme.kind,
      PlanReader.isAt, PlanReader.cur]
  rw [PlanState.items, if_neg hcont]

/-- **Run lemma.**  The plan's loop over written items that the reader takes. -/
theorem items_accepted {is : List Item} (his : ∀ i ∈ is, i.Accepted) (fuel : Nat)
    (st : PlanState) (hst : st.reader = ⟨lexAt pos (is.flatMap Item.chunks) ++ ts, st.reader.sink⟩) :
    PlanState.items (fuel + is.length) st = PlanState.items fuel
      { plan := is.foldl Item.applyPlan st.plan
        sawEntry := st.sawEntry || is.any Item.isEntry
        reader := ⟨ts, st.reader.sink⟩ } := by
  induction is generalizing st pos with
  | nil =>
    have : st = ⟨st.plan, st.sawEntry, ⟨ts, st.reader.sink⟩⟩ := by
      rw [← show st.reader = ⟨ts, st.reader.sink⟩ from hst]
    simpa using congrArg (PlanState.items fuel) this
  | cons i is ih =>
    rw [flatMap_cons, lexAt_append, append_assoc] at hst
    rw [length_cons, ← Nat.add_assoc, items_step _ hst,
      item_accepted (his i mem_cons_self) hst, ok_bind,
      ih (fun j hj => his j (mem_cons_of_mem i hj)) _ rfl]
    simp [Item.apply, Bool.or_assoc]

@[simp] theorem Item.ok_applyPlan (plan : BuildPlan) (i : Item) :
    (i.applyPlan plan).ok = plan.ok := by
  cases i <;> rfl

/-- An item that the reader does not take stops the plan's loop. -/
theorem items_refused {is : List Item} (his : ¬ ∀ i ∈ is, i.Accepted) {fuel : Nat}
    (hfuel : is.length ≤ fuel) (st : PlanState)
    (hst : st.reader = ⟨lexAt pos (is.flatMap Item.chunks) ++ ts, st.reader.sink⟩) :
    ∃ st', PlanState.items fuel st = .error st' ∧ st'.plan.ok = st.plan.ok := by
  induction is generalizing st pos fuel with
  | nil => exact absurd (by simp) his
  | cons i is ih =>
    obtain ⟨fuel, rfl⟩ : ∃ f, fuel = f + 1 := ⟨fuel - 1, by simp at hfuel; omega⟩
    rw [flatMap_cons, lexAt_append, append_assoc] at hst
    rw [items_step _ hst]
    by_cases hi : i.Accepted
    · have his' : ¬ ∀ j ∈ is, j.Accepted := fun h =>
        his (fun j hj => (List.mem_cons.mp hj).elim (fun h => h ▸ hi) (h j))
      rw [item_accepted hi hst, ok_bind]
      obtain ⟨st', hst', hok⟩ := ih his' (by simpa using hfuel) (i.apply st _) rfl
      exact ⟨st', hst', by rw [hok]; exact i.ok_applyPlan st.plan⟩
    · obtain ⟨r, hr⟩ := item_refused hi hst
      rw [hr, error_bind]
      exact ⟨_, rfl, rfl⟩

end Item

end Leviathan.Driver
