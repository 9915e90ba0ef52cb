import Leviathan.Frontend.Truncation
import Leviathan.Driver.PlanItems
import Leviathan.Trident.Plan

/-!
# The text of a build plan

`trident` writes a plan for the compiler driver to read.  The text is a list of
chunks (`writeBuildPlan_eq`) that never run into each other (`spaced_planChunks`),
so the lexer finds one token for each chunk (`tokenize_planText`), unless a string
has a newline in it (`tokenize_newline`) or the text is too long for the lexer
(`tokenize_too_long`).
-/

namespace Leviathan.Driver

open Frontend Trident List
open Text (quote decimal)

/-! ### The text of a plan -/

def sourceOf (s : ResolvedSource) : PlanSource := ⟨s.path, s.moduleId, s.origin⟩

def assetOf (a : ResolvedAsset) : PlanAsset := ⟨a.rel, a.path, a.moduleId, a.hash⟩

/-- The edges of a project, row by row. -/
def edgesOf (rp : ResolvedProject) : List PlanEdge :=
  rp.moduleDeps.flatMap (fun (from_, tos) => tos.map (PlanEdge.mk from_))

/-- The items of a plan in the order they are written. -/
def itemsOf (rp : ResolvedProject) (opts : WritePlanOptions) : List Item :=
  [.out opts.out, .mode opts.mode, .target opts.target, .optLevel opts.optLevel,
    .entry rp.entryKind rp.entryTarget] ++
  (rp.sources.map (fun s => .src (sourceOf s)) ++
  ((edgesOf rp).map .edge ++ rp.assets.map (fun a => .asset (assetOf a))))

/-- A plan as chunks. -/
def planChunks (is : List Item) : List Chunk :=
  ⟨[], .word "plan".toList⟩ :: ⟨[' '], .symbol '{' .LBrace⟩ ::
    (is.flatMap Item.chunks ++ [⟨['\n'], .symbol '}' .RBrace⟩])

@[simp] theorem render_append (ks ks' : List Chunk) :
    render (ks ++ ks') = render ks ++ render ks' := flatMap_append

@[simp] theorem render_cons (k : Chunk) (ks : List Chunk) :
    render (k :: ks) = k.text ++ render ks := flatMap_cons

@[simp] theorem render_nil : render [] = [] := rfl

private theorem render_fieldChunks (blanks name value : Str) :
    render (fieldChunks blanks name value) =
      blanks ++ (name ++ (" = ".toList ++ (quote value ++ ";".toList))) := by
  simp [fieldChunks, render, Chunk.text, Lexeme.text]

private theorem render_rowChunks (name : Str) (fs : List (Str × Str)) :
    render (rowChunks name fs) =
      "\n    ".toList ++ (name ++ (" \x7b".toList ++
        (fs.flatMap (fun (f, v) => ' ' :: (f ++ (" = ".toList ++ (quote v ++ ";".toList)))) ++
          " \x7d".toList))) := by
  have hfs : render (fs.flatMap (fun (f, v) => fieldChunks [' '] f v)) =
      fs.flatMap (fun (f, v) => ' ' :: (f ++ (" = ".toList ++ (quote v ++ ";".toList)))) := by
    induction fs with
    | nil => rfl
    | cons fv fs ih =>
      rw [flatMap_cons, flatMap_cons, render_append, ih, render_fieldChunks]
      rfl
  unfold rowChunks
  rw [render_cons, render_cons, render_append, hfs]
  simp [Chunk.text, Lexeme.text]

/-- Lines with their newline moved from the end to the front. -/
private theorem lines_eq {α : Type} {f : α → Str} {g : α → Item}
    (h : ∀ a, '\n' :: f a = render (g a).chunks ++ ['\n']) (as : List α) :
    '\n' :: as.flatMap f = render ((as.map g).flatMap Item.chunks) ++ ['\n'] := by
  induction as with
  | nil => rfl
  | cons a as ih =>
    rw [flatMap_cons, ← cons_append, h a, append_assoc, singleton_append, ih]
    simp

private theorem writeSource_eq (s : ResolvedSource) :
    '\n' :: writeSource s = render (Item.src (sourceOf s)).chunks ++ ['\n'] := by
  unfold writeSource Item.chunks
  rw [render_rowChunks]
  simp only [PlanSource.fields, sourceOf, flatMap_cons, flatMap_nil, append_assoc,
    cons_append, nil_append]
  rfl

private theorem writeEdge_eq (e : PlanEdge) :
    '\n' :: writeEdge e.from_ e.to_ = render (Item.edge e).chunks ++ ['\n'] := by
  unfold writeEdge Item.chunks
  rw [render_rowChunks]
  simp only [PlanEdge.fields, flatMap_cons, flatMap_nil, append_assoc,
    cons_append, nil_append]
  rfl

private theorem writeAsset_eq (a : ResolvedAsset) :
    '\n' :: writeAsset a = render (Item.asset (assetOf a)).chunks ++ ['\n'] := by
  unfold writeAsset Item.chunks
  rw [render_rowChunks]
  simp only [PlanAsset.fields, assetOf, flatMap_cons, flatMap_nil, append_assoc,
    cons_append, nil_append]
  rfl

private theorem render_integerChunks (n : Int) :
    render (integerChunks n) = ' ' :: decimal n := by
  cases n with
  | ofNat n => simp [integerChunks, Chunk.text, Lexeme.text, decimal]
  | negSucc n => simp [integerChunks, Chunk.text, Lexeme.text, decimal]

private theorem writeEdges_eq (rp : ResolvedProject) :
    rp.moduleDeps.flatMap (fun (from_, tos) => tos.flatMap (writeEdge from_)) =
      (edgesOf rp).flatMap (fun e => writeEdge e.from_ e.to_) := by
  unfold edgesOf
  rw [flatMap_assoc]
  refine flatMap_congr ?_
  rintro ⟨from_, tos⟩ -
  rw [flatMap_map]

/-- The first five items: the fields of the plan and its entry. -/
private theorem writeHead_eq (rp : ResolvedProject) (opts : WritePlanOptions) (rest : Str) :
    '\n' :: (("    out = ".toList ++ quote opts.out ++ ";\n".toList) ++
      ("    mode = ".toList ++ quote opts.mode ++ ";\n".toList) ++
      ("    target = ".toList ++ quote opts.target ++ ";\n".toList) ++
      ("    optLevel = ".toList ++ decimal opts.optLevel.toInt ++ ";\n".toList) ++
      ("    entry \x7b kind = ".toList ++ quote rp.entryKind ++ "; target = ".toList ++
        quote rp.entryTarget ++ "; \x7d\n".toList) ++ rest) =
    render ([Item.out opts.out, .mode opts.mode, .target opts.target, .optLevel opts.optLevel,
      .entry rp.entryKind rp.entryTarget].flatMap Item.chunks) ++ '\n' :: rest := by
  simp only [flatMap_cons, flatMap_nil, Item.chunks, render_append, render_cons,
    render_nil, render_fieldChunks, render_rowChunks, render_integerChunks, append_assoc,
    cons_append, nil_append]
  rfl

/-- **The writer.**  A plan is written as its chunks and a last newline. -/
theorem writeBuildPlan_eq (rp : ResolvedProject) (opts : WritePlanOptions) :
    writeBuildPlan rp opts = render (planChunks (itemsOf rp opts)) ++ ['\n'] := by
  have hlines : ∀ (x rest : Str), '\n' :: (x ++ rest) = ('\n' :: x) ++ rest := fun _ _ => rfl
  have hfirst : writeBuildPlan rp opts = "plan \x7b".toList ++
      ('\n' :: (("    out = ".toList ++ quote opts.out ++ ";\n".toList) ++
        ("    mode = ".toList ++ quote opts.mode ++ ";\n".toList) ++
        ("    target = ".toList ++ quote opts.target ++ ";\n".toList) ++
        ("    optLevel = ".toList ++ decimal opts.optLevel.toInt ++ ";\n".toList) ++
        ("    entry \x7b kind = ".toList ++ quote rp.entryKind ++ "; target = ".toList ++
          quote rp.entryTarget ++ "; \x7d\n".toList) ++
        (rp.sources.flatMap writeSource ++
          ((edgesOf rp).flatMap (fun e => writeEdge e.from_ e.to_) ++
            (rp.assets.flatMap writeAsset ++ "\x7d\n".toList))))) := by
    unfold writeBuildPlan
    rw [writeEdges_eq]
    simp only [append_assoc]
    rfl
  rw [hfirst, writeHead_eq, hlines, lines_eq writeSource_eq, append_assoc,
    singleton_append, hlines, lines_eq writeEdge_eq, append_assoc,
    singleton_append, hlines, lines_eq writeAsset_eq]
  unfold planChunks itemsOf
  simp only [render_cons, render_append, flatMap_append, append_assoc, render_nil]
  rfl

/-! ### Every plan can be told apart into its chunks -/

variable {after : Str} {c : Char}

/-- White space or a semicolon ends any token. -/
private theorem ends_of_head {l : Lexeme} (h : after.head? = some c)
    (hc : c = ' ' ∨ c = '\n' ∨ c = ';') : l.Ends after := by
  cases l with
  | symbol d kind =>
    refine ⟨?_, ?_⟩ <;> rw [h] <;> rcases hc with rfl | rfl | rfl <;> decide
  | word w => intro d hd; rw [h] at hd; exact Option.some.inj hd ▸ hc
  | numeral n => intro d hd; rw [h] at hd; exact Option.some.inj hd ▸ hc
  | string s => intro d hd; rw [h] at hd; exact Option.some.inj hd ▸ hc

private theorem spaced_append {ks ks' : List Chunk} (h : Spaced ks (render ks' ++ after))
    (h' : Spaced ks' after) : Spaced (ks ++ ks') after := by
  induction ks with
  | nil => exact h'
  | cons k ks ih =>
    obtain ⟨hb, he, hs⟩ := h
    refine ⟨hb, ?_, ih hs⟩
    change k.lexeme.Ends (render (ks ++ ks') ++ after)
    rwa [render_append, append_assoc]

variable {blanks name value : Str}

private theorem spaced_fieldChunks (hb : blanks.all (fun b => b = ' ' || b = '\n') = true)
    (h : after.head? = some c) (hc : c = ' ' ∨ c = '\n') :
    Spaced (fieldChunks blanks name value) after := by
  refine ⟨hb, ends_of_head (c := ' ') rfl (.inl rfl), rfl, ends_of_head (c := ' ') rfl (.inl rfl),
    rfl, ends_of_head (c := ';') rfl (.inr (.inr rfl)), rfl, ends_of_head h ?_, trivial⟩
  exact hc.elim .inl (fun h => .inr (.inl h))

variable {fs : List (Str × Str)}

private theorem spaced_fields (h : after.head? = some ' ') :
    Spaced (fs.flatMap (fun (f, v) => fieldChunks [' '] f v)) after := by
  induction fs with
  | nil => trivial
  | cons fv fs ih =>
    refine spaced_append (spaced_fieldChunks rfl (c := ' ') ?_ (.inl rfl)) ih
    cases fs with
    | nil => exact h
    | cons fv' fs => rfl

private theorem spaced_rowChunks (h : after.head? = some c) (hc : c = ' ' ∨ c = '\n') :
    Spaced (rowChunks name fs) after := by
  refine ⟨rfl, ends_of_head (c := ' ') rfl (.inl rfl), rfl, ?_, ?_⟩
  · refine ends_of_head (c := ' ') ?_ (.inl rfl)
    cases fs <;> rfl
  · refine spaced_append (spaced_fields rfl) ⟨rfl, ends_of_head h ?_, trivial⟩
    exact hc.elim .inl (fun h => .inr (.inl h))

private theorem spaced_integerChunks {n : Int} (h : after.head? = some ';') :
    Spaced (integerChunks n) after := by
  have hends : ∀ l : Lexeme, l.Ends after := fun l => ends_of_head h (.inr (.inr rfl))
  cases n with
  | ofNat n => exact ⟨rfl, hends _, trivial⟩
  | negSucc n =>
    refine ⟨rfl, ?_, rfl, hends _, trivial⟩
    obtain ⟨d, ds, hds, hd⟩ := Text.toDigits_cons (n + 1)
    have hhead : (render [⟨[], .numeral (n + 1)⟩] ++ after).head? = some d := by
      simp [Chunk.text, Lexeme.text, hds]
    refine ⟨?_, ?_⟩ <;> rw [hhead] <;> rintro ⟨⟩ <;> exact absurd hd (by decide)

private theorem spaced_item (i : Item) (h : after.head? = some '\n') : Spaced i.chunks after := by
  cases i with
  | out v => exact spaced_fieldChunks rfl h (.inr rfl)
  | mode v => exact spaced_fieldChunks rfl h (.inr rfl)
  | target v => exact spaced_fieldChunks rfl h (.inr rfl)
  | optLevel n =>
    refine ⟨rfl, ends_of_head (c := ' ') rfl (.inl rfl), rfl, ?_, ?_⟩
    · refine ends_of_head (c := ' ') ?_ (.inl rfl)
      rw [render_append, render_integerChunks]
      rfl
    · exact spaced_append (spaced_integerChunks rfl) ⟨rfl, ends_of_head h (.inr (.inl rfl)), trivial⟩
  | entry kind tgt => exact spaced_rowChunks h (.inr rfl)
  | src s => exact spaced_rowChunks h (.inr rfl)
  | edge e => exact spaced_rowChunks h (.inr rfl)
  | asset a => exact spaced_rowChunks h (.inr rfl)

private theorem spaced_items (is : List Item) (after : Str) (h : after.head? = some '\n') :
    Spaced (is.flatMap Item.chunks) after ∧
      (render (is.flatMap Item.chunks) ++ after).head? = some '\n' := by
  induction is with
  | nil => exact ⟨trivial, h⟩
  | cons i is ih =>
    rw [flatMap_cons]
    refine ⟨spaced_append (spaced_item i ih.2) ih.1, ?_⟩
    cases i <;> rfl

/-- No chunk of a plan runs into the next one. -/
theorem spaced_planChunks (is : List Item) : Spaced (planChunks is) ['\n'] := by
  have hclose : Spaced [⟨['\n'], .symbol '}' .RBrace⟩] ['\n'] :=
    ⟨rfl, ends_of_head (c := '\n') rfl (.inr (.inl rfl)), trivial⟩
  obtain ⟨hspaced, hhead⟩ :=
    spaced_items is (render [⟨['\n'], .symbol '}' .RBrace⟩] ++ ['\n']) rfl
  refine ⟨rfl, ends_of_head (c := ' ') rfl (.inl rfl), rfl, ?_, spaced_append hspaced hclose⟩
  refine ends_of_head (c := '\n') ?_ (.inr (.inl rfl))
  rwa [render_append, append_assoc]

/-! ### Strings -/

/-- The strings of an item. -/
def Item.strings : Item → List Str
  | out v => [v]
  | mode v => [v]
  | target v => [v]
  | optLevel _ => []
  | entry kind tgt => [kind, tgt]
  | src s => [s.path, s.moduleId, s.origin]
  | edge e => [e.from_, e.to_]
  | asset a => [a.rel, a.path, a.moduleId, a.hash]

/-- The words of a plan. -/
private def planWords : List Str :=
  ["plan".toList, "out".toList, "mode".toList, "target".toList, "optLevel".toList,
    "entry".toList, "kind".toList, "src".toList, "path".toList, "moduleId".toList,
    "origin".toList, "edge".toList, "from".toList, "to".toList, "asset".toList, "rel".toList,
    "hash".toList]

/-- None of the words of a plan is a keyword. -/
private theorem plain_of_mem_planWords {w : Str} (hw : w ∈ planWords) : (Lexeme.word w).Plain := by
  have hall : planWords.all (fun w => (w.head?.map isIdentStart).getD false && w.all isIdentCont &&
      keywordKind w = .Identifier) = true := by decide
  have := List.all_eq_true.mp hall w hw
  simp only [Bool.and_eq_true, decide_eq_true_eq] at this
  exact ⟨this.1.1, this.1.2, this.2⟩

private theorem written_fieldChunks (h : name ∈ planWords) :
    ∀ k ∈ fieldChunks blanks name value, k.lexeme.Written := by
  simp only [fieldChunks, mem_cons, not_mem_nil, or_false]
  rintro k (rfl | rfl | rfl | rfl)
  · exact plain_of_mem_planWords h
  · simp [Lexeme.Written, Lexeme.Plain]
  · trivial
  · simp [Lexeme.Written, Lexeme.Plain]

private theorem written_rowChunks (h : name ∈ planWords)
    (hfs : fs.all (fun p => p.1 ∈ planWords) = true) :
    ∀ k ∈ rowChunks name fs, k.lexeme.Written := by
  intro k hk
  simp only [rowChunks, mem_cons, mem_append, mem_flatMap, not_mem_nil,
    or_false] at hk
  rcases hk with rfl | rfl | ⟨p, hp, hk⟩ | rfl
  · exact plain_of_mem_planWords h
  · simp [Lexeme.Written, Lexeme.Plain]
  · exact written_fieldChunks (of_decide_eq_true (List.all_eq_true.mp hfs p hp)) k hk
  · simp [Lexeme.Written, Lexeme.Plain]

private theorem written_item (i : Item) : ∀ k ∈ i.chunks, k.lexeme.Written := by
  cases i with
  | out v => exact written_fieldChunks (by decide)
  | mode v => exact written_fieldChunks (by decide)
  | target v => exact written_fieldChunks (by decide)
  | optLevel n =>
    intro k hk
    simp only [Item.chunks, mem_cons, mem_append, not_mem_nil, or_false] at hk
    rcases hk with rfl | rfl | hk | rfl
    · exact plain_of_mem_planWords (by decide)
    · simp [Lexeme.Written, Lexeme.Plain]
    · cases hn : n.toInt with
      | ofNat m =>
        rw [hn] at hk
        obtain rfl := List.mem_singleton.mp hk
        trivial
      | negSucc m =>
        rw [hn] at hk
        simp only [integerChunks, mem_cons, not_mem_nil, or_false] at hk
        rcases hk with rfl | rfl
        · simp [Lexeme.Written, Lexeme.Plain]
        · trivial
    · simp [Lexeme.Written, Lexeme.Plain]
  | entry kind tgt => exact written_rowChunks (by decide) rfl
  | src s => exact written_rowChunks (by decide) rfl
  | edge e => exact written_rowChunks (by decide) rfl
  | asset a => exact written_rowChunks (by decide) rfl

/-- What a plan is written with can be read, its strings apart. -/
theorem written_planChunks (is : List Item) : ∀ k ∈ planChunks is, k.lexeme.Written := by
  intro k hk
  simp only [planChunks, mem_cons, mem_append, mem_flatMap, not_mem_nil,
    or_false] at hk
  rcases hk with rfl | rfl | ⟨i, -, hk⟩ | rfl
  · exact plain_of_mem_planWords (by decide)
  · simp [Lexeme.Written, Lexeme.Plain]
  · exact written_item i k hk
  · simp [Lexeme.Written, Lexeme.Plain]

variable {s : Str}

private theorem string_mem_fieldChunks :
    (∃ k ∈ fieldChunks blanks name value, k.lexeme = .string s) ↔ s = value := by
  simp [fieldChunks, eq_comm]

/-- The strings of a row are the values of its fields. -/
private theorem string_mem_rowChunks :
    (∃ k ∈ rowChunks name fs, k.lexeme = .string s) ↔ s ∈ fs.map Prod.snd := by
  constructor
  · rintro ⟨k, hk, hs⟩
    simp only [rowChunks, mem_cons, mem_append, mem_flatMap, not_mem_nil,
      or_false] at hk
    rcases hk with rfl | rfl | ⟨p, hp, hk⟩ | rfl
    · cases hs
    · cases hs
    · obtain rfl := string_mem_fieldChunks.mp ⟨k, hk, hs⟩
      exact mem_map_of_mem hp
    · cases hs
  · intro h
    obtain ⟨p, hp, rfl⟩ := List.mem_map.mp h
    refine ⟨⟨[' '], .string p.2⟩, ?_, rfl⟩
    simp only [rowChunks, mem_cons, mem_append, mem_flatMap]
    exact .inr (.inr (.inl ⟨p, hp, by simp [fieldChunks]⟩))

/-- The string chunks of an item are its strings. -/
theorem string_mem_chunks {i : Item} : (∃ k ∈ i.chunks, k.lexeme = .string s) ↔ s ∈ i.strings := by
  cases i with
  | out v => exact string_mem_fieldChunks.trans List.mem_singleton.symm
  | mode v => exact string_mem_fieldChunks.trans List.mem_singleton.symm
  | target v => exact string_mem_fieldChunks.trans List.mem_singleton.symm
  | optLevel n => cases hn : n.toInt <;> simp [Item.chunks, Item.strings, hn, integerChunks]
  | entry kind tgt => exact string_mem_rowChunks
  | src s => exact string_mem_rowChunks
  | edge e => exact string_mem_rowChunks
  | asset a => exact string_mem_rowChunks

/-- The string chunks of a plan are the strings of its items. -/
theorem string_mem_planChunks {is : List Item} :
    (∃ k ∈ planChunks is, k.lexeme = .string s) ↔ s ∈ is.flatMap Item.strings := by
  constructor
  · rintro ⟨k, hk, hs⟩
    simp only [planChunks, mem_cons, mem_append, mem_flatMap, not_mem_nil,
      or_false] at hk
    rcases hk with rfl | rfl | ⟨i, hi, hk⟩ | rfl
    · cases hs
    · cases hs
    · exact List.mem_flatMap.mpr ⟨i, hi, string_mem_chunks.mp ⟨k, hk, hs⟩⟩
    · cases hs
  · intro h
    obtain ⟨i, hi, hs⟩ := List.mem_flatMap.mp h
    obtain ⟨k, hk, hs⟩ := string_mem_chunks.mpr hs
    refine ⟨k, ?_, hs⟩
    simp only [planChunks, mem_cons, mem_append, mem_flatMap]
    exact .inr (.inr (.inl ⟨i, hi, hk⟩))

/-! ### Reading the text of a plan -/

section Text

variable {is : List Item}

/-- The text of a plan. -/
def planText (is : List Item) : Str := render (planChunks is) ++ ['\n']

/-- A chunk has at least one byte. -/
private theorem length_le_length_render {ks : List Chunk} (h : ∀ k ∈ ks, k.lexeme.Written) :
    ks.length ≤ (render ks).length := by
  induction ks with
  | nil => exact le_rfl
  | cons k ks ih =>
    have ih := ih (fun k' hk' => h k' (mem_cons_of_mem k hk'))
    have hpos := (h k mem_cons_self).text_pos
    simp [Chunk.text]
    omega

/-- The lexer sees the whole text of a plan that is not too long. -/
private theorem tokenize_eq (hsize : (planText is).length < 2 ^ 32) :
    ∃ fuel, { text := planText is : Lexer }.tokenize =
      { text := planText is : Lexer }.tokenizeFrom (fuel + (planChunks is).length) 0
        (render (planChunks is) ++ ['\n']) := by
  have hrest : { text := planText is : Lexer }.rest 0 = planText is := by
    unfold Lexer.rest Lexer.stop
    rw [if_pos rfl, Nat.mod_eq_of_lt hsize]
    simp
  have hlen := length_le_length_render (written_planChunks is)
  have hfuel : (planText is).length =
      (planText is).length - (planChunks is).length + (planChunks is).length := by
    simp [planText]
    omega
  refine ⟨(planText is).length - (planChunks is).length, ?_⟩
  unfold Lexer.tokenize Lexer.tokenizeAt
  rw [hrest, ← hfuel]
  rfl

/-- A plan without newlines in its strings is one token for each chunk. -/
theorem tokenize_planText (hsize : (planText is).length < 2 ^ 32)
    (hs : ∀ s ∈ is.flatMap Item.strings, '\n' ∉ s) :
    ∃ last : Token, last.kind = .End ∧
      { text := planText is : Lexer }.tokenize = .ok (lexAt 0 (planChunks is) ++ [last], []) := by
  have hplain : ∀ k ∈ planChunks is, k.lexeme.Plain := fun k hk =>
    (written_planChunks is k hk).plain
      (fun s hks => hs s (string_mem_planChunks.mp ⟨k, hk, hks⟩))
  obtain ⟨fuel, htok⟩ := tokenize_eq hsize
  have hfront : render (planChunks is) ++ ['\n'] <+:
      { text := planText is : Lexer }.text.drop 0 := prefix_rfl
  have hrun := tokenizeFrom_render rfl (spaced_planChunks is) hplain hfront fuel
  have hend : { text := planText is : Lexer }.tokenizeFrom fuel
      (0 + (render (planChunks is)).length) ['\n'] =
      .ok ([⟨.End, ⟨(planText is).length, 0⟩, []⟩], []) := by
    have hpos : 0 + (render (planChunks is)).length + 1 = (planText is).length := by
      simp [planText]
    have hskip : skipTrivia .blanks (0 + (render (planChunks is)).length) ['\n'] =
        (0 + (render (planChunks is)).length + 1, [], []) := rfl
    rw [Lexer.tokenizeFrom, hskip, hpos]
    simp [Lexer.make]
  refine ⟨⟨.End, ⟨(planText is).length, 0⟩, []⟩, rfl, ?_⟩
  rw [htok, hrun, hend]
  rfl

/-- A newline in a string is reported. -/
theorem tokenize_newline {tokens : List Token} {diags : List Diagnostic}
    (hsize : (planText is).length < 2 ^ 32) (hs : ∃ s ∈ is.flatMap Item.strings, '\n' ∈ s)
    (h : { text := planText is : Lexer }.tokenize = .ok (tokens, diags)) : diags ≠ [] := by
  obtain ⟨fuel, htok⟩ := tokenize_eq hsize
  rw [htok] at h
  obtain ⟨s, hs, hn⟩ := hs
  obtain ⟨k, hk, hks⟩ := string_mem_planChunks.mpr hs
  exact tokenizeFrom_render_newline rfl (spaced_planChunks is) (written_planChunks is)
    ⟨k, hk, s, hks, hn⟩ prefix_rfl h

/-- Of a plan that is too long the lexer sees a front part without the closing
brace: it reports an error, or the tokens end inside the plan. -/
theorem tokenize_too_long {tokens : List Token} {diags : List Diagnostic}
    (hsize : 2 ^ 32 ≤ (planText is).length)
    (h : { text := planText is : Lexer }.tokenize = .ok (tokens, diags)) :
    diags ≠ [] ∨ ∃ ks' ks'' cut, planChunks is = ks' ++ ks'' ∧ ks'' ≠ [] ∧
      tokens = lexAt 0 ks' ++ cut ∧ ∀ token ∈ cut, token.kind.isBrace = false := by
  have hlt : (planText is).length % 2 ^ 32 < (render (planChunks is)).length := by
    have := Nat.mod_lt (planText is).length (show 0 < 2 ^ 32 by decide)
    simp [planText] at this hsize ⊢
    omega
  have hrest : { text := planText is : Lexer }.rest 0 =
      (render (planChunks is)).take ((planText is).length % 2 ^ 32) := by
    unfold Lexer.rest Lexer.stop
    rw [if_pos rfl, drop_zero]
    exact take_append_of_le_length hlt.le
  have hcut : (render (planChunks is)).take ((planText is).length % 2 ^ 32) <+:
      render (planChunks is) := take_prefix _ _
  unfold Lexer.tokenize Lexer.tokenizeAt at h
  rw [hrest] at h
  refine tokenizeFrom_cut rfl (spaced_planChunks is) (written_planChunks is) hcut ?_ ?_ le_rfl h
  · rw [length_take]
    omega
  · exact hcut.trans (prefix_append _ _)

end Text

end Leviathan.Driver
