import Leviathan.Driver.PlanText
import Leviathan.Driver.PlanBalance

/-!
# Writing and reading a build plan

The reader takes what stands between the quotes of a string as it is, and the
writer has put backslashes there.  `readBuildPlan_writeBuildPlan` says exactly
which plans come back: those without quotes, backslashes and newlines in their
strings, with the rows the reader asks for, in a text the lexer sees to its end.
-/

variable {st : PlanState} {ks : List TokenKind} {rp : ResolvedProject} {opts : WritePlanOptions}

namespace Leviathan.Driver

open Frontend Trident List

/-! ### Reading a plan -/

/-- The state the reader starts in. -/
def startState (planPath text : Str) (toks : List Token) (sink : List Diagnostic) : PlanState :=
  ⟨{ planFile := ⟨planPath, text⟩ }, false, ⟨toks, sink⟩⟩

section Block

variable {is : List Item}

private theorem length_le_length_flatMap_chunks (is : List Item) :
    is.length ≤ (is.flatMap Item.chunks).length := by
  induction is with
  | nil => exact le_rfl
  | cons i is ih =>
    have : 1 ≤ i.chunks.length := by cases i <;> simp [Item.chunks, fieldChunks, rowChunks]
    rw [flatMap_cons, length_append, length_cons]
    omega

/-- The tokens of a plan: its first two, the items, its brace. -/
private theorem lexAt_planChunks (is : List Item) :
    ∃ (pos : Nat) (open_ brace close : Token), open_.kind = .Identifier ∧
      open_.text = "plan".toList ∧ brace.kind = .LBrace ∧ close.kind = .RBrace ∧
      lexAt 0 (planChunks is) =
        open_ :: brace :: (lexAt pos (is.flatMap Item.chunks) ++ [close]) := by
  have hlex : lexAt 0 (planChunks is) =
      (Chunk.mk [] (.word "plan".toList)).token 0 ::
        (Chunk.mk [' '] (.symbol '{' .LBrace)).token 4 ::
          (lexAt 6 (is.flatMap Item.chunks) ++ [(Chunk.mk ['\n'] (.symbol '}' .RBrace)).token
            (6 + (render (is.flatMap Item.chunks)).length)]) := by
    unfold planChunks
    rw [lexAt, lexAt, lexAt_append]
    rfl
  exact ⟨6, _, _, _, rfl, rfl, rfl, rfl, hlex⟩

/-- The reader up to the first item of a plan. -/
private theorem block_eq {open_ brace : Token} {ts : List Token} (hopen : open_.kind = .Identifier)
    (htext : open_.text = "plan".toList) (hbrace : brace.kind = .LBrace)
    (hst : st.reader = ⟨open_ :: brace :: ts, st.reader.sink⟩) :
    st.block =
      (PlanState.items ts.length { st with reader := ⟨ts, st.reader.sink⟩ } >>=
        fun st => st.lift (st.reader.expect .RBrace "'\x7d'".toList) >>=
          fun r => .ok { st with reader := r }) := by
  have hident : PlanReader.expectIdent ⟨open_ :: brace :: ts, st.reader.sink⟩ "plan".toList =
      .ok ⟨brace :: ts, st.reader.sink⟩ := by
    unfold PlanReader.expectIdent
    rw [if_pos ⟨isAt_cons.mpr hopen, htext⟩, advance_cons (by rw [hopen]; decide)]
  unfold PlanState.block
  rw [hst, hident]
  dsimp only [PlanState.lift, Except.mapError]
  rw [ok_bind, expect_cons hbrace (by decide)]
  rfl

/-- The plan's loop ends at a closing brace. -/
private theorem items_at_brace {t : Token} {ts : List Token} {sink : List Diagnostic} {fuel : Nat}
    (ht : t.kind = .RBrace) (hst : st.reader = ⟨t :: ts, sink⟩) :
    PlanState.items fuel st = .ok st := by
  have hat : (st.reader.isAt .RBrace || st.reader.isAt .End) = true := by
    rw [hst, isAt_cons.mpr ht, Bool.true_or]
  cases fuel with
  | zero => rw [PlanState.items, if_pos hat]
  | succ fuel => rw [PlanState.items, if_pos hat]

/-- **The reader on the text of a plan.**  If the reader takes every item, it reads
the plan they make, up to the end. -/
theorem block_accepted (st : PlanState) (last : Token) (his : ∀ i ∈ is, i.Accepted)
    (hst : st.reader = ⟨lexAt 0 (planChunks is) ++ [last], st.reader.sink⟩) :
    st.block = .ok
      { plan := is.foldl Item.applyPlan st.plan
        sawEntry := st.sawEntry || is.any Item.isEntry
        reader := ⟨[last], st.reader.sink⟩ } := by
  obtain ⟨pos, open_, brace, close, hopen, htext, hbrace, hclose, hlex⟩ := lexAt_planChunks is
  rw [hlex] at hst
  rw [cons_append, cons_append, append_assoc] at hst
  rw [block_eq hopen htext hbrace hst]
  have hfuel : is.length ≤ (lexAt pos (is.flatMap Item.chunks) ++ ([close] ++ [last])).length := by
    have := length_le_length_flatMap_chunks is
    rw [length_append, length_lexAt]
    omega
  obtain ⟨fuel, hfuel⟩ : ∃ fuel,
      (lexAt pos (is.flatMap Item.chunks) ++ ([close] ++ [last])).length = fuel + is.length :=
    ⟨_, (Nat.sub_add_cancel hfuel).symm⟩
  have hitems := items_accepted his fuel { st with reader :=
    ⟨lexAt pos (is.flatMap Item.chunks) ++ ([close] ++ [last]), st.reader.sink⟩ } rfl
  rw [hfuel, hitems, items_at_brace hclose rfl, ok_bind]
  dsimp only [cons_append, nil_append]
  rw [expect_cons hclose (by decide)]
  rfl

/-- An item that the reader does not take stops it. -/
theorem block_refused (st : PlanState) (last : Token) (his : ¬ ∀ i ∈ is, i.Accepted)
    (hst : st.reader = ⟨lexAt 0 (planChunks is) ++ [last], st.reader.sink⟩) :
    ∃ st', st.block = .error st' := by
  obtain ⟨pos, open_, brace, close, hopen, htext, hbrace, hclose, hlex⟩ := lexAt_planChunks is
  rw [hlex, cons_append, cons_append, append_assoc] at hst
  rw [block_eq hopen htext hbrace hst]
  have hfuel : is.length ≤ (lexAt pos (is.flatMap Item.chunks) ++ ([close] ++ [last])).length := by
    have := length_le_length_flatMap_chunks is
    rw [length_append, length_lexAt]
    omega
  obtain ⟨st', hst', -⟩ := items_refused his hfuel { st with reader :=
    ⟨lexAt pos (is.flatMap Item.chunks) ++ ([close] ++ [last]), st.reader.sink⟩ } rfl
  rw [hst', error_bind]
  exact ⟨st', rfl⟩

end Block

/-! ### The braces of a plan -/

/-- A list of kinds that never closes more braces than it has opened. -/
def NonDip (ks : List TokenKind) : Prop := ∀ p, p <+: ks → 0 ≤ depth p

theorem NonDip.append {ks' : List TokenKind} (h : NonDip ks) (hd : depth ks = 0) (h' : NonDip ks') :
    NonDip (ks ++ ks') := by
  intro p hp
  rcases prefix_or_prefix_of_prefix hp (prefix_append ks ks') with hin | ⟨p', rfl⟩
  · exact h p hin
  · rw [depth_append, hd, Int.zero_add]
    exact h' p' ((prefix_append_right_inj ks).mp hp)

private theorem depth_of_not_isBrace (h : ∀ k ∈ ks, k.isBrace = false) : depth ks = 0 := by
  induction ks with
  | nil => rfl
  | cons k ks ih =>
    have hk : kindDepth k = 0 := by
      have := h k mem_cons_self
      cases k <;> first | rfl | exact absurd this (by decide)
    rw [depth_cons, hk, ih (fun k' hk' => h k' (mem_cons_of_mem k hk')), Int.add_zero]

private theorem nonDip_flat (h : ∀ k ∈ ks, k.isBrace = false) : NonDip ks :=
  fun _ hp => (depth_of_not_isBrace (fun k hk => h k (hp.subset hk))).ge

private theorem nonDip_braces (h : ∀ k ∈ ks, k.isBrace = false) :
    NonDip (.LBrace :: (ks ++ [.RBrace])) := by
  intro p hp
  rcases p with _ | ⟨k, p⟩
  · exact le_rfl
  · obtain ⟨rfl, hp'⟩ := List.cons_prefix_cons.mp hp
    rcases List.prefix_concat_iff.mp hp' with rfl | hp'
    · simp [kindDepth, depth_of_not_isBrace h]
    · simp [kindDepth, depth_of_not_isBrace (fun k hk => h k (hp'.subset hk))]

/-- The kinds of the chunks of an item. -/
def kindsOf (ks : List Chunk) : List TokenKind := ks.map (fun k => k.lexeme.kind)

private theorem kinds_fieldChunks (blanks name value : Str) :
    ∀ k ∈ kindsOf (fieldChunks blanks name value), k.isBrace = false := by
  simp [kindsOf, fieldChunks, Lexeme.kind, TokenKind.isBrace]

private theorem nonDip_rowChunks (name : Str) (fs : List (Str × Str)) :
    NonDip (kindsOf (rowChunks name fs)) ∧ depth (kindsOf (rowChunks name fs)) = 0 := by
  have hflat : ∀ k ∈ kindsOf (fs.flatMap (fun p => fieldChunks [' '] p.1 p.2)),
      k.isBrace = false := by
    intro k hk
    obtain ⟨c, hc, rfl⟩ := List.mem_map.mp hk
    obtain ⟨p, -, hc⟩ := List.mem_flatMap.mp hc
    exact kinds_fieldChunks _ _ _ _ (mem_map_of_mem hc)
  have hkinds : kindsOf (rowChunks name fs) = [.Identifier] ++ .LBrace ::
      (kindsOf (fs.flatMap (fun p => fieldChunks [' '] p.1 p.2)) ++ [.RBrace]) := by
    simp [kindsOf, rowChunks, Lexeme.kind]
  rw [hkinds]
  refine ⟨NonDip.append (nonDip_flat (by simp [TokenKind.isBrace])) rfl (nonDip_braces hflat), ?_⟩
  simp [kindDepth, depth_of_not_isBrace hflat]

private theorem nonDip_item (i : Item) :
    NonDip (kindsOf i.chunks) ∧ depth (kindsOf i.chunks) = 0 := by
  have hflat : ∀ ks : List Chunk, (∀ k ∈ kindsOf ks, k.isBrace = false) →
      NonDip (kindsOf ks) ∧ depth (kindsOf ks) = 0 :=
    fun ks hks => ⟨nonDip_flat hks, depth_of_not_isBrace hks⟩
  cases i with
  | out v => exact hflat _ (kinds_fieldChunks _ _ _)
  | mode v => exact hflat _ (kinds_fieldChunks _ _ _)
  | target v => exact hflat _ (kinds_fieldChunks _ _ _)
  | optLevel n =>
    refine hflat _ ?_
    cases hn : n.toInt <;>
      simp [kindsOf, Item.chunks, hn, integerChunks, Lexeme.kind, TokenKind.isBrace]
  | entry kind tgt => exact nonDip_rowChunks _ _
  | src s => exact nonDip_rowChunks _ _
  | edge e => exact nonDip_rowChunks _ _
  | asset a => exact nonDip_rowChunks _ _

private theorem nonDip_items (is : List Item) : NonDip (kindsOf (is.flatMap Item.chunks)) := by
  induction is with
  | nil => exact nonDip_flat (by simp [kindsOf])
  | cons i is ih =>
    have hcons : kindsOf ((i :: is).flatMap Item.chunks) =
        kindsOf i.chunks ++ kindsOf (is.flatMap Item.chunks) := by
      simp [kindsOf]
    rw [hcons]
    exact (nonDip_item i).1.append (nonDip_item i).2 ih

theorem kind_lexAt (pos : Nat) (ks : List Chunk) : (lexAt pos ks).map Token.kind = kindsOf ks := by
  induction ks generalizing pos with
  | nil => rfl
  | cons k ks ih =>
    rw [lexAt, map_cons, ih]
    rfl

/-- Kinds that open a brace at their second place at the earliest, and never close it,
do not start with a balanced part that opens one. -/
private theorem unbalanced {q q' : List TokenKind} (hks : NonDip ks)
    (hq : q ++ q' <+: .Identifier :: .LBrace :: ks) (hopen : depth q = 1) :
    depth (q ++ q') ≠ 0 := by
  rcases q with _ | ⟨k, _ | ⟨k', q⟩⟩
  · exact absurd hopen (by decide)
  · obtain ⟨rfl, -⟩ := List.cons_prefix_cons.mp hq
    exact absurd hopen (by decide)
  · obtain ⟨rfl, hq'⟩ := List.cons_prefix_cons.mp hq
    obtain ⟨rfl, hq''⟩ := List.cons_prefix_cons.mp hq'
    have hrest : 0 ≤ depth (q ++ q') := hks _ hq''
    simp only [cons_append, depth_cons, kindDepth]
    omega

/-- The reader does not get to the end of a plan that is cut before its last brace. -/
theorem block_cut {st' : PlanState} {is : List Item} {ks' ks'' : List Chunk} {cut : List Token}
    (hks : planChunks is = ks' ++ ks'') (hne : ks'' ≠ [])
    (hst : st.reader.toks = lexAt 0 ks' ++ cut) (hcut : ∀ t ∈ cut, t.kind.isBrace = false)
    (h : st.block = .ok st') : False := by
  obtain ⟨r, hr, hr'⟩ := block_balanced h
  obtain ⟨taken, htaken, hd⟩ := hr.toks
  obtain ⟨taken', htaken', hd'⟩ := hr'.toks
  have hcut' : ∀ k ∈ cut.map Token.kind, k.isBrace = false := by
    intro k hk
    obtain ⟨t, ht, rfl⟩ := List.mem_map.mp hk
    exact hcut t ht
  have hfront : taken.map Token.kind ++ taken'.map Token.kind <+:
      kindsOf ks' ++ cut.map Token.kind := by
    have htoks : taken ++ taken' <+: lexAt 0 ks' ++ cut :=
      ⟨st'.reader.toks, by rw [← hst, htaken, htaken', append_assoc]⟩
    have hkinds := htoks.map Token.kind
    rwa [map_append, map_append, kind_lexAt] at hkinds
  have hbalanced : depth (taken.map Token.kind ++ taken'.map Token.kind) = 0 := by
    rw [depth_append, hd, hd']
    rfl
  -- a cut before the first brace leaves no brace at all
  have hflat : (∀ k ∈ kindsOf ks', k.isBrace = false) → False := by
    intro hks'
    have hall : ∀ k ∈ taken.map Token.kind, k.isBrace = false := by
      intro k hk
      rcases List.mem_append.mp (hfront.subset (mem_append_left _ hk)) with hk | hk
      · exact hks' k hk
      · exact hcut' k hk
    rw [depth_of_not_isBrace hall] at hd
    cases hd
  rcases ks' with _ | ⟨k₁, _ | ⟨k₂, J⟩⟩
  · exact hflat (by simp [kindsOf])
  · obtain ⟨rfl, -⟩ := List.cons.inj hks
    exact hflat (by simp [kindsOf, Lexeme.kind, TokenKind.isBrace])
  · obtain ⟨rfl, hks₁⟩ := List.cons.inj hks
    obtain ⟨rfl, hks₂⟩ := List.cons.inj hks₁
    have hJ : J <+: is.flatMap Item.chunks := by
      rcases List.prefix_concat_iff.mp ⟨ks'', hks₂.symm⟩ with rfl | hJ
      · exact absurd (append_cancel_left (hks₂.symm.trans (append_nil _).symm)) hne
      · exact hJ
    have hnonDip : NonDip (kindsOf J ++ cut.map Token.kind) := by
      have hJ' : kindsOf J <+: kindsOf (is.flatMap Item.chunks) := hJ.map _
      intro p hp
      rcases prefix_or_prefix_of_prefix hp (prefix_append _ _) with hin | ⟨p', rfl⟩
      · exact nonDip_items is p (hin.trans hJ')
      · have hp' := (prefix_append_right_inj _).mp hp
        rw [depth_append, depth_of_not_isBrace (fun k hk => hcut' k (hp'.subset hk)), Int.add_zero]
        exact nonDip_items is _ hJ'
    exact unbalanced hnonDip hfront hd hbalanced

/-! ### Which plans come back -/

/-- The name of an entry kind. -/
def PlanEntryKind.name : PlanEntryKind → Str
  | .Script => "script".toList
  | .File => "file".toList
  | .Function => "function".toList

/-- The plan that was read is the plan that was written. -/
structure SamePlan (rp : ResolvedProject) (opts : WritePlanOptions) (plan : BuildPlan) : Prop where
  ok : plan.ok = true
  out : plan.out = opts.out
  mode : plan.mode = opts.mode
  target : plan.target = opts.target
  optLevel : plan.optLevel = opts.optLevel
  entryKind : plan.entryKind.name = rp.entryKind
  entryTarget : plan.entryTarget = rp.entryTarget
  sources : plan.sources = rp.sources.map sourceOf
  edges : plan.edges = edgesOf rp
  assets : plan.assets = rp.assets.map assetOf

/-- The strings of a plan. -/
def planStrings (rp : ResolvedProject) (opts : WritePlanOptions) : List Str :=
  [opts.out, opts.mode, opts.target, rp.entryKind, rp.entryTarget] ++
  (rp.sources.flatMap (fun s => [s.path, s.moduleId, s.origin]) ++
  ((edgesOf rp).flatMap (fun e => [e.from_, e.to_]) ++
    rp.assets.flatMap (fun a => [a.rel, a.path, a.moduleId, a.hash])))

/-- The plans that come back: no string has a quote, a backslash or a newline in it;
the rows are what the reader asks for; the text is short enough for the lexer. -/
structure Readable (rp : ResolvedProject) (opts : WritePlanOptions) : Prop where
  strings : ∀ s ∈ planStrings rp opts, '"' ∉ s ∧ '\\' ∉ s ∧ '\n' ∉ s
  entryKind : rp.entryKind ∈ ["script".toList, "file".toList, "function".toList]
  optLevel : 0 ≤ opts.optLevel.toInt
  sources : rp.sources ≠ []
  paths : ∀ s ∈ rp.sources, s.path ≠ []
  assets : ∀ a ∈ rp.assets, a.rel ≠ [] ∧ a.path ≠ []
  size : (writeBuildPlan rp opts).length < 2 ^ 32

theorem planStrings_eq (rp : ResolvedProject) (opts : WritePlanOptions) :
    planStrings rp opts = (itemsOf rp opts).flatMap Item.strings := by
  simp [planStrings, itemsOf, List.flatMap_append, List.flatMap_map, Item.strings, sourceOf,
    assetOf]

theorem entryKindOf_isSome {kind : Str} :
    (entryKindOf kind).isSome ↔ kind ∈ ["script".toList, "file".toList, "function".toList] := by
  simp only [List.mem_cons, List.not_mem_nil, or_false]
  unfold entryKindOf
  split
  · next h => exact ⟨fun _ => .inl h, fun _ => rfl⟩
  · next h₁ =>
      split
      · next h => exact ⟨fun _ => .inr (.inl h), fun _ => rfl⟩
      · next h₂ =>
          split
          · next h => exact ⟨fun _ => .inr (.inr h), fun _ => rfl⟩
          · next h₃ =>
              refine ⟨fun h => absurd h (by decide), ?_⟩
              rintro (h | h | h)
              · exact absurd h h₁
              · exact absurd h h₂
              · exact absurd h h₃

/-- The reader takes every item of a plan whose rows are what it asks for. -/
theorem accepted_itemsOf :
    (∀ i ∈ itemsOf rp opts, i.Accepted) ↔
      (rp.entryKind ∈ ["script".toList, "file".toList, "function".toList] ∧
        0 ≤ opts.optLevel.toInt ∧ (∀ s ∈ rp.sources, s.path ≠ []) ∧
        ∀ a ∈ rp.assets, a.rel ≠ [] ∧ a.path ≠ []) := by
  rw [← entryKindOf_isSome]
  constructor
  · intro h
    refine ⟨h (.entry rp.entryKind rp.entryTarget) (by simp [itemsOf]),
      h (.optLevel opts.optLevel) (by simp [itemsOf]), fun s hs => ?_, fun a ha => ?_⟩
    · exact h (.src (sourceOf s)) (by
        simp only [itemsOf, List.mem_append]
        exact .inr (.inl (List.mem_map_of_mem hs)))
    · exact h (.asset (assetOf a)) (by
        simp only [itemsOf, List.mem_append]
        exact .inr (.inr (.inr (List.mem_map_of_mem ha))))
  · rintro ⟨hkind, hlevel, hsources, hassets⟩ i hi
    simp only [itemsOf, List.mem_append, List.mem_cons, List.not_mem_nil, or_false,
      List.mem_map] at hi
    rcases hi with (rfl | rfl | rfl | rfl | rfl) | ⟨s, hs, rfl⟩ | ⟨e, -, rfl⟩ | ⟨a, ha, rfl⟩
    · trivial
    · trivial
    · trivial
    · exact hlevel
    · exact hkind
    · exact hsources s hs
    · trivial
    · exact hassets a ha

private theorem foldl_sources (ss : List ResolvedSource) (plan : BuildPlan) :
    (ss.map (fun s => Item.src (sourceOf s))).foldl Item.applyPlan plan =
      { plan with sources := plan.sources ++ ss.map (fun s => (sourceOf s).escaped) } := by
  induction ss generalizing plan with
  | nil => simp
  | cons s ss ih => rw [List.map_cons, List.foldl_cons, ih]; simp [Item.applyPlan]

private theorem foldl_edges (es : List PlanEdge) (plan : BuildPlan) :
    (es.map Item.edge).foldl Item.applyPlan plan =
      { plan with edges := plan.edges ++ es.map PlanEdge.escaped } := by
  induction es generalizing plan with
  | nil => simp
  | cons e es ih => rw [List.map_cons, List.foldl_cons, ih]; simp [Item.applyPlan]

private theorem foldl_assets (as : List ResolvedAsset) (plan : BuildPlan) :
    (as.map (fun a => Item.asset (assetOf a))).foldl Item.applyPlan plan =
      { plan with assets := plan.assets ++ as.map (fun a => (assetOf a).escaped) } := by
  induction as generalizing plan with
  | nil => simp
  | cons a as ih => rw [List.map_cons, List.foldl_cons, ih]; simp [Item.applyPlan]

/-- The plan that the items make. -/
theorem foldl_itemsOf (rp : ResolvedProject) (opts : WritePlanOptions) (plan : BuildPlan) :
    (itemsOf rp opts).foldl Item.applyPlan plan =
      { plan with
        out := escape opts.out
        mode := escape opts.mode
        target := escape opts.target
        optLevel := opts.optLevel
        entryKind := (entryKindOf rp.entryKind).getD .Script
        entryTarget := escape rp.entryTarget
        sources := plan.sources ++ rp.sources.map (fun s => (sourceOf s).escaped)
        edges := plan.edges ++ (edgesOf rp).map PlanEdge.escaped
        assets := plan.assets ++ rp.assets.map (fun a => (assetOf a).escaped) } := by
  unfold itemsOf
  rw [List.foldl_append, List.foldl_append, List.foldl_append, foldl_assets, foldl_edges,
    foldl_sources]
  rfl

/-- A plan that was read without errors: the lexer found none, and the reader got to
the end of it. -/
theorem readBuildPlan_ok {planPath text : Str} {plan : BuildPlan} {sink : List Diagnostic}
    (h : readBuildPlan planPath (some text) = .ok (plan, sink)) (hok : plan.ok = true) :
    ∃ toks st, { text : Lexer }.tokenize = .ok (toks, []) ∧
      (startState planPath text toks []).block = .ok st ∧ st.plan.sources ≠ [] ∧
      plan = { st.plan with ok := true } := by
  unfold readBuildPlan at h
  obtain ⟨⟨toks, diags⟩, htok, h⟩ := bind_eq_ok.mp h
  have hreads := reads_block (startState planPath text toks diags)
  dsimp only at h
  rw [← startState] at h
  cases hx : (startState planPath text toks diags).block with
  | error st =>
    rw [hx] at h
    obtain ⟨rfl, -⟩ := Prod.mk.inj (Except.ok.inj h)
    rw [hreads.kept st (.inr hx)] at hok
    cases hok
  | ok st =>
    rw [hx] at h
    obtain ⟨rfl, -⟩ := Prod.mk.inj (Except.ok.inj h)
    have hempty := List.isEmpty_iff.mp hok
    obtain ⟨hfront, -⟩ := List.append_eq_nil_iff.mp hempty
    obtain ⟨hsink, hsources⟩ := List.append_eq_nil_iff.mp hfront
    have hdiags : diags <+: st.reader.sink := (hreads.moves st hx).sink
    rw [hsink] at hdiags
    obtain rfl := List.prefix_nil.mp hdiags
    refine ⟨toks, st, htok, hx, ?_, ?_⟩
    · rintro hnil
      rw [hnil] at hsources
      cases hsources
    · rw [List.isEmpty_iff.mpr hempty]

/-- A plan that is read to its end without errors, with a source and an entry. -/
private theorem readBuildPlan_eq {planPath text : Str} {toks : List Token}
    (htok : { text : Lexer }.tokenize = .ok (toks, []))
    (hblock : (startState planPath text toks []).block = .ok st) (hsink : st.reader.sink = [])
    (hsources : st.plan.sources ≠ []) (hentry : st.sawEntry = true) :
    readBuildPlan planPath (some text) = .ok ({ st.plan with ok := true }, []) := by
  have hisEmpty : st.plan.sources.isEmpty = false := by
    simpa [List.isEmpty_eq_false_iff] using hsources
  unfold readBuildPlan
  dsimp only
  rw [htok, ok_bind]
  dsimp only
  rw [← startState, hblock]
  simp [hsink, hisEmpty, hentry]

/-- A plan that comes back has no string that is changed by its escapes. -/
private theorem clean_of_samePlan {planFile : SourceFile}
    (h : SamePlan rp opts { (itemsOf rp opts).foldl Item.applyPlan { planFile } with ok := true })
    (hkind : rp.entryKind ∈ ["script".toList, "file".toList, "function".toList]) :
    ∀ s ∈ planStrings rp opts, escape s = s := by
  rw [foldl_itemsOf] at h
  have hsources : ∀ s ∈ rp.sources, (sourceOf s).escaped = sourceOf s :=
    List.map_inj_left.mp h.sources
  have hedges : ∀ e ∈ edgesOf rp, e.escaped = id e :=
    List.map_inj_left.mp (h.edges.trans (List.map_id _).symm)
  have hassets : ∀ a ∈ rp.assets, (assetOf a).escaped = assetOf a := List.map_inj_left.mp h.assets
  intro s hs
  simp only [planStrings, List.mem_append, List.mem_cons, List.not_mem_nil, or_false,
    List.mem_flatMap] at hs
  rcases hs with (rfl | rfl | rfl | rfl | rfl) | ⟨r, hr, hs⟩ | ⟨e, he, hs⟩ | ⟨a, ha, hs⟩
  · exact h.out
  · exact h.mode
  · exact h.target
  · simp only [List.mem_cons, List.not_mem_nil, or_false] at hkind
    rw [escape_eq_self]
    rcases hkind with hk | hk | hk <;> rw [hk] <;> decide
  · exact h.entryTarget
  · obtain ⟨h₁, h₂, h₃⟩ := PlanSource.mk.inj (hsources r hr)
    rcases hs with rfl | rfl | rfl
    · exact h₁
    · exact h₂
    · exact h₃
  · obtain ⟨h₁, h₂⟩ := PlanEdge.mk.inj (hedges e he)
    rcases hs with rfl | rfl
    · exact h₁
    · exact h₂
  · obtain ⟨h₁, h₂, h₃, h₄⟩ := PlanAsset.mk.inj (hassets a ha)
    rcases hs with rfl | rfl | rfl | rfl
    · exact h₁
    · exact h₂
    · exact h₃
    · exact h₄

/-- A readable plan comes back as it is. -/
private theorem samePlan_of_clean {planFile : SourceFile}
    (hclean : ∀ s ∈ planStrings rp opts, escape s = s)
    (hkind : rp.entryKind ∈ ["script".toList, "file".toList, "function".toList]) :
    SamePlan rp opts { (itemsOf rp opts).foldl Item.applyPlan { planFile } with ok := true } := by
  have hmem : ∀ s, s ∈ [opts.out, opts.mode, opts.target, rp.entryKind, rp.entryTarget] →
      escape s = s := fun s hs => hclean s (List.mem_append_left _ hs)
  have hsource : ∀ r ∈ rp.sources, (sourceOf r).escaped = sourceOf r := by
    intro r hr
    have hr' : ∀ s ∈ [r.path, r.moduleId, r.origin], escape s = s := fun s hs =>
      hclean s (List.mem_append_right _ (List.mem_append_left _ (List.mem_flatMap.mpr ⟨r, hr, hs⟩)))
    unfold PlanSource.escaped sourceOf
    rw [hr' r.path (by simp), hr' r.moduleId (by simp), hr' r.origin (by simp)]
  have hedge : ∀ e ∈ edgesOf rp, e.escaped = id e := by
    intro e he
    have he' : ∀ s ∈ [e.from_, e.to_], escape s = s := fun s hs =>
      hclean s (List.mem_append_right _ (List.mem_append_right _ (List.mem_append_left _
        (List.mem_flatMap.mpr ⟨e, he, hs⟩))))
    unfold PlanEdge.escaped
    rw [he' e.from_ (by simp), he' e.to_ (by simp)]
    rfl
  have hasset : ∀ a ∈ rp.assets, (assetOf a).escaped = assetOf a := by
    intro a ha
    have ha' : ∀ s ∈ [a.rel, a.path, a.moduleId, a.hash], escape s = s := fun s hs =>
      hclean s (List.mem_append_right _ (List.mem_append_right _ (List.mem_append_right _
        (List.mem_flatMap.mpr ⟨a, ha, hs⟩))))
    unfold PlanAsset.escaped assetOf
    rw [ha' a.rel (by simp), ha' a.path (by simp), ha' a.moduleId (by simp), ha' a.hash (by simp)]
  rw [foldl_itemsOf]
  refine ⟨rfl, hmem _ (by simp), hmem _ (by simp), hmem _ (by simp), rfl, ?_, hmem _ (by simp),
    List.map_congr_left hsource, (List.map_congr_left hedge).trans (List.map_id _),
    List.map_congr_left hasset⟩
  simp only [List.mem_cons, List.not_mem_nil, or_false] at hkind
  rcases hkind with hk | hk | hk <;> rw [hk] <;> rfl

/-- **The plan codec.**  Reading the text of a plan gives the same plan back exactly
if its strings have no quotes, backslashes and newlines, its rows are what the
reader asks for, and its text is shorter than 2 ^ 32 bytes. -/
theorem readBuildPlan_writeBuildPlan (planPath : Str) (rp : ResolvedProject)
    (opts : WritePlanOptions) :
    (∃ plan sink, readBuildPlan planPath (some (writeBuildPlan rp opts)) = .ok (plan, sink) ∧
      SamePlan rp opts plan) ↔ Readable rp opts := by
  have htext : writeBuildPlan rp opts = planText (itemsOf rp opts) := writeBuildPlan_eq rp opts
  constructor
  · rintro ⟨plan, sink, hread, hsame⟩
    obtain ⟨toks, st, htok, hblock, hsources, rfl⟩ := readBuildPlan_ok hread hsame.ok
    rw [htext] at htok
    have hsize : (planText (itemsOf rp opts)).length < 2 ^ 32 := by
      by_contra hsize
      rcases tokenize_too_long (not_lt.mp hsize) htok with hd | ⟨ks', ks'', cut, hks, hne, rfl, hcut⟩
      · exact hd rfl
      · exact block_cut hks hne rfl hcut hblock
    have hnewline : ∀ s ∈ (itemsOf rp opts).flatMap Item.strings, '\n' ∉ s := by
      intro s hs hn
      exact tokenize_newline hsize ⟨s, hs, hn⟩ htok rfl
    obtain ⟨last, -, htok'⟩ := tokenize_planText hsize hnewline
    obtain ⟨rfl, -⟩ := Prod.mk.inj (Except.ok.inj (htok.symm.trans htok'))
    have haccepted : ∀ i ∈ itemsOf rp opts, i.Accepted := by
      by_contra hrefused
      obtain ⟨st', hst'⟩ := block_refused (startState planPath (writeBuildPlan rp opts) _ []) last
        hrefused rfl
      rw [hblock] at hst'
      cases hst'
    rw [block_accepted _ last haccepted rfl] at hblock
    obtain rfl := Except.ok.inj hblock
    obtain ⟨hkind, hlevel, hpaths, hassets⟩ := accepted_itemsOf.mp haccepted
    refine ⟨?_, hkind, hlevel, ?_, hpaths, hassets, by rwa [htext]⟩
    · intro s hs
      have hescape := clean_of_samePlan hsame hkind s hs
      rw [escape_eq_self] at hescape
      exact ⟨hescape.1, hescape.2, hnewline s (by rwa [← planStrings_eq])⟩
    · rintro hnil
      refine hsources ?_
      change ((itemsOf rp opts).foldl Item.applyPlan _).sources = []
      rw [foldl_itemsOf]
      simp [hnil, startState]
  · intro h
    have haccepted : ∀ i ∈ itemsOf rp opts, i.Accepted :=
      accepted_itemsOf.mpr ⟨h.entryKind, h.optLevel, h.paths, h.assets⟩
    have hsize : (planText (itemsOf rp opts)).length < 2 ^ 32 := htext ▸ h.size
    obtain ⟨last, -, htok⟩ := tokenize_planText hsize
      (fun s hs => (h.strings s (by rwa [planStrings_eq])).2.2)
    have hblock := block_accepted (startState planPath (writeBuildPlan rp opts)
      (lexAt 0 (planChunks (itemsOf rp opts)) ++ [last]) []) last haccepted rfl
    have hclean : ∀ s ∈ planStrings rp opts, escape s = s := fun s hs =>
      escape_eq_self.mpr ⟨(h.strings s hs).1, (h.strings s hs).2.1⟩
    have hsources : ((itemsOf rp opts).foldl Item.applyPlan
        { planFile := ⟨planPath, writeBuildPlan rp opts⟩ }).sources ≠ [] := by
      rw [foldl_itemsOf]
      simpa using h.sources
    rw [← htext] at htok
    exact ⟨_, _, readBuildPlan_eq htok hblock rfl hsources rfl, samePlan_of_clean hclean h.entryKind⟩

/-- A project with one source file whose path has a quote in it. -/
def quotedProject : ResolvedProject :=
  { sources := [⟨"/p/a\"b.lev".toList, [], []⟩]
    moduleDeps := []
    assets := []
    entryTarget := [] }

/-- The options of a build of that project. -/
def quotedOptions : WritePlanOptions :=
  { out := "/p/a".toList, mode := "build".toList, target := [] }

/-- The quote in the path comes back with the backslash that the writer put before
it. -/
theorem quoted_path_not_read_back :
    ¬ ∃ plan sink, readBuildPlan "/p/plan".toList
        (some (writeBuildPlan quotedProject quotedOptions)) = .ok (plan, sink) ∧
      SamePlan quotedProject quotedOptions plan := by
  rintro ⟨plan, sink, hread, hsame⟩
  have hpath : (readBuildPlan "/p/plan".toList
      (some (writeBuildPlan quotedProject quotedOptions))).map (fun p => p.1.sources) =
      .ok [⟨"/p/a\\\"b.lev".toList, [], []⟩] := by
    decide +kernel
  rw [hread] at hpath
  have hsources : plan.sources = [⟨"/p/a\\\"b.lev".toList, [], []⟩] := Except.ok.inj hpath
  exact absurd (hsources.symm.trans hsame.sources) (by decide)

end Leviathan.Driver
