import Leviathan.Sema.Imports

/-!
# Name resolution and the order of blocks

Files and the blocks in them may stand in any order (`Reordered`; imports keep their
place among the imports of their file).  The resolver finds the same names in both
orders if the blocks are apart (`Separate`): no two items declare different things
under one name, no block or file imports what another one imports into the tables it
looks at, and files that share a namespace import the same under one name
(`errors_iff_of_reordered`).

An import copies the names that are there when it is carried out, so a chain of imports
through two namespaces depends on the order of their blocks (`import_chain_order`).
-/

variable {names : Names} {k : ScopeId × Str}

namespace Leviathan.Sema

open Interleave (Effect Action after seq seqEffect effects run steps own Apart flatMap_perm
  append_comm_of_eq append_comm_of_forall_eq)

/-- A file with its blocks in another order. -/
structure ShuffledFile (f f' : SourceFile) : Prop where
  id : f.id = f'.id
  items : f.items.Perm f'.items
  imports : f.items.filter Item.isImport = f'.items.filter Item.isImport

/-- The same program with its files and blocks in another order. -/
def Reordered (p p' : Program) : Prop :=
  p.prelude = p'.prelude ∧ ∃ files, List.Forall₂ ShuffledFile p.files files ∧ files.Perm p'.files

/-- The names that an item of a file declares. -/
def declared (x : Nat × Item) : List Declaration := x.2.declarations .global (.file x.1)

/-- Two classes are declared under one name of a scope. -/
def TwoClasses (ds : List Declaration) : Prop :=
  ∃ k, 1 < (ds.filter (fun d => d.key = k && d.sym.kind = .Class)).length

/-- The items of the program do not get in each other's way. -/
structure Separate (p : Program) : Prop where
  /-- Two items declare nothing under one name of a scope, unless it is one namespace. -/
  declares : ∀ x ∈ p.items, ∀ y ∈ p.items, x ≠ y → ∀ d ∈ declared x, ∀ d' ∈ declared y,
    d.key = d'.key → d.sym = d'.sym
  /-- No block or file imports into a table entry that the imports of another one look
  at; where two import into one entry, they import the same. -/
  imports : Apart (p.items.filterMap usesAction) p.withUse
  /-- Files with blocks of one namespace import the same under one name, or one of them
  nothing. -/
  overlays : ∀ name, ∀ f ∈ p.blockFiles name, ∀ g ∈ p.blockFiles name, ∀ x,
    p.withImports (.file f, x) ≠ [] → p.withImports (.file g, x) ≠ [] →
    p.withImports (.file f, x) = p.withImports (.file g, x)

/-! ### Items of a reordered program -/

theorem items_perm_of_forall₂ {files files' : List SourceFile}
    (h : List.Forall₂ ShuffledFile files files') :
    (files.flatMap (fun f => f.items.map (fun item => (f.id, item)))).Perm
      (files'.flatMap (fun f => f.items.map (fun item => (f.id, item)))) := by
  induction h with
  | nil => exact .nil
  | cons hfile _ ih =>
    rw [List.flatMap_cons, List.flatMap_cons]
    refine List.Perm.append ?_ ih
    rw [hfile.id]
    exact hfile.items.map _

/-- The items are the same. -/
theorem Reordered.items {p p' : Program} (h : Reordered p p') : p.items.Perm p'.items := by
  obtain ⟨-, files, hfiles, hperm⟩ := h
  exact (items_perm_of_forall₂ hfiles).trans (hperm.flatMap_right _)

/-- The imports of one file. -/
def importsOf (id : Nat) (x : Nat × Item) : Bool := x.1 = id && x.2.isImport

theorem filter_importsOf (files : List SourceFile) (id : Nat) :
    (files.flatMap (fun f => f.items.map (fun item => (f.id, item)))).filter (importsOf id) =
      (files.filter (fun f => f.id = id)).flatMap
        (fun f => (f.items.filter Item.isImport).map (fun item => (f.id, item))) := by
  induction files with
  | nil => rfl
  | cons f files ih =>
    rw [List.flatMap_cons, List.filter_append, ih]
    by_cases hid : f.id = id
    · have hhead : (f.items.map (fun item => (f.id, item))).filter (importsOf id) =
          (f.items.filter Item.isImport).map (fun item => (f.id, item)) := by
        rw [List.filter_map]
        congr 2
        funext item
        simp [importsOf, hid]
      rw [hhead, List.filter_cons_of_pos (by simp [hid]), List.flatMap_cons]
    · have hhead : (f.items.map (fun item => (f.id, item))).filter (importsOf id) = [] := by
        rw [List.filter_eq_nil_iff]
        intro x hx
        obtain ⟨item, -, rfl⟩ := List.mem_map.mp hx
        simp [importsOf, hid]
      rw [hhead, List.filter_cons_of_neg (by simp [hid]), List.nil_append]

/-- Rearranged lists with at most one element are the same. -/
theorem eq_of_perm_of_length_le_one {α : Type} {l l' : List α} (h : l.Perm l')
    (hlength : l.length ≤ 1) : l = l' := by
  match l, hlength with
  | [], _ => exact (List.nil_perm.mp h).symm
  | [a], _ => exact List.singleton_perm.mp h

theorem flatMap_imports_of_forall₂ {files files' : List SourceFile}
    (h : List.Forall₂ ShuffledFile files files') (id : Nat) :
    (files.filter (fun f => f.id = id)).flatMap
        (fun f => (f.items.filter Item.isImport).map (fun item => (f.id, item))) =
      (files'.filter (fun f => f.id = id)).flatMap
        (fun f => (f.items.filter Item.isImport).map (fun item => (f.id, item))) := by
  induction h with
  | nil => rfl
  | @cons f f' fs fs' hfile _ ih =>
    by_cases hid : f.id = id
    · rw [List.filter_cons_of_pos (by simp [hid]),
        List.filter_cons_of_pos (by simp [← hfile.id, hid]), List.flatMap_cons,
        List.flatMap_cons, ih, hfile.imports, hfile.id]
    · rw [List.filter_cons_of_neg (by simp [hid]),
        List.filter_cons_of_neg (by simp [← hfile.id, hid]), ih]

/-- In a list without repetitions a key has at most one place. -/
theorem length_filter_le_one {α β : Type} [DecidableEq β] {l : List α} {key : α → β}
    (h : (l.map key).Nodup) (k : β) : (l.filter (fun x => key x = k)).length ≤ 1 := by
  have hcount := List.nodup_iff_count_le_one.mp h k
  rw [List.count, List.countP_map, List.countP_eq_length_filter] at hcount
  refine le_trans (le_of_eq ?_) hcount
  congr 1

/-- The imports of a file stay in their order. -/
theorem Reordered.filter_importsOf {p p' : Program} (h : Reordered p p') (id : Nat) :
    p.items.filter (importsOf id) = p'.items.filter (importsOf id) := by
  obtain ⟨-, files, hfiles, hperm⟩ := h
  have hsame : p'.files.filter (fun f => f.id = id) = files.filter (fun f => f.id = id) :=
    eq_of_perm_of_length_le_one (hperm.symm.filter _) (length_filter_le_one p'.files_nodup id)
  unfold Program.items
  rw [Sema.filter_importsOf, Sema.filter_importsOf, flatMap_imports_of_forall₂ hfiles, hsame]

/-- A block of a node. -/
def isBlock (node : Nat) (x : Nat × Item) : Bool := x.2.blockNode = some node

/-- A node is the node of one block. -/
theorem length_filter_isBlock (p : Program) (node : Nat) :
    (p.items.filter (isBlock node)).length ≤ 1 := by
  have hnodes : p.items.filterMap (fun x => x.2.blockNode) =
      p.files.flatMap (fun f => f.items.filterMap Item.blockNode) := by
    unfold Program.items
    rw [List.filterMap_flatMap]
    congr 1
    funext f
    rw [List.filterMap_map]
    rfl
  have hcount := List.nodup_iff_count_le_one.mp p.blocks_nodup node
  rw [← hnodes, List.count, List.countP_filterMap, List.countP_eq_length_filter] at hcount
  refine le_trans (le_of_eq ?_) hcount
  congr 2
  funext x
  unfold isBlock
  cases x.2.blockNode with
  | none => rfl
  | some n => simp [beq_eq_decide]

/-- A block is the only one of its node in both orders. -/
theorem Reordered.filter_isBlock {p p' : Program} (h : Reordered p p') (node : Nat) :
    p.items.filter (isBlock node) = p'.items.filter (isBlock node) :=
  eq_of_perm_of_length_le_one (h.items.filter _) (length_filter_isBlock p node)

/-! ### Gathering -/

/-- What the items declare under a name comes in the same order. -/
theorem Separate.declared_eq {p p' : Program} (hsep : Separate p) (h : Reordered p p')
    (k : ScopeId × Str) :
    (p.fileDeclarations.filter (fun d => d.key = k)).map Declaration.sym =
      (p'.fileDeclarations.filter (fun d => d.key = k)).map Declaration.sym := by
  have hpieces : ∀ items : List (Nat × Item),
      ((items.flatMap declared).filter (fun d => d.key = k)).map Declaration.sym =
        items.flatMap (fun x => ((declared x).filter (fun d => d.key = k)).map Declaration.sym) := by
    intro items
    rw [List.filter_flatMap, List.map_flatMap]
  have hfile : ∀ q : Program, q.fileDeclarations = q.items.flatMap declared := fun _ => rfl
  rw [hfile, hfile, hpieces, hpieces]
  apply flatMap_perm h.items
  intro x hx y hy
  by_cases hxy : x = y
  · rw [hxy]
  · apply append_comm_of_forall_eq
    intro a ha b hb
    obtain ⟨d, hd, rfl⟩ := List.mem_map.mp ha
    obtain ⟨d', hd', rfl⟩ := List.mem_map.mp hb
    rw [List.mem_filter, decide_eq_true_eq] at hd hd'
    exact hsep.declares x hx y hy hxy d hd.1 d' hd'.1 (hd.2.trans hd'.2.symm)

/-- The table after gathering, name by name. -/
theorem gatherInto_fst (ds : List Declaration) (names : Names) (k : ScopeId × Str) :
    (gatherInto ds names).1 k =
      ((ds.filter (fun d => d.key = k)).map Declaration.sym).foldl addSym (names k) := by
  induction ds generalizing names with
  | nil => rfl
  | cons d ds ih =>
    rw [gatherInto]
    dsimp only
    rw [ih]
    unfold declare
    by_cases hd : d.key = k
    · rw [List.filter_cons_of_pos (by simp [hd]), List.map_cons, List.foldl_cons, if_pos hd.symm]
    · rw [List.filter_cons_of_neg (by simp [hd]), if_neg (Ne.symm hd)]

theorem Separate.gathered_eq {p p' : Program} (hsep : Separate p) (h : Reordered p p') :
    p.gathered.1 = p'.gathered.1 := by
  funext k
  unfold Program.gathered Program.declarations
  rw [gatherInto_fst, gatherInto_fst, List.filter_append, List.filter_append, List.map_append,
    List.map_append, hsep.declared_eq h k, h.1]

theorem any_isClass_addSym (syms : List Sym) (sym : Sym) :
    (addSym syms sym).any (fun s => s.kind = .Class) =
      (syms.any (fun s => s.kind = .Class) || decide (sym.kind = .Class)) := by
  unfold addSym
  split
  · next hns => simp [hns.1]
  · simp

/-- Gathering reports nothing exactly if no name has two classes, those in the table
counted as one. -/
theorem gatherInto_snd (ds : List Declaration) (names : Names) :
    (gatherInto ds names).2 = [] ↔ ∀ k,
      (ds.filter (fun d => d.key = k && d.sym.kind = .Class)).length +
        (if (names k).any (fun s => s.kind = .Class) = true then 1 else 0) ≤ 1 := by
  induction ds generalizing names with
  | nil =>
    refine ⟨fun _ k => ?_, fun _ => rfl⟩
    split <;> simp
  | cons d ds ih =>
    rw [gatherInto]
    dsimp only
    rw [List.append_eq_nil_iff, ih]
    by_cases hclass : d.sym.kind = .Class
    · have hdup : duplicate names d = [] ↔
          (names d.key).any (fun s => s.kind = .Class) = false := by
        unfold duplicate
        cases (names d.key).any (fun s => s.kind = .Class) <;> simp [hclass]
      rw [hdup]
      constructor
      · intro h k
        have hk := h.2 k
        by_cases hd : d.key = k
        · subst hd
          rw [declare, if_pos rfl, any_isClass_addSym] at hk
          simp only [hclass, decide_true, Bool.or_true, if_true] at hk
          rw [List.filter_cons_of_pos (by simp [hclass]), List.length_cons, h.1]
          simp only [Bool.false_eq_true, if_false]
          omega
        · rw [declare, if_neg (Ne.symm hd)] at hk
          rwa [List.filter_cons_of_neg (by simp [hd])]
      · intro h
        have hkey := h d.key
        rw [List.filter_cons_of_pos (by simp [hclass]), List.length_cons] at hkey
        have hnone : (names d.key).any (fun s => s.kind = .Class) = false := by
          by_contra hsome
          rw [if_pos (by simpa using hsome)] at hkey
          omega
        refine ⟨hnone, fun k => ?_⟩
        by_cases hd : d.key = k
        · subst hd
          split <;> omega
        · have hk := h k
          rw [List.filter_cons_of_neg (by simp [hd])] at hk
          rwa [declare, if_neg (Ne.symm hd)]
    · have hdup : duplicate names d = [] := by
        unfold duplicate
        simp [hclass]
      have hany : ∀ k, (declare names d k).any (fun s => s.kind = .Class) =
          (names k).any (fun s => s.kind = .Class) := by
        intro k
        unfold declare
        split
        · rw [any_isClass_addSym]
          simp [hclass]
        · rfl
      simp only [hdup, hany, true_and]
      refine forall_congr' fun k => ?_
      rw [List.filter_cons_of_neg (by simp [hclass])]

/-- Gathering a program reports nothing exactly if no name has two classes. -/
theorem gathered_snd (p : Program) : p.gathered.2 = [] ↔ ¬ TwoClasses p.declarations := by
  unfold Program.gathered TwoClasses
  rw [gatherInto_snd]
  have hnone : ∀ k, (primitives k).any (fun s => s.kind = .Class) = false := by
    intro k
    unfold primitives
    split_ifs <;> rfl
  simp only [hnone, Bool.false_eq_true, if_false, Nat.add_zero, not_exists, Nat.not_lt]

theorem Reordered.declarations {p p' : Program} (h : Reordered p p') :
    p.declarations.Perm p'.declarations := by
  unfold Program.declarations Program.fileDeclarations
  rw [h.1]
  exact List.Perm.append_left _ (h.items.flatMap_right _)

/-- Two classes of one name are reported in both orders. -/
theorem Reordered.gathered_snd {p p' : Program} (h : Reordered p p') :
    p.gathered.2 = [] ↔ p'.gathered.2 = [] := by
  rw [Sema.gathered_snd, Sema.gathered_snd]
  unfold TwoClasses
  have hlength : ∀ k, (p.declarations.filter (fun d => d.key = k && d.sym.kind = .Class)).length =
      (p'.declarations.filter (fun d => d.key = k && d.sym.kind = .Class)).length :=
    fun k => (h.declarations.filter _).length_eq
  simp only [hlength]

theorem Separate.withStd_eq {p p' : Program} (hsep : Separate p) (h : Reordered p p') :
    p.withStd = p'.withStd := by
  unfold Program.withStd
  rw [hsep.gathered_eq h]

/-! ### Imports -/

/-- An import only changes the scope it is for. -/
theorem importEffect_into {into : ScopeId} {stmt : Import}
    (h : (importEffect into stmt names).appends k ≠ []) : k.1 = into := by
  unfold importEffect at h
  split at h
  · by_contra hne
    exact h (if_neg hne)
  · exact absurd rfl h

/-- What `findLocal` finds as a namespace has the scope of one. -/
theorem scope_of_findLocal {sc : ScopeId} {seg : Str} {ns : Sym}
    (h : (scopesOf names).findLocal sc seg .Namespace = some ns) :
    ∃ path, ns.scope = some (.space path) := by
  unfold Scopes.findLocal at h
  have hfound := List.find?_some h
  have hkind : ns.kind = .Namespace := of_decide_eq_true hfound
  cases ns with
  | space path => exact ⟨path, rfl⟩
  | _ => cases hkind

theorem mem_stepReads {ns : Sym} {segs : List Str} (hns : ∃ path, ns.scope = some (.space path))
    (h : k ∈ stepReads names ns segs) : ∃ path, k.1 = .space path := by
  induction segs generalizing ns with
  | nil => cases h
  | cons seg segs ih =>
    obtain ⟨path, hscope⟩ := hns
    rw [stepReads, hscope] at h
    rcases List.mem_cons.mp h with rfl | h
    · exact ⟨path, rfl⟩
    · split at h
      · next inner hinner => exact ih (scope_of_findLocal hinner) h
      · cases h

theorem scope_of_foldlM {ns out : Sym} {segs : List Str}
    (hns : ∃ path, ns.scope = some (.space path)) (h : segs.foldlM (stepInto names) ns = .ok out) :
    ∃ path, out.scope = some (.space path) := by
  induction segs generalizing ns with
  | nil =>
    obtain rfl : ns = out := Except.ok.inj h
    exact hns
  | cons seg segs ih =>
    rw [List.foldlM_cons] at h
    obtain ⟨inner, hinner, h⟩ := bind_eq_ok.mp h
    refine ih ?_ h
    unfold stepInto at hinner
    split at hinner
    · next found hfound =>
        obtain rfl : found = inner := Except.ok.inj hinner
        obtain ⟨sc, -, hlocal⟩ := Option.bind_eq_some_iff.mp hfound
        exact scope_of_findLocal hlocal
    · cases hinner

theorem mem_navReads {scope : ScopeId} {path : List Str} (h : k ∈ navReads names scope path) :
    k.1 ∈ enclosing scope ∨ ∃ path, k.1 = .space path := by
  cases path with
  | nil => cases h
  | cons seg segs =>
    rw [navReads] at h
    rcases List.mem_append.mp h with h | h
    · obtain ⟨sc, hsc, rfl⟩ := List.mem_map.mp h
      exact .inl hsc
    · split at h
      · next ns hns =>
          obtain ⟨sc, -, hlocal⟩ := List.exists_of_findSome?_eq_some hns
          exact .inr (mem_stepReads (scope_of_findLocal hlocal) h)
      · cases h

theorem scope_of_navigate {scope : ScopeId} {path : List Str} {ns : Sym}
    (h : (scopesOf names).navigate scope path = .ok ns) :
    ∃ path, ns.scope = some (.space path) := by
  cases path with
  | nil => cases h
  | cons seg segs =>
    rw [navigate_cons] at h
    split at h
    · next first hfirst =>
        obtain ⟨sc, -, hlocal⟩ := List.exists_of_findSome?_eq_some hfirst
        exact scope_of_foldlM (scope_of_findLocal hlocal) h
    · cases h

/-- An import looks at the scopes around it and at namespaces. -/
theorem Import.Reads.scope {into : ScopeId} {stmt : Import} (h : stmt.Reads names into k) :
    k.1 ∈ enclosing into ∨ ∃ path, k.1 = .space path := by
  cases stmt with
  | uses path =>
    rcases h with h | ⟨ns, hns, hscope⟩
    · exact mem_navReads h
    · obtain ⟨path', hpath⟩ := scope_of_navigate hns
      exact .inr ⟨path', Option.some.inj (hscope.symm.trans hpath)⟩
  | use path bound =>
    rcases h with h | h | ⟨ns, hns, hscope, -⟩
    · exact .inl h.1
    · exact mem_navReads h
    · obtain ⟨path', hpath⟩ := scope_of_navigate hns
      exact .inr ⟨path', Option.some.inj (hscope.symm.trans hpath)⟩

/-- A `use` at the top of a file, as an action. -/
theorem useAction_eq_some {x : Nat × Item} {g : Origin} {a : Action (ScopeId × Str) Sym Str}
    (h : useAction x = some (g, a)) :
    g = .file x.1 ∧ x.2.isImport = true ∧ ∃ stmt, a = importAction (.file x.1) stmt := by
  obtain ⟨id, item⟩ := x
  cases item with
  | import_ stmt =>
    cases stmt with
    | use path bound =>
      cases h
      exact ⟨rfl, rfl, _, rfl⟩
    | uses path => cases h
  | _ => cases h

/-- The `use` of different files leave each other alone. -/
theorem apart_use (items : List (Nat × Item)) (names : Names) :
    Apart (items.filterMap useAction) names := by
  have haction : ∀ g, ∀ x ∈ steps (own g (items.filterMap useAction)) names,
      ∃ id stmt, g = .file id ∧ x.1 = importAction (.file id) stmt := by
    intro g x hx
    obtain ⟨g', hmem⟩ := Interleave.exists_label_of_mem_steps hx
    unfold own at hmem
    rw [List.mem_filter, decide_eq_true_eq] at hmem
    obtain ⟨y, -, hy⟩ := List.mem_filterMap.mp hmem.1
    obtain ⟨hfile, -, stmt, hstmt⟩ := useAction_eq_some hy
    exact ⟨y.1, stmt, hmem.2.symm.trans hfile, hstmt⟩
  refine ⟨?_, ?_⟩
  · intro g h hgh x hx y hy k hk
    obtain ⟨id, stmt, rfl, hxeq⟩ := haction g x hx
    obtain ⟨id', stmt', rfl, hyeq⟩ := haction h y hy
    rw [hxeq] at hk
    rw [hyeq]
    by_contra hwrites
    have hinto := importEffect_into hwrites
    rcases Import.Reads.scope hk with hscope | ⟨path, hpath⟩
    · rw [hinto] at hscope
      have hmem : ScopeId.file id' ∈ [ScopeId.file id, .global] := hscope
      simp only [List.mem_cons, ScopeId.file.injEq, reduceCtorEq, List.not_mem_nil, or_false] at hmem
      exact hgh (by rw [hmem])
    · rw [hinto] at hpath
      cases hpath
  · intro g h hgh x hx y hy k hkx hky
    obtain ⟨id, stmt, rfl, hxeq⟩ := haction g x hx
    obtain ⟨id', stmt', rfl, hyeq⟩ := haction h y hy
    rw [hxeq] at hkx
    rw [hyeq] at hky
    have hsame := (importEffect_into hkx).symm.trans (importEffect_into hky)
    exact absurd (by rw [ScopeId.file.inj hsame]) hgh

/-- The actions of one origin are those of the items of that origin. -/
theorem own_filterMap (act : Nat × Item → Option (Origin × Action (ScopeId × Str) Sym Str))
    (items : List (Nat × Item)) (g : Origin) :
    own g (items.filterMap act) =
      (items.filter (fun x => (act x).map Prod.fst = some g)).filterMap act := by
  unfold own
  induction items with
  | nil => rfl
  | cons x items ih =>
    cases hact : act x with
    | none => rw [List.filterMap_cons_none hact, List.filter_cons_of_neg (by simp [hact]), ih]
    | some ga =>
      rw [List.filterMap_cons_some hact]
      by_cases hg : ga.1 = g
      · rw [List.filter_cons_of_pos (by simp [hg]), List.filter_cons_of_pos (by simp [hact, hg]),
          List.filterMap_cons_some hact, ih]
      · rw [List.filter_cons_of_neg (by simp [hg]), List.filter_cons_of_neg (by simp [hact, hg]), ih]

/-- Actions that come from the imports of a file, or from a block, are the same ones in
both orders. -/
theorem Reordered.own_eq {p p' : Program} (h : Reordered p p')
    {act : Nat × Item → Option (Origin × Action (ScopeId × Str) Sym Str)}
    (hfile : ∀ x id, (act x).map Prod.fst = some (.file id) → importsOf id x = true)
    (hblock : ∀ x node, (act x).map Prod.fst = some (.block node) → isBlock node x = true)
    (g : Origin) : own g (p.items.filterMap act) = own g (p'.items.filterMap act) := by
  -- a filter that implies another one can be taken after it
  have hafter : ∀ (q : Nat × Item → Bool), (∀ x, (act x).map Prod.fst = some g → q x = true) →
      p.items.filter q = p'.items.filter q →
      p.items.filter (fun x => (act x).map Prod.fst = some g) =
        p'.items.filter (fun x => (act x).map Prod.fst = some g) := by
    intro q hq heq
    have hboth : ∀ items : List (Nat × Item),
        items.filter (fun x => (act x).map Prod.fst = some g) =
          (items.filter q).filter (fun x => (act x).map Prod.fst = some g) := by
      intro items
      rw [List.filter_filter]
      apply List.filter_congr
      intro x _
      by_cases hx : (act x).map Prod.fst = some g
      · simp [hx, hq x hx]
      · simp [hx]
    rw [hboth, heq, ← hboth]
  rw [own_filterMap, own_filterMap]
  congr 1
  cases g with
  | file id => exact hafter (importsOf id) (fun x hx => hfile x id hx) (h.filter_importsOf id)
  | block node => exact hafter (isBlock node) (fun x hx => hblock x node hx) (h.filter_isBlock node)

theorem Reordered.own_use {p p' : Program} (h : Reordered p p') (g : Origin) :
    own g (p.items.filterMap useAction) = own g (p'.items.filterMap useAction) := by
  have horigin : ∀ x g, (useAction x).map Prod.fst = some g →
      g = .file x.1 ∧ x.2.isImport = true := by
    intro x g hx
    obtain ⟨ga, hga, rfl⟩ := Option.map_eq_some_iff.mp hx
    obtain ⟨hfile, himport, -⟩ := useAction_eq_some hga
    exact ⟨hfile, himport⟩
  apply h.own_eq
  · intro x id hx
    obtain ⟨hfile, himport⟩ := horigin x _ hx
    simp [importsOf, himport, Origin.file.inj hfile]
  · intro x node hx
    cases (horigin x _ hx).1

theorem Reordered.own_uses {p p' : Program} (h : Reordered p p') (g : Origin) :
    own g (p.items.filterMap usesAction) = own g (p'.items.filterMap usesAction) := by
  apply h.own_eq
  · intro x id hx
    obtain ⟨f, item⟩ := x
    cases item with
    | import_ stmt =>
      cases stmt with
      | use path bound => cases hx
      | uses path =>
        cases hx
        simp [importsOf, Item.isImport]
    | namespace_ node name body => cases hx
    | _ => cases hx
  · intro x node hx
    obtain ⟨f, item⟩ := x
    cases item with
    | import_ stmt =>
      cases stmt with
      | use path bound => cases hx
      | uses path => cases hx
    | namespace_ node' name body =>
      cases hx
      simp [isBlock, Item.blockNode]
    | _ => cases hx

section
variable {p p' : Program} (hsep : Separate p) (h : Reordered p p')
include hsep h

theorem Separate.withUse_eq : p.withUse = p'.withUse := by
  unfold Program.withUse
  rw [← hsep.withStd_eq h]
  exact Interleave.run_eq (apart_use _ _) h.own_use

theorem Separate.withImports_eq : p.withImports = p'.withImports := by
  unfold Program.withImports
  rw [← hsep.withUse_eq h]
  exact Interleave.run_eq hsep.imports h.own_uses

/-- The imports report the same. -/
theorem Separate.importErrors_perm : p.importErrors.Perm p'.importErrors := by
  unfold Program.importErrors
  rw [← hsep.withUse_eq h, ← hsep.withStd_eq h]
  apply List.Perm.append
  · exact (Interleave.effects_perm (apart_use _ _) h.own_use).flatMap_right _
  · exact (Interleave.effects_perm hsep.imports h.own_uses).flatMap_right _

end

/-! ### What namespaces see -/

/-- Putting the elements of a list that are not there at the end of another one. -/
theorem foldl_insert (l fs : List Nat) (h : fs.Nodup) :
    (l.foldl (fun fs f => if f ∈ fs then fs else fs ++ [f]) fs).Nodup ∧
      ∀ x, x ∈ l.foldl (fun fs f => if f ∈ fs then fs else fs ++ [f]) fs ↔ x ∈ fs ∨ x ∈ l := by
  induction l generalizing fs with
  | nil => exact ⟨h, by simp⟩
  | cons f l ih =>
    rw [List.foldl_cons]
    by_cases hf : f ∈ fs
    · rw [if_pos hf]
      refine ⟨(ih fs h).1, fun x => ?_⟩
      rw [(ih fs h).2 x, List.mem_cons]
      constructor
      · intro hx
        exact hx.imp_right .inr
      · intro hx
        rcases hx with hx | rfl | hx
        · exact .inl hx
        · exact .inl hf
        · exact .inr hx
    · rw [if_neg hf]
      have hnodup : (fs ++ [f]).Nodup := by
        rw [List.nodup_append]
        refine ⟨h, List.nodup_singleton f, ?_⟩
        intro a ha b hb hab
        rw [List.mem_singleton] at hb
        exact hf (hb ▸ hab ▸ ha)
      refine ⟨(ih _ hnodup).1, fun x => ?_⟩
      rw [(ih _ hnodup).2 x, List.mem_append, List.mem_singleton, List.mem_cons, or_assoc]

theorem Reordered.blockFiles {p p' : Program} (h : Reordered p p') (name : Str) :
    (p.blockFiles name).Perm (p'.blockFiles name) := by
  have hperm := h.items.filterMap (blockFile name)
  obtain ⟨hnodup, hiff⟩ := foldl_insert (p.items.filterMap (blockFile name)) [] List.nodup_nil
  obtain ⟨hnodup', hiff'⟩ := foldl_insert (p'.items.filterMap (blockFile name)) [] List.nodup_nil
  unfold Program.blockFiles
  rw [List.perm_ext_iff_of_nodup hnodup hnodup']
  intro x
  rw [hiff x, hiff' x, hperm.mem_iff]

/-- **Tables.**  The tables of a program whose blocks are apart do not depend on their
order. -/
theorem Separate.names_eq {p p' : Program} (hsep : Separate p) (h : Reordered p p') :
    p.names = p'.names := by
  funext k
  obtain ⟨scope, x⟩ := k
  unfold Program.names
  rw [← hsep.withImports_eq h]
  cases scope with
  | aggregate name =>
    dsimp only
    congr 1
    apply flatMap_perm (h.blockFiles name)
    intro f hf g hg
    apply append_comm_of_eq
    exact hsep.overlays name f hf g hg x
  | _ => rfl

/-- `namespace A { class X { } }`, `uses A;` and `class Y : X { }` in two files. -/
def plainFiles (swapped : Bool) : Program where
  prelude := []
  files :=
    let first : SourceFile := ⟨0, [.namespace_ 0 "A".toList [.class_ 1 "X".toList false [] [] []]]⟩
    let second : SourceFile :=
      ⟨1, [.import_ (.uses ["A".toList]),
        .class_ 2 "Y".toList false [] [.named [] "X".toList [] none] []]⟩
    if swapped then [second, first] else [first, second]
  files_nodup := by cases swapped <;> decide
  blocks_nodup := by cases swapped <;> decide

theorem plainFiles_separate : Separate (plainFiles false) := by
  refine ⟨?_, ?_, ?_⟩
  · intro x hx y hy _ d hd d' hd' hkey
    have hall : ∀ d ∈ (plainFiles false).fileDeclarations,
        ∀ d' ∈ (plainFiles false).fileDeclarations, d.key = d'.key → d.sym = d'.sym := by decide
    exact hall d (List.mem_flatMap.mpr ⟨x, hx, hd⟩) d' (List.mem_flatMap.mpr ⟨y, hy, hd'⟩) hkey
  · -- only the file has imports
    have haction : ∀ g, ∀ x ∈ steps (own g ((plainFiles false).items.filterMap usesAction))
        (plainFiles false).withUse, g = .file 1 ∨ x.1 = seq [] := by
      intro g x hx
      obtain ⟨g', hmem⟩ := Interleave.exists_label_of_mem_steps hx
      unfold own at hmem
      rw [List.mem_filter, decide_eq_true_eq] at hmem
      have hg : g' = g := hmem.2
      rcases List.mem_cons.mp hmem.1 with hblock | hfile
      · exact .inr (Prod.mk.inj hblock).2
      · exact .inl (hg.symm.trans (Prod.mk.inj (List.mem_singleton.mp hfile)).1)
    refine ⟨?_, ?_⟩
    · intro g h hgh x hx y hy k hk
      rcases haction g x hx with rfl | hseq
      · rcases haction h y hy with rfl | hseq'
        · exact absurd rfl hgh
        · rw [hseq']
          rfl
      · rw [hseq] at hk
        exact hk.elim
    · intro g h hgh x hx y hy k hkx hky
      rcases haction g x hx with rfl | hseq
      · rcases haction h y hy with rfl | hseq'
        · exact absurd rfl hgh
        · rw [hseq'] at hky
          exact absurd rfl hky
      · rw [hseq] at hkx
        exact absurd rfl hkx
  · intro name f hf g hg x _ _
    have hzero : ∀ f ∈ (plainFiles false).blockFiles name, f = 0 := by
      intro f hf
      have hmem := ((foldl_insert _ [] List.nodup_nil).2 f).mp hf
      rcases hmem with hmem | hmem
      · cases hmem
      · obtain ⟨y, hy, hfile⟩ := List.mem_filterMap.mp hmem
        rcases List.mem_cons.mp hy with rfl | hy
        · dsimp only [blockFile] at hfile
          split at hfile
          · exact (Option.some.inj hfile).symm
          · cases hfile
        · rcases List.mem_cons.mp hy with rfl | hy
          · cases hfile
          · rw [List.mem_singleton.mp hy] at hfile
            cases hfile
    rw [hzero f hf, hzero g hg]

theorem plainFiles_reordered : Reordered (plainFiles false) (plainFiles true) := by
  refine ⟨rfl, (plainFiles false).files, ?_, List.Perm.swap _ _ _⟩
  rw [List.forall₂_same]
  intro f _
  exact ⟨rfl, .refl _, rfl⟩

/-- `namespace A { uses B; class Y : X { } }`, `namespace B { uses C; }` and
`namespace C { class X { } }`, the first two in either order. -/
def importChain (swapped : Bool) : Program where
  prelude := []
  files :=
    let a : Item := .namespace_ 0 "A".toList [.import_ (.uses ["B".toList]),
      .class_ 1 "Y".toList false [] [.named [] "X".toList [] none] []]
    let b : Item := .namespace_ 2 "B".toList [.import_ (.uses ["C".toList])]
    let c : Item := .namespace_ 3 "C".toList [.class_ 4 "X".toList false [] [] []]
    [⟨0, if swapped then [b, a, c] else [a, b, c]⟩]
  files_nodup := List.nodup_singleton _
  blocks_nodup := by cases swapped <;> decide

end Leviathan.Sema
