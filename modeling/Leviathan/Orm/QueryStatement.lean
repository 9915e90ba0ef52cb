import Leviathan.Orm.QueryPieces

/-!
# The placeholders of a statement

A chain and its terminal give one statement.  Its text is the text of pieces that depend on the
trees of the chain, on the lengths of its lists and on its bounds, and on no captured value.

The main result is `inStep_iff`: a rendered statement keeps its placeholders and its parameters
in step exactly when its trees are straight, no order key that is written has a placeholder, and
no quoted name has a backtick.
-/

variable {s : Str} {q : Query} {r r' : SqlRender} {t : Terminal}

namespace Leviathan.Orm

open SqlText List

/-- What the text of a chain's statement depends on: the predicates, each with the length of its
list, the order keys, and the bounds. -/
structure Outline where
  filters : List (Node × Nat) := []
  keys : List (Node × Bool) := []
  takeN : Int := -1
  skipN : Int := -1
  includeDeleted : Bool := false

def Outline.call (o : Outline) : ChainCall → Outline
  | .where_ p => { o with filters := o.filters ++ [(p.tree, 0)] }
  | .whereIn p contents => { o with filters := o.filters ++ [(p.tree, contents.length)] }
  | .orderBy k => { o with keys := o.keys ++ [(k.tree, false)] }
  | .orderByDesc k => { o with keys := o.keys ++ [(k.tree, true)] }
  | .thenBy k => { o with keys := o.keys ++ [(k.tree, false)] }
  | .thenByDesc k => { o with keys := o.keys ++ [(k.tree, true)] }
  | .take n => { o with takeN := n }
  | .skip n => { o with skipN := n }
  | .withDeleted => { o with includeDeleted := true }

/-- The outline of a chain. -/
def outline (calls : List ChainCall) : Outline := calls.foldl Outline.call {}

/-! ### Pieces of a statement -/

section Pieces

variable (ft : FloatText) (proto : Entity)

/-- An order key. -/
def keyPieces (k : Node × Bool) : List (Piece Place) :=
  k.1.pieces ft .order 0 ++ [.text (if k.2 then " DESC".toList else " ASC".toList)]

/-- The predicates. -/
def filterPieces : Nat → List (Node × Nat) → List (List (Piece Place))
  | _, [] => []
  | i, f :: fs => f.1.pieces ft (.filter i) f.2 :: filterPieces (i + 1) fs

/-- The test that hides deleted rows. -/
def tombstoneTest (o : Outline) : List (List (Piece Place)) :=
  if proto.cls.softDelete && !o.includeDeleted then
    [[.text "(".toList, .name "deletedAt".toList, .text " IS NULL)".toList]]
  else []

/-- The `WHERE` clause. -/
def wherePieces (o : Outline) : List (Piece Place) :=
  match filterPieces ft 0 o.filters ++ tombstoneTest proto o with
  | [] => []
  | parts => .text " WHERE ".toList :: joined " AND ".toList parts

/-- The table. -/
def pathPieces : List (Piece Place) :=
  joined ".".toList (proto.cls.ormPath.map fun s => [.name s])

/-- The columns. -/
def colPieces : List (Piece Place) :=
  joined ", ".toList (proto.allCols.map fun s => [.name s])

/-- The `ORDER BY` clause. -/
def orderPieces (o : Outline) : List (Piece Place) :=
  if o.keys.length > 0 then
    .text " ORDER BY ".toList :: joined ", ".toList (o.keys.map (keyPieces ft))
  else []

/-- The bounds. -/
def boundPieces (o : Outline) : List (Piece Place) :=
  if o.takeN ≥ 0 then
    .text (" LIMIT ".toList ++ Text.decimal o.takeN) ::
      (if o.skipN > 0 then [.text (" OFFSET ".toList ++ Text.decimal o.skipN)] else [])
  else if o.skipN > 0 then
    [.text (" LIMIT 18446744073709551615 OFFSET ".toList ++ Text.decimal o.skipN)]
  else []

/-- The pieces of a statement. -/
def statementPieces (o : Outline) : Terminal → List (Piece Place)
  | .select =>
    .text "SELECT ".toList :: (colPieces proto ++ .text " FROM ".toList ::
      (pathPieces proto ++ (wherePieces ft proto o ++ (orderPieces ft o ++ boundPieces o))))
  | .count =>
    .text "SELECT COUNT(*) AS c FROM ".toList :: (pathPieces proto ++ wherePieces ft proto o)
  | .exists_ =>
    .text "SELECT 1 AS e FROM ".toList :: (pathPieces proto ++
      (wherePieces ft proto o ++ [.text " LIMIT 1".toList]))
  | .set assignment =>
    .text "UPDATE ".toList :: (pathPieces proto ++ .text " SET ".toList ::
      (assignment.tree.pieces ft .set 0 ++ wherePieces ft proto o))
  | .delete =>
    if proto.cls.softDelete then
      .text "UPDATE ".toList :: (pathPieces proto ++ .text " SET ".toList ::
        .name "deletedAt".toList :: .text " = ".toList :: .hole ⟨.tombstone, .now⟩ ::
          wherePieces ft proto o)
    else .text "DELETE FROM ".toList :: (pathPieces proto ++ wherePieces ft proto o)

end Pieces

/-- The places of the predicates, in an order given for trees. -/
def filterPlaces (order : Nat → Node → List Source) : Nat → List (Node × Nat) → List Place
  | _, [] => []
  | i, f :: fs => (order f.2 f.1).map (Place.mk (.filter i)) ++ filterPlaces order (i + 1) fs

/-- The places of the parameters, in the order of the code. -/
def appendedPlaces (proto : Entity) (o : Outline) : Terminal → List Place
  | .set assignment =>
    (assignment.tree.appended 0).map (Place.mk .set) ++ filterPlaces Node.appended 0 o.filters
  | .delete =>
    (if proto.cls.softDelete then [⟨.tombstone, .now⟩] else []) ++
      filterPlaces Node.appended 0 o.filters
  | _ => filterPlaces Node.appended 0 o.filters

/-! ### Formed pieces and their holes -/

section Formed

variable (ft : FloatText) (proto : Entity) (o : Outline)

theorem formed_names (sep : Str) (hne : sep ≠ []) (hsep : Bare sep) (ss : List Str) :
    Formed (joined sep (ss.map fun s => [(.name s : Piece Place)])) := by
  refine formed_joined hne hsep fun ps hps => ?_
  obtain ⟨s, -, rfl⟩ := List.mem_map.mp hps
  exact formed_name s

theorem holes_names (sep : Str) (ss : List Str) :
    holes (joined sep (ss.map fun s => [(.name s : Piece Place)])) = [] := by
  rw [holes_joined, flatMap_map, flatMap_eq_nil_iff]
  exact fun s _ => rfl

theorem formed_pathPieces : Formed (pathPieces proto) :=
  formed_names _ (by simp) (by simp [Bare, opens]) _

theorem formed_colPieces : Formed (colPieces proto) :=
  formed_names _ (by simp) (by simp [Bare, opens]) _

theorem holes_pathPieces : holes (pathPieces proto) = [] := holes_names _ _

theorem holes_colPieces : holes (colPieces proto) = [] := holes_names _ _

theorem formed_filterPieces (fs : List (Node × Nat)) :
    ∀ i, ∀ ps ∈ filterPieces ft i fs, Formed ps := by
  induction fs with
  | nil => exact fun _ _ h => by cases h
  | cons f fs ih =>
    intro i ps hps
    rcases List.mem_cons.mp hps with rfl | hps
    · exact Node.formed_pieces ft _ _ _
    · exact ih (i + 1) ps hps

theorem holes_filterPieces (fs : List (Node × Nat)) :
    ∀ i, (filterPieces ft i fs).flatMap holes = filterPlaces Node.holes i fs := by
  induction fs with
  | nil => exact fun _ => rfl
  | cons f fs ih =>
    intro i
    rw [filterPieces, flatMap_cons, ih, Node.holes_pieces, filterPlaces]

theorem formed_tombstoneTest : ∀ ps ∈ tombstoneTest proto o, Formed ps := by
  intro ps hps
  unfold tombstoneTest at hps
  split at hps
  · obtain rfl := List.mem_singleton.mp hps
    exact (formed_name _).enclosed (by simp [Bare, opens]) (by simp [Bare, opens])
  · cases hps

theorem holes_tombstoneTest : (tombstoneTest proto o).flatMap holes = [] := by
  unfold tombstoneTest
  split <;> rfl

theorem formed_wherePieces : Formed (wherePieces ft proto o) := by
  unfold wherePieces
  split
  · exact formed_nil
  · refine (formed_joined (by simp) (by simp [Bare, opens]) fun ps hps => ?_).text (by simp)
      (by simp [Bare, opens])
    rcases List.mem_append.mp hps with hps | hps
    · exact formed_filterPieces ft _ _ ps hps
    · exact formed_tombstoneTest proto o ps hps

theorem led_wherePieces : Led (wherePieces ft proto o) := by
  unfold wherePieces
  split
  · exact nofun
  · exact led_text _ _

theorem holes_wherePieces :
    holes (wherePieces ft proto o) = filterPlaces Node.holes 0 o.filters := by
  have hparts : (filterPieces ft 0 o.filters ++ tombstoneTest proto o).flatMap holes =
      filterPlaces Node.holes 0 o.filters := by
    rw [flatMap_append, holes_filterPieces, holes_tombstoneTest, append_nil]
  rw [← hparts, wherePieces]
  split
  · next h => rw [h]; rfl
  · next h => rw [holes_text, holes_joined]

theorem formed_keyPieces (k : Node × Bool) : Formed (keyPieces ft k) := by
  refine (Node.formed_pieces ft _ _ _).between ?_ ?_ formed_nil
  · cases k.2 <;> simp
  · cases k.2 <;> simp [Bare, opens]

theorem holes_keyPieces (k : Node × Bool) :
    holes (keyPieces ft k) = (k.1.holes 0).map (Place.mk .order) := by
  rw [keyPieces, holes_append, Node.holes_pieces, holes_text, holes_nil, append_nil]

theorem formed_orderPieces : Formed (orderPieces ft o) := by
  unfold orderPieces
  split
  · refine (formed_joined (by simp) (by simp [Bare, opens]) fun ps hps => ?_).text (by simp)
      (by simp [Bare, opens])
    obtain ⟨k, -, rfl⟩ := List.mem_map.mp hps
    exact formed_keyPieces ft k
  · exact formed_nil

theorem led_orderPieces : Led (orderPieces ft o) := by
  unfold orderPieces
  split
  · exact led_text _ _
  · exact nofun

theorem holes_orderPieces :
    holes (orderPieces ft o) = o.keys.flatMap fun k => (k.1.holes 0).map (Place.mk .order) := by
  unfold orderPieces
  split
  · rw [holes_text, holes_joined, flatMap_map]
    exact congrArg (List.flatMap · o.keys) (funext (holes_keyPieces ft))
  · next h =>
      obtain hnil := List.length_eq_zero_iff.mp (Nat.eq_zero_of_not_pos h)
      rw [hnil]
      rfl

theorem formed_boundPieces : Formed (boundPieces o) := by
  unfold boundPieces
  split
  · refine Formed.text (by simp) (bare_append (by simp [Bare, opens]) (bare_decimal _)) ?_
    split
    · exact formed_nil.text (by simp) (bare_append (by simp [Bare, opens]) (bare_decimal _))
    · exact formed_nil
  · split
    · exact formed_nil.text (by simp) (bare_append (by simp [Bare, opens]) (bare_decimal _))
    · exact formed_nil

theorem led_boundPieces : Led (boundPieces o) := by
  unfold boundPieces
  split
  · exact led_text _ _
  · split
    · exact led_text _ _
    · exact nofun

theorem holes_boundPieces : holes (boundPieces o) = [] := by
  unfold boundPieces
  split
  · split <;> rfl
  · split <;> rfl

/-- A statement starts with a word, the table and what follows it. -/
theorem formed_after_path {ps : List (Piece Place)} (hs : s ≠ [] ∧ Bare s) (h : Formed ps)
    (hled : Led ps) : Formed (.text s :: (pathPieces proto ++ ps)) :=
  ((formed_pathPieces proto).append h hled).text hs.1 hs.2

theorem formed_statementPieces (t : Terminal) : Formed (statementPieces ft proto o t) := by
  have hwhere := formed_wherePieces ft proto o
  have hled := led_wherePieces ft proto o
  cases t with
  | select =>
    have htail := (formed_orderPieces ft o).append (formed_boundPieces o) (led_boundPieces o)
    have hrest := hwhere.append htail ((led_orderPieces ft o).append (led_boundPieces o))
    have hfrom := formed_after_path proto (s := " FROM ".toList) (by simp [Bare, opens]) hrest
      (hled.append ((led_orderPieces ft o).append (led_boundPieces o)))
    exact ((formed_colPieces proto).append hfrom (led_text _ _)).text (by simp)
      (by simp [Bare, opens])
  | count => exact formed_after_path proto (by simp [Bare, opens]) hwhere hled
  | exists_ =>
    exact formed_after_path proto (by simp [Bare, opens])
      (hwhere.between (by simp) (by simp [Bare, opens]) formed_nil)
      (hled.append (led_text _ _))
  | set assignment =>
    have hset := (Node.formed_pieces ft .set 0 assignment.tree).append hwhere hled
    exact formed_after_path proto (by simp [Bare, opens])
      (hset.text (by simp) (by simp [Bare, opens])) (led_text _ _)
  | delete =>
    rw [statementPieces]
    split
    · have hhole := (formed_hole (⟨.tombstone, .now⟩ : Place)).append hwhere hled
      have hname := (formed_name (α := Place) "deletedAt".toList).between
        (s := " = ".toList) (by simp) (by simp [Bare, opens]) hhole
      exact formed_after_path proto (by simp [Bare, opens])
        (hname.text (by simp) (by simp [Bare, opens])) (led_text _ _)
    · exact formed_after_path proto (by simp [Bare, opens]) hwhere hled

end Formed

/-! ### The two orders of the places -/

theorem length_filterPlaces (fs : List (Node × Nat)) :
    ∀ i, (filterPlaces Node.appended i fs).length = (filterPlaces Node.holes i fs).length := by
  induction fs with
  | nil => exact fun _ => rfl
  | cons f fs ih =>
    intro i
    rw [filterPlaces, filterPlaces, length_append, length_append, length_map,
      length_map, Node.length_appended, ih]

/-- Places of one clause agree if their sources do. -/
theorem map_place_inj (clause : Clause) {xs ys : List Source} :
    xs.map (Place.mk clause) = ys.map (Place.mk clause) ↔ xs = ys :=
  List.map_inj_right fun _ _ h => (Place.mk.inj h).2

/-- The tree of one clause. -/
theorem places_eq_iff {clause : Clause} {count : Nat} {n : Node} {ps qs : List Place} :
    (n.appended count).map (Place.mk clause) ++ ps =
        (n.holes count).map (Place.mk clause) ++ qs ↔ n.Straight count ∧ ps = qs := by
  rw [← Node.appended_eq_holes_iff, ← map_place_inj clause]
  constructor
  · intro h
    exact append_inj h (by rw [length_map, length_map, Node.length_appended])
  · rintro ⟨h, rfl⟩
    rw [h]

theorem filterPlaces_eq_iff (fs : List (Node × Nat)) :
    ∀ i, filterPlaces Node.appended i fs = filterPlaces Node.holes i fs ↔
      ∀ f ∈ fs, f.1.Straight f.2 := by
  induction fs with
  | nil => simp [filterPlaces]
  | cons f fs ih =>
    intro i
    rw [filterPlaces, filterPlaces, places_eq_iff, ih, forall_mem_cons]

/-- What holds of a statement whose parameters are in step. -/
structure Outline.Orderly (ft : FloatText) (proto : Entity) (o : Outline) (t : Terminal) : Prop where
  filters : ∀ f ∈ o.filters, f.1.Straight f.2
  assignment : ∀ e, t = .set e → e.tree.Straight 0
  keys : t = .select → ∀ k ∈ o.keys, k.1.holes 0 = []
  names : ∀ s ∈ names (statementPieces ft proto o t), '`' ∉ s

/-- The order of the parameters is the order of the placeholders. -/
theorem appendedPlaces_eq_iff (ft : FloatText) (proto : Entity) (o : Outline) (t : Terminal) :
    appendedPlaces proto o t = holes (statementPieces ft proto o t) ↔
      (∀ f ∈ o.filters, f.1.Straight f.2) ∧ (∀ e, t = .set e → e.tree.Straight 0) ∧
        (t = .select → ∀ k ∈ o.keys, k.1.holes 0 = []) := by
  have hfilters := filterPlaces_eq_iff o.filters 0
  cases t with
  | select =>
    have hkeys : (o.keys.flatMap fun k => (k.1.holes 0).map (Place.mk .order)) = [] ↔
        ∀ k ∈ o.keys, k.1.holes 0 = [] := by
      rw [flatMap_eq_nil_iff]
      simp only [map_eq_nil_iff]
    simp only [statementPieces, appendedPlaces, holes_text, holes_append, holes_colPieces,
      holes_pathPieces, holes_wherePieces, holes_orderPieces, holes_boundPieces,
      nil_append, append_nil, reduceCtorEq, false_implies, implies_true, true_and,
      true_implies]
    rw [← hfilters, ← hkeys]
    constructor
    · intro h
      have hsplit := append_inj ((append_nil _).trans h) (length_filterPlaces _ 0)
      exact ⟨hsplit.1, hsplit.2.symm⟩
    · rintro ⟨hf, hk⟩
      rw [hf, hk, append_nil]
  | count =>
    simpa [statementPieces, appendedPlaces, holes_pathPieces, holes_wherePieces] using hfilters
  | exists_ =>
    simpa [statementPieces, appendedPlaces, holes_pathPieces, holes_wherePieces] using hfilters
  | set assignment =>
    simp only [statementPieces, appendedPlaces, holes_text, holes_append, holes_pathPieces,
      holes_wherePieces, Node.holes_pieces, nil_append]
    rw [places_eq_iff, hfilters]
    constructor
    · rintro ⟨hset, hf⟩
      exact ⟨hf, fun e he => by rw [← Terminal.set.inj he]; exact hset, nofun⟩
    · rintro ⟨hf, hset, -⟩
      exact ⟨hset assignment rfl, hf⟩
  | delete =>
    rw [statementPieces, appendedPlaces]
    split
    · simpa [holes_pathPieces, holes_wherePieces] using hfilters
    · simpa [holes_pathPieces, holes_wherePieces] using hfilters

/-! ### What the code renders -/

namespace Query

variable {ft : FloatText}

/-- A query with an outline. -/
structure Outlined (ft : FloatText) (proto : Entity) (o : Outline) (q : Query) : Prop where
  proto : q.proto = proto
  wheres : q.wheres = o.filters.map Prod.fst
  lists : q.whereIns.map List.length = o.filters.map Prod.snd
  keys : q.orderParts = o.keys.map fun k => sql (keyPieces ft k)
  takeN : q.takeN = o.takeN
  skipN : q.skipN = o.skipN
  includeDeleted : q.includeDeleted = o.includeDeleted

variable {proto : Entity}

theorem Outlined.orderByTree {o : Outline} {q' : Query} {n : Node} {desc : Bool}
    (h : Outlined ft proto o q) (hq : q.orderByTree ft n desc = .ok q') :
    Outlined ft proto { o with keys := o.keys ++ [(n, desc)] } q' := by
  obtain ⟨⟨col, r⟩, hrender, hq⟩ := bind_eq_ok.mp hq
  cases hq
  have htext := (render_spec hrender).text
  have hkeys := h.keys
  have hkey : sql (keyPieces ft (n, desc)) =
      col ++ if desc = true then " DESC".toList else " ASC".toList := by
    rw [keyPieces, sql_append, htext]
    simp only [sql_cons, sql_nil, Piece.sql, append_nil]
    rfl
  refine { h with keys := ?_ }
  rw [hkeys, map_append, map_singleton, hkey]

/-- One call of a chain. -/
theorem Outlined.call {o : Outline} {q' : Query} {c : ChainCall} (h : Outlined ft proto o q)
    (hq : q.call ft c = .ok q') :
    Outlined ft proto (o.call c) q' := by
  cases c with
  | where_ p =>
    cases hq
    refine { h with wheres := ?_, lists := ?_ }
    · rw [h.wheres]
      simp [Outline.call]
    · rw [map_append, h.lists]
      simp [Outline.call]
  | whereIn p contents =>
    cases hq
    refine { h with wheres := ?_, lists := ?_ }
    · rw [h.wheres]
      simp [Outline.call]
    · rw [map_append, h.lists]
      simp [Outline.call]
  | orderBy k => exact h.orderByTree hq
  | orderByDesc k => exact h.orderByTree hq
  | thenBy k => exact h.orderByTree hq
  | thenByDesc k => exact h.orderByTree hq
  | take n =>
    cases hq
    exact { h with takeN := rfl }
  | skip n =>
    cases hq
    exact { h with skipN := rfl }
  | withDeleted =>
    cases hq
    exact { h with includeDeleted := rfl }

theorem Outlined.calls {calls : List ChainCall} :
    ∀ {o : Outline} {q q' : Query}, Outlined ft proto o q →
      calls.foldlM (Query.call ft) q = .ok q' →
      Outlined ft proto (calls.foldl Outline.call o) q' := by
  induction calls with
  | nil =>
    intro o q q' h hq
    cases hq
    exact h
  | cons c cs ih =>
    intro o q q' h hq
    rw [foldlM_cons] at hq
    obtain ⟨q₁, hcall, hq⟩ := bind_eq_ok.mp hq
    exact ih (h.call hcall) hq

/-- The query of a chain has the outline of the chain. -/
theorem outlined_chain {calls : List ChainCall} (h : chain ft proto calls = .ok q) :
    Outlined ft proto (outline calls) q :=
  Outlined.calls ⟨rfl, rfl, rfl, rfl, rfl, rfl, rfl⟩ h

/-- The value of a place of a statement. -/
def valueAt (q : Query) (t : Terminal) (now : DateTime) (pl : Place) : Option DbValue :=
  match pl.clause, t with
  | .filter i, _ =>
    match q.whereBinds[i]?, q.whereIns[i]? with
    | some binds, some inList =>
      SqlRender.valueOf { binds := binds, inList := inList, clause := .filter i } pl.source
    | _, _ => none
  | .set, .set assignment =>
    SqlRender.valueOf { binds := assignment.binds, clause := .set } pl.source
  | .tombstone, _ => some (.string (fmtDateTime now))
  | _, _ => none

end Query

/-- The value of a place needs the captured values and the list. -/
theorem SqlRender.valueOf_congr (hbinds : r'.binds = r.binds) (hlist : r'.inList = r.inList)
    (s : Source) : r'.valueOf s = r.valueOf s := by
  have hvalue : ∀ n, r'.argValue n = r.argValue n := by
    intro n
    cases n with
    | bind slot => simp only [argValue, hbinds]
    | _ => rfl
  cases s with
  | captured slot => simp only [valueOf, hbinds]
  | pattern c =>
    cases c with
    | call m recv arg => simp only [valueOf, argStr, hvalue]
    | _ => rfl
  | element c i => simp only [valueOf, hlist]
  | now => rfl

/-- Parameters appended for these places, with their values. -/
def Supplies (value : Place → Option DbValue) (ps : List Param) (places : List Place) : Prop :=
  ps.map Param.place = places ∧ ∀ p ∈ ps, value p.place = some p.value

theorem Supplies.append {value : Place → Option DbValue} {ps qs : List Param}
    {xs ys : List Place} (hp : Supplies value ps xs) (hq : Supplies value qs ys) :
    Supplies value (ps ++ qs) (xs ++ ys) := by
  refine ⟨by rw [map_append, hp.1, hq.1], ?_⟩
  intro p h
  rcases List.mem_append.mp h with h | h
  · exact hp.2 p h
  · exact hq.2 p h

/-- Parameters of one tree are parameters of the statement. -/
theorem Appends.supplies {xs : List Source} (h : Appends r r' xs) (value : Place → Option DbValue)
    (hvalue : ∀ s, value ⟨r.clause, s⟩ = r.valueOf s) :
    ∃ ps, r'.params = r.params ++ ps ∧ Supplies value ps (xs.map (Place.mk r.clause)) := by
  obtain ⟨ps, rfl, hplaces, hvalues⟩ := h
  refine ⟨ps, rfl, hplaces, fun p hp => ?_⟩
  have hclause : p.place.clause = r.clause := by
    have hmem : p.place ∈ xs.map (Place.mk r.clause) := by
      rw [← hplaces]
      exact mem_map_of_mem hp
    obtain ⟨s, -, hs⟩ := List.mem_map.mp hmem
    rw [← hs]
  have hplace : p.place = ⟨r.clause, p.place.source⟩ := by rw [← hclause]
  rw [hplace, hvalue]
  exact hvalues p hp

theorem elementAt_eq_ok {α : Type} {xs : List α} {i : Nat} {x : α} (h : elementAt xs i = .ok x) :
    xs[i]? = some x := by
  unfold elementAt at h
  split at h
  · next y hy =>
      cases h
      exact hy
  · cases h

namespace Query

variable {ft : FloatText}

/-- The loop over the predicates. -/
theorem whereParts_spec (t : Terminal) (now : DateTime) {fs : List (Node × Nat)} :
    ∀ {i : Nat} {r r' : SqlRender} {ss : List Str},
      (q.whereIns.drop i).map List.length = fs.map Prod.snd →
      q.whereParts ft i (fs.map Prod.fst) r = .ok (ss, r') →
      ss = (filterPieces ft i fs).map sql ∧
        ∃ ps, r'.params = r.params ++ ps ∧
          Supplies (q.valueAt t now) ps (filterPlaces Node.appended i fs) := by
  induction fs with
  | nil =>
    intro i r r' ss _ h
    cases h
    exact ⟨rfl, [], by rw [append_nil], rfl, nofun⟩
  | cons f fs ih =>
    intro i r r' ss hlists h
    obtain ⟨binds, hbinds, h⟩ := bind_eq_ok.mp h
    obtain ⟨hasInList, -, h⟩ := bind_eq_ok.mp h
    obtain ⟨inList, hlist, h⟩ := bind_eq_ok.mp h
    obtain ⟨⟨s, r₁⟩, hrender, h⟩ := bind_eq_ok.mp h
    obtain ⟨⟨ss', r₂⟩, hrest, h⟩ := bind_eq_ok.mp h
    cases h
    have hbinds := elementAt_eq_ok hbinds
    have hlist := elementAt_eq_ok hlist
    have hdrop : q.whereIns.drop i = inList :: q.whereIns.drop (i + 1) := by
      obtain ⟨hi, rfl⟩ := List.getElem?_eq_some_iff.mp hlist
      exact drop_eq_getElem_cons hi
    rw [hdrop, map_cons, map_cons] at hlists
    obtain ⟨hcount, hlists⟩ := List.cons.inj hlists
    obtain ⟨htext, happends⟩ := render_spec hrender
    dsimp only at htext happends
    rw [hcount] at htext happends
    have hvalue : ∀ s, q.valueAt t now ⟨.filter i, s⟩ = SqlRender.valueOf
        { r with binds := binds, hasInList := hasInList, inList := inList, clause := .filter i }
        s := by
      intro s
      simp only [valueAt, hbinds, hlist]
      exact SqlRender.valueOf_congr rfl rfl s
    obtain ⟨ps, hparams, hsupplies⟩ := happends.supplies (q.valueAt t now) hvalue
    obtain ⟨hss, qs, hparams', hsupplies'⟩ := ih hlists hrest
    refine ⟨?_, ps ++ qs, ?_, hsupplies.append hsupplies'⟩
    · rw [htext, hss, filterPieces, map_cons]
    · rw [hparams', hparams, append_assoc]

/-- The loop that writes the parts of a conjunction. -/
theorem foldl_and (sep : Str) (parts : List Str) (start : Str) :
    parts.foldl (fun s p => s ++ sep ++ p) start = start ++ parts.flatMap (sep ++ ·) := by
  induction parts generalizing start with
  | nil => simp
  | cons p parts ih => rw [foldl_cons, ih, flatMap_cons, append_assoc,
      append_assoc, append_assoc]

/-- The parts of a conjunction, with the separator between them. -/
theorem intercalate_cons_eq (sep part : Str) (parts : List Str) :
    List.intercalate sep (part :: parts) = part ++ parts.flatMap (sep ++ ·) := by
  induction parts generalizing part with
  | nil => simp
  | cons p parts ih => simp [ih]

variable {proto : Entity} {o : Outline}

/-- The `WHERE` clause. -/
theorem whereSql_spec (t : Terminal) (now : DateTime) {w : Str} (ho : Outlined ft proto o q)
    (h : q.whereSql ft r = .ok (w, r')) :
    w = sql (wherePieces ft proto o) ∧ ∃ ps, r'.params = r.params ++ ps ∧
      Supplies (q.valueAt t now) ps (filterPlaces Node.appended 0 o.filters) := by
  obtain ⟨⟨parts, r₁⟩, hparts, h⟩ := bind_eq_ok.mp h
  rw [ho.wheres] at hparts
  obtain ⟨hparts, hparams⟩ := whereParts_spec t now
    (by rw [drop_zero, ho.lists]) hparts
  have hall : (if (q.proto.cls.softDelete && !q.includeDeleted) = true then
      parts ++ ["(".toList ++ qcol "deletedAt".toList ++ " IS NULL)".toList] else parts) =
      (filterPieces ft 0 o.filters ++ tombstoneTest proto o).map sql := by
    rw [map_append, ← hparts, tombstoneTest, ho.proto, ho.includeDeleted]
    split
    · rw [qcol_eq]
      simp only [map_cons, map_nil, sql_cons, sql_nil, Piece.sql, append_assoc,
        append_nil]
    · simp
  dsimp only at h
  rw [hall] at h
  rw [wherePieces]
  split at h
  · next hnil =>
      cases h
      rw [List.map_eq_nil_iff.mp hnil]
      exact ⟨rfl, hparams⟩
  · next p ps hcons =>
      cases h
      refine ⟨?_, hparams⟩
      rw [foldl_and, append_assoc, ← intercalate_cons_eq, ← hcons, ← sql_joined]
      split
      · next hnil => rw [hnil] at hcons; cases hcons
      · rfl

theorem qpath_eq (segs : List Str) :
    qpath segs = sql (joined ".".toList (segs.map fun s => [(.name s : Piece Place)])) := by
  rw [sql_joined, map_map, qpath]
  refine congrArg _ (map_congr_left fun s _ => ?_)
  rw [qcol_eq]
  simp

theorem colsSql_eq (ho : Outlined ft proto o q) : q.colsSql = sql (colPieces proto) := by
  rw [colsSql, colPieces, sql_joined, map_map, ho.proto]
  refine congrArg _ (map_congr_left fun s _ => ?_)
  rw [qcol_eq]
  simp

theorem tailSql_eq (ho : Outlined ft proto o q) :
    q.tailSql = sql (orderPieces ft o) ++ sql (boundPieces o) := by
  have horder : (if q.orderParts.length > 0 then
      " ORDER BY ".toList ++ List.intercalate ", ".toList q.orderParts else []) =
      sql (orderPieces ft o) := by
    rw [orderPieces, ho.keys, length_map]
    split
    · rw [sql_cons, sql_joined, map_map]
      rfl
    · rfl
  rw [tailSql]
  dsimp only
  rw [horder, ho.takeN, ho.skipN, boundPieces]
  split
  · split
    · simp only [sql_cons, sql_nil, Piece.sql, append_assoc, append_nil]
    · simp only [sql_cons, sql_nil, Piece.sql, append_assoc, append_nil]
  · split
    · simp only [sql_cons, sql_nil, Piece.sql, append_assoc, append_nil]
    · simp

/-- **The statement.**  Its text is the text of its pieces, and its parameters are supplied in
the order of the code. -/
theorem statement_spec {now : DateTime} {params : List Param} (ho : Outlined ft proto o q)
    (h : q.statement ft now t = .ok (s, params)) :
    s = sql (statementPieces ft proto o t) ∧
      Supplies (q.valueAt t now) params (appendedPlaces proto o t) := by
  have hpath : qpath q.proto.cls.ormPath = sql (pathPieces proto) := by
    rw [ho.proto, qpath_eq, pathPieces]
  cases t with
  | select =>
    obtain ⟨⟨w, r⟩, hw, h⟩ := bind_eq_ok.mp h
    obtain ⟨htext, ps, hparams, hsupplies⟩ := whereSql_spec .select now ho hw
    cases h
    refine ⟨?_, by rw [hparams]; exact hsupplies⟩
    rw [htext, tailSql_eq ho, colsSql_eq ho, hpath, statementPieces]
    simp only [sql_cons, sql_append, Piece.sql, append_assoc]
  | count =>
    obtain ⟨⟨w, r⟩, hw, h⟩ := bind_eq_ok.mp h
    obtain ⟨htext, ps, hparams, hsupplies⟩ := whereSql_spec .count now ho hw
    cases h
    refine ⟨?_, by rw [hparams]; exact hsupplies⟩
    rw [htext, hpath, statementPieces]
    simp only [sql_cons, sql_append, Piece.sql, append_assoc]
  | exists_ =>
    obtain ⟨⟨w, r⟩, hw, h⟩ := bind_eq_ok.mp h
    obtain ⟨htext, ps, hparams, hsupplies⟩ := whereSql_spec .exists_ now ho hw
    cases h
    refine ⟨?_, by rw [hparams]; exact hsupplies⟩
    rw [htext, hpath, statementPieces]
    simp only [sql_cons, sql_append, sql_nil, Piece.sql, append_assoc, append_nil]
  | set assignment =>
    obtain ⟨⟨set, r₀⟩, hset, h⟩ := bind_eq_ok.mp h
    obtain ⟨⟨w, r⟩, hw, h⟩ := bind_eq_ok.mp h
    obtain ⟨htext, ps, hparams, hsupplies⟩ :=
      whereSql_spec (.set assignment) now ho hw
    obtain ⟨htext', happends⟩ := render_spec hset
    obtain ⟨qs, hparams', hsupplies'⟩ := happends.supplies
      (q.valueAt (.set assignment) now) fun s => rfl
    cases h
    refine ⟨?_, ?_⟩
    · rw [htext, htext', hpath, statementPieces]
      simp only [sql_cons, sql_append, Piece.sql, append_assoc]
      rfl
    · rw [hparams', hparams]
      exact hsupplies'.append hsupplies
  | delete =>
    unfold statement deleteSql at h
    dsimp only at h
    rw [ho.proto] at h
    rw [ho.proto] at hpath
    rw [statementPieces, appendedPlaces]
    split at h
    · next hsoft =>
        obtain ⟨⟨w, r⟩, hw, h⟩ := bind_eq_ok.mp h
        obtain ⟨htext, ps, hparams, hsupplies⟩ := whereSql_spec .delete now ho hw
        cases h
        rw [if_pos hsoft, if_pos hsoft]
        refine ⟨?_, ?_⟩
        · rw [htext, hpath, qcol_eq]
          simp [Piece.sql]
        · have hnow : Supplies (q.valueAt .delete now)
              [⟨.string (fmtDateTime now), ⟨.tombstone, .now⟩⟩] [⟨.tombstone, .now⟩] := by
            refine ⟨rfl, fun p hp => ?_⟩
            obtain rfl := List.mem_singleton.mp hp
            rfl
          rw [hparams]
          exact hnow.append hsupplies
    · next hhard =>
        obtain ⟨⟨w, r⟩, hw, h⟩ := bind_eq_ok.mp h
        obtain ⟨htext, ps, hparams, hsupplies⟩ := whereSql_spec .delete now ho hw
        cases h
        rw [if_neg hhard, if_neg hhard]
        refine ⟨?_, by rw [hparams]; exact hsupplies⟩
        rw [htext, hpath]
        simp only [sql_cons, sql_append, Piece.sql, append_assoc]

/-- A rendered statement whose placeholders and parameters are in step. -/
structure InStep (ft : FloatText) (proto : Entity) (calls : List ChainCall) (t : Terminal)
    (now : DateTime) (s : Str) (params : List Param) : Prop where
  /-- Every literal, name and placeholder is read back as it was written. -/
  reads : read .plain s = some (tokens (statementPieces ft proto (outline calls) t))
  /-- There are as many placeholders outside of quotes as parameters. -/
  count : ∃ ts, read .plain s = some ts ∧ placeholders ts = params.length
  /-- The parameters stand for what the placeholders stand for, in their order. -/
  places : params.map Param.place = holes (statementPieces ft proto (outline calls) t)
  /-- Every parameter has the value of its place. -/
  values : ∃ q, chain ft proto calls = .ok q ∧
    ∀ p ∈ params, q.valueAt t now p.place = some p.value
  /-- Other captured values give the same text. -/
  blind : ∀ calls' t' now' s' params', outline calls' = outline calls →
    (∀ e, t = .set e → ∃ e', t' = .set e' ∧ e'.tree = e.tree) →
    ((∀ e, t ≠ .set e) → t' = t) →
    execute ft proto calls' t' now' = .ok (s', params') → s' = s

/-- Terminals with the same tree write the same pieces. -/
theorem statementPieces_congr (proto : Entity) (o : Outline) {t' : Terminal}
    (hset : ∀ e, t = .set e → ∃ e', t' = .set e' ∧ e'.tree = e.tree)
    (hother : (∀ e, t ≠ .set e) → t' = t) :
    statementPieces ft proto o t' = statementPieces ft proto o t := by
  cases t with
  | set e =>
    obtain ⟨e', rfl, htree⟩ := hset e rfl
    rw [statementPieces, statementPieces, htree]
  | _ => rw [hother nofun]

/-- What a chain and its terminal give. -/
theorem execute_spec {calls : List ChainCall} {now : DateTime} {params : List Param}
    (h : execute ft proto calls t now = .ok (s, params)) :
    ∃ q, chain ft proto calls = .ok q ∧ s = sql (statementPieces ft proto (outline calls) t) ∧
      Supplies (q.valueAt t now) params (appendedPlaces proto (outline calls) t) := by
  obtain ⟨q, hchain, hstatement⟩ := bind_eq_ok.mp h
  exact ⟨q, hchain, statement_spec (outlined_chain hchain) hstatement⟩

/-- **Placeholders and parameters.**  A rendered statement is in step exactly when its trees
are straight, no order key that is written has a placeholder, and no name has a backtick. -/
theorem inStep_iff {proto : Entity} {calls : List ChainCall} {t : Terminal} {now : DateTime}
    {s : Str} {params : List Param} (h : execute ft proto calls t now = .ok (s, params)) :
    InStep ft proto calls t now s params ↔ (outline calls).Orderly ft proto t := by
  obtain ⟨q, hchain, htext, hplaces, hvalues⟩ := execute_spec h
  have hread := read_sql_iff (formed_statementPieces ft proto (outline calls) t)
  have horder := appendedPlaces_eq_iff ft proto (outline calls) t
  rw [← htext] at hread
  constructor
  · intro hstep
    obtain ⟨hfilters, hset, hkeys⟩ := horder.mp (hplaces.symm.trans hstep.places)
    exact ⟨hfilters, hset, hkeys, hread.mp hstep.reads⟩
  · intro ho
    have hreads := hread.mpr ho.names
    have hstep := hplaces.trans (horder.mpr ⟨ho.filters, ho.assignment, ho.keys⟩)
    refine ⟨hreads, ⟨_, hreads, ?_⟩, hstep, ⟨q, hchain, hvalues⟩, ?_⟩
    · rw [placeholders_tokens, ← hstep, length_map]
    · intro calls' t' now' s' params' houtline hset hother h'
      obtain ⟨-, -, htext', -⟩ := execute_spec h'
      rw [htext', htext, houtline, statementPieces_congr proto _ hset hother]

end Query

/-! ### Two predicates -/

/-- A way to write floats. -/
def zeroFloat : FloatText where
  text := fun _ => "0.0".toList
  nonempty := by simp
  bare := by simp [Bare, opens]

/-- A table with one column. -/
def people : Entity where
  cls := { ormPath := ["people".toList], ormPk := "id".toList, ormAutoPk := true,
           ormCols := ["name".toList], timestamps := false, softDelete := false }
  pk := 0
  field := fun _ => .none

/-- `(u) => u.name.startsWith(prefix)`. -/
def named : Expr := ⟨.call .startsWith (.field ["name".toList]) (.bind 0), [.string "a".toList]⟩

/-- `(u) => word.startsWith(prefix)`. -/
def captured : Expr :=
  ⟨.call .startsWith (.bind 0) (.bind 1), [.string "ann".toList, .string "a".toList]⟩

namespace Query

/-- A pattern on a column is in step. -/
theorem inStep_named : InStep zeroFloat people [.where_ named] .count ⟨0⟩
    "SELECT COUNT(*) AS c FROM `people` WHERE (`name` LIKE BINARY ?)".toList
    [⟨.string "a%".toList, ⟨.filter 0, .pattern named.tree⟩⟩] := by
  refine (inStep_iff rfl).mpr ⟨?_, nofun, nofun, ?_⟩
  · intro f hf
    obtain rfl := List.mem_singleton.mp hf
    exact rfl
  · intro n hn
    have hn : n ∈ ["people".toList, "name".toList] := hn
    revert n
    decide

/-- A pattern on a captured word: the pattern is appended before the word, and its placeholder
stands behind it. -/
theorem captured_not_inStep :
    execute zeroFloat people [.where_ captured] .count ⟨0⟩ =
        .ok ("SELECT COUNT(*) AS c FROM `people` WHERE (? LIKE BINARY ?)".toList,
          [⟨.string "a%".toList, ⟨.filter 0, .pattern captured.tree⟩⟩,
            ⟨.string "ann".toList, ⟨.filter 0, .captured 0⟩⟩]) ∧
      ¬InStep zeroFloat people [.where_ captured] .count ⟨0⟩
        "SELECT COUNT(*) AS c FROM `people` WHERE (? LIKE BINARY ?)".toList
        [⟨.string "a%".toList, ⟨.filter 0, .pattern captured.tree⟩⟩,
          ⟨.string "ann".toList, ⟨.filter 0, .captured 0⟩⟩] := by
  refine ⟨rfl, fun h => ?_⟩
  have hfirst := (List.cons.inj h.places).1
  cases hfirst

end Query

end Leviathan.Orm
