import Leviathan.Orm.Query

/-!
# The pieces of a rendered tree

What a tree is rendered to, as a list of pieces whose placeholders carry their places, and the
order in which the renderer appends the parameters.  `render_spec` connects both to the code:
the text is the text of the pieces, and the parameters are appended in that order, each with the
value its place has.

The two orders differ where a parameter is appended before the text in front of its placeholder
is rendered: the pattern of a call before the receiver, and the list before what is looked up in
it.  `appended_eq_holes_iff` says when this shows.
-/

namespace Leviathan.Orm

open SqlText List

/-! ### Bare texts -/

theorem bare_append {s t : Str} (hs : Bare s) (ht : Bare t) : Bare (s ++ t) := by
  intro c hc
  rcases List.mem_append.mp hc with hc | hc
  · exact hs c hc
  · exact ht c hc

/-- A digit opens no quote. -/
theorem bare_of_isDigit {s : Str} (h : ∀ c ∈ s, c.isDigit = true) : Bare s := by
  intro c hc
  have hdigit := h c hc
  refine ⟨?_, ?_⟩
  · unfold opens
    split
    · next he => subst he; exact absurd hdigit (by decide)
    · split
      · next he => subst he; exact absurd hdigit (by decide)
      · split
        · next he => subst he; exact absurd hdigit (by decide)
        · rfl
  · rintro rfl
    exact absurd hdigit (by decide)

/-- A printed number is bare. -/
theorem bare_decimal (n : Int) : Bare (Text.decimal n) := by
  cases n with
  | ofNat n => exact bare_of_isDigit fun c hc => Text.isDigit_of_mem_toDigits hc
  | negSucc n =>
    have hdigits : Bare (Nat.toDigits 10 (n + 1)) :=
      bare_of_isDigit fun c hc => Text.isDigit_of_mem_toDigits hc
    have hsign : Bare ['-'] := by simp [Bare, opens]
    exact bare_append hsign hdigits

theorem sqlQuote_eq (s : Str) : sqlQuote s = (Piece.string s : Piece Place).sql := by
  have hchar : (fun ch => if ch = '\'' then "''".toList else if ch = '\\' then "\\\\".toList
      else [ch]) = writeChar := rfl
  rw [sqlQuote, hchar]
  rfl

theorem qcol_eq (s : Str) : qcol s = (Piece.name s : Piece Place).sql := by
  simp [qcol, Piece.sql]

/-! ### Pieces, and the two orders -/

namespace Node

/-- The list elements of a call. -/
def elements (call : Node) (count : Nat) : List Source :=
  (List.range count).map (Source.element call)

/-- What the placeholders of a tree stand for, from left to right; `count` is the length of the
list that is passed alongside. -/
def holes (count : Nat) : Node → List Source
  | field _ => []
  | lit _ => []
  | bind slot => [.captured slot]
  | bin op a b =>
    if (op = .eq ∨ op = .ne) ∧ SqlRender.isNoneLit b = true then a.holes count
    else if (op = .eq ∨ op = .ne) ∧ SqlRender.isNoneLit a = true then b.holes count
    else a.holes count ++ b.holes count
  | un _ e => e.holes count
  | call m recv arg =>
    if m = .like ∨ m = .ilike then recv.holes count ++ arg.holes count
    else if m = .contains ∧ recv.isBind = true then
      if count = 0 then [] else arg.holes count ++ elements (call m recv arg) count
    else recv.holes count ++ [.pattern (call m recv arg)]
  | assign _ value => value.holes count

/-- What the parameters are appended for, in the order of the renderer. -/
def appended (count : Nat) : Node → List Source
  | field _ => []
  | lit _ => []
  | bind slot => [.captured slot]
  | bin op a b =>
    if (op = .eq ∨ op = .ne) ∧ SqlRender.isNoneLit b = true then a.appended count
    else if (op = .eq ∨ op = .ne) ∧ SqlRender.isNoneLit a = true then b.appended count
    else a.appended count ++ b.appended count
  | un _ e => e.appended count
  | call m recv arg =>
    if m = .like ∨ m = .ilike then recv.appended count ++ arg.appended count
    else if m = .contains ∧ recv.isBind = true then
      if count = 0 then [] else elements (call m recv arg) count ++ arg.appended count
    else .pattern (call m recv arg) :: recv.appended count
  | assign _ value => value.appended count

/-- No pattern call has a placeholder in its receiver, and no list test with elements has one in
what it looks up. -/
def Straight (count : Nat) : Node → Prop
  | field _ => True
  | lit _ => True
  | bind _ => True
  | bin op a b =>
    if (op = .eq ∨ op = .ne) ∧ SqlRender.isNoneLit b = true then a.Straight count
    else if (op = .eq ∨ op = .ne) ∧ SqlRender.isNoneLit a = true then b.Straight count
    else a.Straight count ∧ b.Straight count
  | un _ e => e.Straight count
  | call m recv arg =>
    if m = .like ∨ m = .ilike then recv.Straight count ∧ arg.Straight count
    else if m = .contains ∧ recv.isBind = true then count = 0 ∨ arg.holes count = []
    else recv.holes count = []
  | assign _ value => value.Straight count

section Pieces

variable (ft : FloatText) (clause : Clause) (count : Nat)

/-- A literal. -/
def litPieces (v : DbValue) : List (Piece Place) :=
  match v with
  | .string s => [.string s]
  | v => [.text (SqlRender.lit ft v)]

/-- The pieces of a tree. -/
def pieces : Node → List (Piece Place)
  | field path =>
    match path with
    | [c] => [.name c]
    | _ => []
  | lit v => litPieces ft v
  | bind slot => [.hole ⟨clause, .captured slot⟩]
  | bin op a b =>
    if (op = .eq ∨ op = .ne) ∧ SqlRender.isNoneLit b = true then
      .text "(".toList :: (a.pieces ++
        [.text (if op = .eq then " IS NULL)".toList else " IS NOT NULL)".toList)])
    else if (op = .eq ∨ op = .ne) ∧ SqlRender.isNoneLit a = true then
      .text "(".toList :: (b.pieces ++
        [.text (if op = .eq then " IS NULL)".toList else " IS NOT NULL)".toList)])
    else
      .text "(".toList :: (a.pieces ++ .text (" ".toList ++ sqlOp op ++ " ".toList) ::
        (b.pieces ++ [.text ")".toList]))
  | un op e =>
    .text (if op = .not then "(NOT ".toList else "(-".toList) :: (e.pieces ++ [.text ")".toList])
  | call m recv arg =>
    if m = .like then
      .text "(".toList :: (recv.pieces ++ .text " LIKE BINARY ".toList ::
        (arg.pieces ++ [.text ")".toList]))
    else if m = .ilike then
      .text "(LOWER(".toList :: (recv.pieces ++ .text ") LIKE LOWER(".toList ::
        (arg.pieces ++ [.text "))".toList]))
    else if m = .contains ∧ recv.isBind = true then
      if count = 0 then [.text "(1 = 0)".toList]
      else
        .text "(".toList :: (arg.pieces ++ .text " IN (".toList ::
          (joined ",".toList ((elements (call m recv arg) count).map fun s =>
            [.hole ⟨clause, s⟩]) ++ [.text "))".toList]))
    else
      .text "(".toList :: (recv.pieces ++ [.text " LIKE BINARY ".toList,
        .hole ⟨clause, .pattern (call m recv arg)⟩, .text ")".toList])
  | assign target value =>
    match target with
    | [c] => .name c :: .text " = ".toList :: value.pieces
    | _ => value.pieces

end Pieces

/-! ### The placeholders of the pieces -/

/-- The pieces hold the placeholders of the tree. -/
theorem holes_pieces (ft : FloatText) (clause : Clause) (count : Nat) (n : Node) :
    SqlText.holes (n.pieces ft clause count) = (n.holes count).map (Place.mk clause) := by
  induction n with
  | field path =>
    unfold pieces Node.holes
    split <;> rfl
  | lit v => cases v <;> rfl
  | bind slot => rfl
  | bin op a b iha ihb =>
    unfold pieces Node.holes
    split
    · simp only [holes_text, holes_append, holes_nil, append_nil, iha]
    · split
      · simp only [holes_text, holes_append, holes_nil, append_nil, ihb]
      · simp only [holes_text, holes_append, holes_nil, append_nil, map_append, iha, ihb]
  | un op e ih =>
    simp only [pieces, Node.holes, holes_text, holes_append, holes_nil, append_nil, ih]
  | call m recv arg ihr iha =>
    unfold pieces Node.holes
    by_cases hlike : m = .like
    · simp only [hlike, if_true, true_or, holes_text, holes_append, holes_nil, append_nil,
        map_append, ihr, iha]
    · by_cases hilike : m = .ilike
      · subst hilike
        simp only [reduceCtorEq, if_true, if_false, or_true, holes_text, holes_append, holes_nil,
          append_nil, map_append, ihr, iha]
      · simp only [hlike, hilike, or_self, if_false]
        split
        · split
          · rfl
          · simp only [holes_text, holes_append, holes_joined, iha, map_append,
              append_cancel_left_eq, holes_nil, append_nil]
            rw [flatMap_map, map_eq_flatMap]
            rfl
        · simp only [holes_text, holes_append, holes_hole, holes_nil, map_append, ihr]
          rfl
  | assign target value ih =>
    unfold pieces Node.holes
    split
    · simp [ih]
    · exact ih

/-! ### The pieces keep apart what is quoted -/

theorem bare_sqlOp (op : BinOp) : Bare (" ".toList ++ sqlOp op ++ " ".toList) := by
  cases op <;> simp [Bare, opens, sqlOp, BinOp.symbol]

theorem formed_litPieces (ft : FloatText) (v : DbValue) : Formed (litPieces ft v) := by
  cases v with
  | string s => exact formed_string s
  | int n => exact formed_nil.text (Text.decimal_ne_nil n) (bare_decimal n)
  | float x => exact formed_nil.text (ft.nonempty x) (ft.bare x)
  | bool b =>
    cases b <;>
      exact formed_nil.text (by simp [SqlRender.lit]) (by simp [SqlRender.lit, Bare, opens])
  | none => exact formed_nil.text (by simp [SqlRender.lit]) (by simp [SqlRender.lit, Bare, opens])

theorem formed_pieces (ft : FloatText) (clause : Clause) (count : Nat) (n : Node) :
    Formed (n.pieces ft clause count) := by
  induction n with
  | field path =>
    unfold pieces
    split
    · exact formed_name _
    · exact formed_nil
  | lit v => exact formed_litPieces ft v
  | bind slot => exact formed_hole _
  | bin op a b iha ihb =>
    have hopen : "(".toList ≠ [] ∧ Bare "(".toList := by simp [Bare, opens]
    have hnull : (if op = .eq then " IS NULL)".toList else " IS NOT NULL)".toList) ≠ [] ∧
        Bare (if op = .eq then " IS NULL)".toList else " IS NOT NULL)".toList) := by
      split <;> simp [Bare, opens]
    unfold pieces
    split
    · exact iha.enclosed hopen hnull
    · split
      · exact ihb.enclosed hopen hnull
      · have hb := ihb.between (s := ")".toList) (by simp) (by simp [Bare, opens]) formed_nil
        exact (iha.between (by simp) (bare_sqlOp op) hb).text hopen.1 hopen.2
  | un op e ih =>
    refine ih.enclosed ?_ (by simp [Bare, opens])
    split <;> simp [Bare, opens]
  | call m recv arg ihr iha =>
    have hopen : "(".toList ≠ [] ∧ Bare "(".toList := by simp [Bare, opens]
    have hlike : " LIKE BINARY ".toList ≠ [] ∧ Bare " LIKE BINARY ".toList := by
      simp [Bare, opens]
    have hclose : ")".toList ≠ [] ∧ Bare ")".toList := by simp [Bare, opens]
    have hclose2 : "))".toList ≠ [] ∧ Bare "))".toList := by simp [Bare, opens]
    unfold pieces
    split
    · have harg := iha.between hclose.1 hclose.2 formed_nil
      exact (ihr.between hlike.1 hlike.2 harg).text hopen.1 hopen.2
    · split
      · have harg := iha.between hclose2.1 hclose2.2 formed_nil
        exact (ihr.between (s := ") LIKE LOWER(".toList) (by simp) (by simp [Bare, opens])
          harg).text (by simp) (by simp [Bare, opens])
      · split
        · split
          · exact formed_nil.text (by simp) (by simp [Bare, opens])
          · have hlist : Formed (joined ",".toList ((elements (call m recv arg) count).map
                fun s => [(.hole ⟨clause, s⟩ : Piece Place)])) := by
              refine formed_joined (by simp) (by simp [Bare, opens]) fun ps hps => ?_
              obtain ⟨s, -, rfl⟩ := List.mem_map.mp hps
              exact formed_hole _
            have htail := hlist.between hclose2.1 hclose2.2 formed_nil
            exact (iha.between (s := " IN (".toList) (by simp) (by simp [Bare, opens])
              htail).text hopen.1 hopen.2
        · have hhole := (formed_hole (⟨clause, .pattern (call m recv arg)⟩ : Place)).between
            hclose.1 hclose.2 formed_nil
          exact (ihr.between hlike.1 hlike.2 hhole).text hopen.1 hopen.2
  | assign target value ih =>
    unfold pieces
    split
    · exact (formed_name _).between (by simp) (by simp [Bare, opens]) ih
    · exact ih

/-! ### Where the two orders differ -/

theorem length_elements (call : Node) (count : Nat) : (elements call count).length = count := by
  simp [elements]

/-- Both orders have the same number of places. -/
theorem length_appended (count : Nat) (n : Node) :
    (n.appended count).length = (n.holes count).length := by
  induction n with
  | field path => rfl
  | lit v => rfl
  | bind slot => rfl
  | bin op a b iha ihb =>
    unfold appended holes
    split
    · exact iha
    · split
      · exact ihb
      · rw [length_append, length_append, iha, ihb]
  | un op e ih => exact ih
  | call m recv arg ihr iha =>
    unfold appended holes
    split
    · rw [length_append, length_append, ihr, iha]
    · split
      · split
        · rfl
        · rw [length_append, length_append, iha, Nat.add_comm]
      · rw [length_cons, length_append, ihr]
        rfl
  | assign target value ih => exact ih

end Node

/-- The call that a pattern or a list element belongs to. -/
def Source.call? : Source → Option Node
  | .pattern c => some c
  | .element c _ => some c
  | _ => none

namespace Node

/-- The calls that a tree's placeholders belong to are parts of the tree. -/
theorem sizeOf_of_mem_holes {count : Nat} {n c : Node} {s : Source} (hs : s ∈ n.holes count)
    (hc : s.call? = some c) : sizeOf c ≤ sizeOf n := by
  induction n with
  | field path => cases hs
  | lit v => cases hs
  | bind slot =>
    obtain rfl := List.mem_singleton.mp hs
    cases hc
  | bin op a b iha ihb =>
    have hsize : sizeOf a ≤ sizeOf (bin op a b) ∧ sizeOf b ≤ sizeOf (bin op a b) := by
      rw [bin.sizeOf_spec]
      omega
    unfold holes at hs
    split at hs
    · exact (iha hs).trans hsize.1
    · split at hs
      · exact (ihb hs).trans hsize.2
      · rcases List.mem_append.mp hs with hs | hs
        · exact (iha hs).trans hsize.1
        · exact (ihb hs).trans hsize.2
  | un op e ih =>
    have hsize : sizeOf e ≤ sizeOf (un op e) := by
      rw [un.sizeOf_spec]
      omega
    exact (ih hs).trans hsize
  | call m recv arg ihr iha =>
    have hsize : sizeOf recv ≤ sizeOf (call m recv arg) ∧
        sizeOf arg ≤ sizeOf (call m recv arg) := by
      rw [call.sizeOf_spec]
      omega
    unfold holes at hs
    split at hs
    · rcases List.mem_append.mp hs with hs | hs
      · exact (ihr hs).trans hsize.1
      · exact (iha hs).trans hsize.2
    · split at hs
      · split at hs
        · cases hs
        · rcases List.mem_append.mp hs with hs | hs
          · exact (iha hs).trans hsize.2
          · obtain ⟨i, -, rfl⟩ := List.mem_map.mp hs
            cases hc
            exact le_rfl
      · rcases List.mem_append.mp hs with hs | hs
        · exact (ihr hs).trans hsize.1
        · obtain rfl := List.mem_singleton.mp hs
          cases hc
          exact le_rfl
  | assign target value ih =>
    have hsize : sizeOf value ≤ sizeOf (assign target value) := by
      rw [assign.sizeOf_spec]
      omega
    exact (ih hs).trans hsize

/-- What is put in front, and what comes after it in the text, agree only if nothing comes
before it there. -/
theorem front_eq_iff {x : Source} (xs : List Source) {as hs : List Source} (hx : x ∉ hs)
    (hlength : as.length = hs.length) : x :: xs ++ as = hs ++ x :: xs ↔ hs = [] := by
  constructor
  · intro h
    cases hs with
    | nil => rfl
    | cons y ys =>
      obtain ⟨rfl, -⟩ := List.cons.inj h
      exact absurd mem_cons_self hx
  · rintro rfl
    rw [List.length_eq_zero_iff.mp hlength, append_nil, nil_append]

/-- **Order.**  The parameters of a tree are appended in the order of its placeholders if and
only if no pattern call has a placeholder in its receiver, and no list test in what it looks
up. -/
theorem appended_eq_holes_iff {count : Nat} {n : Node} :
    n.appended count = n.holes count ↔ n.Straight count := by
  have hpair : ∀ {a b : Node}, (a.appended count = a.holes count ↔ a.Straight count) →
      (b.appended count = b.holes count ↔ b.Straight count) →
      (a.appended count ++ b.appended count = a.holes count ++ b.holes count ↔
        a.Straight count ∧ b.Straight count) := by
    intro a b iha ihb
    rw [← iha, ← ihb]
    exact ⟨fun h => append_inj h (length_appended count a), fun h => by rw [h.1, h.2]⟩
  induction n with
  | field path => exact ⟨fun _ => trivial, fun _ => rfl⟩
  | lit v => exact ⟨fun _ => trivial, fun _ => rfl⟩
  | bind slot => exact ⟨fun _ => trivial, fun _ => rfl⟩
  | bin op a b iha ihb =>
    unfold appended holes Straight
    split
    · exact iha
    · split
      · exact ihb
      · exact hpair iha ihb
  | un op e ih => exact ih
  | call m recv arg ihr iha =>
    have hrecv : sizeOf recv < sizeOf (call m recv arg) := by
      rw [call.sizeOf_spec]
      omega
    have harg : sizeOf arg < sizeOf (call m recv arg) := by
      rw [call.sizeOf_spec]
      omega
    unfold appended holes Straight
    split
    · exact hpair ihr iha
    · split
      · split
        · next hcount => exact ⟨fun _ => .inl hcount, fun _ => rfl⟩
        · next hcount =>
            have hnew : Source.element (call m recv arg) 0 ∉ arg.holes count := fun h =>
              absurd (sizeOf_of_mem_holes h rfl) (Nat.not_le.mpr harg)
            obtain ⟨k, rfl⟩ := Nat.exists_eq_succ_of_ne_zero hcount
            have hsplit : elements (call m recv arg) (k + 1) = .element (call m recv arg) 0 ::
                (List.range k).map fun i => .element (call m recv arg) (i + 1) := by
              unfold elements
              rw [range_succ_eq_map, map_cons, map_map]
              rfl
            rw [Nat.succ_eq_add_one, hsplit, front_eq_iff _ hnew (length_appended _ arg)]
            exact ⟨.inr, fun h => h.resolve_left (Nat.succ_ne_zero k)⟩
      · have hnew : Source.pattern (call m recv arg) ∉ recv.holes count := fun h =>
          absurd (sizeOf_of_mem_holes h rfl) (Nat.not_le.mpr hrecv)
        exact front_eq_iff [] hnew (length_appended count recv)
  | assign target value ih => exact ih

end Node

/-! ### The renderer -/

/-- The value of a place. -/
def SqlRender.valueOf (r : SqlRender) : Source → Option DbValue
  | .captured slot => r.binds[slot]?
  | .pattern (.call m _ arg) =>
    match r.argStr arg m.name with
    | .ok v => some (.string (pattern m v))
    | .error _ => none
  | .pattern _ => none
  | .element _ i => r.inList[i]?
  | .now => none

/-- A part of the renderer that appends parameters, for these places and with their values, and
leaves the rest of its state. -/
def Appends (r r' : SqlRender) (sources : List Source) : Prop :=
  ∃ ps : List Param, r' = { r with params := r.params ++ ps } ∧
    ps.map Param.place = sources.map (Place.mk r.clause) ∧
    ∀ p ∈ ps, r.valueOf p.place.source = some p.value

theorem Appends.refl (r : SqlRender) : Appends r r [] := by
  refine ⟨[], ?_, rfl, nofun⟩
  rw [append_nil]

theorem Appends.trans {r r₁ r₂ : SqlRender} {xs ys : List Source} (h₁ : Appends r r₁ xs)
    (h₂ : Appends r₁ r₂ ys) : Appends r r₂ (xs ++ ys) := by
  obtain ⟨ps, rfl, hplaces, hvalues⟩ := h₁
  obtain ⟨qs, rfl, hplaces', hvalues'⟩ := h₂
  refine ⟨ps ++ qs, by rw [append_assoc], ?_, ?_⟩
  · rw [map_append, map_append, hplaces, hplaces']
  · intro p hp
    rcases List.mem_append.mp hp with hp | hp
    · exact hvalues p hp
    · exact hvalues' p hp

theorem Appends.inList {r r' : SqlRender} {xs : List Source} (h : Appends r r' xs) :
    r'.inList = r.inList ∧ r'.clause = r.clause := by
  obtain ⟨ps, rfl, -, -⟩ := h
  exact ⟨rfl, rfl⟩

theorem appends_push {r : SqlRender} {v : DbValue} {s : Source} (h : r.valueOf s = some v) :
    Appends r (r.push v s) [s] := by
  refine ⟨[⟨v, ⟨r.clause, s⟩⟩], rfl, rfl, ?_⟩
  intro p hp
  obtain rfl := List.mem_singleton.mp hp
  exact h

/-- The loop over the list. -/
theorem appends_pushAll (call : Node) {vs : List DbValue} :
    ∀ {r : SqlRender} {i : Nat}, r.inList.drop i = vs →
      Appends r (r.pushAll call vs i)
        ((List.range vs.length).map fun k => Source.element call (i + k)) := by
  induction vs with
  | nil => exact fun _ => Appends.refl _
  | cons v vs ih =>
    intro r i h
    have hvalue : r.valueOf (.element call i) = some v := by
      have hget : (r.inList.drop i)[0]? = some v := by rw [h]; rfl
      simpa [SqlRender.valueOf] using hget
    have hrest : (r.push v (.element call i)).inList.drop (i + 1) = vs := by
      rw [show (r.push v (.element call i)).inList = r.inList from rfl, ← drop_drop, h]
      rfl
    have hall := (appends_push hvalue).trans (ih hrest)
    have hlist : (List.range (v :: vs).length).map (fun k => Source.element call (i + k)) =
        [.element call i] ++
          (List.range vs.length).map fun k => Source.element call (i + 1 + k) := by
      rw [length_cons, range_succ_eq_map, map_cons, map_map]
      refine congrArg _ (map_congr_left fun k _ => ?_)
      show Source.element call (i + (k + 1)) = Source.element call (i + 1 + k)
      rw [Nat.add_assoc, Nat.add_comm 1 k]
    rw [hlist]
    exact hall

/-- What rendering a tree does. -/
structure Renders (ft : FloatText) (n : Node) (r : SqlRender) (s : Str) (r' : SqlRender) : Prop where
  text : s = sql (n.pieces ft r.clause r.inList.length)
  appends : Appends r r' (n.appended r.inList.length)

/-- The placeholders of a list. -/
theorem sql_placeholders (clause : Clause) (call : Node) (xs : List DbValue) :
    sql (joined ",".toList ((Node.elements call xs.length).map fun s =>
      [(.hole ⟨clause, s⟩ : Piece Place)])) =
      List.intercalate ",".toList (xs.map fun _ => "?".toList) := by
  rw [sql_joined, map_map]
  refine congrArg _ (ext_getElem ?_ fun i h₁ h₂ => ?_)
  · simp [Node.length_elements]
  · simp [Piece.sql]

/-- A pattern call whose argument is a string. -/
theorem renders_pattern {ft : FloatText} {m : Method} {recv arg : Node} {r r' : SqlRender}
    {s v : Str}
    (ih : ∀ {r : SqlRender} {s : Str} {r' : SqlRender},
      SqlRender.render ft recv r = .ok (s, r') → Renders ft recv r s r')
    (hlike : ¬(m = .like ∨ m = .ilike)) (hlist : ¬(m = .contains ∧ recv.isBind = true))
    (hv : r.argStr arg m.name = .ok v)
    (h : SqlRender.render ft recv (r.push (.string (SqlRender.pattern m v))
      (.pattern (.call m recv arg))) = .ok (s, r')) :
    Renders ft (.call m recv arg) r ("(".toList ++ s ++ " LIKE BINARY ?)".toList) r' := by
  obtain ⟨htext, happends⟩ := ih h
  have hvalue : r.valueOf (.pattern (.call m recv arg)) =
      some (.string (SqlRender.pattern m v)) := by
    rw [SqlRender.valueOf, hv]
  have hlike' : m ≠ .like ∧ m ≠ .ilike := not_or.mp hlike
  refine ⟨?_, ?_⟩
  · rw [htext, Node.pieces]
    simp only [hlike'.1, hlike'.2, hlist, if_false]
    simp [Piece.sql, SqlRender.push]
  · have hall := (appends_push hvalue).trans happends
    rw [Node.appended, if_neg hlike, if_neg hlist]
    exact hall

/-- **The renderer.**  A tree is rendered to the text of its pieces, and appends its
parameters in the order of `appended`. -/
theorem render_spec {ft : FloatText} {n : Node} :
    ∀ {r : SqlRender} {s : Str} {r' : SqlRender},
      SqlRender.render ft n r = .ok (s, r') → Renders ft n r s r' := by
  induction n with
  | field path =>
    intro r s r' h
    unfold SqlRender.render at h
    split at h
    · next c =>
        cases h
        refine ⟨?_, Appends.refl _⟩
        rw [qcol_eq]
        simp [Node.pieces]
    · cases h
  | lit v =>
    intro r s r' h
    cases h
    refine ⟨?_, Appends.refl _⟩
    cases v with
    | string s => simp [SqlRender.lit, sqlQuote_eq, Node.pieces, Node.litPieces]
    | _ => simp [Node.pieces, Node.litPieces, Piece.sql]
  | bind slot =>
    intro r s r' h
    obtain ⟨v, hv, h⟩ := bind_eq_ok.mp h
    cases h
    refine ⟨by simp [Node.pieces, Piece.sql], appends_push ?_⟩
    unfold elementAt at hv
    split at hv
    · next w hw =>
        cases hv
        exact hw
    · cases hv
  | bin op a b iha ihb =>
    intro r s r' h
    unfold SqlRender.render at h
    split at h
    · next hnone =>
        obtain ⟨⟨t, r₁⟩, ha, h⟩ := bind_eq_ok.mp h
        cases h
        obtain ⟨htext, happends⟩ := iha ha
        refine ⟨?_, ?_⟩
        · rw [htext, Node.pieces, if_pos hnone]
          simp only [sql_cons, sql_append, sql_nil, Piece.sql, append_assoc, append_nil]
        · rw [Node.appended, if_pos hnone]
          exact happends
    · next hnone =>
        split at h
        · next hnone' =>
            obtain ⟨⟨t, r₁⟩, hb, h⟩ := bind_eq_ok.mp h
            cases h
            obtain ⟨htext, happends⟩ := ihb hb
            refine ⟨?_, ?_⟩
            · rw [htext, Node.pieces, if_neg hnone, if_pos hnone']
              simp only [sql_cons, sql_append, sql_nil, Piece.sql, append_assoc, append_nil]
            · rw [Node.appended, if_neg hnone, if_pos hnone']
              exact happends
        · next hnone' =>
            obtain ⟨⟨t, r₁⟩, ha, h⟩ := bind_eq_ok.mp h
            obtain ⟨⟨u, r₂⟩, hb, h⟩ := bind_eq_ok.mp h
            cases h
            obtain ⟨htext, happends⟩ := iha ha
            obtain ⟨htext', happends'⟩ := ihb hb
            rw [happends.inList.1, happends.inList.2] at htext'
            rw [happends.inList.1] at happends'
            refine ⟨?_, ?_⟩
            · rw [htext, htext', Node.pieces, if_neg hnone, if_neg hnone']
              simp only [sql_cons, sql_append, sql_nil, Piece.sql, append_assoc, append_nil]
            · rw [Node.appended, if_neg hnone, if_neg hnone']
              exact happends.trans happends'
  | un op e ih =>
    intro r s r' h
    obtain ⟨⟨t, r₁⟩, he, h⟩ := bind_eq_ok.mp h
    cases h
    obtain ⟨htext, happends⟩ := ih he
    refine ⟨?_, happends⟩
    rw [htext, Node.pieces]
    simp only [sql_cons, sql_append, sql_nil, Piece.sql, append_assoc, append_nil]
  | call m recv arg ihr iha =>
    intro r s r' h
    cases m with
    | like =>
      obtain ⟨⟨t, r₁⟩, ha, h⟩ := bind_eq_ok.mp h
      obtain ⟨⟨u, r₂⟩, hb, h⟩ := bind_eq_ok.mp h
      cases h
      obtain ⟨htext, happends⟩ := ihr ha
      obtain ⟨htext', happends'⟩ := iha hb
      rw [happends.inList.1, happends.inList.2] at htext'
      rw [happends.inList.1] at happends'
      refine ⟨?_, happends.trans happends'⟩
      rw [htext, htext', Node.pieces, if_pos rfl]
      simp only [sql_cons, sql_append, sql_nil, Piece.sql, append_assoc, append_nil]
    | ilike =>
      obtain ⟨⟨t, r₁⟩, ha, h⟩ := bind_eq_ok.mp h
      obtain ⟨⟨u, r₂⟩, hb, h⟩ := bind_eq_ok.mp h
      cases h
      obtain ⟨htext, happends⟩ := ihr ha
      obtain ⟨htext', happends'⟩ := iha hb
      rw [happends.inList.1, happends.inList.2] at htext'
      rw [happends.inList.1] at happends'
      refine ⟨?_, happends.trans happends'⟩
      rw [htext, htext', Node.pieces, if_neg (by simp), if_pos rfl]
      simp only [sql_cons, sql_append, sql_nil, Piece.sql, append_assoc, append_nil]
    | startsWith =>
      obtain ⟨v, hv, h⟩ := bind_eq_ok.mp h
      obtain ⟨⟨t, r₁⟩, ha, h⟩ := bind_eq_ok.mp h
      cases h
      exact renders_pattern ihr (by simp) (by simp) hv ha
    | endsWith =>
      obtain ⟨v, hv, h⟩ := bind_eq_ok.mp h
      obtain ⟨⟨t, r₁⟩, ha, h⟩ := bind_eq_ok.mp h
      cases h
      exact renders_pattern ihr (by simp) (by simp) hv ha
    | contains =>
      unfold SqlRender.render at h
      dsimp only at h
      by_cases hbind : recv.isBind = true
      · rw [if_pos hbind] at h
        split at h
        · cases h
        · split at h
          · next hempty =>
              cases h
              refine ⟨?_, ?_⟩
              · rw [Node.pieces, hempty]
                simp [hbind, Piece.sql]
              · rw [Node.appended, hempty]
                simp [hbind, Appends.refl]
          · next hfull =>
              obtain ⟨⟨t, r₁⟩, ha, h⟩ := bind_eq_ok.mp h
              cases h
              have hlist := appends_pushAll (.call .contains recv arg)
                (drop_zero : r.inList.drop 0 = _)
              obtain ⟨htext, happends⟩ := iha ha
              rw [hlist.inList.1, hlist.inList.2] at htext
              rw [hlist.inList.1] at happends
              refine ⟨?_, ?_⟩
              · rw [htext, Node.pieces]
                simp only [reduceCtorEq, hbind, hfull, and_self, if_true, if_false, sql_cons,
                  sql_append, sql_placeholders]
                simp only [sql_nil, Piece.sql, append_assoc, append_nil]
              · rw [Node.appended]
                simp only [reduceCtorEq, hbind, hfull, and_self, or_self, if_true, if_false]
                simp only [Nat.zero_add] at hlist
                exact hlist.trans happends
      · rw [if_neg hbind] at h
        obtain ⟨v, hv, h⟩ := bind_eq_ok.mp h
        obtain ⟨⟨t, r₁⟩, ha, h⟩ := bind_eq_ok.mp h
        cases h
        exact renders_pattern ihr (by simp) (by simp [hbind]) hv ha
    | other name => cases h
  | assign target value ih =>
    intro r s r' h
    unfold SqlRender.render at h
    split at h
    · next c =>
        obtain ⟨⟨t, r₁⟩, hv, h⟩ := bind_eq_ok.mp h
        cases h
        obtain ⟨htext, happends⟩ := ih hv
        refine ⟨?_, happends⟩
        rw [htext, qcol_eq, Node.pieces]
        simp only [sql_cons, Piece.sql, append_assoc]
    · cases h

end Leviathan.Orm
