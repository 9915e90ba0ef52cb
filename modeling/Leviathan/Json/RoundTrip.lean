import Leviathan.Json.Reading

/-!
# The round trip of JSON values

Both renderers write texts of the value (`render_written`, `renderPretty_written`), and the parser
reads every text of it.
-/

namespace Leviathan.Json

open List

variable {F : Type} (ops : FloatOps F)

/-- What the types and the claim of a round trip ask of a value: a map has each key once, and a
number is written as a JSON number that reads back as the same. -/
inductive Sound : JsonValue F → Prop where
  | null : Sound .ofNull
  | bool (b : Bool) : Sound (.ofBool b)
  | num (x : F) (hnum : IsJsonNumber (ops.toString x))
      (hback : ops.toFloat (ops.toString x) = some x) : Sound (.ofNum x)
  | str (v : Bytes) : Sound (.ofStr v)
  | array (items : List (JsonValue F)) (hitems : ∀ v ∈ items, Sound v) : Sound (.ofArray items)
  | object (fields : List (Bytes × JsonValue F)) (hkeys : (keys fields).Nodup)
      (hfields : ∀ e ∈ fields, Sound e.2) : Sound (.ofObject fields)

theorem blank_nil : Blank [] := fun _ h => absurd h not_mem_nil

theorem blank_append {w w' : Bytes} (hw : Blank w) (hw' : Blank w') : Blank (w ++ w') :=
  fun c hc => (List.mem_append.mp hc).elim (hw c) (hw' c)

theorem blank_spaces (n : Int) : Blank (spaces n) := by
  intro c hc
  rw [eq_of_mem_replicate hc]
  rfl

theorem blank_newline : Blank (ascii "\n") := by
  intro c hc
  rw [List.mem_singleton.mp hc]
  rfl

theorem blank_space : Blank (ascii " ") := by
  intro c hc
  rw [List.mem_singleton.mp hc]
  rfl

/-! ## `render` -/

theorem renderItems_eq (items : List (JsonValue F)) :
    renderItems ops items true = commas (items.map (render ops)) ∧
    (items ≠ [] → renderItems ops items false = 44 :: commas (items.map (render ops))) := by
  induction items with
  | nil => exact ⟨by rw [renderItems]; rfl, fun h => absurd rfl h⟩
  | cons v rest ih =>
    have htail : render ops v ++ renderItems ops rest false =
        commas ((v :: rest).map (render ops)) := by
      cases rest with
      | nil =>
        rw [renderItems, append_nil]
        rfl
      | cons v' rest =>
        rw [ih.2 (cons_ne_nil _ _)]
        rfl
    refine ⟨?_, fun _ => ?_⟩
    · rw [renderItems, if_pos rfl, nil_append]
      exact htail
    · rw [renderItems, if_neg Bool.false_ne_true, append_assoc, htail]
      rfl

/-- The entry that `render` writes. -/
def plainEntry (e : Bytes × JsonValue F) : Entry F := ⟨[], e.1, e.2, render ops e.2⟩

theorem renderFields_eq (fields : List (Bytes × JsonValue F)) :
    renderFields ops fields true = commas (fields.map fun e => (plainEntry ops e).written) ∧
    (fields ≠ [] → renderFields ops fields false =
      44 :: commas (fields.map fun e => (plainEntry ops e).written)) := by
  induction fields with
  | nil => exact ⟨by rw [renderFields]; rfl, fun h => absurd rfl h⟩
  | cons e rest ih =>
    have hentry : renderStr e.1 ++ (ascii ":" ++ render ops e.2) = (plainEntry ops e).written := rfl
    have htail : (plainEntry ops e).written ++ renderFields ops rest false =
        commas ((e :: rest).map fun e => (plainEntry ops e).written) := by
      cases rest with
      | nil =>
        rw [renderFields, append_nil]
        rfl
      | cons e' rest =>
        rw [ih.2 (cons_ne_nil _ _)]
        rfl
    refine ⟨?_, fun _ => ?_⟩
    · rw [renderFields, if_pos rfl, nil_append, append_assoc (renderStr e.1), hentry]
      exact htail
    · rw [← htail, ← hentry, renderFields, if_neg Bool.false_ne_true]
      simp only [append_assoc]
      rfl

/-- **`render` writes a text of the value.** -/
theorem render_written {v : JsonValue F} (h : Sound ops v) : Written ops v (render ops v) := by
  induction h with
  | null => exact .null
  | bool b => exact .bool b
  | num x hnum hback => exact .num x hnum hback
  | str v => exact .str v
  | array items _ ih =>
    have hwritten := Written.array (items.map fun v => (v, render ops v)) [] blank_nil fun e he => by
      obtain ⟨v, hv, heq⟩ := List.mem_map.mp he
      rw [← heq]
      exact ih v hv
    rw [map_map, map_map] at hwritten
    rw [render, (renderItems_eq ops items).1]
    have hitems : items.map (Prod.fst ∘ fun v => (v, render ops v)) = items := map_id items
    rw [hitems] at hwritten
    exact hwritten
  | object fields hkeys _ ih =>
    have hwritten := Written.object (F := F) (fields.map (plainEntry ops)) [] blank_nil
      (by rw [map_map]; exact hkeys)
      (fun e he => by
        obtain ⟨x, _, heq⟩ := List.mem_map.mp he
        rw [← heq]
        exact blank_nil)
      fun e he => by
        obtain ⟨x, hx, heq⟩ := List.mem_map.mp he
        rw [← heq]
        exact ih x hx
    rw [map_map, map_map] at hwritten
    rw [render, (renderFields_eq ops fields).1]
    have hfields : fields.map ((fun e : Entry F => (e.key, e.value)) ∘ plainEntry ops) = fields :=
      map_id fields
    rw [hfields] at hwritten
    exact hwritten

/-! ## `renderPretty` -/

section Pretty

variable (indent : Int)

/-- A new line, and the blanks of a level. -/
def newLine (level : Nat) : Bytes := ascii "\n" ++ spaces (indent * level)

theorem blank_newLine (level : Nat) : Blank (newLine indent level) :=
  blank_append blank_newline (blank_spaces _)

theorem prettyItems_eq (items : List (JsonValue F)) (hne : items ≠ []) (level : Nat) :
    ascii "\n" ++ prettyItems ops indent items level =
      commas (items.map fun v => newLine indent level ++ renderPrettyLevel ops indent v level) ++
        ascii "\n" := by
  induction items with
  | nil => exact absurd rfl hne
  | cons v rest ih =>
    rw [prettyItems]
    cases rest with
    | nil =>
      simp only [prettyItems, isEmpty_nil, if_true, append_nil, map_cons,
        map_nil, commas, newLine, append_assoc]
    | cons v' rest =>
      have hrest := ih (cons_ne_nil _ _)
      simp only [map_cons, commas] at hrest ⊢
      simp only [isEmpty_cons, Bool.false_eq_true, if_false, append_assoc,
        cons_append]
      rw [hrest]
      simp only [newLine, append_assoc]
      rfl

/-- The entry that `renderPretty` writes. -/
def prettyEntry (level : Nat) (e : Bytes × JsonValue F) : Entry F :=
  ⟨newLine indent level, e.1, e.2, ascii " " ++ renderPrettyLevel ops indent e.2 level⟩

theorem prettyFields_eq (fields : List (Bytes × JsonValue F)) (hne : fields ≠ []) (level : Nat) :
    ascii "\n" ++ prettyFields ops indent fields level =
      commas (fields.map fun e => (prettyEntry ops indent level e).written) ++ ascii "\n" := by
  induction fields with
  | nil => exact absurd rfl hne
  | cons e rest ih =>
    have hentry : (prettyEntry ops indent level e).written = ascii "\n" ++ (spaces (indent * level) ++
        (renderStr e.1 ++ (ascii ": " ++ renderPrettyLevel ops indent e.2 level))) := by
      simp only [prettyEntry, Entry.written, newLine, append_assoc]
      rfl
    rw [prettyFields]
    cases rest with
    | nil =>
      simp only [prettyFields, isEmpty_nil, if_true, append_nil, map_cons,
        map_nil, commas, hentry, append_assoc]
    | cons e' rest =>
      have hrest := ih (cons_ne_nil _ _)
      simp only [map_cons, commas, hentry] at hrest ⊢
      simp only [isEmpty_cons, Bool.false_eq_true, if_false, append_assoc,
        cons_append]
      rw [hrest]
      rfl

/-- **`renderPretty` writes a text of the value.** -/
theorem renderPretty_written {v : JsonValue F} (h : Sound ops v) (level : Nat) :
    Written ops v (renderPrettyLevel ops indent v level) := by
  induction h generalizing level with
  | null =>
    rw [renderPrettyLevel]
    exact .null
  | bool b =>
    rw [renderPrettyLevel]
    exact .bool b
  | num x hnum hback =>
    rw [renderPrettyLevel]
    exact .num x hnum hback
  | str v =>
    rw [renderPrettyLevel]
    exact .str v
  | array items _ ih =>
    rw [renderPrettyLevel]
    by_cases hempty : items = []
    · rw [hempty]
      exact Written.array [] [] blank_nil fun e he => absurd he not_mem_nil
    · have hwritten := Written.array (F := F)
        (items.map fun v =>
          (v, newLine indent (level + 1) ++ renderPrettyLevel ops indent v (level + 1)))
        (newLine indent level) (blank_newLine indent level) fun e he => by
          obtain ⟨v, hv, heq⟩ := List.mem_map.mp he
          rw [← heq]
          exact .pad _ (blank_newLine indent (level + 1)) (ih v hv (level + 1))
      have hitems : (items.map fun v => (v, newLine indent (level + 1) ++
          renderPrettyLevel ops indent v (level + 1))).map Prod.fst = items := by
        rw [map_map]
        exact map_id items
      rw [hitems, map_map] at hwritten
      have htext := prettyItems_eq ops indent items hempty (level + 1)
      have hopen : ascii "[\n" = 91 :: ascii "\n" := rfl
      rw [if_neg (by rwa [List.isEmpty_iff]), hopen, cons_append, htext]
      simp only [newLine, append_assoc, cons_append] at hwritten ⊢
      exact hwritten
  | object fields hkeys _ ih =>
    rw [renderPrettyLevel]
    by_cases hempty : fields = []
    · rw [hempty]
      exact Written.object [] [] blank_nil nodup_nil (fun e he => absurd he not_mem_nil)
        fun e he => absurd he not_mem_nil
    · have hwritten := Written.object (F := F) (fields.map (prettyEntry ops indent (level + 1)))
        (newLine indent level) (blank_newLine indent level) (by rw [map_map]; exact hkeys)
        (fun e he => by
          obtain ⟨x, _, heq⟩ := List.mem_map.mp he
          rw [← heq]
          exact blank_newLine indent (level + 1))
        fun e he => by
          obtain ⟨x, hx, heq⟩ := List.mem_map.mp he
          rw [← heq]
          exact .pad _ blank_space (ih x hx (level + 1))
      have hfields : (fields.map (prettyEntry ops indent (level + 1))).map
          (fun e => (e.key, e.value)) = fields := by
        rw [map_map]
        exact map_id fields
      rw [hfields, map_map] at hwritten
      have htext := prettyFields_eq ops indent fields hempty (level + 1)
      have hopen : ascii "\x7b\n" = 123 :: ascii "\n" := rfl
      rw [if_neg (by rwa [List.isEmpty_iff]), hopen, cons_append, htext]
      simp only [newLine, append_assoc, cons_append] at hwritten ⊢
      exact hwritten

end Pretty

/-! ## The round trip -/

/-- **`parse` gives back the value of a text.** -/
theorem parse_written {v : JsonValue F} {s : Bytes} (h : Written ops v s)
    (hheight : height v ≤ 128) : parse ops s = some v := by
  have hrest : ({ s := s } : JsonParser).rest = s ++ [] := (append_nil s).symm
  have hread := JsonParser.reads_written ops h { s := s } [] (parseFuel s) 0 hrest
    JsonParser.notHead_nil rfl (by omega) (Nat.le_refl _)
  have hend : (({ s := s } : JsonParser).advance s.length).rest = [] := JsonParser.rest_append hrest
  have hskip := JsonParser.skipWs_none (p := ({ s := s } : JsonParser).advance s.length) (by
    rw [hend]
    exact JsonParser.notHead_nil)
  rw [parse, hread]
  simp only [JsonParser.advance_failed, hskip, JsonParser.advance_i, Nat.zero_add]
  rw [if_neg Bool.false_ne_true, if_neg (not_not_intro rfl)]

/-- **Rendering and parsing a value gives the same value**, with and without indentation. -/
theorem json_round_trip (v : JsonValue F) (hv : Sound ops v) (hheight : height v ≤ 128) :
    parse ops (render ops v) = some v ∧ ∀ k, parse ops (renderPretty ops k v) = some v :=
  ⟨parse_written ops (render_written ops hv) hheight,
    fun k => parse_written ops (renderPretty_written ops k hv 0) hheight⟩

/-- Two floats, 0.0 and 1.5, as they are written. -/
def twoFloats : FloatOps Bool where
  toString x := if x then ascii "1.500000" else ascii "0.000000"
  toFloat t :=
    if t = ascii "1.500000" then some true
    else if t = ascii "0.000000" then some false else none
  zero := false

/-- An array of a number and of a string with a NUL byte, under a key with a line break. -/
def nestedValue : JsonValue Bool :=
  .ofObject [(ascii "k\n", .ofArray [.ofNum true, .ofStr [0, 200, 34]])]

theorem json_round_trip_nested :
    parse twoFloats (render twoFloats nestedValue) = some nestedValue ∧
      ∀ k, parse twoFloats (renderPretty twoFloats k nestedValue) = some nestedValue := by
  refine json_round_trip twoFloats nestedValue ?_ (by decide)
  refine .object _ (nodup_singleton _) fun e he => ?_
  rw [List.mem_singleton.mp he]
  refine .array _ fun v hv => ?_
  obtain hv | hv := List.mem_pair.mp hv
  · rw [hv]
    refine .num true ⟨[], [49], ascii ".500000", [], rfl, .inl rfl, .inr ⟨49, [], rfl, ?_⟩,
      .inr ⟨ascii "500000", rfl, ?_⟩, .inl rfl⟩ rfl
    · exact ⟨by decide, by decide, fun c hc => absurd hc not_mem_nil⟩
    · exact ⟨cons_ne_nil _ _, List.all_eq_true.mp rfl⟩
  · rw [hv]
    exact .str _

end Leviathan.Json
