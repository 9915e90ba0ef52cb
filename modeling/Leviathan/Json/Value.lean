import Mathlib

/-!
# JSON values and their texts

`JsonValue` of the prelude, with `render` and `renderPretty`.  A string is a list of bytes.  The
`float` type is a parameter, with the two conversions that the code calls; a `Map` is the list of
its entries, in the order of insertion.
-/

namespace Leviathan.Json

/-- A string. -/
abbrev Bytes := List UInt8

/-- A string literal of ASCII characters. -/
def ascii (s : String) : Bytes := s.toList.map fun c => UInt8.ofNat c.toNat

/-- The `float` type: `float.toString`, `string.toFloat` and the constant 0.0. -/
structure FloatOps (F : Type) where
  toString : F → Bytes
  toFloat : Bytes → Option F
  zero : F

/-- `JsonValue`, by the constructor that built it. -/
inductive JsonValue (F : Type) where
  | ofNull
  | ofBool (v : Bool)
  | ofNum (v : F)
  | ofStr (v : Bytes)
  | ofArray (v : List (JsonValue F))
  | ofObject (v : List (Bytes × JsonValue F))

/-- `Map.with`: the value of a key is replaced where it stands, a new key comes last. -/
def withKey {V : Type} (m : List (Bytes × V)) (key : Bytes) (val : V) : List (Bytes × V) :=
  if key ∈ m.map Prod.fst then m.map fun e => if e.1 = key then (e.1, val) else e
  else m ++ [(key, val)]

/-- `Map.keys`. -/
def keys {V : Type} (m : List (Bytes × V)) : List Bytes := m.map Prod.fst

/-- A key that is new comes last. -/
theorem withKey_new {V : Type} {m : List (Bytes × V)} {key : Bytes} (h : key ∉ keys m) (val : V) :
    withKey m key val = m ++ [(key, val)] :=
  if_neg h

/-! ## Rendering -/

def hexDigits : Bytes := ascii "0123456789abcdef"

/-- One byte of `json::renderStr`. -/
def escape (c : UInt8) : Bytes :=
  if c = 34 then ascii "\\\""
  else if c = 92 then ascii "\\\\"
  else if c = 8 then ascii "\\b"
  else if c = 12 then ascii "\\f"
  else if c = 10 then ascii "\\n"
  else if c = 13 then ascii "\\r"
  else if c = 9 then ascii "\\t"
  else if c < 32 then
    ascii "\\u00" ++ [hexDigits.getD ((c.toNat >>> 4) &&& 15) 0, hexDigits.getD (c.toNat &&& 15) 0]
  else [c]

/-- `json::renderStr`. -/
def renderStr (v : Bytes) : Bytes := ascii "\"" ++ v.flatMap escape ++ ascii "\""

section Render

variable {F : Type} (ops : FloatOps F)

mutual

/-- `JsonValue.render`. -/
def render : JsonValue F → Bytes
  | .ofNull => ascii "null"
  | .ofBool b => if b then ascii "true" else ascii "false"
  | .ofNum num => ops.toString num
  | .ofStr str => renderStr str
  | .ofArray items => ascii "[" ++ renderItems items true ++ ascii "]"
  | .ofObject fields => ascii "\x7b" ++ renderFields fields true ++ ascii "\x7d"

/-- The loop over the items; `first` is `i == 0`. -/
def renderItems : List (JsonValue F) → Bool → Bytes
  | [], _ => []
  | v :: rest, first =>
    (if first then [] else ascii ",") ++ render v ++ renderItems rest false

/-- The loop over the keys. -/
def renderFields : List (Bytes × JsonValue F) → Bool → Bytes
  | [], _ => []
  | (k, v) :: rest, first =>
    (if first then [] else ascii ",") ++ renderStr k ++ ascii ":" ++ render v ++
      renderFields rest false

end

/-- `" ".repeat(n)`, for an `int` of 64 bits; no blanks when it is negative. -/
def spaces (n : Int) : Bytes := List.replicate (n.bmod (2 ^ 64)).toNat 32

variable (indent : Int)

mutual

/-- `JsonValue.renderPrettyLevel`. -/
def renderPrettyLevel : JsonValue F → Nat → Bytes
  | .ofArray items, level =>
    if items.isEmpty then ascii "[]"
    else ascii "[\n" ++ prettyItems items (level + 1) ++ spaces (indent * level) ++ ascii "]"
  | .ofObject fields, level =>
    if fields.isEmpty then ascii "\x7b\x7d"
    else ascii "\x7b\n" ++ prettyFields fields (level + 1) ++ spaces (indent * level) ++ ascii "\x7d"
  | .ofNull, _ => render ops .ofNull
  | .ofBool b, _ => render ops (.ofBool b)
  | .ofNum num, _ => render ops (.ofNum num)
  | .ofStr str, _ => render ops (.ofStr str)

/-- The loop over the items, at their level. -/
def prettyItems : List (JsonValue F) → Nat → Bytes
  | [], _ => []
  | v :: rest, level =>
    spaces (indent * level) ++ renderPrettyLevel v level ++
      (if rest.isEmpty then [] else ascii ",") ++ ascii "\n" ++ prettyItems rest level

/-- The loop over the keys, at the level of the values. -/
def prettyFields : List (Bytes × JsonValue F) → Nat → Bytes
  | [], _ => []
  | (k, v) :: rest, level =>
    spaces (indent * level) ++ renderStr k ++ ascii ": " ++ renderPrettyLevel v level ++
      (if rest.isEmpty then [] else ascii ",") ++ ascii "\n" ++ prettyFields rest level

end

/-- `JsonValue.renderPretty`. -/
def renderPretty (v : JsonValue F) : Bytes := renderPrettyLevel ops indent v 0

end Render

section Height

variable {F : Type}

mutual

/-- The number of arrays and objects around the deepest value. -/
def height : JsonValue F → Nat
  | .ofArray items => heightItems items
  | .ofObject fields => heightFields fields
  | .ofNull | .ofBool _ | .ofNum _ | .ofStr _ => 0

def heightItems : List (JsonValue F) → Nat
  | [] => 0
  | v :: rest => max (height v + 1) (heightItems rest)

def heightFields : List (Bytes × JsonValue F) → Nat
  | [] => 0
  | (_, v) :: rest => max (height v + 1) (heightFields rest)

end

theorem height_item {items : List (JsonValue F)} {v : JsonValue F} (h : v ∈ items) :
    height v + 1 ≤ height (.ofArray items) := by
  show height v + 1 ≤ heightItems items
  induction items with
  | nil => exact absurd h (List.not_mem_nil)
  | cons w rest ih =>
    rw [heightItems]
    obtain hv | hrest := List.mem_cons.mp h
    · rw [hv]
      exact Nat.le_max_left _ _
    · exact Nat.le_trans (ih hrest) (Nat.le_max_right _ _)

theorem height_field {fields : List (Bytes × JsonValue F)} {e : Bytes × JsonValue F}
    (h : e ∈ fields) : height e.2 + 1 ≤ height (.ofObject fields) := by
  show height e.2 + 1 ≤ heightFields fields
  induction fields with
  | nil => exact absurd h (List.not_mem_nil)
  | cons w rest ih =>
    rw [heightFields]
    obtain he | hrest := List.mem_cons.mp h
    · rw [he]
      exact Nat.le_max_left _ _
    · exact Nat.le_trans (ih hrest) (Nat.le_max_right _ _)

end Height

end Leviathan.Json
