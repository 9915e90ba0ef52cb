import Leviathan.Lib.Fuel
import Leviathan.Lib.Wildcard

/-!
# `like` and `ilike`

`__likeMatch` goes through the text with an index into the pattern.  It remembers the last `%` that
it has come past (`star`, which is `-1` before the first) and how far that run reaches (`mark`); a
byte that does not match sends it back there, with a run that is longer by one.

`pieces` reads a pattern: `%` is any run, `_` any byte, `\` makes the next byte itself, and every
other byte is itself.  The loop ends, and it returns whether the text is in the language of the
pieces.  Its state stands for all the matches that are left to try (`Open`): those of the rest of the
pattern here, and those of the pattern behind the last `%` from a later place.
-/

namespace Leviathan.Prelude

open Wildcard

/-- A string is its bytes. -/
abbrev Bytes := List UInt8

/-- `if (b >= 65 && b <= 90) b = b + 32`, where the match folds. -/
def foldByte (fold : Bool) (b : UInt8) : UInt8 :=
  if fold = true ∧ 65 ≤ b ∧ b ≤ 90 then b + 32 else b

/-- The variables of the loop. -/
structure LikeState where
  i : Nat
  j : Nat
  star : Option Nat
  mark : Nat

/-- `if (star >= 0) { j = star + 1; mark = mark + 1; i = mark; } else return false`. -/
def LikeState.back (s : LikeState) : Option LikeState :=
  s.star.map fun star => { s with j := star + 1, mark := s.mark + 1, i := s.mark + 1 }

/-- A turn of the loop, at the byte `tb` of the text; `none` returns `false`. -/
def likeTurn (fold : Bool) (pattern : Bytes) (tb : UInt8) (s : LikeState) : Option LikeState :=
  match pattern[s.j]?, pattern[s.j + 1]? with
  | some 92, some lit =>
    if foldByte fold lit = foldByte fold tb then some { s with i := s.i + 1, j := s.j + 2 }
    else s.back
  | some 95, _ => some { s with i := s.i + 1, j := s.j + 1 }
  | some 37, _ => some { s with star := some s.j, mark := s.i, j := s.j + 1 }
  | some qb, _ =>
    if foldByte fold qb = foldByte fold tb then some { s with i := s.i + 1, j := s.j + 1 }
    else s.back
  | none, _ => s.back

/-- The two loops. -/
def likeLoop (fold : Bool) (text pattern : Bytes) : Nat → LikeState → Option Bool
  | 0, _ => none
  | fuel + 1, s =>
    match text[s.i]? with
    | some tb =>
      match likeTurn fold pattern tb s with
      | some s' => likeLoop fold text pattern fuel s'
      | none => some false
    | none => some ((pattern.drop s.j).dropWhile (· == 37)).isEmpty

/-- `__likeMatch`. -/
def likeMatch (text pattern : Bytes) (fold : Bool) (fuel : Nat) : Option Bool :=
  likeLoop fold text pattern fuel { i := 0, j := 0, star := none, mark := 0 }

/-- `like`. -/
def like (text pattern : Bytes) (fuel : Nat) : Option Bool := likeMatch text pattern false fuel

/-- `ilike`. -/
def ilike (text pattern : Bytes) (fuel : Nat) : Option Bool := likeMatch text pattern true fuel

/-! ### The language of a pattern -/

/-- What a pattern says. -/
def pieces : Bytes → List (Piece UInt8)
  | [] => []
  | 92 :: b :: rest => .one b :: pieces rest
  | 95 :: rest => .anyOne :: pieces rest
  | 37 :: rest => .anyRun :: pieces rest
  | b :: rest => .one b :: pieces rest

/-- The pieces of a match that may fold. -/
def foldedPieces (fold : Bool) (pattern : Bytes) : List (Piece UInt8) :=
  (pieces pattern).map (Piece.map (foldByte fold))

end Leviathan.Prelude
