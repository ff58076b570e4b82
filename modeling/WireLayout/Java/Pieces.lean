import WireLayout.Text.Blank

/-! Lists of pieces in a source: parameters, arguments, declarators, constants. A sequence is cut at the
separators that stand outside all brackets; a piece is trimmed of ASCII space, and an empty one is
dropped. -/

namespace WireLayout.Java

open WireLayout.Text

variable {α : Type}

/-- How an element changes the depth of nesting. -/
def depthChange (generics : Bool) (c : Char) : Option Int :=
  if c = '(' || c = '[' || c = '{' then some 1
  else if c = ')' || c = ']' || c = '}' then some (-1)
  else if generics && c = '<' then some 1
  else if generics && c = '>' then some (-1)
  else none

def trimBlank (view : α → Char) (xs : List α) : List α := trim (fun x => isAsciiSpace (view x)) xs

def nonEmpty (piece : List α) : List (List α) := if piece.isEmpty then [] else [piece]

/-- `read` is the current piece, the last element first. Brackets are no separators, and the depth may
fall below zero. -/
def piecesFrom (view : α → Char) (generics : Bool) (sep : Char) : Int → List α → List α → List (List α)
  | _, read, [] => nonEmpty (trimBlank view read.reverse)
  | depth, read, x :: xs =>
    match depthChange generics (view x) with
    | some d => piecesFrom view generics sep (depth + d) (x :: read) xs
    | none =>
      if view x = sep && depth = 0 then
        nonEmpty (trimBlank view read.reverse) ++ piecesFrom view generics sep 0 [] xs
      else piecesFrom view generics sep depth (x :: read) xs

def pieces (view : α → Char) (generics : Bool) (sep : Char) (xs : List α) : List (List α) :=
  piecesFrom view generics sep 0 [] xs

end WireLayout.Java
