import WireLayout.Java.Bracket
import WireLayout.Java.Pieces
import WireLayout.Text.Utf8

/-! Brackets and pieces of a text by the positions of octets. An octet above ASCII shows a character that
is no bracket, separator or space. -/

namespace WireLayout.Java

open WireLayout.Text

abbrev Octet := UInt8 × Nat

def Octet.view (o : Octet) : Char := Char.ofNat o.1.toNat

def octets (text : List Char) : List Octet := (utf8 text).zipIdx

def slice (xs : List Octet) (start stop : Nat) : List Octet := (xs.drop start).take (stop - start)

def span (piece : List Octet) : Nat × Nat :=
  ((piece.head?.map (·.2)).getD 0, (piece.getLast?.map (·.2 + 1)).getD 0)

def pieceSpans (xs : List Octet) (start stop : Nat) (sep : Char) (generics : Bool) : List (Nat × Nat) :=
  (pieces Octet.view generics sep (slice xs start stop)).map span

/-- A range without the blanks at its ends; a blank range shrinks to its end. -/
def trimSpan (xs : List Octet) (start stop : Nat) : Nat × Nat :=
  let part := trimBlank Octet.view (slice xs start stop)
  if part.isEmpty then (stop, stop) else span part

/-- The first opening brackets of a text, at most `count`, with their partners. -/
def partners (count : Nat) (xs : List Octet) : List (Nat × Option Nat) :=
  ((xs.filter fun o => (closer? o.view).isSome).take count).map fun o =>
    (o.2, (closer? o.view).bind fun close => findMatching Octet.view xs o.2 o.view close)

def textOf (xs : List Octet) : String := String.ofList (decodeLossy (xs.map (·.1)))

def identifierOctets : List Nat := (List.range 256).filter fun n => isIdent (Char.ofNat n)

end WireLayout.Java
