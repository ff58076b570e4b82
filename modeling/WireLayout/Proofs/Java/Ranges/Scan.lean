import WireLayout.Java.Positions
import WireLayout.Proofs.Except
import WireLayout.Proofs.Java.TypeText

/-! Scanning a text by positions of octets. A position that a text does not have is a fault, and so is a range whose
ends are out of order, past the end or within a character. A search for the partner of a bracket goes on to the end of
the text, whatever range the bracket was found in. -/

namespace WireLayout.Java

open WireLayout.Text

inductive Fault where
  | position (i : Nat)
  | range (start stop : Nat)
  deriving DecidableEq, Repr

abbrev Checked := Except Fault

/-- The positions from one up to another. -/
structure Span where
  start : Nat
  stop : Nat
  deriving DecidableEq, Repr

/-- The octets of a text, each as the character of its number. -/
def octetViews (text : List Char) : List Char := (utf8 text).map fun b => Char.ofNat b.toNat

def octetAt (text : List Char) (i : Nat) : Checked Char :=
  match (octetViews text)[i]? with
  | some c => .ok c
  | none => .error (.position i)

/-- A text cut after a number of octets; it cannot be cut within a character or past the end. -/
def splitOctets? : Nat → List Char → Option (List Char × List Char)
  | 0, cs => some ([], cs)
  | _ + 1, [] => none
  | n + 1, c :: cs =>
    if c.utf8Size ≤ n + 1 then (splitOctets? (n + 1 - c.utf8Size) cs).map fun p => (c :: p.1, p.2) else none

def part? (text : List Char) (s : Span) : Option (List Char) := do
  guard (s.start ≤ s.stop)
  let (_, rest) ← splitOctets? s.start text
  let (part, _) ← splitOctets? (s.stop - s.start) rest
  some part

def textIn (text : List Char) (s : Span) : Checked (List Char) :=
  match part? text s with
  | some part => .ok part
  | none => .error (.range s.start s.stop)

/-! Scanning one text. -/

section

variable (text : List Char)

/-- The first position from one on, up to an end, that is not of a class. -/
def passWhile (p : Char → Bool) (i stop : Nat) : Checked {j : Nat // i ≤ j} := do
  if i < stop then
    if p (← octetAt text i) then
      let ⟨j, _⟩ ← passWhile p (i + 1) stop
      return ⟨j, by omega⟩
    else return ⟨i, le_rfl⟩
  else return ⟨i, le_rfl⟩
termination_by stop - i

/-- The position behind the last one, down to a start, that is not of a class. -/
def backWhile (p : Char → Bool) (start : Nat) : (stop : Nat) → Checked {j : Nat // j ≤ stop}
  | 0 => return ⟨0, le_rfl⟩
  | stop + 1 => do
    if start ≤ stop then
      if p (← octetAt text stop) then
        let ⟨j, hj⟩ ← backWhile p start stop
        return ⟨j, Nat.le_succ_of_le hj⟩
      else return ⟨stop + 1, le_rfl⟩
    else return ⟨stop + 1, le_rfl⟩

def trimRange (s : Span) : Checked {r : Span // r.stop ≤ s.stop} := do
  let _ ← textIn text s
  let start ← passWhile text isAsciiSpace s.start s.stop
  let stop ← backWhile text isAsciiSpace start s.stop
  return ⟨⟨start, stop⟩, stop.2⟩

/-- Behind the angle bracket that closes the ones which are open, or the end. -/
def anglesEnd (depth : Int) (i stop : Nat) : Checked {j : Nat // i ≤ j ∨ j = stop} := do
  if i < stop then
    let c ← octetAt text i
    if c = '>' && depth - 1 = 0 then return ⟨i + 1, by omega⟩
    else
      let depth := if c = '<' then depth + 1 else if c = '>' then depth - 1 else depth
      let ⟨j, _⟩ ← anglesEnd depth (i + 1) stop
      return ⟨j, by omega⟩
  else return ⟨stop, .inr rfl⟩
termination_by stop - i

def parenthesisAt (depth : Int) (i stop : Nat) : Checked (Option Nat) := do
  if i < stop then
    let c ← octetAt text i
    if c = '(' && depth = 0 then return some i
    else
      let depth := if c = '<' then depth + 1 else if c = '>' then depth - 1 else depth
      parenthesisAt depth (i + 1) stop
  else return none
termination_by stop - i

/-- The position of the partner of the bracket at a position, wherever in the text it is. -/
def partner? (i : Nat) (opener closer : Char) : Option {j : Nat // i < j} :=
  match (octetViews text).drop i with
  | [] => none
  | c :: rest =>
    if c = opener then (closing id opener closer 1 rest).map fun p =>
      ⟨i + 1 + p.1.length, Nat.le_add_right (i + 1) p.1.length⟩
    else none

def spanOf (s : Span) : List Span := if s.start < s.stop then [s] else []

/-- `start` is where the current piece begins. -/
def pieceSpansFrom (sep : Char) (generics : Bool) (depth : Int) (start i stop : Nat) : Checked (List Span) := do
  if i < stop then
    let c ← octetAt text i
    match depthChange generics c with
    | some d => pieceSpansFrom sep generics (depth + d) start (i + 1) stop
    | none =>
      if c = sep && depth = 0 then
        let piece ← trimRange text ⟨start, i⟩
        return spanOf piece ++ (← pieceSpansFrom sep generics depth (i + 1) (i + 1) stop)
      else pieceSpansFrom sep generics depth start (i + 1) stop
  else
    let piece ← trimRange text ⟨start, stop⟩
    return spanOf piece
termination_by stop - i

/-- The pieces of a range between separators outside all brackets. -/
def pieceRanges (sep : Char) (generics : Bool) (s : Span) : Checked (List Span) := do
  let _ ← textIn text s
  pieceSpansFrom text sep generics 0 s.start s.start s.stop

end

def octetCells (text : List Char) : List Cell := codes (octetViews text)

/-- The position of the first sign of assignment outside brackets. -/
def assignmentIndex (shown : List Char) : Option Nat := (splitAssignment (octetCells shown)).map (·.1.length)

/-- The types that a clause of a header lists, cut out of the words between the keyword and the next clause. -/
def clauseIn (words : List (List Char)) (keyword : String) (stops : List String) : Checked (List String) := do
  match words.dropWhile (· ≠ keyword.toList) with
  | [] => return []
  | _ :: rest =>
    let listed := [' '].intercalate (rest.takeWhile fun w => !stops.contains (String.ofList w))
    let pieces ← pieceRanges listed ',' true ⟨0, (octetViews listed).length⟩
    pieces.mapM fun piece => String.ofList <$> textIn listed piece

end WireLayout.Java
