import WireLayout.Error
import WireLayout.Text.Blank

/-! Integer literals of a source: decimal, hexadecimal, binary or octal, with underscores and a suffix. A
sign may stand in front; the digits of each base are read with an optional sign of their own and must
fit into 64 bits. Behind a minus sign the least number of 64 bits overflows: its negative is itself
where arithmetic is not checked, and the program breaks off where it is. -/

namespace WireLayout

open WireLayout.Text

def maxLong : Nat := 0x7FFFFFFFFFFFFFFF

def minLong : Int := -0x8000000000000000

namespace IntLiteral

def digit? (base : Nat) (c : Char) : Option Nat :=
  let value? :=
    if isAsciiDigit c then some (c.toNat - 48)
    else if isAsciiLower c then some (c.toNat - 87)
    else if isAsciiUpper c then some (c.toNat - 55)
    else none
  value?.filter (· < base)

def digitsFrom (base : Nat) : Nat → List Char → Option Nat
  | n, [] => some n
  | n, c :: cs => (digit? base c).bind fun d => digitsFrom base (n * base + d) cs

/-- One digit at least. -/
def digits? (base : Nat) (cs : List Char) : Option Nat :=
  if cs.isEmpty then none else digitsFrom base 0 cs

def signed? (base : Nat) : List Char → Option Int
  | '-' :: cs => ((digits? base cs).filter (· ≤ maxLong + 1)).map fun n => -(n : Int)
  | '+' :: cs => ((digits? base cs).filter (· ≤ maxLong)).map Int.ofNat
  | cs => ((digits? base cs).filter (· ≤ maxLong)).map Int.ofNat

def isSuffix (c : Char) : Bool := c = 'L' || c = 'l'

/-- The digits of a literal without its sign, suffixes and underscores, read in the base they name. -/
def magnitude? : List Char → Option Int
  | [] => none
  | '0' :: 'x' :: cs => signed? 16 cs
  | '0' :: 'X' :: cs => signed? 16 cs
  | '0' :: 'b' :: cs => signed? 2 cs
  | '0' :: 'B' :: cs => signed? 2 cs
  | '0' :: c :: cs => signed? 8 (c :: cs)
  | cs => signed? 10 cs

def body (cs : List Char) : List Char := (dropEnd isSuffix cs).filter (· ≠ '_')

/-- The negative of a number of 64 bits, within 64 bits. -/
def negate (n : Int) : Int := if n = minLong then minLong else -n

def read? (cs : List Char) : Option Int :=
  match trim isSpace cs with
  | '-' :: rest => (magnitude? (body (rest.dropWhile isSpace))).map negate
  | '+' :: rest => magnitude? (body rest)
  | rest => magnitude? (body rest)

/-- The negative of what stands behind the sign takes more than 64 bits. -/
def overflows (cs : List Char) : Bool :=
  match trim isSpace cs with
  | '-' :: rest => magnitude? (body (rest.dropWhile isSpace)) = some minLong
  | _ => false

end IntLiteral

def intLiteral? (text : String) : Option Int := IntLiteral.read? text.toList

def checkedLiteral (text : String) : Except Fault (Option Int) :=
  if IntLiteral.overflows text.toList then .error .overflow else .ok (intLiteral? text)

def maxWord : Nat := 0xFFFFFFFF

def word? (n : Int) : Option Nat := if 0 ≤ n && n ≤ maxWord then some n.toNat else none

/-- An unsigned number in decimal that is no larger than a limit; a plus sign may stand in front. -/
def decimalUpTo? (limit : Nat) (cs : List Char) : Option Nat :=
  let digits := match cs with
    | '+' :: rest => rest
    | rest => rest
  (IntLiteral.digits? 10 digits).filter (· ≤ limit)

def decimalWord? (cs : List Char) : Option Nat := decimalUpTo? maxWord cs

end WireLayout
