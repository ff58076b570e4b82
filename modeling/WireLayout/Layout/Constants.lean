import WireLayout.Layout.IntLiteral

/-! The seven constants that a message declares about its own layout. -/

namespace WireLayout

open WireLayout.Text

structure Constants where
  packetId : Nat := 0
  isCompressed : Bool := false
  nullableBitFieldSize : Nat := 0
  fixedBlockSize : Nat := 0
  variableFieldCount : Nat := 0
  variableBlockStart : Nat := 0
  maxSize : Nat := 0
  deriving DecidableEq, Repr, Inhabited

namespace Constants

def idName : String := "PACKET_ID"

def names : List String :=
  [idName, "IS_COMPRESSED", "NULLABLE_BIT_FIELD_SIZE", "FIXED_BLOCK_SIZE", "VARIABLE_FIELD_COUNT",
    "VARIABLE_BLOCK_START", "MAX_SIZE"]

def isRecognized (name : String) : Bool := names.contains name

/-- Sets a numeric constant. All but the size limit are cut off at the largest number of 32 bits. -/
def setNumber? (constants : Constants) (name : String) (value : Nat) : Option Constants :=
  let word := min value maxWord
  match name with
  | "PACKET_ID" => some { constants with packetId := word }
  | "NULLABLE_BIT_FIELD_SIZE" => some { constants with nullableBitFieldSize := word }
  | "FIXED_BLOCK_SIZE" => some { constants with fixedBlockSize := word }
  | "VARIABLE_FIELD_COUNT" => some { constants with variableFieldCount := word }
  | "VARIABLE_BLOCK_START" => some { constants with variableBlockStart := word }
  | "MAX_SIZE" => some { constants with maxSize := value }
  | _ => none

/-- The constants with one more taken from its initialiser; none when the name or the literal is of no
use. -/
def declare? (constants : Constants) (name literal : String) : Option Constants :=
  if name = "IS_COMPRESSED" then
    match trimSpaces literal with
    | "true" => some { constants with isCompressed := true }
    | "false" => some { constants with isCompressed := false }
    | _ => none
  else
    match intLiteral? literal with
    | some (.ofNat value) => constants.setNumber? name value
    | _ => none

/-- The initialiser of a constant is read as a number, and overflows. -/
def overflows (name literal : String) : Bool :=
  name ≠ "IS_COMPRESSED" && IntLiteral.overflows literal.toList

def hexText (n : Nat) : String :=
  let digits := (Nat.toDigits 16 n).map fun c => if isAsciiLower c then Char.ofNat (c.toNat - 32) else c
  "0x" ++ String.ofList (List.replicate (2 - digits.length) '0' ++ digits)

def packetIdHex (constants : Constants) : String := hexText constants.packetId

end Constants

end WireLayout
