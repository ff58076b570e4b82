import WireLayout.Error
import WireLayout.Layout.Basic

/-! When a layout is accepted: its fields are declared and distinct, its presence bits are distinct powers
of two, and the map of bits agrees with the records. The first flaw is reported. -/

namespace WireLayout

def isPowerOfTwo (n : Nat) : Bool := 1 <<< n.log2 = n

inductive LayoutFlaw where
  | undeclared (name : String)
  | repeated (name : String)
  | badBit (bit : Nat) (name : String)
  | sharedBit (bit : Nat) (first second : String)
  | badMapping (bit : Nat)
  | undeclaredMapping (bit : Nat) (name : String)
  | disagreeing (bit own : Nat) (name : String)
  | mappedTwice (name : String)
  deriving DecidableEq, Repr

def LayoutFlaw.message : LayoutFlaw → String
  | undeclared name => s!"field '{name}' is not declared"
  | repeated name => s!"field '{name}' appears twice"
  | badBit bit name => s!"null bit {bit} of '{name}' is not a power of two"
  | sharedBit bit first second => s!"null bit {bit} shared by '{first}' and '{second}'"
  | badMapping bit => s!"null bit mapping {bit} is not a power of two"
  | undeclaredMapping bit name => s!"null bit mapping {bit} names undeclared field '{name}'"
  | disagreeing bit own name => s!"null bit mapping {bit} disagrees with bit {own} of '{name}'"
  | mappedTwice name => s!"field '{name}' is mapped to more than one null bit"

namespace Layout

/-- Checks the records in order. `names` and `bits` are those of the records before. -/
def checkFields (declared : List String) :
    List String → List (Nat × String) → List FieldLayout → Except LayoutFlaw Unit
  | _, _, [] => .ok ()
  | names, bits, f :: rest =>
    if !declared.contains f.name then .error (.undeclared f.name)
    else if names.contains f.name then .error (.repeated f.name)
    else match f.nullBit with
      | none => checkFields declared (f.name :: names) bits rest
      | some bit =>
        if !isPowerOfTwo bit then .error (.badBit bit f.name)
        else match bits.lookup bit with
          | some other => .error (.sharedBit bit other f.name)
          | none => checkFields declared (f.name :: names) ((bit, f.name) :: bits) rest

/-- The own bit of a mapped field, when it is not the bit of the mapping. -/
def otherBit? (layout : Layout) (bit : Nat) (name : String) : Option Nat :=
  ((layout.field? name).bind FieldLayout.nullBit).filter (· ≠ bit)

/-- Checks the map of bits in the order of the bits. `mapped` are the names before. -/
def checkMappings (layout : Layout) (declared : List String) :
    List String → List (Nat × String) → Except LayoutFlaw Unit
  | _, [] => .ok ()
  | mapped, (bit, name) :: rest =>
    if !isPowerOfTwo bit then .error (.badMapping bit)
    else if !declared.contains name then .error (.undeclaredMapping bit name)
    else match layout.otherBit? bit name with
      | some own => .error (.disagreeing bit own name)
      | none =>
        if mapped.contains name then .error (.mappedTwice name)
        else checkMappings layout declared (name :: mapped) rest

def check (layout : Layout) (declared : List String) : Except LayoutFlaw Unit := do
  checkFields declared [] [] layout.fields
  layout.checkMappings declared [] layout.nullBits.entries

/-- Accepts a layout for the declared names, or says why it is invalid. -/
def validate (layout : Layout) (declared : List String) : Except Error Unit :=
  (layout.check declared).mapError fun flaw => .invalidLayout layout.entity flaw.message

end Layout

end WireLayout
