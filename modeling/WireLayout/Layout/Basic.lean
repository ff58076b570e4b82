import WireLayout.Layout.Encoding
import WireLayout.SortedMap

/-! The layout of a message: for each field its place on the wire, its size, its encoding and the presence
bit that guards it. -/

namespace WireLayout

/-- Where a field starts: an offset within the fixed block, or somewhere in the variable block. -/
inductive WireOffset where
  | fixed (offset : Nat)
  | varying
  deriving DecidableEq, Repr

inductive WireSize where
  | fixed (octets : Nat)
  | varying
  deriving DecidableEq, Repr

/-- The number that stands for a varying offset or size. -/
def varyingMark : Int := -1

namespace WireOffset

/-- A number that is no offset of 32 bits stands for a varying one. -/
def ofRaw (raw : Int) : WireOffset :=
  match word? raw with
  | some n => fixed n
  | none => varying

def toRaw : WireOffset → Int
  | fixed n => n
  | varying => varyingMark

end WireOffset

namespace WireSize

def ofRaw (raw : Int) : WireSize :=
  match word? raw with
  | some n => fixed n
  | none => varying

def toRaw : WireSize → Int
  | fixed n => n
  | varying => varyingMark

def ofNat? : Option Nat → WireSize
  | some n => fixed n
  | none => varying

end WireSize

/-- How a fact was found: read off the routine, or answered by the oracle. -/
inductive Evidence where
  | verified | inferred
  deriving DecidableEq, Repr

structure FieldLayout where
  name : String
  offset : WireOffset
  size : WireSize
  encoding : Encoding
  isVariable : Bool
  nullBit : Option Nat
  note : Option String
  evidence : Evidence
  deriving DecidableEq, Repr

structure Layout where
  entity : String
  fields : List FieldLayout
  totalFixedSize : Nat
  hasVariableSection : Bool
  variableSectionStart : Option Nat
  nullBits : SortedMap Nat String
  notes : Option String
  deriving DecidableEq, Repr

namespace Layout

def field? (layout : Layout) (name : String) : Option FieldLayout :=
  layout.fields.find? fun f => f.name = name

def countEvidence (layout : Layout) (evidence : Evidence) : Nat :=
  layout.fields.countP fun f => f.evidence = evidence

end Layout

/-- The accepted layouts by the name of the message. -/
abbrev LayoutIndex := SortedMap String Layout

end WireLayout
