import WireLayout.Layout.Basic
import WireLayout.Routine.Call
import WireLayout.Routine.Statement

/-! How an expression reads a value off the wire: at a constant position, or somewhere in the variable
block, perhaps through an offset pointer. -/

namespace WireLayout.Routine

open WireLayout.Text

inductive Reading where
  | fixed (offset : Nat) (encoding : Encoding) (size : Option Nat)
  | varying (encoding : Encoding) (size : Option Nat) (slot : Option Nat)
  deriving DecidableEq, Repr

/-- A slot of the fixed block that holds an offset, and the start of the block it counts from. -/
structure OffsetPointer where
  slot : Nat
  base : Nat
  deriving DecidableEq, Repr

/-- The primitive reads of a buffer, in the order in which they are looked for. -/
def primitives : List (String × Encoding) := [
  ("getByte", .i8), ("getUnsignedByte", .u8), ("getShortLE", .i16le), ("getUnsignedShortLE", .i16le),
  ("getIntLE", .i32le), ("getUnsignedIntLE", .i32le), ("getLongLE", .i64le), ("getFloatLE", .f32le),
  ("getDoubleLE", .f64le)]

def splitPlus? (cs : List Char) : Option (List Char × List Char) :=
  match cs.dropWhile (· ≠ '+') with
  | [] => none
  | _ :: rest => some (cs.takeWhile (· ≠ '+'), rest)

/-- What the names of a routine stand for where an expression is read. -/
structure Scope where
  offsetName : List Char
  pointers : SortedMap String OffsetPointer

namespace Scope

variable (scope : Scope)

/-- A constant position: the offset, or a literal added to it. -/
def position? (argument : List Char) : Option Nat :=
  let argument := trim isSpace argument
  if argument = scope.offsetName then some 0
  else do
    let (start, added) ← splitPlus? argument
    guard (trim isSpace start = scope.offsetName)
    (IntLiteral.read? added).bind word?

def slot? (argument : List Char) : Option Nat :=
  (scope.pointers.find? (String.ofList (trim isSpace argument))).map (·.slot)

def sized (call : Call) (encoding : Encoding) (size : Option Nat) : Reading :=
  let argument := call.arguments[1]?.getD []
  match scope.position? argument with
  | some offset => .fixed offset encoding size
  | none => .varying encoding size (scope.slot? argument)

/-- A comparison with zero makes a boolean of an octet. -/
def comparesWithZero (after : List Char) : Bool :=
  (literal? ['!', '=', ' ', '0'] (skipSpaces after)).isSome

/-- The first primitive read that is called, if its position is constant. -/
def primitiveFrom (expression : List Char) : List (String × Encoding) → Option Reading
  | [] => none
  | (name, encoding) :: rest =>
    match findCall name expression with
    | none => primitiveFrom expression rest
    | some call => do
      let offset ← scope.position? (← call.arguments.head?)
      let encoding := if name = "getByte" && comparesWithZero call.after then .u8 else encoding
      some (.fixed offset encoding encoding.fixedSize?)

def primitive? (expression : List Char) : Option Reading := scope.primitiveFrom expression primitives

def secondSlot? (call : Call) : Option Nat := call.arguments[1]?.bind scope.slot?

def arrayReading (expression : List Char) : Reading :=
  .varying .array none ((findCall "peek" expression).bind scope.secondSlot?)

def stringReading (call : Call) : Reading :=
  let ascii := call.arguments.any (contains "ASCII".toList)
  .varying (if ascii then .varAscii else .varUtf8) none (scope.secondSlot? call)

def fixedStringReading? (call : Call) : Option Reading := do
  let length ← (IntLiteral.read? (← call.arguments[2]?)).bind word?
  some (scope.sized call (.fixedAscii length) (some length))

/-- An enumeration is read through its number; a signed octet counts as an unsigned one. -/
def enumReading? (call : Call) : Option Reading := do
  match ← (call.arguments.head?).bind scope.primitive? with
  | .fixed offset .i8 size => some (.fixed offset .u8 size)
  | reading => some reading

def varIntReading (call : Call) : Reading :=
  match call.arguments[1]?.bind scope.position? with
  | some offset => .fixed offset .varInt none
  | none => .varying .varInt none none

/-- The receiver of a call is a type. -/
def onType (call : Call) : Bool := call.receiver.any fun r => r.head?.any isAsciiUpper

/-- What an expression is read as, by the first call of a known name. -/
inductive Form where
  | array
  | string (call : Call)
  | fixedString (call : Call)
  | sized (call : Call) (encoding : Encoding) (size : Option Nat)
  | enumeration (call : Call)
  | varInt (call : Call)
  | primitive

def form (expression : List Char) : Form :=
  if makesArray expression then .array
  else match findCall "readVarString" expression with
  | some call => .string call
  | none => match findCall "readFixedAsciiString" expression with
  | some call => .fixedString call
  | none => match findCall "readUUID" expression with
  | some call => .sized call .uuid (some 16)
  | none => match (findCall "deserialize" expression).filter onType with
  | some call => .sized call .nested none
  | none => match findCall "fromValue" expression with
  | some call => .enumeration call
  | none => match (findCall "peek" expression).filter (·.receiver = some "VarInt".toList) with
  | some call => .varInt call
  | none => .primitive

def reading? (expression : List Char) : Option Reading :=
  match form expression with
  | .array => some (scope.arrayReading expression)
  | .string call => some (scope.stringReading call)
  | .fixedString call => scope.fixedStringReading? call
  | .sized call encoding size => some (scope.sized call encoding size)
  | .enumeration call => scope.enumReading? call
  | .varInt call => some (scope.varIntReading call)
  | .primitive => scope.primitive? expression

/-! Where a number that is read overflows. -/

def positionOverflows (argument : List Char) : Bool :=
  let argument := trim isSpace argument
  argument ≠ scope.offsetName && (splitPlus? argument).any fun (start, added) =>
    trim isSpace start = scope.offsetName && IntLiteral.overflows added

def sizedOverflows (call : Call) : Bool := scope.positionOverflows (call.arguments[1]?.getD [])

/-- The position is looked at behind a length of 32 bits only. -/
def fixedStringOverflows (call : Call) : Bool :=
  call.arguments[2]?.any fun length =>
    IntLiteral.overflows length || ((IntLiteral.read? length).bind word?).isSome && scope.sizedOverflows call

def primitiveOverflows (expression : List Char) : Bool :=
  (primitives.findSome? fun p => findCall p.1 expression).any fun call =>
    call.arguments.head?.any scope.positionOverflows

def overflows (expression : List Char) : Bool :=
  match form expression with
  | .array => false
  | .string _ => false
  | .fixedString call => scope.fixedStringOverflows call
  | .sized call _ _ => scope.sizedOverflows call
  | .enumeration call => call.arguments.head?.any scope.primitiveOverflows
  | .varInt call => call.arguments[1]?.any scope.positionOverflows
  | .primitive => scope.primitiveOverflows expression

end Scope

end WireLayout.Routine
