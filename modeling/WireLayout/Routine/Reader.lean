import WireLayout.Layout.Validity
import WireLayout.Routine.Reading

/-! The reader of a routine, statement by statement. It collects, for each declared field, how the first
recognised assignment reads it and which presence bit guards it. -/

namespace WireLayout.Routine

open WireLayout.Java WireLayout.Text

/-- A field with the read that gives it its value and the bit that guards the read. -/
structure Fact where
  name : String
  reading : Reading
  nullBit : Option Nat
  deriving DecidableEq, Repr

def Fact.offset? (f : Fact) : Option Nat :=
  match f.reading with
  | .fixed offset _ _ => some offset
  | .varying .. => none

/-- What has been read so far. The facts are in the order of reading, the locals with the latest
first. -/
structure Reader where
  offsetName : List Char
  declared : List String
  flags : List String := []
  locals : List (List Char × Reading) := []
  pointers : SortedMap String OffsetPointer := ∅
  facts : List Fact := []
  deriving DecidableEq

namespace Reader

def scope (r : Reader) : Scope := ⟨r.offsetName, r.pointers⟩

def lowerName (name : String) : List Char := name.toList.map asciiLower

/-- The variable holds presence bits, by its name or because it was read first. -/
def isFlags (r : Reader) (name : String) : Bool :=
  r.flags.contains name || contains "null".toList (lowerName name) ||
    contains "flag".toList (lowerName name)

/-- The bit that a mask means in the octet of an index: one bit within 32. -/
def bitAt? (index mask : Nat) : Option Nat :=
  if index < 4 then
    let bit := (mask <<< (8 * index)) % (maxWord + 1)
    if isPowerOfTwo bit then some bit else none
  else none

def guard? (r : Reader) (condition : List Char) : Option Nat := do
  let test ← maskTest condition
  guard (r.isFlags test.variableName)
  let index ← match test.index with
    | some digits => decimalWord? digits
    | none => some 0
  let mask ← (IntLiteral.read? test.mask).bind word?
  bitAt? index mask

/-- A declaration of an offset pointer: its name, its base, and the argument that gives its slot. -/
def pointerParts? (r : Reader) (statement : List Char) : Option (String × Nat × List Char) := do
  let declaration ← pointerDeclaration? statement
  guard (declaration.start.toList = r.offsetName)
  let base ← (IntLiteral.read? declaration.base).bind word?
  let call ← findCall "getIntLE" statement
  some (declaration.name, base, ← call.arguments.head?)

def pointer? (r : Reader) (statement : List Char) : Option (String × OffsetPointer) := do
  let (name, base, argument) ← r.pointerParts? statement
  let slot ← r.scope.position? argument
  some (name, ⟨slot, base⟩)

def valueReading? (r : Reader) (value : List Char) : Option Reading :=
  r.locals.lookup value <|> r.scope.reading? value

def assign (r : Reader) (member : String) (value : List Char) (nullBit : Option Nat) : Reader :=
  if r.declared.contains member && !r.facts.any (·.name = member) then
    match r.valueReading? value with
    | some reading => { r with facts := r.facts ++ [⟨member, reading, nullBit⟩] }
    | none => r
  else r

def atStart : Reading → Bool
  | .fixed 0 _ _ => true
  | _ => false

/-- A declaration of a local. One that is read at the start before any field holds presence bits. -/
def declareLocal (r : Reader) (name : String) (value : List Char) : Reader :=
  match r.scope.reading? value with
  | some reading =>
    let flags := if atStart reading && r.facts.isEmpty then name :: r.flags else r.flags
    { r with flags, locals := (name.toList, reading) :: r.locals }
  | none => r

def simpleStatement (r : Reader) (nullBit : Option Nat) (statement : List Char) : Reader :=
  if statement.isEmpty then r
  else match r.pointer? statement with
  | some (name, pointer) => { r with pointers := r.pointers.insert name pointer }
  | none => match memberAssignment? statement with
  | some (member, value) => r.assign member value nullBit
  | none => match localDeclaration? statement with
  | some (name, value) => r.declareLocal name value
  | none => r

/-- A statement without its condition reads a number that overflows. -/
def simpleOverflows (r : Reader) (statement : List Char) : Bool :=
  if statement.isEmpty then false
  else if (r.pointerParts? statement).any fun p => r.scope.positionOverflows p.2.2 then true
  else if (r.pointer? statement).isSome then false
  else match memberAssignment? statement with
  | some (member, value) =>
    r.declared.contains member && !r.facts.any (·.name = member) && (r.locals.lookup value).isNone &&
      r.scope.overflows value
  | none => (localDeclaration? statement).any fun (_, value) => r.scope.overflows value

def afterElse? (statement : List Char) : Option (List Char) := do
  let rest ← literal? "else".toList statement
  guard (!rest.head?.any fun c => isAsciiLetter c || isAsciiDigit c || c = '_')
  some (skipSpaces rest)

def afterIf? (statement : List Char) : Option (List Char) := do
  literal? ['('] (skipSpaces (← literal? "if".toList statement))

end Reader

/-- A statement taken apart: whether it follows an `else`, its condition, and what is under the condition. -/
structure Statement where
  afterElse : Bool
  condition : Option (List Char)
  body : List Char
  deriving DecidableEq, Repr

namespace Statement

/-- None when the condition has no end. -/
def parse? (text : List Char) : Option Statement :=
  let (afterElse, text) := match Reader.afterElse? (trim isSpace text) with
    | some rest => (true, rest)
    | none => (false, trim isSpace text)
  match Reader.afterIf? text with
  | none => some ⟨afterElse, none, text⟩
  | some rest => (closing id '(' ')' 1 rest).map fun (inside, after) =>
      ⟨afterElse, some ('(' :: inside ++ [')']), skipSpaces after⟩

/-- The bit that guards the body, where the blocks around the statement have a guard. A leading `else` lifts
it, and a condition of its own replaces it when it tests a presence bit. -/
def guardUnder (st : Statement) (r : Reader) (nullBit : Option Nat) : Option Nat :=
  st.condition.bind r.guard? <|> if st.afterElse then none else nullBit

end Statement

namespace Reader

/-- Runs the body of a statement under its guard; one that cannot be taken apart is passed over. -/
def statement (r : Reader) (nullBit : Option Nat) (text : List Char) : Reader :=
  match Statement.parse? text with
  | none => r
  | some st => r.simpleStatement (st.guardUnder r nullBit) st.body

def overflows (r : Reader) (text : List Char) : Bool :=
  (Statement.parse? text).any fun st => r.simpleOverflows st.body

end Reader

end WireLayout.Routine
