import WireLayout.Text.Blank
import WireLayout.Text.Search

/-! The forms of statements that a routine is read by: presence tests, offset pointers, assignments to
members, declarations of locals, and the expressions that make arrays. -/

namespace WireLayout.Routine

open WireLayout.Text

def number? (cs : List Char) : Option (List Char × List Char) :=
  let hex := match cs with
    | '0' :: x :: rest =>
      if x = 'x' || x = 'X' then
        (run? isHexDigit rest).map fun (digits, rest) => ('0' :: x :: digits, rest)
      else none
    | _ => none
  hex <|> run? isDigit cs

structure MaskTest where
  variableName : String
  index : Option (List Char)
  mask : List Char
  deriving DecidableEq, Repr

def index? (cs : List Char) : Option (List Char × List Char) := do
  let (digits, rest) ← run? isDigit (skipSpaces (← token? "[" cs))
  some (digits, ← token? "]" rest)

/-- A test `name & mask) != 0` or `name[index] & mask) != 0`. -/
def maskTest? (_ cs : List Char) : Option (MaskTest × List Char) := do
  let (name, rest) ← name? cs
  let (index, rest) := match index? rest with
    | some (digits, rest) => (some digits, rest)
    | none => (none, rest)
  let (mask, rest) ← number? (skipSpaces (← token? "&" rest))
  let rest ← token? "0" (← token? "!=" (← token? ")" rest))
  some (⟨String.ofList name, index, mask⟩, rest)

def maskTest (condition : List Char) : Option MaskTest := (allMatches maskTest? condition).head?

def afterFinal? (cs : List Char) : Option (List Char) := do spaces? (← literal? "final".toList cs)

/-- A declaration `int name = start + base + buffer.getIntLE(`. -/
structure PointerDeclaration where
  name : String
  start : String
  base : List Char
  deriving DecidableEq, Repr

def pointerDeclaration? (statement : List Char) : Option PointerDeclaration := do
  let rest ← spaces? (← literal? "int".toList ((afterFinal? statement).getD statement))
  let (name, rest) ← run? isWordOrDollar rest
  let (start, rest) ← run? isWordOrDollar (skipSpaces (← token? "=" rest))
  let (base, rest) ← number? (skipSpaces (← token? "+" rest))
  let (_, rest) ← run? isWordOrDollar (skipSpaces (← token? "+" rest))
  let _ ← token? "(" (← token? "getIntLE" (← token? "." rest))
  some ⟨String.ofList name, String.ofList start, base⟩

/-- What stands after an assignment sign; a second sign makes it a comparison. -/
def assigned? (cs : List Char) : Option (List Char) := do
  match ← token? "=" cs with
  | [] => none
  | c :: rest => if c = '=' then none else some (c :: rest)

/-- An assignment `object.member = value`: the member and the value. -/
def memberAssignment? (statement : List Char) : Option (String × List Char) := do
  let (_, rest) ← run? isWordOrDollar statement
  let (member, rest) ← run? isWordOrDollar (skipSpaces (← token? "." rest))
  some (String.ofList member, trim isSpace (← assigned? rest))

def isTypePart (c : Char) : Bool := isWordOrDollar c || c = '.'

/-- Nothing but pairs of square brackets, with space inside and between. `inside` is set after an opening
one. -/
def onlyDimensions : Bool → List Char → Bool
  | inside, [] => !inside
  | inside, c :: cs =>
    if isSpace c then onlyDimensions inside cs
    else if inside then c = ']' && onlyDimensions false cs
    else c = '[' && onlyDimensions true cs

def afterLastAngle? (cs : List Char) : Option (List Char) :=
  if cs.contains '>' then some (cs.reverse.takeWhile (· ≠ '>')).reverse else none

/-- A type: a dotted name, type arguments, and dimensions. -/
def isType (cs : List Char) : Bool :=
  match run? isTypePart cs with
  | none => false
  | some (_, rest) =>
    match skipSpaces rest with
    | '<' :: more => (afterLastAngle? more).any (onlyDimensions false)
    | _ => onlyDimensions false rest

/-- A declaration `type name = value`: the name and the value. -/
def localDeclaration? (statement : List Char) : Option (String × List Char) := do
  let head := dropEnd isSpace (statement.takeWhile (· ≠ '='))
  let value ← assigned? (statement.dropWhile (· ≠ '='))
  let name := (head.reverse.takeWhile isWordOrDollar).reverse
  let spaced := (head.reverse.dropWhile isWordOrDollar).reverse
  let type := dropEnd isSpace spaced
  guard (!name.isEmpty && type.length ≠ spaced.length)
  guard ((afterFinal? type).any isType || isType type)
  some (String.ofList name, trim isSpace value)

def afterNew? (before cs : List Char) : Option (List Char) := do
  guard (atWordEdge before cs)
  spaces? (← literal? "new".toList cs)

/-- Type arguments without parentheses end here or later, and a square bracket follows. -/
def anglesThenBracket : List Char → Bool
  | [] => false
  | c :: cs =>
    if c = '(' || c = ')' then false
    else (c = '>' && (skipSpaces cs).head? = some '[') || anglesThenBracket cs

def startsArray (cs : List Char) : Bool :=
  match run? isTypePart cs with
  | none => false
  | some (_, rest) =>
    match skipSpaces rest with
    | '[' :: _ => true
    | '<' :: more => anglesThenBracket more
    | _ => false

def collectionWords : List (List Char) := ["Map".toList, "List".toList, "Set".toList]

/-- The name of a collection ends at some edge of a word within a dotted name. `read` is the name so
far, reversed. -/
def endsCollection : List Char → List Char → Bool
  | read, rest =>
    (collectionWords.any (fun w => (literal? w.reverse read).isSome) && !rest.head?.any isWord) ||
      match rest with
      | [] => false
      | c :: cs => isTypePart c && endsCollection (c :: read) cs

def readsOctets (before cs : List Char) : Bool :=
  (do
    guard (atWordEdge before cs)
    let rest ← literal? "read".toList cs
    (do token? "(" (← literal? "Bytes".toList rest)) <|>
      (do token? "(" (← literal? "ByteArray".toList rest)) : Option (List Char)).isSome

def makesArrayHere (before cs : List Char) : Bool :=
  (afterNew? before cs).any (fun rest => startsArray rest || endsCollection [] rest) ||
    readsOctets before cs

def makesArrayFrom (before : List Char) : List Char → Bool
  | [] => false
  | c :: cs => makesArrayHere before (c :: cs) || makesArrayFrom (c :: before) cs

/-- The expression makes an array or a collection, or reads octets into one. -/
def makesArray (expression : List Char) : Bool := makesArrayFrom [] expression

end WireLayout.Routine
