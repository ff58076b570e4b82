import WireLayout.Entity
import WireLayout.Java.Declaration
import WireLayout.SortedMap
import WireLayout.Text.Case
import WireLayout.Text.Search

/-! The fields of an entity, the values of an enumeration and the constants of a message, taken from the
declaration of a type. The fullest constructor gives a message its fields in the order of the wire. -/

namespace WireLayout

open WireLayout.Java WireLayout.Text

namespace FieldList

/-- Names that never stand for data on the wire. -/
def ignoredNames : List String := ["VALUES", "value"]

def isCopyConstructor (m : Method) (owner : String) : Bool :=
  match m.parameters with
  | [p] => simpleTypeName p.type = owner
  | _ => false

/-- The longer of two parameter lists, the earlier of two equally long ones. -/
def fuller (best : Option Method) (m : Method) : Option Method :=
  match best with
  | some b => if m.parameters.length ≤ b.parameters.length then some b else some m
  | none => some m

/-- The constructor with the most parameters, copy constructors and empty ones aside. -/
def selectConstructor (decl : TypeDeclaration) : Option Method :=
  (decl.constructors.filter fun m => !m.parameters.isEmpty && !isCopyConstructor m decl.name).foldl
    fuller none

/-- A call that reports a text or list over a limit: the name of the field and the limit. -/
def tooLongCall? (_ cs : List Char) : Option ((String × Option Nat) × List Char) := do
  let rest ← (literal? "string".toList cs) <|> (literal? "array".toList cs)
  let rest ← token? "(" (← literal? "TooLong".toList rest)
  let (name, rest) ← run? isWord (← token? "\"" rest)
  let rest ← token? "," (← literal? ['"'] rest)
  let (_, rest) ← run? isNamePart (skipSpaces rest)
  let rest ← token? "," rest
  let (digits, rest) ← run? isDigit (skipSpaces rest)
  let rest ← token? ")" rest
  some ((String.ofList name, decimalWord? digits), rest)
where
  isNamePart (c : Char) : Bool := isWord c || c = '.'

/-- The limits that the methods and constructors of a type check, by lower-case name. -/
def lengthBounds (decl : TypeDeclaration) : SortedMap String Nat :=
  SortedMap.ofList <| (decl.methods ++ decl.constructors).flatMap fun m =>
    (allMatches tooLongCall? m.text.toList).filterMap fun (name, limit) =>
      limit.map fun n => (lowercase name, n)

def withBounds (decl : TypeDeclaration) (fields : List Field) : List Field :=
  let bounds := lengthBounds decl
  if bounds.isEmpty then fields
  else fields.map fun f =>
    match bounds.find? (lowercase f.name) with
    | some limit => { f with maxLength := some limit }
    | none => f

def ofDeclaration (f : FieldDeclaration) : Field :=
  { name := f.name, type := f.type, nullable := f.isNullable, defaultValue := f.initializer }

def declaredFields (decl : TypeDeclaration) : List Field :=
  (decl.fields.filter fun f => !f.isStatic && !ignoredNames.contains f.name).map ofDeclaration

def declaration? (decl : TypeDeclaration) (name : String) : Option FieldDeclaration :=
  decl.fields.reverse.find? fun f => !f.isStatic && f.name = name

def ofParameter (decl : TypeDeclaration) (p : Parameter) : Field :=
  let declared := declaration? decl p.name
  { name := p.name
    type := p.type
    nullable := p.isNullable || declared.any (·.isNullable)
    defaultValue := declared.bind (·.initializer) }

/-- The fields of a message: the parameters of its fullest constructor, or the declared fields. -/
def messageFields (decl : TypeDeclaration) : List Field :=
  withBounds decl <|
    match selectConstructor decl with
    | some m => m.parameters.map (ofParameter decl)
    | none => declaredFields decl

/-- The value of a constant: its first argument if that is an integer, otherwise its position. -/
def enumVariants (constants : List EnumConstant) : List EnumVariant :=
  constants.zipIdx.map fun (c, i) => ⟨c.name, (c.arguments.head?.bind intLiteral?).getD i⟩

def variantsOverflow (constants : List EnumConstant) : Bool :=
  constants.any fun c => c.arguments.head?.any fun text => IntLiteral.overflows text.toList

/-- Takes a static final declaration into the constants, if it is of use. -/
def applyConstant (constants : Constants) (f : FieldDeclaration) : Constants :=
  if f.isStatic && f.isFinal then
    ((f.initializer.bind fun literal => constants.declare? f.name literal)).getD constants
  else constants

def layoutConstants (decl : TypeDeclaration) : Constants := decl.fields.foldl applyConstant {}

def constantsOverflow (decl : TypeDeclaration) : Bool :=
  decl.fields.any fun f => f.isStatic && f.isFinal && Constants.isRecognized f.name &&
    f.initializer.any (Constants.overflows f.name)

end FieldList

end WireLayout
