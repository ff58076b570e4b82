import WireLayout.Java.Declaration
import WireLayout.Java.Preamble

/-! Fields, parameters and methods of a body. Names and structure are taken from what the mask shows,
types and initialisers from the source itself. -/

namespace WireLayout.Java

open WireLayout.Text

/-- Counts the `[]` at the end of a reversed declarator and drops them, with the space around them. -/
def stripDimensions : List Cell → Nat × List Cell
  | [] => (0, [])
  | [c] => if c.isBlank then (0, []) else (0, [c])
  | b :: a :: rest =>
    if b.isBlank then stripDimensions (a :: rest)
    else if b.view = ']' && a.view = '[' then
      ((stripDimensions rest).1 + 1, (stripDimensions rest).2)
    else (0, b :: a :: rest)

def dimensions (n : Nat) : List Char := (List.replicate n ['[', ']']).flatten

/-- A type and a name, the dimensions after the name counted to the type. -/
def typedName? (cs : List Cell) : Option (String × String) :=
  let (dims, rest) := stripDimensions (trimCells cs).reverse
  let name := (rest.takeWhile Cell.isIdent).reverse
  let type := squeeze (verbatim (rest.dropWhile Cell.isIdent).reverse)
  if name.isEmpty || type.isEmpty || name.head?.any (fun c => isAsciiDigit c.view) then none
  else some (String.ofList (type ++ dimensions dims), shownText name)

def parameter? (piece : List Cell) : Option Parameter :=
  let lead := preamble piece
  (typedName? lead.rest).map fun (type, name) => ⟨lead.annotations, type, name⟩

def parameters (cs : List Cell) : List Parameter := (pieces Cell.view true ',' cs).filterMap parameter?

/-- A declarator: what stands before its assignment sign, and its initialiser. -/
def declarator (piece : List Cell) : List Cell × Option String :=
  match splitAssignment piece with
  | some (before, after) => (trimCells before, some (String.ofList (trim isSpace (verbatim after))))
  | none => (trimCells piece, none)

def bareName? (cs : List Cell) : Option String :=
  let name := trim isSpace (views cs)
  if name.isEmpty || !name.all isIdent then none else some (String.ofList name)

/-- The declarators that share the type of the first one, up to one that is no name. -/
def laterFields (template : FieldDeclaration) : List (List Cell) → List FieldDeclaration
  | [] => []
  | piece :: rest =>
    let (before, initializer) := declarator piece
    match bareName? before with
    | some name => { template with name, initializer } :: laterFields template rest
    | none => []

def fieldDeclarations (statement : List Cell) : List FieldDeclaration :=
  let lead := preamble statement
  let text := String.ofList (squeeze (verbatim statement) ++ [';'])
  match pieces Cell.view true ',' lead.rest with
  | [] => []
  | first :: rest =>
    let (before, initializer) := declarator first
    match typedName? before with
    | some (type, name) =>
      let field : FieldDeclaration := ⟨lead.annotations, lead.modifiers, type, name, initializer, text⟩
      field :: laterFields field rest
    | none => []

/-- The parts before and after the first parenthesis that stands outside angle brackets. -/
def splitAtParen : Int → List Cell → Option (List Cell × List Cell)
  | _, [] => none
  | depth, c :: cs =>
    if c.view = '(' && depth = 0 then some ([], cs)
    else
      let depth := if c.view = '<' then depth + 1 else if c.view = '>' then depth - 1 else depth
      (splitAtParen depth cs).map fun p => (c :: p.1, p.2)

/-- A method with the given header, or a constructor of the owner. -/
def method? (owner : String) (header : List Cell) (text body : String) : Option Method := do
  let lead := preamble header
  let (before, rest) ← splitAtParen 0 lead.rest
  let (inside, _) ← closing Cell.view '(' ')' 1 rest
  let reversed := (trimCells before).reverse
  let name := shownText (reversed.takeWhile Cell.isIdent).reverse
  let result := squeeze (verbatim (reversed.dropWhile Cell.isIdent).reverse)
  guard (!name.isEmpty)
  guard (!result.isEmpty || name = owner)
  some {
    annotations := lead.annotations
    modifiers := lead.modifiers
    returnType := if result.isEmpty then none else some (String.ofList result)
    name
    parameters := parameters inside
    text
    body }

/-- The statement declares a method without a body: a parenthesis stands before any assignment. -/
def isBodiless (statement : List Cell) : Bool :=
  match splitAssignment statement with
  | some (before, _) => before.any fun c => c.view = '('
  | none => statement.any fun c => c.view = '('

end WireLayout.Java
