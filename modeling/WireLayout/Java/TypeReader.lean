import WireLayout.Java.Header

/-! Reading a type from its header and body. A nested type lies in the body of a segment of the body, so
reading ends because bodies get shorter. -/

namespace WireLayout.Java

open WireLayout.Text

inductive Member where
  | field (f : FieldDeclaration)
  | constructor (m : Method)
  | method (m : Method)
  | nested (t : TypeDeclaration)

namespace Member

def field? : Member → Option FieldDeclaration
  | field f => some f
  | _ => none

def constructor? : Member → Option Method
  | constructor m => some m
  | _ => none

def method? : Member → Option Method
  | method m => some m
  | _ => none

def nested? : Member → Option TypeDeclaration
  | nested t => some t
  | _ => none

end Member

/-- A statement declares fields or a method without a body. -/
def statementMembers (owner : String) (cells : List Cell) : List Member :=
  let statement := trimCells cells
  if statement.isEmpty then []
  else if isBodiless statement then
    match method? owner statement (sourceText statement) "" with
    | some m => [.method m]
    | none => []
  else (fieldDeclarations statement).map .field

/-- A block that is no type declares a method or a constructor. -/
def blockMembers (owner : String) (header body : List Cell) : List Member :=
  let text := String.ofList (verbatim (dropBlank header) ++ '{' :: verbatim body ++ ['}'])
  match method? owner (trimCells header) text (sourceText body) with
  | some m => if m.returnType.isNone then [.constructor m] else [.method m]
  | none => []

def isInitializer (header : List Cell) : Bool :=
  let text := views (trimCells header)
  text.isEmpty || text = "static".toList

/-- The constructor that the components of a record stand for. -/
def recordConstructor (name : String) (header components : List Cell) : Method := {
  annotations := []
  modifiers := ["public"]
  returnType := none
  name
  parameters := parameters components
  text := String.ofList (squeeze (verbatim header))
  body := "" }

def splitBody (kind : TypeKind) (body : List Cell) : List Cell × List Cell :=
  if kind = .enumType then splitConstants (items Cell.view closer? body) else ([], body)

theorem length_splitBody_le (kind : TypeKind) (body : List Cell) :
    (splitBody kind body).2.length ≤ body.length := by
  unfold splitBody
  split
  · have h1 := length_splitConstants_le (items Cell.view closer? body)
    have h2 := length_items_le Cell.view closer? body
    omega
  · simp

/-- The type that a header and a body declare, if the header is one of a type. -/
def typeDeclaration? (header body : List Cell) : Option TypeDeclaration :=
  let lead := preamble header
  match heading? lead.rest with
  | none => none
  | some heading =>
    let name := heading.name
    let after := afterTypeParameters heading.after
    let record := if heading.kind = .recordType then components? after else none
    let tail := words (views ((record.map (·.2)).getD after))
    let members := (segments (splitBody heading.kind body).2).attach.flatMap fun ⟨segment, h⟩ =>
      match segment, h with
      | .statement cells, _ => statementMembers name cells
      | .block inner block, h =>
        have : block.length < body.length :=
          Nat.lt_of_lt_of_le (length_block_lt h) (length_splitBody_le heading.kind body)
        if isInitializer inner then []
        else match typeDeclaration? inner block with
          | some t => [.nested t]
          | none => blockMembers name inner block
    some {
      kind := heading.kind
      name
      modifiers := lead.modifiers
      superclasses := clause tail "extends" ["implements", "permits"]
      interfaces := clause tail "implements" ["permits"]
      fields := members.filterMap Member.field?
      constructors := (record.map fun r => recordConstructor name header r.1).toList ++
        members.filterMap Member.constructor?
      methods := members.filterMap Member.method?
      constants :=
        if heading.kind = .enumType then enumConstants (splitBody heading.kind body).1 else []
      nested := members.filterMap Member.nested? }
termination_by body.length

end WireLayout.Java
