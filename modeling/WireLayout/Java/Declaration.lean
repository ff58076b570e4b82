import WireLayout.Text.Blank

/-! What a source file declares: types with their fields, constructors, methods and enum constants. Types
and initialisers are kept as the text of the source. -/

namespace WireLayout.Java

open WireLayout.Text

inductive TypeKind where
  | classType | interfaceType | enumType | recordType
  deriving DecidableEq, Repr

structure Parameter where
  annotations : List String
  type : String
  name : String
  deriving DecidableEq, Repr

/-- A method, or a constructor when it has no return type. -/
structure Method where
  annotations : List String
  modifiers : List String
  returnType : Option String
  name : String
  parameters : List Parameter
  text : String
  body : String
  deriving DecidableEq, Repr

structure FieldDeclaration where
  annotations : List String
  modifiers : List String
  type : String
  name : String
  initializer : Option String
  text : String
  deriving DecidableEq, Repr

structure EnumConstant where
  name : String
  arguments : List String
  deriving DecidableEq, Repr

structure TypeDeclaration where
  kind : TypeKind
  name : String
  modifiers : List String
  superclasses : List String
  interfaces : List String
  fields : List FieldDeclaration
  constructors : List Method
  methods : List Method
  constants : List EnumConstant
  nested : List TypeDeclaration
  deriving Repr

structure SourceFile where
  package : String
  imports : List String
  types : List TypeDeclaration
  deriving Repr

def dropDimensions : List Char → List Char
  | ']' :: '[' :: rest => dropDimensions rest
  | cs => cs

def lastPart (cs : List Char) : List Char := (cs.reverse.takeWhile (· ≠ '.')).reverse

/-- A type without qualification, type arguments and array dimensions. -/
def simpleTypeName (type : String) : String :=
  let base := trim isSpace (type.toList.takeWhile (· ≠ '<'))
  String.ofList (lastPart (trim isSpace (dropDimensions base.reverse).reverse))

def hasNullable (annotations : List String) : Bool :=
  annotations.any fun a => simpleTypeName a = "Nullable"

def Parameter.isNullable (p : Parameter) : Bool := hasNullable p.annotations

def Method.isStatic (m : Method) : Bool := m.modifiers.contains "static"

namespace FieldDeclaration

def isStatic (f : FieldDeclaration) : Bool := f.modifiers.contains "static"

def isFinal (f : FieldDeclaration) : Bool := f.modifiers.contains "final"

def isNullable (f : FieldDeclaration) : Bool := hasNullable f.annotations

end FieldDeclaration

namespace TypeDeclaration

def method? (decl : TypeDeclaration) (name : String) : Option Method :=
  decl.methods.find? fun m => m.name = name

def implementsNamed (decl : TypeDeclaration) (name : String) : Bool :=
  (decl.interfaces ++ decl.superclasses).any fun type => simpleTypeName type = name

mutual

def withNested : TypeDeclaration → List TypeDeclaration
  | decl@⟨_, _, _, _, _, _, _, _, _, nested⟩ => decl :: allNested nested

def allNested : List TypeDeclaration → List TypeDeclaration
  | [] => []
  | decl :: rest => withNested decl ++ allNested rest

end

end TypeDeclaration

def SourceFile.allTypes (file : SourceFile) : List TypeDeclaration :=
  TypeDeclaration.allNested file.types

end WireLayout.Java
