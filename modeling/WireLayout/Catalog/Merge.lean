import WireLayout.Catalog.Basic
import WireLayout.FieldList

/-! From parsed files to a catalog. Enumerations and data types outside the directory of the packets come
before those inside it, and the first of a name stays; messages are found inside it only. -/

namespace WireLayout

open WireLayout.Java

structure SourceUnit where
  path : String
  inPackets : Bool
  category : String
  file : SourceFile

namespace Catalog

def entityId (unit : SourceUnit) (decl : TypeDeclaration) : EntityId :=
  ⟨decl.name, unit.file.package, unit.category, unit.path⟩

/-- The interface of every message, and the end of names that stand for messages. -/
def messageName : String := "Packet"

def isCandidate (decl : TypeDeclaration) : Bool :=
  decl.kind = .classType || decl.kind = .recordType

/-- A message implements the interface or declares its number. -/
def isMessage (decl : TypeDeclaration) : Bool :=
  decl.implementsNamed messageName ||
    decl.fields.any fun f => f.isStatic && f.name = Constants.idName

def enumerationOf (unit : SourceUnit) (decl : TypeDeclaration) : Enumeration :=
  ⟨entityId unit decl, FieldList.enumVariants decl.constants⟩

def dataTypeOf (unit : SourceUnit) (decl : TypeDeclaration) : DataType :=
  ⟨entityId unit decl, FieldList.declaredFields decl, unit.file.imports⟩

def messageOf (unit : SourceUnit) (decl : TypeDeclaration) : Message :=
  let id := entityId unit decl
  let constants := FieldList.layoutConstants decl
  let fields := FieldList.messageFields decl
  ⟨id, constants, fields, unit.file.imports, Bundle.build id decl fields constants⟩

/-- The enumerations that a file declares, nested ones included. -/
def enumDeclarations (unit : SourceUnit) : List TypeDeclaration :=
  unit.file.allTypes.filter fun d => d.kind = .enumType

def unitEnumerations (unit : SourceUnit) : List (String × Enumeration) :=
  (enumDeclarations unit).map fun d => (d.name, enumerationOf unit d)

def unitDataTypes (unit : SourceUnit) : List (String × DataType) :=
  (unit.file.types.filter fun d =>
    isCandidate d && !isMessage d && !d.name.endsWith messageName).map fun d => (d.name, dataTypeOf unit d)

def messageDeclarations (unit : SourceUnit) : List TypeDeclaration :=
  unit.file.types.filter fun d => isCandidate d && isMessage d

def unitMessages (unit : SourceUnit) : List (String × Message) :=
  (messageDeclarations unit).map fun d => (unit.category, messageOf unit d)

/-- The first entry of a name stays. -/
def firstOf {α : Type} (entries : List (String × α)) : SortedMap String α :=
  entries.foldl (fun m e => m.insertNew e.1 e.2) ∅

def grouped {α : Type} (entries : List (String × α)) : SortedMap String (List α) :=
  entries.foldl (fun m e => m.insert e.1 (((m.find? e.1).getD []) ++ [e.2])) ∅

/-- Messages are ordered by number, then by name. -/
def messageLe (a b : Message) : Bool :=
  a.constants.packetId < b.constants.packetId ||
    (a.constants.packetId = b.constants.packetId && a.id.name ≤ b.id.name)

def ofUnits (units : List SourceUnit) : Catalog :=
  let outside := units.filter fun u => !u.inPackets
  let inside := units.filter fun u => u.inPackets
  { messages := (grouped (inside.flatMap unitMessages)).mapValues (·.mergeSort messageLe)
    enumerations := firstOf ((outside ++ inside).flatMap unitEnumerations)
    dataTypes := firstOf ((outside ++ inside).flatMap unitDataTypes) }

/-- A number of a message, or of the first enumeration of a name, overflows. -/
def overflows (units : List SourceUnit) : Bool :=
  let outside := units.filter fun u => !u.inPackets
  let inside := units.filter fun u => u.inPackets
  (inside.flatMap messageDeclarations).any FieldList.constantsOverflow ||
    (firstOf (((outside ++ inside).flatMap enumDeclarations).map fun d => (d.name, d))).values.any fun d =>
      FieldList.variantsOverflow d.constants

end Catalog

end WireLayout
