import WireLayout.Entity
import WireLayout.Java.Declaration
import WireLayout.Java.Mask
import WireLayout.SortedMap
import WireLayout.Text.Search

/-! The context of a message: its routine for reading itself, with the constants, fields, helpers and
calls that are needed to understand it, and the text of all that for the oracle. -/

namespace WireLayout

open WireLayout.Java WireLayout.Text

structure CallTarget where
  receiver : String
  method : String
  deriving DecidableEq, Repr

namespace CallTarget

instance : Ord CallTarget := ⟨compareLex (compareOn receiver) (compareOn method)⟩

instance : Std.TransOrd CallTarget :=
  inferInstanceAs (Std.TransCmp (compareLex (compareOn receiver) (compareOn method)))

instance : Std.LawfulEqOrd CallTarget where
  eq_of_compare {a b} h := by
    obtain ⟨h1, h2⟩ := Ordering.then_eq_eq.1 (show (compare a.receiver b.receiver).then
      (compare a.method b.method) = .eq from h)
    cases a; cases b
    exact CallTarget.mk.injEq .. ▸ ⟨Std.LawfulEqOrd.eq_of_compare h1, Std.LawfulEqOrd.eq_of_compare h2⟩

def text (t : CallTarget) : String := s!"{t.receiver}.{t.method}"

end CallTarget

/-- The name of the routine that a message reads itself with. -/
def routineName : String := "deserialize"

/-- Helpers that are kept even when the routine does not call them: they compute lengths. -/
def lengthHelpers : List String := ["computeBytesConsumed", "computeSize"]

def nestedMethods : List String := ["deserialize", "fromValue"]

def reference : String :=
  "buf.getByte(i)          1 byte, signed; `!= 0` reads it as a boolean\n" ++
  "buf.getUnsignedByte(i)  1 byte, unsigned\n" ++
  "buf.getShortLE(i)       2 bytes, little-endian signed\n" ++
  "buf.getIntLE(i)         4 bytes, little-endian signed\n" ++
  "buf.getLongLE(i)        8 bytes, little-endian signed\n" ++
  "buf.getFloatLE(i)       4 bytes, little-endian IEEE 754\n" ++
  "buf.getDoubleLE(i)      8 bytes, little-endian IEEE 754\n" ++
  "VarInt.peek(buf, i)     self-delimiting variable-length integer (1-5 bytes)\n" ++
  "VarInt.size(n)          encoded width of n as a VarInt\n" ++
  "PacketIO.readUUID(buf, i)                   16 bytes, two little-endian longs\n" ++
  "PacketIO.readFixedAsciiString(buf, i, n)    n bytes of ASCII, zero padded\n" ++
  "PacketIO.readVarString(buf, i, charset)     VarInt length prefix followed by bytes\n" ++
  "offset + K + buf.getIntLE(offset + K)       4-byte pointer into the variable block"

structure Bundle where
  entity : String
  package : String
  constants : Constants
  constantDeclarations : List String := []
  fields : List Field
  routine : String
  helpers : List String := []
  helperCalls : SortedMap CallTarget Unit := ∅
  nestedCalls : SortedMap CallTarget Unit := ∅
  deriving DecidableEq, Repr

namespace Bundle

/-- A call of a bare name, and whether a point stands before the name. -/
def bareCall? (before cs : List Char) : Option ((String × Bool) × List Char) := do
  guard (atWordEdge before cs)
  let (name, rest) ← name? cs
  let rest ← token? "(" rest
  some ((String.ofList name, (skipSpaces before).head? = some '.'), rest)

def qualifiedCall? (before cs : List Char) : Option (CallTarget × List Char) := do
  guard (atWordEdge before cs)
  let (receiver, rest) ← name? cs
  let (method, rest) ← name? (skipSpaces (← token? "." rest))
  let rest ← token? "(" rest
  some (⟨String.ofList receiver, String.ofList method⟩, rest)

def ownCalls (owner : String) (shown : List Char) : List String :=
  ((allMatches bareCall? shown).filter fun c => !c.2).map (·.1) ++
    ((allMatches qualifiedCall? shown).filter fun t => t.receiver = owner).map (·.method)

def foreignCalls (owner : String) (shown : List Char) : List CallTarget :=
  (allMatches qualifiedCall? shown).filter fun t =>
    t.receiver ≠ owner && t.receiver.toList.head?.any isAsciiUpper

def callSet (calls : List CallTarget) : SortedMap CallTarget Unit :=
  SortedMap.ofList (calls.map fun t => (t, ()))

/-- The declarations of recognised constants, each text once. -/
def constantTexts (decl : TypeDeclaration) : List String :=
  ((decl.fields.filter fun f => f.isStatic && Constants.isRecognized f.name).map (·.text)).foldl
    (fun texts t => if texts.contains t then texts else texts ++ [t]) []

def helperTexts (decl : TypeDeclaration) (called : List String) : List String :=
  (decl.methods.filter fun m =>
    m.isStatic && m.name ≠ routineName && (called.contains m.name || lengthHelpers.contains m.name)).map
    (·.text)

def build (id : EntityId) (decl : TypeDeclaration) (fields : List Field) (constants : Constants) :
    Option Bundle :=
  (decl.method? routineName).map fun routine =>
    let shown := views (cells routine.text.toList)
    let foreign := foreignCalls decl.name shown
    { entity := id.name
      package := id.package
      constants
      constantDeclarations := constantTexts decl
      fields
      routine := routine.text
      helpers := helperTexts decl (ownCalls decl.name shown)
      helperCalls := callSet (foreign.filter fun t => !nestedMethods.contains t.method)
      nestedCalls := callSet (foreign.filter fun t => nestedMethods.contains t.method) }

def fieldNames (b : Bundle) : List String := b.fields.map (·.name)

def trimEnd (text : String) : String := String.ofList (dropEnd isSpace text.toList)

def fieldLine (f : Field) : String :=
  let marker := if f.nullable then "@Nullable" else "@Nonnull"
  s!"- {marker} {f.name}: {f.type}\n"

/-- A titled section, left out when it is empty. -/
def titled (title : String) (lines : List String) : String :=
  if lines.isEmpty then "" else s!"\n{title}:\n" ++ String.join lines

def render (b : Bundle) : String :=
  s!"ENTITY: {b.entity}\n" ++
  (if b.package.isEmpty then "" else s!"NAMESPACE: {b.package}\n") ++
  titled "CONSTANTS" (b.constantDeclarations.map (· ++ "\n")) ++
  titled "FIELDS" (b.fields.map fieldLine) ++
  s!"\nDESERIALIZE METHOD:\n{trimEnd b.routine}\n" ++
  titled "STATIC HELPER METHODS" (b.helpers.map fun h => trimEnd h ++ "\n\n") ++
  titled "EXTERNAL DEPENDENCIES"
    (b.helperCalls.keys.map (fun t => s!"- helper: {t.text}\n") ++
      b.nestedCalls.keys.map (fun t => s!"- nested type: {t.text}\n")) ++
  s!"\nREFERENCE:\n{reference}\n"

end Bundle

end WireLayout
