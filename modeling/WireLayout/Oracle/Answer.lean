import WireLayout.Bundle
import WireLayout.Json.Printer
import WireLayout.Layout.Validity

/-! The answers of an oracle: their decoding from JSON, and their normalisation to layouts. An object may
also be given as the array of its members in order. Marks of absence become absent values, and all
facts count as inferred. -/

namespace WireLayout.Oracle

open WireLayout.Text

structure RawField where
  name : String
  offset : Int
  size : Int
  encoding : String
  isVariable : Bool
  nullBit : Option Int
  note : Option String

structure RawMapping where
  bit : Json
  name : String

structure RawLayout where
  fields : List RawField
  totalFixedSize : Int
  hasVariableSection : Bool
  variableSectionStart : Option Int
  mappings : List RawMapping
  notes : Option String

/-- The members of a value that are looked for: by name in an object, by position in an array that is not
longer. Missing members are none. -/
def members? (keys : List String) : Json → Option (List (Option Json))
  | .obj members => some (keys.map fun key => members.lookup key)
  | .arr items =>
    if items.length ≤ keys.length then
      some (items.map some ++ List.replicate (keys.length - items.length) none)
    else none
  | _ => none

def int? : Json → Option Int
  | .int n => if -(maxLong + 1 : Int) ≤ n && n ≤ maxLong then some n else none
  | _ => none

def bool? : Json → Option Bool
  | .bool b => some b
  | _ => none

def withDefault {α : Type} (read : Json → Option α) (default : α) : Option Json → Option α
  | none => some default
  | some value => read value

def nullable {α : Type} (read : Json → Option α) : Option Json → Option (Option α)
  | none => some none
  | some .null => some none
  | some value => (read value).map some

def RawField.decode? (value : Json) : Option RawField := do
  match ← members? ["name", "wireOffset", "wireSize", "encoding", "isVariable", "nullBit", "notes"] value with
  | [name, offset, size, encoding, isVariable, nullBit, notes] =>
    some {
      name := ← (← name).str?
      offset := ← withDefault int? varyingMark offset
      size := ← withDefault int? varyingMark size
      encoding := ← (← encoding).str?
      isVariable := ← withDefault bool? false isVariable
      nullBit := ← nullable int? nullBit
      note := ← nullable Json.str? notes }
  | _ => none

def RawMapping.decode? (value : Json) : Option RawMapping := do
  match ← members? ["bit", "fieldName"] value with
  | [bit, name] => some { bit := ← bit, name := ← (← name).str? }
  | _ => none

def listOf {α : Type} (read : Json → Option α) (value : Json) : Option (List α) := do
  (← value.arr?).mapM read

def RawLayout.decode? (value : Json) : Option RawLayout := do
  match ← members? ["fields", "totalFixedSize", "hasVariableSection", "variableSectionStart",
      "nullBitMappings", "notes"] value with
  | [fields, totalFixedSize, hasVariableSection, variableSectionStart, mappings, notes] =>
    some {
      fields := ← listOf RawField.decode? (← fields)
      totalFixedSize := ← withDefault int? 0 totalFixedSize
      hasVariableSection := ← withDefault bool? false hasVariableSection
      variableSectionStart := ← nullable int? variableSectionStart
      mappings := ← withDefault (listOf RawMapping.decode?) [] mappings
      notes := ← nullable Json.str? notes }
  | _ => none

def decode (entity : String) (value : Json) : Except Error RawLayout :=
  match RawLayout.decode? value with
  | some raw => .ok raw
  | none => .error (.malformedResponse entity "the answer does not have the shape of a layout")

def positiveBit? (n : Int) : Option Nat := (word? n).filter (0 < ·)

def mappedBit? : Json → Option Nat
  | .int n => (int? (.int n)).bind positiveBit?
  | .str text => (intLiteral? text).bind positiveBit?
  | _ => none

def bitOverflows : Json → Bool
  | .str text => IntLiteral.overflows text.toList
  | _ => false

def nonEmpty (text : Option String) : Option String :=
  (text.map trimSpaces).filter fun t => !t.isEmpty

def RawField.layout (entity : String) (raw : RawField) : Except Error FieldLayout :=
  match Encoding.ofTag raw.encoding with
  | .error fault => .error (.malformedResponse entity s!"field '{raw.name}': {fault.message}")
  | .ok encoding => .ok {
      name := raw.name
      offset := .ofRaw raw.offset
      size := .ofRaw raw.size
      encoding
      isVariable := raw.isVariable
      nullBit := raw.nullBit.bind positiveBit?
      note := nonEmpty raw.note
      evidence := .inferred }

def addMapping (entity : String) (bits : SortedMap Nat String) (m : RawMapping) :
    Except Error (SortedMap Nat String) :=
  match mappedBit? m.bit with
  | none => .error (.malformedResponse entity s!"unreadable bit {m.bit.compact} for '{m.name}'")
  | some bit =>
    match bits.find? bit with
    | some previous =>
      .error (.malformedResponse entity s!"bit {m.bit.compact} mapped to both '{previous}' and '{m.name}'")
    | none =>
      if bits.values.contains m.name then
        .error (.malformedResponse entity s!"field '{m.name}' mapped to more than one bit")
      else .ok (bits.insert bit m.name)

def takeMapping (entity : String) (bits : SortedMap Nat String) (m : RawMapping) :
    Except (Abort Error) (SortedMap Nat String) :=
  if bitOverflows m.bit then .error (.broken .overflow) else (addMapping entity bits m).mapError .failed

def normalize (b : Bundle) (raw : RawLayout) : Except (Abort Error) Layout := do
  let fields ← (raw.fields.mapM (RawField.layout b.entity)).mapError .failed
  let nullBits ← raw.mappings.foldlM (takeMapping b.entity) ∅
  let layout : Layout := {
    entity := b.entity
    fields
    totalFixedSize := min raw.totalFixedSize.toNat maxWord
    hasVariableSection := raw.hasVariableSection
    variableSectionStart := raw.variableSectionStart.bind word?
    nullBits
    notes := nonEmpty raw.notes }
  (layout.validate b.fieldNames).mapError .failed
  .ok layout

def readAnswer (b : Bundle) (value : Json) : Except (Abort Error) Layout := do
  normalize b (← (decode b.entity value).mapError .failed)

end WireLayout.Oracle
