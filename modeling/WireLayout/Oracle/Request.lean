import WireLayout.Bundle
import WireLayout.Layout.Encoding
import WireLayout.Json.Basic

/-! What an oracle is asked: the instructions, the bundle with the names that must be answered for, and
the schema of the answer. -/

namespace WireLayout.Oracle

structure Request where
  entity : String
  system : String
  prompt : String
  schema : Json

def systemPrompt : String :=
  "You recover the exact binary wire layout of a network protocol message from its " ++
  "decompiled deserialization routine. Offsets are relative to the start of the " ++
  "message. Use -1 for wireOffset when a field lives in the variable block and -1 " ++
  "for wireSize when its length is variable. nullBit is the power-of-two value of " ++
  "the presence bit guarding an optional field (bits in the second flags byte are " ++
  "shifted left by 8, and so on); omit it for fields that are always present. " ++
  "Report every declared field, using best-effort values when the evidence is " ++
  "incomplete. Record the result with the provided tool."

def prompt (b : Bundle) : String :=
  b.render ++ "\nDeclared fields (all must appear in the answer): " ++ ", ".intercalate b.fieldNames ++
    "\nEncoding tags: " ++ Encoding.vocabulary ++ "\n"

def typeSchema (name : String) : Json := .obj [("type", .str name)]

def describedSchema (name description : String) : Json :=
  .obj [("type", .str name), ("description", .str description)]

def objectSchema (properties : List (String × Json)) (required : List String) : Json :=
  .obj [("type", .str "object"), ("properties", .obj properties), ("required", Json.ofStrings required)]

def fieldSchema : Json :=
  objectSchema [
    ("name", typeSchema "string"),
    ("wireOffset", describedSchema "integer" "Byte offset within the fixed block, -1 if in the variable block"),
    ("wireSize", describedSchema "integer" "Size in bytes, -1 if variable length"),
    ("encoding", describedSchema "string" ("One of: " ++ Encoding.vocabulary)),
    ("isVariable", typeSchema "boolean"),
    ("nullBit", describedSchema "integer" "Power-of-two presence bit; omit if the field is not optional"),
    ("notes", typeSchema "string")]
    ["name", "wireOffset", "wireSize", "encoding", "isVariable"]

def mappingSchema : Json :=
  objectSchema [
    ("bit", describedSchema "string" "Bit value, e.g. \"0x01\""),
    ("fieldName", typeSchema "string")]
    ["bit", "fieldName"]

def layoutSchema : Json :=
  objectSchema [
    ("fields", .obj [("type", .str "array"), ("description", .str "Every declared field, in wire order"),
      ("items", fieldSchema)]),
    ("totalFixedSize", typeSchema "integer"),
    ("hasVariableSection", typeSchema "boolean"),
    ("variableSectionStart", typeSchema "integer"),
    ("nullBitMappings", .obj [("type", .str "array"), ("items", mappingSchema)]),
    ("notes", typeSchema "string")]
    ["fields", "totalFixedSize", "hasVariableSection", "nullBitMappings"]

def Request.ofBundle (b : Bundle) : Request := ⟨b.entity, systemPrompt, Oracle.prompt b, layoutSchema⟩

end WireLayout.Oracle
