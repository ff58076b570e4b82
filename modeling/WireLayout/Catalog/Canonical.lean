import WireLayout.Blake3
import WireLayout.Catalog.Basic
import WireLayout.Json.Printer
import WireLayout.Text.Utf8

/-! Entities as JSON, the canonical text of a catalog, and its fingerprint. The text leaves out the skipped
files and the bundles. -/

namespace WireLayout

open WireLayout.Text

def EntityId.json (id : EntityId) : Json :=
  .obj [("name", .str id.name), ("namespace", .str id.package), ("category", .str id.category),
    ("source_path", .str id.sourcePath)]

def Field.members (f : Field) : List (String × Json) :=
  [("name", .str f.name), ("declared_type", .str f.type), ("nullable", .bool f.nullable)] ++
    Json.optional "default_value" (f.defaultValue.map .str) ++
    Json.optional "max_length" (f.maxLength.map Json.ofNat)

def Field.json (f : Field) : Json := .obj f.members

def Constants.json (c : Constants) : Json :=
  .obj [("packet_id", .ofNat c.packetId), ("is_compressed", .bool c.isCompressed),
    ("nullable_bit_field_size", .ofNat c.nullableBitFieldSize),
    ("fixed_block_size", .ofNat c.fixedBlockSize), ("variable_field_count", .ofNat c.variableFieldCount),
    ("variable_block_start", .ofNat c.variableBlockStart), ("max_size", .ofNat c.maxSize)]

def EnumVariant.json (v : EnumVariant) : Json := .obj [("name", .str v.name), ("value", .int v.value)]

def Enumeration.json (e : Enumeration) : Json :=
  .obj [("id", e.id.json), ("variants", .arr (e.variants.map EnumVariant.json))]

def DataType.json (d : DataType) : Json :=
  .obj [("id", d.id.json), ("fields", .arr (d.fields.map Field.json)),
    ("imports", .ofStrings d.imports)]

def Message.json (m : Message) : Json :=
  .obj [("id", m.id.json), ("constants", m.constants.json), ("fields", .arr (m.fields.map Field.json)),
    ("imports", .ofStrings m.imports)]

def SortedMap.json {α : Type} (value : α → Json) (m : SortedMap String α) : Json :=
  .obj (m.entries.map fun e => (e.1, value e.2))

namespace Catalog

def json (c : Catalog) : Json :=
  .obj [("messages", c.messages.json fun ms => .arr (ms.map Message.json)),
    ("enums", c.enumerations.json Enumeration.json), ("aggregates", c.dataTypes.json DataType.json)]

def canonicalText (c : Catalog) : String := c.json.compact

def fingerprint (c : Catalog) : String := Blake3.hexDigest (utf8 c.canonicalText.toList)

end Catalog

end WireLayout
