import WireLayout.Json.Basic
import WireLayout.Layout.Basic

/-! Layouts as JSON. A varying offset or size is a negative number, and absent members are left out. -/

namespace WireLayout

def Evidence.tag : Evidence → String
  | .verified => "verified"
  | .inferred => "inferred"

def FieldLayout.json (f : FieldLayout) : Json :=
  .obj <| [("name", .str f.name), ("wireOffset", .int f.offset.toRaw), ("wireSize", .int f.size.toRaw),
    ("encoding", .str f.encoding.tag), ("isVariable", .bool f.isVariable)] ++
    Json.optional "nullBit" (f.nullBit.map Json.ofNat) ++ Json.optional "note" (f.note.map .str) ++
    [("evidence", .str f.evidence.tag)]

def Layout.json (l : Layout) : Json :=
  .obj <| [("entity", .str l.entity), ("fields", .arr (l.fields.map FieldLayout.json)),
    ("totalFixedSize", .ofNat l.totalFixedSize), ("hasVariableSection", .bool l.hasVariableSection)] ++
    Json.optional "variableSectionStart" (l.variableSectionStart.map Json.ofNat) ++
    [("nullBits", .obj (l.nullBits.entries.map fun e => (toString e.1, .str e.2)))] ++
    Json.optional "notes" (l.notes.map .str)

end WireLayout
