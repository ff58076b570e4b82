import WireLayout.Catalog.Canonical
import WireLayout.Layout.Json

/-! The summary of one version of a protocol: its packets by category with their layouts, its enumerations
and its data types, written as indented JSON. -/

namespace WireLayout

structure LayoutOverview where
  totalFixedSize : Nat
  hasVariableSection : Bool
  variableSectionStart : Option Nat
  /-- Presence bits in hexadecimal with the fields they stand for. -/
  nullBits : SortedMap String String
  notes : Option String
  deriving DecidableEq, Repr

structure PacketEntry where
  name : String
  package : String
  sourcePath : String
  packetId : String
  constants : Constants
  fields : List (Field × Option FieldLayout)
  layout : Option LayoutOverview
  deriving DecidableEq, Repr

structure Summary where
  version : String
  fingerprint : Option String := none
  categories : SortedMap String (List PacketEntry) := ∅
  enumerations : List Enumeration := []
  dataTypes : List DataType := []
  deriving DecidableEq, Repr

def LayoutOverview.ofLayout (l : Layout) : LayoutOverview := {
  totalFixedSize := l.totalFixedSize
  hasVariableSection := l.hasVariableSection
  variableSectionStart := l.variableSectionStart
  nullBits := SortedMap.ofList (l.nullBits.entries.map fun e => (Constants.hexText e.1, e.2))
  notes := l.notes }

def PacketEntry.ofMessage (m : Message) (layout : Option Layout) : PacketEntry := {
  name := m.id.name
  package := m.id.package
  sourcePath := m.id.sourcePath
  packetId := m.constants.packetIdHex
  constants := m.constants
  fields := m.resolvedFields layout
  layout := layout.map .ofLayout }

namespace Summary

def add (s : Summary) : Emission → Summary
  | .message m layout =>
    let listed := (s.categories.find? m.id.category).getD []
    { s with categories := s.categories.insert m.id.category (listed ++ [.ofMessage m layout]) }
  | .enumeration e => { s with enumerations := s.enumerations ++ [e] }
  | .dataType d => { s with dataTypes := s.dataTypes ++ [d] }

def withoutFingerprint (version : String) (c : Catalog) (layouts : LayoutIndex) : Summary :=
  (c.emissions layouts).foldl add { version }

def ofCatalog (version : String) (c : Catalog) (layouts : LayoutIndex) : Summary :=
  { withoutFingerprint version c layouts with fingerprint := some c.fingerprint }

def packetCount (s : Summary) : Nat := s.categories.values.flatten.length

end Summary

def LayoutOverview.json (o : LayoutOverview) : Json :=
  .obj <| [("totalFixedSize", .ofNat o.totalFixedSize), ("hasVariableSection", .bool o.hasVariableSection)] ++
    Json.optional "variableSectionStart" (o.variableSectionStart.map Json.ofNat) ++
    [("nullBits", o.nullBits.json .str)] ++ Json.optional "notes" (o.notes.map .str)

def PacketEntry.fieldJson (f : Field × Option FieldLayout) : Json :=
  .obj (f.1.members ++ Json.optional "layout" (f.2.map FieldLayout.json))

def PacketEntry.json (p : PacketEntry) : Json :=
  .obj <| [("name", .str p.name), ("namespace", .str p.package), ("sourcePath", .str p.sourcePath),
    ("packetId", .str p.packetId), ("constants", p.constants.json),
    ("fields", .arr (p.fields.map fieldJson))] ++
    Json.optional "layout" (p.layout.map LayoutOverview.json)

namespace Summary

def json (s : Summary) : Json :=
  .obj <| [("version", .str s.version)] ++ Json.optional "fingerprint" (s.fingerprint.map .str) ++
    [("categories", s.categories.json fun ps => .arr (ps.map PacketEntry.json)),
      ("enums", .arr (s.enumerations.map Enumeration.json)),
      ("dataTypes", .arr (s.dataTypes.map DataType.json))]

def text (s : Summary) : String := s.json.pretty

end Summary

end WireLayout
