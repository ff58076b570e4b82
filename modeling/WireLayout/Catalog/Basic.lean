import WireLayout.Bundle
import WireLayout.Entity
import WireLayout.Layout.Basic

/-! The catalog of a protocol: messages by category, enumerations and data types by name. -/

namespace WireLayout

/-- A message. It has a bundle when its type declares the routine that reads it. -/
structure Message where
  id : EntityId
  constants : Constants
  fields : List Field
  imports : List String
  bundle : Option Bundle
  deriving DecidableEq, Repr

structure Catalog where
  messages : SortedMap String (List Message) := ∅
  enumerations : SortedMap String Enumeration := ∅
  dataTypes : SortedMap String DataType := ∅
  skipped : List String := []
  deriving DecidableEq, Repr

/-- An entity of a catalog, a message with its layout if it has one. -/
inductive Emission where
  | message (m : Message) (layout : Option Layout)
  | enumeration (e : Enumeration)
  | dataType (d : DataType)

namespace Emission

def kind : Emission → String
  | message .. => "message"
  | enumeration _ => "enum"
  | dataType _ => "aggregate"

def id : Emission → EntityId
  | message m _ => m.id
  | enumeration e => e.id
  | dataType d => d.id

end Emission

namespace Catalog

def allMessages (c : Catalog) : List Message := c.messages.values.flatten

def messageCount (c : Catalog) : Nat := c.allMessages.length

def bundledCount (c : Catalog) : Nat := c.allMessages.countP fun m => m.bundle.isSome

/-- Every entity: messages, enumerations, data types. A message gets the layout of its name. -/
def emissions (c : Catalog) (layouts : LayoutIndex) : List Emission :=
  c.allMessages.map (fun m => .message m (layouts.find? m.id.name)) ++
    c.enumerations.values.map .enumeration ++ c.dataTypes.values.map .dataType

end Catalog

def Message.resolvedFields (m : Message) (layout : Option Layout) : List (Field × Option FieldLayout) :=
  m.fields.map fun f => (f, layout.bind fun l => l.field? f.name)

end WireLayout
