import WireLayout.Catalog.Basic

/-! Counts over a catalog and its layouts. -/

namespace WireLayout

structure Statistics where
  messages : Nat := 0
  withLayout : Nat := 0
  /-- Declared fields of messages without a record. -/
  bareFields : Nat := 0
  verified : Nat := 0
  inferred : Nat := 0
  enumerations : Nat := 0
  dataTypes : Nat := 0
  deriving DecidableEq, Repr

namespace Statistics

def addMessage (s : Statistics) (m : Message) (layout : Option Layout) : Statistics :=
  { s with
    messages := s.messages + 1
    withLayout := s.withLayout + (if layout.isSome then 1 else 0)
    verified := s.verified + (layout.map fun l => l.countEvidence .verified).getD 0
    inferred := s.inferred + (layout.map fun l => l.countEvidence .inferred).getD 0
    bareFields := s.bareFields + (m.resolvedFields layout).countP fun r => r.2.isNone }

def add (s : Statistics) : Emission → Statistics
  | .message m layout => s.addMessage m layout
  | .enumeration _ => { s with enumerations := s.enumerations + 1 }
  | .dataType _ => { s with dataTypes := s.dataTypes + 1 }

def ofCatalog (c : Catalog) (layouts : LayoutIndex) : Statistics :=
  (c.emissions layouts).foldl add {}

end Statistics

end WireLayout
