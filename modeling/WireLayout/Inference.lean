import WireLayout.Oracle.Answer
import WireLayout.Oracle.Request
import WireLayout.Routine.Scan

/-! Inference of layouts: the scan of the routine first, an oracle for what the scan leaves open, and the
facts of the scan laid over the answer. -/

namespace WireLayout

open WireLayout.Routine

abbrev Oracle := Oracle.Request → Except Error Json

structure Attempt where
  result : Except Error Layout
  requests : List Oracle.Request := []

def Oracle.layout (oracle : Oracle) (b : Bundle) : Except (Abort Error) Layout := do
  Oracle.readAnswer b (← (oracle (.ofBundle b)).mapError .failed)

def Oracle.infer (oracle : Oracle) (b : Bundle) : Except Fault Attempt := do
  .ok ⟨← Abort.settle (oracle.layout b), [.ofBundle b]⟩

namespace Overlay

/-- Takes a presence bit from every field but the named one. -/
def clearBit (name : String) (bit : Nat) (fields : List FieldLayout) : List FieldLayout :=
  fields.map fun f => if f.name ≠ name && f.nullBit = some bit then { f with nullBit := none } else f

/-- Puts a fact in the place of the first record of its name, or at the end. -/
def place (fact : FieldLayout) : List FieldLayout → List FieldLayout
  | [] => [fact]
  | f :: rest => if f.name = fact.name then fact :: rest else f :: place fact rest

def addFact (fields : List FieldLayout) (fact : FieldLayout) : List FieldLayout :=
  place fact (match fact.nullBit with
    | some bit => clearBit fact.name bit fields
    | none => fields)

/-- Keeps an inferred mapping that conflicts with no other. -/
def keepMapping (verified : List FieldLayout) (bits : SortedMap Nat String) (mapping : Nat × String) :
    SortedMap Nat String :=
  if verified.any (·.name = mapping.2) || bits.contains mapping.1 || bits.values.contains mapping.2 then
    bits
  else bits.insert mapping.1 mapping.2

end Overlay

/-- Lays verified facts over a layout. The map of bits is rebuilt from the records, with those inferred
mappings that do not conflict, and a declared size of the fixed block replaces the inferred one. -/
def overlay (layout : Layout) (verified : List FieldLayout) (b : Bundle) : Layout :=
  let fields := verified.foldl Overlay.addFact layout.fields
  { layout with
    fields
    nullBits := layout.nullBits.entries.foldl (Overlay.keepMapping verified) (Scan.bitsOf fields)
    totalFixedSize :=
      if 0 < b.constants.fixedBlockSize then b.constants.fixedBlockSize else layout.totalFixedSize }

/-- Inference by the scan, with an optional fallback for what it leaves open. -/
structure Engine where
  fallback : Option Oracle

namespace Engine

def offline : Engine := ⟨none⟩

def withOracle (oracle : Oracle) : Engine := ⟨some oracle⟩

/-- The fallback with the facts that are trusted, on a scan that is not accepted. -/
def merge (oracle : Oracle) (verified : List FieldLayout) (b : Bundle) : Except Fault Attempt := do
  let attempt ← oracle.infer b
  .ok { attempt with result := do
      let merged := overlay (← attempt.result) verified b
      merged.validate b.fieldNames
      .ok merged }

/-- Infers the layout of a bundle. The facts of a complete scan that is invalid are not trusted. -/
def infer (engine : Engine) (b : Bundle) : Except Fault Attempt := do
  let s ← checkedScan b
  match engine.fallback with
  | none => .ok { result := ← Abort.settle (s.analysis b) }
  | some oracle =>
    if s.isComplete then
      match ← Abort.settle (s.analysis b) with
      | .ok layout => .ok { result := .ok layout }
      | .error _ => merge oracle [] b
    else merge oracle s.facts b

end Engine

end WireLayout
