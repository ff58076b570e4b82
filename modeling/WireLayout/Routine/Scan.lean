import WireLayout.Layout.Validity
import WireLayout.Routine.Walk

/-! The scan of a routine: the facts that its reader has at the end, in the order of the wire. A scan that
covers every declared field gives a layout of verified facts. -/

namespace WireLayout.Routine

open WireLayout.Java WireLayout.Text

/-- The facts of a routine in the order of the wire, its offset pointers, and the declared fields that it
does not settle. -/
structure Scan where
  facts : List FieldLayout := []
  pointers : SortedMap String OffsetPointer := ∅
  missing : List String := []
  deriving DecidableEq, Repr

def boundaries (facts : List Fact) (pointers : SortedMap String OffsetPointer) (fixedBlockSize : Nat) :
    List Nat :=
  facts.filterMap Fact.offset? ++ pointers.values.map OffsetPointer.slot ++
    if 0 < fixedBlockSize then [fixedBlockSize] else []

def sizeUpTo (bounds : List Nat) (offset : Nat) : Option Nat :=
  ((bounds.filter (min (offset + 1) maxWord ≤ ·)).min?).map (· - offset)

def fixedLayout? (bounds : List Nat) (f : Fact) : Option (Nat × FieldLayout) :=
  match f.reading with
  | .fixed offset encoding size =>
    let size := size <|> if encoding = .nested then sizeUpTo bounds offset else none
    some (offset, {
      name := f.name
      offset := .fixed offset
      size := .ofNat? size
      encoding
      isVariable := false
      nullBit := f.nullBit
      note := none
      evidence := .verified })
  | .varying .. => none

def varyingLayout? (f : Fact) : Option FieldLayout :=
  match f.reading with
  | .varying encoding size slot => some {
      name := f.name
      offset := .varying
      size := .ofNat? size
      encoding
      isVariable := true
      nullBit := f.nullBit
      note := slot.map fun s => s!"offset pointer at {s}"
      evidence := .verified }
  | .fixed .. => none

/-- Fixed facts by offset, then the varying ones in the order of reading. -/
def wireOrder (bounds : List Nat) (facts : List Fact) : List FieldLayout :=
  ((facts.filterMap (fixedLayout? bounds)).mergeSort (fun a b => a.1 ≤ b.1)).map (·.2) ++
    facts.filterMap varyingLayout?

def missingNames (declared : List String) (facts : List FieldLayout) : List String :=
  declared.filter fun name => !facts.any (·.name = name)

/-- The offsets at which something is known to begin or end, after all has been read. -/
def Reader.bounds (r : Reader) (b : Bundle) : List Nat :=
  boundaries r.facts r.pointers b.constants.fixedBlockSize

def Reader.scanned (r : Reader) (b : Bundle) : Scan :=
  let facts := wireOrder (r.bounds b) r.facts
  { facts, pointers := r.pointers, missing := missingNames b.fieldNames facts }

/-- What is read off a routine; without a body there is nothing to read. Numbers are taken within 64 bits. -/
def scan (b : Bundle) : Except Fault Scan :=
  (trace? b).map fun
    | none => { missing := b.fieldNames }
    | some (start, steps) => (start.after steps).scanned b

def overflows (b : Bundle) : Bool :=
  match trace? b with
  | .ok (some (start, steps)) => (Walker.mk start []).overflows steps
  | _ => false

def checkedScan (b : Bundle) : Except Fault Scan := if overflows b then .error .overflow else scan b

namespace Scan

def isComplete (s : Scan) : Bool := s.missing.isEmpty

def checkedSum (a b : Nat) : Except Fault Nat := if a + b ≤ maxWord then .ok (a + b) else .error .overflow

/-- A slot takes four octets. -/
def slotEnd (p : OffsetPointer) : Except Fault Nat := checkedSum p.slot 4

/-- Where a fixed field ends; one of unknown size ends where it starts. -/
def fieldEnd (f : FieldLayout) : Except Fault Nat :=
  match f.offset, f.size with
  | .fixed offset, .fixed size => checkedSum offset size
  | .fixed offset, .varying => .ok offset
  | .varying, _ => .ok 0

/-- The end of the fixed block as far as the routine shows it. -/
def fixedEnd (s : Scan) (constants : Constants) : Except Fault Nat := do
  let fields ← s.facts.mapM fieldEnd
  let slots ← s.pointers.values.mapM slotEnd
  .ok ((fields ++ slots).foldl max constants.nullableBitFieldSize)

/-- A declared size of the block is taken as it is. -/
def totalFixedSize (constants : Constants) (fixedEnd : Nat) : Nat :=
  if 0 < constants.fixedBlockSize then constants.fixedBlockSize else fixedEnd

def hasVariableSection (s : Scan) (constants : Constants) : Bool :=
  s.facts.any (·.isVariable) || 0 < constants.variableFieldCount

def variableSectionStart (s : Scan) (constants : Constants) (totalFixedSize : Nat) : Option Nat :=
  if s.hasVariableSection constants then
    some <|
      if 0 < constants.variableBlockStart then constants.variableBlockStart
      else ((s.pointers.values.head?).map (·.base)).getD totalFixedSize
  else none

def bitsOf (fields : List FieldLayout) : SortedMap Nat String :=
  SortedMap.ofList (fields.filterMap fun f => f.nullBit.map fun bit => (bit, f.name))

def pointerNote (s : Scan) : Option String :=
  if s.pointers.isEmpty then none
  else
    let slots := s.pointers.values.map fun p => toString p.slot
    some ("offset pointers at fixed offsets " ++ ", ".intercalate slots)

/-- The layout that the facts describe, with a total size of the fixed block. -/
def layout (s : Scan) (b : Bundle) (totalFixedSize : Nat) : Layout := {
  entity := b.entity
  fields := s.facts
  totalFixedSize
  hasVariableSection := s.hasVariableSection b.constants
  variableSectionStart := s.variableSectionStart b.constants totalFixedSize
  nullBits := bitsOf s.facts
  notes := s.pointerNote }

/-- The layout of a complete scan, if it is valid. The end of the block is computed also where its size is
declared. -/
def analysis (s : Scan) (b : Bundle) : Except (Abort Error) Layout :=
  if !s.isComplete then .error (.failed (.unresolved b.entity s.missing))
  else do
    let fixedEnd ← (s.fixedEnd b.constants).mapError .broken
    let layout := s.layout b (totalFixedSize b.constants fixedEnd)
    (layout.validate b.fieldNames).mapError .failed
    .ok layout

end Scan

end WireLayout.Routine
