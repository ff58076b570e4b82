import WireLayout.Proofs.Routine.Recognition
import WireLayout.Proofs.SortedMap

/-! The round trip of routines in canonical form. A field says what record it stands for; a scan of the text of the
routine is complete and has the records of the fields, no others. What this needs of the routine is that its numbers
fit into 32 bits and that types and pointers can be told by their names, and each of that is needed. -/

namespace WireLayout.Routine

open WireLayout.Java WireLayout.Text

/-! What the fields stand for. -/

/-- Where a source is in the fixed block: its position, or the slot of its pointer. -/
def Source.start : Source → Nat
  | fixed offset _ => offset
  | varying _ _ slot _ => slot

/-- The offsets at which something begins or the fixed block ends. -/
def CanonicalRoutine.bounds (c : CanonicalRoutine) (blockSize : Nat) : List Nat :=
  c.fields.map (·.source.start) ++ if 0 < blockSize then [blockSize] else []

def distance? (bounds : List Nat) (offset : Nat) : Option Nat :=
  ((bounds.filter (offset < ·)).min?).map (· - offset)

/-- The record that a field stands for. A nested value goes up to the next boundary. -/
def CanonicalField.record (bounds : List Nat) (f : CanonicalField) : FieldLayout :=
  match f.source with
  | .fixed offset kind => {
      name := f.name
      offset := .fixed offset
      size := .ofNat? (kind.size <|> distance? bounds offset)
      encoding := kind.encoding
      isVariable := false
      nullBit := f.test.map (·.bit)
      note := none
      evidence := .verified }
  | .varying _ _ slot charset => {
      name := f.name
      offset := .varying
      size := .varying
      encoding := charset.encoding
      isVariable := true
      nullBit := f.test.map (·.bit)
      note := some s!"offset pointer at {slot}"
      evidence := .verified }

def CanonicalRoutine.records (c : CanonicalRoutine) (blockSize : Nat) : List FieldLayout :=
  c.fields.map (CanonicalField.record (c.bounds blockSize))

/-- The bundle has the text of the routine, and declares the fields of the routine. -/
structure Renders (b : Bundle) (c : CanonicalRoutine) : Prop where
  routine : b.routine = String.ofList c.text
  fields : ∀ name, name ∈ b.fieldNames ↔ name ∈ c.fields.map (·.name)

/-! The boundaries. -/

variable {bounds bounds' : List Nat}

/-- The next boundary depends on what the boundaries are, in no order. -/
theorem sizeUpTo_eq_distance? (h : ∀ n, n ∈ bounds ↔ n ∈ bounds') {offset : Nat} (ho : offset < 2 ^ 31) :
    sizeUpTo bounds offset = distance? bounds' offset := by
  have hmem : ∀ n, n ∈ bounds.filter (min (offset + 1) maxWord ≤ ·) ↔ n ∈ bounds'.filter (offset < ·) := by
    intro n
    have hmin : min (offset + 1) maxWord = offset + 1 := min_eq_left (by unfold maxWord; omega)
    rw [List.mem_filter, List.mem_filter, h, hmin, decide_eq_true_iff, decide_eq_true_iff, Nat.succ_le_iff]
  have hmin : (bounds.filter (min (offset + 1) maxWord ≤ ·)).min? = (bounds'.filter (offset < ·)).min? := by
    ext n
    rw [List.min?_eq_some_iff, List.min?_eq_some_iff, hmem]
    exact and_congr_right fun _ => forall_congr' fun m => by rw [hmem]
  rw [sizeUpTo, distance?, hmin]

theorem layout_fact (h : ∀ n, n ∈ bounds ↔ n ∈ bounds') {f : CanonicalField} (hf : f.WellFormed) :
    f.fact.layout bounds = f.record bounds' := by
  have hsource := hf.source
  obtain ⟨name, source, test⟩ := f
  cases source with
  | varying pointer base slot charset => rfl
  | fixed offset kind =>
    have hsize := sizeUpTo_eq_distance? h hsource.1
    cases kind <;> simp [CanonicalField.fact, Fact.layout, CanonicalField.record, Source.reading, FixedKind.size,
      FixedKind.encoding, hsize]

/-- The boundaries that a reader sees are those of the fields, as no pointer replaces another. -/
theorem mem_boundaries {c : CanonicalRoutine} (h : c.WellFormed) (blockSize n : Nat) :
    n ∈ boundaries (c.fields.map (·.fact)) (SortedMap.ofList (c.fields.filterMap (·.source.pointer?))) blockSize ↔
      n ∈ c.bounds blockSize := by
  have hslots : n ∈ (SortedMap.ofList (c.fields.filterMap (·.source.pointer?))).values.map OffsetPointer.slot ↔
      ∃ f ∈ c.fields, ∃ p ∈ f.source.pointer?, p.2.slot = n := by
    rw [List.mem_map]
    constructor
    · rintro ⟨v, hv, rfl⟩
      obtain ⟨name, hm⟩ := (SortedMap.mem_values_ofList h.fresh).1 hv
      obtain ⟨f, hf, hp⟩ := List.mem_filterMap.1 hm
      exact ⟨f, hf, (name, v), hp, rfl⟩
    · rintro ⟨f, hf, p, hp, rfl⟩
      exact ⟨p.2, (SortedMap.mem_values_ofList h.fresh).2 ⟨p.1, List.mem_filterMap.2 ⟨f, hf, hp⟩⟩, rfl⟩
  have hoffsets : n ∈ (c.fields.map (·.fact)).filterMap Fact.offset? ↔
      ∃ f ∈ c.fields, f.fact.offset? = some n := by simp [List.mem_filterMap]
  have hstart : ∀ f : CanonicalField, f.source.start = n ↔
      f.fact.offset? = some n ∨ ∃ p ∈ f.source.pointer?, p.2.slot = n := by
    rintro ⟨name, source, test⟩
    cases source <;> simp [Source.start, CanonicalField.fact, Fact.offset?, Source.reading, Source.pointer?]
  rw [boundaries, CanonicalRoutine.bounds, List.mem_append, List.mem_append, List.mem_append, hslots, hoffsets,
    List.mem_map, ← exists_or]
  simp only [← and_or_left, ← hstart]

/-! The round trip. -/

/-- A scan of the text of a routine in canonical form is complete, and its facts are the records of the fields. -/
theorem scan_canonical {c : CanonicalRoutine} (h : c.Proper) {b : Bundle} (hb : Renders b c) :
    ∃ s, scan b = .ok s ∧ s.isComplete = true ∧ s.facts.Perm (c.records b.constants.fixedBlockSize) := by
  have hdeclared : ∀ f ∈ c.fields, f.name ∈ b.fieldNames :=
    fun f hf => (hb.fields f.name).2 (List.mem_map_of_mem hf)
  have hhas := has_routine h hdeclared
  generalize hr : (startOf b).after c.steps = r at hhas
  have hscan : scan b = .ok (r.scanned b) := by rw [scan_of_trace (trace?_text h.toWellFormed hb.routine), hr]
  have hbounds : ∀ n, n ∈ r.bounds b ↔ n ∈ c.bounds b.constants.fixedBlockSize := by
    intro n
    rw [Reader.bounds, hhas.facts, hhas.pointers, mem_boundaries h.toWellFormed]
  have hperm : (r.scanned b).facts.Perm (c.records b.constants.fixedBlockSize) := by
    have hlayouts : r.facts.map (Fact.layout (r.bounds b)) = c.records b.constants.fixedBlockSize := by
      rw [hhas.facts, List.map_map, CanonicalRoutine.records]
      exact List.map_congr_left fun f hf => layout_fact hbounds (h.fields f hf)
    rw [← hlayouts]
    exact wireOrder_perm _ _
  refine ⟨r.scanned b, hscan, ?_, hperm⟩
  have hmissing : missingNames b.fieldNames (r.scanned b).facts = [] := by
    rw [missingNames, List.filter_eq_nil_iff]
    intro name hname
    obtain ⟨f, hf, rfl⟩ := List.mem_map.1 ((hb.fields name).1 hname)
    have hrecord : f.record (c.bounds b.constants.fixedBlockSize) ∈ (r.scanned b).facts :=
      hperm.mem_iff.2 (List.mem_map_of_mem hf)
    have hrecordName : (f.record (c.bounds b.constants.fixedBlockSize)).name = f.name := by
      unfold CanonicalField.record
      split <;> rfl
    simp only [Bool.not_eq_true', Bool.not_eq_false, List.any_eq_true, decide_eq_true_iff]
    exact ⟨_, hrecord, hrecordName⟩
  rw [Scan.isComplete, show (r.scanned b).missing = [] from hmissing]
  rfl

namespace OptionalPosition

/-- A number, a text behind a pointer, and a nested value, the last two under presence tests. -/
def routine : CanonicalRoutine where
  message := "Sample"
  gap := "\n  ".toList
  flags := some (.octets 2)
  fields := [
    ⟨"id", .fixed 2 (.primitive .int), none⟩,
    ⟨"name", .varying "varPos0" 22 18 .utf8, some ⟨some 0, 0⟩⟩,
    ⟨"pos", .fixed 6 (.nested "Position"), some ⟨some 1, 2⟩⟩]

def bundle : Bundle := { Bundle.ofRoutine ["id", "name", "pos"] (String.ofList routine.text) with
  constants := { fixedBlockSize := 22 } }

theorem renders : Renders bundle routine := ⟨rfl, fun _ => Iff.rfl⟩

theorem proper : routine.Proper where
  message := by decide +kernel
  gap := List.all_eq_true.1 (by decide +kernel)
  fields := by
    have hnames : IsName "id" ∧ IsName "name" ∧ IsName "varPos0" ∧ IsName "pos" ∧ IsName "Position" := by
      decide +kernel
    obtain ⟨hid, hname, hpointer, hpos, hposition⟩ := hnames
    simp only [routine, List.forall_mem_cons]
    refine ⟨⟨hid, by decide, by simp⟩, ⟨hname, hpointer⟩, ⟨hpos, by decide, ?_⟩, by simp⟩
    rintro type heq
    obtain rfl := FixedKind.nested.inj heq
    exact ⟨hposition, by decide +kernel⟩
  distinct := by decide
  fresh := by decide
  readable := by
    simp only [routine, List.forall_mem_cons]
    refine ⟨⟨by simp, by simp⟩, ⟨by decide, by decide, fun _ => by decide +kernel⟩, ⟨by simp, ?_⟩, by simp⟩
    rintro type heq
    obtain rfl := FixedKind.nested.inj heq
    decide +kernel

def records : List FieldLayout := [
  ⟨"id", .fixed 2, .fixed 4, .i32le, false, none, none, .verified⟩,
  ⟨"name", .varying, .varying, .varUtf8, true, some 1, some "offset pointer at 18", .verified⟩,
  ⟨"pos", .fixed 6, .fixed 12, .nested, false, some 1024, none, .verified⟩]

theorem records_eq : routine.records 22 = records := by decide +kernel

end OptionalPosition

theorem scan_canonical_optionalPosition :
    OptionalPosition.routine.Proper ∧ Renders OptionalPosition.bundle OptionalPosition.routine ∧
      ∃ s, scan OptionalPosition.bundle = .ok s ∧ s.isComplete = true ∧ s.facts.Perm OptionalPosition.records :=
  ⟨OptionalPosition.proper, OptionalPosition.renders,
    OptionalPosition.records_eq ▸ scan_canonical OptionalPosition.proper OptionalPosition.renders⟩

/-! What is needed of the routine. -/

namespace Unreadable

def routine (source : Source) : CanonicalRoutine := ⟨"T", [], none, [⟨"f", source, none⟩]⟩

def bundle (source : Source) : Bundle := .ofRoutine ["f"] (String.ofList (routine source).text)

/-- A type in small letters, numbers beyond 32 bits, and a pointer that names the wrong charset. -/
def sources : List Source := [
  .fixed 1 (.nested "position"),
  .fixed 1 (.fixedAscii (2 ^ 32)),
  .varying "p" (2 ^ 32) 5 .utf8,
  .varying "p" 9 (2 ^ 32) .utf8,
  .varying "asASCII" 9 5 .utf8]

theorem renders (source : Source) : Renders (bundle source) (routine source) := ⟨rfl, fun _ => Iff.rfl⟩

theorem wellFormed {source : Source} (h : source.WellFormed) : (routine source).WellFormed where
  message := by
    have hname : IsName "T" := by decide +kernel
    exact hname
  gap := by simp [routine]
  fields := by
    have hname : IsName "f" := by decide +kernel
    exact List.forall_mem_singleton.2 ⟨hname, h⟩
  distinct := List.nodup_singleton "f"
  fresh := by
    cases source with
    | fixed offset kind => exact List.nodup_nil
    | varying pointer base slot charset => exact List.nodup_singleton pointer

theorem wellFormed_of_mem {source : Source} (h : source ∈ sources) : source.WellFormed := by
  have hnames : IsName "position" ∧ IsName "p" ∧ IsName "asASCII" := by decide +kernel
  obtain ⟨htype, hpointer, hcharset⟩ := hnames
  simp only [sources, List.mem_cons, List.not_mem_nil, or_false] at h
  rcases h with rfl | rfl | rfl | rfl | rfl
  · refine ⟨by decide, ?_⟩
    rintro type heq
    obtain rfl := FixedKind.nested.inj heq
    exact ⟨htype, by decide +kernel⟩
  · exact ⟨by decide, by simp⟩
  · exact hpointer
  · exact hpointer
  · exact hcharset

def reader (source : Source) : Reader := (startOf (bundle source)).after (routine source).steps

theorem not_perm : ∀ source ∈ sources,
    ¬ ((reader source).facts.map (Fact.layout ((reader source).bounds (bundle source)))).Perm
      ((routine source).records 0) := by
  decide +kernel

/-- The routine is in canonical form, and a scan of it does not have what its field says. -/
def Misread (source : Source) : Prop :=
  (routine source).WellFormed ∧ Renders (bundle source) (routine source) ∧
    ¬ ∃ s, scan (bundle source) = .ok s ∧ s.isComplete = true ∧ s.facts.Perm ((routine source).records 0)

theorem misread : ∀ source ∈ sources, Misread source := by
  intro source hmem
  have hwell := wellFormed (wellFormed_of_mem hmem)
  refine ⟨hwell, renders source, ?_⟩
  rintro ⟨s, hs, -, hperm⟩
  rw [scan_of_trace (trace?_text hwell (renders source).routine)] at hs
  obtain rfl := Except.ok.inj hs
  exact not_perm source hmem ((wireOrder_perm _ _).symm.trans hperm)

end Unreadable

/-- Each of the conditions on what is written down is needed: without it the routine is not read as it was meant. -/
theorem scan_canonical_unreadable :
    Unreadable.Misread (.fixed 1 (.nested "position")) ∧
      Unreadable.Misread (.fixed 1 (.fixedAscii (2 ^ 32))) ∧
      Unreadable.Misread (.varying "p" (2 ^ 32) 5 .utf8) ∧
      Unreadable.Misread (.varying "p" 9 (2 ^ 32) .utf8) ∧
      Unreadable.Misread (.varying "asASCII" 9 5 .utf8) := by
  have hall := Unreadable.misread
  simp only [Unreadable.sources, List.forall_mem_cons] at hall
  obtain ⟨htype, hlength, hbase, hslot, hcharset, -⟩ := hall
  exact ⟨htype, hlength, hbase, hslot, hcharset⟩

end WireLayout.Routine
