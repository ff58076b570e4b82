import WireLayout.Proofs.Inference
import WireLayout.Proofs.Routine.Boundaries

/-! Fields and the fixed block. The total of a scanned layout is either computed, and then it is the least size
that holds every field with a constant offset, every slot and the bits; or it is the declared size of the
block, which is taken as it is. Then the fields fit exactly when the reads of the routine do: a nested
value ends where the next known place begins, so it never leaves the block by itself. -/

namespace WireLayout

open WireLayout.Routine

/-- Whatever has a constant offset fits into a block of a size. -/
structure FixedWithin (fields : List FieldLayout) (pointers : SortedMap String OffsetPointer) (size : Nat) :
    Prop where
  sized : ∀ f ∈ fields, ∀ k n, f.offset = .fixed k → f.size = .fixed n → k + n ≤ size
  unsized : ∀ f ∈ fields, ∀ k, f.offset = .fixed k → f.size = .varying → k ≤ size
  slots : ∀ p ∈ pointers.values, p.slot + 4 ≤ size

/-- The same for what the routine itself reads: of a nested value it only reads where it starts. -/
structure ReadsWithin (fields : List FieldLayout) (pointers : SortedMap String OffsetPointer) (size : Nat) :
    Prop where
  starts : ∀ f ∈ fields, ∀ k, f.offset = .fixed k → k ≤ size
  ends : ∀ f ∈ fields, f.encoding ≠ .nested → ∀ k n, f.offset = .fixed k → f.size = .fixed n → k + n ≤ size
  slots : ∀ p ∈ pointers.values, p.slot + 4 ≤ size

theorem FixedWithin.reads {fields : List FieldLayout} {pointers : SortedMap String OffsetPointer} {size : Nat}
    (h : FixedWithin fields pointers size) : ReadsWithin fields pointers size := by
  refine ⟨fun f hf k hk => ?_, fun f hf _ => h.sized f hf, h.slots⟩
  cases hn : f.size with
  | fixed n => exact le_trans (Nat.le_add_right k n) (h.sized f hf k n hk hn)
  | varying => exact h.unsized f hf k hk hn

namespace Routine

/-! The computed total. -/

/-- The end that a scan shows is the least size that holds everything and the bits. -/
theorem Scan.fixedEnd_le_iff {s : Scan} {constants : Constants} {n size : Nat} (h : s.fixedEnd constants = .ok n) :
    n ≤ size ↔ constants.nullableBitFieldSize ≤ size ∧ FixedWithin s.facts s.pointers size := by
  rw [fixedEnd_le_iff_ends h]
  refine and_congr_right fun _ => ?_
  constructor
  · rintro ⟨hfields, hslots⟩
    exact ⟨fun f hf => (hfields f hf).1, fun f hf => (hfields f hf).2, hslots⟩
  · intro h
    exact ⟨fun f hf => ⟨h.sized f hf, h.unsized f hf⟩, h.slots⟩

/-! Where nested values end. -/

theorem exists_of_sizeUpTo {bounds : List Nat} {offset n : Nat} (h : sizeUpTo bounds offset = some n) :
    ∃ bound ∈ bounds, offset + n = max offset bound := by
  obtain ⟨bound, hleast, rfl⟩ := sizeUpTo_eq_some_iff.1 h
  exact ⟨bound, hleast.1.1, by omega⟩

/-- A nested value does not go past a boundary that it starts before. -/
theorem le_of_sizeUpTo {bounds : List Nat} {offset n bound : Nat} (h : sizeUpTo bounds offset = some n)
    (hb : bound ∈ bounds) (hlt : offset < bound) : offset + n ≤ bound := by
  obtain ⟨next, hleast, rfl⟩ := sizeUpTo_eq_some_iff.1 h
  have hle : next ≤ bound := hleast.2 ⟨hb, le_trans (min_le_left _ _) hlt⟩
  omega

/-- The size of a nested record is the distance to the next boundary. -/
theorem MeasuredBy.sizeUpTo_of_nested {bounds : List Nat} {f : FieldLayout} (h : MeasuredBy bounds f)
    (he : f.encoding = .nested) {k n : Nat} (hk : f.offset = .fixed k) (hn : f.size = .fixed n) :
    sizeUpTo bounds k = some n := by
  rw [h.size_of_nested he hk, WireSize.ofNat?_eq_fixed_iff] at hn
  exact hn

section

variable {b : Bundle} {size : Nat}

/-- The size of a nested record in a scan, by the boundaries of its reader. -/
theorem exists_bounds_of_scan {s : Scan} (h : scan b = .ok s) :
    ∃ bounds : List Nat,
      (∀ f ∈ s.facts, f.encoding = .nested → ∀ k n, f.offset = .fixed k → f.size = .fixed n →
        sizeUpTo bounds k = some n) ∧
      (0 < b.constants.fixedBlockSize → b.constants.fixedBlockSize ∈ bounds) ∧
      ∀ size, ReadsWithin s.facts s.pointers size → b.constants.fixedBlockSize ≤ size →
        ∀ bound ∈ bounds, bound ≤ size := by
  obtain ⟨bounds, hbounds, hmeasured⟩ := exists_boundaries_of_scan h
  refine ⟨bounds, fun f hf he k n hk hn => ?_, fun hd => ?_, fun size hwithin hd bound hb => ?_⟩
  · exact (hmeasured f hf).sizeUpTo_of_nested he hk hn
  · exact (hbounds _).2 (.inr (.inr ⟨hd, rfl⟩))
  · -- a block that holds the reads holds where they start, and whole slots
    exact ((hbounds bound).1 hb).le hwithin.starts
      (fun p hp => le_trans (Nat.le_add_right _ _) (hwithin.slots p hp)) hd

/-- In a block that is at least as large as declared, everything fits when the reads do. -/
theorem fixedWithin_iff_reads {s : Scan} (h : scan b = .ok s) (hd : b.constants.fixedBlockSize ≤ size) :
    FixedWithin s.facts s.pointers size ↔ ReadsWithin s.facts s.pointers size := by
  refine ⟨FixedWithin.reads, fun hreads => ⟨fun f hf k n hk hn => ?_, fun f hf k hk _ => ?_, hreads.slots⟩⟩
  · by_cases he : f.encoding = .nested
    · obtain ⟨bounds, hnested, -, hbounds⟩ := exists_bounds_of_scan h
      obtain ⟨bound, hb, hend⟩ := exists_of_sizeUpTo (hnested f hf he k n hk hn)
      rw [hend]
      exact max_le (hreads.starts f hf k hk) (hbounds size hreads hd bound hb)
    · exact hreads.ends f hf he k n hk hn
  · exact hreads.starts f hf k hk

end

/-! A routine that reads a nested value, and a text through a slot before it, under several declared sizes of
the block. -/

namespace Delegate

def bundle (declared : Nat) : Bundle :=
  { Bundle.ofRoutine ["p", "name"] ("static T deserialize(B buf, int offset) \x7b " ++
      "o.p = Pos.deserialize(buf, offset + 5); int at = offset + 9 + buf.getIntLE(offset + 1); " ++
      "o.name = PacketIO.readVarString(buf, at); \x7d") with
    constants := { fixedBlockSize := declared } }

def steps : List Step := [
  .execute "o.p = Pos.deserialize(buf, offset + 5)".toList,
  .execute "int at = offset + 9 + buf.getIntLE(offset + 1)".toList,
  .execute "o.name = PacketIO.readVarString(buf, at)".toList]

def start : Reader := { offsetName := "offset".toList, declared := ["p", "name"] }

def reader : Reader := { start with
  pointers := (∅ : SortedMap String OffsetPointer).insert "at" ⟨1, 9⟩
  facts := [⟨"p", .fixed 5 .nested none, none⟩, ⟨"name", .varying .varUtf8 none (some 1), none⟩] }

theorem scan_bundle (declared : Nat) : scan (bundle declared) = .ok (reader.scanned (bundle declared)) := by
  have htrace : trace? (bundle declared) = .ok (some (start, steps)) := by
    unfold trace? bundle Bundle.ofRoutine Bundle.fieldNames
    simp only [String.toList_append, String.reduceToList]
    decide +kernel
  have hafter : start.after steps = reader := by decide +kernel
  rw [scan_of_trace htrace, hafter]

def p (size : WireSize) : FieldLayout := ⟨"p", .fixed 5, size, .nested, false, none, none, .verified⟩

def name : FieldLayout :=
  ⟨"name", .varying, .varying, .varUtf8, true, none, some "offset pointer at 1", .verified⟩

def scanned (size : WireSize) : Scan := { facts := [p size, name], pointers := reader.pointers }

theorem scan_undeclared : scan (bundle 0) = .ok (scanned .varying) :=
  (scan_bundle 0).trans (by decide +kernel)

theorem scan_declared : scan (bundle 9) = .ok (scanned (.fixed 4)) :=
  (scan_bundle 9).trans (by decide +kernel)

theorem scan_short : scan (bundle 4) = .ok (scanned .varying) :=
  (scan_bundle 4).trans (by decide +kernel)

theorem analysis_undeclared : (scanned .varying).analysis (bundle 0) =
    .ok ((scanned .varying).layout (bundle 0) 5) := by decide +kernel

theorem analysis_declared : (scanned (.fixed 4)).analysis (bundle 9) =
    .ok ((scanned (.fixed 4)).layout (bundle 9) 9) := by decide +kernel

theorem analysis_short : (scanned .varying).analysis (bundle 4) =
    .ok ((scanned .varying).layout (bundle 4) 4) := by decide +kernel

end Delegate

namespace Scan

/-- Where an accepted scan puts its fields. All sums are of 32 bits. A computed total holds every field and slot, and is
the least that does so and has room for the bits. A declared one is taken as it is: then everything fits exactly when
the reads of the routine do, and a nested value that starts in the block ends in it. -/
theorem analysis_fixedWithin {b : Bundle} {s : Scan} {layout : Layout} (h : scan b = .ok s)
    (ha : s.analysis b = .ok layout) :
    s.SumsInWords ∧
    (b.constants.fixedBlockSize = 0 →
      FixedWithin layout.fields s.pointers layout.totalFixedSize ∧
      ∀ size, layout.totalFixedSize ≤ size ↔
        b.constants.nullableBitFieldSize ≤ size ∧ FixedWithin layout.fields s.pointers size) ∧
    (0 < b.constants.fixedBlockSize →
      layout.totalFixedSize = b.constants.fixedBlockSize ∧
      (FixedWithin layout.fields s.pointers layout.totalFixedSize ↔
        ReadsWithin layout.fields s.pointers layout.totalFixedSize) ∧
      ∀ f ∈ layout.fields, f.encoding = .nested → ∀ k n, f.offset = .fixed k → f.size = .fixed n →
        k < layout.totalFixedSize → k + n ≤ layout.totalFixedSize) := by
  obtain ⟨-, n, hend, -, rfl⟩ := analysis_eq_ok_iff.1 ha
  refine ⟨(exists_fixedEnd_iff b.constants).1 ⟨n, hend⟩, fun hzero => ?_, fun hd => ?_⟩
  · have htotal : totalFixedSize b.constants n = n := if_neg (by rw [hzero]; exact lt_irrefl 0)
    simp only [layout, htotal]
    exact ⟨((fixedEnd_le_iff hend).1 le_rfl).2, fun _ => fixedEnd_le_iff hend⟩
  · have htotal : totalFixedSize b.constants n = b.constants.fixedBlockSize := if_pos hd
    simp only [layout, htotal]
    refine ⟨trivial, fixedWithin_iff_reads h le_rfl, fun f hf he k n hk hn hlt => ?_⟩
    obtain ⟨bounds, hnested, hdeclared, -⟩ := exists_bounds_of_scan h
    exact le_of_sizeUpTo (hnested f hf he k n hk hn) (hdeclared hd) hlt

/-- Without a declared size the total is where the nested value starts, with one it ends there. -/
theorem analysis_fixedWithin_delegate :
    FixedWithin (Delegate.scanned .varying).facts (Delegate.scanned .varying).pointers 5 ∧
      FixedWithin (Delegate.scanned (.fixed 4)).facts (Delegate.scanned (.fixed 4)).pointers 9 := by
  obtain ⟨-, hcomputed, -⟩ := analysis_fixedWithin Delegate.scan_undeclared Delegate.analysis_undeclared
  obtain ⟨-, -, htaken⟩ := analysis_fixedWithin Delegate.scan_declared Delegate.analysis_declared
  obtain ⟨-, hiff, -⟩ := htaken (by decide)
  refine ⟨(hcomputed rfl).1, hiff.2 ⟨?_, ?_, ?_⟩⟩
  · simp [Scan.layout, Delegate.scanned, Delegate.p, Delegate.name]
  · simp [Scan.layout, Delegate.scanned, Delegate.p, Delegate.name]
  · decide +kernel

/-- A declared size that the routine reads past is taken all the same. -/
theorem read_past_declared_delegate :
    ∃ s layout, scan (Delegate.bundle 4) = .ok s ∧ s.analysis (Delegate.bundle 4) = .ok layout ∧
      ¬ FixedWithin layout.fields s.pointers layout.totalFixedSize := by
  refine ⟨_, _, Delegate.scan_short, Delegate.analysis_short, fun h => ?_⟩
  have hstart : 5 ≤ 4 := h.unsized (Delegate.p .varying) List.mem_cons_self 5 rfl rfl
  exact absurd hstart (by decide)

end Scan

end Routine

end WireLayout
