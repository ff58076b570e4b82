import WireLayout.Proofs.Routine.Facts
import WireLayout.Proofs.Routine.Readings

/-! The places at which something is known to begin or to end: a field with a constant offset, a slot, or the fixed
block itself as it is declared. A record has the width of its encoding. A nested one has no such width and goes on to
the next of these places, so it ends at one and passes over none. -/

namespace WireLayout

theorem WireSize.ofNat?_eq_fixed_iff {size? : Option Nat} {n : Nat} : ofNat? size? = fixed n ↔ size? = some n := by
  cases size? <;> simp [ofNat?]

namespace Routine

def Scan.IsBoundary (s : Scan) (b : Bundle) (n : Nat) : Prop :=
  (∃ f ∈ s.facts, f.offset = .fixed n) ∨ (∃ p ∈ s.pointers.values, p.slot = n) ∨
    0 < b.constants.fixedBlockSize ∧ n = b.constants.fixedBlockSize

/-- What bounds the offsets, the slots and the declared size bounds the boundaries. -/
theorem Scan.IsBoundary.le {s : Scan} {b : Bundle} {n size : Nat} (h : s.IsBoundary b n)
    (hoffsets : ∀ f ∈ s.facts, ∀ k, f.offset = .fixed k → k ≤ size) (hslots : ∀ p ∈ s.pointers.values, p.slot ≤ size)
    (hd : b.constants.fixedBlockSize ≤ size) : n ≤ size := by
  obtain ⟨f, hf, hoffset⟩ | ⟨p, hp, rfl⟩ | ⟨-, rfl⟩ := h
  · exact hoffsets f hf n hoffset
  · exact hslots p hp
  · exact hd

/-! The search for the next place. -/

section

variable {bounds : List Nat} {offset : Nat}

theorem sizeUpTo_eq_some_iff {size : Nat} :
    sizeUpTo bounds offset = some size ↔
      ∃ next, IsLeast {n | n ∈ bounds ∧ min (offset + 1) maxWord ≤ n} next ∧ next - offset = size := by
  have hleast : ∀ next, (bounds.filter (min (offset + 1) maxWord ≤ ·)).min? = some next ↔
      IsLeast {n | n ∈ bounds ∧ min (offset + 1) maxWord ≤ n} next := by
    intro next
    rw [List.min?_eq_some_iff]
    simp only [List.mem_filter, decide_eq_true_iff]
    rfl
  rw [sizeUpTo, Option.map_eq_some_iff]
  simp only [hleast]

theorem sizeUpTo_eq_none_iff : sizeUpTo bounds offset = none ↔ ∀ n ∈ bounds, n < min (offset + 1) maxWord := by
  rw [sizeUpTo, Option.map_eq_none_iff, List.min?_eq_none_iff, List.filter_eq_nil_iff]
  simp only [decide_eq_true_iff, not_le]

end

/-! The records of a scan. -/

/-- The size of a record with a constant offset is the width of its encoding, or the distance to the next boundary when
it is nested, and its numbers are of 32 bits. -/
structure MeasuredBy (bounds : List Nat) (f : FieldLayout) : Prop where
  position : ∀ k, f.offset = .fixed k → k ≤ maxWord
  length : ∀ n ∈ f.encoding.number?, n ≤ maxWord
  size : ∀ k, f.offset = .fixed k →
    f.size = .ofNat? (f.encoding.fixedSize? <|> if f.encoding = .nested then sizeUpTo bounds k else none)

section

variable {bounds : List Nat}

theorem MeasuredBy.size_of_nested {f : FieldLayout} (h : MeasuredBy bounds f) (he : f.encoding = .nested) {k : Nat}
    (hk : f.offset = .fixed k) : f.size = .ofNat? (sizeUpTo bounds k) := by
  rw [h.size k hk, he]
  rfl

theorem MeasuredBy.size_eq_fixed_iff {f : FieldLayout} (h : MeasuredBy bounds f) {k n : Nat}
    (hk : f.offset = .fixed k) :
    f.size = .fixed n ↔ f.encoding.fixedSize? = some n ∨ f.encoding = .nested ∧ sizeUpTo bounds k = some n := by
  rw [h.size k hk, WireSize.ofNat?_eq_fixed_iff]
  by_cases he : f.encoding = .nested
  · simp [he, Encoding.fixedSize?]
  · simp [he]

theorem Fact.layout_offset (f : Fact) (k : Nat) :
    (f.layout bounds).offset = .fixed k ↔ f.offset? = some k := by
  unfold Fact.layout Fact.offset?
  cases f.reading <;> simp

theorem Fact.measuredBy_layout {f : Fact} (h : f.reading.Measured) : MeasuredBy bounds (f.layout bounds) := by
  unfold Fact.layout
  cases hr : f.reading with
  | varying encoding size slot =>
    rw [hr] at h
    exact ⟨nofun, h.length, nofun⟩
  | fixed offset encoding size =>
    rw [hr] at h
    refine ⟨?_, h.length, ?_⟩
    · rintro _ ⟨⟩
      exact h.position _ _ _ rfl
    · rintro _ ⟨⟩
      obtain rfl : size = encoding.fixedSize? := h.size
      rfl

/-- The boundaries of a reader, told by what it gives as the outcome of a scan. -/
theorem Reader.mem_bounds {r : Reader} {b : Bundle} {n : Nat} :
    n ∈ r.bounds b ↔ (r.scanned b).IsBoundary b n := by
  have hstarts : n ∈ r.facts.filterMap Fact.offset? ↔ ∃ f ∈ (r.scanned b).facts, f.offset = .fixed n := by
    rw [List.mem_filterMap]
    constructor
    · rintro ⟨f, hf, hoffset⟩
      exact ⟨f.layout (r.bounds b), (wireOrder_perm _ _).mem_iff.2 (List.mem_map_of_mem hf),
        (f.layout_offset n).2 hoffset⟩
    · rintro ⟨_, hrecord, hoffset⟩
      obtain ⟨f, hf, rfl⟩ := List.mem_map.1 ((wireOrder_perm _ _).mem_iff.1 hrecord)
      exact ⟨f, hf, (f.layout_offset n).1 hoffset⟩
  have hdeclared : (n ∈ if 0 < b.constants.fixedBlockSize then [b.constants.fixedBlockSize] else []) ↔
      0 < b.constants.fixedBlockSize ∧ n = b.constants.fixedBlockSize := by
    split <;> simp [*]
  unfold bounds boundaries Scan.IsBoundary
  rw [List.mem_append, List.mem_append, hstarts, hdeclared, List.mem_map, or_assoc]
  rfl

end

/-- Every record of a scan is measured by the boundaries of the scan. -/
theorem exists_boundaries_of_scan {b : Bundle} {s : Scan} (h : scan b = .ok s) :
    ∃ bounds : List Nat, (∀ n, n ∈ bounds ↔ s.IsBoundary b n) ∧ ∀ f ∈ s.facts, MeasuredBy bounds f := by
  obtain ⟨r, hkept, hfacts, hpointers⟩ := exists_scanned_of_scan h
  refine ⟨r.bounds b, fun n => ?_, fun f hf => ?_⟩
  · rw [Reader.mem_bounds, Scan.IsBoundary, Scan.IsBoundary, hfacts, hpointers]
    rfl
  · rw [hfacts, (wireOrder_perm _ _).mem_iff] at hf
    obtain ⟨fact, hfact, rfl⟩ := List.mem_map.1 hf
    exact Fact.measuredBy_layout ((hkept _ (Reader.kept_reads measured_ofExpressions)).facts fact hfact)

/-! Nested values. -/

/-- How large a nested value at an offset is. It ends at a boundary and has none inside; it is left open only when no
boundary follows. The next boundary is looked for from the offset after its own, cut off at the largest number of 32
bits, and the one that is found is never below the offset from which the size is counted. -/
structure Scan.SizesNested (s : Scan) (b : Bundle) (offset : Nat) (size : WireSize) : Prop where
  apart : ∀ octets, size = .fixed octets → ∀ n, s.IsBoundary b n → ¬ (offset < n ∧ n < offset + octets)
  ends : ∀ octets, size = .fixed octets → s.IsBoundary b (offset + octets)
  last : size = .varying → ∀ n, s.IsBoundary b n → n ≤ offset
  difference : ∀ next, IsLeast {n | s.IsBoundary b n ∧ min (offset + 1) maxWord ≤ n} next →
    offset ≤ next ∧ size = .fixed (next - offset)

theorem Scan.sizesNested_sizeUpTo {s : Scan} {b : Bundle} {bounds : List Nat}
    (hbounds : ∀ n, n ∈ bounds ↔ s.IsBoundary b n) {offset : Nat} (ho : offset ≤ maxWord) :
    s.SizesNested b offset (.ofNat? (sizeUpTo bounds offset)) := by
  have hleast : ∀ next, IsLeast {n | s.IsBoundary b n ∧ min (offset + 1) maxWord ≤ n} next →
      offset ≤ next ∧ sizeUpTo bounds offset = some (next - offset) := by
    intro next hnext
    have hle : min (offset + 1) maxWord ≤ next := hnext.1.2
    refine ⟨by omega, sizeUpTo_eq_some_iff.2 ⟨next, ?_, rfl⟩⟩
    simpa only [hbounds] using hnext
  cases hsize : sizeUpTo bounds offset with
  | none =>
    have hnone := sizeUpTo_eq_none_iff.1 hsize
    refine ⟨nofun, nofun, fun _ n hn => ?_, fun next hnext => ?_⟩
    · have hlt := hnone n ((hbounds n).2 hn)
      omega
    · rw [(hleast next hnext).2] at hsize
      cases hsize
  | some octets =>
    obtain ⟨next, hnext, rfl⟩ := sizeUpTo_eq_some_iff.1 hsize
    simp only [hbounds] at hnext
    obtain ⟨hle, -⟩ := hleast next hnext
    have hend : offset + (next - offset) = next := by omega
    refine ⟨?_, ?_, nofun, fun other hother => ?_⟩
    · rintro _ ⟨⟩ n hn ⟨hlt, hinside⟩
      have hfirst : next ≤ n := hnext.2 ⟨hn, by omega⟩
      omega
    · rintro _ ⟨⟩
      rw [hend]
      exact hnext.1.1
    · obtain rfl := hother.unique hnext
      exact ⟨hle, rfl⟩

theorem MeasuredBy.sizesNested {s : Scan} {b : Bundle} {bounds : List Nat} {f : FieldLayout}
    (h : MeasuredBy bounds f) (hbounds : ∀ n, n ∈ bounds ↔ s.IsBoundary b n) (he : f.encoding = .nested)
    {offset : Nat} (hoffset : f.offset = .fixed offset) : s.SizesNested b offset f.size := by
  rw [h.size_of_nested he hoffset]
  exact Scan.sizesNested_sizeUpTo hbounds (h.position offset hoffset)

/-- Nested values are sized without overlap, whatever the boundaries of the scan are. -/
theorem scan_sizesNested {b : Bundle} {s : Scan} (h : scan b = .ok s) :
    ∀ f ∈ s.facts, f.encoding = .nested → ∀ offset, f.offset = .fixed offset →
      s.SizesNested b offset f.size := by
  obtain ⟨bounds, hbounds, hmeasured⟩ := exists_boundaries_of_scan h
  intro f hf he offset hoffset
  exact (hmeasured f hf).sizesNested hbounds he hoffset

/-! A routine that reads two nested values at one place, a slot behind it, and a third one at the last offset. -/

namespace Neighbours

def bundle : Bundle :=
  { Bundle.ofRoutine ["p", "q", "r"] ("static T deserialize(B buf, int offset) \x7b " ++
      "o.p = Pos.deserialize(buf, offset + 5); o.q = Pos.deserialize(buf, offset + 5); " ++
      "int at = offset + 9 + buf.getIntLE(offset + 7); o.r = Pos.deserialize(buf, offset + 4294967295); \x7d") with
    constants := { fixedBlockSize := 9 } }

def steps : List Step := [
  .execute "o.p = Pos.deserialize(buf, offset + 5)".toList,
  .execute "o.q = Pos.deserialize(buf, offset + 5)".toList,
  .execute "int at = offset + 9 + buf.getIntLE(offset + 7)".toList,
  .execute "o.r = Pos.deserialize(buf, offset + 4294967295)".toList]

def start : Reader := { offsetName := "offset".toList, declared := ["p", "q", "r"] }

def nested (name : String) (offset octets : Nat) : FieldLayout :=
  ⟨name, .fixed offset, .fixed octets, .nested, false, none, none, .verified⟩

theorem scan_bundle : scan bundle = .ok ((start.after steps).scanned bundle) := by
  have htrace : trace? bundle = .ok (some (start, steps)) := by
    unfold trace? bundle Bundle.ofRoutine Bundle.fieldNames
    simp only [String.toList_append, String.reduceToList]
    decide +kernel
  exact scan_of_trace htrace

theorem mem_facts : ∀ f ∈ [nested "p" 5 2, nested "q" 5 2, nested "r" 4294967295 0],
    f ∈ ((start.after steps).scanned bundle).facts := by
  intro f hf
  refine (wireOrder_perm _ _).mem_iff.2 ?_
  revert f
  decide +kernel

end Neighbours

/-- The slot ends the first two, and the last one is empty: the offset after its own is not a number of 32 bits. -/
theorem scan_sizesNested_neighbours :
    ∃ s, scan Neighbours.bundle = .ok s ∧
      (Neighbours.nested "p" 5 2 ∈ s.facts ∧ s.SizesNested Neighbours.bundle 5 (.fixed 2)) ∧
        Neighbours.nested "r" 4294967295 0 ∈ s.facts ∧ s.SizesNested Neighbours.bundle 4294967295 (.fixed 0) := by
  have hmem := Neighbours.mem_facts
  have hp := hmem (Neighbours.nested "p" 5 2) (by decide)
  have hr := hmem (Neighbours.nested "r" 4294967295 0) (by decide)
  have hsizes := scan_sizesNested Neighbours.scan_bundle
  exact ⟨_, Neighbours.scan_bundle, ⟨hp, hsizes _ hp rfl 5 rfl⟩, hr, hsizes _ hr rfl 4294967295 rfl⟩

end Routine

end WireLayout
