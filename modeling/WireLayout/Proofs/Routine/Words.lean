import WireLayout.Proofs.Routine.FixedBlock

/-! Numbers of 32 bits. Each number of a scan is one, since it comes from a literal that was accepted as one, from the
width of an encoding, or from the distance between two such numbers. The sums that give the total of a layout are not
bounded by that, and an analysis breaks off where one leaves the 32 bits. Of a nested value the sum is a place that is
known, so only what has a width of its own and the slots can pass the largest number; they do not when the offsets, the
lengths of texts and the slots are of 31 bits. -/

namespace WireLayout

/-- Except for a text, no encoding is wider than sixteen octets. -/
theorem Encoding.fixedSize?_le {e : Encoding} {bound : Nat} (hbound : 16 ≤ bound) (h : ∀ n ∈ e.number?, n ≤ bound)
    {n : Nat} (hn : e.fixedSize? = some n) : n ≤ bound := by
  cases e with
  | fixedAscii length => exact h n hn
  | _ =>
    revert hn
    unfold fixedSize?
    simp only [Option.some.injEq, reduceCtorEq, false_imp_iff] <;> omega

namespace Routine

structure OffsetPointer.InWords (p : OffsetPointer) : Prop where
  slot : p.slot ≤ maxWord
  base : p.base ≤ maxWord

/-- Each number that a scan adds to another one is of 32 bits. -/
structure Scan.InWords (s : Scan) : Prop where
  offsets : ∀ f ∈ s.facts, ∀ k, f.offset = .fixed k → k ≤ maxWord
  sizes : ∀ f ∈ s.facts, ∀ k n, f.offset = .fixed k → f.size = .fixed n → n ≤ maxWord
  pointers : ∀ p ∈ s.pointers.values, p.InWords

/-- The sums of what has a width of its own. -/
structure Scan.WidthsInWords (s : Scan) : Prop where
  records : ∀ f ∈ s.facts, ∀ k n, f.offset = .fixed k → f.encoding.fixedSize? = some n → k + n ≤ maxWord
  slots : ∀ p ∈ s.pointers.values, p.slot + 4 ≤ maxWord

/-- The offsets, the lengths of texts and the slots are not above the largest signed number of 32 bits. -/
structure Scan.InHalfWords (s : Scan) : Prop where
  offsets : ∀ f ∈ s.facts, ∀ k, f.offset = .fixed k → k ≤ maxWord / 2
  lengths : ∀ f ∈ s.facts, ∀ n ∈ f.encoding.number?, n ≤ maxWord / 2
  slots : ∀ p ∈ s.pointers.values, p.slot ≤ maxWord / 2

/-! The pointers of a reader. -/

namespace Reader

variable {r : Reader}

theorem inWords_of_pointer? {statement : List Char} {found : String × OffsetPointer}
    (h : r.pointer? statement = some found) : found.2.InWords := by
  simp only [pointer?, pointerParts?, Option.bind_eq_bind, Option.bind_eq_some_iff, Option.some.injEq] at h
  obtain ⟨parts, ⟨declaration, -, -, -, base, ⟨number, -, hbase⟩, call, -, argument, -, rfl⟩, slot, hslot, rfl⟩ := h
  exact ⟨r.scope.position?_le hslot, (word?_eq_some_iff.1 hbase).2⟩

theorem pointers_assign (member : String) (value : List Char) (nullBit : Option Nat) :
    (r.assign member value nullBit).pointers = r.pointers := by
  unfold assign
  repeat' split
  all_goals rfl

theorem pointers_declareLocal (name : String) (value : List Char) :
    (r.declareLocal name value).pointers = r.pointers := by
  unfold declareLocal
  split <;> rfl

theorem kept_pointers : Kept fun r => ∀ p ∈ r.pointers.values, p.InWords where
  start _ _ := by
    intro p hp
    cases hp
  statement r nullBit body h := by
    unfold simpleStatement
    split
    · exact h
    split
    · rename_i name pointer hpointer
      intro p hp
      obtain ⟨key, hp⟩ := SortedMap.mem_values.1 hp
      rcases SortedMap.mem_entries_insert.1 hp with heq | ⟨-, hp⟩
      · obtain ⟨rfl, rfl⟩ := Prod.mk.inj heq
        exact inWords_of_pointer? hpointer
      · exact h p (SortedMap.mem_values.2 ⟨key, hp⟩)
    split
    · rwa [pointers_assign]
    split
    · rwa [pointers_declareLocal]
    · exact h

end Reader

/-! The sums of a scan. -/

section

variable {b : Bundle} {s : Scan}

theorem Scan.InHalfWords.widths (hhalf : s.InHalfWords) : s.WidthsInWords := by
  refine ⟨fun f hf k n hk hn => ?_, fun p hp => ?_⟩
  · have hoffset := hhalf.offsets f hf k hk
    have hwidth := Encoding.fixedSize?_le (by decide) (hhalf.lengths f hf) hn
    omega
  · have hslot := hhalf.slots p hp
    unfold maxWord at hslot ⊢
    omega

variable (h : scan b = .ok s) (hd : b.constants.fixedBlockSize ≤ maxWord)

include h hd

/-- Each number is of 32 bits, and so is the sum of a nested value: it ends at a boundary. -/
theorem inWords_of_scan : s.InWords ∧
    ∀ f ∈ s.facts, f.encoding = .nested → ∀ k n, f.offset = .fixed k → f.size = .fixed n → k + n ≤ maxWord := by
  obtain ⟨r, hkept, -, hpointers⟩ := exists_scanned_of_scan h
  obtain ⟨bounds, hbounds, hmeasured⟩ := exists_boundaries_of_scan h
  have hslots : ∀ p ∈ s.pointers.values, p.InWords := hpointers ▸ hkept _ Reader.kept_pointers
  have hoffsets : ∀ f ∈ s.facts, ∀ k, f.offset = .fixed k → k ≤ maxWord := fun f hf => (hmeasured f hf).position
  have hnested : ∀ f ∈ s.facts, f.encoding = .nested → ∀ k n, f.offset = .fixed k → f.size = .fixed n →
      k + n ≤ maxWord := by
    intro f hf he k n hk hn
    have hend := ((hmeasured f hf).sizesNested hbounds he hk).ends n hn
    exact hend.le hoffsets (fun p hp => (hslots p hp).slot) hd
  refine ⟨⟨hoffsets, fun f hf k n hk hn => ?_, hslots⟩, hnested⟩
  rcases ((hmeasured f hf).size_eq_fixed_iff hk).1 hn with hwidth | ⟨he, -⟩
  · exact Encoding.fixedSize?_le (by decide) (hmeasured f hf).length hwidth
  · exact le_trans (Nat.le_add_left n k) (hnested f hf he k n hk hn)

theorem sumsInWords_iff_widths : s.SumsInWords ↔ s.WidthsInWords := by
  obtain ⟨bounds, -, hmeasured⟩ := exists_boundaries_of_scan h
  constructor
  · intro hsums
    refine ⟨fun f hf k n hk hn => ?_, hsums.slots⟩
    exact hsums.records f hf k n hk (((hmeasured f hf).size_eq_fixed_iff hk).2 (.inl hn))
  · intro hwidths
    refine ⟨fun f hf k n hk hn => ?_, hwidths.slots⟩
    rcases ((hmeasured f hf).size_eq_fixed_iff hk).1 hn with hwidth | ⟨he, -⟩
    · exact hwidths.records f hf k n hk hwidth
    · exact (inWords_of_scan h hd).2 f hf he k n hk hn

/-- The numbers that give the total of a scan are of 32 bits. Their sums are exactly when those of the records with a
width and of the slots are, which is so when the numbers of these are of 31 bits. Where a sum is not, there is no end of
the fixed block, and a complete scan breaks off; otherwise the end is of 32 bits as soon as the size of the bits is. -/
theorem sumsInWords_of_scan :
    s.InWords ∧ (s.SumsInWords ↔ s.WidthsInWords) ∧ (s.InHalfWords → s.SumsInWords) ∧
      (s.fixedEnd b.constants = .error .overflow ↔ ¬ s.SumsInWords) ∧
      (s.analysis b = .error (.broken .overflow) ↔ s.isComplete = true ∧ ¬ s.SumsInWords) ∧
      ∀ n, s.fixedEnd b.constants = .ok n → (n ≤ maxWord ↔ b.constants.nullableBitFieldSize ≤ maxWord) := by
  obtain ⟨hwords, -⟩ := inWords_of_scan h hd
  have hiff := sumsInWords_iff_widths h hd
  refine ⟨hwords, hiff, fun hhalf => hiff.2 hhalf.widths, ?_, ?_, fun n hend => ?_⟩
  · rw [Scan.fixedEnd_eq_error_iff, and_iff_left rfl]
  · rw [Scan.analysis_eq_broken_iff, and_iff_left rfl]
  · have hsums := (Scan.exists_fixedEnd_iff b.constants).1 ⟨n, hend⟩
    have hwithin : FixedWithin s.facts s.pointers maxWord :=
      ⟨hsums.records, fun f hf k hk _ => hwords.offsets f hf k hk, hsums.slots⟩
    rw [Scan.fixedEnd_le_iff hend, and_iff_left hwithin]

end

theorem sumsInWords_of_scan_delegate :
    (Delegate.scanned (.fixed 4)).SumsInWords ∧
      (Delegate.scanned (.fixed 4)).fixedEnd (Delegate.bundle 9).constants ≠ .error .overflow := by
  obtain ⟨-, -, hhalf, hend, -⟩ := sumsInWords_of_scan Delegate.scan_declared (by decide)
  have hsums := hhalf ⟨?_, ?_, ?_⟩
  · exact ⟨hsums, fun hover => hend.1 hover hsums⟩
  · simp [Delegate.scanned, Delegate.p, Delegate.name, maxWord]
  · simp [Delegate.scanned, Delegate.p, Delegate.name, Encoding.number?]
  · decide +kernel

/-! A routine that reads four octets at the last offset of 32 bits. -/

namespace LastOffset

def bundle (fields : List String) : Bundle :=
  .ofRoutine fields "static T deserialize(B buf, int offset) \x7b o.a = buf.getIntLE(offset + 4294967295); \x7d"

def start (fields : List String) : Reader := { offsetName := "offset".toList, declared := fields }

def steps : List Step := [.execute "o.a = buf.getIntLE(offset + 4294967295)".toList]

def scanned (missing : List String) : Scan where
  facts := [⟨"a", .fixed 4294967295, .fixed 4, .i32le, false, none, none, .verified⟩]
  missing := missing

theorem scan_bundle : ∀ missing ∈ [[], ["b"]], scan (bundle ("a" :: missing)) = .ok (scanned missing) := by
  have htrace : ∀ missing ∈ [[], ["b"]],
      trace? (bundle ("a" :: missing)) = .ok (some (start ("a" :: missing), steps)) := by
    unfold trace? bundle Bundle.ofRoutine Bundle.fieldNames
    simp only [String.reduceToList]
    decide +kernel
  have hafter : ∀ missing ∈ [[], ["b"]],
      ((start ("a" :: missing)).after steps).scanned (bundle ("a" :: missing)) = scanned missing := by
    decide +kernel
  intro missing hmissing
  rw [scan_of_trace (htrace missing hmissing), hafter missing hmissing]

theorem not_sumsInWords (missing : List String) : ¬ (scanned missing).SumsInWords := by
  intro hsums
  have hsum : 4294967295 + 4 ≤ maxWord := hsums.records _ List.mem_cons_self _ _ rfl rfl
  exact absurd hsum (by decide)

end LastOffset

/-- The record ends past the last number of 32 bits, in a scan that leaves a field open, and in a complete one whose
analysis breaks off. -/
theorem sum_past_maxWord_lastOffset :
    (∃ s, scan (LastOffset.bundle ["a", "b"]) = .ok s ∧ ¬ s.SumsInWords) ∧
      ∃ s, scan (LastOffset.bundle ["a"]) = .ok s ∧ s.isComplete = true ∧ ¬ s.SumsInWords ∧
        s.analysis (LastOffset.bundle ["a"]) = .error (.broken .overflow) := by
  have hopen := LastOffset.scan_bundle ["b"] (by decide)
  have hcomplete := LastOffset.scan_bundle [] (by decide)
  exact ⟨⟨_, hopen, LastOffset.not_sumsInWords _⟩, _, hcomplete, rfl, LastOffset.not_sumsInWords _, by decide +kernel⟩

end Routine

end WireLayout
