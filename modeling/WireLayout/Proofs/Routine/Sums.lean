import WireLayout.Proofs.Except
import WireLayout.Proofs.Layout.Validity
import WireLayout.Routine.Scan

/-! The sums of 32 bits in the analysis of a scan: where each record ends, and each slot. They decide between
an end of the fixed block and an overflow. An analysis computes the end of every complete scan, so it
breaks off at one whose sums are too large, whatever size is declared. -/

namespace WireLayout.Routine.Scan

/-- Where a record ends, and where a slot does, is a number of 32 bits. -/
structure SumsInWords (s : Scan) : Prop where
  records : ∀ f ∈ s.facts, ∀ k n, f.offset = .fixed k → f.size = .fixed n → k + n ≤ maxWord
  slots : ∀ p ∈ s.pointers.values, p.slot + 4 ≤ maxWord

theorem checkedSum_eq_ok_iff {a b n : Nat} : checkedSum a b = .ok n ↔ a + b = n ∧ n ≤ maxWord := by
  unfold checkedSum
  split
  · rename_i hle
    rw [Except.ok.injEq]
    exact ⟨fun heq => ⟨heq, heq ▸ hle⟩, fun h => h.1⟩
  · rename_i hle
    simp only [reduceCtorEq, false_iff]
    rintro ⟨rfl, h⟩
    exact hle h

theorem exists_checkedSum_iff {a b : Nat} : (∃ n, checkedSum a b = .ok n) ↔ a + b ≤ maxWord := by
  simp [checkedSum_eq_ok_iff]

theorem eq_overflow_of_checkedSum {a b : Nat} {fault : Fault} (h : checkedSum a b = .error fault) :
    fault = .overflow := by
  unfold checkedSum at h
  split at h
  · cases h
  · exact (Except.error.inj h).symm

variable {f : FieldLayout} {s : Scan} {constants : Constants} {b : Bundle} {fault : Fault} {n size : Nat}

theorem exists_fieldEnd_iff : (∃ n, fieldEnd f = .ok n) ↔
    ∀ k n, f.offset = .fixed k → f.size = .fixed n → k + n ≤ maxWord := by
  unfold fieldEnd
  cases ho : f.offset <;> cases hn : f.size <;> simp [exists_checkedSum_iff]

theorem eq_overflow_of_fieldEnd (h : fieldEnd f = .error fault) : fault = .overflow := by
  unfold fieldEnd at h
  split at h
  · exact eq_overflow_of_checkedSum h
  · cases h
  · cases h

theorem fieldEnd_le_iff (h : fieldEnd f = .ok n) :
    n ≤ size ↔ (∀ k n, f.offset = .fixed k → f.size = .fixed n → k + n ≤ size) ∧
      ∀ k, f.offset = .fixed k → f.size = .varying → k ≤ size := by
  unfold fieldEnd at h
  cases ho : f.offset <;> cases hn : f.size <;> rw [ho, hn] at h
  · obtain ⟨rfl, -⟩ := checkedSum_eq_ok_iff.1 h
    simp
  · cases h
    simp
  · cases h
    simp
  · cases h
    simp

theorem forall_mapM_iff {α : Type} {step : α → Except Fault Nat} {xs : List α} {ends : List Nat}
    {P : α → Prop} (h : xs.mapM step = .ok ends) (hstep : ∀ x n, step x = .ok n → (n ≤ size ↔ P x)) :
    (∀ n ∈ ends, n ≤ size) ↔ ∀ x ∈ xs, P x := by
  have hall := Except.forall₂_of_mapM h
  clear h
  induction hall with
  | nil => simp
  | cons hx _ ih =>
    rw [List.forall_mem_cons, List.forall_mem_cons]
    exact and_congr (hstep _ _ hx) ih

/-- The end of the block is the least size that holds every record and every slot, and has room for the bits. -/
theorem fixedEnd_le_iff_ends (h : s.fixedEnd constants = .ok n) :
    n ≤ size ↔ constants.nullableBitFieldSize ≤ size ∧
      (∀ f ∈ s.facts, (∀ k n, f.offset = .fixed k → f.size = .fixed n → k + n ≤ size) ∧
        ∀ k, f.offset = .fixed k → f.size = .varying → k ≤ size) ∧
      ∀ p ∈ s.pointers.values, p.slot + 4 ≤ size := by
  obtain ⟨fields, hfields, h⟩ := Except.bind_eq_ok_iff.1 h
  obtain ⟨slots, hslots, h⟩ := Except.bind_eq_ok_iff.1 h
  obtain rfl := Except.ok.inj h
  have hmax : (fields ++ slots).foldl max constants.nullableBitFieldSize ≤ size ↔
      constants.nullableBitFieldSize ≤ size ∧ ∀ m ∈ fields ++ slots, m ≤ size :=
    (List.max?_le_iff List.max?_cons').trans List.forall_mem_cons
  have hslot : ∀ (p : OffsetPointer) (n : Nat), slotEnd p = .ok n → (n ≤ size ↔ p.slot + 4 ≤ size) := by
    intro p n hn
    rw [(checkedSum_eq_ok_iff.1 hn).1]
  rw [hmax, List.forall_mem_append, forall_mapM_iff hfields fun f n => fieldEnd_le_iff,
    forall_mapM_iff hslots hslot]

theorem exists_fixedEnd_iff (constants : Constants) : (∃ n, s.fixedEnd constants = .ok n) ↔ s.SumsInWords := by
  have hends : (∃ n, s.fixedEnd constants = .ok n) ↔
      (∃ fields, s.facts.mapM fieldEnd = .ok fields) ∧ ∃ slots, s.pointers.values.mapM slotEnd = .ok slots := by
    simp [fixedEnd, Except.bind_eq_ok_iff]
  rw [hends, Except.exists_mapM_iff, Except.exists_mapM_iff]
  simp only [exists_fieldEnd_iff, slotEnd, exists_checkedSum_iff]
  exact ⟨fun h => ⟨h.1, h.2⟩, fun h => ⟨h.records, h.slots⟩⟩

/-- The end of the block is lost exactly where a sum is too large. -/
theorem fixedEnd_eq_error_iff : s.fixedEnd constants = .error fault ↔ ¬ s.SumsInWords ∧ fault = .overflow := by
  have hfault : ∀ fault, s.fixedEnd constants = .error fault → fault = .overflow := by
    intro fault h
    rcases Except.bind_eq_error_iff.1 h with hfields | ⟨fields, -, h⟩
    · obtain ⟨f, -, hf⟩ := Except.exists_of_mapM_error hfields
      exact eq_overflow_of_fieldEnd hf
    · rcases Except.bind_eq_error_iff.1 h with hslots | ⟨slots, -, h⟩
      · obtain ⟨p, -, hp⟩ := Except.exists_of_mapM_error hslots
        exact eq_overflow_of_checkedSum hp
      · cases h
  rw [← exists_fixedEnd_iff constants]
  cases hend : s.fixedEnd constants with
  | ok n => simp
  | error found => simp [hfault found hend, eq_comm]

/-! The analysis of a scan. -/

/-- Where its block ends, a complete scan gives a layout that is checked. -/
theorem analysis_of_fixedEnd (hc : s.isComplete = true) (hend : s.fixedEnd b.constants = .ok n) :
    s.analysis b =
      ((s.layout b (totalFixedSize b.constants n)).validate b.fieldNames).mapError .failed >>= fun _ =>
        .ok (s.layout b (totalFixedSize b.constants n)) := by
  rw [analysis, hc, Bool.not_true, if_neg Bool.false_ne_true, hend]
  rfl

theorem analysis_eq_ok_iff {layout : Layout} :
    s.analysis b = .ok layout ↔
      s.isComplete = true ∧ ∃ n, s.fixedEnd b.constants = .ok n ∧
        (s.layout b (totalFixedSize b.constants n)).Valid b.fieldNames ∧
        s.layout b (totalFixedSize b.constants n) = layout := by
  unfold analysis
  cases hc : s.isComplete with
  | false => simp
  | true =>
    simp only [Bool.not_true, Bool.false_eq_true, if_false, true_and, Except.bind_eq_ok_iff,
      Except.mapError_eq_ok_iff, Except.ok.injEq, ← Layout.validate_eq_ok_iff]
    exact exists_congr fun n => and_congr_right fun _ =>
      ⟨fun ⟨⟨⟩, hvalid, heq⟩ => ⟨hvalid, heq⟩, fun ⟨hvalid, heq⟩ => ⟨(), hvalid, heq⟩⟩

/-- An analysis breaks off at a complete scan with a sum that is too large, and nowhere else. -/
theorem analysis_eq_broken_iff : s.analysis b = .error (.broken fault) ↔
    s.isComplete = true ∧ ¬ s.SumsInWords ∧ fault = .overflow := by
  unfold analysis
  cases hc : s.isComplete with
  | false => simp
  | true =>
    simp only [Bool.not_true, Bool.false_eq_true, if_false, true_and, Except.bind_eq_error_iff,
      Except.mapError_eq_error_iff, reduceCtorEq, and_false, exists_false, or_false, Abort.broken.injEq,
      exists_eq_right, fixedEnd_eq_error_iff]

end WireLayout.Routine.Scan
