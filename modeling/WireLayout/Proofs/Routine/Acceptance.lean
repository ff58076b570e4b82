import WireLayout.Proofs.Inference
import WireLayout.Proofs.Layout.Flaws
import WireLayout.Proofs.Routine.Signature

/-! When a scan is accepted. The facts of a scan are records of declared fields, one for each, and the map of bits is
made of them, so of all the flaws of a layout a scanned one can only have a bit that two of its records share. A scan
is then refused for a field without a fact or for a shared bit, and for nothing else. -/

namespace WireLayout

/-- The same presence bit guards both records. -/
def FieldLayout.SharesBit (f g : FieldLayout) : Prop := ∃ bit, f.nullBit = some bit ∧ g.nullBit = some bit

namespace Routine

variable {b : Bundle} {s : Scan} {layout : Layout} {size : Nat}

theorem pairwise_sharesBit_iff {fields : List FieldLayout} :
    fields.Pairwise (fun f g => ¬ f.SharesBit g) ↔ (fields.filterMap (·.nullBit)).Nodup := by
  rw [List.Nodup, List.pairwise_filterMap]
  refine ⟨fun h => h.imp ?_, fun h => h.imp ?_⟩
  · rintro f g hne bit hf bit' hg rfl
    exact hne ⟨bit, hf, hg⟩
  · rintro f g hne ⟨bit, hf, hg⟩
    exact hne bit hf bit hg rfl

theorem mem_missing_of_scan (h : scan b = .ok s) {name : String} :
    name ∈ s.missing ↔ name ∈ b.fieldNames ∧ ∀ f ∈ s.facts, f.name ≠ name := by
  obtain ⟨-, -, -, -, hmissing⟩ := exists_reader_of_scan h
  simp [hmissing, missingNames_eq]

theorem isComplete_iff_of_scan (h : scan b = .ok s) :
    s.isComplete = true ↔ ∀ name ∈ b.fieldNames, ∃ f ∈ s.facts, f.name = name := by
  rw [Scan.isComplete, List.isEmpty_iff, List.eq_nil_iff_forall_not_mem]
  simp only [mem_missing_of_scan h]
  push Not
  rfl

/-- The only flaw that a scanned layout can have: the others contradict what every reader keeps, or that the map is made
of the records. -/
theorem sharedBit_of_holds (h : scan b = .ok s) {flaw : LayoutFlaw}
    (hflaw : flaw.Holds (s.layout b size) b.fieldNames) :
    ∃ f g bit, [f, g].Sublist s.facts ∧ f.nullBit = some bit ∧ g.nullBit = some bit ∧
      flaw = .sharedBit bit f.name g.name := by
  have hrecords := records_of_scan h
  have hentry : ∀ {bit name}, (s.layout b size).nullBits.find? bit = some name →
      ∃ f ∈ s.facts, f.nullBit = some bit ∧ f.name = name :=
    fun hfound => mem_bitsOf (SortedMap.find?_eq_some_iff.1 hfound)
  have hpower : ∀ {bit name}, (s.layout b size).nullBits.find? bit = some name → ∃ k, bit = 2 ^ k := by
    intro bit name hfound
    obtain ⟨f, hf, hbit, -⟩ := hentry hfound
    exact isPowerOfTwo_iff.1 (hrecords.powers f hf bit hbit)
  -- two entries for one name are of one record, whose bit is both keys
  have honce : ∀ {bit bit' name}, (s.layout b size).nullBits.find? bit = some name →
      (s.layout b size).nullBits.find? bit' = some name → bit = bit' := by
    intro bit bit' name hfound hfound'
    obtain ⟨f, hf, hbit, rfl⟩ := hentry hfound
    obtain ⟨g, hg, hbit', hname⟩ := hentry hfound'
    rw [hrecords.eq_of_name_eq hg hf hname, hbit] at hbit'
    exact Option.some.inj hbit'
  cases flaw with
  | undeclared name =>
    obtain ⟨hnot, f, hf, rfl⟩ := hflaw
    exact absurd (hrecords.declared f hf) hnot
  | repeated name =>
    obtain ⟨f, g, hsub, rfl, hname⟩ := hflaw
    have hdistinct := hrecords.distinct.sublist (hsub.map (·.name))
    simp [hname] at hdistinct
  | badBit bit name =>
    obtain ⟨hnot, f, hf, -, hbit⟩ := hflaw
    exact absurd (isPowerOfTwo_iff.1 (hrecords.powers f hf bit hbit)) hnot
  | sharedBit bit first second =>
    obtain ⟨f, g, hsub, rfl, rfl, hf, hg⟩ := hflaw
    exact ⟨f, g, bit, hsub, hf, hg, rfl⟩
  | badMapping bit =>
    obtain ⟨hnot, hfound⟩ := hflaw
    obtain ⟨name, hfound⟩ := Option.isSome_iff_exists.1 hfound
    exact absurd (hpower hfound) hnot
  | undeclaredMapping bit name =>
    obtain ⟨hnot, hfound⟩ := hflaw
    obtain ⟨f, hf, -, rfl⟩ := hentry hfound
    exact absurd (hrecords.declared f hf) hnot
  | disagreeing bit own name =>
    obtain ⟨hne, hfound, hown⟩ := hflaw
    obtain ⟨f, hf, hbit, rfl⟩ := hentry hfound
    have hfield : (s.layout b size).field? f.name = some f :=
      (Layout.field?_eq_some_iff hrecords.distinct).2 ⟨hf, rfl⟩
    rw [hfield, Option.bind_some, hbit] at hown
    exact absurd (Option.some.inj hown).symm hne
  | mappedTwice name =>
    obtain ⟨bit, bit', hlt, hfound, hfound'⟩ := hflaw
    exact absurd (honce hfound hfound') hlt.ne

/-- A complete scan with sums of 32 bits passes the check, or two of its facts share a bit and the message says
which. -/
theorem analysis_of_complete (h : scan b = .ok s) (hc : s.isComplete = true) (hsums : s.SumsInWords) :
    (∃ layout, s.analysis b = .ok layout) ∨
      ∃ f g bit, [f, g].Sublist s.facts ∧ f.nullBit = some bit ∧ g.nullBit = some bit ∧
        s.analysis b =
          .error (.failed (.invalidLayout b.entity (LayoutFlaw.sharedBit bit f.name g.name).message)) := by
  obtain ⟨n, hend⟩ := (Scan.exists_fixedEnd_iff b.constants).2 hsums
  have hanalysis := Scan.analysis_of_fixedEnd hc hend
  rcases Layout.validate_eq_ok_or_flaw (s.layout b (Scan.totalFixedSize b.constants n)) b.fieldNames with
    hvalid | ⟨flaw, hinvalid, hflaw⟩
  · exact .inl ⟨_, by rw [hanalysis, hvalid]; rfl⟩
  · obtain ⟨f, g, bit, hsub, hf, hg, rfl⟩ := sharedBit_of_holds h hflaw
    exact .inr ⟨f, g, bit, hsub, hf, hg, by rw [hanalysis, hinvalid]; rfl⟩

theorem exists_analysis_iff (h : scan b = .ok s) :
    (∃ layout, s.analysis b = .ok layout) ↔
      s.isComplete = true ∧ s.facts.Pairwise (fun f g => ¬ f.SharesBit g) ∧ s.SumsInWords := by
  simp only [Scan.analysis_eq_ok_iff, pairwise_sharesBit_iff]
  constructor
  · rintro ⟨-, hc, n, hend, hvalid, -⟩
    exact ⟨hc, hvalid.bits_distinct, (Scan.exists_fixedEnd_iff b.constants).1 ⟨n, hend⟩⟩
  · rintro ⟨hc, hbits, hsums⟩
    have hrecords := records_of_scan h
    obtain ⟨n, hend⟩ := (Scan.exists_fixedEnd_iff b.constants).2 hsums
    exact ⟨_, hc, n, hend, ⟨hrecords, hbits, (mirrors_bitsOf hrecords hbits).toAgrees⟩, rfl⟩

/-- An accepted scan covers the declared fields once each, and its map of bits is read off its records. -/
theorem records_of_analysis (h : scan b = .ok s) (ha : s.analysis b = .ok layout) :
    (layout.fields.map (·.name)).Nodup ∧ (∀ name, name ∈ layout.fields.map (·.name) ↔ name ∈ b.fieldNames) ∧
      ∀ bit name, layout.nullBits.find? bit = some name ↔
        ∃ f ∈ layout.fields, f.name = name ∧ f.nullBit = some bit := by
  obtain ⟨hc, n, -, hvalid, rfl⟩ := Scan.analysis_eq_ok_iff.1 ha
  refine ⟨hvalid.records.distinct, fun name => ⟨fun hname => ?_, fun hname => ?_⟩, fun bit name => ⟨fun hfound => ?_, ?_⟩⟩
  · obtain ⟨f, hf, rfl⟩ := List.mem_map.1 hname
    exact hvalid.records.declared f hf
  · obtain ⟨f, hf, rfl⟩ := (isComplete_iff_of_scan h).1 hc name hname
    exact List.mem_map_of_mem hf
  · obtain ⟨f, hf, hbit, hname⟩ := mem_bitsOf (SortedMap.find?_eq_some_iff.1 hfound)
    exact ⟨f, hf, hname, hbit⟩
  · rintro ⟨f, hf, rfl, hbit⟩
    exact find?_bitsOf hvalid.bits_distinct hf hbit

/-- What becomes of a scan. Unless it breaks off, it is accepted exactly when every declared field has a fact, no two
facts share a bit and the sums are of 32 bits. Fields without a fact are named in the order of declaration; a sum that is
too large breaks the analysis off; what remains is a shared bit. -/
theorem analysis_outcome (b : Bundle) :
    (b.BreaksOff ∧ ∃ fault, scan b = .error fault) ∨
      ¬ b.BreaksOff ∧ ∃ s, scan b = .ok s ∧
        ((∃ layout, s.analysis b = .ok layout) ↔
          (∀ name ∈ b.fieldNames, ∃ f ∈ s.facts, f.name = name) ∧
            s.facts.Pairwise (fun f g => ¬ f.SharesBit g) ∧ s.SumsInWords) ∧
        ((∃ name ∈ b.fieldNames, ∀ f ∈ s.facts, f.name ≠ name) →
          s.analysis b = .error (.failed (.unresolved b.entity
            (b.fieldNames.filter fun name => ∀ f ∈ s.facts, f.name ≠ name)))) ∧
        ((∀ name ∈ b.fieldNames, ∃ f ∈ s.facts, f.name = name) → ¬ s.SumsInWords →
          s.analysis b = .error (.broken .overflow)) ∧
        ((∀ name ∈ b.fieldNames, ∃ f ∈ s.facts, f.name = name) → s.SumsInWords →
          ¬ s.facts.Pairwise (fun f g => ¬ f.SharesBit g) →
          ∃ f g bit, [f, g].Sublist s.facts ∧ f.nullBit = some bit ∧ g.nullBit = some bit ∧
            s.analysis b =
              .error (.failed (.invalidLayout b.entity (LayoutFlaw.sharedBit bit f.name g.name).message))) ∧
        ∀ layout, s.analysis b = .ok layout →
          (layout.fields.map (·.name)).Nodup ∧
          (∀ name, name ∈ layout.fields.map (·.name) ↔ name ∈ b.fieldNames) ∧
          ∀ bit name, layout.nullBits.find? bit = some name ↔
            ∃ f ∈ layout.fields, f.name = name ∧ f.nullBit = some bit := by
  rcases course_outcome b with hbreaks | ⟨hbreaks, start, steps, -, hscan⟩
  · exact .inl hbreaks
  · generalize (start.after steps).scanned b = s at hscan
    refine .inr ⟨hbreaks, s, hscan, ?_, ?_, fun hall hsums => ?_, fun hall hsums hshared => ?_,
      fun layout => records_of_analysis hscan⟩
    · rw [exists_analysis_iff hscan, isComplete_iff_of_scan hscan]
    · rintro ⟨name, hname, hnone⟩
      have hincomplete : s.isComplete = false := by
        rw [← Bool.not_eq_true, isComplete_iff_of_scan hscan]
        intro hall
        obtain ⟨f, hf, hfn⟩ := hall name hname
        exact hnone f hf hfn
      obtain ⟨-, -, -, -, hmissing⟩ := exists_reader_of_scan hscan
      rw [Scan.analysis, hincomplete, hmissing, missingNames_eq]
      rfl
    · exact Scan.analysis_eq_broken_iff.2 ⟨(isComplete_iff_of_scan hscan).2 hall, hsums, rfl⟩
    · rcases analysis_of_complete hscan ((isComplete_iff_of_scan hscan).2 hall) hsums with hok | hrefused
      · exact absurd ((exists_analysis_iff hscan).1 hok).2.1 hshared
      · exact hrefused

/-- A routine that gives no value to its one field; the name of its third parameter ends in letters that are not ASCII. -/
def unread : Bundle := .ofRoutine ["a"] "static T deserialize(ByteBuf buf, int offset, int größe) \x7b \x7d"

theorem not_unresolved_unread :
    ¬ ∃ s, scan unread = .ok s ∧ s.analysis unread = .error (.failed (.unresolved "T" ["a"])) := by
  have hscan : scan unread = .error (.splitCharacter "int größe") := by decide +kernel
  rintro ⟨s, hs, -⟩
  rw [hscan] at hs
  cases hs

end Routine

end WireLayout
