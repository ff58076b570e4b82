import WireLayout.Proofs.Independence
import WireLayout.Proofs.Routine.Steps

/-! Whether a layout says that it has a variable section. A layout that is scanned derives this from its
records. A merged one takes it from the answer, so it is reported consistently exactly when the answer
claims a section, or when nothing at all lies in one: neither a trusted fact, nor a record of the answer
that no fact replaces, nor the start. -/

namespace WireLayout

open WireLayout.Routine

/-- A section is claimed where a field lies in it, and where it is said to start. -/
structure Layout.ReportsSection (layout : Layout) : Prop where
  flagged : ∀ f ∈ layout.fields, f.isVariable = true → layout.hasVariableSection = true
  start : ∀ n, layout.variableSectionStart = some n → layout.hasVariableSection = true

theorem Layout.reportsSection_iff {layout : Layout} :
    layout.ReportsSection ↔ layout.hasVariableSection = true ∨
      layout.variableSectionStart = none ∧ ∀ f ∈ layout.fields, f.isVariable = false := by
  constructor
  · intro h
    cases hflag : layout.hasVariableSection with
    | true => exact Or.inl rfl
    | false =>
      refine Or.inr ⟨?_, fun f hf => ?_⟩
      · rw [Option.eq_none_iff_forall_ne_some]
        exact fun n hn => absurd (h.start n hn) (by simp [hflag])
      · rw [Bool.eq_false_iff]
        exact fun hv => absurd (h.flagged f hf hv) (by simp [hflag])
  · rintro (hflag | ⟨hstart, hfields⟩)
    · exact ⟨fun _ _ _ => hflag, fun _ _ => hflag⟩
    · refine ⟨fun f hf hv => ?_, fun n hn => ?_⟩
      · rw [hfields f hf] at hv
        cases hv
      · rw [hstart] at hn
        cases hn

/-- A scan derives the flag from its facts, and gives a start only under the flag. -/
theorem Routine.Scan.reportsSection_layout (s : Scan) (b : Bundle) (size : Nat) :
    (s.layout b size).ReportsSection := by
  refine ⟨fun f hf hv => ?_, fun n hn => ?_⟩
  · have hany : s.facts.any (·.isVariable) = true := List.any_eq_true.2 ⟨f, hf, hv⟩
    simp [Scan.layout, Scan.hasVariableSection, hany]
  · simp only [Scan.layout, Scan.variableSectionStart] at hn
    split at hn
    · assumption
    · cases hn

namespace Overlay

@[simp] theorem release_isVariable (facts : List FieldLayout) (f : FieldLayout) :
    (release facts f).isVariable = f.isVariable := by
  unfold release; split <;> rfl

/-- Where a variable record of a merged layout comes from. -/
theorem exists_variable_foldl_addFact {fields facts : List FieldLayout} (h : (fields.map (·.name)).Nodup)
    (hfacts : (facts.map (·.name)).Nodup) :
    (∃ f ∈ facts.foldl addFact fields, f.isVariable = true) ↔
      (∃ fact ∈ facts, fact.isVariable = true) ∨
        ∃ f ∈ fields, f.isVariable = true ∧ f.name ∉ facts.map (·.name) := by
  constructor
  · rintro ⟨f, hf, hv⟩
    rcases (mem_foldl_addFact h hfacts).1 hf with ⟨before, fact, after, rfl, rfl⟩ | ⟨g, hg, hn, rfl⟩
    · exact Or.inl ⟨fact, by simp, by simpa using hv⟩
    · exact Or.inr ⟨g, hg, by simpa using hv, hn⟩
  · rintro (⟨fact, hfact, hv⟩ | ⟨g, hg, hv, hn⟩)
    · obtain ⟨before, after, rfl⟩ := List.append_of_mem hfact
      exact ⟨release after fact, (mem_foldl_addFact h hfacts).2 (Or.inl ⟨before, fact, after, rfl, rfl⟩),
        by simpa using hv⟩
    · exact ⟨release facts g, (mem_foldl_addFact h hfacts).2 (Or.inr ⟨g, hg, hn, rfl⟩), by simpa using hv⟩

end Overlay

/-- The flag and the start of a merged layout are those of the answer, whatever the facts say. -/
theorem reportsSection_overlay_iff {answer : Layout} {facts : List FieldLayout} {b : Bundle}
    (h : (answer.fields.map (·.name)).Nodup) (hfacts : (facts.map (·.name)).Nodup) :
    (overlay answer facts b).ReportsSection ↔ answer.hasVariableSection = true ∨
      answer.variableSectionStart = none ∧ (∀ fact ∈ facts, fact.isVariable = false) ∧
        ∀ f ∈ answer.fields, f.isVariable = true → f.name ∈ facts.map (·.name) := by
  have hrecords := not_congr (Overlay.exists_variable_foldl_addFact h hfacts)
  simp only [not_or, not_exists, not_and, Bool.not_eq_true, not_not] at hrecords
  rw [Layout.reportsSection_iff, ← hrecords]
  rfl

namespace Oracle

variable {b : Bundle} {raw : RawLayout} {answer : Layout}

theorem RawField.place_of_layout {given : RawField} {f : FieldLayout} {entity : String}
    (h : given.layout entity = .ok f) : (f.name, f.isVariable) = (given.name, given.isVariable) := by
  unfold RawField.layout at h
  split at h
  · cases h
  · cases h
    rfl

theorem places_of_mapM {given : List RawField} {fields : List FieldLayout} {entity : String}
    (h : given.mapM (RawField.layout entity) = .ok fields) :
    fields.map (fun f => (f.name, f.isVariable)) = given.map fun f => (f.name, f.isVariable) := by
  induction Except.forall₂_of_mapM h with
  | nil => rfl
  | cons hf hrest ih =>
    rw [List.map_cons, List.map_cons, RawField.place_of_layout hf, ih (Except.mapM_of_forall₂ hrest)]

/-- What normalisation leaves of an answer: the flag and the start, and of its fields the names and which
of them are variable. -/
theorem section_of_normalize (h : normalize b raw = .ok answer) :
    answer.hasVariableSection = raw.hasVariableSection ∧
      answer.variableSectionStart = raw.variableSectionStart.bind word? ∧
      answer.fields.map (fun f => (f.name, f.isVariable)) =
        raw.fields.map fun f => (f.name, f.isVariable) := by
  unfold normalize at h
  obtain ⟨fields, hfields, h⟩ := Except.bind_eq_ok_iff.1 h
  obtain ⟨nullBits, -, h⟩ := Except.bind_eq_ok_iff.1 h
  obtain ⟨⟨⟩, -, h⟩ := Except.bind_eq_ok_iff.1 h
  cases h
  exact ⟨rfl, rfl, places_of_mapM (Except.mapError_eq_ok_iff.1 hfields)⟩

/-- Facts laid over an answer, in terms of the answer as it was given. -/
theorem reportsSection_overlay_normalize_iff {facts : List FieldLayout} (h : normalize b raw = .ok answer)
    (hfacts : (facts.map (·.name)).Nodup) :
    (overlay answer facts b).ReportsSection ↔ raw.hasVariableSection = true ∨
      raw.variableSectionStart.bind word? = none ∧ (∀ fact ∈ facts, fact.isVariable = false) ∧
        ∀ f ∈ raw.fields, f.isVariable = true → f.name ∈ facts.map (·.name) := by
  obtain ⟨hflag, hstart, hfields⟩ := section_of_normalize h
  have hnames : (∀ f ∈ answer.fields, f.isVariable = true → f.name ∈ facts.map (·.name)) ↔
      ∀ f ∈ raw.fields, f.isVariable = true → f.name ∈ facts.map (·.name) := by
    have hmem := congrArg (fun l : List (String × Bool) => ∀ p ∈ l, p.2 = true → p.1 ∈ facts.map (·.name)) hfields
    simpa only [List.forall_mem_map, eq_iff_iff] using hmem
  rw [reportsSection_overlay_iff (valid_of_normalize h).2.records.distinct hfacts, hflag, hstart, hnames]

end Oracle

/-! A routine that reads a text from the variable block, and an oracle that knows the other field only. -/

namespace ReadText

def bundle : Bundle := .ofRoutine ["name", "c"]
  "static T deserialize(B buf, int offset) \x7b o.name = PacketIO.readVarString(buf, end); \x7d"

def oracle : Oracle := fun _ =>
  .ok (.obj [("fields", .arr [.obj [("name", .str "c"), ("encoding", .str "u8")]])])

def name : FieldLayout := ⟨"name", .varying, .varying, .varUtf8, true, none, none, .verified⟩

def scanned : Scan := { facts := [name], missing := ["c"] }

def answer : Layout := {
  entity := "T"
  fields := [⟨"c", .varying, .varying, .u8, false, none, none, .inferred⟩]
  totalFixedSize := 0
  hasVariableSection := false
  variableSectionStart := none
  nullBits := ∅
  notes := none }

def merged : Layout := overlay answer [name] bundle

theorem checkedScan_bundle : checkedScan bundle = .ok scanned := by decide +kernel

theorem layout_oracle : oracle.layout bundle = .ok answer := by decide +kernel

theorem infer_bundle : (Engine.withOracle oracle).infer bundle = .ok ⟨.ok merged, [.ofBundle bundle]⟩ := by
  rw [Engine.infer_withOracle checkedScan_bundle, Engine.answered, layout_oracle]
  rfl

end ReadText

namespace Engine

/-- Every accepted scan reports its variable section consistently. A layout that comes from an oracle has the
flag and the start of the raw answer; it reports the section consistently exactly when the answer sets
the flag, or gives no start and leaves nothing variable, the trusted facts included. -/
theorem infer_reportsSection {engine : Engine} {b : Bundle} {attempt : Attempt} {layout : Layout}
    (h : engine.infer b = .ok attempt) (hl : attempt.result = .ok layout) :
    ∃ s, scan b = .ok s ∧
      (s.analysis b = .ok layout ∧ layout.ReportsSection ∨
        ∃ (oracle : Oracle) (value : Json) (raw : Oracle.RawLayout) (answer : Layout),
          engine.fallback = some oracle ∧ oracle (.ofBundle b) = .ok value ∧
          Oracle.decode b.entity value = .ok raw ∧ Oracle.normalize b raw = .ok answer ∧
          layout = overlay answer s.trusted b ∧ layout.hasVariableSection = raw.hasVariableSection ∧
          layout.variableSectionStart = raw.variableSectionStart.bind word? ∧
          (layout.ReportsSection ↔ raw.hasVariableSection = true ∨
            raw.variableSectionStart.bind word? = none ∧ (∀ fact ∈ s.trusted, fact.isVariable = false) ∧
              ∀ f ∈ raw.fields, f.isVariable = true → f.name ∈ s.trusted.map (·.name))) := by
  obtain ⟨s, hs, ha | ⟨-, oracle, answer, -, hfallback, hanswer, rfl⟩⟩ := cases_of_infer h hl
  · refine ⟨s, hs, Or.inl ⟨ha, ?_⟩⟩
    obtain ⟨-, n, -, -, rfl⟩ := Scan.analysis_eq_ok_iff.1 ha
    exact s.reportsSection_layout b _
  · obtain ⟨value, hvalue, hanswer⟩ := Oracle.layout_eq_ok_iff.1 hanswer
    obtain ⟨raw, hraw, hanswer⟩ := Oracle.readAnswer_eq_ok_iff.1 hanswer
    obtain ⟨hflag, hstart, -⟩ := Oracle.section_of_normalize hanswer
    exact ⟨s, hs, Or.inr ⟨oracle, value, raw, answer, hfallback, hvalue, hraw, hanswer, rfl, hflag, hstart,
      Oracle.reportsSection_overlay_normalize_iff hanswer (Scan.records_trusted hs).distinct⟩⟩

/-- The verified text makes a merged layout whose flag denies the section it lies in. -/
theorem infer_reportsSection_readText :
    (withOracle ReadText.oracle).infer ReadText.bundle = .ok ⟨.ok ReadText.merged, [.ofBundle ReadText.bundle]⟩ ∧
      ¬ ReadText.merged.ReportsSection := by
  refine ⟨ReadText.infer_bundle, ?_⟩
  obtain ⟨s, hs, ⟨ha, -⟩ | ⟨oracle, value, raw, answer, -, -, -, -, -, hflag, -, hiff⟩⟩ :=
    infer_reportsSection ReadText.infer_bundle rfl
  · obtain rfl := Except.ok.inj (hs.symm.trans (scan_of_checkedScan ReadText.checkedScan_bundle))
    cases ha
  · obtain rfl := Except.ok.inj (hs.symm.trans (scan_of_checkedScan ReadText.checkedScan_bundle))
    rw [hiff, ← hflag]
    rintro (hclaimed | ⟨-, hfacts, -⟩)
    · cases hclaimed
    · cases hfacts ReadText.name (by decide)

/-- A verified field of the variable block is merged into a layout without a variable section. -/
theorem section_denied_readText :
    ∃ attempt layout, (withOracle ReadText.oracle).infer ReadText.bundle = .ok attempt ∧
      attempt.result = .ok layout ∧
      ¬ ((∀ f ∈ layout.fields, f.isVariable = true → layout.hasVariableSection = true) ∧
        ∀ n, layout.variableSectionStart = some n → layout.hasVariableSection = true) ∧
      ∃ f ∈ layout.fields, f.evidence = .verified ∧ f.isVariable = true ∧
        layout.hasVariableSection = false := by
  have hname : ReadText.name ∈ ReadText.merged.fields := by decide +kernel
  refine ⟨_, _, ReadText.infer_bundle, rfl, fun h => ?_, ReadText.name, hname, rfl, rfl, rfl⟩
  cases h.1 _ hname rfl

end Engine

end WireLayout
