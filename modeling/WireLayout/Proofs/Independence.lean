import WireLayout.Proofs.Inference

/-! What an oracle cannot touch. The facts of a scan settle among themselves which of them keeps a shared bit,
and the verified records of a merged layout are the settled facts, whatever was answered. So two answers
about one bundle give the same verified records, and all their other records are inferred. -/

namespace WireLayout

namespace Overlay

@[simp] theorem release_evidence (facts : List FieldLayout) (f : FieldLayout) :
    (release facts f).evidence = f.evidence := by
  unfold release; split <;> rfl

/-- Facts as they end up in a merged layout, each without a bit that a later one has. -/
def settled : List FieldLayout → List FieldLayout
  | [] => []
  | fact :: rest => release rest fact :: settled rest

theorem names_settled (facts : List FieldLayout) :
    (settled facts).map (·.name) = facts.map (·.name) := by
  induction facts with
  | nil => rfl
  | cons fact rest ih => rw [settled, List.map_cons, List.map_cons, release_name, ih]

theorem mem_settled_iff {facts : List FieldLayout} {f : FieldLayout} :
    f ∈ settled facts ↔
      ∃ before fact after, facts = before ++ fact :: after ∧ f = release after fact := by
  induction facts with
  | nil => simp [settled]
  | cons fact rest ih =>
    rw [settled, List.mem_cons, ih]
    constructor
    · rintro (rfl | ⟨before, x, after, rfl, rfl⟩)
      · exact ⟨[], fact, rest, rfl, rfl⟩
      · exact ⟨fact :: before, x, after, rfl, rfl⟩
    · rintro ⟨before, x, after, heq, rfl⟩
      cases before with
      | nil =>
        obtain ⟨rfl, rfl⟩ := List.cons.inj heq
        exact Or.inl rfl
      | cons y before =>
        obtain ⟨rfl, rfl⟩ := List.cons.inj heq
        exact Or.inr ⟨before, x, after, rfl, rfl⟩

def verifiedOf (fields : List FieldLayout) : List FieldLayout :=
  fields.filter fun f => f.evidence = .verified

theorem mem_verifiedOf {fields : List FieldLayout} {f : FieldLayout} :
    f ∈ verifiedOf fields ↔ f ∈ fields ∧ f.evidence = .verified := by
  rw [verifiedOf, List.mem_filter, decide_eq_true_iff]

section

variable {fields facts : List FieldLayout}

/-- A record under facts is verified exactly when it is one of them, settled. -/
theorem evidence_foldl_addFact (h : (fields.map (·.name)).Nodup) (hfacts : (facts.map (·.name)).Nodup)
    (hi : ∀ f ∈ fields, f.evidence = .inferred) (hv : ∀ f ∈ facts, f.evidence = .verified)
    {f : FieldLayout} (hf : f ∈ facts.foldl addFact fields) :
    f.evidence = .verified ∧ f ∈ settled facts ∨
      f.evidence = .inferred ∧ f.name ∉ facts.map (·.name) := by
  rcases (mem_foldl_addFact h hfacts).1 hf with hsettled | ⟨g, hg, hn, rfl⟩
  · obtain ⟨before, fact, after, rfl, rfl⟩ := hsettled
    left
    refine ⟨?_, mem_settled_iff.2 ⟨before, fact, after, rfl, rfl⟩⟩
    rw [release_evidence]
    exact hv fact (by simp)
  · right
    rw [release_evidence, release_name]
    exact ⟨hi g hg, hn⟩

theorem verifiedOf_foldl_addFact (h : (fields.map (·.name)).Nodup) (hfacts : (facts.map (·.name)).Nodup)
    (hmerged : ((facts.foldl addFact fields).map (·.name)).Nodup)
    (hi : ∀ f ∈ fields, f.evidence = .inferred) (hv : ∀ f ∈ facts, f.evidence = .verified) :
    (verifiedOf (facts.foldl addFact fields)).Perm (settled facts) := by
  have hnodup : (verifiedOf (facts.foldl addFact fields)).Nodup :=
    (List.Nodup.of_map _ hmerged).filter _
  have hsettled : (settled facts).Nodup := by
    rw [← names_settled] at hfacts
    exact List.Nodup.of_map _ hfacts
  rw [List.perm_ext_iff_of_nodup hnodup hsettled]
  intro f
  rw [mem_verifiedOf]
  constructor
  · rintro ⟨hf, hverified⟩
    rcases evidence_foldl_addFact h hfacts hi hv hf with ⟨-, hmem⟩ | ⟨hinferred, -⟩
    · exact hmem
    · rw [hinferred] at hverified
      cases hverified
  · intro hmem
    obtain ⟨before, fact, after, rfl, rfl⟩ := mem_settled_iff.1 hmem
    refine ⟨(mem_foldl_addFact h hfacts).2 (Or.inl ⟨before, fact, after, rfl, rfl⟩), ?_⟩
    rw [release_evidence]
    exact hv fact (by simp)

end

end Overlay

open Overlay

namespace Oracle

variable {oracle : Oracle} {b : Bundle} {layout : Layout}

theorem inferred_of_normalize {raw : RawLayout} (h : normalize b raw = .ok layout) :
    ∀ f ∈ layout.fields, f.evidence = .inferred := by
  unfold normalize at h
  obtain ⟨fields, hfields, h⟩ := Except.bind_eq_ok_iff.1 h
  obtain ⟨nullBits, -, h⟩ := Except.bind_eq_ok_iff.1 h
  obtain ⟨⟨⟩, -, h⟩ := Except.bind_eq_ok_iff.1 h
  cases h
  intro f hf
  obtain ⟨given, -, hgiven⟩ := Except.exists_of_mem_mapM (Except.mapError_eq_ok_iff.1 hfields) hf
  unfold RawField.layout at hgiven
  split at hgiven
  · cases hgiven
  · cases hgiven
    rfl

theorem inferred_of_layout (h : oracle.layout b = .ok layout) :
    ∀ f ∈ layout.fields, f.evidence = .inferred := by
  obtain ⟨value, -, h⟩ := layout_eq_ok_iff.1 h
  obtain ⟨raw, -, h⟩ := readAnswer_eq_ok_iff.1 h
  exact inferred_of_normalize h

end Oracle

open Routine

namespace Routine.Scan

variable {s : Scan} {b : Bundle}

theorem verified_trusted (h : scan b = .ok s) : ∀ f ∈ s.trusted, f.evidence = .verified :=
  fun f hf => verified_of_scan h f (s.trusted_sublist.subset hf)

end Routine.Scan

namespace Engine

variable {oracle : Oracle} {b : Bundle} {s : Scan} {attempt : Attempt} {layout : Layout}

/-- The verified records of a merged layout depend on the scan alone, and exactly the records with the name
of no fact are inferred. -/
theorem verified_of_infer {refusal : Abort Error} (hs : scan b = .ok s) (ha : s.analysis b = .error refusal)
    (h : (withOracle oracle).infer b = .ok attempt) (hl : attempt.result = .ok layout) :
    (verifiedOf layout.fields).Perm (settled s.trusted) ∧
      ∀ f ∈ layout.fields, f.evidence = .inferred ↔ f.name ∉ s.trusted.map (·.name) := by
  obtain ⟨_, answer, -, hanswer, rfl⟩ := exists_answer_of_infer hs ha h hl
  have hanswered := (Oracle.valid_of_layout hanswer).2.records.distinct
  have hfacts := (Scan.records_trusted hs).distinct
  have hinferred := Oracle.inferred_of_layout hanswer
  have hverified := Scan.verified_trusted hs
  refine ⟨verifiedOf_foldl_addFact hanswered hfacts (coherent_of_infer h hl).2.records.distinct hinferred
    hverified, fun f hf => ?_⟩
  rcases evidence_foldl_addFact hanswered hfacts hinferred hverified hf with ⟨hv, hmem⟩ | ⟨hi, hn⟩
  · have hname : f.name ∈ s.trusted.map (·.name) := by
      rw [← names_settled]
      exact List.mem_map_of_mem hmem
    simp [hv, hname]
  · exact iff_of_true hi hn

end Engine

namespace SharedGuard

/-- Another oracle: it claims the shared bit for the field left out, and speaks of a fact too. -/
def rival : Oracle := fun _ =>
  .ok (.obj [("fields", .arr [
      .obj [("name", .str "b"), ("encoding", .str "u8"), ("wireOffset", .int 7)],
      .obj [("name", .str "c"), ("encoding", .str "u8"), ("nullBit", .int 1)]]),
    ("nullBitMappings", .arr [.obj [("bit", .int 2), ("fieldName", .str "a")]])])

def rivalAnswer : Layout := { answer with
  fields := [⟨"b", .fixed 7, .varying, .u8, false, none, none, .inferred⟩,
    ⟨"c", .varying, .varying, .u8, false, some 1, none, .inferred⟩]
  nullBits := (∅ : SortedMap Nat String).insert 2 "a" }

theorem layout_rival : rival.layout bundle = .ok rivalAnswer := by decide +kernel

theorem infer_rival : (Engine.withOracle rival).infer bundle =
    .ok ⟨.ok (overlay rivalAnswer [a, b] bundle), [.ofBundle bundle]⟩ := by
  rw [Engine.infer_withOracle checkedScan_bundle, Engine.answered, layout_rival]
  rfl

end SharedGuard

namespace Engine

/-- Two oracles that are asked about one bundle give the same verified records: those of the facts of the
scan, or none when a complete scan was refused. All their other records are inferred. -/
theorem infer_verified_independent {b : Bundle} {s : Scan} {first second : Oracle}
    {attempt₁ attempt₂ : Attempt} {layout₁ layout₂ : Layout} {refusal : Abort Error} (hs : scan b = .ok s)
    (ha : s.analysis b = .error refusal)
    (h₁ : (withOracle first).infer b = .ok attempt₁) (hl₁ : attempt₁.result = .ok layout₁)
    (h₂ : (withOracle second).infer b = .ok attempt₂) (hl₂ : attempt₂.result = .ok layout₂) :
    (layout₁.fields.filter (·.evidence = .verified)).Perm (layout₂.fields.filter (·.evidence = .verified)) ∧
      ((layout₁.fields.filter (·.evidence = .verified)).map (·.name)).Perm
        (if s.isComplete then [] else s.facts.map (·.name)) ∧
      ∀ f ∈ layout₁.fields ++ layout₂.fields,
        f.evidence = .inferred ↔ f.name ∉ if s.isComplete then [] else s.facts.map (·.name) := by
  have htrusted : s.trusted.map (·.name) = if s.isComplete then [] else s.facts.map (·.name) := by
    unfold Scan.trusted
    split <;> rfl
  obtain ⟨hperm₁, hothers₁⟩ := verified_of_infer hs ha h₁ hl₁
  obtain ⟨hperm₂, hothers₂⟩ := verified_of_infer hs ha h₂ hl₂
  rw [← htrusted]
  refine ⟨hperm₁.trans hperm₂.symm, ?_, List.forall_mem_append.2 ⟨hothers₁, hothers₂⟩⟩
  rw [← names_settled s.trusted]
  exact hperm₁.map _

/-- Where two oracles disagree on everything else, both facts under the shared guard come out alike. -/
theorem infer_verified_independent_shared_guard :
    ((overlay SharedGuard.rivalAnswer [SharedGuard.a, SharedGuard.b] SharedGuard.bundle).fields.filter
        (·.evidence = .verified)).Perm (SharedGuard.merged.fields.filter (·.evidence = .verified)) ∧
      SharedGuard.scanned.isComplete = false := by
  have ha : SharedGuard.scanned.analysis SharedGuard.bundle =
      .error (.failed (.unresolved "T" ["c"])) := rfl
  exact ⟨(infer_verified_independent SharedGuard.scan_bundle ha SharedGuard.infer_rival rfl
    SharedGuard.infer_bundle rfl).1, rfl⟩

end Engine

end WireLayout
