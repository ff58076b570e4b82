import WireLayout.Proofs.Except
import WireLayout.Proofs.Overlay
import WireLayout.Proofs.Routine.Facts
import WireLayout.Proofs.Routine.Sums

/-! What an inference gives. A layout comes from a complete scan or from an oracle under the trusted facts of
the scan, and it is coherent in both cases. The check after the merge refuses nothing, so the engine
fails exactly where its oracle does, unless a number overflows or the scan of the routine breaks off. -/

namespace WireLayout

open WireLayout.Routine

namespace Abort

variable {ε α : Type} {x : Except (Abort ε) α} {a : α} {e : ε} {fault : Fault}

theorem settle_eq_ok_ok_iff : settle x = .ok (.ok a) ↔ x = .ok a := by
  obtain (_ | _) | _ := x <;> simp [settle]

theorem settle_eq_ok_error_iff : settle x = .ok (.error e) ↔ x = .error (.failed e) := by
  obtain (_ | _) | _ := x <;> simp [settle]

theorem settle_eq_error_iff : settle x = .error fault ↔ x = .error (.broken fault) := by
  obtain (_ | _) | _ := x <;> simp [settle]

end Abort

theorem Records.sublist {declared : List String} {fields facts : List FieldLayout}
    (h : Records declared fields) (hs : facts.Sublist fields) : Records declared facts :=
  ⟨fun f hf => h.declared f (hs.subset hf), h.distinct.sublist (hs.map _),
    fun f hf => h.powers f (hs.subset hf)⟩

namespace Routine.Scan

variable {s : Scan} {b : Bundle} {size : Nat}

/-- The facts that are laid over the answer of an oracle: those of a complete scan that was refused are
not trusted. -/
def trusted (s : Scan) : List FieldLayout := if s.isComplete then [] else s.facts

theorem trusted_sublist (s : Scan) : s.trusted.Sublist s.facts := by
  unfold trusted
  split
  · exact List.nil_sublist _
  · exact List.Sublist.refl _

theorem records_trusted (h : scan b = .ok s) : Records b.fieldNames s.trusted :=
  (records_of_scan h).sublist s.trusted_sublist

/-- The map of bits of a scanned layout is made of its records. -/
theorem coherent_layout (h : (s.layout b size).Valid b.fieldNames) : (s.layout b size).Coherent b.fieldNames :=
  ⟨h.records, h.bits_distinct, mirrors_bitsOf h.records h.bits_distinct⟩

end Routine.Scan

namespace Oracle

variable {oracle : Oracle} {b : Bundle}

theorem valid_of_normalize {raw : RawLayout} {layout : Layout} (h : normalize b raw = .ok layout) :
    layout.entity = b.entity ∧ layout.Valid b.fieldNames := by
  unfold normalize at h
  obtain ⟨fields, -, h⟩ := Except.bind_eq_ok_iff.1 h
  obtain ⟨nullBits, -, h⟩ := Except.bind_eq_ok_iff.1 h
  obtain ⟨⟨⟩, hvalid, h⟩ := Except.bind_eq_ok_iff.1 h
  cases h
  exact ⟨rfl, Layout.validate_eq_ok_iff.1 (Except.mapError_eq_ok_iff.1 hvalid)⟩

theorem readAnswer_eq_ok_iff {value : Json} {layout : Layout} : readAnswer b value = .ok layout ↔
    ∃ raw, decode b.entity value = .ok raw ∧ normalize b raw = .ok layout := by
  simp only [readAnswer, Except.bind_eq_ok_iff, Except.mapError_eq_ok_iff]

theorem layout_eq_ok_iff {layout : Layout} : oracle.layout b = .ok layout ↔
    ∃ value, oracle (.ofBundle b) = .ok value ∧ readAnswer b value = .ok layout := by
  simp only [Oracle.layout, Except.bind_eq_ok_iff, Except.mapError_eq_ok_iff]

theorem valid_of_readAnswer {value : Json} {layout : Layout} (h : readAnswer b value = .ok layout) :
    layout.entity = b.entity ∧ layout.Valid b.fieldNames := by
  obtain ⟨raw, -, h⟩ := readAnswer_eq_ok_iff.1 h
  exact valid_of_normalize h

theorem valid_of_layout {layout : Layout} (h : oracle.layout b = .ok layout) :
    layout.entity = b.entity ∧ layout.Valid b.fieldNames := by
  obtain ⟨value, -, h⟩ := layout_eq_ok_iff.1 h
  exact valid_of_readAnswer h

/-- An oracle fails to give a layout when the call fails, or the decoding of its answer, or the
normalisation. -/
theorem layout_eq_failed_iff {e : Error} :
    oracle.layout b = .error (.failed e) ↔
      oracle (.ofBundle b) = .error e ∨ ∃ value, oracle (.ofBundle b) = .ok value ∧
        (decode b.entity value = .error e ∨
          ∃ raw, decode b.entity value = .ok raw ∧ normalize b raw = .error (.failed e)) := by
  unfold Oracle.layout readAnswer
  simp only [Except.bind_eq_error_iff, Except.mapError_eq_error_iff, Except.mapError_eq_ok_iff,
    Abort.failed.injEq, exists_eq_right]

theorem layout_eq_broken_iff {fault : Fault} :
    oracle.layout b = .error (.broken fault) ↔ ∃ value raw, oracle (.ofBundle b) = .ok value ∧
      decode b.entity value = .ok raw ∧ normalize b raw = .error (.broken fault) := by
  unfold Oracle.layout readAnswer
  simp [Except.bind_eq_error_iff, Except.mapError_eq_error_iff, Except.mapError_eq_ok_iff]

end Oracle

namespace Engine

variable {oracle : Oracle} {b : Bundle} {s : Scan}

def answered (oracle : Oracle) (verified : List FieldLayout) (b : Bundle) : Except Fault Attempt :=
  (Abort.settle (oracle.layout b)).map fun result => ⟨result.map (overlay · verified b), [.ofBundle b]⟩

/-- The check after the merge never refuses. -/
theorem merge_eq {verified : List FieldLayout} (h : Records b.fieldNames verified) :
    merge oracle verified b = answered oracle verified b := by
  unfold merge answered Oracle.infer
  cases hl : oracle.layout b with
  | error abort => cases abort <;> rfl
  | ok layout =>
    have hvalid := (coherent_overlay (Oracle.valid_of_layout hl).2 h).valid
    rw [← Layout.validate_eq_ok_iff] at hvalid
    simp only [Abort.settle, bind, Except.bind, Except.map, hvalid]

theorem infer_offline (h : checkedScan b = .ok s) :
    offline.infer b = (Abort.settle (s.analysis b)).map (⟨·, []⟩) := by
  unfold infer offline
  rw [h]
  rfl

/-- With an oracle, a scan that is accepted decides alone. Otherwise its trusted facts are laid over the
answer of one request. -/
theorem infer_withOracle (h : checkedScan b = .ok s) :
    (withOracle oracle).infer b = Abort.settle (s.analysis b) >>= fun
      | .ok layout => .ok ⟨.ok layout, []⟩
      | .error _ => answered oracle s.trusted b := by
  rw [← merge_eq (Scan.records_trusted (scan_of_checkedScan h))]
  unfold infer withOracle Scan.trusted
  rw [h]
  simp only [Except.ok_bind]
  cases hc : s.isComplete with
  | true => rfl
  | false =>
    have ha : s.analysis b = .error (.failed (.unresolved b.entity s.missing)) := by simp [Scan.analysis, hc]
    simp only [ha, Abort.settle, Except.ok_bind, Bool.false_eq_true, if_false]

/-- Where the layout of an inference comes from: a scan that is accepted, or an answer under the trusted facts of
one that is not. -/
theorem cases_of_infer {engine : Engine} {attempt : Attempt} {layout : Layout}
    (h : engine.infer b = .ok attempt) (hl : attempt.result = .ok layout) :
    ∃ s, scan b = .ok s ∧
      (s.analysis b = .ok layout ∨ ∃ (refusal : Error) (oracle : Oracle) (answer : Layout),
        s.analysis b = .error (.failed refusal) ∧ engine.fallback = some oracle ∧
          oracle.layout b = .ok answer ∧ layout = overlay answer s.trusted b) := by
  obtain ⟨s, hs, -⟩ := Except.bind_eq_ok_iff.1 h
  refine ⟨s, scan_of_checkedScan hs, ?_⟩
  rcases engine with ⟨_ | oracle⟩
  · rw [show Engine.mk none = offline from rfl, infer_offline hs] at h
    obtain ⟨result, hr, rfl⟩ := Except.map_eq_ok_iff.1 h
    obtain rfl : result = .ok layout := hl
    exact .inl (Abort.settle_eq_ok_ok_iff.1 hr)
  · rw [show Engine.mk (some oracle) = withOracle oracle from rfl, infer_withOracle hs] at h
    obtain ⟨result, hr, h⟩ := Except.bind_eq_ok_iff.1 h
    cases result with
    | ok found =>
      cases h
      cases hl
      exact .inl (Abort.settle_eq_ok_ok_iff.1 hr)
    | error refusal =>
      obtain ⟨result, ha, rfl⟩ := Except.map_eq_ok_iff.1 h
      obtain ⟨answer, rfl, heq⟩ := Except.map_eq_ok_iff.1 hl
      exact .inr ⟨refusal, oracle, answer, Abort.settle_eq_ok_error_iff.1 hr, rfl,
        Abort.settle_eq_ok_ok_iff.1 ha, heq.symm⟩

/-- After a refusal a layout takes an oracle, and lays the trusted facts over its answer. -/
theorem exists_answer_of_infer {engine : Engine} {attempt : Attempt} {layout : Layout} {refusal : Abort Error}
    (hs : scan b = .ok s) (ha : s.analysis b = .error refusal) (h : engine.infer b = .ok attempt)
    (hl : attempt.result = .ok layout) :
    ∃ oracle answer, engine.fallback = some oracle ∧ oracle.layout b = .ok answer ∧
      layout = overlay answer s.trusted b := by
  obtain ⟨s', hs', haccepted | ⟨-, oracle, answer, -, hfallback, hanswer, rfl⟩⟩ := cases_of_infer h hl
  · obtain rfl := Except.ok.inj (hs'.symm.trans hs)
    rw [ha] at haccepted
    cases haccepted
  · obtain rfl := Except.ok.inj (hs'.symm.trans hs)
    exact ⟨oracle, answer, hfallback, hanswer, rfl⟩

/-- Every layout that is inferred is about the entity of its bundle, and coherent. -/
theorem coherent_of_infer {engine : Engine} {attempt : Attempt} {layout : Layout}
    (h : engine.infer b = .ok attempt) (hl : attempt.result = .ok layout) :
    layout.entity = b.entity ∧ layout.Coherent b.fieldNames := by
  obtain ⟨s, hs, ha | ⟨-, oracle, answer, -, -, hanswer, rfl⟩⟩ := cases_of_infer h hl
  · obtain ⟨-, n, -, hvalid, rfl⟩ := Scan.analysis_eq_ok_iff.1 ha
    exact ⟨rfl, Scan.coherent_layout hvalid⟩
  · obtain ⟨hentity, hvalid⟩ := Oracle.valid_of_layout hanswer
    exact ⟨hentity, coherent_overlay hvalid (Scan.records_trusted hs)⟩

end Engine

/-! A routine that reads two fields under one guard, and an oracle that knows the field it leaves out. -/

namespace SharedGuard

def bundle : Bundle := {
  entity := "T"
  package := ""
  constants := {}
  fields := ["a", "b", "c"].map fun name => { name, type := "int", nullable := false }
  routine := "static T deserialize(B buf, int offset) \x7b byte nullBits = buf.getByte(offset); " ++
    "if ((nullBits & 1) != 0) \x7b o.a = buf.getIntLE(offset + 1); o.b = VarInt.peek(buf, end); \x7d \x7d" }

def oracle : Oracle := fun _ =>
  .ok (.obj [("fields", .arr [.obj [("name", .str "c"), ("encoding", .str "u8")]])])

def a : FieldLayout := ⟨"a", .fixed 1, .fixed 4, .i32le, false, some 1, none, .verified⟩

def b : FieldLayout := ⟨"b", .varying, .varying, .varInt, true, some 1, none, .verified⟩

def scanned : Scan := { facts := [a, b], missing := ["c"] }

def answer : Layout := {
  entity := "T"
  fields := [⟨"c", .varying, .varying, .u8, false, none, none, .inferred⟩]
  totalFixedSize := 0
  hasVariableSection := false
  variableSectionStart := none
  nullBits := ∅
  notes := none }

def merged : Layout := overlay answer [a, b] bundle

theorem checkedScan_bundle : checkedScan bundle = .ok scanned := by decide +kernel

theorem scan_bundle : scan bundle = .ok scanned := scan_of_checkedScan checkedScan_bundle

theorem layout_oracle : oracle.layout bundle = .ok answer := by decide +kernel

theorem infer_bundle : (Engine.withOracle oracle).infer bundle = .ok ⟨.ok merged, [.ofBundle bundle]⟩ := by
  rw [Engine.infer_withOracle checkedScan_bundle, Engine.answered, layout_oracle]
  rfl

end SharedGuard

namespace Engine

/-- Every layout that is inferred, with or without an oracle and whatever it answers, has distinct declared
fields with distinct powers of two for bits, and its records and its map of bits agree in both
directions. -/
theorem infer_sound {engine : Engine} {b : Bundle} {attempt : Attempt} {layout : Layout}
    (h : engine.infer b = .ok attempt) (hl : attempt.result = .ok layout) :
    layout.entity = b.entity ∧
      (∀ f ∈ layout.fields, f.name ∈ b.fieldNames) ∧ (layout.fields.map (·.name)).Nodup ∧
      (∀ f ∈ layout.fields, ∀ bit, f.nullBit = some bit → ∃ k, bit = 2 ^ k) ∧
      (∀ f ∈ layout.fields, ∀ g ∈ layout.fields, ∀ bit, f.nullBit = some bit → g.nullBit = some bit →
        f = g) ∧
      (∀ bit name, layout.nullBits.find? bit = some name → (∃ k, bit = 2 ^ k) ∧ name ∈ b.fieldNames) ∧
      layout.nullBits.values.Nodup ∧
      (∀ f ∈ layout.fields, ∀ bit, f.nullBit = some bit → layout.nullBits.find? bit = some f.name) ∧
      (∀ f ∈ layout.fields, ∀ bit own, layout.nullBits.find? bit = some f.name → f.nullBit = some own →
        own = bit) := by
  obtain ⟨hentity, hrecords, hbits, hmirrors⟩ := coherent_of_infer h hl
  refine ⟨hentity, hrecords.declared, hrecords.distinct, ?_, hrecords.bits_distinct_iff.1 hbits, ?_,
    hmirrors.mapped_distinct, hmirrors.owner, ?_⟩
  · intro f hf bit hbit
    exact isPowerOfTwo_iff.1 (hrecords.powers f hf bit hbit)
  · intro bit name hfound
    have hentry := SortedMap.find?_eq_some_iff.1 hfound
    exact ⟨isPowerOfTwo_iff.1 (hmirrors.keys _ hentry), hmirrors.mapped _ hentry⟩
  · intro f hf bit own hfound hown
    exact hmirrors.own _ (SortedMap.find?_eq_some_iff.1 hfound) f hf rfl own hown

/-- Of two facts under one guard, the mapped one is the one that keeps its bit. -/
theorem infer_sound_shared_guard :
    (withOracle SharedGuard.oracle).infer SharedGuard.bundle =
        .ok ⟨.ok SharedGuard.merged, [.ofBundle SharedGuard.bundle]⟩ ∧
      SharedGuard.b ∈ SharedGuard.merged.fields ∧
      SharedGuard.merged.nullBits.find? 1 = some "b" := by
  have hb : SharedGuard.b ∈ SharedGuard.merged.fields := by decide +kernel
  obtain ⟨-, -, -, -, -, -, -, howner, -⟩ := infer_sound SharedGuard.infer_bundle rfl
  exact ⟨SharedGuard.infer_bundle, hb, howner _ hb 1 rfl⟩

/-- Under an incomplete scan every fact ends up in the layout as it was read, except that it gives its bit up
to a later fact with the same one. -/
theorem infer_keeps_facts {engine : Engine} {b : Bundle} {s : Scan} {attempt : Attempt} {layout : Layout}
    {before after : List FieldLayout} {fact : FieldLayout} (hs : scan b = .ok s) (hc : s.isComplete = false)
    (h : engine.infer b = .ok attempt) (hl : attempt.result = .ok layout)
    (hf : s.facts = before ++ fact :: after) :
    fact.evidence = .verified ∧
      { fact with nullBit := if after.any (·.nullBit = fact.nullBit) then none else fact.nullBit } ∈
        layout.fields ∧
      (fact ∈ layout.fields ↔ ∀ bit, fact.nullBit = some bit → ∀ g ∈ after, g.nullBit ≠ some bit) := by
  have hfact : fact ∈ s.facts := by rw [hf]; simp
  have hmem : Overlay.release after fact ∈ layout.fields := by
    obtain ⟨s', hs', ha | ⟨-, oracle, answer, -, -, hanswer, rfl⟩⟩ := cases_of_infer h hl
    · obtain rfl := Except.ok.inj (hs'.symm.trans hs)
      rw [Scan.analysis_eq_ok_iff, hc] at ha
      cases ha.1
    · obtain rfl := Except.ok.inj (hs'.symm.trans hs)
      have htrusted : s'.trusted = s'.facts := by simp [Scan.trusted, hc]
      have hanswered := (Oracle.valid_of_layout hanswer).2.records
      rw [htrusted]
      exact (Overlay.mem_foldl_addFact hanswered.distinct (records_of_scan hs').distinct).2
        (Or.inl ⟨before, fact, after, hf, rfl⟩)
  refine ⟨verified_of_scan hs fact hfact, ?_, ?_⟩
  · rw [← Overlay.release_eq]
    exact hmem
  · rw [← Overlay.release_eq_self_iff]
    constructor
    · intro hkept
      exact (coherent_of_infer h hl).2.records.eq_of_name_eq hmem hkept (Overlay.release_name _ _)
    · intro heq
      rwa [heq] at hmem

/-- Of two facts under one guard, the first loses its bit and the second is kept. -/
theorem infer_keeps_facts_shared_guard :
    { SharedGuard.a with nullBit := none } ∈ SharedGuard.merged.fields ∧
      SharedGuard.b ∈ SharedGuard.merged.fields := by
  have hfirst : SharedGuard.scanned.facts = [] ++ SharedGuard.a :: [SharedGuard.b] := rfl
  have hsecond : SharedGuard.scanned.facts = [SharedGuard.a] ++ SharedGuard.b :: [] := rfl
  obtain ⟨-, ha, -⟩ := infer_keeps_facts SharedGuard.scan_bundle rfl SharedGuard.infer_bundle rfl hfirst
  obtain ⟨-, -, hb⟩ := infer_keeps_facts SharedGuard.scan_bundle rfl SharedGuard.infer_bundle rfl hsecond
  exact ⟨ha, hb.2 (by simp)⟩

theorem fact_of_shared_guard_changed :
    ∃ s attempt layout, scan SharedGuard.bundle = .ok s ∧ s.isComplete = false ∧
      (withOracle SharedGuard.oracle).infer SharedGuard.bundle = .ok attempt ∧ attempt.result = .ok layout ∧
      ∃ fact ∈ s.facts, fact ∉ layout.fields :=
  ⟨_, _, _, SharedGuard.scan_bundle, rfl, SharedGuard.infer_bundle, rfl, SharedGuard.a, List.mem_cons_self,
    by decide +kernel⟩

/-- The outcome with an oracle. Where neither the scan nor a number breaks it off, an accepted scan is the result and
makes no request; otherwise there is one request, and the result is an error exactly when the call, the decoding
or the normalisation is one, since facts laid over a valid layout leave it valid. -/
theorem infer_withOracle_outcome (oracle : Oracle) (b : Bundle) :
    (∀ fault, checkedScan b = .error fault → (withOracle oracle).infer b = .error fault) ∧
      ∀ s, checkedScan b = .ok s →
        (∀ layout, s.analysis b = .ok layout → (withOracle oracle).infer b = .ok ⟨.ok layout, []⟩) ∧
        (∀ fault, s.analysis b = .error (.broken fault) → (withOracle oracle).infer b = .error fault) ∧
        (∀ refusal, s.analysis b = .error (.failed refusal) →
          (∃ value raw fault, oracle (.ofBundle b) = .ok value ∧ Oracle.decode b.entity value = .ok raw ∧
            Oracle.normalize b raw = .error (.broken fault) ∧ (withOracle oracle).infer b = .error fault) ∨
          ∃ result, (withOracle oracle).infer b = .ok ⟨result, [.ofBundle b]⟩ ∧
            ∀ e, result = .error e ↔
              oracle (.ofBundle b) = .error e ∨ ∃ value, oracle (.ofBundle b) = .ok value ∧
                (Oracle.decode b.entity value = .error e ∨
                  ∃ raw, Oracle.decode b.entity value = .ok raw ∧
                    Oracle.normalize b raw = .error (.failed e))) ∧
        ∀ verified : List FieldLayout, verified.Sublist s.facts → ∀ layout : Layout,
          layout.validate b.fieldNames = .ok () →
            (overlay layout verified b).validate b.fieldNames = .ok () := by
  refine ⟨fun fault hs => ?_, fun s hs => ⟨fun layout ha => ?_, fun fault ha => ?_, fun refusal ha => ?_, ?_⟩⟩
  · rw [infer, hs]
    rfl
  · rw [infer_withOracle hs, ha]
    rfl
  · rw [infer_withOracle hs, ha]
    rfl
  · have hinfer : (withOracle oracle).infer b = answered oracle s.trusted b := by
      rw [infer_withOracle hs, ha]
      rfl
    rw [hinfer, answered]
    cases hl : Abort.settle (oracle.layout b) with
    | error fault =>
      obtain ⟨value, raw, hvalue, hraw, hbroken⟩ :=
        Oracle.layout_eq_broken_iff.1 (Abort.settle_eq_error_iff.1 hl)
      exact .inl ⟨value, raw, fault, hvalue, hraw, hbroken, rfl⟩
    | ok result =>
      refine .inr ⟨_, rfl, fun e => ?_⟩
      rw [Except.map_eq_error_iff, ← Oracle.layout_eq_failed_iff, ← Abort.settle_eq_ok_error_iff, hl, Except.ok.injEq]
  · intro verified hverified layout hvalid
    rw [Layout.validate_eq_ok_iff] at hvalid ⊢
    exact (coherent_overlay hvalid ((records_of_scan (scan_of_checkedScan hs)).sublist hverified)).valid

/-- A routine with a parameter whose name ends in a letter that is not ASCII. -/
def accented : Bundle := { SharedGuard.bundle with routine := "deserialize(B b, int é) \x7b\x7d" }

theorem no_attempt_accented :
    ¬ ∃ attempt, (withOracle SharedGuard.oracle).infer accented = .ok attempt := by
  have hs : checkedScan accented = .error (.splitCharacter "int é") := by decide +kernel
  rintro ⟨attempt, h⟩
  rw [infer, hs] at h
  cases h

end Engine

end WireLayout
