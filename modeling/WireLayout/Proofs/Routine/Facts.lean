import WireLayout.Proofs.Layout.Coherence
import WireLayout.Proofs.Routine.Steps

/-! What holds of the facts of every routine: they are of declared fields, one for each, and the bits that
guard them are powers of two. One statement keeps this of a reader, so a walk does, and the order of the
wire only rearranges the facts. Two facts may still share a bit. -/

namespace WireLayout.Routine

open WireLayout.Java WireLayout.Text

theorem isPowerOfTwo_of_bitAt? {index mask bit : Nat} (h : Reader.bitAt? index mask = some bit) :
    isPowerOfTwo bit = true := by
  unfold Reader.bitAt? at h
  split at h
  · simp only [Option.ite_none_right_eq_some] at h
    obtain ⟨hp, heq⟩ := h
    exact Option.some.inj heq ▸ hp
  · cases h

/-- A guard that is recognised is one bit. -/
def IsBit (guard : Option Nat) : Prop := ∀ bit, guard = some bit → isPowerOfTwo bit = true

theorem isBit_none : IsBit none := fun _ h => by cases h

theorem isBit_guard? (r : Reader) (condition : List Char) : IsBit (r.guard? condition) := by
  intro bit h
  simp only [Reader.guard?, Option.bind_eq_bind, Option.bind_eq_some_iff] at h
  obtain ⟨test, -, -, -, h⟩ := h
  split at h <;>
  · simp only [Option.bind_eq_some_iff] at h
    obtain ⟨index, -, mask, -, hbit⟩ := h
    exact isPowerOfTwo_of_bitAt? hbit

theorem IsBit.orElse {guard other : Option Nat} (h : IsBit guard) (ho : IsBit other) :
    IsBit (guard <|> other) := by
  cases guard with
  | none => simpa using ho
  | some bit => simpa using h

theorem isBit_innermost {guards : List (Option Nat)} (h : ∀ guard ∈ guards, IsBit guard) :
    IsBit (Reader.innermost guards) := by
  intro bit hbit
  obtain ⟨guard, hg, rfl⟩ := List.exists_of_findSome?_eq_some hbit
  exact h _ hg bit rfl

theorem isBit_guardUnder (st : Statement) (r : Reader) {nullBit : Option Nat} (hb : IsBit nullBit) :
    IsBit (st.guardUnder r nullBit) := by
  have hown : IsBit (st.condition.bind r.guard?) := by
    cases st.condition with
    | none => exact isBit_none
    | some condition => exact isBit_guard? r condition
  refine hown.orElse ?_
  -- an `else` leaves the guard of the `if` behind
  cases st.afterElse with
  | false => exact hb
  | true => exact isBit_none

namespace Reader

/-- What has been read is of declared fields, at most once for each, and guarded by single bits. -/
structure Sound (declared : List String) (r : Reader) : Prop where
  same : r.declared = declared
  known : ∀ f ∈ r.facts, f.name ∈ declared
  distinct : (r.facts.map (·.name)).Nodup
  bits : ∀ f ∈ r.facts, IsBit f.nullBit

variable {declared : List String} {r : Reader}

theorem sound_of_facts_eq {r' : Reader} (h : Sound declared r) (hd : r'.declared = r.declared)
    (hf : r'.facts = r.facts) : Sound declared r' :=
  ⟨hd.trans h.same, hf ▸ h.known, hf ▸ h.distinct, hf ▸ h.bits⟩

theorem sound_assign (h : Sound declared r) {nullBit : Option Nat} (hb : IsBit nullBit) (member : String)
    (value : List Char) : Sound declared (r.assign member value nullBit) := by
  unfold assign
  split
  · rename_i hnew
    rw [Bool.and_eq_true, Bool.not_eq_true', List.any_eq_false] at hnew
    split
    · rename_i reading _
      have hmem : member ∈ declared := by simpa [h.same] using hnew.1
      have hfresh : member ∉ r.facts.map (·.name) := by
        intro hm
        obtain ⟨f, hf, rfl⟩ := List.mem_map.1 hm
        simpa using hnew.2 f hf
      refine ⟨h.same, ?_, ?_, ?_⟩
      · rw [List.forall_mem_append, List.forall_mem_singleton]
        exact ⟨h.known, hmem⟩
      · rw [List.map_append, List.nodup_append]
        refine ⟨h.distinct, List.nodup_singleton _, ?_⟩
        rintro name hname _ hm rfl
        have heq : name = member := List.mem_singleton.1 hm
        exact hfresh (heq ▸ hname)
      · rw [List.forall_mem_append, List.forall_mem_singleton]
        exact ⟨h.bits, hb⟩
    · exact h
  · exact h

theorem sound_declareLocal (h : Sound declared r) (name : String) (value : List Char) :
    Sound declared (r.declareLocal name value) := by
  unfold declareLocal
  split
  · exact sound_of_facts_eq h rfl rfl
  · exact h

theorem sound_simpleStatement (h : Sound declared r) {nullBit : Option Nat} (hb : IsBit nullBit)
    (text : List Char) : Sound declared (r.simpleStatement nullBit text) := by
  unfold simpleStatement
  split
  · exact h
  · split
    · exact sound_of_facts_eq h rfl rfl
    · split
      · exact sound_assign h hb _ _
      · split
        · exact sound_declareLocal h _ _
        · exact h

/-- A statement adds at most a fact of a new declared field, under a guard that is one bit. -/
theorem sound_statement (h : Sound declared r) {nullBit : Option Nat} (hb : IsBit nullBit)
    (text : List Char) : Sound declared (r.statement nullBit text) := by
  unfold statement
  cases Statement.parse? text with
  | none => exact h
  | some st => exact sound_simpleStatement h (isBit_guardUnder st r hb) _

end Reader

namespace Walker

/-- What has been read is sound, and all open guards are single bits. -/
structure Sound (declared : List String) (w : Walker) : Prop where
  reader : w.reader.Sound declared
  guards : ∀ guard ∈ w.guards, IsBit guard

variable {declared : List String} {w : Walker}

theorem sound_step (h : w.Sound declared) (s : Step) : (w.step s).Sound declared := by
  cases s with
  | enter header => exact ⟨h.reader, List.forall_mem_cons.2 ⟨isBit_guard? w.reader _, h.guards⟩⟩
  | leave => exact ⟨h.reader, fun guard hm => h.guards guard (List.mem_of_mem_tail hm)⟩
  | execute text => exact ⟨Reader.sound_statement h.reader (isBit_innermost h.guards) text, h.guards⟩

theorem sound_run (h : w.Sound declared) (steps : List Step) : (w.run steps).Sound declared := by
  induction steps generalizing w with
  | nil => exact h
  | cons s rest ih => exact ih (sound_step h s)

end Walker

/-! The facts in the order of the wire. -/

section

variable {bounds : List Nat}

def Fact.layout (bounds : List Nat) (f : Fact) : FieldLayout :=
  match f.reading with
  | .fixed offset encoding size => {
      name := f.name
      offset := .fixed offset
      size := .ofNat? (size <|> if encoding = .nested then sizeUpTo bounds offset else none)
      encoding
      isVariable := false
      nullBit := f.nullBit
      note := none
      evidence := .verified }
  | .varying encoding size slot => {
      name := f.name
      offset := .varying
      size := .ofNat? size
      encoding
      isVariable := true
      nullBit := f.nullBit
      note := slot.map fun s => s!"offset pointer at {s}"
      evidence := .verified }

@[simp] theorem Fact.layout_name (f : Fact) : (f.layout bounds).name = f.name := by
  obtain ⟨_, _ | _, _⟩ := f <;> rfl

@[simp] theorem Fact.layout_nullBit (f : Fact) : (f.layout bounds).nullBit = f.nullBit := by
  obtain ⟨_, _ | _, _⟩ := f <;> rfl

@[simp] theorem Fact.layout_evidence (f : Fact) : (f.layout bounds).evidence = .verified := by
  obtain ⟨_, _ | _, _⟩ := f <;> rfl

theorem layouts_perm (facts : List Fact) :
    ((facts.filterMap (fixedLayout? bounds)).map (·.2) ++ facts.filterMap varyingLayout?).Perm
      (facts.map (Fact.layout bounds)) := by
  induction facts with
  | nil => simp
  | cons f rest ih =>
    cases hr : f.reading with
    | fixed offset encoding size =>
      have hf : fixedLayout? bounds f = some (offset, f.layout bounds) := by
        simp [fixedLayout?, Fact.layout, hr]
      have hv : varyingLayout? f = none := by simp [varyingLayout?, hr]
      simpa [hf, hv] using ih
    | varying encoding size slot =>
      have hf : fixedLayout? bounds f = none := by simp [fixedLayout?, hr]
      have hv : varyingLayout? f = some (f.layout bounds) := by simp [varyingLayout?, Fact.layout, hr]
      rw [List.filterMap_cons_none hf, List.filterMap_cons_some hv, List.map_cons]
      exact List.perm_middle.trans (ih.cons _)

/-- The order of the wire rearranges the records of the facts. -/
theorem wireOrder_perm (bounds : List Nat) (facts : List Fact) :
    (wireOrder bounds facts).Perm (facts.map (Fact.layout bounds)) := by
  refine List.Perm.trans ?_ (layouts_perm facts)
  exact ((List.mergeSort_perm _ _).map _).append_right _

theorem records_wireOrder {declared : List String} {r : Reader} (h : r.Sound declared) (bounds : List Nat) :
    Records declared (wireOrder bounds r.facts) := by
  have hperm := wireOrder_perm bounds r.facts
  have hmem : ∀ f ∈ wireOrder bounds r.facts, ∃ g ∈ r.facts, g.layout bounds = f :=
    fun f hf => List.mem_map.1 (hperm.mem_iff.1 hf)
  refine ⟨fun f hf => ?_, ?_, fun f hf bit hbit => ?_⟩
  · obtain ⟨g, hg, rfl⟩ := hmem f hf
    simpa using h.known g hg
  · rw [(hperm.map _).nodup_iff, List.map_map]
    simpa [Function.comp_def] using h.distinct
  · obtain ⟨g, hg, rfl⟩ := hmem f hf
    exact h.bits g hg bit (by simpa using hbit)

end

theorem missingNames_eq (declared : List String) (facts : List FieldLayout) :
    missingNames declared facts = declared.filter fun name => ∀ f ∈ facts, f.name ≠ name := by
  refine List.filter_congr fun name _ => ?_
  rw [Bool.eq_iff_iff]
  simp

/-- Every scan is the facts of a sound reader in the order of the wire, and misses the other fields. -/
theorem exists_reader_of_scan {b : Bundle} {s : Scan} (h : scan b = .ok s) :
    ∃ (r : Reader) (bounds : List Nat), r.Sound b.fieldNames ∧ s.facts = wireOrder bounds r.facts ∧
      s.missing = missingNames b.fieldNames s.facts := by
  have hstart : ∀ name, Reader.Sound b.fieldNames { offsetName := name, declared := b.fieldNames } :=
    fun name => ⟨rfl, by simp, by simp, by simp⟩
  obtain ⟨found, hfound, rfl⟩ := Except.map_eq_ok_iff.1 h
  cases found with
  | none => exact ⟨_, [], hstart [], by simp [wireOrder], by simp [missingNames]⟩
  | some p =>
    obtain ⟨start, steps⟩ := p
    obtain ⟨offsetName, rfl⟩ := start_of_trace hfound
    exact ⟨_, _, (Walker.sound_run ⟨hstart offsetName, by simp⟩ steps).reader, rfl, rfl⟩

theorem records_of_scan {b : Bundle} {s : Scan} (h : scan b = .ok s) : Records b.fieldNames s.facts := by
  obtain ⟨r, bounds, hr, hfacts, -⟩ := exists_reader_of_scan h
  exact hfacts ▸ records_wireOrder hr bounds

theorem verified_of_scan {b : Bundle} {s : Scan} (h : scan b = .ok s) :
    ∀ f ∈ s.facts, f.evidence = .verified := by
  obtain ⟨r, bounds, -, hfacts, -⟩ := exists_reader_of_scan h
  intro f hf
  rw [hfacts, (wireOrder_perm bounds r.facts).mem_iff] at hf
  obtain ⟨g, -, rfl⟩ := List.mem_map.1 hf
  exact g.layout_evidence

end WireLayout.Routine
