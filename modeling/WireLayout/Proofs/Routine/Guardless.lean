import WireLayout.Proofs.Routine.FirstReads

/-! Two readers that have read the same, one of them without the presence bit of one field. What is read later does not
depend on the bits of what has been read, so they stay so to the end of the routine. -/

namespace WireLayout

def FieldLayout.unguard (name : String) (f : FieldLayout) : FieldLayout :=
  if f.name = name then { f with nullBit := none } else f

@[simp] theorem FieldLayout.unguard_name (name : String) (f : FieldLayout) : (f.unguard name).name = f.name := by
  unfold unguard; split <;> rfl

namespace Routine

open WireLayout.Java WireLayout.Text

variable {name : String}

def Fact.unguard (name : String) (f : Fact) : Fact := if f.name = name then { f with nullBit := none } else f

@[simp] theorem Fact.unguard_name (f : Fact) : (f.unguard name).name = f.name := by
  unfold unguard; split <;> rfl

@[simp] theorem Fact.unguard_reading (f : Fact) : (f.unguard name).reading = f.reading := by
  unfold unguard; split <;> rfl

@[simp] theorem Fact.unguard_offset? (f : Fact) : (f.unguard name).offset? = f.offset? := by simp [offset?]

theorem Fact.unguard_of_ne {f : Fact} (h : f.name ≠ name) : f.unguard name = f := if_neg h

theorem Fact.layout_unguard (bounds : List Nat) (f : Fact) :
    (f.unguard name).layout bounds = (f.layout bounds).unguard name := by
  by_cases h : f.name = name
  · rw [unguard, if_pos h, FieldLayout.unguard, if_pos (by simpa using h)]
    cases hr : f.reading <;> simp [layout, hr]
  · rw [unguard_of_ne h, FieldLayout.unguard, if_neg (by simpa using h)]

theorem byOffset_unguard (facts : List Fact) :
    byOffset (facts.map (Fact.unguard name)) = (byOffset facts).map (Fact.unguard name) := by
  have hfilter : (facts.map (Fact.unguard name)).filter (·.offset?.isSome) =
      (facts.filter (·.offset?.isSome)).map (Fact.unguard name) := by
    rw [List.filter_map]
    simp [Function.comp_def]
  rw [byOffset, byOffset, hfilter]
  exact (List.map_mergeSort fun f _ g _ => by simp).symm

theorem wireOrder_unguard (bounds : List Nat) (facts : List Fact) :
    wireOrder bounds (facts.map (Fact.unguard name)) = (wireOrder bounds facts).map (FieldLayout.unguard name) := by
  have hfilter : (facts.map (Fact.unguard name)).filter (·.offset?.isNone) =
      (facts.filter (·.offset?.isNone)).map (Fact.unguard name) := by
    rw [List.filter_map]
    simp [Function.comp_def]
  rw [wireOrder_eq, wireOrder_eq, byOffset_unguard, hfilter, ← List.map_append, List.map_map, List.map_map]
  exact List.map_congr_left fun f _ => f.layout_unguard bounds

namespace Reader

variable {r : Reader}

def unguard (name : String) (r : Reader) : Reader := { r with facts := r.facts.map (Fact.unguard name) }

theorem assign_unguard (h : ∃ f ∈ r.facts, f.name = name) (member : String) (value : List Char) (nullBit : Option Nat) :
    (r.unguard name).assign member value nullBit = (r.assign member value nullBit).unguard name := by
  have hany : (r.facts.map (Fact.unguard name)).any (·.name = member) = r.facts.any (·.name = member) := by
    simp [List.any_map, Function.comp_def]
  have hvalue : (r.unguard name).valueReading? value = r.valueReading? value := rfl
  unfold assign
  rw [hvalue]
  simp only [unguard, hany]
  split
  · rename_i hnew
    rw [Bool.and_eq_true, Bool.not_eq_true', List.any_eq_false] at hnew
    -- the field has a fact, so the new one is of another field
    have hne : member ≠ name := by
      rintro rfl
      obtain ⟨f, hf, hname⟩ := h
      simpa [hname] using hnew.2 f hf
    cases r.valueReading? value with
    | none => rfl
    | some reading => simp [Fact.unguard, hne]
  · rfl

theorem simpleStatement_unguard (h : ∃ f ∈ r.facts, f.name = name) (nullBit : Option Nat) (body : List Char) :
    (r.unguard name).simpleStatement nullBit body = (r.simpleStatement nullBit body).unguard name := by
  have hpointer : (r.unguard name).pointer? body = r.pointer? body := rfl
  unfold simpleStatement
  rw [hpointer]
  split
  · rfl
  · split
    · rfl
    · split
      · exact assign_unguard h _ _ _
      · split
        · rename_i declared value _
          have hreading : (r.unguard name).scope.reading? value = r.scope.reading? value := rfl
          have hempty : (r.unguard name).facts.isEmpty = r.facts.isEmpty := List.isEmpty_map
          unfold declareLocal
          rw [hreading, hempty]
          cases r.scope.reading? value <;> rfl
        · rfl

theorem scanned_unguard (r : Reader) (b : Bundle) :
    (r.unguard name).scanned b = { r.scanned b with facts := (r.scanned b).facts.map (FieldLayout.unguard name) } := by
  have hbounds : (r.unguard name).bounds b = r.bounds b := by
    simp [bounds, unguard, boundaries, List.filterMap_map]
  have hmissing : ∀ facts : List FieldLayout,
      missingNames b.fieldNames (facts.map (FieldLayout.unguard name)) = missingNames b.fieldNames facts := by
    intro facts
    simp [missingNames, List.any_map, Function.comp_def]
  simp only [scanned, hbounds]
  rw [unguard, wireOrder_unguard, hmissing]

end Reader

namespace Walker

def unguard (name : String) (w : Walker) : Walker := { w with reader := w.reader.unguard name }

theorem step_unguard {w : Walker} (h : ∃ f ∈ w.reader.facts, f.name = name) (s : Step) :
    (w.unguard name).step s = (w.step s).unguard name := by
  cases s with
  | enter header => rfl
  | leave => rfl
  | execute text =>
    simp only [step, unguard, Reader.statement]
    cases Statement.parse? text with
    | none => rfl
    | some st => exact congrArg (Walker.mk · w.guards) (Reader.simpleStatement_unguard h _ _)

/-- The field keeps its fact, so the readers differ in its bit to the end; by induction on the steps. -/
theorem run_unguard {w : Walker} (h : ∃ f ∈ w.reader.facts, f.name = name) (steps : List Step) :
    (w.unguard name).run steps = (w.run steps).unguard name := by
  induction steps generalizing w with
  | nil => rfl
  | cons s rest ih =>
    obtain ⟨f, hf, hname⟩ := h
    rw [run_cons, run_cons, step_unguard ⟨f, hf, hname⟩, ih ⟨f, w.subset_facts_step s hf, hname⟩]

end Walker

end Routine

end WireLayout
