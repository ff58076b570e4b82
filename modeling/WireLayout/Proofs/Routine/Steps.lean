import Mathlib.Data.Option.Basic
import WireLayout.Proofs.Except
import WireLayout.Routine.Scan

/-! The run over the steps of a routine. The steps depend on the text alone, so what one step does to the
reader and to the open guards is all that later statements can depend on. -/

namespace WireLayout

/-- A bundle of which only the declared fields and the routine matter. -/
def Bundle.ofRoutine (fields : List String) (routine : String) : Bundle := {
  entity := "T"
  package := ""
  constants := {}
  fields := fields.map fun name => { name, type := "int", nullable := false }
  routine }

namespace Routine

open WireLayout.Java WireLayout.Text

namespace Walker

@[simp] theorem run_nil (w : Walker) : w.run [] = w := rfl

@[simp] theorem run_cons (w : Walker) (s : Step) (steps : List Step) :
    w.run (s :: steps) = (w.step s).run steps := rfl

theorem run_append (w : Walker) (before after : List Step) :
    w.run (before ++ after) = (w.run before).run after := List.foldl_append

end Walker

theorem Reader.pointer?_eq_none {r : Reader} {statement : List Char} (h : pointerDeclaration? statement = none) :
    r.pointer? statement = none := by
  simp [pointer?, pointerParts?, h]

/-- A statement leaves the names that the routine is read with. -/
theorem Reader.names_simpleStatement (r : Reader) (nullBit : Option Nat) (body : List Char) :
    (r.simpleStatement nullBit body).offsetName = r.offsetName ∧
      (r.simpleStatement nullBit body).declared = r.declared := by
  unfold simpleStatement assign declareLocal
  repeat' split
  all_goals exact ⟨rfl, rfl⟩

theorem Walker.names_run (w : Walker) (steps : List Step) :
    (w.run steps).reader.offsetName = w.reader.offsetName ∧
      (w.run steps).reader.declared = w.reader.declared := by
  induction steps generalizing w with
  | nil => exact ⟨rfl, rfl⟩
  | cons s rest ih =>
    obtain ⟨hoffset, hdeclared⟩ := ih (w.step s)
    rw [run_cons, hoffset, hdeclared]
    cases s with
    | enter header => exact ⟨rfl, rfl⟩
    | leave => exact ⟨rfl, rfl⟩
    | execute text =>
      simp only [step, Reader.statement]
      cases Statement.parse? text with
      | none => exact ⟨rfl, rfl⟩
      | some st => exact Reader.names_simpleStatement _ _ _

theorem scan_of_trace {b : Bundle} {start : Reader} {steps : List Step}
    (h : trace? b = .ok (some (start, steps))) : scan b = .ok ((start.after steps).scanned b) := by
  rw [scan, h]
  rfl

/-- Reading by checked arithmetic gives what reading within 64 bits gives, or breaks off. -/
theorem checkedScan_eq_ok_iff {b : Bundle} {s : Scan} :
    checkedScan b = .ok s ↔ overflows b = false ∧ scan b = .ok s := by
  unfold checkedScan
  cases overflows b <;> simp

theorem scan_of_checkedScan {b : Bundle} {s : Scan} (h : checkedScan b = .ok s) : scan b = .ok s :=
  (checkedScan_eq_ok_iff.1 h).2

theorem exists_trace_of_scan {b : Bundle} {s : Scan} (h : scan b = .ok s) (hs : s.facts ≠ []) :
    ∃ start steps, trace? b = .ok (some (start, steps)) ∧ s = (start.after steps).scanned b := by
  unfold scan at h
  cases ht : trace? b with
  | error fault => rw [ht] at h; cases h
  | ok found =>
    rw [ht] at h
    obtain rfl := Except.ok.inj h
    cases found with
    | none => exact absurd rfl hs
    | some p => exact ⟨p.1, p.2, rfl, rfl⟩

theorem start_of_trace {b : Bundle} {start : Reader} {steps : List Step}
    (h : trace? b = .ok (some (start, steps))) :
    ∃ offsetName, start = ⟨offsetName, b.fieldNames, [], [], ∅, []⟩ := by
  unfold trace? at h
  obtain ⟨parts, hparts, h⟩ := Except.bind_eq_ok_iff.1 h
  cases parts with
  | none => cases h
  | some p =>
    obtain ⟨rfl, -⟩ := Prod.mk.inj (Option.some.inj (Except.ok.inj h))
    exact ⟨_, rfl⟩

end Routine

end WireLayout
