import Mathlib.Data.List.TakeWhile
import WireLayout.Proofs.Routine.Steps

/-! Where a scan breaks off. It takes the names of the parameters from the ends of their declarations, and a
declaration whose last character outside its name is longer than one octet has none to give. Every other routine
is scanned to its end. -/

namespace WireLayout

namespace Routine

open WireLayout.Java WireLayout.Text

/-- Before the name at the end of a parameter stands a character of several octets. -/
def SplitsCharacter (argument : List Char) : Prop :=
  ∃ front c name, trim isSpace argument = front ++ c :: name ∧ (∀ d ∈ name, isIdent d = true) ∧
    isIdent c = false ∧ c.utf8Size ≠ 1

theorem isError_parameterName_iff {argument : List Char} :
    (∃ fault, parameterName argument = .error fault) ↔ SplitsCharacter argument := by
  constructor
  · rintro ⟨fault, h⟩
    have hsplit := List.takeWhile_append_dropWhile (p := isIdent) (l := (trim isSpace argument).reverse)
    unfold parameterName at h
    cases hdrop : (trim isSpace argument).reverse.dropWhile isIdent with
    | nil => simp [hdrop] at h
    | cons c before =>
      simp only [hdrop] at h
      split at h
      · rename_i hsize
        have hc : isIdent c = false := by
          simpa [hdrop] using
            List.head_dropWhile_not isIdent (l := (trim isSpace argument).reverse) (by simp [hdrop])
        refine ⟨before.reverse, c, ((trim isSpace argument).reverse.takeWhile isIdent).reverse, ?_, ?_, hc, hsize⟩
        · rw [hdrop] at hsplit
          simpa using (congrArg List.reverse hsplit).symm
        · intro d hd
          exact List.mem_takeWhile_imp (List.mem_reverse.1 hd)
      · cases h
  · rintro ⟨front, c, name, heq, hname, hc, hsize⟩
    have hreverse : (trim isSpace argument).reverse = name.reverse ++ c :: front.reverse := by
      rw [heq]
      simp
    have hdrop : (trim isSpace argument).reverse.dropWhile isIdent = c :: front.reverse := by
      rw [hreverse, List.dropWhile_append_of_pos (by simpa using hname), List.dropWhile_cons_of_neg (by simp [hc])]
    refine ⟨.splitCharacter (String.ofList argument), ?_⟩
    simp [parameterName, hdrop, hsize]

end Routine

open Java Text Routine

/-- The routine has a parameter whose name would begin inside a character. -/
def Bundle.BreaksOff (b : Bundle) : Prop :=
  ∃ call, findCall routineName (views (cells b.routine.toList)) = some call ∧
    ∃ argument ∈ call.arguments, SplitsCharacter argument

namespace Routine

theorem isError_scan_iff {b : Bundle} : (∃ fault, scan b = .error fault) ↔ b.BreaksOff := by
  have hscan : (∃ fault, scan b = .error fault) ↔
      ∃ fault, parts? (views (cells b.routine.toList)) = .error fault := by
    unfold scan trace?
    cases parts? (views (cells b.routine.toList)) with
    | error fault => simp [bind, Except.bind, Except.map]
    | ok parts => cases parts <;> simp [bind, Except.bind, Except.map]
  rw [hscan, Bundle.BreaksOff]
  unfold parts?
  cases findCall routineName (views (cells b.routine.toList)) with
  | none => simp
  | some call =>
    simp only [← isError_parameterName_iff, Option.some.injEq, exists_eq_left', ← Except.isError_mapM_iff]
    cases call.arguments.mapM parameterName with
    | error fault => simp [bind, Except.bind]
    | ok names => cases call.after.dropWhile (· ≠ '{') <;> simp [bind, Except.bind]

/-- The reader before a routine and the steps of its body. A routine without a body has no steps. -/
def course (b : Bundle) : Except Fault (Reader × List Step) :=
  (trace? b).map fun found => found.getD (⟨"offset".toList, b.fieldNames, [], [], ∅, []⟩, [])

theorem scan_eq_course (b : Bundle) : scan b = (course b).map fun p => (p.1.after p.2).scanned b := by
  rw [scan, course]
  cases trace? b with
  | error fault => rfl
  | ok found =>
    cases found with
    | none =>
      have hnone : missingNames b.fieldNames [] = b.fieldNames := by simp [missingNames]
      simp [Except.map, Reader.after, Reader.scanned, wireOrder, hnone]
    | some p => rfl

theorem scan_of_course {b : Bundle} {start : Reader} {steps : List Step} (h : course b = .ok (start, steps)) :
    scan b = .ok ((start.after steps).scanned b) := by
  rw [scan_eq_course, h]
  rfl

theorem start_of_course {b : Bundle} {start : Reader} {steps : List Step} (h : course b = .ok (start, steps)) :
    ∃ offsetName, start = ⟨offsetName, b.fieldNames, [], [], ∅, []⟩ := by
  obtain ⟨found, hfound, h⟩ := Except.map_eq_ok_iff.1 h
  cases found with
  | none => exact ⟨_, (Prod.mk.inj h).1.symm⟩
  | some p => exact start_of_trace (hfound.trans (congrArg (fun p => Except.ok (some p)) h))

/-- A scan either breaks off or reads all steps of the routine. -/
theorem course_outcome (b : Bundle) :
    (b.BreaksOff ∧ ∃ fault, scan b = .error fault) ∨
      ¬ b.BreaksOff ∧ ∃ start steps, course b = .ok (start, steps) ∧
        scan b = .ok ((start.after steps).scanned b) := by
  cases hcourse : course b with
  | error fault =>
    have hscan : scan b = .error fault := by rw [scan_eq_course, hcourse]; rfl
    exact .inl ⟨isError_scan_iff.1 ⟨fault, hscan⟩, fault, hscan⟩
  | ok p =>
    have hscan : scan b = .ok ((p.1.after p.2).scanned b) := scan_of_course hcourse
    refine .inr ⟨fun hbreaks => ?_, p.1, p.2, rfl, hscan⟩
    obtain ⟨fault, hfault⟩ := isError_scan_iff.2 hbreaks
    rw [hscan] at hfault
    cases hfault

end Routine

end WireLayout
