import WireLayout.Proofs.Routine.Facts
import WireLayout.Proofs.Routine.Calls

/-! The assignments that the facts of a routine come from. Facts are only ever added, each by an assignment to a
declared field that has none yet: with the read of its value, under the guard of its statement. -/

namespace WireLayout.Routine

open WireLayout.Java WireLayout.Text

namespace Reader

variable {r : Reader}

theorem pointer?_eq_none_of_memberAssignment? (r : Reader) {body : List Char} {found : String × List Char}
    (h : memberAssignment? body = some found) : r.pointer? body = none := by
  have hnone : pointerDeclaration? body = none := by
    simp only [memberAssignment?, Option.bind_eq_bind, Option.bind_eq_some_iff] at h
    obtain ⟨⟨w, rest⟩, hw, after, hpoint, -⟩ := h
    obtain ⟨hbody, -, hword, hstop⟩ := run?_eq_some hw
    have hpoint := token?_eq_some_iff.1 hpoint
    by_contra hne
    obtain ⟨declaration, hd⟩ := Option.ne_none_iff_exists'.1 hne
    simp only [pointerDeclaration?, Option.bind_eq_bind, Option.bind_eq_some_iff,
      literal?_eq_some_iff] at hd
    obtain ⟨tail, hint, spaced, hspaces, ⟨name, _⟩, hname, -⟩ := hd
    obtain ⟨hspaced, hspace⟩ := spaces?_eq_some hspaces
    cases hf : afterFinal? body with
    | none =>
      -- the word is `int`, and a name follows where the point would have to
      rw [hf, Option.getD_none, hbody] at hint
      obtain ⟨-, rfl⟩ := word_of_prefix hword hstop (words_of_all rfl) (stops_of_isSpace hspace) hint
      obtain ⟨hrun, hnonempty, hchars, -⟩ := run?_eq_some hname
      rw [hspaced, hpoint] at hrun
      obtain ⟨c, cs, rfl⟩ := List.exists_cons_of_ne_nil hnonempty
      obtain rfl : '.' = c := (List.cons.inj hrun).1
      exact absurd (hchars '.' List.mem_cons_self) (by decide +kernel)
    | some declared =>
      -- the word is `final`, and `int` follows where the point would have to
      rw [hf, Option.getD_some] at hint
      simp only [afterFinal?, Option.bind_eq_bind, Option.bind_eq_some_iff, literal?_eq_some_iff] at hf
      obtain ⟨rest', hfinal, hspaces'⟩ := hf
      obtain ⟨rfl, hspace'⟩ := spaces?_eq_some hspaces'
      rw [hbody] at hfinal
      obtain ⟨-, rfl⟩ := word_of_prefix hword hstop (words_of_all rfl) (stops_of_isSpace hspace') hfinal
      rw [hpoint] at hint
      simp at hint
  exact pointer?_eq_none hnone

/-- A statement that assigns a member does what its member and value do. -/
theorem simpleStatement_of_memberAssignment? (r : Reader) (nullBit : Option Nat) {body : List Char}
    {member : String} {value : List Char} (h : memberAssignment? body = some (member, value)) :
    r.simpleStatement nullBit body = r.assign member value nullBit := by
  have hbody : body ≠ [] := by
    rintro rfl
    cases h
  rw [simpleStatement, if_neg (by simpa using hbody), r.pointer?_eq_none_of_memberAssignment? h, h]

/-- The first assignment to a declared field adds the fact that its value makes, if it makes one. -/
theorem facts_assign_of_new {member : String} {value : List Char} {nullBit : Option Nat}
    (hd : member ∈ r.declared) (hn : ∀ f ∈ r.facts, f.name ≠ member) :
    (r.assign member value nullBit).facts =
      r.facts ++ ((r.valueReading? value).map (⟨member, ·, nullBit⟩)).toList := by
  have hany : r.facts.any (·.name = member) = false := by simpa using hn
  unfold assign
  rw [if_pos (by simp [hd, hany])]
  cases r.valueReading? value <;> simp

/-- A fact that a statement adds is that of an assignment to a declared field that has none yet. -/
theorem mem_facts_simpleStatement {nullBit : Option Nat} {body : List Char} {fact : Fact}
    (h : fact ∈ (r.simpleStatement nullBit body).facts) :
    fact ∈ r.facts ∨
      ∃ value, memberAssignment? body = some (fact.name, value) ∧ fact.name ∈ r.declared ∧
        (∀ f ∈ r.facts, f.name ≠ fact.name) ∧ r.valueReading? value = some fact.reading ∧
        fact.nullBit = nullBit := by
  unfold simpleStatement at h
  split at h
  · exact Or.inl h
  · split at h
    · exact Or.inl h
    · split at h
      · rename_i member value hm
        unfold assign at h
        split at h
        · rename_i hnew
          rw [Bool.and_eq_true, Bool.not_eq_true', List.any_eq_false] at hnew
          split at h
          · rename_i reading hreading
            rcases List.mem_append.1 h with h | h
            · exact Or.inl h
            · obtain rfl := List.mem_singleton.1 h
              exact Or.inr ⟨value, hm, by simpa using hnew.1, by simpa using hnew.2, hreading, rfl⟩
          · exact Or.inl h
        · exact Or.inl h
      · split at h
        · unfold declareLocal at h
          split at h <;> exact Or.inl h
        · exact Or.inl h

theorem subset_facts_simpleStatement (nullBit : Option Nat) (body : List Char) :
    r.facts ⊆ (r.simpleStatement nullBit body).facts := by
  unfold simpleStatement assign declareLocal
  repeat' split
  all_goals simp

end Reader

namespace Walker

theorem subset_facts_step (w : Walker) (s : Step) : w.reader.facts ⊆ (w.step s).reader.facts := by
  cases s with
  | enter header => exact List.Subset.refl _
  | leave => exact List.Subset.refl _
  | execute text =>
    simp only [step, Reader.statement]
    cases Statement.parse? text with
    | none => exact List.Subset.refl _
    | some st => exact Reader.subset_facts_simpleStatement _ _

/-- Facts are only ever added, by induction on the steps. -/
theorem subset_facts_run (w : Walker) (steps : List Step) : w.reader.facts ⊆ (w.run steps).reader.facts := by
  induction steps generalizing w with
  | nil => exact List.Subset.refl _
  | cons s rest ih => exact List.Subset.trans (w.subset_facts_step s) (ih (w.step s))

/-- A fact that a run adds is added by a statement on the way, by induction on the steps. -/
theorem mem_facts_run {w : Walker} {steps : List Step} {fact : Fact} (h : fact ∈ (w.run steps).reader.facts) :
    fact ∈ w.reader.facts ∨
      ∃ before text after st, steps = before ++ .execute text :: after ∧ Statement.parse? text = some st ∧
        fact ∉ (w.run before).reader.facts ∧
        fact ∈ ((w.run before).reader.simpleStatement (st.guardUnder (w.run before).reader
          (Reader.innermost (w.run before).guards)) st.body).facts := by
  induction steps generalizing w with
  | nil => exact Or.inl h
  | cons s rest ih =>
    rcases ih h with hstep | ⟨before, text, after, st, rfl, hparse, hnew, hmem⟩
    · by_cases hold : fact ∈ w.reader.facts
      · exact Or.inl hold
      · right
        cases s with
        | enter header => exact absurd hstep hold
        | leave => exact absurd hstep hold
        | execute text =>
          simp only [step, Reader.statement] at hstep
          cases hparse : Statement.parse? text with
          | none => exact absurd (by simpa [hparse] using hstep) hold
          | some st =>
            rw [hparse] at hstep
            exact ⟨[], text, rest, st, rfl, hparse, hold, hstep⟩
    · exact Or.inr ⟨s :: before, text, after, st, rfl, hparse, hnew, hmem⟩

end Walker

/-- An assignment of a routine to a declared field that has no fact yet. -/
structure Assignment (b : Bundle) where
  start : Reader
  before : List Step
  text : List Char
  after : List Step
  statement : Statement
  field : String
  value : List Char
  trace : trace? b = .ok (some (start, before ++ .execute text :: after))
  parsed : Statement.parse? text = some statement
  assigns : memberAssignment? statement.body = some (field, value)
  declared : field ∈ b.fieldNames
  first : ∀ f ∈ (start.after before).facts, f.name ≠ field

namespace Assignment

variable {b : Bundle} (a : Assignment b)

def reader : Reader := a.start.after a.before

/-- The guards of the blocks around the statement, the innermost first. -/
def guards : List (Option Nat) := ((Walker.mk a.start []).run a.before).guards

def reader' : Reader := a.start.after (a.before ++ [.execute a.text])

def final : Reader := a.start.after (a.before ++ .execute a.text :: a.after)

def nullBit : Option Nat := a.statement.guardUnder a.reader (Reader.innermost a.guards)

def fact? : Option Fact := (a.reader.valueReading? a.value).map (⟨a.field, ·, a.nullBit⟩)

theorem reader'_eq : a.reader' = a.reader.simpleStatement a.nullBit a.statement.body := by
  rw [reader', Reader.after, Walker.run_append, Walker.run_cons, Walker.run_nil, Walker.step,
    Reader.statement, a.parsed]
  rfl

/-- The statement adds the fact that the assignment makes. -/
theorem facts_reader' : a.reader'.facts = a.reader.facts ++ a.fact?.toList := by
  obtain ⟨offsetName, hstart⟩ := start_of_trace a.trace
  have hdeclared : a.field ∈ a.reader.declared := by
    rw [reader, Reader.after, (Walker.names_run _ _).2, hstart]
    exact a.declared
  rw [reader'_eq, Reader.simpleStatement_of_memberAssignment? _ _ a.assigns]
  exact Reader.facts_assign_of_new hdeclared a.first

theorem scan_final : scan b = .ok (a.final.scanned b) := scan_of_trace a.trace

/-- What an assignment makes stays among the facts of the scan. -/
theorem layout_mem_scan {fact : Fact} (h : a.fact? = some fact) :
    fact.layout (a.final.bounds b) ∈ (a.final.scanned b).facts := by
  have hmem : fact ∈ a.reader'.facts := by
    rw [facts_reader', h]
    simp
  refine (wireOrder_perm _ _).mem_iff.2 (List.mem_map_of_mem ?_)
  rw [final, ← List.singleton_append, ← List.append_assoc, Reader.after, Walker.run_append]
  exact Walker.subset_facts_run _ _ hmem

end Assignment

/-- Every fact of a scan is made by an assignment of the routine. -/
theorem exists_assignment_of_mem_scan {b : Bundle} {s : Scan} (h : scan b = .ok s) {f : FieldLayout}
    (hf : f ∈ s.facts) :
    ∃ (a : Assignment b) (fact : Fact) (bounds : List Nat), a.fact? = some fact ∧ f = fact.layout bounds := by
  obtain ⟨start, steps, htrace, rfl⟩ := exists_trace_of_scan h (List.ne_nil_of_mem hf)
  obtain ⟨offsetName, hstart⟩ := start_of_trace htrace
  obtain ⟨fact, hfact, rfl⟩ := List.mem_map.1 ((wireOrder_perm _ _).mem_iff.1 hf)
  rcases Walker.mem_facts_run hfact with hnil | ⟨before, text, after, st, rfl, hparse, hnew, hmem⟩
  · rw [hstart] at hnil
    exact absurd hnil List.not_mem_nil
  · rcases Reader.mem_facts_simpleStatement hmem with hold | ⟨value, hassign, hdeclared, hfirst, hread, hbit⟩
    · exact absurd hold hnew
    · rw [(Walker.names_run _ _).2, hstart] at hdeclared
      let a : Assignment b :=
        ⟨start, before, text, after, st, fact.name, value, htrace, hparse, hassign, hdeclared, hfirst⟩
      refine ⟨a, fact, _, ?_, rfl⟩
      have hreading : a.reader.valueReading? a.value = some fact.reading := hread
      have hnull : a.nullBit = fact.nullBit := hbit.symm
      rw [Assignment.fact?, hreading, hnull]
      rfl

end WireLayout.Routine
