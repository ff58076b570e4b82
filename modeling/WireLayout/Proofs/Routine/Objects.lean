import WireLayout.Proofs.Routine.Offers

/-! Whose members the facts are of. The object of an assignment is read and not looked at, so a name has the first
recognised assignment to a member of that name of any object, and a routine that fills another object under the same
names gives the same facts. A record is that of the object that the routine returns only as far as this object comes
first. -/

namespace WireLayout.Routine

open WireLayout.Java WireLayout.Text

variable {object object' tail : List Char}

theorem memberAssignment?_object (hne : object ≠ []) (hw : ∀ c ∈ object, isWordOrDollar c = true) (hne' : object' ≠ [])
    (hw' : ∀ c ∈ object', isWordOrDollar c = true) (ht : Stops isWordOrDollar tail) :
    memberAssignment? (object ++ tail) = memberAssignment? (object' ++ tail) := by
  unfold memberAssignment?
  rw [run?_append hne hw ht, run?_append hne' hw' ht]
  rfl

/-- Steps that are the same but for the object whose member they assign. -/
inductive AlikeButObject : Step → Step → Prop
  | same (s : Step) : AlikeButObject s s
  | assigns {text text' : List Char} {afterElse : Bool} {condition : Option (List Char)} {object object' tail : List Char}
      (parsed : Statement.parse? text = some ⟨afterElse, condition, object ++ tail⟩)
      (parsed' : Statement.parse? text' = some ⟨afterElse, condition, object' ++ tail⟩)
      (named : object ≠ [] ∧ ∀ c ∈ object, isWordOrDollar c = true)
      (named' : object' ≠ [] ∧ ∀ c ∈ object', isWordOrDollar c = true)
      (stops : Stops isWordOrDollar tail) (member : (memberAssignment? (object ++ tail)).isSome = true) :
      AlikeButObject (.execute text) (.execute text')

theorem Walker.step_alike (w : Walker) {s s' : Step} (h : AlikeButObject s s') : w.step s = w.step s' := by
  cases h with
  | same => rfl
  | assigns parsed parsed' named named' stops member =>
    obtain ⟨⟨name, value⟩, hmember⟩ := Option.isSome_iff_exists.1 member
    have hmember' := memberAssignment?_object named.1 named.2 named'.1 named'.2 stops ▸ hmember
    simp only [step, Reader.statement, parsed, parsed', Statement.guardUnder,
      Reader.simpleStatement_of_memberAssignment? _ _ hmember, Reader.simpleStatement_of_memberAssignment? _ _ hmember']

/-- Runs over alike steps are the same, by induction on the steps. -/
theorem Walker.run_alike (w : Walker) {steps steps' : List Step} (h : List.Forall₂ AlikeButObject steps steps') :
    w.run steps = w.run steps' := by
  induction h generalizing w with
  | nil => rfl
  | cons hs _ ih => rw [run_cons, run_cons, w.step_alike hs, ih]

def ofObject (object : String) (offers : List Offer) : List Offer := offers.filter (·.object = object)

theorem find?_ofObject_of_first {offers : List Offer} {name : String} {first : Offer}
    (h : offers.find? (·.name = name) = some first) : (ofObject first.object offers).find? (·.name = name) = some first := by
  obtain ⟨hname, before, after, rfl, hbefore⟩ := List.find?_eq_some_iff_append.1 h
  have hnone : (ofObject first.object before).find? (·.name = name) = none := by
    rw [List.find?_eq_none]
    intro o ho
    simpa using hbefore o (List.mem_filter.1 ho).1
  have hsplit : ofObject first.object (before ++ first :: after) =
      ofObject first.object before ++ first :: ofObject first.object after := by simp [ofObject]
  rw [hsplit, List.find?_append, hnone, Option.none_or]
  exact List.find?_cons_of_pos hname

/-- The first assignment of one object makes the fact of the name exactly when it is the first of all, or makes the same
fact as that one. -/
theorem find?_ofObject_iff {α : Type} (make : Offer → α) (offers : List Offer) (object name : String) :
    (offers.find? (·.name = name)).map make = ((ofObject object offers).find? (·.name = name)).map make ↔
      ∀ first, offers.find? (·.name = name) = some first → first.object = object ∨
        ∃ own, (ofObject object offers).find? (·.name = name) = some own ∧ make own = make first := by
  cases hfirst : offers.find? (·.name = name) with
  | none =>
    have hnone : (ofObject object offers).find? (·.name = name) = none :=
      List.find?_eq_none.2 fun o ho => List.find?_eq_none.1 hfirst o (List.mem_filter.1 ho).1
    simp [hnone]
  | some first =>
    simp only [Option.some.injEq, forall_eq', Option.map_some]
    constructor
    · intro h
      obtain ⟨own, hown, heq⟩ := Option.map_eq_some_iff.1 h.symm
      exact .inr ⟨own, hown, heq⟩
    · rintro (rfl | ⟨own, hown, heq⟩)
      · rw [find?_ofObject_of_first hfirst, Option.map_some]
      · rw [hown, Option.map_some, heq]

/-- The record of a name is that of the first offer for it. -/
theorem record_of_course {b : Bundle} {start : Reader} {steps : List Step} (h : course b = .ok (start, steps))
    (name : String) :
    ((start.after steps).scanned b).facts.find? (·.name = name) =
      (((Walker.mk start []).offers steps).find? (·.name = name)).map
        (·.fact.layout ((start.after steps).bounds b)) := by
  obtain ⟨offsetName, rfl⟩ := start_of_course h
  generalize hoffers : (Walker.mk _ []).offers steps = offers
  generalize hbounds : Reader.bounds _ b = bounds
  have hperm : (((Reader.mk offsetName b.fieldNames [] [] ∅ []).after steps).scanned b).facts.Perm
      ((firsts offers).map (·.fact.layout bounds)) := by
    have hread := wireOrder_perm bounds ((Reader.mk offsetName b.fieldNames [] [] ∅ []).after steps).facts
    rw [Reader.facts_after rfl, hoffers, List.map_map] at hread
    rw [Reader.scanned, hbounds, Reader.facts_after rfl, hoffers]
    exact hread
  have hnodup : ((((Reader.mk offsetName b.fieldNames [] [] ∅ []).after steps).scanned b).facts.map (·.name)).Nodup := by
    rw [(hperm.map _).nodup_iff, List.map_map]
    simpa [Function.comp_def] using nodup_firsts offers
  refine Option.ext fun f => ?_
  rw [find?_eq_some_iff_of_nodup hnodup, hperm.mem_iff, List.mem_map, ← find?_firsts, Option.map_eq_some_iff]
  simp only [find?_eq_some_iff_of_nodup (nodup_firsts offers)]
  constructor
  · rintro ⟨⟨o, ho, rfl⟩, hname⟩
    exact ⟨o, ⟨ho, by simpa using hname⟩, rfl⟩
  · rintro ⟨o, ⟨ho, rfl⟩, rfl⟩
    exact ⟨⟨o, ho, rfl⟩, Fact.layout_name _⟩

/-- Whose assignment a record is. The record of a name is that of the first recognised assignment to it, of whatever
object. It is the one that a given object makes exactly as far as this object comes first, or makes the same fact as
the one that does, and the objects can be replaced without any effect on the scan. -/
theorem records_of_first_object (b : Bundle) :
    (b.BreaksOff ∧ ∃ fault, scan b = .error fault) ∨
      ¬ b.BreaksOff ∧ ∃ start steps s offers layout, course b = .ok (start, steps) ∧ scan b = .ok s ∧
        offers = (Walker.mk start []).offers steps ∧ layout = Fact.layout ((start.after steps).bounds b) ∧
        (∀ name, s.facts.find? (·.name = name) = (offers.find? (·.name = name)).map (layout ·.fact)) ∧
        (∀ object name,
          s.facts.find? (·.name = name) =
              ((ofObject object offers).find? (·.name = name)).map (layout ·.fact) ↔
            ∀ first, offers.find? (·.name = name) = some first → first.object = object ∨
              ∃ own, (ofObject object offers).find? (·.name = name) = some own ∧
                layout own.fact = layout first.fact) ∧
        ∀ b' steps', b'.fieldNames = b.fieldNames → b'.constants = b.constants →
          course b' = .ok (start, steps') → List.Forall₂ AlikeButObject steps steps' → scan b' = scan b := by
  rcases course_outcome b with hbreaks | ⟨hbreaks, start, steps, hcourse, hscan⟩
  · exact .inl hbreaks
  refine .inr ⟨hbreaks, start, steps, _, _, _, hcourse, hscan, rfl, rfl, record_of_course hcourse, ?_, ?_⟩
  · intro object name
    rw [record_of_course hcourse]
    exact find?_ofObject_iff _ _ _ _
  · intro b' steps' hnames hconstants hcourse' halike
    rw [hscan, scan_of_course hcourse']
    have hafter : start.after steps' = start.after steps := congrArg Walker.reader (Walker.run_alike _ halike).symm
    simp [hafter, Reader.scanned, Reader.bounds, hnames, hconstants]

/-! A routine that fills a vector before the message, both with a member `x`. -/

namespace InlineVector

def bundle : Bundle := .ofRoutine ["x"] <|
  "static T deserialize(B buf, int offset) \x7b T obj = new T(); Vec pos = new Vec(); " ++
  "pos.x = buf.getFloatLE(offset + 1); obj.x = buf.getIntLE(offset + 5); return obj; \x7d"

def start : Reader := { offsetName := "offset".toList, declared := ["x"] }

def steps : List Step := [
  .execute "T obj = new T()".toList, .execute "Vec pos = new Vec()".toList,
  .execute "pos.x = buf.getFloatLE(offset + 1)".toList, .execute "obj.x = buf.getIntLE(offset + 5)".toList,
  .execute "return obj".toList]

theorem course_bundle : course bundle = .ok (start, steps) := by
  unfold course trace? bundle Bundle.ofRoutine
  simp only [String.toList_append, String.reduceToList]
  decide +kernel

/-- The local that is returned has one recognised assignment to `x`, of an integer at five; the record is that of the
vector. -/
theorem foreign_member_recorded :
    ∃ s, course bundle = .ok (start, steps) ∧ scan bundle = .ok s ∧ steps.getLast? = some (.execute "return obj".toList) ∧
      (ofObject "obj" ((Walker.mk start []).offers steps)).map Offer.fact =
        [⟨"x", .fixed 5 .i32le (some 4), none⟩] ∧
      s.facts = [⟨"x", .fixed 1, .fixed 4, .f32le, false, none, none, .verified⟩] := by
  refine ⟨_, course_bundle, scan_of_course course_bundle, ?_, ?_, ?_⟩ <;> decide +kernel

end InlineVector

end WireLayout.Routine
