import WireLayout.Proofs.Routine.Offers

/-! Which reads a scan reports, and in which order. Each name has the first offer that the walk comes to, and what has
been read only grows. The order of the wire is a stable sort of the facts at constant offsets, before the others in the
order of reading. -/

namespace WireLayout.Routine

open WireLayout.Java WireLayout.Text

section

variable {bounds : List Nat} {facts : List Fact}

def byOffset (facts : List Fact) : List Fact :=
  (facts.filter (·.offset?.isSome)).mergeSort fun f g => f.offset?.getD 0 ≤ g.offset?.getD 0

theorem mem_byOffset {f : Fact} : f ∈ byOffset facts ↔ f ∈ facts ∧ f.offset?.isSome = true := by
  rw [byOffset, List.mem_mergeSort, List.mem_filter]

theorem filterMap_fixedLayout? (bounds : List Nat) (facts : List Fact) :
    facts.filterMap (fixedLayout? bounds) =
      (facts.filter (·.offset?.isSome)).map fun f => (f.offset?.getD 0, f.layout bounds) := by
  rw [← List.filterMap_eq_map, List.filterMap_filter]
  refine List.filterMap_congr fun f _ => ?_
  cases hr : f.reading <;> simp [fixedLayout?, Fact.offset?, Fact.layout, hr]

theorem filterMap_varyingLayout? (bounds : List Nat) (facts : List Fact) :
    facts.filterMap varyingLayout? = (facts.filter (·.offset?.isNone)).map (Fact.layout bounds) := by
  rw [← List.filterMap_eq_map, List.filterMap_filter]
  refine List.filterMap_congr fun f _ => ?_
  cases hr : f.reading <;> simp [varyingLayout?, Fact.offset?, Fact.layout, hr]

theorem wireOrder_eq (bounds : List Nat) (facts : List Fact) :
    wireOrder bounds facts =
      (byOffset facts ++ facts.filter (·.offset?.isNone)).map (Fact.layout bounds) := by
  have hsort : ((facts.filterMap (fixedLayout? bounds)).mergeSort (fun a b => a.1 ≤ b.1)).map (·.2) =
      (byOffset facts).map (Fact.layout bounds) := by
    rw [filterMap_fixedLayout?, byOffset]
    rw [← List.map_mergeSort (r := fun f g : Fact => f.offset?.getD 0 ≤ g.offset?.getD 0), List.map_map]
    · rfl
    · intros
      rfl
  rw [wireOrder, hsort, filterMap_varyingLayout? bounds, List.map_append]

theorem pairwise_byOffset (facts : List Fact) :
    (byOffset facts).Pairwise fun f g => f.offset?.getD 0 ≤ g.offset?.getD 0 := by
  have hsorted : (byOffset facts).Pairwise fun f g => decide (f.offset?.getD 0 ≤ g.offset?.getD 0) = true :=
    List.pairwise_mergeSort (fun a b c hab hbc => by simp at hab hbc ⊢; omega) (fun a b => by simp; omega) _
  simpa using hsorted

/-- Facts at one offset stay in the order of reading: as a list in order they are a sublist of the sorted one. -/
theorem filter_byOffset (facts : List Fact) (k : Nat) :
    (byOffset facts).filter (·.offset? = some k) = facts.filter (·.offset? = some k) := by
  have hfixed : (facts.filter (·.offset?.isSome)).filter (·.offset? = some k) =
      facts.filter (·.offset? = some k) := by
    rw [List.filter_filter]
    refine List.filter_congr fun f _ => ?_
    by_cases h : f.offset? = some k <;> simp [h]
  have hties : (facts.filter (·.offset? = some k)).Pairwise fun f g =>
      decide (f.offset?.getD 0 ≤ g.offset?.getD 0) = true := by
    refine List.pairwise_of_forall_mem_list fun f hf g hg => ?_
    have hfk := (List.mem_filter.1 hf).2
    have hgk := (List.mem_filter.1 hg).2
    simp only [decide_eq_true_eq] at hfk hgk ⊢
    rw [hfk, hgk]
  have hsub : (facts.filter (·.offset? = some k)).Sublist (byOffset facts) :=
    List.sublist_mergeSort (fun a b c hab hbc => by simp at hab hbc ⊢; omega) (fun a b => by simp; omega)
      hties (hfixed ▸ List.filter_sublist)
  have hlength : (facts.filter (·.offset? = some k)).length = ((byOffset facts).filter (·.offset? = some k)).length := by
    rw [byOffset, ((List.mergeSort_perm _ _).filter _).length_eq, hfixed]
  refine (List.Sublist.eq_of_length ?_ hlength).symm
  simpa using hsub.filter (·.offset? = some k)

/-- The facts at constant offsets in the order of the wire: by their offsets, and those of one offset as they were
read. -/
structure Ordered (read fixed : List Fact) : Prop where
  constant : ∀ f ∈ fixed, f.offset?.isSome = true
  ascending : fixed.Pairwise fun f g => f.offset?.getD 0 ≤ g.offset?.getD 0
  stable : ∀ k, fixed.filter (·.offset? = some k) = read.filter (·.offset? = some k)

theorem ordered_byOffset (facts : List Fact) : Ordered facts (byOffset facts) :=
  ⟨fun _ hf => (mem_byOffset.1 hf).2, pairwise_byOffset facts, filter_byOffset facts⟩

end

/-- What has been read stays in front of what is read later. -/
theorem Walker.facts_prefix_run (w : Walker) (steps : List Step) : w.reader.facts <+: (w.run steps).reader.facts := by
  rw [facts_run]
  exact List.prefix_append _ _

theorem Reader.facts_after_append (start : Reader) (before after : List Step) :
    (start.after before).facts <+: (start.after (before ++ after)).facts := by
  rw [Reader.after, Reader.after, Walker.run_append]
  exact Walker.facts_prefix_run _ _

/-- The facts of a reader that starts with nothing are the offers before which nothing is offered for their names. -/
theorem Reader.mem_facts_after_iff {start : Reader} (h : start.facts = []) {steps : List Step} {fact : Fact} :
    fact ∈ (start.after steps).facts ↔
      ∃ before s after o, steps = before ++ s :: after ∧
        ((Walker.mk start []).run before).offer? s = some o ∧ o.fact = fact ∧
        ∀ p ∈ (Walker.mk start []).offers before, p.name ≠ fact.name := by
  rw [facts_after h, List.mem_map]
  constructor
  · rintro ⟨o, ho, rfl⟩
    obtain ⟨before, s, after, rfl, ho, -, hfirst⟩ := Walker.find?_offers_eq_some_iff.1 (mem_firsts_iff.1 ho)
    exact ⟨before, s, after, o, rfl, ho, rfl, hfirst⟩
  · rintro ⟨before, s, after, o, rfl, ho, rfl, hfirst⟩
    have hfound := Walker.find?_offers_eq_some_iff.2 ⟨before, s, after, rfl, ho, rfl, hfirst⟩
    exact ⟨o, mem_firsts_iff.2 hfound, rfl⟩

/-- What a scan reports. Each declared name has at most one fact, that of the first statement on the walk that assigns
it a value which is recognised there, and later statements leave the facts as they are. The facts at constant
offsets come first, by offset, and the others follow in the order of reading; the names without a fact are
missing. -/
theorem scan_reports_firstReads (b : Bundle) :
    (b.BreaksOff ∧ ∃ fault, scan b = .error fault) ∨
      ¬ b.BreaksOff ∧ ∃ start steps s, course b = .ok (start, steps) ∧ scan b = .ok s ∧
        (∀ fact, fact ∈ (start.after steps).facts ↔
          ∃ before st after o, steps = before ++ st :: after ∧
            ((Walker.mk start []).run before).offer? st = some o ∧ o.fact = fact ∧
            ∀ p ∈ (Walker.mk start []).offers before, p.name ≠ fact.name) ∧
        ((start.after steps).facts.map (·.name)).Nodup ∧
        (∀ fact ∈ (start.after steps).facts, fact.name ∈ b.fieldNames) ∧
        (∀ before after, steps = before ++ after → (start.after before).facts <+: (start.after steps).facts) ∧
        (∃ fixed, Ordered (start.after steps).facts fixed ∧
          s.facts = (fixed ++ (start.after steps).facts.filter (·.offset?.isNone)).map
            (Fact.layout ((start.after steps).bounds b))) ∧
        s.missing = b.fieldNames.filter fun name => ∀ f ∈ s.facts, f.name ≠ name := by
  rcases course_outcome b with hbreaks | ⟨hbreaks, start, steps, hcourse, hscan⟩
  · exact .inl hbreaks
  obtain ⟨offsetName, rfl⟩ := start_of_course hcourse
  refine .inr ⟨hbreaks, _, steps, _, hcourse, hscan, fun fact => Reader.mem_facts_after_iff rfl, ?_, ?_, ?_, ?_, ?_⟩
  · rw [Reader.facts_after rfl, List.map_map]
    exact nodup_firsts _
  · intro fact hfact
    rw [Reader.facts_after rfl] at hfact
    obtain ⟨o, ho, rfl⟩ := List.mem_map.1 hfact
    exact Walker.declared_of_mem_offers ((firstsFrom_sublist _ _).subset ho)
  · rintro before after rfl
    exact Reader.facts_after_append _ _ _
  · exact ⟨_, ordered_byOffset _, wireOrder_eq _ _⟩
  · exact missingNames_eq _ _

/-- A routine that gives a value to its one field; the name of its third parameter ends in letters that are not ASCII. -/
def oneRead : Bundle := .ofRoutine ["a"]
  "static T deserialize(B buf, int offset, int größe) { o.a = buf.getIntLE(offset + 1); }"

theorem not_reported_oneRead : ¬ ∃ s, scan oneRead = .ok s ∧ s.facts.map (·.name) = ["a"] ∧ s.missing = [] := by
  have hscan : scan oneRead = .error (.splitCharacter "int größe") := by decide +kernel
  rintro ⟨s, hs, -⟩
  rw [hscan] at hs
  cases hs

end WireLayout.Routine
