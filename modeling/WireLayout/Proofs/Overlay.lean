import WireLayout.Inference
import WireLayout.Proofs.Layout.Coherence

/-! Laying facts over a layout. Every fact ends up among the records, and every other record stays, but each
gives up its presence bit to a later fact that has the same one. So a merged layout keeps its records
distinct with distinct bits, and its map of bits mirrors them, whatever bits the facts share. -/

namespace WireLayout

namespace Overlay

/-- What facts leave of a record that was there before them: it gives up its bit to one with the same. -/
def release (facts : List FieldLayout) (f : FieldLayout) : FieldLayout :=
  if facts.any (·.nullBit = f.nullBit) then { f with nullBit := none } else f

theorem release_eq (facts : List FieldLayout) (f : FieldLayout) :
    release facts f =
      { f with nullBit := if facts.any (·.nullBit = f.nullBit) then none else f.nullBit } := by
  unfold release; split <;> rfl

@[simp] theorem release_name (facts : List FieldLayout) (f : FieldLayout) :
    (release facts f).name = f.name := by
  unfold release; split <;> rfl

@[simp] theorem release_nil (f : FieldLayout) : release [] f = f := rfl

theorem nullBit_of_release {facts : List FieldLayout} {f : FieldLayout} {bit : Nat}
    (h : (release facts f).nullBit = some bit) :
    f.nullBit = some bit ∧ ∀ g ∈ facts, g.nullBit ≠ some bit := by
  unfold release at h
  split at h
  · cases h
  · rename_i hany
    refine ⟨h, fun g hg hbit => hany ?_⟩
    rw [List.any_eq_true]
    exact ⟨g, hg, by simp [hbit, h]⟩

/-- A record stays as it is exactly when no later fact has its bit. -/
theorem release_eq_self_iff {facts : List FieldLayout} {f : FieldLayout} :
    release facts f = f ↔ ∀ bit, f.nullBit = some bit → ∀ g ∈ facts, g.nullBit ≠ some bit := by
  constructor
  · intro h bit hbit
    rw [← h] at hbit
    exact (nullBit_of_release hbit).2
  · intro h
    unfold release
    split
    · rename_i hany
      obtain ⟨g, hg, heq⟩ := List.any_eq_true.1 hany
      cases hbit : f.nullBit with
      | none => rw [← hbit]
      | some bit => exact absurd (by simpa [hbit] using heq) (h bit hbit g hg)
    · rfl

theorem release_release (fact : FieldLayout) (facts : List FieldLayout) (f : FieldLayout) :
    release facts (release [fact] f) = release (fact :: facts) f := by
  by_cases hb : fact.nullBit = f.nullBit
  · simp [release, hb]
  · simp [release, hb]

section

variable {declared : List String} {fields : List FieldLayout} {fact : FieldLayout}

def cleared (fields : List FieldLayout) (fact : FieldLayout) : List FieldLayout :=
  match fact.nullBit with
  | some bit => clearBit fact.name bit fields
  | none => fields

theorem addFact_eq : addFact fields fact = place fact (cleared fields fact) := rfl

theorem cleared_eq : cleared fields fact =
    fields.map fun f => if f.name = fact.name then f else release [fact] f := by
  unfold cleared
  cases hb : fact.nullBit with
  | none =>
    symm
    rw [List.map_id'']
    intro f
    split
    · rfl
    · exact release_eq_self_iff.2 fun bit hbit g hg => by
        rw [List.mem_singleton.1 hg, hb]; simp
  | some bit =>
    unfold clearBit
    refine List.map_congr_left fun f _ => ?_
    by_cases hn : f.name = fact.name
    · simp [hn]
    · simp [hn, release, hb, eq_comm]

theorem names_cleared : (cleared fields fact).map (·.name) = fields.map (·.name) := by
  rw [cleared_eq, List.map_map]
  refine List.map_congr_left fun f _ => ?_
  simp only [Function.comp_apply]
  split <;> simp

/-- The names stay in their order, a new one comes last. -/
theorem names_place (l : List FieldLayout) : (place fact l).map (·.name) =
    if fact.name ∈ l.map (·.name) then l.map (·.name) else l.map (·.name) ++ [fact.name] := by
  induction l with
  | nil => simp [place]
  | cons f rest ih =>
    unfold place
    by_cases hn : f.name = fact.name
    · simp [hn]
    · rw [if_neg hn, List.map_cons, ih]
      by_cases hm : fact.name ∈ rest.map (·.name)
      · simp [hm]
      · simp [hm, Ne.symm hn]

theorem mem_place {l : List FieldLayout} (h : (l.map (·.name)).Nodup) {f : FieldLayout} :
    f ∈ place fact l ↔ f = fact ∨ f ∈ l ∧ f.name ≠ fact.name := by
  induction l with
  | nil => simp [place]
  | cons g rest ih =>
    rw [List.map_cons, List.nodup_cons] at h
    unfold place
    by_cases hn : g.name = fact.name
    · have hrest : ∀ f ∈ rest, f.name ≠ fact.name := by
        intro f hf heq
        exact h.1 (List.mem_map.2 ⟨f, hf, heq.trans hn.symm⟩)
      rw [if_pos hn, List.mem_cons, List.mem_cons]
      constructor
      · rintro (rfl | hf)
        · exact Or.inl rfl
        · exact Or.inr ⟨Or.inr hf, hrest f hf⟩
      · rintro (rfl | ⟨rfl | hf, hne⟩)
        · exact Or.inl rfl
        · exact absurd hn hne
        · exact Or.inr hf
    · rw [if_neg hn, List.mem_cons, List.mem_cons, ih h.2]
      constructor
      · rintro (rfl | rfl | ⟨hf, hne⟩)
        · exact Or.inr ⟨Or.inl rfl, hn⟩
        · exact Or.inl rfl
        · exact Or.inr ⟨Or.inr hf, hne⟩
      · rintro (rfl | ⟨rfl | hf, hne⟩)
        · exact Or.inr (Or.inl rfl)
        · exact Or.inl rfl
        · exact Or.inr (Or.inr ⟨hf, hne⟩)

/-- One fact stands among the records as it is, and takes its bit from all others. -/
theorem mem_addFact (h : (fields.map (·.name)).Nodup) {f : FieldLayout} :
    f ∈ addFact fields fact ↔ f = fact ∨ ∃ g ∈ fields, g.name ≠ fact.name ∧ f = release [fact] g := by
  rw [addFact_eq, mem_place (by rwa [names_cleared]), cleared_eq]
  refine or_congr_right ?_
  rw [List.mem_map]
  constructor
  · rintro ⟨⟨g, hg, rfl⟩, hne⟩
    split at hne
    · rename_i hn
      exact absurd hn hne
    · rename_i hn
      exact ⟨g, hg, hn, if_neg hn⟩
  · rintro ⟨g, hg, hn, rfl⟩
    exact ⟨⟨g, hg, if_neg hn⟩, by simpa using hn⟩

theorem nodup_names_addFact (h : (fields.map (·.name)).Nodup) :
    ((addFact fields fact).map (·.name)).Nodup := by
  rw [addFact_eq, names_place, names_cleared]
  split
  · exact h
  · rename_i hn
    rw [List.nodup_append]
    refine ⟨h, List.nodup_singleton _, ?_⟩
    rintro name hname _ hmem rfl
    exact hn (List.mem_singleton.1 hmem ▸ hname)

theorem records_addFact (h : Records declared fields) (hd : fact.name ∈ declared)
    (hp : ∀ bit, fact.nullBit = some bit → isPowerOfTwo bit = true) :
    Records declared (addFact fields fact) := by
  refine ⟨fun f hf => ?_, nodup_names_addFact h.distinct, fun f hf bit hbit => ?_⟩
  · rcases (mem_addFact h.distinct).1 hf with rfl | ⟨g, hg, -, rfl⟩
    · exact hd
    · simpa using h.declared g hg
  · rcases (mem_addFact h.distinct).1 hf with rfl | ⟨g, hg, -, rfl⟩
    · exact hp bit hbit
    · exact h.powers g hg bit (nullBit_of_release hbit).1

theorem bits_distinct_addFact (h : Records declared fields) (hd : fact.name ∈ declared)
    (hp : ∀ bit, fact.nullBit = some bit → isPowerOfTwo bit = true)
    (hb : (fields.filterMap (·.nullBit)).Nodup) : ((addFact fields fact).filterMap (·.nullBit)).Nodup := by
  rw [(records_addFact h hd hp).bits_distinct_iff]
  rw [h.bits_distinct_iff] at hb
  intro f hf g hg bit hfb hgb
  rcases (mem_addFact h.distinct).1 hf with rfl | ⟨f', hf', -, rfl⟩ <;>
    rcases (mem_addFact h.distinct).1 hg with rfl | ⟨g', hg', -, rfl⟩
  · rfl
  · exact absurd hfb ((nullBit_of_release hgb).2 _ List.mem_cons_self)
  · exact absurd hgb ((nullBit_of_release hfb).2 _ List.mem_cons_self)
  · rw [hb f' hf' g' hg' bit (nullBit_of_release hfb).1 (nullBit_of_release hgb).1]

/-- The records under a list of facts: each fact, and each record of another name, without a bit that a
later fact has. -/
theorem mem_foldl_addFact {facts : List FieldLayout} (h : (fields.map (·.name)).Nodup)
    (hfacts : (facts.map (·.name)).Nodup) {f : FieldLayout} :
    f ∈ facts.foldl addFact fields ↔
      (∃ before fact after, facts = before ++ fact :: after ∧ f = release after fact) ∨
        ∃ g ∈ fields, g.name ∉ facts.map (·.name) ∧ f = release facts g := by
  induction facts generalizing fields with
  | nil => simp
  | cons fact rest ih =>
    rw [List.map_cons, List.nodup_cons] at hfacts
    rw [List.foldl_cons, ih (nodup_names_addFact h) hfacts.2]
    constructor
    · rintro (⟨before, x, after, rfl, rfl⟩ | ⟨g, hg, hn, rfl⟩)
      · exact Or.inl ⟨fact :: before, x, after, rfl, rfl⟩
      · rcases (mem_addFact h).1 hg with rfl | ⟨r, hr, hne, rfl⟩
        · exact Or.inl ⟨[], g, rest, rfl, rfl⟩
        · rw [release_name] at hn
          refine Or.inr ⟨r, hr, ?_, release_release fact rest r⟩
          rw [List.map_cons, List.mem_cons]
          exact not_or.2 ⟨hne, hn⟩
    · rintro (⟨before, x, after, heq, rfl⟩ | ⟨g, hg, hn, rfl⟩)
      · cases before with
        | nil =>
          obtain ⟨rfl, rfl⟩ := List.cons.inj heq
          exact Or.inr ⟨fact, (mem_addFact h).2 (Or.inl rfl), hfacts.1, rfl⟩
        | cons y before =>
          obtain ⟨rfl, rfl⟩ := List.cons.inj heq
          exact Or.inl ⟨before, x, after, rfl, rfl⟩
      · rw [List.map_cons, List.mem_cons, not_or] at hn
        refine Or.inr ⟨release [fact] g, (mem_addFact h).2 (Or.inr ⟨g, hg, hn.1, rfl⟩), ?_, ?_⟩
        · rw [release_name]; exact hn.2
        · exact (release_release fact rest g).symm

theorem foldl_addFact {facts : List FieldLayout} (h : Records declared fields)
    (hb : (fields.filterMap (·.nullBit)).Nodup) (hfacts : Records declared facts) :
    Records declared (facts.foldl addFact fields) ∧
      ((facts.foldl addFact fields).filterMap (·.nullBit)).Nodup := by
  induction facts generalizing fields with
  | nil => exact ⟨h, hb⟩
  | cons fact rest ih =>
    obtain ⟨hd, -, hp, hrest⟩ := Records.cons_iff.1 hfacts
    exact ih (records_addFact h hd hp) (bits_distinct_addFact h hd hp hb) hrest

/-- An inferred mapping of a valid layout is kept only where it fits the mirror. -/
theorem mirrors_keepMapping {verified : List FieldLayout} {bits : SortedMap Nat String}
    {mapping : Nat × String} (h : Mirrors declared fields bits) (hp : isPowerOfTwo mapping.1 = true)
    (hd : mapping.2 ∈ declared) : Mirrors declared fields (keepMapping verified bits mapping) := by
  unfold keepMapping
  split
  · exact h
  · rename_i hkeep
    simp only [Bool.or_eq_true, not_or, Bool.not_eq_true] at hkeep
    refine h.insert hp hd hkeep.1.2 ?_
    simpa using hkeep.2

theorem mirrors_foldl_keepMapping {verified : List FieldLayout} {bits : SortedMap Nat String}
    {mappings : List (Nat × String)} (h : Mirrors declared fields bits)
    (hm : ∀ e ∈ mappings, isPowerOfTwo e.1 = true ∧ e.2 ∈ declared) :
    Mirrors declared fields (mappings.foldl (keepMapping verified) bits) := by
  induction mappings generalizing bits with
  | nil => exact h
  | cons e rest ih =>
    rw [List.forall_mem_cons] at hm
    exact ih (mirrors_keepMapping h hm.1.1 hm.1.2) hm.2

end

end Overlay

/-- Facts of declared fields laid over a valid layout give a coherent one, also when the facts share bits. -/
theorem coherent_overlay {layout : Layout} {verified : List FieldLayout} {b : Bundle}
    (h : layout.Valid b.fieldNames) (hv : Records b.fieldNames verified) :
    (overlay layout verified b).Coherent b.fieldNames := by
  obtain ⟨hrecords, hbits⟩ := Overlay.foldl_addFact h.records h.bits_distinct hv
  refine ⟨hrecords, hbits, ?_⟩
  exact Overlay.mirrors_foldl_keepMapping (mirrors_bitsOf hrecords hbits)
    fun e he => ⟨h.agrees.keys e he, h.agrees.mapped e he⟩

end WireLayout
