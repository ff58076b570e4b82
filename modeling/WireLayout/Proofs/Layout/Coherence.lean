import WireLayout.Proofs.Layout.Validity
import WireLayout.Routine.Scan

/-! The two accounts that a layout gives of its presence bits. A map of bits mirrors records when it has the
bit of every record under the record's name and maps no field twice; the map made of the records
does. A coherent layout is a valid one whose map mirrors its records. -/

namespace WireLayout

open WireLayout.Routine

theorem Records.bits_distinct_iff {declared : List String} {fields : List FieldLayout}
    (h : Records declared fields) :
    (fields.filterMap (·.nullBit)).Nodup ↔
      ∀ f ∈ fields, ∀ g ∈ fields, ∀ bit, f.nullBit = some bit → g.nullBit = some bit → f = g := by
  rw [List.Nodup, List.pairwise_filterMap]
  constructor
  · intro hp f hf g hg bit hfb hgb
    by_contra hne
    have hsymm : Std.Symm fun a a' : FieldLayout =>
        ∀ b, a.nullBit = some b → ∀ b', a'.nullBit = some b' → b ≠ b' :=
      ⟨fun a a' hab b hb b' hb' heq => hab b' hb' b hb heq.symm⟩
    exact hp.forall hf hg hne bit hfb bit hgb rfl
  · intro hinj
    refine (List.Nodup.of_map _ h.distinct).imp_of_mem fun {f g} hf hg hne bit hfb bit' hgb heq => ?_
    exact hne (hinj f hf g hg bit hfb (heq ▸ hgb))

/-- The map has the bit of each record, and further keys only for declared fields without a bit. -/
structure Mirrors (declared : List String) (fields : List FieldLayout) (bits : SortedMap Nat String) :
    Prop extends Agrees declared fields bits where
  owner : ∀ f ∈ fields, ∀ bit, f.nullBit = some bit → bits.find? bit = some f.name

section

variable {declared : List String} {fields : List FieldLayout}

theorem mem_bitsOf {bit : Nat} {name : String} (h : (bit, name) ∈ (Scan.bitsOf fields).entries) :
    ∃ f ∈ fields, f.nullBit = some bit ∧ f.name = name := by
  obtain ⟨f, hf, he⟩ := List.mem_filterMap.1 (SortedMap.mem_of_mem_ofList h)
  obtain ⟨b, hb, heq⟩ := Option.map_eq_some_iff.1 he
  obtain ⟨rfl, rfl⟩ := Prod.mk.inj heq
  exact ⟨f, hf, hb, rfl⟩

theorem find?_bitsOf (h : (fields.filterMap (·.nullBit)).Nodup) {f : FieldLayout} (hf : f ∈ fields) {bit : Nat}
    (hb : f.nullBit = some bit) : (Scan.bitsOf fields).find? bit = some f.name := by
  have hkeys : ((fields.filterMap fun f => f.nullBit.map fun bit => (bit, f.name)).map (·.1)).Nodup := by
    rw [List.map_filterMap]
    simpa only [Option.map_map, Function.comp_def, Option.map_id'] using h
  have hmem : (bit, f.name) ∈ fields.filterMap fun f => f.nullBit.map fun bit => (bit, f.name) :=
    List.mem_filterMap.2 ⟨f, hf, by rw [hb]; rfl⟩
  exact SortedMap.find?_ofList_of_mem hkeys hmem

/-- The map that is made of records mirrors them. -/
theorem mirrors_bitsOf (h : Records declared fields) (hb : (fields.filterMap (·.nullBit)).Nodup) :
    Mirrors declared fields (Scan.bitsOf fields) := by
  have hinj := h.bits_distinct_iff.1 hb
  refine ⟨⟨?_, ?_, SortedMap.nodup_values_iff.2 ?_, ?_⟩, fun f hf bit => find?_bitsOf hb hf⟩
  · rintro ⟨bit, name⟩ he
    obtain ⟨f, hf, hbit, -⟩ := mem_bitsOf he
    exact h.powers f hf bit hbit
  · rintro ⟨bit, name⟩ he
    obtain ⟨f, hf, -, rfl⟩ := mem_bitsOf he
    exact h.declared f hf
  · rintro ⟨bit, name⟩ he ⟨bit', name'⟩ he' heq
    obtain ⟨f, hf, hbit, hn⟩ := mem_bitsOf he
    obtain ⟨g, hg, hbit', hn'⟩ := mem_bitsOf he'
    have hname : f.name = g.name := by rw [hn, hn']; exact heq
    rw [h.eq_of_name_eq hf hg hname, hbit'] at hbit
    rw [Option.some.inj hbit, show name = name' from heq]
  · rintro ⟨bit, name⟩ he f hf hn own hown
    obtain ⟨g, hg, hbit, hn'⟩ := mem_bitsOf he
    rw [h.eq_of_name_eq hf hg (hn.trans hn'.symm), hbit] at hown
    exact (Option.some.inj hown).symm

/-- A mapping with a new key for a field that is not mapped leaves the mirror whole. -/
theorem Mirrors.insert {bits : SortedMap Nat String} (h : Mirrors declared fields bits) {bit : Nat}
    {name : String} (hp : isPowerOfTwo bit = true) (hd : name ∈ declared) (hk : bits.contains bit = false)
    (hv : name ∉ bits.values) : Mirrors declared fields (bits.insert bit name) := by
  refine ⟨⟨?_, ?_, SortedMap.nodup_values_insert h.mapped_distinct hv, ?_⟩, ?_⟩
  · intro e he
    rcases SortedMap.mem_entries_insert.1 he with rfl | ⟨-, he⟩
    · exact hp
    · exact h.keys e he
  · intro e he
    rcases SortedMap.mem_entries_insert.1 he with rfl | ⟨-, he⟩
    · exact hd
    · exact h.mapped e he
  · intro e he f hf hn own hown
    rcases SortedMap.mem_entries_insert.1 he with rfl | ⟨-, he⟩
    · -- a field with a bit of its own is mapped already
      have hname : f.name = name := hn
      have hfound := h.owner f hf own hown
      rw [hname, SortedMap.find?_eq_some_iff] at hfound
      exact absurd (SortedMap.mem_values.2 ⟨own, hfound⟩) hv
    · exact h.own e he f hf hn own hown
  · intro f hf own hown
    have hfound := h.owner f hf own hown
    have hne : own ≠ bit := by
      rintro rfl
      rw [SortedMap.contains, hfound] at hk
      cases hk
    rw [SortedMap.find?_insert_ne bits hne, hfound]

end

namespace Layout

/-- A valid layout whose map of bits mirrors its records. -/
structure Coherent (layout : Layout) (declared : List String) : Prop where
  records : Records declared layout.fields
  bits_distinct : (layout.fields.filterMap (·.nullBit)).Nodup
  mirrors : Mirrors declared layout.fields layout.nullBits

theorem Coherent.valid {layout : Layout} {declared : List String} (h : layout.Coherent declared) :
    layout.Valid declared :=
  ⟨h.records, h.bits_distinct, h.mirrors.toAgrees⟩

end Layout

end WireLayout
