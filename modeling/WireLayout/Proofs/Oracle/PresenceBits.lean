import WireLayout.Proofs.Inference

/-! Who owns a presence bit in an answer that is accepted. The check compares a mapping with the own bit of the
mapped field only, so a bit has two owners where one field claims it by its record and another one, which
has no bit, by the map; and nowhere else. -/

namespace WireLayout

namespace Layout.Valid

variable {layout : Layout} {declared : List String}

/-- A field that is mapped and has a bit of its own is mapped from that bit. -/
theorem find?_of_mapped (h : layout.Valid declared) {f : FieldLayout} (hf : f ∈ layout.fields) {bit : Nat}
    (hbit : f.nullBit = some bit) (hmapped : f.name ∈ layout.nullBits.values) :
    layout.nullBits.find? bit = some f.name := by
  obtain ⟨key, hkey⟩ := SortedMap.mem_values.1 hmapped
  have hown : bit = key := h.agrees.own _ hkey f hf rfl bit hbit
  rw [hown]
  exact SortedMap.find?_eq_some_iff.2 hkey

/-- A bit that a record claims is mapped to its field, or else to one without a bit, and then the field of the
record is mapped from no bit. -/
theorem mapped_from_claimed_bit (h : layout.Valid declared) {f : FieldLayout} (hf : f ∈ layout.fields)
    {bit : Nat} {name : String} (hbit : f.nullBit = some bit) (hmap : layout.nullBits.find? bit = some name) :
    name = f.name ∨
      (∀ g ∈ layout.fields, g.name = name → g.nullBit = none) ∧ f.name ∉ layout.nullBits.values := by
  by_cases hname : name = f.name
  · exact Or.inl hname
  · refine Or.inr ⟨fun g hg hgname => ?_, fun hmapped => hname ?_⟩
    · rw [Option.eq_none_iff_forall_ne_some]
      intro own hown
      have hkey : own = bit := h.agrees.own _ (SortedMap.find?_eq_some_iff.1 hmap) g hg hgname own hown
      have hgf : g = f := h.records.bits_distinct_iff.1 h.bits_distinct g hg f hf bit (hkey ▸ hown) hbit
      exact hname (hgname ▸ congrArg (·.name) hgf)
    · rw [h.find?_of_mapped hf hbit hmapped] at hmap
      exact (Option.some.inj hmap).symm

end Layout.Valid

namespace Oracle

/-- In an accepted answer no two records share a bit and no field is mapped twice. A bit that a record claims is
mapped to that field, unless it is mapped to a field without a bit of its own; then the claiming field
is mapped from nowhere, and these are the only bits with two owners. -/
theorem bit_owners_of_answer {b : Bundle} {value : Json} {layout : Layout}
    (h : readAnswer b value = .ok layout) :
    (∀ f ∈ layout.fields, ∀ g ∈ layout.fields, ∀ bit, f.nullBit = some bit → g.nullBit = some bit →
        f = g) ∧
      layout.nullBits.values.Nodup ∧
      ∀ f ∈ layout.fields, ∀ bit name, f.nullBit = some bit → layout.nullBits.find? bit = some name →
        name = f.name ∨
          (∀ g ∈ layout.fields, g.name = name → g.nullBit = none) ∧ f.name ∉ layout.nullBits.values := by
  have hvalid := (valid_of_readAnswer h).2
  refine ⟨hvalid.records.bits_distinct_iff.1 hvalid.bits_distinct, hvalid.agrees.mapped_distinct, ?_⟩
  intro f hf bit name hbit hmap
  exact hvalid.mapped_from_claimed_bit hf hbit hmap

/-! An answer in which one field claims a bit by its record and another one by the map. -/

namespace TwoOwners

def bundle : Bundle := {
  entity := "Chat"
  package := ""
  constants := {}
  fields := ["kind", "message"].map fun name => { name, type := "int", nullable := false }
  routine := "" }

def answer : Json := .obj [
  ("fields", .arr [
    .obj [("name", .str "kind"), ("encoding", .str "varint"), ("isVariable", .bool true), ("nullBit", .int 1)],
    .obj [("name", .str "message"), ("encoding", .str "varstring-utf8"), ("isVariable", .bool true)]]),
  ("nullBitMappings", .arr [.obj [("bit", .str "0x01"), ("fieldName", .str "message")]])]

def kind : FieldLayout := ⟨"kind", .varying, .varying, .varInt, true, some 1, none, .inferred⟩

def layout : Layout := {
  entity := "Chat"
  fields := [kind, ⟨"message", .varying, .varying, .varUtf8, true, none, none, .inferred⟩]
  totalFixedSize := 0
  hasVariableSection := false
  variableSectionStart := none
  nullBits := (∅ : SortedMap Nat String).insert 1 "message"
  notes := none }

theorem readAnswer_answer : readAnswer bundle answer = .ok layout := by decide +kernel

end TwoOwners

/-- The bit of `kind` is mapped to `message`, so `kind` is not mapped. -/
theorem bit_owners_of_answer_twoOwners :
    readAnswer TwoOwners.bundle TwoOwners.answer = .ok TwoOwners.layout ∧
      "kind" ∉ TwoOwners.layout.nullBits.values := by
  obtain ⟨-, -, howner⟩ := bit_owners_of_answer TwoOwners.readAnswer_answer
  have hkind : TwoOwners.kind ∈ TwoOwners.layout.fields := List.mem_cons_self
  rcases howner _ hkind 1 "message" rfl rfl with hname | ⟨-, hfree⟩
  · exact absurd hname (by decide)
  · exact ⟨TwoOwners.readAnswer_answer, hfree⟩

theorem bit_with_two_owners :
    ∃ layout, readAnswer TwoOwners.bundle TwoOwners.answer = .ok layout ∧
      ∃ f ∈ layout.fields, ∃ bit name, f.nullBit = some bit ∧ layout.nullBits.find? bit = some name ∧
        name ≠ f.name :=
  ⟨_, TwoOwners.readAnswer_answer, TwoOwners.kind, List.mem_cons_self, 1, "message", rfl, rfl, by decide⟩

end Oracle

end WireLayout
