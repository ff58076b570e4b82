import WireLayout.Catalog.Canonical
import WireLayout.Proofs.Json.Compact
import WireLayout.Proofs.SortedMap
import WireLayout.Proofs.Text.Utf8

/-! What the canonical text of a catalog tells. Each entity is told by its JSON, optional members included, a map by its
entries in their order, and the octets that are hashed by the text; so catalogs with the same octets differ at
most in the files that they skipped and in the bundles of their messages. -/

namespace WireLayout

open WireLayout.Text WireLayout.Json

section

variable {α β γ : Type}

/-- Lists are told apart by one function as by another one when their items are. -/
theorem map_eq_map_iff_of_iff {f : α → β} {g : α → γ} (h : ∀ a b, f a = f b ↔ g a = g b) (xs ys : List α) :
    xs.map f = ys.map f ↔ xs.map g = ys.map g := by
  induction xs generalizing ys with
  | nil => simp
  | cons x xs ih =>
    cases ys with
    | nil => simp
    | cons y ys => simp [h, ih]

theorem SortedMap.mapValues_eq_iff {f : α → β} {m m' : SortedMap String α} :
    m.mapValues f = m'.mapValues f ↔
      (m.entries.map fun e => (e.1, f e.2)) = m'.entries.map fun e => (e.1, f e.2) := by
  simp [SortedMap.mapValues]

/-- A map as JSON tells of its values what the JSON of a value tells. -/
theorem SortedMap.json_eq_iff {value : α → Json} {f : α → β} (h : ∀ a b, value a = value b ↔ f a = f b)
    (m m' : SortedMap String α) : m.json value = m'.json value ↔ m.mapValues f = m'.mapValues f := by
  rw [mapValues_eq_iff, SortedMap.json, SortedMap.json, Json.obj.injEq]
  exact map_eq_map_iff_of_iff (fun a b => by simp [h]) _ _

theorem SortedMap.json_injective {value : α → Json} (h : ∀ a b, value a = value b ↔ a = b)
    (m m' : SortedMap String α) : m.json value = m'.json value ↔ m = m' := by
  rw [json_eq_iff (f := id) h, mapValues_eq_iff]
  cases m
  cases m'
  simp

end

/-! Entities. -/

theorem EntityId.json_inj {a b : EntityId} : a.json = b.json ↔ a = b := by
  cases a
  cases b
  simp [EntityId.json]

theorem Field.json_inj {a b : Field} : a.json = b.json ↔ a = b := by
  obtain ⟨name, type, nullable, value, length⟩ := a
  obtain ⟨name', type', nullable', value', length'⟩ := b
  cases value <;> cases value' <;> cases length <;> cases length' <;>
    simp [Field.json, Field.members, Json.optional, Json.ofNat]

theorem Constants.json_inj {a b : Constants} : a.json = b.json ↔ a = b := by
  cases a
  cases b
  simp [Constants.json, Json.ofNat]

theorem EnumVariant.json_inj {a b : EnumVariant} : a.json = b.json ↔ a = b := by
  cases a
  cases b
  simp [EnumVariant.json]

theorem Json.ofStrings_inj {a b : List String} : Json.ofStrings a = Json.ofStrings b ↔ a = b := by
  rw [Json.ofStrings, Json.ofStrings, Json.arr.injEq, List.map_inj_right fun _ _ => Json.str.inj]

theorem Enumeration.json_inj {a b : Enumeration} : a.json = b.json ↔ a = b := by
  cases a
  cases b
  simp [Enumeration.json, EntityId.json_inj, List.map_inj_right fun _ _ => EnumVariant.json_inj.1]

theorem DataType.json_inj {a b : DataType} : a.json = b.json ↔ a = b := by
  cases a
  cases b
  simp [DataType.json, EntityId.json_inj, Json.ofStrings_inj,
    List.map_inj_right fun _ _ => Field.json_inj.1]

def Message.described (m : Message) : Message := { m with bundle := none }

theorem Message.json_eq_iff {a b : Message} : a.json = b.json ↔ a.described = b.described := by
  cases a
  cases b
  simp [Message.json, Message.described, EntityId.json_inj, Constants.json_inj, Json.ofStrings_inj,
    List.map_inj_right fun _ _ => Field.json_inj.1]

namespace Catalog

theorem json_eq_iff {c c' : Catalog} :
    c.json = c'.json ↔
      c.messages.mapValues (·.map Message.described) = c'.messages.mapValues (·.map Message.described) ∧
        c.enumerations = c'.enumerations ∧ c.dataTypes = c'.dataTypes := by
  have hmessages : ∀ a b : List Message, Json.arr (a.map Message.json) = .arr (b.map Message.json) ↔
      a.map Message.described = b.map Message.described := by
    intro a b
    rw [Json.arr.injEq]
    exact map_eq_map_iff_of_iff (fun _ _ => Message.json_eq_iff) a b
  simp [json, SortedMap.json_eq_iff hmessages, SortedMap.json_injective fun _ _ => Enumeration.json_inj,
    SortedMap.json_injective fun _ _ => DataType.json_inj]

end Catalog

/-! No entity has a double in its JSON. -/

namespace Json

attribute [simp] Exact.bool Exact.int Exact.str

@[simp] theorem exact_arr_iff {items : List Json} : Exact (arr items) ↔ ∀ item ∈ items, Exact item :=
  ⟨fun | .arr h => h, .arr⟩

@[simp] theorem exact_obj_iff {members : List (String × Json)} :
    Exact (obj members) ↔ ∀ m ∈ members, Exact m.2 :=
  ⟨fun | .obj h => h, .obj⟩

@[simp] theorem exact_ofNat (n : Nat) : Exact (ofNat n) := .int n

@[simp] theorem exact_ofStrings (texts : List String) : Exact (ofStrings texts) := by simp [ofStrings]

theorem exact_optional {key : String} {value : Option Json} (h : ∀ v ∈ value, Exact v) :
    ∀ m ∈ optional key value, Exact m.2 := by
  cases value with
  | none => simp [optional]
  | some v => simpa [optional] using h v rfl

end Json

section

open Json

theorem EntityId.exact_json (id : EntityId) : Exact id.json := by simp [EntityId.json]

theorem Constants.exact_json (c : Constants) : Exact c.json := by simp [Constants.json]

theorem Field.exact_json (f : Field) : Exact f.json := by
  rw [Field.json, exact_obj_iff, Field.members, List.forall_mem_append, List.forall_mem_append]
  refine ⟨⟨by simp, exact_optional ?_⟩, exact_optional ?_⟩
  · intro v hv
    obtain ⟨text, -, rfl⟩ := Option.map_eq_some_iff.1 hv
    exact .str text
  · intro v hv
    obtain ⟨n, -, rfl⟩ := Option.map_eq_some_iff.1 hv
    exact .int n

theorem Enumeration.exact_json (e : Enumeration) : Exact e.json := by
  simp [Enumeration.json, EntityId.exact_json, EnumVariant.json]

theorem DataType.exact_json (d : DataType) : Exact d.json := by
  simp [DataType.json, EntityId.exact_json, Field.exact_json]

theorem Message.exact_json (m : Message) : Exact m.json := by
  simp [Message.json, EntityId.exact_json, Constants.exact_json, Field.exact_json]

theorem SortedMap.exact_json {α : Type} {value : α → Json} (h : ∀ a, Exact (value a)) (m : SortedMap String α) :
    Exact (m.json value) := by
  rw [SortedMap.json, exact_obj_iff, List.forall_mem_map]
  exact fun e _ => h e.2

theorem Catalog.exact_json (c : Catalog) : Exact c.json := by
  simp [Catalog.json, SortedMap.exact_json, Message.exact_json, Enumeration.exact_json, DataType.exact_json]

end

/-- The octets that a fingerprint is made of leave out the skipped files and the bundles, and nothing else: two catalogs
have the same octets exactly when they have the same messages in the same order in each category, but for the
bundles, and the same enumerations and data types. -/
theorem Catalog.canonicalOctets_eq_iff (c c' : Catalog) :
    utf8 c.canonicalText.toList = utf8 c'.canonicalText.toList ↔
      c.messages.mapValues (·.map Message.described) = c'.messages.mapValues (·.map Message.described) ∧
        c.enumerations = c'.enumerations ∧ c.dataTypes = c'.dataTypes := by
  rw [← Catalog.json_eq_iff]
  constructor
  · intro h
    have htext : c.canonicalText = c'.canonicalText := String.toList_injective (Text.utf8_injective h)
    exact Json.compact_injective c.exact_json c'.exact_json htext
  · intro h
    rw [canonicalText, canonicalText, h]

end WireLayout
