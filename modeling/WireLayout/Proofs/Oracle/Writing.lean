import WireLayout.Proofs.Independence
import WireLayout.Proofs.Oracle.Numbers

/-! Layouts as answers. A layout is written by the members of the schema in any order; absent values are left
out or null, and the bit of a mapping is a number or a literal. Every way to write it is read back as the
same layout, provided that the layout is one that an answer can stand for, and normalisation gives no
other layouts. -/

namespace WireLayout

open WireLayout.Text

/-! What an answer can stand for. -/

def WireOffset.number? : WireOffset → Option Nat
  | fixed offset => some offset
  | varying => none

def WireSize.number? : WireSize → Option Nat
  | fixed octets => some octets
  | varying => none

theorem WireOffset.number?_eq_some_iff {offset : WireOffset} {n : Nat} :
    offset.number? = some n ↔ offset = fixed n := by
  cases offset <;> simp [number?]

theorem WireSize.number?_eq_some_iff {size : WireSize} {n : Nat} : size.number? = some n ↔ size = fixed n := by
  cases size <;> simp [number?]

def FieldLayout.numbers (f : FieldLayout) : List Nat :=
  [f.offset.number?, f.size.number?, f.encoding.number?, f.nullBit].filterMap id

theorem FieldLayout.mem_numbers {f : FieldLayout} {n : Nat} :
    n ∈ f.numbers ↔ f.offset.number? = some n ∨ f.size.number? = some n ∨ f.encoding.number? = some n ∨
      f.nullBit = some n := by
  simp [numbers, eq_comm]

def Layout.numbers (layout : Layout) : List Nat :=
  layout.fields.flatMap FieldLayout.numbers ++ layout.totalFixedSize :: layout.variableSectionStart.toList ++
    layout.nullBits.keys

def Layout.remarks (layout : Layout) : List String :=
  layout.fields.filterMap (·.note) ++ layout.notes.toList

namespace Oracle

/-- A layout about the entity of a bundle that is valid for its fields, all of it inferred, with trimmed notes and
with numbers of 32 bits. -/
structure Answerable (b : Bundle) (layout : Layout) : Prop where
  entity : layout.entity = b.entity
  accepted : layout.validate b.fieldNames = .ok ()
  inferred : ∀ f ∈ layout.fields, f.evidence = .inferred
  trimmed : ∀ note ∈ layout.remarks, trimSpaces note = note ∧ note ≠ ""
  words : ∀ n ∈ layout.numbers, n ≤ maxWord

/-! How a layout is written. -/

/-- A member of an object: without a value it is left out or null. -/
inductive Entered (key : String) : Option Json → List (String × Json) → Prop
  | value (v : Json) : Entered key (some v) [(key, v)]
  | omitted : Entered key none []
  | null : Entered key none [(key, .null)]

/-- A bit as a number, in decimal, or in hexadecimal behind `0x`. -/
inductive BitWritten (bit : Nat) : Json → Prop
  | number : BitWritten bit (.ofNat bit)
  | decimal : BitWritten bit (.str (toString bit))
  | hexadecimal {digits : List Char} (h : IntLiteral.IsHexadecimal bit digits) :
    BitWritten bit (.str (String.ofList ('0' :: 'x' :: digits)))

inductive MappingWritten (e : Nat × String) : Json → Prop
  | members {bit : Json} {members : List (String × Json)} (hbit : BitWritten e.1 bit)
    (h : members.Perm [("bit", bit), ("fieldName", .str e.2)]) : MappingWritten e (.obj members)

inductive FieldWritten (f : FieldLayout) : Json → Prop
  | members {nullBit note members : List (String × Json)}
    (hbit : Entered "nullBit" (f.nullBit.map Json.ofNat) nullBit) (hnote : Entered "notes" (f.note.map .str) note)
    (h : members.Perm ([("name", .str f.name), ("wireOffset", .int f.offset.toRaw),
      ("wireSize", .int f.size.toRaw), ("encoding", .str f.encoding.tag), ("isVariable", .bool f.isVariable)] ++
        nullBit ++ note)) : FieldWritten f (.obj members)

/-- The mappings may stand in any order, the fields in their own. -/
inductive Written (layout : Layout) : Json → Prop
  | members {fields mappings : List Json} {entries : List (Nat × String)}
    {start notes members : List (String × Json)} (hfields : List.Forall₂ FieldWritten layout.fields fields)
    (hentries : entries.Perm layout.nullBits.entries) (hmappings : List.Forall₂ MappingWritten entries mappings)
    (hstart : Entered "variableSectionStart" (layout.variableSectionStart.map Json.ofNat) start)
    (hnotes : Entered "notes" (layout.notes.map .str) notes)
    (h : members.Perm ([("fields", .arr fields), ("totalFixedSize", .ofNat layout.totalFixedSize),
      ("hasVariableSection", .bool layout.hasVariableSection), ("nullBitMappings", .arr mappings)] ++
        start ++ notes)) : Written layout (.obj members)

theorem entered_optional (key : String) (value : Option Json) : Entered key value (Json.optional key value) := by
  cases value with
  | none => exact .omitted
  | some v => exact .value v

theorem exists_written (layout : Layout) : ∃ value, Written layout value := by
  have hfield : ∀ f, ∃ value, FieldWritten f value := fun f =>
    ⟨_, .members (entered_optional _ _) (entered_optional _ _) (.refl _)⟩
  have hmapping : ∀ e, ∃ value, MappingWritten e value := fun e => ⟨_, .members .number (.refl _)⟩
  choose field hfield using hfield
  choose mapping hmapping using hmapping
  have hfields : List.Forall₂ FieldWritten layout.fields (layout.fields.map field) :=
    List.forall₂_map_right_iff.2 (List.forall₂_same.2 fun f _ => hfield f)
  have hmappings : List.Forall₂ MappingWritten layout.nullBits.entries (layout.nullBits.entries.map mapping) :=
    List.forall₂_map_right_iff.2 (List.forall₂_same.2 fun e _ => hmapping e)
  exact ⟨_, .members hfields (.refl _) hmappings (entered_optional _ _) (entered_optional _ _) (.refl _)⟩

/-! Members are found in whatever order they stand. -/

namespace Entered

variable {key : String} {value : Option Json} {ms : List (String × Json)}

theorem keys_sublist (h : Entered key value ms) : (ms.map (·.1)).Sublist [key] := by
  cases h with
  | value v => exact List.Sublist.refl _
  | omitted => exact List.nil_sublist _
  | null => exact List.Sublist.refl _

theorem lookup_ne (h : Entered key value ms) (other : String) (hne : (other == key) = false) :
    ms.lookup other = none := by
  cases h <;> simp [List.lookup, hne]

/-- What was entered is read, and nothing is read where nothing was. -/
theorem nullable {α β : Type} (read : Json → Option β) (result : α → β) {enter : α → Json} {x : Option α}
    (h : Entered key (x.map enter) ms)
    (hread : ∀ a ∈ x, enter a ≠ .null ∧ read (enter a) = some (result a)) :
    nullable read (ms.lookup key) = some (x.map result) := by
  cases x with
  | none =>
    cases h with
    | omitted => rfl
    | null => simp [Oracle.nullable]
  | some a =>
    cases h
    obtain ⟨hne, hread⟩ := hread a rfl
    rw [List.lookup_cons_self, Oracle.nullable]
    · rw [hread]
      rfl
    · exact hne

end Entered

theorem lookup_eq_some_iff {members : List (String × Json)} (h : (members.map (·.1)).Nodup) {key : String}
    {value : Json} : members.lookup key = some value ↔ (key, value) ∈ members := by
  induction members with
  | nil => simp
  | cons m rest ih =>
    obtain ⟨k, v⟩ := m
    rw [List.map_cons, List.nodup_cons] at h
    by_cases hk : key = k
    · subst hk
      rw [List.lookup_cons_self, List.mem_cons]
      constructor
      · rintro ⟨⟩
        exact Or.inl rfl
      · rintro (heq | hmem)
        · rw [(Prod.mk.inj heq).2]
        · exact absurd (List.mem_map.2 ⟨_, hmem, rfl⟩) h.1
    · have hne : (key == k) = false := by simpa using hk
      rw [List.lookup_cons, hne, ih h.2, List.mem_cons]
      simp [hk]

theorem lookup_of_perm {members written : List (String × Json)} (h : members.Perm written)
    (hw : (written.map (·.1)).Nodup) (key : String) : members.lookup key = written.lookup key := by
  have hm : (members.map (·.1)).Nodup := (h.map _).nodup_iff.2 hw
  refine Option.ext fun value => ?_
  rw [lookup_eq_some_iff hm, lookup_eq_some_iff hw, h.mem_iff]

theorem int?_ofNat {n : Nat} (h : n ≤ maxWord) : int? (.ofNat n) = some (n : Int) :=
  int?_of_le (by omega) (by exact_mod_cast h)

theorem int?_offset (offset : WireOffset) (h : ∀ n ∈ offset.number?, n ≤ maxWord) :
    int? (.int offset.toRaw) = some offset.toRaw := by
  cases offset with
  | fixed n => exact int?_ofNat (h n rfl)
  | varying => exact int?_of_le le_rfl (by decide)

theorem int?_size (size : WireSize) (h : ∀ n ∈ size.number?, n ≤ maxWord) :
    int? (.int size.toRaw) = some size.toRaw := by
  cases size with
  | fixed n => exact int?_ofNat (h n rfl)
  | varying => exact int?_of_le le_rfl (by decide)

theorem ofRaw_toRaw_offset (offset : WireOffset) (h : ∀ n ∈ offset.number?, n ≤ maxWord) :
    WireOffset.ofRaw offset.toRaw = offset := by
  cases offset with
  | fixed n => simp [WireOffset.ofRaw, WireOffset.toRaw, word?_natCast (h n rfl)]
  | varying => decide

theorem ofRaw_toRaw_size (size : WireSize) (h : ∀ n ∈ size.number?, n ≤ maxWord) :
    WireSize.ofRaw size.toRaw = size := by
  cases size with
  | fixed n => simp [WireSize.ofRaw, WireSize.toRaw, word?_natCast (h n rfl)]
  | varying => decide

def RawField.of (f : FieldLayout) : RawField :=
  ⟨f.name, f.offset.toRaw, f.size.toRaw, f.encoding.tag, f.isVariable, f.nullBit.map Int.ofNat, f.note⟩

theorem decode?_field {f : FieldLayout} {value : Json} (h : FieldWritten f value)
    (hw : ∀ n ∈ f.numbers, n ≤ maxWord) : RawField.decode? value = some (.of f) := by
  obtain ⟨hbit, hnote, h⟩ := h
  have hoffset := int?_offset f.offset fun n hn => hw n (FieldLayout.mem_numbers.2 (.inl hn))
  have hsize := int?_size f.size fun n hn => hw n (FieldLayout.mem_numbers.2 (.inr (.inl hn)))
  have hnull : ∀ bit ∈ f.nullBit, int? (.ofNat bit) = some (bit : Int) := fun bit hb =>
    int?_ofNat (hw bit (FieldLayout.mem_numbers.2 (.inr (.inr (.inr hb)))))
  have hkeys := List.Nodup.sublist
    ((List.Sublist.refl ["name", "wireOffset", "wireSize", "encoding", "isVariable"]).append
      (hbit.keys_sublist.append hnote.keys_sublist)) (by decide)
  have hfind := lookup_of_perm h (by simpa using hkeys)
  have hbitFound := hbit.nullable int? Int.ofNat fun bit hb => ⟨nofun, hnull bit hb⟩
  have hnoteFound := hnote.nullable Json.str? id fun note _ => ⟨nofun, rfl⟩
  unfold RawField.decode? members?
  simp only [List.map_cons, List.map_nil, hfind, List.append_assoc, List.lookup_append]
  simp [List.lookup, hbit.lookup_ne, hnote.lookup_ne, withDefault, hoffset, hsize, hbitFound, hnoteFound, Json.str?,
    bool?, RawField.of]

/-! Mappings. -/

theorem positiveBit?_natCast {bit : Nat} (hpos : 0 < bit) (h : bit ≤ maxWord) :
    positiveBit? (bit : Int) = some bit :=
  positiveBit?_eq_some_iff.2 ⟨rfl, hpos, h⟩

theorem intLiteral?_toString {n : Nat} (h : n ≤ maxLong) : intLiteral? (toString n) = some (n : Int) := by
  have htext : (toString n).toList = [] ++ decimal n := by
    simp [decimal, toString, Nat.repr]
  rw [intLiteral?, htext, IntLiteral.read?_decimal [] (by simp) h]

theorem mappedBit?_of_written {bit : Nat} {value : Json} (hw : BitWritten bit value) (hpos : 0 < bit)
    (h : bit ≤ maxWord) : mappedBit? value = some bit := by
  have hlong : bit ≤ maxLong := h.trans (by decide)
  have hbit := positiveBit?_natCast hpos h
  cases hw with
  | number =>
    change (int? (.ofNat bit)).bind positiveBit? = some bit
    rw [int?_ofNat h, Option.bind_some, hbit]
  | decimal =>
    change (intLiteral? (toString bit)).bind positiveBit? = some bit
    rw [intLiteral?_toString hlong, Option.bind_some, hbit]
  | hexadecimal hdigits =>
    change (IntLiteral.read? (String.ofList _).toList).bind positiveBit? = some bit
    rw [String.toList_ofList, IntLiteral.read?_hexadecimal hdigits hlong, Option.bind_some, hbit]

/-- What is decoded for a mapping. -/
def Decodes (e : Nat × String) (m : RawMapping) : Prop := m.name = e.2 ∧ mappedBit? m.bit = some e.1

theorem decode?_mapping {e : Nat × String} {value : Json} (hw : MappingWritten e value) (hpos : 0 < e.1)
    (h : e.1 ≤ maxWord) : ∃ m, RawMapping.decode? value = some m ∧ Decodes e m := by
  obtain ⟨hbit, hperm⟩ := hw
  have hfind := lookup_of_perm hperm (by simp)
  refine ⟨⟨_, e.2⟩, ?_, rfl, mappedBit?_of_written hbit hpos h⟩
  unfold RawMapping.decode? members?
  simp only [List.map_cons, List.map_nil, hfind]
  simp [List.lookup, Json.str?]

theorem listOf_of_forall₂ {α β : Type} (read : Json → Option β) (R : α → β → Prop) {xs : List α}
    {values : List Json} (h : List.Forall₂ (fun x value => ∃ y, read value = some y ∧ R x y) xs values) :
    ∃ ys, listOf read (.arr values) = some ys ∧ List.Forall₂ R xs ys := by
  induction h with
  | nil => exact ⟨[], rfl, .nil⟩
  | cons hx _ ih =>
    obtain ⟨y, hy, hR⟩ := hx
    obtain ⟨ys, hys, hall⟩ := ih
    refine ⟨y :: ys, ?_, .cons hR hall⟩
    simp only [listOf, Json.arr?, Option.bind_eq_bind, Option.bind_some] at hys ⊢
    rw [List.mapM_cons, hy, hys]
    rfl

theorem numbers_of_mem {layout : Layout} {f : FieldLayout} (hf : f ∈ layout.fields) :
    ∀ n ∈ f.numbers, n ∈ layout.numbers := fun _ hn =>
  List.mem_append_left _ (List.mem_append_left _ (List.mem_flatMap.2 ⟨f, hf, hn⟩))

theorem bit_mem_numbers {layout : Layout} {e : Nat × String} (he : e ∈ layout.nullBits.entries) :
    e.1 ∈ layout.numbers :=
  List.mem_append_right _ (List.mem_map.2 ⟨e, he, rfl⟩)

theorem bit_pos_of_answerable {b : Bundle} {layout : Layout} {e : Nat × String} (h : Answerable b layout)
    (he : e ∈ layout.nullBits.entries) : 0 < e.1 := by
  obtain ⟨k, hk⟩ := isPowerOfTwo_iff.1 ((Layout.validate_eq_ok_iff.1 h.accepted).agrees.keys e he)
  rw [hk]
  exact Nat.two_pow_pos k

/-- However a layout is written, it is decoded to its members. -/
theorem decode?_layout {b : Bundle} {layout : Layout} {value : Json} (hw : Written layout value)
    (h : Answerable b layout) :
    ∃ raw entries, RawLayout.decode? value = some raw ∧ raw.fields = layout.fields.map RawField.of ∧
      raw.totalFixedSize = layout.totalFixedSize ∧ raw.hasVariableSection = layout.hasVariableSection ∧
      raw.variableSectionStart = layout.variableSectionStart.map Int.ofNat ∧ raw.notes = layout.notes ∧
      entries.Perm layout.nullBits.entries ∧ List.Forall₂ Decodes entries raw.mappings := by
  obtain @⟨fields, mappings, entries, start, notes, members, hfields, hentries, hmappings, hstart, hnotes,
    hperm⟩ := hw
  have hkeys := List.Nodup.sublist
    ((List.Sublist.refl ["fields", "totalFixedSize", "hasVariableSection", "nullBitMappings"]).append
      (hstart.keys_sublist.append hnotes.keys_sublist)) (by decide)
  have hfind := lookup_of_perm hperm (by simpa using hkeys)
  obtain ⟨raws, hraws, hof⟩ := listOf_of_forall₂ RawField.decode? (fun f raw => RawField.of f = raw)
    (((List.forall₂_and_left _ _).2 ⟨fun _ hf => hf, hfields⟩).imp fun f _ hf =>
      ⟨_, decode?_field hf.2 fun n hn => h.words n (numbers_of_mem hf.1 n hn), rfl⟩)
  obtain ⟨raised, hmapped, hdecodes⟩ := listOf_of_forall₂ RawMapping.decode? Decodes
    (((List.forall₂_and_left _ _).2 ⟨fun _ he => hentries.mem_iff.1 he, hmappings⟩).imp fun e _ he =>
      decode?_mapping he.2 (bit_pos_of_answerable h he.1) (h.words _ (bit_mem_numbers he.1)))
  have hstartFound := hstart.nullable int? Int.ofNat fun start hs =>
    ⟨nofun, int?_ofNat (h.words start (by simp_all [Layout.numbers]))⟩
  have hnotesFound := hnotes.nullable Json.str? id fun note _ => ⟨nofun, rfl⟩
  have htotal := int?_ofNat (h.words layout.totalFixedSize (by simp [Layout.numbers]))
  have hread : members? ["fields", "totalFixedSize", "hasVariableSection", "variableSectionStart",
      "nullBitMappings", "notes"] (.obj members) = some [some (.arr fields),
        some (.ofNat layout.totalFixedSize), some (.bool layout.hasVariableSection),
        start.lookup "variableSectionStart", some (.arr mappings), notes.lookup "notes"] := by
    have hother := hstart.lookup_ne "notes" (by decide)
    have hother' := hnotes.lookup_ne "variableSectionStart" (by decide)
    simp only [members?, List.map_cons, List.map_nil, hfind, List.append_assoc, List.lookup_append, hother,
      hother']
    simp [List.lookup]
  refine ⟨⟨raws, layout.totalFixedSize, layout.hasVariableSection,
    layout.variableSectionStart.map Int.ofNat, raised, layout.notes⟩, _, ?_, ?_, rfl, rfl, rfl, rfl, hentries,
    hdecodes⟩
  · unfold RawLayout.decode?
    simp [hread, withDefault, hraws, hmapped, htotal, hstartFound, hnotesFound, bool?]
  · have heq : List.Forall₂ (fun a c => a = c) (layout.fields.map RawField.of) raws := by
      rwa [List.forall₂_map_left_iff]
    exact (List.forall₂_eq_eq_eq ▸ heq : layout.fields.map RawField.of = raws).symm

/-! Normalisation of what was decoded. -/

theorem nonEmpty_of_trimmed (note : Option String) (h : ∀ text ∈ note, trimSpaces text = text ∧ text ≠ "") :
    nonEmpty note = note := by
  cases note with
  | none => rfl
  | some text =>
    obtain ⟨htrim, hne⟩ := h text rfl
    simp [nonEmpty, htrim, Option.filter, hne]

theorem layout_of {b : Bundle} {layout : Layout} (h : Answerable b layout) {f : FieldLayout}
    (hf : f ∈ layout.fields) : (RawField.of f).layout b.entity = .ok f := by
  have hword : ∀ n ∈ f.numbers, n ≤ maxWord := fun n hn => h.words n (numbers_of_mem hf n hn)
  have hoffset := ofRaw_toRaw_offset f.offset fun n hn => hword n (FieldLayout.mem_numbers.2 (.inl hn))
  have hsize := ofRaw_toRaw_size f.size fun n hn => hword n (FieldLayout.mem_numbers.2 (.inr (.inl hn)))
  have hencoding := Encoding.ofTag_tag (e := f.encoding) fun n hn =>
    hword n (FieldLayout.mem_numbers.2 (.inr (.inr (.inl hn))))
  have hnote := nonEmpty_of_trimmed f.note fun text ht =>
    h.trimmed text (List.mem_append_left _ (List.mem_filterMap.2 ⟨f, hf, ht⟩))
  have hbit : (f.nullBit.map Int.ofNat).bind positiveBit? = f.nullBit := by
    cases hb : f.nullBit with
    | none => rfl
    | some bit =>
      obtain ⟨k, hk⟩ := isPowerOfTwo_iff.1
        ((Layout.validate_eq_ok_iff.1 h.accepted).records.powers f hf bit hb)
      have hmem : bit ∈ f.numbers := FieldLayout.mem_numbers.2 (.inr (.inr (.inr hb)))
      exact positiveBit?_natCast (hk ▸ Nat.two_pow_pos k) (hword bit hmem)
  have hevidence := h.inferred f hf
  unfold RawField.layout RawField.of
  simp only [hencoding, hoffset, hsize, hnote, hbit, ← hevidence]

/-- Mappings with distinct bits and distinct names are all taken into the map, by induction on the list. -/
theorem foldlM_addMapping {entity : String} {es : List (Nat × String)} {ms : List RawMapping}
    (h : List.Forall₂ Decodes es ms) (hkeys : (es.map (·.1)).Nodup) (hnames : (es.map (·.2)).Nodup)
    {bits : SortedMap Nat String} (hfresh : ∀ e ∈ es, bits.find? e.1 = none ∧ e.2 ∉ bits.values) :
    ms.foldlM (addMapping entity) bits = .ok (es.foldl (fun m e => m.insert e.1 e.2) bits) := by
  induction h generalizing bits with
  | nil => rfl
  | @cons e m es ms hdecodes _ ih =>
    obtain ⟨hname, hbit⟩ := hdecodes
    rw [List.map_cons, List.nodup_cons] at hkeys hnames
    rw [List.forall_mem_cons] at hfresh
    obtain ⟨⟨hfind, hvalue⟩, hrest⟩ := hfresh
    have hadd : addMapping entity bits m = .ok (bits.insert e.1 e.2) := by
      simp [addMapping, hbit, hfind, hname, hvalue]
    rw [List.foldlM_cons, hadd, List.foldl_cons]
    refine ih hkeys.2 hnames.2 fun x hx => ⟨?_, ?_⟩
    · have hne : x.1 ≠ e.1 := fun heq => hkeys.1 (heq ▸ List.mem_map_of_mem hx)
      rw [SortedMap.find?_insert_ne bits hne, (hrest x hx).1]
    · intro hmem
      obtain ⟨k, hk⟩ := SortedMap.mem_values.1 hmem
      rcases SortedMap.mem_entries_insert.1 hk with heq | ⟨-, hk⟩
      · have hsame : x.2 = e.2 := (Prod.mk.inj heq).2
        exact hnames.1 (hsame ▸ List.mem_map_of_mem hx)
      · exact (hrest x hx).2 (SortedMap.mem_values.2 ⟨k, hk⟩)

/-- A layout that an answer can stand for is what the answer gives, in whatever way it is written. -/
theorem normalize_of_written {b : Bundle} {layout : Layout} {value : Json} (h : Answerable b layout)
    (hw : Written layout value) : readAnswer b value = .ok layout := by
  obtain ⟨raw, entries, hraw, hfields, htotal, hsection, hstart, hnotes, hentries, hdecodes⟩ :=
    decode?_layout hw h
  have hvalid := Layout.validate_eq_ok_iff.1 h.accepted
  have hmapped : raw.fields.mapM (RawField.layout b.entity) = .ok layout.fields := by
    apply Except.mapM_of_forall₂
    rw [hfields, List.forall₂_map_left_iff, List.forall₂_same]
    exact fun f hf => layout_of h hf
  have hbits : raw.mappings.foldlM (takeMapping b.entity) ∅ = .ok layout.nullBits := by
    have hkeys : (entries.map (·.1)).Nodup := (hentries.map _).nodup_iff.2 layout.nullBits.nodup_keys
    have hnames : (entries.map (·.2)).Nodup := (hentries.map _).nodup_iff.2 hvalid.agrees.mapped_distinct
    rw [foldlM_takeMapping_iff, foldlM_addMapping hdecodes hkeys hnames fun e _ => ⟨rfl, List.not_mem_nil⟩]
    exact congrArg Except.ok (SortedMap.ofList_perm_entries hentries)
  have hlayout : (⟨b.entity, layout.fields, min raw.totalFixedSize.toNat maxWord, raw.hasVariableSection,
      raw.variableSectionStart.bind word?, layout.nullBits, nonEmpty raw.notes⟩ : Layout) = layout := by
    have hsize : min layout.totalFixedSize maxWord = layout.totalFixedSize :=
      Nat.min_eq_left (h.words _ (by simp [Layout.numbers]))
    have hword : (layout.variableSectionStart.map Int.ofNat).bind word? = layout.variableSectionStart := by
      cases hs : layout.variableSectionStart with
      | none => rfl
      | some start => exact word?_natCast (h.words start (by simp [Layout.numbers, hs]))
    have htrimmed := nonEmpty_of_trimmed layout.notes fun text ht =>
      h.trimmed text (List.mem_append_right _ (Option.mem_toList.2 ht))
    rw [htotal, Int.toNat_natCast, hsize, hsection, hstart, hword, hnotes, htrimmed, ← h.entity]
  have hdecode : decode b.entity value = .ok raw := by rw [decode, hraw]
  refine readAnswer_eq_ok_iff.2 ⟨raw, hdecode, ?_⟩
  unfold normalize
  rw [hmapped, hbits]
  change (((Layout.mk _ _ _ _ _ _ _).validate _).mapError Abort.failed >>= fun _ => _) = _
  rw [hlayout, h.accepted]
  rfl

/-! What normalisation gives. -/

theorem le_maxWord_of_ofTag {text : String} {e : Encoding} (h : Encoding.ofTag text = .ok e) :
    ∀ n ∈ e.number?, n ≤ maxWord := by
  have hspellings : ∀ spelling ∈ Encoding.spellings, spelling.2.number? = none := by decide
  unfold Encoding.ofTag at h
  dsimp only at h
  split at h
  · split at h
    · rename_i n hlength
      obtain rfl := Except.ok.inj h
      rintro _ ⟨⟩
      simpa using (Option.filter_eq_some_iff.1 hlength).2
    · cases h
  · split at h
    · rename_i encoding hlookup
      obtain rfl := Except.ok.inj h
      obtain ⟨before, after, heq, -⟩ := List.lookup_eq_some_iff.1 hlookup
      have hnone := hspellings _ (heq ▸ List.mem_append_right before List.mem_cons_self)
      rw [hnone]
      nofun
    · cases h

theorem trimmed_of_nonEmpty {text : Option String} {note : String} (h : nonEmpty text = some note) :
    trimSpaces note = note ∧ note ≠ "" := by
  obtain ⟨hmap, hne⟩ := Option.filter_eq_some_iff.1 h
  obtain ⟨whole, -, rfl⟩ := Option.map_eq_some_iff.1 hmap
  refine ⟨?_, ?_⟩
  · simp [trimSpaces, trim_trim]
  · simpa using hne

/-- A record that comes out of normalisation has numbers of 32 bits and a trimmed note. -/
theorem layout_eq_ok {entity : String} {raw : RawField} {f : FieldLayout} (h : raw.layout entity = .ok f) :
    (∀ n ∈ f.numbers, n ≤ maxWord) ∧ ∀ note ∈ f.note, trimSpaces note = note ∧ note ≠ "" := by
  have hbecomes := RawField.becomes_layout h
  unfold RawField.layout at h
  split at h
  · cases h
  · rename_i encoding htag
    refine ⟨fun n hn => ?_, ?_⟩
    · rcases FieldLayout.mem_numbers.1 hn with hn | hn | hn | hn
      · exact ((hbecomes.offset n).1 (WireOffset.number?_eq_some_iff.1 hn)).2
      · exact ((hbecomes.size n).1 (WireSize.number?_eq_some_iff.1 hn)).2
      · obtain rfl := Except.ok.inj h
        exact le_maxWord_of_ofTag htag n hn
      · exact ((hbecomes.bit n).1 hn).2.2
    · obtain rfl := Except.ok.inj h
      exact fun note hnote => trimmed_of_nonEmpty hnote

/-- Normalisation gives layouts that an answer can stand for, and no others. -/
theorem answerable_of_normalize {b : Bundle} {raw : RawLayout} {layout : Layout}
    (h : normalize b raw = .ok layout) : Answerable b layout := by
  have hinferred := inferred_of_normalize h
  have hentity := (valid_of_normalize h).1
  have haccepted := Layout.validate_eq_ok_iff.2 (valid_of_normalize h).2
  have hbecomes := becomes_of_normalize h
  unfold normalize at h
  obtain ⟨fields, hfields, h⟩ := Except.bind_eq_ok_iff.1 h
  obtain ⟨nullBits, -, h⟩ := Except.bind_eq_ok_iff.1 h
  obtain ⟨⟨⟩, -, h⟩ := Except.bind_eq_ok_iff.1 h
  have hrecords : ∀ f ∈ fields, (∀ n ∈ f.numbers, n ≤ maxWord) ∧
      ∀ note ∈ f.note, trimSpaces note = note ∧ note ≠ "" := fun f hf => by
    obtain ⟨given, -, hgiven⟩ := Except.exists_of_mem_mapM (Except.mapError_eq_ok_iff.1 hfields) hf
    exact layout_eq_ok hgiven
  obtain rfl := Except.ok.inj h
  refine ⟨hentity, haccepted, hinferred, fun note hnote => ?_, fun n hn => ?_⟩
  · rcases List.mem_append.1 hnote with hnote | hnote
    · obtain ⟨f, hf, hnote⟩ := List.mem_filterMap.1 hnote
      exact (hrecords f hf).2 note hnote
    · exact trimmed_of_nonEmpty (Option.mem_toList.1 hnote)
  · simp only [Layout.numbers, List.mem_append, List.mem_cons, List.mem_flatMap, Option.mem_toList] at hn
    rcases hn with (⟨f, hf, hn⟩ | rfl | hstart) | hkey
    · exact (hrecords f hf).1 n hn
    · exact Nat.min_le_right _ _
    · exact ((hbecomes.start n).1 hstart).2
    · obtain ⟨name, hname⟩ := Option.isSome_iff_exists.1 (SortedMap.mem_keys_iff.1 hkey)
      obtain ⟨-, -, -, -, -, hword⟩ := (hbecomes.mapped n name).1 hname
      exact hword

/-- Every layout can be written as an answer, and every layout that an answer can stand for is read back from
however it is written. Since normalisation gives only such layouts, it undoes the writing of all that it
gives. -/
theorem normalize_inverts_writing (b : Bundle) :
    (∀ layout, ∃ value, Written layout value) ∧
      (∀ layout, Answerable b layout → ∀ value, Written layout value → readAnswer b value = .ok layout) ∧
      ∀ raw layout, normalize b raw = .ok layout → ∀ value, Written layout value →
        readAnswer b value = .ok layout := by
  refine ⟨exists_written, fun layout h value hw => normalize_of_written h hw, fun raw layout h value hw => ?_⟩
  exact normalize_of_written (answerable_of_normalize h) hw

/-! A layout with most kinds of values, and an answer that spells it in an unusual way. -/

namespace Spelled

def bundle : Bundle := {
  entity := "Chat"
  package := ""
  constants := {}
  fields := ["kind", "code", "message"].map fun name => { name, type := "int", nullable := false }
  routine := "" }

def kind : FieldLayout := ⟨"kind", .fixed 1, .fixed 4, .i32le, false, none, none, .inferred⟩

def code : FieldLayout := ⟨"code", .fixed 5, .fixed 12, .fixedAscii 12, false, some 0x80, some "a b", .inferred⟩

def message : FieldLayout := ⟨"message", .varying, .varying, .varUtf8, true, none, none, .inferred⟩

def layout : Layout := {
  entity := "Chat"
  fields := [kind, code, message]
  totalFixedSize := 17
  hasVariableSection := true
  variableSectionStart := some 17
  nullBits := ((∅ : SortedMap Nat String).insert 2 "message").insert 0x80 "code"
  notes := none }

def writtenKind : Json := .obj [("nullBit", .null), ("isVariable", .bool false), ("encoding", .str "i32le"),
  ("wireSize", .int 4), ("wireOffset", .int 1), ("name", .str "kind")]

def writtenCode : Json := .obj [("name", .str "code"), ("wireOffset", .int 5), ("wireSize", .int 12),
  ("encoding", .str "ascii[12]"), ("isVariable", .bool false), ("nullBit", .int 0x80), ("notes", .str "a b")]

def writtenMessage : Json := .obj [("name", .str "message"), ("wireOffset", .int (-1)), ("wireSize", .int (-1)),
  ("encoding", .str "varstring-utf8"), ("isVariable", .bool true), ("notes", .null)]

def answer : Json := .obj [
  ("variableSectionStart", .int 17),
  ("nullBitMappings", .arr [
    .obj [("bit", .str "0x0080"), ("fieldName", .str "code")],
    .obj [("fieldName", .str "message"), ("bit", .str "2")]]),
  ("hasVariableSection", .bool true), ("totalFixedSize", .int 17),
  ("fields", .arr [writtenKind, writtenCode, writtenMessage])]

theorem answerable : Answerable bundle layout where
  entity := rfl
  accepted := by decide +kernel
  inferred := by decide
  trimmed := by decide +kernel
  words := by decide +kernel

theorem written : Written layout answer := by
  have hkind : FieldWritten kind writtenKind := .members .null .omitted (List.reverse_perm _).symm
  have hcode : FieldWritten code writtenCode := .members (.value _) (.value _) (.refl _)
  have hmessage : FieldWritten message writtenMessage := .members .omitted .null (.refl _)
  have hdigits : IntLiteral.IsHexadecimal 0x80 ['0', '0', '8', '0'] := ⟨2, by decide +kernel⟩
  have hhigh : MappingWritten (0x80, "code") (.obj [("bit", .str "0x0080"), ("fieldName", .str "code")]) :=
    .members (.hexadecimal hdigits) (.refl _)
  have hlow : MappingWritten (2, "message") (.obj [("fieldName", .str "message"), ("bit", .str "2")]) :=
    .members .decimal (.swap _ _ _)
  have hfields : List.Forall₂ FieldWritten layout.fields [writtenKind, writtenCode, writtenMessage] :=
    .cons hkind (.cons hcode (.cons hmessage .nil))
  have hentries : [(0x80, "code"), (2, "message")].Perm layout.nullBits.entries := .swap _ _ _
  exact .members hfields hentries (.cons hhigh (.cons hlow .nil)) (.value _) .omitted (List.reverse_perm _).symm

end Spelled

/-- The layout comes out of the unusual answer. -/
theorem normalize_inverts_writing_spelled :
    Answerable Spelled.bundle Spelled.layout ∧ Written Spelled.layout Spelled.answer ∧
      readAnswer Spelled.bundle Spelled.answer = .ok Spelled.layout :=
  ⟨Spelled.answerable, Spelled.written,
    (normalize_inverts_writing Spelled.bundle).2.1 _ Spelled.answerable _ Spelled.written⟩

end Oracle

end WireLayout
