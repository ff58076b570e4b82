import Mathlib
import WireLayout.Layout.Validity
import WireLayout.Proofs.SortedMap

/-! The declarative side of the check of a layout. A layout is valid when its records are of declared and
distinct fields with distinct powers of two for bits, and its map of bits, one key for each name, agrees
with the records. The check succeeds on exactly the valid layouts. -/

namespace WireLayout

theorem isPowerOfTwo_iff {n : Nat} : isPowerOfTwo n = true ↔ ∃ k, n = 2 ^ k := by
  unfold isPowerOfTwo
  rw [decide_eq_true_iff, Nat.one_shiftLeft]
  constructor
  · intro h
    exact ⟨n.log2, h.symm⟩
  · rintro ⟨k, rfl⟩
    rw [Nat.log2_two_pow]

/-- Records of declared fields, one for each field, whose presence bits are powers of two. -/
structure Records (declared : List String) (fields : List FieldLayout) : Prop where
  declared : ∀ f ∈ fields, f.name ∈ declared
  distinct : (fields.map (·.name)).Nodup
  powers : ∀ f ∈ fields, ∀ bit, f.nullBit = some bit → isPowerOfTwo bit = true

namespace Records

variable {declared : List String} {fields : List FieldLayout}

theorem nil (declared : List String) : Records declared [] :=
  ⟨by simp, by simp, by simp⟩

theorem eq_of_name_eq (h : Records declared fields) {f g : FieldLayout} (hf : f ∈ fields) (hg : g ∈ fields)
    (hn : f.name = g.name) : f = g :=
  List.inj_on_of_nodup_map h.distinct hf hg hn

theorem cons_iff {f : FieldLayout} :
    Records declared (f :: fields) ↔
      f.name ∈ declared ∧ f.name ∉ fields.map (·.name) ∧
        (∀ bit, f.nullBit = some bit → isPowerOfTwo bit = true) ∧ Records declared fields := by
  constructor
  · rintro ⟨hd, hn, hp⟩
    rw [List.map_cons, List.nodup_cons] at hn
    rw [List.forall_mem_cons] at hd hp
    exact ⟨hd.1, hn.1, hp.1, hd.2, hn.2, hp.2⟩
  · rintro ⟨hd, hn, hp, h⟩
    refine ⟨List.forall_mem_cons.2 ⟨hd, h.declared⟩, ?_, List.forall_mem_cons.2 ⟨hp, h.powers⟩⟩
    rw [List.map_cons, List.nodup_cons]
    exact ⟨hn, h.distinct⟩

end Records

/-- A map of bits that does not contradict records: it maps declared fields, each at most once and from no
bit but its own. -/
structure Agrees (declared : List String) (fields : List FieldLayout) (bits : SortedMap Nat String) :
    Prop where
  keys : ∀ e ∈ bits.entries, isPowerOfTwo e.1 = true
  mapped : ∀ e ∈ bits.entries, e.2 ∈ declared
  mapped_distinct : bits.values.Nodup
  own : ∀ e ∈ bits.entries, ∀ f ∈ fields, f.name = e.2 → ∀ bit, f.nullBit = some bit → bit = e.1

namespace Layout

/-- What an accepted layout satisfies. -/
structure Valid (layout : Layout) (declared : List String) : Prop where
  records : Records declared layout.fields
  bits_distinct : (layout.fields.filterMap (·.nullBit)).Nodup
  agrees : Agrees declared layout.fields layout.nullBits

variable {declared : List String}

/-- One record is checked against the names and bits before it. -/
theorem checkFields_cons_eq_ok_iff {names : List String} {bits : List (Nat × String)} {f : FieldLayout}
    {rest : List FieldLayout} :
    checkFields declared names bits (f :: rest) = .ok () ↔
      f.name ∈ declared ∧ f.name ∉ names ∧
        (∀ bit, f.nullBit = some bit → isPowerOfTwo bit = true ∧ bits.lookup bit = none) ∧
        checkFields declared (f.name :: names) ((f.nullBit.map (·, f.name)).toList ++ bits) rest = .ok () := by
  rw [checkFields]
  by_cases hd : f.name ∈ declared
  · by_cases hn : f.name ∈ names
    · simp [hd, hn]
    · cases hb : f.nullBit with
      | none => simp [hd, hn]
      | some bit =>
        by_cases hp : isPowerOfTwo bit = true
        · cases hl : bits.lookup bit with
          | none => simp [hd, hn, hp, hl, -List.lookup_eq_none_iff]
          | some other => simp [hd, hn, hp, hl, -List.lookup_eq_none_iff]
        · simp [hd, hn, hp]
  · simp [hd]

theorem lookup_eq_none_iff {bits : List (Nat × String)} {bit : Nat} :
    bits.lookup bit = none ↔ bit ∉ bits.map (·.1) := by
  rw [List.lookup_eq_none_iff, List.mem_map]
  constructor
  · rintro h ⟨e, he, rfl⟩
    simpa using h e he
  · intro h e he
    rw [bne_iff_ne]
    rintro rfl
    exact h ⟨e, he, rfl⟩

theorem checkFields_eq_ok_iff {names : List String} {bits : List (Nat × String)}
    {fields : List FieldLayout} :
    checkFields declared names bits fields = .ok () ↔
      Records declared fields ∧ (fields.filterMap (·.nullBit)).Nodup ∧
        (∀ f ∈ fields, f.name ∉ names) ∧
        (∀ f ∈ fields, ∀ bit, f.nullBit = some bit → bit ∉ bits.map (·.1)) := by
  induction fields generalizing names bits with
  | nil => simp [checkFields, Records.nil]
  | cons f rest ih =>
    rw [checkFields_cons_eq_ok_iff, ih, Records.cons_iff]
    -- the name of a record joins those before the rest, and its bit, if it has one, does too
    have hnames : (∀ g ∈ rest, g.name ∉ f.name :: names) ↔
        f.name ∉ rest.map (·.name) ∧ ∀ g ∈ rest, g.name ∉ names := by
      grind
    cases hb : f.nullBit with
    | none =>
      rw [hnames, List.filterMap_cons_none hb]
      grind
    | some bit =>
      have hbits : (∀ g ∈ rest, ∀ own, g.nullBit = some own → own ∉ bit :: bits.map (·.1)) ↔
          bit ∉ rest.filterMap (·.nullBit) ∧
            ∀ g ∈ rest, ∀ own, g.nullBit = some own → own ∉ bits.map (·.1) := by
        grind
      rw [hnames, List.filterMap_cons_some hb, List.nodup_cons]
      simp only [Option.map_some, Option.toList_some, List.singleton_append, List.map_cons, hbits]
      grind [lookup_eq_none_iff]

theorem field?_eq_some_iff {layout : Layout} (h : (layout.fields.map (·.name)).Nodup) {name : String}
    {f : FieldLayout} : layout.field? name = some f ↔ f ∈ layout.fields ∧ f.name = name := by
  unfold field?
  constructor
  · intro hf
    exact ⟨List.mem_of_find?_eq_some hf, by simpa using List.find?_some hf⟩
  · rintro ⟨hf, rfl⟩
    cases hg : layout.fields.find? fun g => g.name = f.name with
    | none => simpa using List.find?_eq_none.1 hg f hf
    | some g =>
      have hname : g.name = f.name := by simpa using List.find?_some hg
      rw [List.inj_on_of_nodup_map h (List.mem_of_find?_eq_some hg) hf hname]

/-- A mapping meets no other bit exactly when it agrees with the records of its field. -/
theorem otherBit?_eq_none_iff {layout : Layout} (h : (layout.fields.map (·.name)).Nodup) {bit : Nat}
    {name : String} :
    layout.otherBit? bit name = none ↔
      ∀ f ∈ layout.fields, f.name = name → ∀ own, f.nullBit = some own → own = bit := by
  have hsome : ∀ own, (layout.field? name).bind (·.nullBit) = some own ↔
      ∃ f ∈ layout.fields, f.name = name ∧ f.nullBit = some own := by
    intro own
    simp only [Option.bind_eq_some_iff, field?_eq_some_iff h, and_assoc]
  rw [otherBit?, Option.filter_eq_none_iff]
  constructor
  · intro hall f hf hn own hown
    simpa using hall own ((hsome own).2 ⟨f, hf, hn, hown⟩)
  · intro hall own hown
    obtain ⟨f, hf, hn, hbit⟩ := (hsome own).1 hown
    simpa using hall f hf hn own hbit

theorem checkMappings_eq_ok_iff {layout : Layout} {mapped : List String} {es : List (Nat × String)} :
    layout.checkMappings declared mapped es = .ok () ↔
      (∀ e ∈ es, isPowerOfTwo e.1 = true ∧ e.2 ∈ declared ∧ layout.otherBit? e.1 e.2 = none ∧ e.2 ∉ mapped) ∧
        (es.map (·.2)).Nodup := by
  induction es generalizing mapped with
  | nil => simp [checkMappings]
  | cons e rest ih =>
    obtain ⟨bit, name⟩ := e
    rw [checkMappings]
    by_cases hp : isPowerOfTwo bit = true
    · by_cases hd : name ∈ declared
      · cases ho : layout.otherBit? bit name with
        | some own => simp [hp, hd, ho]
        | none =>
          by_cases hm : name ∈ mapped
          · simp [hp, hd, ho, hm]
          · simp [hp, hd, ho, hm, ih]; grind
      · simp [hp, hd]
    · simp [hp]

theorem check_eq_ok_iff {layout : Layout} : layout.check declared = .ok () ↔ layout.Valid declared := by
  have hbind : layout.check declared = .ok () ↔ checkFields declared [] [] layout.fields = .ok () ∧
      layout.checkMappings declared [] layout.nullBits.entries = .ok () := by
    rw [check]
    cases checkFields declared [] [] layout.fields with
    | error flaw => simp [bind, Except.bind]
    | ok u => simp [bind, Except.bind]
  rw [hbind, checkFields_eq_ok_iff, checkMappings_eq_ok_iff]
  constructor
  · rintro ⟨⟨hrecords, hbits, -, -⟩, hmaps, hnames⟩
    exact ⟨hrecords, hbits, fun e he => (hmaps e he).1, fun e he => (hmaps e he).2.1, hnames,
      fun e he => (otherBit?_eq_none_iff hrecords.distinct).1 (hmaps e he).2.2.1⟩
  · rintro ⟨hrecords, hbits, hagrees⟩
    refine ⟨⟨hrecords, hbits, by simp, by simp⟩, fun e he => ?_, hagrees.mapped_distinct⟩
    have hother := (otherBit?_eq_none_iff hrecords.distinct).2 (hagrees.own e he)
    exact ⟨hagrees.keys e he, hagrees.mapped e he, hother, by simp⟩

/-- The check accepts exactly the valid layouts. -/
theorem validate_eq_ok_iff {layout : Layout} : layout.validate declared = .ok () ↔ layout.Valid declared := by
  rw [← check_eq_ok_iff, validate]
  cases layout.check declared with
  | error flaw => simp [Except.mapError]
  | ok u => simp [Except.mapError]

end Layout

end WireLayout
