import WireLayout.Proofs.Layout.Validity

/-! What is said of a layout that is refused. The check stops at one flaw, and the layout has that flaw: the names and
bits of the report are those of records, or of entries of the map of bits, that break the rule. -/

namespace WireLayout

/-- What a flaw says of a layout. Of two records or two mappings the first one comes first. -/
def LayoutFlaw.Holds (layout : Layout) (declared : List String) : LayoutFlaw → Prop
  | undeclared name => name ∉ declared ∧ ∃ f ∈ layout.fields, f.name = name
  | repeated name => ∃ f g, [f, g].Sublist layout.fields ∧ f.name = name ∧ g.name = name
  | badBit bit name =>
    (¬ ∃ k, bit = 2 ^ k) ∧ ∃ f ∈ layout.fields, f.name = name ∧ f.nullBit = some bit
  | sharedBit bit first second =>
    ∃ f g, [f, g].Sublist layout.fields ∧ f.name = first ∧ g.name = second ∧ f.nullBit = some bit ∧
      g.nullBit = some bit
  | badMapping bit => (¬ ∃ k, bit = 2 ^ k) ∧ layout.nullBits.contains bit = true
  | undeclaredMapping bit name => name ∉ declared ∧ layout.nullBits.find? bit = some name
  | disagreeing bit own name =>
    own ≠ bit ∧ layout.nullBits.find? bit = some name ∧ (layout.field? name).bind (·.nullBit) = some own
  | mappedTwice name =>
    ∃ bit bit', bit < bit' ∧ layout.nullBits.find? bit = some name ∧ layout.nullBits.find? bit' = some name

namespace Layout

variable {layout : Layout} {declared : List String} {flaw : LayoutFlaw}

theorem pair_sublist {before rest : List FieldLayout} {f g : FieldLayout}
    (hfields : layout.fields = before ++ g :: rest) (hf : f ∈ before) : [f, g].Sublist layout.fields := by
  rw [hfields]
  exact (List.singleton_sublist.2 hf).append (List.singleton_sublist.2 List.mem_cons_self)

/-- What the check remembers is of records before, so a record that it refuses has the flaw. -/
theorem holds_of_checkFields {names : List String} {bits : List (Nat × String)}
    (before : List FieldLayout) {fields : List FieldLayout} (hfields : layout.fields = before ++ fields)
    (hnames : ∀ name ∈ names, ∃ f ∈ before, f.name = name)
    (hbits : ∀ e ∈ bits, ∃ f ∈ before, f.name = e.2 ∧ f.nullBit = some e.1)
    (h : checkFields declared names bits fields = .error flaw) : flaw.Holds layout declared := by
  induction fields generalizing names bits before with
  | nil => cases h
  | cons f rest ih =>
    have hf : f ∈ layout.fields := by rw [hfields]; simp
    have hnext : layout.fields = (before ++ [f]) ++ rest := by rw [hfields]; simp
    -- the record at hand joins those before, with its name
    have hnames' : ∀ name ∈ f.name :: names, ∃ g ∈ before ++ [f], g.name = name := by
      intro name hname
      rcases List.mem_cons.1 hname with rfl | hname
      · exact ⟨f, by simp, rfl⟩
      · obtain ⟨g, hg, hgn⟩ := hnames name hname
        exact ⟨g, by simp [hg], hgn⟩
    have hbits' : ∀ e ∈ bits, ∃ g ∈ before ++ [f], g.name = e.2 ∧ g.nullBit = some e.1 := by
      intro e he
      obtain ⟨g, hg, hge⟩ := hbits e he
      exact ⟨g, by simp [hg], hge⟩
    rw [checkFields] at h
    split at h
    · rename_i hd
      cases h
      exact ⟨by simpa using hd, f, hf, rfl⟩
    split at h
    · rename_i hn
      cases h
      obtain ⟨g, hg, hgn⟩ := hnames f.name (by simpa using hn)
      exact ⟨g, f, pair_sublist hfields hg, hgn, rfl⟩
    split at h
    · exact ih _ hnext hnames' hbits' h
    rename_i bit hbit
    split at h
    · rename_i hp
      cases h
      refine ⟨fun hpower => ?_, f, hf, rfl, hbit⟩
      rw [isPowerOfTwo_iff.2 hpower] at hp
      cases hp
    split at h
    · rename_i other hother
      cases h
      obtain ⟨earlier, later, heq, -⟩ := List.lookup_eq_some_iff.1 hother
      obtain ⟨g, hg, hgn, hgb⟩ := hbits (bit, other) (by rw [heq]; simp)
      exact ⟨g, f, pair_sublist hfields hg, hgn, rfl, hgb, hbit⟩
    · refine ih _ hnext hnames' ?_ h
      exact List.forall_mem_cons.2 ⟨⟨f, by simp, rfl, hbit⟩, hbits'⟩

/-- An entry that the check refuses has the flaw; the names before it are mapped from smaller bits. -/
theorem holds_of_checkMappings {mapped : List String} (before : List (Nat × String)) {es : List (Nat × String)}
    (hentries : layout.nullBits.entries = before ++ es)
    (hmapped : ∀ name ∈ mapped, ∃ e ∈ before, e.2 = name)
    (h : layout.checkMappings declared mapped es = .error flaw) : flaw.Holds layout declared := by
  induction es generalizing mapped before with
  | nil => cases h
  | cons e rest ih =>
    obtain ⟨bit, name⟩ := e
    have hfound : layout.nullBits.find? bit = some name := by
      rw [SortedMap.find?_eq_some_iff, hentries]
      simp
    rw [checkMappings] at h
    split at h
    · rename_i hp
      cases h
      refine ⟨fun hpower => ?_, by rw [SortedMap.contains, hfound]; rfl⟩
      rw [isPowerOfTwo_iff.2 hpower] at hp
      cases hp
    split at h
    · rename_i hd
      cases h
      exact ⟨by simpa using hd, hfound⟩
    split at h
    · rename_i own hown
      cases h
      obtain ⟨hown, hne⟩ := Option.filter_eq_some_iff.1 hown
      exact ⟨by simpa using hne, hfound, hown⟩
    split at h
    · rename_i hm
      cases h
      obtain ⟨⟨bit', name'⟩, he, rfl⟩ := hmapped name (by simpa using hm)
      have hsorted := layout.nullBits.sorted
      rw [hentries] at hsorted
      have hlt := (List.pairwise_append.1 hsorted).2.2 _ he _ List.mem_cons_self
      refine ⟨bit', bit, Nat.compare_eq_lt.1 hlt, ?_, hfound⟩
      rw [SortedMap.find?_eq_some_iff, hentries]
      simp [he]
    · refine ih (before ++ [(bit, name)]) (by rw [hentries]; simp) (fun other hother => ?_) h
      rcases List.mem_cons.1 hother with rfl | hother
      · exact ⟨(bit, other), by simp, rfl⟩
      · obtain ⟨e, he, hen⟩ := hmapped other hother
        exact ⟨e, by simp [he], hen⟩

theorem holds_of_check (h : layout.check declared = .error flaw) : flaw.Holds layout declared := by
  rw [check] at h
  cases hfields : checkFields declared [] [] layout.fields with
  | error found =>
    rw [hfields] at h
    cases h
    exact holds_of_checkFields [] rfl (by simp) (by simp) hfields
  | ok u =>
    rw [hfields] at h
    exact holds_of_checkMappings [] rfl (by simp) h

theorem validate_eq_ok_or_flaw (layout : Layout) (declared : List String) :
    layout.validate declared = .ok () ∨ ∃ flaw : LayoutFlaw,
      layout.validate declared = .error (.invalidLayout layout.entity flaw.message) ∧
        flaw.Holds layout declared := by
  rw [validate]
  cases hcheck : layout.check declared with
  | ok u => exact .inl rfl
  | error flaw => exact .inr ⟨flaw, rfl, holds_of_check hcheck⟩

/-- A layout is accepted exactly when its records are of declared and distinct fields with distinct powers of two for
bits, and its map has powers of two for keys, declared fields that are mapped from one key each, and for a field
with a bit of its own no other key. Otherwise it is invalid, for a flaw that it has. -/
theorem validate_outcome (layout : Layout) (declared : List String) :
    (layout.validate declared = .ok () ↔
      (∀ f ∈ layout.fields, f.name ∈ declared) ∧ (layout.fields.map (·.name)).Nodup ∧
      (∀ f ∈ layout.fields, ∀ bit, f.nullBit = some bit → ∃ k, bit = 2 ^ k) ∧
      (layout.fields.filterMap (·.nullBit)).Nodup ∧
      (∀ bit name, layout.nullBits.find? bit = some name → (∃ k, bit = 2 ^ k) ∧ name ∈ declared) ∧
      (∀ bit bit' name, layout.nullBits.find? bit = some name → layout.nullBits.find? bit' = some name →
        bit = bit') ∧
      (∀ bit name, layout.nullBits.find? bit = some name →
        ∀ f ∈ layout.fields, f.name = name → ∀ own, f.nullBit = some own → own = bit)) ∧
    (layout.validate declared = .ok () ∨ ∃ flaw : LayoutFlaw,
      layout.validate declared = .error (.invalidLayout layout.entity flaw.message) ∧
        flaw.Holds layout declared) := by
  refine ⟨?_, validate_eq_ok_or_flaw layout declared⟩
  rw [validate_eq_ok_iff]
  constructor
  · rintro ⟨hrecords, hbits, hagrees⟩
    refine ⟨hrecords.declared, hrecords.distinct, ?_, hbits, ?_, ?_, ?_⟩
    · exact fun f hf bit hbit => isPowerOfTwo_iff.1 (hrecords.powers f hf bit hbit)
    · intro bit name hfound
      have he := SortedMap.find?_eq_some_iff.1 hfound
      exact ⟨isPowerOfTwo_iff.1 (hagrees.keys _ he), hagrees.mapped _ he⟩
    · intro bit bit' name hfound hfound'
      have heq := SortedMap.nodup_values_iff.1 hagrees.mapped_distinct _
        (SortedMap.find?_eq_some_iff.1 hfound) _ (SortedMap.find?_eq_some_iff.1 hfound') rfl
      exact congrArg Prod.fst heq
    · exact fun bit name hfound => hagrees.own _ (SortedMap.find?_eq_some_iff.1 hfound)
  · rintro ⟨hdeclared, hdistinct, hpowers, hbits, hmapped, hone, hown⟩
    refine ⟨⟨hdeclared, hdistinct, ?_⟩, hbits, ?_, ?_, SortedMap.nodup_values_iff.2 ?_, ?_⟩
    · exact fun f hf bit hbit => isPowerOfTwo_iff.2 (hpowers f hf bit hbit)
    · exact fun e he => isPowerOfTwo_iff.2 (hmapped _ _ (SortedMap.find?_eq_some_iff.2 he)).1
    · exact fun e he => (hmapped _ _ (SortedMap.find?_eq_some_iff.2 he)).2
    · rintro ⟨bit, name⟩ he ⟨bit', name'⟩ he' rfl
      rw [hone bit bit' name (SortedMap.find?_eq_some_iff.2 he) (SortedMap.find?_eq_some_iff.2 he')]
    · exact fun e he => hown _ _ (SortedMap.find?_eq_some_iff.2 he)

end Layout

end WireLayout
