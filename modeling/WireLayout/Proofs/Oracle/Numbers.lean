import WireLayout.Proofs.Inference
import WireLayout.Proofs.Layout.Encoding

/-! What becomes of the numbers of an answer. An answer gives numbers of 64 bits and a layout has numbers of 32. Negative
offsets, sizes and starts, bits that are not positive and blank notes stand for absent values. A number that is too large
is refused where it is the bit of a mapping. Elsewhere it is treated like a mark, or cut off in the case of the total, and
the answer is accepted without it; so an accepted answer keeps its numbers exactly when they are all of 32 bits. -/

namespace WireLayout

theorem WireOffset.ofRaw_eq_fixed_iff {raw : Int} {n : Nat} : ofRaw raw = fixed n ↔ raw = n ∧ n ≤ maxWord := by
  rw [← word?_eq_some_iff, ofRaw]
  cases word? raw <;> simp

theorem WireSize.ofRaw_eq_fixed_iff {raw : Int} {n : Nat} : ofRaw raw = fixed n ↔ raw = n ∧ n ≤ maxWord := by
  rw [← word?_eq_some_iff, ofRaw]
  cases word? raw <;> simp

namespace Oracle

open WireLayout.Text

theorem positiveBit?_eq_some_iff {raw : Int} {bit : Nat} :
    positiveBit? raw = some bit ↔ raw = bit ∧ 0 < bit ∧ bit ≤ maxWord := by
  rw [positiveBit?, Option.filter_eq_some_iff, word?_eq_some_iff, decide_eq_true_iff]
  tauto

theorem nonEmpty_eq_none_iff {note : Option String} :
    nonEmpty note = none ↔ ∀ text ∈ note, trimSpaces text = "" := by
  cases note with
  | none => simp [nonEmpty]
  | some text => simp [nonEmpty, Option.filter]

theorem int?_of_le {n : Int} (h : -1 ≤ n) (hn : n ≤ maxWord) : int? (.int n) = some n := by
  have hlow : -(maxLong + 1 : Int) ≤ n := by
    have hlong : (0 : Int) ≤ maxLong := by decide
    omega
  have hhigh : n ≤ maxLong := hn.trans (by decide)
  rw [int?, if_pos (by rw [Bool.and_eq_true, decide_eq_true_iff, decide_eq_true_iff]; exact ⟨hlow, hhigh⟩)]

theorem eq_int_of_int? {value : Json} {n : Int} (h : int? value = some n) : value = .int n := by
  unfold int? at h
  split at h
  · split at h
    · rw [Option.some.inj h]
    · cases h
  · cases h

def RawMapping.Gives (m : RawMapping) (n : Int) : Prop :=
  m.bit = .int n ∨ ∃ text, m.bit = .str text ∧ intLiteral? text = some n

theorem mappedBit?_eq_some_iff {m : RawMapping} {bit : Nat} :
    mappedBit? m.bit = some bit ↔ m.Gives bit ∧ 0 < bit ∧ bit ≤ maxWord := by
  unfold mappedBit? RawMapping.Gives
  split
  · rename_i n hn
    rw [Option.bind_eq_some_iff, hn]
    constructor
    · rintro ⟨read, hread, hbit⟩
      obtain ⟨rfl, hword⟩ := positiveBit?_eq_some_iff.1 hbit
      exact ⟨.inl (eq_int_of_int? hread), hword⟩
    · rintro ⟨heq | ⟨text, htext, -⟩, hbit⟩
      · obtain rfl := Json.int.inj heq
        exact ⟨bit, int?_of_le (by omega) (by exact_mod_cast hbit.2), positiveBit?_eq_some_iff.2 ⟨rfl, hbit⟩⟩
      · cases htext
  · rename_i text htext
    rw [Option.bind_eq_some_iff, htext]
    simp [positiveBit?_eq_some_iff]
  · rename_i hint hstr
    simp only [reduceCtorEq, false_iff]
    rintro ⟨hn | ⟨text, htext, -⟩, -⟩
    · exact hint _ hn
    · exact hstr _ htext

/-! Mappings. -/

/-- A mapping is taken when its bit is readable and neither its bit nor its name is mapped yet. -/
theorem addMapping_eq_ok_iff {entity : String} {bits next : SortedMap Nat String} {m : RawMapping} :
    addMapping entity bits m = .ok next ↔
      ∃ bit, mappedBit? m.bit = some bit ∧ bits.find? bit = none ∧ m.name ∉ bits.values ∧
        next = bits.insert bit m.name := by
  unfold addMapping
  cases mappedBit? m.bit with
  | none => simp
  | some bit =>
    cases hfind : bits.find? bit with
    | some previous => simp [hfind]
    | none =>
      by_cases hmem : m.name ∈ bits.values
      · simp [hfind, hmem]
      · simp [hfind, hmem, eq_comm]

theorem mappedBit?_of_overflows {bit : Json} (h : bitOverflows bit = true) : mappedBit? bit = none := by
  unfold bitOverflows at h
  split at h
  · rename_i text
    have hmin : intLiteral? text = some minLong := by
      by_contra hne
      rw [IntLiteral.overflows_eq_false hne] at h
      cases h
    rw [mappedBit?, hmin]
    rfl
  · cases h

/-- Checked arithmetic refuses nothing that is taken otherwise. -/
theorem takeMapping_eq_ok_iff {entity : String} {bits next : SortedMap Nat String} {m : RawMapping} :
    takeMapping entity bits m = .ok next ↔ addMapping entity bits m = .ok next := by
  unfold takeMapping
  split
  · rename_i hover
    simp [addMapping_eq_ok_iff, mappedBit?_of_overflows hover]
  · exact Except.mapError_eq_ok_iff

theorem foldlM_takeMapping_iff {entity : String} {ms : List RawMapping} {bits result : SortedMap Nat String} :
    ms.foldlM (takeMapping entity) bits = .ok result ↔ ms.foldlM (addMapping entity) bits = .ok result := by
  induction ms generalizing bits with
  | nil => simp [pure, Except.pure]
  | cons m ms ih => simp only [List.foldlM_cons, Except.bind_eq_ok_iff, takeMapping_eq_ok_iff, ih]

/-- The map has what it had and the mappings, each from the bit it gives, by induction on the list. -/
theorem find?_of_foldlM {entity : String} {ms : List RawMapping} {bits result : SortedMap Nat String}
    (h : ms.foldlM (addMapping entity) bits = .ok result) :
    (∀ m ∈ ms, ∃ bit, mappedBit? m.bit = some bit) ∧
      ∀ bit name, result.find? bit = some name ↔
        bits.find? bit = some name ∨ ∃ m ∈ ms, m.name = name ∧ mappedBit? m.bit = some bit := by
  induction ms generalizing bits with
  | nil =>
    obtain rfl := Except.ok.inj h
    simp
  | cons m ms ih =>
    rw [List.foldlM_cons] at h
    obtain ⟨next, hnext, hrest⟩ := Except.bind_eq_ok_iff.1 h
    obtain ⟨own, hown, hfree, -, rfl⟩ := addMapping_eq_ok_iff.1 hnext
    obtain ⟨hread, hfind⟩ := ih hrest
    refine ⟨List.forall_mem_cons.2 ⟨⟨own, hown⟩, hread⟩, fun bit name => ?_⟩
    rw [hfind, SortedMap.find?_insert, List.exists_mem_cons_iff, ← or_assoc]
    refine or_congr_left ?_
    by_cases hbit : bit = own
    · subst hbit
      simp [hfree, hown]
    · simp [hbit, hown, Ne.symm hbit]

/-! Records. -/

structure RawField.Becomes (raw : RawField) (f : FieldLayout) : Prop where
  name : f.name = raw.name
  offset : ∀ n : Nat, f.offset = .fixed n ↔ raw.offset = n ∧ n ≤ maxWord
  size : ∀ n : Nat, f.size = .fixed n ↔ raw.size = n ∧ n ≤ maxWord
  bit : ∀ n : Nat, f.nullBit = some n ↔ raw.nullBit = some (n : Int) ∧ 0 < n ∧ n ≤ maxWord
  note : f.note = none ↔ ∀ text ∈ raw.note, trimSpaces text = ""

/-- The numbers of a record that are no marks are kept. -/
structure RawField.KeptIn (raw : RawField) (f : FieldLayout) : Prop where
  offset : ∀ n : Nat, raw.offset = n → f.offset = .fixed n
  size : ∀ n : Nat, raw.size = n → f.size = .fixed n
  bit : ∀ n : Nat, 0 < n → raw.nullBit = some (n : Int) → f.nullBit = some n

structure RawField.Fits (raw : RawField) : Prop where
  offset : raw.offset ≤ maxWord
  size : raw.size ≤ maxWord
  bit : ∀ n ∈ raw.nullBit, n ≤ maxWord

theorem RawField.becomes_layout {entity : String} {raw : RawField} {f : FieldLayout}
    (h : raw.layout entity = .ok f) : raw.Becomes f := by
  unfold layout at h
  split at h
  · cases h
  · obtain rfl := Except.ok.inj h
    refine ⟨rfl, fun n => WireOffset.ofRaw_eq_fixed_iff, fun n => WireSize.ofRaw_eq_fixed_iff, fun n => ?_,
      nonEmpty_eq_none_iff⟩
    simp only [Option.bind_eq_some_iff, positiveBit?_eq_some_iff]
    constructor
    · rintro ⟨given, hgiven, rfl, hbit⟩
      exact ⟨hgiven, hbit⟩
    · rintro ⟨hgiven, hbit⟩
      exact ⟨n, hgiven, rfl, hbit⟩

theorem le_maxWord_of_natCast {raw : Int} (h : ∀ n : Nat, raw = n → n ≤ maxWord) : raw ≤ maxWord := by
  rcases le_total 0 raw with hpos | hneg
  · obtain ⟨n, rfl⟩ := Int.eq_ofNat_of_zero_le hpos
    exact_mod_cast h n rfl
  · exact le_trans hneg (by decide)

theorem RawField.Becomes.keptIn_iff {raw : RawField} {f : FieldLayout} (h : raw.Becomes f) :
    raw.KeptIn f ↔ raw.Fits := by
  constructor
  · intro hkept
    refine ⟨le_maxWord_of_natCast fun n hn => ?_, le_maxWord_of_natCast fun n hn => ?_, fun given hgiven => ?_⟩
    · exact ((h.offset n).1 (hkept.offset n hn)).2
    · exact ((h.size n).1 (hkept.size n hn)).2
    · apply le_maxWord_of_natCast
      rintro bit rfl
      rcases Nat.eq_zero_or_pos bit with rfl | hpos
      · exact Nat.zero_le _
      · exact ((h.bit bit).1 (hkept.bit bit hpos hgiven)).2.2
  · intro hfits
    refine ⟨fun n hn => (h.offset n).2 ⟨hn, ?_⟩, fun n hn => (h.size n).2 ⟨hn, ?_⟩,
      fun n hpos hn => (h.bit n).2 ⟨hn, hpos, ?_⟩⟩
    · have hword := hfits.offset
      omega
    · have hword := hfits.size
      omega
    · have hword := hfits.bit n hn
      omega

theorem RawField.forall₂_keptIn_iff {raws : List RawField} {fs : List FieldLayout}
    (h : List.Forall₂ Becomes raws fs) : List.Forall₂ KeptIn raws fs ↔ ∀ f ∈ raws, f.Fits := by
  induction h with
  | nil => simp
  | cons hfield _ ih => rw [List.forall₂_cons, hfield.keptIn_iff, ih, List.forall_mem_cons]

/-! Whole answers. -/

/-- The numbers of an answer that are no marks are kept. -/
structure RawLayout.KeptIn (raw : RawLayout) (layout : Layout) : Prop where
  fields : List.Forall₂ RawField.KeptIn raw.fields layout.fields
  total : ∀ n : Nat, raw.totalFixedSize = n → layout.totalFixedSize = n
  start : ∀ n : Nat, raw.variableSectionStart = some (n : Int) → layout.variableSectionStart = some n

structure RawLayout.Fits (raw : RawLayout) : Prop where
  fields : ∀ f ∈ raw.fields, f.Fits
  total : raw.totalFixedSize ≤ maxWord
  start : ∀ n ∈ raw.variableSectionStart, n ≤ maxWord

structure RawLayout.Becomes (raw : RawLayout) (layout : Layout) : Prop where
  fields : List.Forall₂ RawField.Becomes raw.fields layout.fields
  total : layout.totalFixedSize = min raw.totalFixedSize.toNat maxWord
  start : ∀ n : Nat, layout.variableSectionStart = some n ↔ raw.variableSectionStart = some (n : Int) ∧ n ≤ maxWord
  readable : ∀ m ∈ raw.mappings, ∃ bit : Nat, m.Gives bit ∧ 0 < bit ∧ bit ≤ maxWord
  mapped : ∀ bit name, layout.nullBits.find? bit = some name ↔
    ∃ m ∈ raw.mappings, m.name = name ∧ m.Gives bit ∧ 0 < bit ∧ bit ≤ maxWord
  notes : layout.notes = none ↔ ∀ text ∈ raw.notes, trimSpaces text = ""

theorem becomes_of_normalize {b : Bundle} {raw : RawLayout} {layout : Layout} (h : normalize b raw = .ok layout) :
    raw.Becomes layout := by
  unfold normalize at h
  obtain ⟨fields, hfields, h⟩ := Except.bind_eq_ok_iff.1 h
  obtain ⟨nullBits, hbits, h⟩ := Except.bind_eq_ok_iff.1 h
  obtain ⟨⟨⟩, -, h⟩ := Except.bind_eq_ok_iff.1 h
  obtain rfl := Except.ok.inj h
  obtain ⟨hread, hfind⟩ := find?_of_foldlM (foldlM_takeMapping_iff.1 hbits)
  simp only [mappedBit?_eq_some_iff] at hread hfind
  refine ⟨(Except.forall₂_of_mapM (Except.mapError_eq_ok_iff.1 hfields)).imp fun _ _ => RawField.becomes_layout, rfl, fun n => ?_, hread,
    fun bit name => ?_, nonEmpty_eq_none_iff⟩
  · simp only [Option.bind_eq_some_iff, word?_eq_some_iff]
    constructor
    · rintro ⟨given, hgiven, rfl, hword⟩
      exact ⟨hgiven, hword⟩
    · rintro ⟨hgiven, hword⟩
      exact ⟨n, hgiven, rfl, hword⟩
  · rw [hfind]
    exact or_iff_right nofun

theorem RawLayout.Becomes.keptIn_iff {raw : RawLayout} {layout : Layout} (h : raw.Becomes layout) :
    raw.KeptIn layout ↔ raw.Fits := by
  have hfields := RawField.forall₂_keptIn_iff h.fields
  constructor
  · intro hkept
    refine ⟨hfields.1 hkept.fields, le_maxWord_of_natCast fun n hn => ?_, fun given hgiven => ?_⟩
    · have htotal := hkept.total n hn
      rw [h.total] at htotal
      omega
    · apply le_maxWord_of_natCast
      rintro start rfl
      exact ((h.start start).1 (hkept.start start hgiven)).2
  · intro hfits
    refine ⟨hfields.2 hfits.fields, fun n hn => ?_, fun n hn => (h.start n).2 ⟨hn, ?_⟩⟩
    · have hword := hfits.total
      rw [h.total]
      omega
    · have hword := hfits.start n hn
      omega

/-- An accepted answer gives its numbers of 32 bits, and every bit of a mapping is one. What is absent had a mark or was
too large, and a total that was too large is cut off; so the numbers are kept exactly when none is too large. -/
theorem numbers_of_normalize {b : Bundle} {raw : RawLayout} {layout : Layout} (h : normalize b raw = .ok layout) :
    raw.Becomes layout ∧ (raw.KeptIn layout ↔ raw.Fits) :=
  ⟨becomes_of_normalize h, (becomes_of_normalize h).keptIn_iff⟩

/-! An answer with one number in all places, and with a mapping. -/

namespace OneNumber

def bundle : Bundle := {
  entity := "T"
  package := ""
  constants := {}
  fields := [{ name := "a", type := "int", nullable := false }]
  routine := "" }

def answer (n : Int) : Json := .obj [
  ("fields", .arr [.obj [("name", .str "a"), ("wireOffset", .int n), ("wireSize", .int n), ("encoding", .str "u8"),
    ("nullBit", .int n)]]),
  ("totalFixedSize", .int n), ("variableSectionStart", .int n),
  ("nullBitMappings", .arr [.obj [("bit", .str "0x08"), ("fieldName", .str "a")]])]

def raw (n : Int) : RawLayout where
  fields := [⟨"a", n, n, "u8", false, some n, none⟩]
  totalFixedSize := n
  hasVariableSection := false
  variableSectionStart := some n
  mappings := [⟨.str "0x08", "a"⟩]
  notes := none

def layout (offset : WireOffset) (size : WireSize) (bit : Option Nat) (total : Nat) (start : Option Nat) : Layout where
  entity := "T"
  fields := [⟨"a", offset, size, .u8, false, bit, none, .inferred⟩]
  totalFixedSize := total
  hasVariableSection := false
  variableSectionStart := start
  nullBits := (∅ : SortedMap Nat String).insert 8 "a"
  notes := none

theorem decode_answer : ∀ n ∈ [8, 4294967296], decode "T" (answer n) = .ok (raw n) := by
  intro n hn
  rcases List.mem_pair.1 hn with rfl | rfl <;> rfl

theorem normalize_small : normalize bundle (raw 8) = .ok (layout (.fixed 8) (.fixed 8) (some 8) 8 (some 8)) := by
  decide +kernel

theorem normalize_large : normalize bundle (raw 4294967296) = .ok (layout .varying .varying none maxWord none) := by
  decide +kernel

end OneNumber

theorem numbers_of_normalize_oneNumber :
    (OneNumber.raw 8).KeptIn (OneNumber.layout (.fixed 8) (.fixed 8) (some 8) 8 (some 8)) := by
  refine (numbers_of_normalize OneNumber.normalize_small).2.2 ⟨?_, by decide, by decide⟩
  rw [OneNumber.raw, List.forall_mem_singleton]
  exact ⟨by decide, by decide, by decide⟩

/-- The first number of more than 32 bits is lost in every place. -/
theorem numbers_lost_oneNumber :
    ∃ raw layout, decode OneNumber.bundle.entity (OneNumber.answer 4294967296) = .ok raw ∧
      normalize OneNumber.bundle raw = .ok layout ∧ ¬ raw.KeptIn layout := by
  refine ⟨_, _, OneNumber.decode_answer _ (by decide), OneNumber.normalize_large, fun hkept => ?_⟩
  cases hkept.start 4294967296 rfl

end Oracle

end WireLayout
