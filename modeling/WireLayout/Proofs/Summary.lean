import WireLayout.Proofs.Catalog.Merge
import WireLayout.Proofs.Layout.Literals
import WireLayout.Proofs.Pipeline

/-! What a summary keeps of a catalog. The messages go through one list and are grouped again by the category that they
carry, which gives back the categories of an extraction; each is listed with all its declared fields, and a
presence bit is found again under its hexadecimal text. -/

namespace WireLayout

open WireLayout.Text

/-! Numbers as hexadecimal texts. -/

theorem mem_hexDigits {n : Nat} {c : Char} (h : c ∈ Nat.toDigits 16 n) : ∃ d < 16, c = Nat.digitChar d := by
  induction n using Nat.strongRecOn with
  | ind n ih =>
    rw [Nat.toDigits_eq_if (by decide)] at h
    split at h
    · exact ⟨n, by assumption, List.mem_singleton.1 h⟩
    · rcases List.mem_append.1 h with h | h
      · exact ih (n / 16) (by omega) h
      · exact ⟨n % 16, Nat.mod_lt _ (by decide), List.mem_singleton.1 h⟩

def hexNumber? (text : String) : Option Nat :=
  match text.toList with
  | '0' :: 'x' :: digits => IntLiteral.digits? 16 digits
  | _ => none

theorem hexadecimal_of_hexText (n : Nat) :
    ∃ digits, (Constants.hexText n).toList = '0' :: 'x' :: digits ∧ IntLiteral.IsHexadecimal n digits := by
  have hcase : ∀ d < 16, asciiLower (if isAsciiLower (Nat.digitChar d) then
      Char.ofNat ((Nat.digitChar d).toNat - 32) else Nat.digitChar d) = Nat.digitChar d := by decide
  rw [Constants.hexText, String.toList_append, String.toList_ofList, String.toList_ofList, List.cons_append,
    List.cons_append, List.nil_append]
  refine ⟨_, rfl, ?_⟩
  rw [IntLiteral.IsHexadecimal, List.map_append, List.map_replicate, List.map_map]
  refine ⟨_, congrArg _ ((List.map_congr_left fun c hc => ?_).trans (List.map_id _))⟩
  obtain ⟨d, hd, rfl⟩ := mem_hexDigits hc
  exact hcase d hd

/-- A number is read back from its hexadecimal text, however many digits it has. -/
theorem hexNumber?_hexText (n : Nat) : hexNumber? (Constants.hexText n) = some n := by
  obtain ⟨digits, htext, hdigits⟩ := hexadecimal_of_hexText n
  simp only [hexNumber?, htext]
  rw [IntLiteral.digits?, if_neg (by simpa using hdigits.ne_nil), IntLiteral.digitsFrom_hexadecimal hdigits]

theorem hexText_injective : Function.Injective Constants.hexText := by
  intro m n h
  have hread := congrArg hexNumber? h
  rw [hexNumber?_hexText, hexNumber?_hexText] at hread
  exact Option.some.inj hread

/-! Grouping. -/

section

variable {α β : Type} {key : α → String}

theorem filter_flatten_entries {es : List (String × List α)} (hs : es.Pairwise fun a b => compare a.1 b.1 = .lt)
    (hkey : ∀ e ∈ es, ∀ x ∈ e.2, key x = e.1) (k : String) :
    (es.map (·.2)).flatten.filter (fun x => key x = k) = (SortedMap.lookup k es).getD [] := by
  induction es with
  | nil => rfl
  | cons e rest ih =>
    rw [List.pairwise_cons] at hs
    rw [List.forall_mem_cons] at hkey
    rw [List.map_cons, List.flatten_cons, List.filter_append, ih hs.2 hkey.2, SortedMap.lookup]
    by_cases hk : compare k e.1 = .eq
    · obtain rfl : k = e.1 := Std.LawfulEqOrd.eq_of_compare hk
      rw [if_pos hk, SortedMap.lookup_eq_none_of_lt hs.1, List.filter_eq_self.2 fun x hx => by simpa using hkey.1 x hx]
      exact List.append_nil _
    · have hother : ∀ x ∈ e.2, ¬ key x = k := by
        rintro x hx rfl
        exact hk (by rw [hkey.1 x hx]; exact Std.ReflOrd.compare_self)
      rw [if_neg hk, List.filter_eq_nil_iff.2 fun x hx => by simpa using hother x hx]
      rfl

/-- Items that come out of groups are put back into them when they are grouped by the keys they carry. -/
theorem grouped_flatten {m : SortedMap String (List α)} (hne : ∀ e ∈ m.entries, e.2 ≠ [])
    (hkey : ∀ e ∈ m.entries, ∀ x ∈ e.2, key x = e.1) (f : α → β) :
    Catalog.grouped (m.values.flatten.map fun x => (key x, f x)) = m.mapValues (·.map f) := by
  refine SortedMap.ext_find? fun k => ?_
  have hitems : Catalog.itemsOf k (m.values.flatten.map fun x => (key x, f x)) = ((m.find? k).getD []).map f := by
    rw [SortedMap.find?, ← filter_flatten_entries m.sorted hkey, Catalog.itemsOf, List.filter_map, List.map_map]
    rfl
  rw [Catalog.find?_grouped, hitems, Catalog.find?_mapValues]
  cases hfound : m.find? k with
  | none => rfl
  | some xs =>
    have hxs := hne _ (SortedMap.find?_eq_some_iff.1 hfound)
    simp [hxs]

end

/-- A list of entries with distinct keys loses none of them in its map. -/
theorem SortedMap.entries_ofList_perm {κ α : Type} [Ord κ] [Std.TransOrd κ] [Std.LawfulEqOrd κ]
    {es : List (κ × α)} (h : (es.map (·.1)).Nodup) : (ofList es).entries.Perm es := by
  refine (List.perm_ext_iff_of_nodup (List.Nodup.of_map _ (ofList es).nodup_keys) (List.Nodup.of_map _ h)).2 fun e => ?_
  exact ⟨mem_of_mem_ofList, fun he => find?_eq_some_iff.1 (find?_ofList_of_mem h he)⟩

/-! Where a catalog files its entities. -/

namespace Catalog

/-- Each category lists messages that carry it, one at least, and enumerations and data types have their own names for
keys. -/
structure Filed (c : Catalog) : Prop where
  nonempty : ∀ e ∈ c.messages.entries, e.2 ≠ []
  categories : ∀ e ∈ c.messages.entries, ∀ m ∈ e.2, m.id.category = e.1
  enumerations : ∀ e ∈ c.enumerations.entries, e.2.id.name = e.1
  dataTypes : ∀ e ∈ c.dataTypes.entries, e.2.id.name = e.1

theorem mem_of_mem_firstOf {α : Type} {es : List (String × α)} {e : String × α} (h : e ∈ (firstOf es).entries) :
    e ∈ es := by
  have hfound := SortedMap.find?_eq_some_iff.2 h
  rw [find?_firstOf] at hfound
  obtain ⟨e', he', hvalue⟩ := Option.map_eq_some_iff.1 hfound
  have hkey : e'.1 = e.1 := by simpa using List.find?_some he'
  obtain rfl : e' = e := Prod.ext hkey hvalue
  exact List.mem_of_find?_eq_some he'

theorem filed_ofUnits (units : List SourceUnit) : (ofUnits units).Filed := by
  have hmessages : ∀ e ∈ (ofUnits units).messages.entries,
      declaredMessages units e.1 ≠ [] ∧ e.2.Perm (declaredMessages units e.1) := by
    intro e he
    have hfound := SortedMap.find?_eq_some_iff.2 he
    rw [find?_messages, Option.ite_none_left_eq_some] at hfound
    obtain ⟨hne, hsorted⟩ := hfound
    rw [← Option.some.inj hsorted]
    exact ⟨hne, List.mergeSort_perm _ _⟩
  refine ⟨fun e he hnil => ?_, fun e he m hm => ?_, fun e he => ?_, fun e he => ?_⟩
  · obtain ⟨hne, hperm⟩ := hmessages e he
    rw [hnil] at hperm
    exact hne hperm.nil_eq.symm
  · obtain ⟨u, hu, hmu⟩ := List.mem_flatMap.1 ((hmessages e he).2.mem_iff.1 hm)
    obtain ⟨d, -, rfl⟩ := List.mem_map.1 hmu
    have hcategory := (List.mem_filter.1 hu).2
    simp only [Bool.and_eq_true, decide_eq_true_eq] at hcategory
    exact hcategory.2
  · obtain ⟨u, -, hu⟩ := List.mem_flatMap.1 (mem_of_mem_firstOf he)
    obtain ⟨d, -, rfl⟩ := List.mem_map.1 hu
    rfl
  · obtain ⟨u, -, hu⟩ := List.mem_flatMap.1 (mem_of_mem_firstOf he)
    obtain ⟨d, -, rfl⟩ := List.mem_map.1 hu
    rfl

theorem filed_of_extract {config : ExtractionConfig} {tree : FileTree} {root : String} {c : Catalog}
    (h : extract config tree root = .ok c) : c.Filed := by
  obtain ⟨skipped, rfl⟩ := ofUnits_of_extract h
  obtain ⟨hnonempty, hcategories, henumerations, hdataTypes⟩ := filed_ofUnits (unitsOf config tree root)
  exact ⟨hnonempty, hcategories, henumerations, hdataTypes⟩

end Catalog

/-! The parts of a summary. -/

namespace Summary

variable {layouts : LayoutIndex}

theorem foldl_add_messages (ms : List Message) (s : Summary) :
    (ms.map fun m => Emission.message m (layouts.find? m.id.name)).foldl add s =
      { s with
        categories := (ms.map fun m => (m.id.category, PacketEntry.ofMessage m (layouts.find? m.id.name))).foldl
          (fun m e => m.insert e.1 (((m.find? e.1).getD []) ++ [e.2])) s.categories } := by
  induction ms generalizing s with
  | nil => rfl
  | cons m ms ih => rw [List.map_cons, List.foldl_cons, ih]; rfl

theorem foldl_add_enumerations (es : List Enumeration) (s : Summary) :
    (es.map Emission.enumeration).foldl add s = { s with enumerations := s.enumerations ++ es } := by
  induction es generalizing s with
  | nil => simp
  | cons e es ih => rw [List.map_cons, List.foldl_cons, ih]; simp [add]

theorem foldl_add_dataTypes (ds : List DataType) (s : Summary) :
    (ds.map Emission.dataType).foldl add s = { s with dataTypes := s.dataTypes ++ ds } := by
  induction ds generalizing s with
  | nil => simp
  | cons d ds ih => rw [List.map_cons, List.foldl_cons, ih]; simp [add]

/-- Filed entities come out of the stream as they went in. -/
theorem withoutFingerprint_eq {c : Catalog} (h : c.Filed) (version : String) :
    withoutFingerprint version c layouts = {
      version
      categories := c.messages.mapValues (·.map fun m => PacketEntry.ofMessage m (layouts.find? m.id.name))
      enumerations := c.enumerations.values
      dataTypes := c.dataTypes.values } := by
  have hgrouped := grouped_flatten h.nonempty h.categories fun m =>
    PacketEntry.ofMessage m (layouts.find? m.id.name)
  rw [withoutFingerprint, Catalog.emissions, List.foldl_append, List.foldl_append, foldl_add_messages,
    foldl_add_enumerations, foldl_add_dataTypes, ← hgrouped]
  rfl

end Summary

/-- An overview says what its layout says of the message as a whole. It has one entry for each presence bit, under a key
from which the bit is read back. -/
structure LayoutOverview.Keeps (o : LayoutOverview) (l : Layout) : Prop where
  totalFixedSize : o.totalFixedSize = l.totalFixedSize
  hasVariableSection : o.hasVariableSection = l.hasVariableSection
  variableSectionStart : o.variableSectionStart = l.variableSectionStart
  notes : o.notes = l.notes
  size : o.nullBits.size = l.nullBits.size
  bits : ∀ bit, o.nullBits.find? (Constants.hexText bit) = l.nullBits.find? bit
  keys : ∀ key ∈ o.nullBits.keys, ∃ bit ∈ l.nullBits.keys, key = Constants.hexText bit ∧ hexNumber? key = some bit

theorem LayoutOverview.ofLayout_keeps (l : Layout) : (ofLayout l).Keeps l := by
  have hkeys : ((l.nullBits.entries.map fun e => (Constants.hexText e.1, e.2)).map (·.1)).Nodup := by
    have hmap := l.nullBits.nodup_keys.map hexText_injective
    rw [SortedMap.keys, List.map_map] at hmap
    rw [List.map_map]
    exact hmap
  have hperm := SortedMap.entries_ofList_perm hkeys
  have hmem : ∀ bit name, (Constants.hexText bit, name) ∈ (ofLayout l).nullBits.entries ↔
      (bit, name) ∈ l.nullBits.entries := by
    intro bit name
    rw [ofLayout, hperm.mem_iff, List.mem_map]
    constructor
    · rintro ⟨e, he, heq⟩
      obtain ⟨hbit, rfl⟩ := Prod.mk.inj heq
      rw [← hexText_injective hbit]
      exact he
    · exact fun he => ⟨(bit, name), he, rfl⟩
  refine ⟨rfl, rfl, rfl, rfl, ?_, fun bit => Option.ext fun name => ?_, fun key hkey => ?_⟩
  · exact hperm.length_eq.trans (List.length_map _)
  · rw [SortedMap.find?_eq_some_iff, SortedMap.find?_eq_some_iff, hmem]
  · obtain ⟨e, he, rfl⟩ := List.mem_map.1 hkey
    obtain ⟨mapping, hmapping, rfl⟩ := List.mem_map.1 (hperm.mem_iff.1 he)
    exact ⟨mapping.1, List.mem_map_of_mem hmapping, rfl, hexNumber?_hexText _⟩

/-- An entry names its message, and lists all declared fields in their order, each with the record of its name in the
layout of the message, if there is one. -/
structure PacketEntry.Keeps (p : PacketEntry) (m : Message) (layout : Option Layout) : Prop where
  name : p.name = m.id.name
  package : p.package = m.id.package
  sourcePath : p.sourcePath = m.id.sourcePath
  packetId : hexNumber? p.packetId = some m.constants.packetId
  constants : p.constants = m.constants
  fields : p.fields.map (·.1) = m.fields
  records : ∀ f ∈ p.fields, ∀ r, f.2 = some r ↔ ∃ l, layout = some l ∧ l.field? f.1.name = some r
  overview : Option.Rel LayoutOverview.Keeps p.layout layout

theorem PacketEntry.ofMessage_keeps (m : Message) (layout : Option Layout) : (ofMessage m layout).Keeps m layout := by
  refine ⟨rfl, rfl, rfl, hexNumber?_hexText _, rfl, ?_, fun f hf r => ?_, ?_⟩
  · exact (List.map_map ..).trans (List.map_id _)
  · obtain ⟨field, -, rfl⟩ := List.mem_map.1 hf
    exact Option.bind_eq_some_iff
  · cases layout with
    | none => exact .none
    | some l => exact .some (LayoutOverview.ofLayout_keeps l)

/-- A summary has one entry for each message, in the order of its category, and the enumerations and data types in the
order of their names. -/
structure Summary.Keeps (s : Summary) (c : Catalog) (layouts : LayoutIndex) : Prop where
  categories : s.categories.keys = c.messages.keys
  packets : ∀ category ms, c.messages.find? category = some ms → ∃ ps, s.categories.find? category = some ps ∧
    List.Forall₂ (fun p m => p.Keeps m (layouts.find? m.id.name)) ps ms
  enumerations : s.enumerations = c.enumerations.values
  enumerationNames : (s.enumerations.map (·.id.name)).Pairwise (· < ·)
  dataTypes : s.dataTypes = c.dataTypes.values
  dataTypeNames : (s.dataTypes.map (·.id.name)).Pairwise (· < ·)

/-- Values that are filed under their names come in the order of their names. -/
theorem SortedMap.pairwise_names {α : Type} {name : α → String} {m : SortedMap String α}
    (h : ∀ e ∈ m.entries, name e.2 = e.1) : (m.values.map name).Pairwise (· < ·) := by
  have hnames : m.values.map name = m.keys := by
    rw [values, keys, List.map_map]
    exact List.map_congr_left h
  rw [hnames, keys, List.pairwise_map]
  exact m.sorted.imp fun hlt => compare_lt_iff_lt.1 hlt

section

variable {config : ExtractionConfig} {tree : FileTree} {root : String} {c : Catalog}

/-- The summary of an extraction keeps all that was extracted, whatever layouts go with it. -/
theorem Summary.ofCatalog_keeps (hc : Catalog.extract config tree root = .ok c) (version : String)
    (layouts : LayoutIndex) :
    (ofCatalog version c layouts).version = version ∧
      (ofCatalog version c layouts).fingerprint = some c.fingerprint ∧ (ofCatalog version c layouts).Keeps c layouts := by
  have hfiled := Catalog.filed_of_extract hc
  rw [ofCatalog, withoutFingerprint_eq hfiled]
  refine ⟨rfl, rfl, ?_, fun category ms hms => ?_, rfl, SortedMap.pairwise_names hfiled.enumerations, rfl,
    SortedMap.pairwise_names hfiled.dataTypes⟩
  · exact List.map_map ..
  · refine ⟨_, (Catalog.find?_mapValues _ _ _).trans (by rw [hms]; rfl), ?_⟩
    rw [List.forall₂_map_left_iff, List.forall₂_same]
    exact fun m _ => PacketEntry.ofMessage_keeps m _

end

namespace Namesakes

/-- A layout with two presence bits, one of them beyond the first octet. -/
def guarded : Layout := { layout with nullBits := ⟨[(1, "y"), (256, "x")], by decide⟩ }

def index : LayoutIndex := ⟨[("Ping", guarded)], by decide⟩

end Namesakes

/-- A message is the one entry of its category, and the bits of its layout are listed with two digits or more. -/
theorem Summary.ofCatalog_keeps_namesakes :
    ∃ p o, (Summary.ofCatalog "1" Namesakes.catalog Namesakes.index).categories.find? "b" = some [p] ∧
      p.layout = some o ∧ o.nullBits.find? "0x01" = some "y" ∧ o.nullBits.find? "0x100" = some "x" := by
  obtain ⟨-, -, hkeeps⟩ := Summary.ofCatalog_keeps Namesakes.extract_tree "1" Namesakes.index
  obtain ⟨ps, hps, hall⟩ := hkeeps.packets "b" [Namesakes.bundled] rfl
  obtain ⟨p, rest, hp, hrest, rfl⟩ := List.forall₂_cons_right_iff.1 hall
  obtain rfl := List.forall₂_nil_right_iff.1 hrest
  have hfound : Namesakes.index.find? Namesakes.bundled.id.name = some Namesakes.guarded := rfl
  have hoverview := hp.overview
  rw [hfound] at hoverview
  cases ho : p.layout with
  | none =>
    rw [ho] at hoverview
    cases hoverview
  | some o =>
    rw [ho] at hoverview
    cases hoverview with
    | some hkept => exact ⟨p, o, hps, ho, hkept.bits 1, hkept.bits 256⟩

end WireLayout
