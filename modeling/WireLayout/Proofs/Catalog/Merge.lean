import Mathlib.Data.List.Induction
import Mathlib.Data.List.Sort
import Mathlib.Data.String.Basic
import WireLayout.Proofs.Catalog.Extraction

/-! What the merge of parsed files registers. Of the declarations that share the name of an enumeration or of a data
type the first one stays, those outside the directory of the packets before those inside it; every message is
kept, in the list of its category, which is sorted by number and name and otherwise keeps the order of the files. -/

namespace WireLayout.Catalog

open WireLayout.Java

section

variable {α : Type}

theorem find?_foldl_insertNew (es : List (String × α)) (m : SortedMap String α) (k : String) :
    (es.foldl (fun m e => m.insertNew e.1 e.2) m).find? k =
      (m.find? k).or ((es.find? fun e => e.1 = k).map (·.2)) := by
  induction es generalizing m with
  | nil => simp
  | cons e rest ih =>
    rw [List.foldl_cons, ih, SortedMap.insertNew, SortedMap.contains]
    cases hm : m.find? e.1 with
    | some v =>
      by_cases hk : e.1 = k
      · subst hk
        simp [hm]
      · simp [hk]
    | none =>
      by_cases hk : e.1 = k
      · subst hk
        simp [hm]
      · simp [SortedMap.find?_insert_ne m (Ne.symm hk), hk]

theorem find?_firstOf (es : List (String × α)) (k : String) :
    (firstOf es).find? k = (es.find? fun e => e.1 = k).map (·.2) := by
  rw [firstOf, find?_foldl_insertNew]
  rfl

def itemsOf (k : String) (es : List (String × α)) : List α := (es.filter fun e => e.1 = k).map (·.2)

theorem itemsOf_concat (k : String) (es : List (String × α)) (e : String × α) :
    itemsOf k (es ++ [e]) = itemsOf k es ++ if e.1 = k then [e.2] else [] := by
  by_cases h : e.1 = k <;> simp [itemsOf, h]

/-- A key has a group if it has an item, and then the group holds its items. -/
theorem find?_grouped (es : List (String × α)) (k : String) :
    (grouped es).find? k = if itemsOf k es = [] then none else some (itemsOf k es) := by
  -- from the left the groups grow at their ends, so the induction takes the last entry
  induction es using List.reverseRecOn with
  | nil => rfl
  | append_singleton es e ih =>
    have hlast : grouped (es ++ [e]) =
        (grouped es).insert e.1 ((((grouped es).find? e.1).getD []) ++ [e.2]) := by
      rw [grouped, List.foldl_append]
      rfl
    rw [hlast, itemsOf_concat]
    by_cases hk : e.1 = k
    · subst hk
      have hitems : ((grouped es).find? e.1).getD [] = itemsOf e.1 es := by
        rw [ih]
        split
        · rename_i hnil
          rw [hnil]
          rfl
        · rfl
      simp [hitems]
    · rw [SortedMap.find?_insert_ne _ (Ne.symm hk), ih]
      simp [hk]

end

theorem find?_mapValues {α β : Type} (f : α → β) (m : SortedMap String α) (k : String) :
    (m.mapValues f).find? k = (m.find? k).map f := by
  cases h : m.find? k with
  | some v =>
    refine SortedMap.find?_eq_some_iff.2 (List.mem_map.2 ⟨(k, v), SortedMap.find?_eq_some_iff.1 h, rfl⟩)
  | none =>
    rw [Option.map_none, Option.eq_none_iff_forall_ne_some]
    intro w hw
    obtain ⟨e, he, heq⟩ := List.mem_map.1 (SortedMap.find?_eq_some_iff.1 hw)
    obtain ⟨rfl, -⟩ := Prod.mk.inj heq
    rw [SortedMap.find?_eq_some_iff.2 he] at h
    cases h

/-! The order of the messages of a category. -/

/-- Two messages with one number and one name. -/
def tied (m n : Message) : Bool := n.constants.packetId = m.constants.packetId && n.id.name = m.id.name

theorem messageLe_trans (a b c : Message) (hab : messageLe a b = true) (hbc : messageLe b c = true) :
    messageLe a c = true := by
  simp only [messageLe, Bool.or_eq_true, Bool.and_eq_true, decide_eq_true_eq] at *
  rcases hab with hab | ⟨hab, hab'⟩ <;> rcases hbc with hbc | ⟨hbc, hbc'⟩
  · exact .inl (hab.trans hbc)
  · exact .inl (hbc ▸ hab)
  · exact .inl (hab ▸ hbc)
  · exact .inr ⟨hab.trans hbc, hab'.trans hbc'⟩

theorem messageLe_total (a b : Message) : (messageLe a b || messageLe b a) = true := by
  simp only [messageLe, Bool.or_eq_true, Bool.and_eq_true, decide_eq_true_eq]
  rcases lt_trichotomy a.constants.packetId b.constants.packetId with h | h | h
  · exact .inl (.inl h)
  · exact (le_total a.id.name b.id.name).imp (fun hn => .inr ⟨h, hn⟩) fun hn => .inr ⟨h.symm, hn⟩
  · exact .inr (.inl h)

/-- Sorting leaves messages with one number and one name in their order. -/
theorem filter_tied_mergeSort (ms : List Message) (m : Message) :
    (ms.mergeSort messageLe).filter (tied m) = ms.filter (tied m) := by
  have hties : (ms.filter (tied m)).Pairwise fun a b => messageLe a b = true := by
    rw [List.pairwise_filter]
    refine List.pairwise_of_forall fun a b ha hb => ?_
    simp only [tied, Bool.and_eq_true, decide_eq_true_eq] at ha hb
    simp [messageLe, ha.1, ha.2, hb.1, hb.2]
  have hsub : (ms.filter (tied m)).Sublist (ms.mergeSort messageLe) :=
    List.sublist_mergeSort messageLe_trans messageLe_total hties List.filter_sublist
  have hfilter := hsub.filter (tied m)
  rw [List.filter_filter] at hfilter
  simp only [Bool.and_self] at hfilter
  exact (hfilter.eq_of_length ((List.mergeSort_perm ms messageLe).filter (tied m)).length_eq.symm).symm

/-! What is declared. -/

/-- The messages that the files of a category declare, in the order of the walk. -/
def declaredMessages (units : List SourceUnit) (category : String) : List Message :=
  (units.filter fun u => u.inPackets && u.category = category).flatMap messagesOf

def enumsOf (unit : SourceUnit) : List TypeDeclaration := unit.file.allTypes.filter fun d => d.kind = .enumType

/-- The types at the top of a file that are kept as data types. -/
def dataTypesOf (unit : SourceUnit) : List TypeDeclaration :=
  unit.file.types.filter fun d => isCandidate d && !isMessage d && !d.name.endsWith messageName

/-- What is built from the first of the declarations of a name. -/
def firstDeclared {β : Type} (declared : SourceUnit → List TypeDeclaration)
    (build : SourceUnit → TypeDeclaration → β) (name : String) (units : List SourceUnit) : Option β :=
  units.findSome? fun u => ((declared u).find? fun d => d.name = name).map (build u)

/-- What is built from the first of the declarations of a name outside the directory of the packets or, when there is
none, from the first one inside it. -/
def declaredAs {β : Type} (declared : SourceUnit → List TypeDeclaration) (build : SourceUnit → TypeDeclaration → β)
    (name : String) (units : List SourceUnit) : Option β :=
  (firstDeclared declared build name (units.filter fun u => !u.inPackets)).or
    (firstDeclared declared build name (units.filter fun u => u.inPackets))

/-- A list of messages in the order of their numbers and names, and in the order of another list where these
are equal. -/
structure SortedFrom (declared ms : List Message) : Prop where
  perm : ms.Perm declared
  sorted : ms.Pairwise fun a b => messageLe a b = true
  ties : ∀ m, ms.filter (tied m) = declared.filter (tied m)

/-- Everything that files declare is in a catalog, and nothing else. -/
structure Registers (c : Catalog) (units : List SourceUnit) : Prop where
  messages : ∀ category ms, c.messages.find? category = some ms →
    ms ≠ [] ∧ SortedFrom (declaredMessages units category) ms
  noMessages : ∀ category, c.messages.find? category = none ↔ declaredMessages units category = []
  enumerations : ∀ name, c.enumerations.find? name = declaredAs enumsOf enumerationOf name units
  everyEnumeration : ∀ u ∈ units, ∀ d ∈ enumsOf u, c.enumerations.contains d.name = true
  dataTypes : ∀ name, c.dataTypes.find? name = declaredAs dataTypesOf dataTypeOf name units
  everyDataType : ∀ u ∈ units, ∀ d ∈ dataTypesOf u, c.dataTypes.contains d.name = true

theorem find?_declared {β : Type} (declared : SourceUnit → List TypeDeclaration)
    (build : SourceUnit → TypeDeclaration → β) (name : String) (units : List SourceUnit) :
    ((units.flatMap fun u => (declared u).map fun d => (d.name, build u d)).find? fun e => e.1 = name).map (·.2) =
      firstDeclared declared build name units := by
  rw [List.find?_flatMap, firstDeclared, List.map_findSome?]
  congr 1
  funext u
  rw [Function.comp_apply, List.find?_map, Option.map_map]
  rfl

/-- A map of first declarations, made of the files outside the directory before those inside it. -/
theorem find?_firstOf_declared {β : Type} (declared : SourceUnit → List TypeDeclaration)
    (build : SourceUnit → TypeDeclaration → β) (name : String) (units : List SourceUnit) :
    (firstOf ((units.filter (fun u => !u.inPackets) ++ units.filter fun u => u.inPackets).flatMap fun u =>
      (declared u).map fun d => (d.name, build u d))).find? name = declaredAs declared build name units := by
  rw [find?_firstOf, find?_declared, firstDeclared, List.findSome?_append]
  rfl

theorem isSome_declaredAs {β : Type} {declared : SourceUnit → List TypeDeclaration}
    (build : SourceUnit → TypeDeclaration → β) {units : List SourceUnit} {u : SourceUnit} (hu : u ∈ units)
    {d : TypeDeclaration} (hd : d ∈ declared u) : (declaredAs declared build d.name units).isSome = true := by
  have hfirst : ∀ us : List SourceUnit, u ∈ us → (firstDeclared declared build d.name us).isSome = true := by
    intro us hus
    rw [firstDeclared, List.isSome_findSome?, List.any_eq_true]
    refine ⟨u, hus, ?_⟩
    rw [Option.isSome_map, List.find?_isSome]
    exact ⟨d, hd, by simp⟩
  rw [declaredAs, Option.isSome_or, Bool.or_eq_true]
  cases hin : u.inPackets with
  | false => exact .inl (hfirst _ (List.mem_filter.2 ⟨hu, by simp [hin]⟩))
  | true => exact .inr (hfirst _ (List.mem_filter.2 ⟨hu, hin⟩))

/-- The messages of a category are the items of its key. -/
theorem itemsOf_unitMessages (units : List SourceUnit) (category : String) :
    itemsOf category ((units.filter fun u => u.inPackets).flatMap unitMessages) =
      declaredMessages units category := by
  induction units with
  | nil => rfl
  | cons u units ih =>
    rw [declaredMessages] at ih ⊢
    cases hin : u.inPackets with
    | false => simp [hin, ih]
    | true =>
      have hsplit : ∀ es fs : List (String × Message), itemsOf category (es ++ fs) =
          itemsOf category es ++ itemsOf category fs := by
        intro es fs
        simp [itemsOf]
      by_cases hcat : u.category = category
      · have hhere : itemsOf category (unitMessages u) = messagesOf u := by
          simp [itemsOf, unitMessages, messageDeclarations, messagesOf, List.filter_map, hcat, Function.comp_def]
        simp [hin, hcat, hsplit, ih, hhere]
      · have hhere : itemsOf category (unitMessages u) = [] := by
          simp [itemsOf, unitMessages, List.filter_map, hcat, Function.comp_def]
        simp [hin, hcat, hsplit, ih, hhere]

theorem find?_messages (units : List SourceUnit) (category : String) :
    (ofUnits units).messages.find? category = if declaredMessages units category = [] then none
      else some ((declaredMessages units category).mergeSort messageLe) := by
  rw [ofUnits, find?_mapValues, find?_grouped, itemsOf_unitMessages]
  split <;> rfl

/-- Files are merged into the catalog that registers what they declare: every message in the list of its category,
and for each name of an enumeration or data type the first declaration, in the order of the walk. -/
theorem ofUnits_registers (units : List SourceUnit) : (ofUnits units).Registers units := by
  have hmessages := find?_messages units
  have henumerations := fun name => find?_firstOf_declared enumsOf enumerationOf name units
  have hdataTypes := fun name => find?_firstOf_declared dataTypesOf dataTypeOf name units
  refine ⟨fun category ms h => ?_, fun category => ?_, henumerations, fun u hu d hd => ?_, hdataTypes,
    fun u hu d hd => ?_⟩
  · rw [hmessages, Option.ite_none_left_eq_some] at h
    obtain ⟨hne, h⟩ := h
    obtain rfl := Option.some.inj h
    have hperm := List.mergeSort_perm (declaredMessages units category) messageLe
    refine ⟨fun hnil => hne ?_, hperm, List.pairwise_mergeSort messageLe_trans messageLe_total _,
      filter_tied_mergeSort _⟩
    rw [hnil] at hperm
    exact hperm.nil_eq.symm
  · rw [hmessages]
    split <;> simp_all
  · rw [SortedMap.contains]
    exact (henumerations d.name).symm ▸ isSome_declaredAs enumerationOf hu hd
  · rw [SortedMap.contains]
    exact (hdataTypes d.name).symm ▸ isSome_declaredAs dataTypeOf hu hd

end WireLayout.Catalog
