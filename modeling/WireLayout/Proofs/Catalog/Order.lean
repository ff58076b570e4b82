import WireLayout.Catalog.Canonical
import WireLayout.Proofs.Catalog.Merge
import WireLayout.Proofs.Java.TypeReader

/-! The order of the files. Where no two types have one name, no entry of a map is passed over for an earlier one and
no two messages of a category are tied, so the files may be merged in any order. -/

namespace WireLayout.Catalog

open WireLayout.Java

def declaredNames (unit : SourceUnit) : List String := unit.file.allTypes.map (·.name)

section

variable {α : Type} {es es' : List (String × α)}

theorem firstOf_perm (hperm : es.Perm es') (hkeys : (es.map (·.1)).Nodup) : firstOf es = firstOf es' := by
  refine SortedMap.ext_find? fun k => ?_
  rw [find?_firstOf, find?_firstOf]
  cases hfound : es.find? fun e => e.1 = k with
  | none =>
    have hfound' : (es'.find? fun e => e.1 = k) = none := by
      rw [List.find?_eq_none] at hfound ⊢
      exact fun e he => hfound e (hperm.mem_iff.2 he)
    rw [hfound']
  | some e =>
    obtain ⟨e', hfound'⟩ : ∃ e', (es'.find? fun e => e.1 = k) = some e' := by
      rw [← Option.isSome_iff_exists, List.find?_isSome]
      have hkey := List.find?_some hfound
      exact ⟨e, hperm.mem_iff.1 (List.mem_of_find?_eq_some hfound), hkey⟩
    have hkey : e.1 = k := by simpa using List.find?_some hfound
    have hkey' : e'.1 = k := by simpa using List.find?_some hfound'
    have heq : e = e' := List.inj_on_of_nodup_map hkeys (List.mem_of_find?_eq_some hfound)
      (hperm.mem_iff.2 (List.mem_of_find?_eq_some hfound')) (hkey.trans hkey'.symm)
    rw [hfound', heq]

end

theorem mergeSort_perm {ms ms' : List Message} (hperm : ms.Perm ms') (hnames : (ms.map (·.id.name)).Nodup) :
    ms.mergeSort messageLe = ms'.mergeSort messageLe := by
  have hsorted : ∀ l : List Message, (l.mergeSort messageLe).Pairwise fun a b => messageLe a b = true :=
    List.pairwise_mergeSort messageLe_trans messageLe_total
  have hboth : (ms.mergeSort messageLe).Perm (ms'.mergeSort messageLe) :=
    (List.mergeSort_perm ms _).trans (hperm.trans (List.mergeSort_perm ms' _).symm)
  refine hboth.eq_of_pairwise (fun a b ha hb hab hba => ?_) (hsorted ms) (hsorted ms')
  simp only [messageLe, Bool.or_eq_true, Bool.and_eq_true, decide_eq_true_eq] at hab hba
  have hname : a.id.name = b.id.name := by
    rcases hab with hab | ⟨hid, hab⟩
    · rcases hba with hba | ⟨hid, -⟩ <;> omega
    · rcases hba with hba | ⟨-, hba⟩
      · omega
      · exact le_antisymm hab hba
  exact List.inj_on_of_nodup_map hnames ((List.mergeSort_perm ms _).mem_iff.1 ha)
    (hperm.mem_iff.2 ((List.mergeSort_perm ms' _).mem_iff.1 hb)) hname

theorem sublist_allNested (ts : List TypeDeclaration) : ts.Sublist (TypeDeclaration.allNested ts) := by
  induction ts with
  | nil => exact List.Sublist.slnil
  | cons t ts ih =>
    rw [TypeDeclaration.allNested, TypeDeclaration.withNested_eq, List.cons_append]
    exact (ih.trans (List.sublist_append_right _ _)).cons_cons t

section

variable {units units' : List SourceUnit} {declared : SourceUnit → List TypeDeclaration}

/-- The names of declared types are among the names of all types. -/
theorem nodup_names (hdeclared : ∀ u, (declared u).Sublist u.file.allTypes)
    (hnames : (units.flatMap declaredNames).Nodup) :
    (units.flatMap fun u => (declared u).map (·.name)).Nodup :=
  hnames.sublist (List.Sublist.flatMap_right units fun u _ => (hdeclared u).map _)

/-- A map of first declarations does not depend on the order of the files, nor on their division into two lists. -/
theorem firstOf_declared_perm {α : Type} {build : SourceUnit → TypeDeclaration → α} (hperm : units.Perm units')
    (hdeclared : ∀ u, (declared u).Sublist u.file.allTypes) (hnames : (units.flatMap declaredNames).Nodup) :
    firstOf (units.flatMap fun u => (declared u).map fun d => (d.name, build u d)) =
      firstOf (units'.flatMap fun u => (declared u).map fun d => (d.name, build u d)) := by
  refine firstOf_perm (hperm.flatMap_right _) ?_
  rw [List.map_flatMap]
  simp only [List.map_map, Function.comp_def]
  exact nodup_names hdeclared hnames

theorem partition_perm (units : List SourceUnit) :
    (units.filter (fun u => !u.inPackets) ++ units.filter fun u => u.inPackets).Perm units := by
  have h := List.filter_append_perm (fun u : SourceUnit => u.inPackets) units
  exact List.perm_append_comm.trans h

theorem declaredMessages_perm (hperm : units.Perm units') (category : String) :
    (declaredMessages units category).Perm (declaredMessages units' category) :=
  (hperm.filter _).flatMap_right _

theorem nodup_messageNames (hnames : (units.flatMap declaredNames).Nodup) (category : String) :
    ((declaredMessages units category).map (·.id.name)).Nodup := by
  have hmessages : (declaredMessages units category).map (·.id.name) =
      (units.filter fun u => u.inPackets && u.category = category).flatMap fun u =>
        (u.file.types.filter fun d => isCandidate d && isMessage d).map (·.name) := by
    rw [declaredMessages, List.map_flatMap]
    simp only [messagesOf, List.map_map, Function.comp_def]
    rfl
  rw [hmessages]
  refine nodup_names (fun u => List.filter_sublist.trans (sublist_allNested _)) (hnames.sublist ?_)
  exact List.Sublist.flatMap List.filter_sublist _

/-- Files in which no two types have one name are merged into the same catalog, whatever their order. -/
theorem ofUnits_perm (hperm : units.Perm units') (hnames : (units.flatMap declaredNames).Nodup) :
    ofUnits units' = ofUnits units ∧ (ofUnits units').canonicalText = (ofUnits units).canonicalText := by
  have hsplit := (partition_perm units).trans (hperm.trans (partition_perm units').symm)
  have hsplitNames := ((partition_perm units).flatMap_right declaredNames).nodup_iff.2 hnames
  have hmessages : (ofUnits units).messages = (ofUnits units').messages := by
    refine SortedMap.ext_find? fun category => ?_
    have hdeclared := declaredMessages_perm hperm category
    rw [find?_messages, find?_messages, mergeSort_perm hdeclared (nodup_messageNames hnames category)]
    refine if_congr ?_ rfl rfl
    rw [← List.length_eq_zero_iff, ← List.length_eq_zero_iff, hdeclared.length_eq]
  have henumerations : (ofUnits units).enumerations = (ofUnits units').enumerations :=
    firstOf_declared_perm hsplit (fun _ => List.filter_sublist) hsplitNames
  have hdataTypes : (ofUnits units).dataTypes = (ofUnits units').dataTypes :=
    firstOf_declared_perm hsplit (fun u => List.filter_sublist.trans (sublist_allNested _)) hsplitNames
  have hcatalog : ofUnits units' = ofUnits units := calc
    ofUnits units' = ⟨(ofUnits units').messages, (ofUnits units').enumerations, (ofUnits units').dataTypes, []⟩ := rfl
    _ = ⟨(ofUnits units).messages, (ofUnits units).enumerations, (ofUnits units).dataTypes, []⟩ := by
      rw [hmessages, henumerations, hdataTypes]
    _ = ofUnits units := rfl
  exact ⟨hcatalog, congrArg canonicalText hcatalog⟩

end

/-! Two messages of one category and number, one with an enumeration inside, and an enumeration of its own. -/

namespace Trio

def declaration (kind : TypeKind) (name : String) (nested : List TypeDeclaration) : TypeDeclaration := {
  kind
  name
  modifiers := []
  superclasses := []
  interfaces := if kind = .classType then [messageName] else []
  fields := []
  constructors := []
  methods := []
  constants := [⟨"First", []⟩]
  nested }

def units : List SourceUnit := [
  ⟨"common/Mode.java", false, "common", ⟨"", [], [declaration .enumType "Mode" []]⟩⟩,
  ⟨"packets/auth/Hello.java", true, "auth", ⟨"", [], [declaration .classType "Hello" []]⟩⟩,
  ⟨"packets/auth/Login.java", true, "auth",
    ⟨"", [], [declaration .classType "Login" [declaration .enumType "Reason" []]]⟩⟩]

end Trio

/-- Read backwards, the files give the same messages, in one order, and the same two enumerations. -/
theorem ofUnits_perm_reverse :
    (Trio.units.flatMap declaredNames).Nodup ∧ ofUnits Trio.units.reverse = ofUnits Trio.units ∧
      (ofUnits Trio.units.reverse).canonicalText = (ofUnits Trio.units).canonicalText ∧
      (ofUnits Trio.units).enumerations.keys = ["Mode", "Reason"] := by
  have hnames : (Trio.units.flatMap declaredNames).Nodup := by decide +kernel
  have hcatalog := ofUnits_perm (List.reverse_perm _).symm hnames
  exact ⟨hnames, hcatalog.1, hcatalog.2, by decide +kernel⟩

end WireLayout.Catalog
