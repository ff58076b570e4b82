import Mathlib.Data.List.Perm.Basic
import WireLayout.Catalog.Extraction
import WireLayout.Proofs.Except
import WireLayout.Proofs.SortedMap

/-! What an extraction finds. Its messages are those of the sources inside the directory of the packets, each
as often as it is declared, whatever names they share; the grouping by category and the order within a
category only rearrange them. -/

namespace WireLayout.Catalog

section

variable {α : Type}

/-- An entry that joins the group of its key adds one item to the groups. -/
theorem flatten_insertEntry (k : String) (v : α) {es : List (String × List α)}
    (h : es.Pairwise fun a b => compare a.1 b.1 = .lt) :
    ((SortedMap.insertEntry k (((SortedMap.lookup k es).getD []) ++ [v]) es).map (·.2)).flatten.Perm
      ((es.map (·.2)).flatten ++ [v]) := by
  induction es with
  | nil => simp [SortedMap.insertEntry, SortedMap.lookup]
  | cons e rest ih =>
    rw [List.pairwise_cons] at h
    unfold SortedMap.insertEntry SortedMap.lookup
    cases hc : compare k e.1 with
    | lt =>
      have hnone : SortedMap.lookup k rest = none :=
        SortedMap.lookup_eq_none_of_lt fun x hx => Std.TransCmp.lt_trans hc (h.1 x hx)
      simp only [hnone, reduceCtorEq, if_false, Option.getD_none, List.nil_append, List.map_cons,
        List.flatten_cons]
      exact List.perm_append_comm
    | eq =>
      simp only [if_true, Option.getD_some, List.map_cons, List.flatten_cons, List.append_assoc]
      exact (List.perm_append_comm).append_left _
    | gt =>
      simp only [reduceCtorEq, if_false, List.map_cons, List.flatten_cons, List.append_assoc]
      exact (ih h.2).append_left _

theorem flatten_grouped (entries : List (String × α)) :
    (grouped entries).values.flatten.Perm (entries.map (·.2)) := by
  have hfold : ∀ (es : List (String × α)) (m : SortedMap String (List α)),
      (es.foldl (fun m e => m.insert e.1 (((m.find? e.1).getD []) ++ [e.2])) m).values.flatten.Perm
        (m.values.flatten ++ es.map (·.2)) := by
    intro es
    induction es with
    | nil => intro m; simp
    | cons e rest ih =>
      intro m
      refine (ih _).trans ?_
      rw [List.map_cons, ← List.singleton_append, ← List.append_assoc]
      exact (flatten_insertEntry e.1 e.2 m.sorted).append_right _
  exact hfold entries ∅

theorem flatten_mapValues {m : SortedMap String (List α)} {f : List α → List α} (h : ∀ l, (f l).Perm l) :
    (m.mapValues f).values.flatten.Perm m.values.flatten := by
  refine List.Perm.flatten_congr ?_
  unfold SortedMap.values SortedMap.mapValues
  rw [List.map_map, List.forall₂_map_left_iff, List.forall₂_map_right_iff, List.forall₂_same]
  exact fun e _ => h e.2

end

/-- The messages that a source declares. -/
def messagesOf (unit : SourceUnit) : List Message :=
  (unit.file.types.filter fun d => isCandidate d && isMessage d).map (messageOf unit)

/-- The messages of a catalog are those of the sources inside the directory of the packets. -/
theorem allMessages_ofUnits (units : List SourceUnit) :
    (ofUnits units).allMessages.Perm ((units.filter (·.inPackets)).flatMap messagesOf) := by
  refine (flatten_mapValues fun l => List.mergeSort_perm l _).trans ((flatten_grouped _).trans ?_)
  rw [List.map_flatMap]
  simp only [unitMessages, List.map_map, Function.comp_def]
  exact List.Perm.refl _

def unitOf? (config : ExtractionConfig) (root : String) (entry : FileTree.WalkEntry) : Option SourceUnit :=
  match sight config root entry with
  | .ok sighting => sighting.bind Sighting.unit?
  | .error _ => none

/-- The sources that an extraction reads, in the order of the walk. -/
def unitsOf (config : ExtractionConfig) (tree : FileTree) (root : String) : List SourceUnit :=
  ((tree.walk? config.followLinks root).getD []).filterMap (unitOf? config root)

variable {config : ExtractionConfig} {tree : FileTree} {root : String} {c : Catalog}

theorem filterMap_unit?_of_mapM {entries : List FileTree.WalkEntry} {sightings : List (Option Sighting)}
    (h : entries.mapM (sight config root) = .ok sightings) :
    (sightings.filterMap id).filterMap Sighting.unit? = entries.filterMap (unitOf? config root) := by
  rw [List.filterMap_filterMap]
  have hall := Except.forall₂_of_mapM h
  clear h
  induction hall with
  | nil => rfl
  | @cons entry sighting _ _ hx _ ih =>
    have hunit : unitOf? config root entry = sighting.bind Sighting.unit? := by rw [unitOf?, hx]
    rw [List.filterMap_cons, List.filterMap_cons, ih, hunit]
    rfl

/-- An extraction merges the sources that it reads. -/
theorem ofUnits_of_extract (h : extract config tree root = .ok c) :
    ∃ skipped, c = { ofUnits (unitsOf config tree root) with skipped } := by
  unfold extract at h
  unfold unitsOf
  split at h
  · cases h
  · rename_i entries hwalk
    obtain ⟨sightings, hs, h⟩ := Except.bind_eq_ok_iff.1 h
    rw [Except.mapError_eq_ok_iff] at hs
    simp only at h
    split at h
    · cases h
    cases h
    rw [hwalk, Option.getD_some, ← filterMap_unit?_of_mapM hs]
    exact ⟨_, rfl⟩

/-- The messages of an extraction, each as often as it is declared. -/
theorem allMessages_extract (h : extract config tree root = .ok c) :
    c.allMessages.Perm (((unitsOf config tree root).filter (·.inPackets)).flatMap messagesOf) := by
  obtain ⟨skipped, rfl⟩ := ofUnits_of_extract h
  exact allMessages_ofUnits _

/-- A message carries the declared fields of its bundle. -/
theorem fieldNames_of_bundle (h : extract config tree root = .ok c) {m : Message} (hm : m ∈ c.allMessages)
    {b : Bundle} (hb : m.bundle = some b) : b.fieldNames = m.fields.map (·.name) := by
  obtain ⟨unit, -, hu⟩ := List.mem_flatMap.1 ((allMessages_extract h).mem_iff.1 hm)
  obtain ⟨decl, -, rfl⟩ := List.mem_map.1 hu
  obtain ⟨routine, -, rfl⟩ := Option.map_eq_some_iff.1 hb
  rfl

end WireLayout.Catalog
