import WireLayout.Catalog.Canonical
import WireLayout.Proofs.Catalog.Extraction
import WireLayout.Proofs.FileTree.Added
import WireLayout.Proofs.Java.Ranges.Refinement

/-! Bad files. An extraction of a directory succeeds whatever its files hold: a file that is no source is listed among the
skipped ones, and every other file with the extension of sources is read. So a bad file that is added changes no entity. -/

namespace WireLayout.Catalog

open WireLayout.FileTree WireLayout.FileNode WireLayout.Java WireLayout.Text

section

variable {config : ExtractionConfig} {tree : FileTree} {root : String} {top directory : Location} {name : String}
  {new : FileNode} {content : Except OsError (List UInt8)}

theorem isRecoverable_of_parseContent {path : String} {e : Error} (h : parseContent path content = .error e) :
    e.isRecoverable = true := by
  rw [parseContent] at h
  cases content with
  | error cause => cases h; rfl
  | ok bytes =>
    change SourceFile.parse path (String.ofList (decodeLossy bytes)) = .error e at h
    rcases parse_cases path (String.ofList (decodeLossy bytes)) with ⟨file, hfile⟩ | hempty | ⟨message, hparse⟩
    · rw [hfile] at h; cases h
    · rw [hempty] at h; cases h; rfl
    · rw [hparse] at h; cases h; rfl

/-- A content that is read as no source, whatever its path is. -/
def IsUnread (content : Except OsError (List UInt8)) : Prop := ∀ name, ∃ e, parseContent name content = .error e

theorem IsUnread.contentAt (h : IsUnread content) (path : Location) : IsUnread (contentAt root path content) := by
  unfold FileTree.contentAt
  split
  · exact fun name => ⟨_, rfl⟩
  · exact h

/-- What is listed of an entry that is read or skipped: its path, if one is reported. -/
def listing : WalkEntry → String
  | .file path _ | .unreadable path => joined path
  | .unnamed _ => ""

/-- A skipped entry: where the walk met it, and what is listed of it. -/
structure Skip where
  path : Location
  listed : String

def skipAt? (config : ExtractionConfig) (root : String) (m : WalkEntry) : Option Skip :=
  match sight config root m with
  | .ok (some (.skipped listed)) => some ⟨m.path, listed⟩
  | _ => none

def skips (config : ExtractionConfig) (tree : FileTree) (root : String) : List Skip :=
  ((tree.walk? config.followLinks root).getD []).filterMap (skipAt? config root)

/-- A file with the extension of sources that can be parsed is read. -/
theorem sight_parsed {path : Location} {file : SourceFile} (hsource : isSource config path = true)
    (hparse : parseContent (root ++ "/" ++ joined path) content = .ok file) :
    sight config root (.file path content) =
      .ok (some (.unit ⟨joined path, (categorize config path).1, (categorize config path).2, file⟩)) := by
  simp only [sight, hsource, Bool.not_true, Bool.false_eq_true, if_false, hparse]

/-- What becomes of an entry: it is read, or skipped, or it is a file of another kind. -/
theorem sight_cases (config : ExtractionConfig) (root : String) (m : WalkEntry) :
    (∃ path content file, m = .file path content ∧ sight config root m =
        .ok (some (.unit ⟨joined path, (categorize config path).1, (categorize config path).2, file⟩))) ∨
      sight config root m = .ok (some (.skipped (listing m))) ∨
      (sight config root m = .ok none ∧ isSource config m.path = false) := by
  cases m with
  | unreadable path => exact .inr (.inl rfl)
  | unnamed path => exact .inr (.inl rfl)
  | file path content =>
    cases hsource : isSource config path with
    | false => exact .inr (.inr ⟨by rw [sight, hsource]; rfl, hsource⟩)
    | true =>
      cases hparse : parseContent (root ++ "/" ++ joined path) content with
      | ok file => exact .inl ⟨path, content, file, rfl, sight_parsed hsource hparse⟩
      | error e =>
        refine .inr (.inl ?_)
        simp only [sight, hsource, Bool.not_true, Bool.false_eq_true, if_false, hparse, isRecoverable_of_parseContent hparse,
          if_true]
        rfl

theorem filterMap_skipped?_of_mapM {ms : List WalkEntry} {sightings : List (Option Sighting)}
    (h : ms.mapM (sight config root) = .ok sightings) :
    (sightings.filterMap id).filterMap Sighting.skipped? = (ms.filterMap (skipAt? config root)).map Skip.listed := by
  rw [List.filterMap_filterMap]
  have hall := Except.forall₂_of_mapM h
  clear h
  induction hall with
  | nil => rfl
  | @cons m sighting _ _ hm _ ih =>
    have hskipped : sighting.bind Sighting.skipped? = (skipAt? config root m).map Skip.listed := by
      rw [skipAt?]
      rcases sight_cases config root m with ⟨path, content, file, -, hsight⟩ | hsight | ⟨hsight, -⟩
      all_goals
        rw [hsight] at hm ⊢
        cases hm
        rfl
    rw [List.filterMap_cons, List.filterMap_cons, ih, id, hskipped]
    cases skipAt? config root m <;> rfl

/-- An extraction of a directory succeeds when no number overflows. -/
theorem extract_eq (hroot : tree.directory? root = some top) (hsmall : overflows (unitsOf config tree root) = false) :
    extract config tree root = .ok { ofUnits (unitsOf config tree root) with
      skipped := (skips config tree root).map Skip.listed } := by
  obtain ⟨ms, hms⟩ := exists_walk? hroot config.followLinks
  obtain ⟨sightings, hsightings⟩ : ∃ sightings, ms.mapM (sight config root) = .ok sightings := by
    have hsight : ∀ m, ∃ sighting, sight config root m = .ok sighting := by
      intro m
      rcases sight_cases config root m with ⟨path, content, file, -, hsight⟩ | hsight | ⟨hsight, -⟩
      all_goals exact ⟨_, hsight⟩
    choose f hf using hsight
    exact ⟨ms.map f, Except.mapM_of_forall₂ (List.forall₂_map_right_iff.2 (List.forall₂_same.2 fun m _ => hf m))⟩
  rw [unitsOf, hms, Option.getD_some] at hsmall ⊢
  have hmapped : (ms.mapM (sight config root)).mapError Abort.failed = .ok sightings := by rw [hsightings]; rfl
  rw [extract, skips, hms]
  dsimp only
  rw [hmapped, Except.ok_bind, filterMap_unit?_of_mapM hsightings, filterMap_skipped?_of_mapM hsightings, hsmall]
  rfl

/-! Every file with the extension of sources is read or skipped. -/

section

variable {follow : Bool} {location : Location} {ms ms' : List WalkEntry}

end

end

/-! A directory with a source in it and a link to it, and a link that leads nowhere. -/

namespace Linked

def tree : FileTree := {
  mount := "/m"
  top := .directory [
    ("a", .directory [("A.java", .file (utf8 "class A \x7b\x7d".toList))]),
    ("l", .link "a"),
    ("x.txt", .link "a/Bad.java")] }

theorem wellFormed : tree.WellFormed := by
  refine ⟨wellFormed_directory (by decide) (by decide +kernel) ?_, fun _ => by decide +kernel⟩
  simp only [List.mem_cons, List.not_mem_nil, or_false, forall_eq_or_imp, forall_eq]
  refine ⟨wellFormed_directory (by decide) (by decide +kernel) ?_, wellFormed_of_entries_nil rfl, wellFormed_of_entries_nil rfl⟩
  simp only [List.mem_cons, List.not_mem_nil, or_false, forall_eq]
  exact wellFormed_of_entries_nil rfl

theorem free : tree.Free ["a"] "Bad.java" := ⟨⟨_, rfl⟩, by decide +kernel, by decide +kernel⟩

theorem opens {t : FileTree} (h : t.closed = []) (name : String) : t.Opens "/m" [] ["a", name] := by
  refine ⟨fun above more hsplit habove hmore => ?_, fun above more _ _ => by simp [h]⟩
  obtain ⟨first, above, rfl⟩ := List.exists_cons_of_ne_nil habove
  obtain ⟨rfl, hrest⟩ := List.cons.inj hsplit
  cases above with
  | nil => decide +kernel
  | cons second above =>
    obtain ⟨-, hnil⟩ := List.cons.inj hrest
    exact absurd (List.append_eq_nil_iff.1 hnil.symm).2 hmore

end Linked

namespace Remote

def tree : FileTree := {
  mount := "/" ++ String.ofList (List.replicate 4094 'm')
  top := .directory [("a", .directory [("A.java", .file [])])] }

theorem utf8ByteSize_mount : tree.mount.utf8ByteSize = 4095 := by
  have hletters : ∀ n : Nat, (String.ofList (List.replicate n 'm')).utf8ByteSize = n := by
    intro n
    induction n with
    | zero => rfl
    | succ n ih =>
      rw [List.replicate_succ, ← List.singleton_append, String.ofList_append, String.utf8ByteSize_append, ih, Nat.add_comm]
      rfl
  rw [tree, String.utf8ByteSize_append, hletters]
  rfl

theorem directory?_mount : tree.directory? tree.mount = some [] := by
  have hshort : isLongPath tree.mount = false := by rw [isLongPath, utf8ByteSize_mount]; rfl
  refine FileTree.directory?_mount (fun h => ?_) hshort rfl
  have hsize := utf8ByteSize_mount
  rw [h] at hsize
  cases hsize

end Remote

/-! A directory that cannot be opened, with a source in it and a link to it. -/

namespace Closed

def tree : FileTree := {
  mount := "/m"
  top := .directory [("a", .directory [("A.java", .file (utf8 "class A \x7b\x7d".toList))]), ("l", .link "a")]
  closed := [["a"]] }

end Closed

/-! A message with a constant whose negation overflows. -/

namespace Overflowing

def tree : FileTree := {
  mount := "/m"
  top := .directory [("packets", .directory [("P.java",
    .file (utf8 "class P implements Packet \x7b static final int MAX_SIZE = --9223372036854775808; \x7d".toList))])] }

end Overflowing

end WireLayout.Catalog
