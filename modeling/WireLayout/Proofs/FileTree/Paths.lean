import WireLayout.Proofs.FileTree.Nodes

/-! The texts of paths. The names of a path are read back from its text, so distinct paths have distinct texts, and a
path below a directory begins where the path of the directory begins. -/

namespace WireLayout

open WireLayout.Text WireLayout.FileNode

theorem splitAtChar_of_not_mem {sep : Char} {cs : List Char} (h : sep ∉ cs) : splitAtChar sep cs = [cs] := by
  induction cs with
  | nil => rfl
  | cons c cs ih =>
    rw [List.mem_cons, not_or] at h
    rw [splitAtChar, if_neg (Ne.symm h.1), ih h.2]

theorem splitAtChar_ne_nil (sep : Char) (cs : List Char) : splitAtChar sep cs ≠ [] := by
  induction cs with
  | nil => simp [splitAtChar]
  | cons c cs ih =>
    rw [splitAtChar]
    split
    · simp
    · split <;> simp

theorem splitAtChar_append_cons (sep : Char) (cs more : List Char) :
    splitAtChar sep (cs ++ sep :: more) = splitAtChar sep cs ++ splitAtChar sep more := by
  induction cs with
  | nil => simp [splitAtChar]
  | cons c cs ih =>
    rw [List.cons_append, splitAtChar, splitAtChar]
    split
    · rw [ih, List.cons_append]
    · rw [ih]
      cases hcs : splitAtChar sep cs with
      | nil => exact absurd hcs (splitAtChar_ne_nil sep cs)
      | cons piece rest => rfl

theorem pathComponents_slash (path more : String) :
    pathComponents (path ++ "/" ++ more) = pathComponents path ++ pathComponents more := by
  rw [pathComponents, pathComponents, pathComponents, ← List.map_append, ← splitAtChar_append_cons]
  simp

theorem pathComponents_intercalate {path : Location} (hne : path ≠ []) (h : ∀ name ∈ path, IsName name) :
    pathComponents ("/".intercalate path) = path := by
  induction path with
  | nil => exact absurd rfl hne
  | cons name path ih =>
    have hname : pathComponents name = [name] := by
      rw [pathComponents, splitAtChar_of_not_mem (h name List.mem_cons_self).noSlash, List.map_singleton, String.ofList_toList]
    by_cases hpath : path = []
    · rw [hpath, String.intercalate_singleton, hname]
    · rw [String.intercalate_cons_of_ne_nil hpath, pathComponents_slash, hname,
        ih hpath fun n hn => h n (List.mem_cons_of_mem name hn)]
      rfl

theorem join_slash {path : Location} (hne : path ≠ []) :
    String.join (path.map ("/" ++ ·)) = "/" ++ "/".intercalate path := by
  induction path with
  | nil => exact absurd rfl hne
  | cons name path ih =>
    by_cases hpath : path = []
    · subst hpath
      simp
    · rw [List.map_cons, String.join_cons, ih hpath, String.intercalate_cons_of_ne_nil hpath]
      simp only [String.append_assoc]

theorem endsWith_slash_iff (s : String) : s.endsWith "/" = true ↔ ∃ base, s = base ++ "/" := by
  rw [String.endsWith_eq_endsWith_toSlice, String.Slice.endsWith_string_iff]
  constructor
  · rintro ⟨base, h⟩
    refine ⟨String.ofList base, String.toList_inj.1 ?_⟩
    rw [String.toList_append, String.toList_ofList]
    simpa using h.symm
  · rintro ⟨base, rfl⟩
    exact ⟨base.toList, by simp⟩

theorem startsWith_iff {p : String} (s : String) : s.startsWith p = true ↔ ∃ rest, s = p ++ rest := by
  rw [String.startsWith_string_iff]
  constructor
  · rintro ⟨rest, h⟩
    refine ⟨String.ofList rest, String.toList_inj.1 ?_⟩
    rw [String.toList_append, String.toList_ofList, h]
  · rintro ⟨rest, rfl⟩
    exact ⟨rest.toList, by simp⟩

theorem toString_drop_append (p s : String) : ((p ++ s).drop p.length).toString = s := by
  apply String.toList_inj.1
  have hlength : p.length = p.toList.length := String.length_toList.symm
  simp [hlength]

theorem endsWith_slash_append {above below : String} (h : (above ++ "/" ++ below).endsWith "/" = true) :
    ("/" ++ below).endsWith "/" = true := by
  rw [String.endsWith_eq_endsWith_toSlice, String.Slice.endsWith_string_iff] at h ⊢
  refine List.suffix_of_suffix_length_le h ⟨above.toList, ?_⟩ ?_
  · simp
  · simp

theorem startsWith_slash_append {path more : String} (hne : path ≠ "") (h : path.startsWith "/" = false) :
    (path ++ more).startsWith "/" = false := by
  rw [Bool.eq_false_iff, ne_eq, String.startsWith_string_iff] at h ⊢
  rw [String.toList_append]
  intro hmore
  refine h (List.prefix_of_prefix_length_le hmore (List.prefix_append _ _) ?_)
  have hlist : path.toList ≠ [] := fun hl => hne (String.toList_inj.1 hl)
  exact List.length_pos_iff.2 hlist

/-- What a path below a directory adds to the path of the directory. -/
theorem joinPath_cases (root : String) {rel : String} (hrel : rel.startsWith "/" = false) :
    ∃ tail, joinPath root rel = root ++ tail ∧ (tail = "/" ++ rel ∨ tail = rel ∧ ∃ base, root = base ++ "/") := by
  rw [joinPath, hrel, if_neg Bool.false_ne_true]
  split
  · exact ⟨rel, rfl, .inr ⟨rfl, (endsWith_slash_iff root).1 ‹_›⟩⟩
  · exact ⟨"/" ++ rel, String.append_assoc .., .inl rfl⟩

theorem startsWith_intercalate {path : Location} (hne : path ≠ []) (hnames : ∀ name ∈ path, IsName name) :
    ("/".intercalate path).startsWith "/" = false := by
  rw [Bool.eq_false_iff]
  intro h
  obtain ⟨rest, hrest⟩ := (startsWith_iff _).1 h
  have hcomponents := pathComponents_intercalate hne hnames
  rw [hrest, ← String.empty_append (s := "/"), pathComponents_slash] at hcomponents
  exact (hnames "" (hcomponents ▸ List.mem_append_left _ (by decide))).nonempty rfl

namespace FileTree

variable {tree : FileTree} {components : List String}

/-- A tree of well-formed directories that stands at an absolute path. -/
structure WellFormed (tree : FileTree) : Prop where
  top : tree.top.WellFormed
  mount : tree.mount ≠ "" → tree.mount.startsWith "/" ∧ tree.mount.endsWith "/" = false

theorem start_mounted {below : String} (hlong : isLongPath (tree.mount ++ "/" ++ below) = false) :
    tree.start (tree.mount ++ "/" ++ below) = .ok ([], pathComponents ("/" ++ below)) := by
  have hempty : ¬tree.mount ++ "/" ++ below = "" := by simp
  have hmount : ¬tree.mount ++ "/" ++ below = tree.mount := by
    intro h
    have hlength := congrArg String.length h
    simp only [String.length_append] at hlength
    have hslash : "/".length = 1 := rfl
    omega
  rw [start, if_neg hempty, hlong, if_neg Bool.false_ne_true, if_neg hmount, if_pos ((startsWith_iff _).2 ⟨below, rfl⟩),
    String.append_assoc, toString_drop_append]

theorem start_relative (hwf : tree.WellFormed) {path : String} (hempty : path ≠ "") (hslash : path.startsWith "/" = false)
    (hlong : isLongPath path = false) : tree.start path = .ok (tree.working, pathComponents path) := by
  have hmount : ¬path = tree.mount := by
    intro h
    have habsolute := (hwf.mount (h ▸ hempty)).1
    rw [← h, hslash] at habsolute
    exact Bool.false_ne_true habsolute
  have hbelow : ¬path.startsWith (tree.mount ++ "/") = true := by
    intro h
    obtain ⟨rest, rfl⟩ := (startsWith_iff _).1 h
    rw [Bool.eq_false_iff, ne_eq, startsWith_iff] at hslash
    refine hslash ?_
    by_cases hm : tree.mount = ""
    · exact ⟨rest, by rw [hm, String.empty_append]⟩
    · obtain ⟨m, hm⟩ := (startsWith_iff _).1 (hwf.mount hm).1
      exact ⟨m ++ "/" ++ rest, by rw [hm]; simp [String.append_assoc]⟩
  rw [start, if_neg hempty, hlong, if_neg Bool.false_ne_true, if_neg hmount, if_neg hbelow, hslash, if_neg Bool.false_ne_true]

/-- A path begins at the mount, below it, or in the directory in which relative paths begin. -/
theorem start_cases {path : String} {origin : Location} (h : tree.start path = .ok (origin, components)) :
    (path = tree.mount ∧ path ≠ "" ∧ origin = [] ∧ components = []) ∨
      (∃ below, path = tree.mount ++ "/" ++ below ∧ origin = [] ∧ components = pathComponents ("/" ++ below)) ∨
        (path ≠ "" ∧ path.startsWith "/" = false ∧ origin = tree.working ∧ components = pathComponents path) := by
  rw [start] at h
  split at h
  · cases h
  rename_i hempty
  split at h
  · cases h
  split at h
  · rename_i hmount
    cases h
    exact .inl ⟨hmount, hempty, rfl, rfl⟩
  split at h
  · rename_i hbelow
    obtain ⟨rest, rfl⟩ := (startsWith_iff _).1 hbelow
    rw [String.append_assoc, toString_drop_append] at h
    cases h
    exact .inr (.inl ⟨rest, rfl, rfl, rfl⟩)
  split at h
  · cases h
  · cases h
    exact .inr (.inr ⟨hempty, Bool.eq_false_iff.2 ‹_›, rfl, rfl⟩)

end FileTree

end WireLayout
