import WireLayout.Proofs.FileTree.Walk

/-! The walk of a tree to which a file is added. It meets what it met before, and the file in addition at paths that lead
to it. Only a link that led nowhere and leads to the file now is met in another way. -/

namespace WireLayout.FileTree

open WireLayout.FileNode

variable {tree : FileTree} {follow : Bool} {root : String} {top location directory : Location} {name : String}
  {new : FileNode} {content : Except OsError (List UInt8)} {s : WalkState} {ms ms' more more' : List WalkEntry}

/-- A path of the walk leads to a location, and lies on the way to it when no links are followed. -/
structure LeadsTo (tree : FileTree) (follow : Bool) (root : String) (top location path : Location) : Prop where
  located : tree.locate root path = .ok location
  usable : Usable root path
  plain : follow = false → location = top ++ path
  searchable : follow = false → tree.Searchable top path

/-- A walk meets a file in addition: at paths where nothing was met, and at links that could not be followed. -/
inductive Gains (tree : FileTree) (follow : Bool) (root : String) (top location : Location)
    (content : Except OsError (List UInt8)) : List WalkEntry → List WalkEntry → Prop where
  | nil : Gains tree follow root top location content [] []
  | keep {ms ms' : List WalkEntry} (m : WalkEntry) (more : Gains tree follow root top location content ms ms') :
      Gains tree follow root top location content (m :: ms) (m :: ms')
  | meet {ms ms' : List WalkEntry} {path : Location} (leads : LeadsTo tree follow root top location path)
      (more : Gains tree follow root top location content ms ms') :
      Gains tree follow root top location content ms (.file path (contentAt root path content) :: ms')
  | settle {ms ms' : List WalkEntry} {path : Location} (links : follow = true)
      (leads : LeadsTo tree follow root top location path) (more : Gains tree follow root top location content ms ms') :
      Gains tree follow root top location content (.unreadable path :: ms) (.file path (contentAt root path content) :: ms')

theorem Gains.refl : ∀ ms : List WalkEntry, Gains tree follow root top location content ms ms
  | [] => .nil
  | m :: ms => .keep m (refl ms)

theorem Gains.append (h : Gains tree follow root top location content ms ms')
    (hmore : Gains tree follow root top location content more more') :
    Gains tree follow root top location content (ms ++ more) (ms' ++ more') := by
  induction h with
  | nil => exact hmore
  | keep m _ ih => exact .keep m ih
  | meet leads _ ih => exact .meet leads ih
  | settle links leads _ ih => exact .settle links leads ih

/-- What is no longer met is a link that could not be followed, where the file is met now. -/
theorem Gains.mem (h : Gains tree follow root top location content ms ms') {m : WalkEntry} (hm : m ∈ ms) :
    m ∈ ms' ∨ ∃ path, follow = true ∧ LeadsTo tree follow root top location path ∧ m = .unreadable path ∧
      .file path (contentAt root path content) ∈ ms' := by
  induction h with
  | nil => cases hm
  | keep m' _ ih =>
    rcases List.mem_cons.1 hm with rfl | hm
    · exact .inl List.mem_cons_self
    · refine (ih hm).imp (List.mem_cons_of_mem m') ?_
      rintro ⟨path, links, leads, hpath, hmem⟩
      exact ⟨path, links, leads, hpath, List.mem_cons_of_mem m' hmem⟩
  | meet _ _ ih =>
    refine (ih hm).imp (List.mem_cons_of_mem _) ?_
    rintro ⟨path, links, leads, hpath, hmem⟩
    exact ⟨path, links, leads, hpath, List.mem_cons_of_mem _ hmem⟩
  | settle links leads _ ih =>
    rcases List.mem_cons.1 hm with rfl | hm
    · exact .inr ⟨_, links, leads, rfl, List.mem_cons_self⟩
    · refine (ih hm).imp (List.mem_cons_of_mem _) ?_
      rintro ⟨path, links, leads, hpath, hmem⟩
      exact ⟨path, links, leads, hpath, List.mem_cons_of_mem _ hmem⟩

theorem Gains.flatMap {α β : Type} {f : α → List WalkEntry} {g : β → List WalkEntry} {as : List α} {bs : List β}
    (h : List.Forall₂ (fun a b => Gains tree follow root top location content (f a) (g b)) as bs) :
    Gains tree follow root top location content (as.flatMap f) (bs.flatMap g) := by
  induction h with
  | nil => exact .nil
  | cons hab _ ih => exact hab.append ih

/-- A place for a new file. -/
structure Free (tree : FileTree) (directory : Location) (name : String) : Prop where
  found : ∃ es, tree.top.find? directory = some (.directory es)
  vacant : tree.top.find? (directory ++ [name]) = none
  isName : IsName name

theorem Free.isVacant (h : tree.Free directory name) : tree.top.Vacant (directory ++ [name]) :=
  Vacant.of_find? h.found.choose_spec h.vacant

theorem WellFormed.put (hwf : tree.WellFormed) (hfree : tree.Free directory name) (hnew : new.content? = some content) :
    (tree.put (directory ++ [name]) new).WellFormed :=
  ⟨hwf.top.put hfree.isVacant hfree.isName (entries_of_content? hnew), hwf.mount⟩

theorem WalkState.Sound.put (hs : s.Sound tree follow root top) (hfree : tree.Free directory name)
    (hnew : new.content? = some content) : s.Sound (tree.put (directory ++ [name]) new) follow root top := by
  obtain ⟨es, hes⟩ := hs.directory
  obtain ⟨⟨origin, components⟩, hstart, hleads⟩ := Except.bind_eq_ok_iff.1 hs.located
  have hother : s.here ≠ directory ++ [name] := by
    intro heq
    rw [heq, hfree.vacant] at hes
    cases hes
  exact ⟨(hfree.isVacant.exists_find?_put_iff (entries_of_content? hnew) hother).2 ⟨es, hes⟩,
    Except.bind_eq_ok_iff.2 ⟨_, hstart, ((leads_of_resolveFrom hleads).put hfree.isVacant hnew).resolveFrom_eq⟩,
    hs.names, hs.plain, hs.usable, hs.searchable⟩

end WireLayout.FileTree
