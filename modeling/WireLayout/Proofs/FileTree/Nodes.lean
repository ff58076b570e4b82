import WireLayout.FileTree.Walk
import WireLayout.Proofs.SortedMap

/-! What stands where in a tree. A directory lists its entries under distinct names in their order, so a node is found
under the path of names that leads to it. A file that is added where nothing stood is found there, and everything else
stays what it was, but for the one entry in its directory. -/

namespace WireLayout.FileNode

open SortedMap

variable {node new n child : FileNode} {location other : Location} {name : String} {es : List (String × FileNode)}

theorem find?_nil (node : FileNode) : node.find? [] = some node := by rw [find?]

theorem find?_cons (node : FileNode) (name : String) (rest : Location) :
    node.find? (name :: rest) = (lookup name node.entries).bind fun n => n.find? rest := by
  cases node <;> simp [find?, entries, lookup]

theorem find?_append (node : FileNode) (location rest : Location) :
    node.find? (location ++ rest) = (node.find? location).bind fun n => n.find? rest := by
  induction location generalizing node with
  | nil => rw [find?_nil]; rfl
  | cons name location ih =>
    rw [List.cons_append, find?_cons, find?_cons, Option.bind_assoc]
    congr 1
    funext n
    exact ih n

/-- A name that can stand in a directory. -/
structure IsName (name : String) : Prop where
  nonempty : name ≠ ""
  notHere : name ≠ "."
  notAbove : name ≠ ".."
  noSlash : '/' ∉ name.toList
  short : FileTree.isLongName name = false

theorem exists_directory_of_find?_append (h : node.find? (location ++ name :: other) = some n) :
    ∃ es, node.find? location = some (.directory es) := by
  rw [find?_append] at h
  obtain ⟨m, hm, h⟩ := Option.bind_eq_some_iff.1 h
  rw [find?_cons] at h
  cases m with
  | directory es => exact ⟨es, hm⟩
  | file _ => cases h
  | «sealed» _ => cases h
  | link _ => cases h

instance (name : String) : Decidable (IsName name) :=
  decidable_of_iff (name ≠ "" ∧ name ≠ "." ∧ name ≠ ".." ∧ '/' ∉ name.toList ∧ FileTree.isLongName name = false)
    ⟨fun ⟨h₁, h₂, h₃, h₄, h₅⟩ => ⟨h₁, h₂, h₃, h₄, h₅⟩, fun h => ⟨h.1, h.2, h.3, h.4, h.5⟩⟩

/-- Every directory lists its entries in the order of their names. -/
structure WellFormed (node : FileNode) : Prop where
  sorted : ∀ location n, node.find? location = some n → n.entries.Pairwise fun a b => compare a.1 b.1 = .lt
  names : ∀ location n, node.find? location = some n → ∀ e ∈ n.entries, IsName e.1

theorem WellFormed.below (h : node.WellFormed) (hn : node.find? location = some n) : n.WellFormed := by
  have hfind : ∀ rest, node.find? (location ++ rest) = n.find? rest := by
    intro rest
    rw [find?_append, hn, Option.bind_some]
  exact ⟨fun rest m hm => h.sorted _ m ((hfind rest).trans hm), fun rest m hm => h.names _ m ((hfind rest).trans hm)⟩

theorem WellFormed.isName (h : node.WellFormed) (hn : node.find? location = some n) : ∀ name ∈ location, IsName name := by
  intro name hname
  obtain ⟨before, after, rfl⟩ := List.append_of_mem hname
  obtain ⟨es, hes⟩ := exists_directory_of_find?_append hn
  rw [find?_append, hes, Option.bind_some, find?_cons] at hn
  obtain ⟨child, hchild, -⟩ := Option.bind_eq_some_iff.1 hn
  exact h.names _ _ hes _ (mem_of_lookup hchild)

theorem wellFormed_of_entries_nil (h : node.entries = []) : node.WellFormed := by
  have hbelow : ∀ location n, node.find? location = some n → n.entries = [] := by
    intro location n hn
    cases location with
    | nil =>
      rw [find?_nil, Option.some.injEq] at hn
      exact hn ▸ h
    | cons name rest =>
      rw [find?_cons, h] at hn
      cases hn
  exact ⟨fun location n hn => by rw [hbelow location n hn]; exact .nil, fun location n hn => by simp [hbelow location n hn]⟩

theorem wellFormed_directory (hsorted : es.Pairwise fun a b => compare a.1 b.1 = .lt) (hnames : ∀ e ∈ es, IsName e.1)
    (hbelow : ∀ e ∈ es, e.2.WellFormed) : (directory es).WellFormed := by
  have hchild : ∀ name rest n, (directory es).find? (name :: rest) = some n → ∃ e ∈ es, e.2.find? rest = some n := by
    intro name rest n hn
    rw [find?_cons] at hn
    obtain ⟨child, hchild, hn⟩ := Option.bind_eq_some_iff.1 hn
    exact ⟨_, mem_of_lookup hchild, hn⟩
  constructor
  · intro location n hn
    cases location with
    | nil =>
      rw [find?_nil, Option.some.injEq] at hn
      exact hn ▸ hsorted
    | cons name rest =>
      obtain ⟨e, he, hn⟩ := hchild name rest n hn
      exact (hbelow e he).sorted rest n hn
  · intro location n hn
    cases location with
    | nil =>
      rw [find?_nil, Option.some.injEq] at hn
      exact hn ▸ hnames
    | cons name rest =>
      obtain ⟨e, he, hn⟩ := hchild name rest n hn
      exact (hbelow e he).names rest n hn

/-! Sizes. -/

theorem count_lt (h : lookup name node.entries = some child) : child.count < node.count := by
  have hentries : ∀ {es : List (String × FileNode)}, (name, child) ∈ es → child.count ≤ countEntries es := by
    intro es hmem
    induction es with
    | nil => cases hmem
    | cons e es ih =>
      rw [countEntries]
      rcases List.mem_cons.1 hmem with rfl | hmem
      · exact Nat.le_add_right _ _
      · exact Nat.le_trans (ih hmem) (Nat.le_add_left _ _)
  cases node with
  | directory es =>
    rw [count]
    exact Nat.lt_succ_of_le (hentries (mem_of_lookup h))
  | file _ => cases h
  | sealed _ => cases h
  | link _ => cases h

theorem length_lt_count (h : node.find? location = some n) : location.length < node.count := by
  induction location generalizing node with
  | nil => cases node <;> simp [count]
  | cons name rest ih =>
    rw [find?_cons] at h
    obtain ⟨child, hchild, h⟩ := Option.bind_eq_some_iff.1 h
    have hshort := ih h
    have hsmall := count_lt hchild
    rw [List.length_cons]
    omega

mutual

def locations : FileNode → List Location
  | directory es => [] :: locationsIn es
  | _ => [[]]

def locationsIn : List (String × FileNode) → List Location
  | [] => []
  | (name, node) :: rest => (locations node).map (name :: ·) ++ locationsIn rest

end

mutual

theorem length_locations : ∀ node : FileNode, node.locations.length = node.count
  | .directory es => by rw [locations, count, List.length_cons, length_locationsIn es]
  | .file _ | .sealed _ | .link _ => by simp [locations, count]

theorem length_locationsIn : ∀ es : List (String × FileNode), (locationsIn es).length = countEntries es
  | [] => rfl
  | (name, node) :: rest => by
    rw [locationsIn, countEntries, List.length_append, List.length_map, length_locations node, length_locationsIn rest]

end

theorem mem_locations (h : node.find? location = some n) : location ∈ node.locations := by
  induction location generalizing node with
  | nil => cases node <;> simp [locations]
  | cons name rest ih =>
    rw [find?_cons] at h
    obtain ⟨child, hchild, h⟩ := Option.bind_eq_some_iff.1 h
    have hrest := ih h
    have hentries : ∀ {es : List (String × FileNode)}, (name, child) ∈ es → name :: rest ∈ locationsIn es := by
      intro es hmem
      induction es with
      | nil => cases hmem
      | cons e es ih =>
        rw [locationsIn, List.mem_append]
        rcases List.mem_cons.1 hmem with rfl | hmem
        · exact .inl (List.mem_map_of_mem hrest)
        · exact .inr (ih hmem)
    cases node with
    | directory es =>
      rw [locations]
      exact List.mem_cons_of_mem _ (hentries (mem_of_lookup hchild))
    | file _ => cases hchild
    | sealed _ => cases hchild
    | link _ => cases hchild

/-! A node that is added. -/

/-- A place where a node can be added: its directory is there, with no entry of its name. -/
inductive Vacant : FileNode → Location → Prop where
  | here {es : List (String × FileNode)} {name : String} (free : lookup name es = none) : Vacant (.directory es) [name]
  | inside {es : List (String × FileNode)} {name : String} {child : FileNode} {rest : Location}
      (entry : lookup name es = some child) (vacant : Vacant child rest) : Vacant (.directory es) (name :: rest)

def kind : FileNode → FileNode
  | .directory _ => .directory []
  | node => node

theorem entries_of_content? {content : Except OsError (List UInt8)} (h : node.content? = some content) : node.entries = [] := by
  cases node <;> first | rfl | cases h

/-- What the walk sees of entries: their names and what kind of node each one is. -/
def shape (es : List (String × FileNode)) : List (String × FileNode) := es.map fun e => (e.1, e.2.kind)

theorem Vacant.ne_nil (h : node.Vacant location) : location ≠ [] := by
  cases h <;> simp

theorem Vacant.find?_eq_none (h : node.Vacant location) : node.find? location = none := by
  induction h with
  | here free => rw [find?_cons, entries, free, Option.bind_none]
  | inside entry _ ih => rw [find?_cons, entries, entry, Option.bind_some, ih]

theorem Vacant.of_find? (hes : node.find? location = some (.directory es)) (hfree : node.find? (location ++ [name]) = none) :
    node.Vacant (location ++ [name]) := by
  induction location generalizing node with
  | nil =>
    rw [find?_nil, Option.some.injEq] at hes
    subst hes
    refine .here (Option.eq_none_iff_forall_ne_some.2 fun n hn => ?_)
    rw [List.nil_append, find?_cons, entries, hn, Option.bind_some, find?_nil] at hfree
    cases hfree
  | cons first location ih =>
    rw [List.cons_append, find?_cons] at hfree
    rw [find?_cons] at hes
    obtain ⟨child, hchild, hfound⟩ := Option.bind_eq_some_iff.1 hes
    rw [hchild, Option.bind_some] at hfree
    cases node with
    | directory es => exact .inside hchild (ih hfound hfree)
    | file _ => cases hchild
    | «sealed» _ => cases hchild
    | link _ => cases hchild

/-- The parts of a place: the directory, which has no entry of the name. -/
theorem Vacant.directory (h : node.Vacant (location ++ [name])) :
    ∃ es, node.find? location = some (.directory es) ∧ lookup name es = none := by
  induction location generalizing node with
  | nil =>
    cases h with
    | here free => exact ⟨_, find?_nil _, free⟩
    | inside _ vacant => cases vacant
  | cons first location ih =>
    generalize hl : first :: location ++ [name] = l at h
    cases h with
    | here free => simp at hl
    | inside entry vacant =>
      obtain ⟨rfl, rfl⟩ := List.cons.inj hl
      obtain ⟨es, hes, hfree⟩ := ih vacant
      exact ⟨es, by rw [find?_cons, entries, entry, Option.bind_some, hes], hfree⟩

theorem find?_put_cons (node new : FileNode) (name other : String) (rest more : Location) :
    (new.put node (name :: rest)).find? (other :: more) =
      if other = name then (new.put ((lookup name node.entries).getD (.directory [])) rest).find? more
      else node.find? (other :: more) := by
  rw [find?_cons, put, entries]
  split
  · rename_i h
    rw [h, lookup_insertEntry_self, Option.bind_some]
  · rename_i h
    rw [lookup_insertEntry_ne h, find?_cons]

/-- Everywhere else the node is of the kind that it was. -/
theorem Vacant.kind_find?_put (h : node.Vacant location) (hnew : new.entries = []) (hother : other ≠ location) :
    ((new.put node location).find? other).map kind = (node.find? other).map kind := by
  induction h generalizing other with
  | @here es name free =>
    cases other with
    | nil => rw [find?_nil, find?_nil]; rfl
    | cons first more =>
      rw [find?_put_cons]
      split
      · rename_i hfirst
        subst hfirst
        cases more with
        | nil => exact absurd rfl hother
        | cons second more => rw [put, find?_cons, hnew, find?_cons _ first, entries, free]; rfl
      · rfl
  | @inside es name child rest entry _ ih =>
    cases other with
    | nil => rw [find?_nil, find?_nil]; rfl
    | cons first more =>
      rw [find?_put_cons]
      split
      · rename_i hfirst
        subst hfirst
        have hmore : more ≠ rest := fun h => hother (h ▸ rfl)
        rw [entries, entry, Option.getD_some, ih hmore, find?_cons, entries, entry, Option.bind_some]
      · rfl

theorem eq_of_kind_eq {m : FileNode} (h : m.kind = n.kind) (hn : n.isDirectory = false) : m = n := by
  cases n with
  | directory _ => cases hn
  | file _ => cases m <;> simp_all [kind]
  | «sealed» _ => cases m <;> simp_all [kind]
  | link _ => cases m <;> simp_all [kind]

theorem exists_eq_directory {m : FileNode} (h : m.kind = kind (.directory es)) : ∃ es', m = .directory es' := by
  cases m with
  | directory es' => exact ⟨es', rfl⟩
  | file _ => cases h
  | «sealed» _ => cases h
  | link _ => cases h

theorem Vacant.find?_put_eq_some_iff (h : node.Vacant location) (hnew : new.entries = []) (hother : other ≠ location)
    (hn : n.isDirectory = false) : (new.put node location).find? other = some n ↔ node.find? other = some n := by
  have hkind := h.kind_find?_put hnew hother
  constructor
  · intro hfind
    rw [hfind, Option.map_some, eq_comm, Option.map_eq_some_iff] at hkind
    obtain ⟨m, hm, hmn⟩ := hkind
    rw [hm, eq_of_kind_eq hmn hn]
  · intro hfind
    rw [hfind, Option.map_some, Option.map_eq_some_iff] at hkind
    obtain ⟨m, hm, hmn⟩ := hkind
    rw [hm, eq_of_kind_eq hmn hn]

theorem Vacant.exists_find?_put_iff (h : node.Vacant location) (hnew : new.entries = []) (hother : other ≠ location) :
    (∃ es, (new.put node location).find? other = some (.directory es)) ↔ ∃ es, node.find? other = some (.directory es) := by
  have hkind := h.kind_find?_put hnew hother
  constructor
  · rintro ⟨es, hfind⟩
    rw [hfind, Option.map_some, eq_comm, Option.map_eq_some_iff] at hkind
    obtain ⟨m, hm, hmn⟩ := hkind
    obtain ⟨es', rfl⟩ := exists_eq_directory hmn
    exact ⟨es', hm⟩
  · rintro ⟨es, hfind⟩
    rw [hfind, Option.map_some, Option.map_eq_some_iff] at hkind
    obtain ⟨m, hm, hmn⟩ := hkind
    obtain ⟨es', rfl⟩ := exists_eq_directory hmn
    exact ⟨es', hm⟩

theorem Vacant.find?_put_directory (h : node.Vacant (location ++ [name]))
    (hes : node.find? location = some (.directory es)) :
    (new.put node (location ++ [name])).find? location = some (.directory (insertEntry name new es)) := by
  induction location generalizing node with
  | nil =>
    rw [find?_nil, Option.some.injEq] at hes
    subst hes
    cases h with
    | here free => rw [List.nil_append, find?_nil, put, put]; rfl
    | inside _ vacant => cases vacant
  | cons first location ih =>
    generalize hl : first :: location ++ [name] = l at h
    cases h with
    | here free => simp at hl
    | inside entry vacant =>
      obtain ⟨rfl, rfl⟩ := List.cons.inj hl
      rw [find?_cons, entries, entry, Option.bind_some] at hes
      change (new.put _ (first :: (location ++ [name]))).find? (first :: location) = _
      rw [find?_put_cons, if_pos rfl, entries, entry, Option.getD_some, ih vacant hes]

theorem shape_insertEntry {k : String} {v v' : FileNode} (hs : es.Pairwise fun a b => compare a.1 b.1 = .lt)
    (h : lookup k es = some v) (hkind : v'.kind = v.kind) : shape (insertEntry k v' es) = shape es := by
  induction es with
  | nil => cases h
  | cons e es ih =>
    rw [List.pairwise_cons] at hs
    rw [lookup] at h
    rw [insertEntry]
    split at h
    · rename_i hk
      obtain rfl := Option.some.inj h
      have hke : k = e.1 := Std.LawfulEqOrd.eq_of_compare hk
      rw [hk, shape, List.map_cons, hkind, hke]
      rfl
    · have hlt : compare e.1 k = .lt := hs.1 _ (mem_of_lookup h)
      rw [Std.OrientedCmp.gt_of_lt hlt, shape, List.map_cons]
      exact congrArg _ (ih hs.2 h)

/-- Every other directory keeps the names and the kinds of its entries. -/
theorem Vacant.shape_put (h : node.Vacant location) (hwf : node.WellFormed) (hnew : new.entries = [])
    (hother : ∀ name, location ≠ other ++ [name]) :
    shape ((((new.put node location).find? other).map entries).getD []) = shape (((node.find? other).map entries).getD []) := by
  induction h generalizing other with
  | @here es name free =>
    cases other with
    | nil => exact absurd rfl (hother name)
    | cons first more =>
      rw [find?_put_cons]
      split
      · rename_i hfirst
        subst hfirst
        rw [put, find?_cons (.directory es), entries, free, Option.bind_none]
        cases more with
        | nil => rw [find?_nil, Option.map_some, hnew]; rfl
        | cons second more => rw [find?_cons, hnew]; rfl
      · rfl
  | @inside es name child rest entry vacant ih =>
    have hchild : (FileNode.directory es).find? [name] = some child := by
      rw [find?_cons, entries, entry, Option.bind_some, find?_nil]
    cases other with
    | nil =>
      have hkind : (new.put child rest).kind = child.kind := by
        have := vacant.kind_find?_put hnew (Ne.symm vacant.ne_nil)
        rw [find?_nil, find?_nil, Option.map_some, Option.map_some] at this
        exact Option.some.inj this
      rw [find?_nil, find?_nil, put, entries, entry]
      exact shape_insertEntry (hwf.sorted [] _ (find?_nil _)) entry hkind
    | cons first more =>
      rw [find?_put_cons]
      split
      · rename_i hfirst
        subst hfirst
        rw [entries, entry, Option.getD_some, find?_cons, entries, entry, Option.bind_some]
        exact ih (hwf.below hchild) fun name hrest => hother name (hrest ▸ rfl)
      · rfl

theorem map_fst_shape (es : List (String × FileNode)) : (shape es).map (·.1) = es.map (·.1) := by
  rw [shape, List.map_map]
  rfl

theorem WellFormed.put (hwf : node.WellFormed) (h : node.Vacant (location ++ [name])) (hname : IsName name)
    (hnew : new.entries = []) : (new.put node (location ++ [name])).WellFormed := by
  have hentries : ∀ other n, (new.put node (location ++ [name])).find? other = some n →
      n.entries.Pairwise (fun a b => compare a.1 b.1 = .lt) ∧ ∀ e ∈ n.entries, IsName e.1 := by
    intro other n hn
    by_cases hother : ∃ name', location ++ [name] = other ++ [name']
    · obtain ⟨name', heq⟩ := hother
      obtain ⟨rfl, -⟩ := List.append_inj' heq rfl
      obtain ⟨es, hes, -⟩ := h.directory
      rw [h.find?_put_directory hes, Option.some.injEq] at hn
      subst hn
      refine ⟨sorted_insertEntry name new (hwf.sorted _ _ hes), fun e he => ?_⟩
      rcases mem_insertEntry he with rfl | he
      · exact hname
      · exact hwf.names _ _ hes e he
    · have hshape := congrArg (List.map (·.1)) (h.shape_put hwf hnew fun name' heq => hother ⟨name', heq⟩)
      rw [map_fst_shape, map_fst_shape, hn, Option.map_some, Option.getD_some] at hshape
      have hold : (((node.find? other).map entries).getD []).Pairwise (fun a b => compare a.1 b.1 = .lt) ∧
          ∀ e ∈ ((node.find? other).map entries).getD [], IsName e.1 := by
        cases hfind : node.find? other with
        | none => exact ⟨.nil, by simp⟩
        | some m => exact ⟨hwf.sorted _ _ hfind, hwf.names _ _ hfind⟩
      constructor
      · have hpair := hold.1
        rw [← List.pairwise_map (f := fun e : String × FileNode => e.1) (R := fun a b => compare a b = .lt)] at hpair ⊢
        rwa [hshape]
      · intro e he
        obtain ⟨e', he', heq⟩ := List.mem_map.1 (hshape ▸ List.mem_map_of_mem (f := fun e : String × FileNode => e.1) he)
        exact heq ▸ hold.2 e' he'
  exact ⟨fun other n hn => (hentries other n hn).1, fun other n hn => (hentries other n hn).2⟩

end WireLayout.FileNode
