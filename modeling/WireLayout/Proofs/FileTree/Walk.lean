import WireLayout.FileTree.Walk
import WireLayout.Proofs.FileTree.Resolve

/-! What the walk meets. At an entry it meets at most one thing of its own, or it enters a directory; each directory it
enters is new to it or lies deeper in the tree, so it comes to an end. Its paths are in order, none twice, and it meets
every file to which directories lead that can be opened and have usable paths. -/

namespace WireLayout.FileTree

open WireLayout.FileNode

variable {tree : FileTree} {follow : Bool} {root : String} {top : Location} {s t : WalkState} {name : String}

def WalkEntry.path : WalkEntry → Location
  | .file path _ => path
  | .unreadable path => path
  | .unnamed path => path

/-- The walk stands in a directory to which its path leads; without links it is the one of that path. -/
structure WalkState.Sound (tree : FileTree) (follow : Bool) (root : String) (top : Location) (s : WalkState) : Prop where
  directory : ∃ es, tree.top.find? s.here = some (.directory es)
  located : tree.locate root s.path = .ok s.here
  names : ∀ name ∈ s.path, IsName name
  plain : follow = false → s.here = top ++ s.path
  usable : ∀ above more, s.path = above ++ more → above ≠ [] → isLongPath (joinPath root ("/".intercalate above)) = false
  searchable : follow = false → tree.Searchable top s.path

/-- The walk enters a directory by a name: one that lies in the directory where it stands, or one that it is not in. -/
structure Enters (tree : FileTree) (s t : WalkState) (name : String) : Prop where
  opened : t.opened = t.here :: s.opened
  path : t.path = s.path ++ [name]
  directory : ∃ es, tree.top.find? t.here = some (.directory es)
  descends : t.here = s.here ++ [name] ∨ t.here ∉ s.opened

theorem mem_entriesAt_iff (hwf : tree.WellFormed) {here : Location} {n : FileNode} :
    (name, n) ∈ tree.entriesAt here ↔ tree.top.find? (here ++ [name]) = some n := by
  rw [entriesAt, find?_append]
  cases hhere : tree.top.find? here with
  | none => simp
  | some m =>
    rw [Option.map_some, Option.getD_some, Option.bind_some, find?_cons]
    constructor
    · intro h
      rw [SortedMap.lookup_of_mem (hwf.top.sorted here m hhere) h, Option.bind_some, find?_nil]
    · intro h
      obtain ⟨m', hm', h⟩ := Option.bind_eq_some_iff.1 h
      rw [find?_nil, Option.some.injEq] at h
      exact h ▸ SortedMap.mem_of_lookup hm'

theorem isName_of_mem_entriesAt (hwf : tree.WellFormed) {here : Location} {e : String × FileNode}
    (h : e ∈ tree.entriesAt here) : IsName e.1 := by
  rw [entriesAt] at h
  cases hhere : tree.top.find? here with
  | none => rw [hhere] at h; cases h
  | some m =>
    rw [hhere] at h
    exact hwf.top.names here m hhere e h

theorem WalkState.Sound.names_append (hwf : tree.WellFormed) (hs : s.Sound tree follow root top) {e : String × FileNode}
    (he : e ∈ tree.entriesAt s.here) : ∀ name ∈ s.path ++ [e.1], IsName name := by
  intro name hname
  rcases List.mem_append.1 hname with hname | hname
  · exact hs.names name hname
  · exact List.mem_singleton.1 hname ▸ isName_of_mem_entriesAt hwf he

theorem WalkState.Sound.locate_append (hwf : tree.WellFormed) (hs : s.Sound tree follow root top)
    (hopens : s.here ∉ tree.closed) {e : String × FileNode} (he : e ∈ tree.entriesAt s.here) (hlink : ∀ target, e.2 ≠ .link target) :
    tree.locate root (s.path ++ [e.1]) = .ok (s.here ++ [e.1]) := by
  obtain ⟨es, hes⟩ := hs.directory
  obtain ⟨⟨origin, components⟩, hstart, hleads⟩ := Except.bind_eq_ok_iff.1 hs.located
  refine Except.bind_eq_ok_iff.2 ⟨_, hstart, ?_⟩
  dsimp only at hleads ⊢
  rw [← List.append_assoc]
  exact ((leads_of_resolveFrom hleads).append_name hes hopens (isLookedUp_of_isName (isName_of_mem_entriesAt hwf he))
    ((mem_entriesAt_iff hwf).1 he) hlink).resolveFrom_eq

/-- Without links, what is in a directory has no closed directory on the way when the directory has none and is open. -/
theorem WalkState.Sound.searchable_append (hs : s.Sound tree false root top) (hopens : s.here ∉ tree.closed) (name : String) :
    tree.Searchable top (s.path ++ [name]) := by
  intro above more hsplit hmore
  obtain ⟨more, last, rfl⟩ := (List.eq_nil_or_concat more).resolve_left hmore
  rw [List.concat_eq_append, ← List.append_assoc] at hsplit
  obtain ⟨hpath, -⟩ := List.append_inj' hsplit rfl
  cases more with
  | nil =>
    rw [List.append_nil] at hpath
    rwa [← hpath, ← hs.plain rfl]
  | cons first more => exact hs.searchable rfl above (first :: more) hpath (by simp)

theorem WalkState.Sound.enter (hwf : tree.WellFormed) (hs : s.Sound tree follow root top)
    (hopens : s.here ∉ tree.closed) {e : String × FileNode} (he : e ∈ tree.entriesAt s.here) {l : Location}
    (hl : ∃ es, tree.top.find? l = some (.directory es)) (hlocated : tree.locate root (s.path ++ [e.1]) = .ok l)
    (hplain : follow = false → l = s.here ++ [e.1]) (husable : isLongPath (joinPath root ("/".intercalate (s.path ++ [e.1]))) = false) :
    (s.enter l e.1).Sound tree follow root top := by
  refine ⟨hl, hlocated, hs.names_append hwf he, fun hfollow => ?_, fun above more hsplit habove => ?_, fun hfollow => ?_⟩
  · change l = top ++ (s.path ++ [e.1])
    rw [hplain hfollow, hs.plain hfollow, List.append_assoc]
  · change s.path ++ [e.1] = above ++ more at hsplit
    rcases List.eq_nil_or_concat more with rfl | ⟨more, last, rfl⟩
    · rwa [← List.append_nil above, ← hsplit]
    · rw [List.concat_eq_append, ← List.append_assoc] at hsplit
      exact hs.usable above more (List.append_inj' hsplit rfl).1 habove
  · subst hfollow
    exact hs.searchable_append hopens e.1

/-- At a link the walk meets one thing of its own, or it enters the directory to which the link leads. -/
theorem arrive_cases (tree : FileTree) (s : WalkState) (name : String) (target : Location) :
    (∃ m, (∀ below, tree.arrive below s name target = [m]) ∧ m.path = s.path ++ [name]) ∨
      (∃ es, tree.top.find? target = some (.directory es)) ∧ target ∉ s.opened ∧
        ∀ below, tree.arrive below s name target = below (s.enter target name) := by
  simp only [arrive]
  split
  · exact .inl ⟨_, fun _ => rfl, rfl⟩
  · exact .inl ⟨_, fun _ => rfl, rfl⟩
  · rename_i es hes
    by_cases hclosed : tree.closed.contains target = true
    · simp only [if_pos hclosed]
      exact .inl ⟨_, fun _ => rfl, rfl⟩
    by_cases hopened : s.opened.contains target = true
    · simp only [if_neg hclosed, if_pos hopened]
      exact .inl ⟨_, fun _ => rfl, rfl⟩
    · simp only [if_neg hclosed, if_neg hopened]
      exact .inr ⟨⟨es, hes⟩, fun h => hopened (List.contains_iff_mem.2 h), fun _ => trivial⟩
  · exact .inl ⟨_, fun _ => rfl, rfl⟩

/-- At an entry the walk meets at most one thing of its own, or it enters a directory. -/
theorem WalkState.Sound.visit_cases (hwf : tree.WellFormed) (hroot : ∃ l, tree.resolve root = .ok l)
    (hs : s.Sound tree follow root top) (hopens : s.here ∉ tree.closed) {e : String × FileNode}
    (he : e ∈ tree.entriesAt s.here) :
    (∃ met, (∀ below, tree.visit follow root below s e = met) ∧ (met = [] ∨ ∃ m, met = [m] ∧ m.path = s.path ++ [e.1])) ∨
      ∃ t, Enters tree s t e.1 ∧ t.Sound tree follow root top ∧ ∀ below, tree.visit follow root below s e = below t := by
  obtain ⟨_, hroot⟩ := hroot
  have hnames := hs.names_append hwf he
  unfold visit
  dsimp only
  by_cases hlong : isLongPath (joinPath root ("/".intercalate (s.path ++ [e.1]))) = true
  · left
    simp only [if_pos hlong]
    refine ⟨_, fun _ => rfl, ?_⟩
    cases e.2 with
    | link _ => cases follow <;> simp [WalkEntry.overlong, WalkEntry.path]
    | file _ => simp [WalkEntry.overlong, WalkEntry.path]
    | «sealed» _ => simp [WalkEntry.overlong, WalkEntry.path]
    | directory _ => simp [WalkEntry.overlong, WalkEntry.path]
  simp only [if_neg hlong]
  have hfind := (mem_entriesAt_iff hwf).1 he
  have hlocate := hs.locate_append hwf hopens he
  cases hn : e.2 with
  | file bytes => exact .inl ⟨_, fun _ => rfl, .inr ⟨_, rfl, rfl⟩⟩
  | «sealed» cause => exact .inl ⟨_, fun _ => rfl, .inr ⟨_, rfl, rfl⟩⟩
  | directory es =>
    rw [hn] at hfind hlocate
    exact .inr ⟨_, ⟨rfl, rfl, ⟨es, hfind⟩, .inl rfl⟩,
      hs.enter hwf hopens he ⟨es, hfind⟩ (hlocate (by simp)) (fun _ => rfl) (Bool.eq_false_iff.2 hlong), fun _ => rfl⟩
  | link target =>
    cases follow with
    | false => exact .inl ⟨[], fun _ => rfl, .inl rfl⟩
    | true =>
      simp only [Bool.not_true, Bool.false_eq_true, if_false]
      cases hresolve : tree.resolve (joinPath root ("/".intercalate (s.path ++ [e.1]))) with
      | error _ => exact .inl ⟨_, fun _ => rfl, .inr ⟨_, rfl, rfl⟩⟩
      | ok l =>
        rcases tree.arrive_cases s e.1 l with ⟨m, hm, hpath⟩ | ⟨hes, hopened, hbelow⟩
        · exact .inl ⟨_, hm, .inr ⟨m, rfl, hpath⟩⟩
        · have hlocated : tree.locate root (s.path ++ [e.1]) = .ok l := by
            rw [← resolve_joinPath hwf (by simp) hnames hroot (Bool.eq_false_iff.2 hlong), hresolve]
          exact .inr ⟨_, ⟨rfl, rfl, hes, .inr hopened⟩,
            hs.enter hwf hopens he hes hlocated (by simp) (Bool.eq_false_iff.2 hlong), hbelow⟩

theorem walkFrom_closed (h : s.here ∈ tree.closed) (fuel : Nat) :
    tree.walkFrom follow root (fuel + 1) s = [.unreadable s.path] := by
  rw [walkFrom, if_pos (List.contains_iff_mem.2 h)]

theorem walkFrom_open (h : s.here ∉ tree.closed) (fuel : Nat) :
    tree.walkFrom follow root (fuel + 1) s =
      (tree.entriesAt s.here).flatMap (tree.visit follow root (tree.walkFrom follow root fuel) s) := by
  rw [walkFrom, if_neg (mt List.contains_iff_mem.1 h)]

/-! The end of the walk. -/

/-- How far the walk can still go: how many nodes it has not opened, then how deep the tree is below it. -/
def potential (tree : FileTree) (s : WalkState) : Nat :=
  (tree.top.locations.countP fun l => l ∉ s.opened) * tree.top.count + (tree.top.count - s.here.length)

theorem Enters.potential_lt (h : Enters tree s t name) (hs : ∃ n, tree.top.find? s.here = some n) :
    tree.potential t < tree.potential s := by
  obtain ⟨n, hn⟩ := hs
  obtain ⟨es, hes⟩ := h.directory
  have hshort := length_lt_count hn
  have hfewer : ∀ l ∈ tree.top.locations, l ∉ t.opened → l ∉ s.opened := by
    intro l _ hl hls
    exact hl (h.opened ▸ List.mem_cons_of_mem _ hls)
  unfold potential
  rcases h.descends with hdeeper | hnew
  · have hle : (tree.top.locations.countP fun l => l ∉ t.opened) ≤ tree.top.locations.countP fun l => l ∉ s.opened :=
      List.countP_mono_left (by simpa using hfewer)
    have hmul := Nat.mul_le_mul_right tree.top.count hle
    have hlength : t.here.length = s.here.length + 1 := by rw [hdeeper, List.length_append, List.length_singleton]
    omega
  · have hlt : (tree.top.locations.countP fun l => l ∉ t.opened) < tree.top.locations.countP fun l => l ∉ s.opened := by
      rw [List.countP_eq_length_filter, List.countP_eq_length_filter]
      have hagain : (tree.top.locations.filter fun l => l ∉ t.opened) =
          (tree.top.locations.filter fun l => l ∉ s.opened).filter fun l => l ∉ t.opened := by
        rw [List.filter_filter]
        exact List.filter_congr fun l hl => by simpa using hfewer l hl
      rw [hagain, List.length_filter_lt_length_iff_exists]
      exact ⟨t.here, List.mem_filter.2 ⟨mem_locations hes, by simpa using hnew⟩, by simp [h.opened]⟩
    have hmul := Nat.mul_le_mul_right tree.top.count (Nat.succ_le_of_lt hlt)
    rw [Nat.succ_mul] at hmul
    omega

/-- Any fuel above the potential gives the same walk. -/
theorem walkFrom_eq_of_le (hwf : tree.WellFormed) (hroot : ∃ l, tree.resolve root = .ok l) {fuel fuel' : Nat}
    (hs : s.Sound tree follow root top) (hfuel : tree.potential s < fuel) (hle : fuel ≤ fuel') :
    tree.walkFrom follow root fuel s = tree.walkFrom follow root fuel' s := by
  induction fuel generalizing s fuel' with
  | zero => exact absurd hfuel (Nat.not_lt_zero _)
  | succ fuel ih =>
    obtain ⟨fuel', rfl⟩ : ∃ k, fuel' = k + 1 := ⟨fuel' - 1, by omega⟩
    by_cases hopens : s.here ∈ tree.closed
    · rw [walkFrom_closed hopens, walkFrom_closed hopens]
    rw [walkFrom_open hopens, walkFrom_open hopens]
    refine List.flatMap_congr fun e he => ?_
    rcases hs.visit_cases hwf hroot hopens he with ⟨met, hmet, -⟩ | ⟨t, henters, ht, hvisit⟩
    · rw [hmet, hmet]
    · rw [hvisit, hvisit]
      obtain ⟨es, hes⟩ := hs.directory
      have hless := henters.potential_lt ⟨_, hes⟩
      exact ih ht (by omega) (by omega)

theorem sound_start (hroot : tree.directory? root = some top) :
    (⟨[top], top, []⟩ : WalkState).Sound tree follow root top := by
  obtain ⟨hresolve, hes⟩ := resolve_of_directory? hroot
  refine ⟨hes, ?_, by simp, fun _ => (List.append_nil top).symm, fun above more hsplit habove => ?_,
    fun _ above more hsplit hmore => absurd (List.append_eq_nil_iff.1 hsplit.symm).2 hmore⟩
  · rw [locate]
    simp only [List.append_nil]
    exact hresolve
  · exact absurd (List.append_eq_nil_iff.1 hsplit.symm).1 habove

/-- The walk of a directory with any fuel that is enough. -/
theorem exists_walk?_eq (hwf : tree.WellFormed) (hroot : tree.directory? root = some top) (follow : Bool) :
    ∃ enough, tree.top.count ≤ enough ∧
      ∀ fuel ≥ enough, tree.walk? follow root = some (tree.walkFrom follow root fuel ⟨[top], top, []⟩) := by
  obtain ⟨hresolve, -⟩ := resolve_of_directory? hroot
  refine ⟨(tree.top.count + 1) * (tree.top.count + 1),
    Nat.le_trans (Nat.le_succ _) (Nat.le_mul_of_pos_right _ (Nat.succ_pos _)), fun fuel hfuel => ?_⟩
  rw [walk?, hroot, Option.map_some, Option.some.injEq]
  refine walkFrom_eq_of_le hwf ⟨top, hresolve⟩ (sound_start hroot) ?_ hfuel
  have hunopened : (tree.top.locations.countP fun l => l ∉ [top]) ≤ tree.top.count :=
    length_locations tree.top ▸ List.countP_le_length
  have hmul := Nat.mul_le_mul_right tree.top.count hunopened
  unfold potential
  dsimp only
  have hsquare : (tree.top.count + 1) * (tree.top.count + 1) = tree.top.count * tree.top.count + 2 * tree.top.count + 1 := by
    rw [Nat.succ_mul, Nat.mul_succ]
    omega
  omega

/-! The order of the walk. -/

/-- A path comes before another one: the names at which they part are in order. -/
def Earlier (p q : Location) : Prop :=
  ∃ common a b : List String, ∃ x y : String, p = common ++ x :: a ∧ q = common ++ y :: b ∧ compare x y = .lt

/-- What the walk meets in an entry, where it is met in order below a directory that is entered. -/
theorem visit_ordered (hwf : tree.WellFormed) (hroot : ∃ l, tree.resolve root = .ok l) (hs : s.Sound tree follow root top)
    (hopens : s.here ∉ tree.closed) {below : WalkState → List WalkEntry}
    (hbelow : ∀ t : WalkState, t.Sound tree follow root top → (below t).Pairwise (fun m m' => Earlier m.path m'.path) ∧
      ∀ m ∈ below t, t.path <+: m.path ∧ ∀ name ∈ m.path, IsName name)
    {e : String × FileNode} (he : e ∈ tree.entriesAt s.here) :
    (tree.visit follow root below s e).Pairwise (fun m m' => Earlier m.path m'.path) ∧
      ∀ m ∈ tree.visit follow root below s e, s.path ++ [e.1] <+: m.path ∧ ∀ name ∈ m.path, IsName name := by
  rcases hs.visit_cases hwf hroot hopens he with ⟨met, hmet, rfl | ⟨m, rfl, hm⟩⟩ | ⟨t, henters, ht, hvisit⟩
  · rw [hmet]
    exact ⟨.nil, by simp⟩
  · rw [hmet]
    refine ⟨List.pairwise_singleton _ _, fun m' hm' => ?_⟩
    rw [List.mem_singleton.1 hm', hm]
    exact ⟨List.prefix_refl _, hs.names_append hwf he⟩
  · rw [hvisit, ← henters.path]
    exact hbelow t ht

/-- The walk meets its paths in order, all of them at or below the path by which it came. -/
theorem walkFrom_ordered (hwf : tree.WellFormed) (hroot : ∃ l, tree.resolve root = .ok l)
    (hs : s.Sound tree follow root top) (fuel : Nat) :
    (tree.walkFrom follow root fuel s).Pairwise (fun m m' => Earlier m.path m'.path) ∧
      ∀ m ∈ tree.walkFrom follow root fuel s, s.path <+: m.path ∧ ∀ name ∈ m.path, IsName name := by
  induction fuel generalizing s with
  | zero => exact ⟨.nil, by simp [walkFrom]⟩
  | succ fuel ih =>
    by_cases hopens : s.here ∈ tree.closed
    · rw [walkFrom_closed hopens]
      refine ⟨List.pairwise_singleton _ _, fun m hm => ?_⟩
      rw [List.mem_singleton.1 hm]
      exact ⟨List.prefix_refl _, hs.names⟩
    obtain ⟨es, hes⟩ := hs.directory
    have hblock := fun e he => visit_ordered hwf hroot hs hopens (fun t ht => ih ht) (e := e) he
    rw [walkFrom_open hopens]
    constructor
    · rw [List.pairwise_flatMap]
      refine ⟨fun e he => (hblock e he).1, ?_⟩
      have hsorted : (tree.entriesAt s.here).Pairwise fun a b => compare a.1 b.1 = .lt := by
        rw [entriesAt, hes]
        exact hwf.top.sorted s.here _ hes
      refine hsorted.imp_of_mem fun {a b} ha hb hlt m hm m' hm' => ?_
      obtain ⟨rest, hpath⟩ := ((hblock a ha).2 m hm).1
      obtain ⟨rest', hpath'⟩ := ((hblock b hb).2 m' hm').1
      refine ⟨s.path, rest, rest', a.1, b.1, ?_, ?_, hlt⟩
      · rw [← hpath, ← List.append_cons]
      · rw [← hpath', ← List.append_cons]
    · intro m hm
      obtain ⟨e, he, hm⟩ := List.mem_flatMap.1 hm
      obtain ⟨hpath, hnames⟩ := (hblock e he).2 m hm
      exact ⟨(List.prefix_append _ _).trans hpath, hnames⟩

theorem Earlier.ne {p q : Location} (h : Earlier p q) : p ≠ q := by
  obtain ⟨common, a, b, x, y, rfl, rfl, hlt⟩ := h
  intro heq
  obtain ⟨rfl, -⟩ := List.cons.inj (List.append_cancel_left heq)
  rw [Std.ReflOrd.compare_self] at hlt
  cases hlt

/-! What the walk reaches. -/

/-- Without links the walk meets what stands at its paths. -/
theorem exists_of_mem_walkFrom (hwf : tree.WellFormed) (hroot : ∃ l, tree.resolve root = .ok l) {fuel : Nat}
    (hs : s.Sound tree false root top) {m : WalkEntry} (hm : m ∈ tree.walkFrom false root fuel s) :
    ∃ n, tree.top.find? (top ++ m.path) = some n := by
  induction fuel generalizing s with
  | zero => cases hm
  | succ fuel ih =>
    by_cases hopens : s.here ∈ tree.closed
    · obtain ⟨es, hes⟩ := hs.directory
      rw [walkFrom_closed hopens, List.mem_singleton] at hm
      exact ⟨.directory es, by rw [hm, WalkEntry.path, ← hs.plain rfl, hes]⟩
    rw [walkFrom_open hopens, List.mem_flatMap] at hm
    obtain ⟨e, he, hm⟩ := hm
    rcases hs.visit_cases hwf hroot hopens he with ⟨met, hmet, rfl | ⟨m', rfl, hpath⟩⟩ | ⟨t, -, ht, hvisit⟩
    · rw [hmet] at hm
      cases hm
    · rw [hmet, List.mem_singleton] at hm
      subst hm
      exact ⟨e.2, by rw [hpath, ← List.append_assoc, ← hs.plain rfl]; exact (mem_entriesAt_iff hwf).1 he⟩
    · rw [hvisit] at hm
      exact ih ht hm

/-- The directories on the way to a path have paths that can be used. -/
def Usable (root : String) (path : Location) : Prop :=
  ∀ above more, path = above ++ more → above ≠ [] → more ≠ [] → isLongPath (joinPath root ("/".intercalate above)) = false

/-- They have such paths, and they can be opened. -/
structure Opens (tree : FileTree) (root : String) (top path : Location) : Prop where
  usable : Usable root path
  searchable : tree.Searchable top path

/-- The directories on the way to a path that can be used have paths that can be used. -/
theorem usable_of_short {path : Location} (hnames : ∀ name ∈ path, IsName name)
    (hshort : isLongPath (joinPath root ("/".intercalate path)) = false) : Usable root path := by
  rintro above more rfl habove hmore
  have hslash := startsWith_intercalate habove fun name hname => hnames name (List.mem_append_left _ hname)
  have hslash' := startsWith_intercalate (List.append_ne_nil_of_left_ne_nil habove more) hnames
  rw [joinPath, hslash', String.intercalate_append_of_ne_nil habove hmore] at hshort
  rw [joinPath, hslash]
  simp only [isLongPath, Bool.false_eq_true, if_false, decide_eq_false_iff_not, Nat.not_lt] at hshort ⊢
  split at hshort
  · rename_i hend
    simp only [String.utf8ByteSize_append] at hshort
    rw [if_pos hend, String.utf8ByteSize_append]
    omega
  · rename_i hend
    simp only [String.utf8ByteSize_append] at hshort
    rw [if_neg hend, String.utf8ByteSize_append, String.utf8ByteSize_append]
    omega

def contentAt (root : String) (path : Location) (content : Except OsError (List UInt8)) : Except OsError (List UInt8) :=
  if isLongPath (joinPath root ("/".intercalate path)) then .error .nameTooLong else content

theorem visit_file {below : WalkState → List WalkEntry} {n : FileNode} {content : Except OsError (List UInt8)}
    (hn : n.content? = some content) :
    tree.visit follow root below s (name, n) = [.file (s.path ++ [name]) (contentAt root (s.path ++ [name]) content)] := by
  unfold visit contentAt
  dsimp only
  split
  · cases n with
    | file _ => rfl
    | «sealed» _ => rfl
    | link _ => cases hn
    | directory _ => cases hn
  · cases n with
    | file _ => cases hn; rfl
    | «sealed» _ => cases hn; rfl
    | link _ => cases hn
    | directory _ => cases hn

/-- The walk meets every file to which open directories with usable paths lead. -/
theorem mem_walkFrom (hwf : tree.WellFormed) {fuel : Nat} {rest : Location} {n : FileNode}
    {content : Except OsError (List UInt8)} (hfind : tree.top.find? (s.here ++ rest) = some n)
    (hn : n.content? = some content) (hrest : rest ≠ []) (hfuel : rest.length ≤ fuel)
    (husable : ∀ above more, rest = above ++ more → above ≠ [] → more ≠ [] →
      isLongPath (joinPath root ("/".intercalate (s.path ++ above))) = false)
    (hsearchable : tree.Searchable s.here rest) :
    .file (s.path ++ rest) (contentAt root (s.path ++ rest) content) ∈ tree.walkFrom follow root fuel s := by
  induction rest generalizing s fuel with
  | nil => exact absurd rfl hrest
  | cons name rest ih =>
    obtain ⟨fuel, rfl⟩ : ∃ k, fuel = k + 1 := ⟨fuel - 1, by rw [List.length_cons] at hfuel; omega⟩
    have hopens : s.here ∉ tree.closed := by
      have hfirst := hsearchable [] (name :: rest) rfl (by simp)
      rwa [List.append_nil] at hfirst
    rw [List.append_cons, find?_append] at hfind
    obtain ⟨child, hchild, hfind'⟩ := Option.bind_eq_some_iff.1 hfind
    rw [walkFrom_open hopens, List.mem_flatMap]
    refine ⟨(name, child), (mem_entriesAt_iff hwf).2 hchild, ?_⟩
    by_cases hlast : rest = []
    · subst hlast
      rw [find?_nil, Option.some.injEq] at hfind'
      subst hfind'
      rw [visit_file hn]
      exact List.mem_singleton_self _
    · obtain ⟨es, rfl⟩ : ∃ es, child = .directory es := by
        obtain ⟨first, more, rfl⟩ := List.exists_cons_of_ne_nil hlast
        rw [find?_cons] at hfind'
        cases child with
        | directory es => exact ⟨es, rfl⟩
        | file _ => cases hfind'
        | «sealed» _ => cases hfind'
        | link _ => cases hfind'
      have hvisit : tree.visit follow root (tree.walkFrom follow root fuel) s (name, .directory es) =
          tree.walkFrom follow root fuel (s.enter (s.here ++ [name]) name) := by
        unfold visit
        dsimp only
        rw [husable [name] rest rfl (by simp) hlast, if_neg Bool.false_ne_true]
      have hpath : s.path ++ name :: rest = (s.enter (s.here ++ [name]) name).path ++ rest := by
        rw [WalkState.enter, List.append_cons]
      rw [hvisit, hpath]
      refine ih (by rw [find?_append, WalkState.enter, hchild]; exact hfind') hlast
        (by rw [List.length_cons] at hfuel; omega) ?_ hsearchable.tail
      intro above more hsplit habove hmore
      have := husable (name :: above) more (by rw [hsplit]; rfl) (by simp) hmore
      rwa [List.append_cons] at this

/-- What a walk of a directory meets. -/
structure IsWalk (tree : FileTree) (follow : Bool) (root : String) (top : Location) (ms : List WalkEntry) : Prop where
  ordered : ms.Pairwise fun m m' => Earlier m.path m'.path
  names : ∀ m ∈ ms, ∀ name ∈ m.path, IsName name
  complete : ∀ {path n content}, tree.top.find? (top ++ path) = some n → n.content? = some content →
    Opens tree root top path →
    .file path (contentAt root path content) ∈ ms
  present : follow = false → ∀ m ∈ ms, ∃ n, tree.top.find? (top ++ m.path) = some n

theorem exists_walk? (hroot : tree.directory? root = some top) (follow : Bool) : ∃ ms, tree.walk? follow root = some ms :=
  ⟨_, by rw [walk?, hroot, Option.map_some]⟩

theorem isWalk_of_walk? (hwf : tree.WellFormed) (hroot : tree.directory? root = some top) {ms : List WalkEntry}
    (hms : tree.walk? follow root = some ms) : IsWalk tree follow root top ms := by
  obtain ⟨hresolve, es, hes⟩ := resolve_of_directory? hroot
  obtain ⟨enough, hcount, hwalk⟩ := exists_walk?_eq hwf hroot follow
  have hs : (⟨[top], top, []⟩ : WalkState).Sound tree follow root top := sound_start hroot
  obtain rfl : tree.walkFrom follow root enough ⟨[top], top, []⟩ = ms :=
    Option.some.inj ((hwalk enough (Nat.le_refl _)).symm.trans hms)
  obtain ⟨hordered, hnames⟩ := walkFrom_ordered hwf ⟨top, hresolve⟩ hs enough
  refine ⟨hordered, fun m hm => (hnames m hm).2, fun {path n content} hfind hn hopens => ?_, fun hfollow m hm => ?_⟩
  · have hne : path ≠ [] := by
      rintro rfl
      rw [List.append_nil, hes, Option.some.injEq] at hfind
      subst hfind
      cases hn
    have hlength := length_lt_count hfind
    rw [List.length_append] at hlength
    exact mem_walkFrom (s := ⟨[top], top, []⟩) hwf hfind hn hne (by omega) (fun above more => hopens.usable above more)
      hopens.searchable
  · subst hfollow
    exact exists_of_mem_walkFrom hwf ⟨top, hresolve⟩ hs hm

end WireLayout.FileTree
