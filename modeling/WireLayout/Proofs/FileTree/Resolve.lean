import WireLayout.FileTree.Change
import WireLayout.Proofs.Except
import WireLayout.Proofs.FileTree.Paths

/-! Where paths lead. A path below another one leads where its names lead from there, links included. A file that is
added changes where no other path leads: a path that led somewhere still leads there, and one that led nowhere leads to
the new file or nowhere. -/

namespace WireLayout

open WireLayout.Text WireLayout.FileNode

namespace FileTree

variable {tree : FileTree} {links : Nat} {here location : Location} {components path : List String} {name root : String}

/-- Where a path below a directory leads, with the links of the directory's own path. -/
def locate (tree : FileTree) (root : String) (path : Location) : Except OsError Location := do
  let (origin, components) ← tree.start root
  tree.resolveFrom maxLinks origin (components ++ path)

/-- A name that is looked up in a directory. -/
structure IsLookedUp (name : String) : Prop where
  nonempty : name ≠ ""
  notHere : name ≠ "."
  notAbove : name ≠ ".."
  short : isLongName name = false

theorem isLookedUp_of_isName (h : IsName name) : IsLookedUp name := ⟨h.nonempty, h.notHere, h.notAbove, h.short⟩

/-- Components lead from a directory to a location. An empty one is passed over, and all others are looked up. -/
inductive Leads (tree : FileTree) : Nat → Location → List String → Location → Prop where
  | stop {links : Nat} {here : Location} : Leads tree links here [] here
  | skip {links : Nat} {here location : Location} {rest : List String} (more : Leads tree links here rest location) :
      Leads tree links here ("" :: rest) location
  | stay {links : Nat} {here location : Location} {rest : List String} (opens : here ∉ tree.closed)
      (more : Leads tree links here rest location) : Leads tree links here ("." :: rest) location
  | rise {links : Nat} {here location : Location} {rest : List String} (opens : here ∉ tree.closed)
      (known : ¬(here = [] ∧ tree.mount ≠ "")) (more : Leads tree links here.dropLast rest location) :
      Leads tree links here (".." :: rest) location
  | enter {links : Nat} {here location : Location} {name : String} {rest : List String} {es : List (String × FileNode)}
      (opens : here ∉ tree.closed) (name_ok : IsLookedUp name)
      (found : tree.top.find? (here ++ [name]) = some (.directory es))
      (more : Leads tree links (here ++ [name]) rest location) : Leads tree links here (name :: rest) location
  | file {links : Nat} {here : Location} {name : String} {n : FileNode} (opens : here ∉ tree.closed)
      (name_ok : IsLookedUp name) (found : tree.top.find? (here ++ [name]) = some n) (content : n.content?.isSome) :
      Leads tree links here [name] (here ++ [name])
  | follow {links : Nat} {here origin location : Location} {name target : String} {rest components : List String}
      (opens : here ∉ tree.closed) (name_ok : IsLookedUp name)
      (found : tree.top.find? (here ++ [name]) = some (.link target))
      (begins : tree.linkStart here target = .ok (origin, components))
      (more : Leads tree links origin (components ++ rest) location) : Leads tree (links + 1) here (name :: rest) location

theorem resolveFrom_blank (tree : FileTree) (links : Nat) (here : Location) (rest : List String) :
    tree.resolveFrom links here ("" :: rest) = tree.resolveFrom links here rest := by
  cases links <;> rfl

theorem resolveFrom_cons (tree : FileTree) (links : Nat) (here : Location) (name : String) (rest : List String) :
    tree.resolveFrom links here (name :: rest) =
      if name = "" then tree.resolveFrom links here rest
      else if here ∈ tree.closed then .error .permissionDenied
      else if name = "." then tree.resolveFrom links here rest
      else if name = ".." then
        if here = [] ∧ tree.mount ≠ "" then .error .notFound else tree.resolveFrom links here.dropLast rest
      else if isLongName name then .error .nameTooLong
      else match tree.top.find? (here ++ [name]) with
        | none => .error .notFound
        | some (.directory _) => tree.resolveFrom links (here ++ [name]) rest
        | some (.file _) | some (.sealed _) =>
          if rest = [] then .ok (here ++ [name]) else .error .notADirectory
        | some (.link target) =>
          match links with
          | 0 => .error .tooManyLinks
          | links + 1 => tree.throughLink (tree.resolveFrom links) here target rest := by
  have hdots : ((here.isEmpty && tree.mount ≠ "") = true) ↔ here = [] ∧ tree.mount ≠ "" := by simp
  cases links with
  | zero =>
    rw [resolveFrom, resolveWith]
    cases tree.top.find? (here ++ [name]) with
    | none => simp only [List.contains_iff_mem, hdots]
    | some n => cases n <;> simp only [List.contains_iff_mem, hdots, List.isEmpty_iff]
  | succ links =>
    rw [resolveFrom, resolveWith]
    cases tree.top.find? (here ++ [name]) with
    | none => simp only [List.contains_iff_mem, hdots]
    | some n => cases n <;> simp only [List.contains_iff_mem, hdots, List.isEmpty_iff]

theorem resolveFrom_name (opens : here ∉ tree.closed) (hname : IsLookedUp name) (rest : List String) :
    tree.resolveFrom links here (name :: rest) =
      match tree.top.find? (here ++ [name]) with
        | none => .error .notFound
        | some (.directory _) => tree.resolveFrom links (here ++ [name]) rest
        | some (.file _) | some (.sealed _) =>
          if rest = [] then .ok (here ++ [name]) else .error .notADirectory
        | some (.link target) =>
          match links with
          | 0 => .error .tooManyLinks
          | links + 1 => tree.throughLink (tree.resolveFrom links) here target rest := by
  rw [resolveFrom_cons, if_neg hname.nonempty, if_neg opens, if_neg hname.notHere, if_neg hname.notAbove, hname.short,
    if_neg Bool.false_ne_true]

theorem Leads.resolveFrom_eq (h : tree.Leads links here components location) :
    tree.resolveFrom links here components = .ok location := by
  induction h with
  | stop => exact resolveFrom_nil tree _ _
  | skip _ ih => rw [resolveFrom_blank, ih]
  | stay opens _ ih => rw [resolveFrom_cons, if_neg (by decide), if_neg opens, if_pos rfl, ih]
  | rise opens known _ ih =>
    rw [resolveFrom_cons, if_neg (by decide), if_neg opens, if_neg (by decide), if_pos rfl, if_neg known, ih]
  | enter opens name_ok found _ ih => rw [resolveFrom_name opens name_ok, found, ← ih]
  | @file _ _ _ n opens name_ok found content =>
    rw [resolveFrom_name opens name_ok, found]
    cases n with
    | file _ => rfl
    | «sealed» _ => rfl
    | link _ => cases content
    | directory _ => cases content
  | follow opens name_ok found begins _ ih =>
    rw [resolveFrom_name opens name_ok, found]
    dsimp only
    rw [throughLink, begins, ← ih]
    rfl

theorem leads_of_resolveFrom (h : tree.resolveFrom links here components = .ok location) :
    tree.Leads links here components location := by
  induction links using Nat.strongRecOn generalizing here components with
  | ind links ihlinks =>
    induction components generalizing here with
    | nil =>
      rw [resolveFrom_nil, Except.ok.injEq] at h
      exact h ▸ .stop
    | cons name rest ih =>
      rw [resolveFrom_cons] at h
      split at h
      · rename_i hblank
        exact hblank ▸ .skip (ih h)
      rename_i hblank
      split at h
      · cases h
      rename_i hopens
      split at h
      · rename_i hhere
        exact hhere ▸ .stay hopens (ih h)
      rename_i hhere
      split at h
      · rename_i habove
        subst habove
        split at h
        · cases h
        · exact .rise hopens ‹_› (ih h)
      rename_i habove
      split at h
      · cases h
      rename_i hshort
      have hname : IsLookedUp name := ⟨hblank, hhere, habove, Bool.eq_false_iff.2 hshort⟩
      split at h
      · cases h
      · exact .enter hopens hname ‹_› (ih h)
      · split at h
        · rename_i hrest
          cases h
          subst hrest
          exact .file hopens hname ‹_› rfl
        · cases h
      · split at h
        · rename_i hrest
          cases h
          subst hrest
          exact .file hopens hname ‹_› rfl
        · cases h
      · split at h
        · cases h
        · obtain ⟨⟨origin, components⟩, hbegins, h⟩ := Except.bind_eq_ok_iff.1 h
          exact .follow hopens hname ‹_› hbegins (ihlinks _ (Nat.lt_succ_self _) h)

/-- Components that lead to a directory lead on to an entry of it that is no link. -/
theorem Leads.append_name {origin : Location} {es : List (String × FileNode)} {n : FileNode}
    (h : tree.Leads links origin components here) (hes : tree.top.find? here = some (.directory es))
    (hopens : here ∉ tree.closed) (hname : IsLookedUp name) (hn : tree.top.find? (here ++ [name]) = some n) (hlink : ∀ target, n ≠ .link target) :
    tree.Leads links origin (components ++ [name]) (here ++ [name]) := by
  induction h with
  | stop =>
    cases n with
    | directory es => exact .enter hopens hname hn .stop
    | file _ => exact .file hopens hname hn rfl
    | «sealed» _ => exact .file hopens hname hn rfl
    | link target => exact absurd rfl (hlink target)
  | skip _ ih => exact .skip (ih hes hopens hn)
  | stay opens _ ih => exact .stay opens (ih hes hopens hn)
  | rise opens known _ ih => exact .rise opens known (ih hes hopens hn)
  | enter opens name_ok found _ ih => exact .enter opens name_ok found (ih hes hopens hn)
  | file _ _ found content =>
    rw [found, Option.some.injEq] at hes
    subst hes
    cases content
  | follow opens name_ok found begins _ ih =>
    refine .follow opens name_ok found begins ?_
    change tree.Leads _ _ (_ ++ (_ ++ [name])) _
    rw [← List.append_assoc]
    exact ih hes hopens hn

/-- An empty component that others follow leads nowhere else. -/
theorem resolveFrom_append_blank {more : List String} (hmore : more ≠ []) :
    tree.resolveFrom links here (components ++ "" :: more) = tree.resolveFrom links here (components ++ more) := by
  induction links using Nat.strongRecOn generalizing here components with
  | ind links ihlinks =>
    induction components generalizing here with
    | nil => rw [List.nil_append, List.nil_append, resolveFrom_blank]
    | cons name rest ih =>
      have hempty : rest ++ "" :: more = [] ↔ rest ++ more = [] := by simp [hmore]
      rw [List.cons_append, List.cons_append, resolveFrom_cons, resolveFrom_cons]
      simp only [ih, hempty]
      cases links with
      | zero => rfl
      | succ links =>
        simp only [throughLink, ← List.append_assoc, ihlinks links (Nat.lt_succ_self links)]

/-- The components of a path below another one lead where its names lead after the components of the other. -/
theorem resolveFrom_tail (links : Nat) (here : Location) (hne : path ≠ []) (hnames : ∀ name ∈ path, IsName name)
    (above tail : String)
    (htail : tail = "/" ++ "/".intercalate path ∨ tail = "/".intercalate path ∧ ∃ base, above = base ++ "/") :
    tree.resolveFrom links here (pathComponents (above ++ tail)) =
      tree.resolveFrom links here (pathComponents above ++ path) := by
  rcases htail with rfl | ⟨rfl, base, rfl⟩
  · rw [← String.append_assoc, pathComponents_slash, pathComponents_intercalate hne hnames]
  · have hbase : pathComponents (base ++ "/") = pathComponents base ++ [""] := by
      rw [← String.append_empty (s := base ++ "/"), pathComponents_slash]
      rfl
    rw [pathComponents_slash, pathComponents_intercalate hne hnames, hbase, List.append_assoc]
    exact (resolveFrom_append_blank hne).symm

/-- A path below a directory leads where its names lead from there. -/
theorem resolve_joinPath (hwf : tree.WellFormed) (hne : path ≠ []) (hnames : ∀ name ∈ path, IsName name)
    (hroot : tree.resolve root = .ok here) (hlong : isLongPath (joinPath root ("/".intercalate path)) = false) :
    tree.resolve (joinPath root ("/".intercalate path)) = tree.locate root path := by
  obtain ⟨⟨origin, components⟩, hstart, -⟩ := Except.bind_eq_ok_iff.1 hroot
  have hlocate : tree.locate root path = tree.resolveFrom maxLinks origin (components ++ path) := by rw [locate, hstart]; rfl
  have hresolve : ∀ {full first names}, tree.start full = .ok (first, names) →
      tree.resolve full = tree.resolveFrom maxLinks first names := by
    intro full first names h
    rw [resolve, h]
    rfl
  obtain ⟨tail, hjoin, htail⟩ := joinPath_cases root (startsWith_intercalate hne hnames)
  rw [hlocate, hjoin]
  rw [hjoin] at hlong
  rcases start_cases hstart with ⟨hmount, hempty, rfl, rfl⟩ | ⟨below, rfl, rfl, rfl⟩ | ⟨hempty, hslash, rfl, rfl⟩
  · have htail := htail.resolve_right fun h => by
      have hend := (hwf.mount (hmount ▸ hempty)).2
      rw [← hmount, (endsWith_slash_iff root).2 h.2] at hend
      cases hend
    rw [htail, hmount, ← String.append_assoc] at hlong ⊢
    rw [hresolve (start_mounted hlong), List.nil_append, ← String.empty_append (s := "/" ++ _),
      resolveFrom_tail maxLinks [] hne hnames "" _ (.inl rfl)]
    change tree.resolveFrom _ _ ("" :: path) = _
    rw [resolveFrom_blank]
  · rw [String.append_assoc] at hlong ⊢
    rw [hresolve (start_mounted hlong), ← String.append_assoc]
    refine resolveFrom_tail maxLinks [] hne hnames ("/" ++ below) tail (htail.imp_right (And.imp_right fun h => ?_))
    rw [← endsWith_slash_iff] at h ⊢
    exact endsWith_slash_append h
  · have hfull : root ++ tail ≠ "" := fun h => hempty (String.append_eq_empty_iff.1 h).1
    rw [hresolve (start_relative hwf hfull (startsWith_slash_append hempty hslash) hlong)]
    exact resolveFrom_tail maxLinks tree.working hne hnames root tail htail

theorem resolve_of_directory? (h : tree.directory? root = some here) :
    tree.resolve root = .ok here ∧ ∃ es, tree.top.find? here = some (.directory es) := by
  rw [directory?] at h
  split at h
  · rename_i l hresolve
    split at h
    · rename_i hdirectory
      cases h
      refine ⟨hresolve, ?_⟩
      obtain ⟨n, hn, hdirectory⟩ := (Option.any_eq_true _ _).1 hdirectory
      cases n with
      | directory es => exact ⟨es, hn⟩
      | file _ => cases hdirectory
      | «sealed» _ => cases hdirectory
      | link _ => cases hdirectory
    · cases h
  · cases h

theorem directory?_of_resolve (h : tree.resolve root = .ok here) (hes : ∃ es, tree.top.find? here = some (.directory es)) :
    tree.directory? root = some here := by
  obtain ⟨es, hes⟩ := hes
  rw [directory?, h]
  dsimp only
  rw [hes]
  rfl

theorem directory?_mount {es : List (String × FileNode)} (hmount : tree.mount ≠ "") (hlong : isLongPath tree.mount = false)
    (htop : tree.top = .directory es) : tree.directory? tree.mount = some [] := by
  have hresolve : tree.resolve tree.mount = .ok [] := by
    simp [resolve, start, hmount, hlong, bind, Except.bind]
  exact directory?_of_resolve hresolve ⟨es, by rw [htop, find?_nil]⟩

def Searchable (tree : FileTree) (origin path : Location) : Prop :=
  ∀ above more, path = above ++ more → more ≠ [] → origin ++ above ∉ tree.closed

theorem Searchable.tail {origin rest : Location} (h : tree.Searchable origin (name :: rest)) :
    tree.Searchable (origin ++ [name]) rest := by
  intro above more hsplit hmore
  rw [List.append_assoc]
  exact h (name :: above) more (by rw [hsplit]; rfl) hmore

theorem Searchable.cons {origin rest : Location} (h : tree.Searchable (origin ++ [name]) rest) (hopens : origin ∉ tree.closed) :
    tree.Searchable origin (name :: rest) := by
  intro above more hsplit hmore
  cases above with
  | nil => rwa [List.append_nil]
  | cons first above =>
    obtain ⟨rfl, hrest⟩ := List.cons.inj hsplit
    rw [List.append_cons]
    exact h above more hrest hmore

theorem not_isLongPath_of_resolve (h : tree.resolve root = .ok location) : isLongPath root = false := by
  obtain ⟨⟨origin, components⟩, hstart, -⟩ := Except.bind_eq_ok_iff.1 h
  rw [start] at hstart
  cases hlong : isLongPath root with
  | false => rfl
  | true =>
    rw [hlong, if_pos rfl] at hstart
    split at hstart <;> cases hstart

theorem leads_descend {origin path : Location} (hwf : tree.WellFormed) (hopens : tree.Searchable origin path)
    (hes : ∃ es, tree.top.find? (origin ++ path) = some (.directory es)) : tree.Leads links origin path (origin ++ path) := by
  induction path generalizing origin with
  | nil =>
    rw [List.append_nil]
    exact .stop
  | cons name rest ih =>
    rw [List.append_cons] at hes ⊢
    have hname : IsName name := hwf.top.isName hes.choose_spec name (by simp)
    obtain ⟨es, hfound⟩ : ∃ es, tree.top.find? (origin ++ [name]) = some (.directory es) := by
      cases rest with
      | nil => rwa [List.append_nil] at hes
      | cons next rest => exact exists_directory_of_find?_append hes.choose_spec
    have hhere : origin ∉ tree.closed := by
      have hfirst := hopens [] (name :: rest) rfl (by simp)
      rwa [List.append_nil] at hfirst
    exact .enter hhere (isLookedUp_of_isName hname) hfound (ih hopens.tail hes)

/-- The absolute path of a directory leads to it. -/
theorem resolve_absolute (hwf : tree.WellFormed) (hopens : tree.Searchable [] here)
    (hes : ∃ es, tree.top.find? here = some (.directory es)) (hlong : isLongPath (tree.absolute here) = false) : tree.resolve (tree.absolute here) = .ok here := by
  have hresolve : ∀ {full names}, tree.start full = .ok ([], names) →
      tree.resolve full = tree.resolveFrom maxLinks [] names := by
    intro full names h
    rw [resolve, h]
    rfl
  by_cases hhere : here = []
  · subst hhere
    by_cases hmount : tree.mount = ""
    · have hroot : tree.absolute [] = tree.mount ++ "/" ++ "" := by simp [absolute, hmount]
      rw [hroot] at hlong ⊢
      rw [hresolve (start_mounted hlong)]
      change tree.resolveFrom maxLinks [] ["", ""] = _
      rw [resolveFrom_blank, resolveFrom_blank, resolveFrom_nil]
    · have hroot : tree.absolute [] = tree.mount := by simp [absolute, hmount]
      rw [hroot] at hlong ⊢
      rw [hresolve (by rw [start, if_neg hmount, hlong, if_neg Bool.false_ne_true, if_pos rfl]), resolveFrom_nil]
  · have hroot : tree.absolute here = tree.mount ++ "/" ++ "/".intercalate here := by
      rw [absolute, join_slash hhere, ← String.append_assoc]
      simp
    obtain ⟨es, hes⟩ := hes
    rw [hroot] at hlong ⊢
    rw [hresolve (start_mounted hlong), ← String.empty_append (s := "/" ++ _),
      resolveFrom_tail maxLinks [] hhere (hwf.top.isName hes) "" _ (.inl rfl)]
    change tree.resolveFrom maxLinks [] ("" :: here) = _
    rw [resolveFrom_blank]
    exact (leads_descend hwf hopens ⟨es, hes⟩ : tree.Leads maxLinks [] here ([] ++ here)).resolveFrom_eq

/-- What leads through the names of a directory leads on from it, and all directories above it are open. -/
theorem Leads.through {origin path : Location} {more : List String} (h : tree.Leads links origin (path ++ more) location)
    (hnames : ∀ name ∈ path, IsName name) (hes : ∃ es, tree.top.find? (origin ++ path) = some (.directory es)) :
    tree.Searchable origin path ∧ tree.Leads links (origin ++ path) more location := by
  induction path generalizing origin with
  | nil => exact ⟨fun above more hsplit hmore => absurd (List.append_eq_nil_iff.1 hsplit.symm).2 hmore, by simpa using h⟩
  | cons name rest ih =>
    have hname := hnames name List.mem_cons_self
    rw [List.append_cons] at hes ⊢
    obtain ⟨es, hfound⟩ : ∃ es, tree.top.find? (origin ++ [name]) = some (.directory es) := by
      cases rest with
      | nil => rwa [List.append_nil] at hes
      | cons next rest => exact exists_directory_of_find?_append hes.choose_spec
    have hresolve := h.resolveFrom_eq
    rw [List.cons_append, resolveFrom_cons, if_neg hname.nonempty] at hresolve
    split at hresolve
    · cases hresolve
    rename_i hopens
    rw [if_neg hname.notHere, if_neg hname.notAbove, hname.short, if_neg Bool.false_ne_true, hfound] at hresolve
    obtain ⟨hsearchable, hleads⟩ :=
      ih (leads_of_resolveFrom hresolve) (fun name h => hnames name (List.mem_cons_of_mem _ h)) hes
    exact ⟨hsearchable.cons hopens, hleads⟩

/-- What leads away from a directory looks a name up in it. -/
theorem Leads.notMem_closed (h : tree.Leads links here components location) (hne : location ≠ here) : here ∉ tree.closed := by
  induction h with
  | stop => exact absurd rfl hne
  | skip _ ih => exact ih hne
  | stay opens _ _ => exact opens
  | rise opens _ _ _ => exact opens
  | enter opens _ _ _ _ => exact opens
  | file opens _ _ _ => exact opens
  | follow opens _ _ _ _ _ => exact opens

theorem joinPath_absolute (hwf : tree.WellFormed) (hnames : ∀ name ∈ here, IsName name) {more : String}
    (hrelative : more.startsWith "/" = false) : ∃ below, joinPath (tree.absolute here) more = tree.mount ++ "/" ++ below ∧
      pathComponents below = here ++ pathComponents more := by
  by_cases hhere : here = []
  · subst hhere
    refine ⟨more, ?_, rfl⟩
    by_cases hmount : tree.mount = ""
    · have hroot : tree.absolute [] = "/" := by simp [absolute, hmount]
      rw [hroot, hmount, joinPath, hrelative, if_neg Bool.false_ne_true, if_pos (by decide +kernel)]
      rfl
    · have hroot : tree.absolute [] = tree.mount := by simp [absolute, hmount]
      rw [hroot, joinPath, hrelative, if_neg Bool.false_ne_true, (hwf.mount hmount).2, if_neg Bool.false_ne_true]
  · have hroot : tree.absolute here = tree.mount ++ "/" ++ "/".intercalate here := by
      rw [absolute, join_slash hhere, ← String.append_assoc]
      simp
    have hend : (tree.absolute here).endsWith "/" = false := by
      rw [Bool.eq_false_iff, hroot]
      intro h
      obtain ⟨base, hbase⟩ := (endsWith_slash_iff _).1 (endsWith_slash_append h)
      have hcomponents := congrArg pathComponents hbase
      rw [← String.empty_append (s := "/" ++ _), ← String.append_assoc, pathComponents_slash,
        pathComponents_intercalate hhere hnames, ← String.append_empty (s := base ++ "/"), pathComponents_slash] at hcomponents
      have hlast := congrArg List.getLast? hcomponents
      rw [List.getLast?_append_of_ne_nil _ hhere] at hlast
      have hblank : "" ∈ here := List.mem_of_getLast? (by rw [hlast]; simp [pathComponents, splitAtChar])
      exact (hnames "" hblank).nonempty rfl
    refine ⟨"/".intercalate here ++ "/" ++ more, ?_, ?_⟩
    · rw [joinPath, hrelative, if_neg Bool.false_ne_true, hend, if_neg Bool.false_ne_true, hroot]
      simp only [String.append_assoc]
    · rw [pathComponents_slash, pathComponents_intercalate hhere hnames]

/-- A path below the absolute path of a directory leads through the directory. -/
theorem leads_of_joinPath_absolute (hwf : tree.WellFormed) (hes : ∃ es, tree.top.find? here = some (.directory es))
    {more : String} (hrelative : more.startsWith "/" = false)
    (h : tree.resolve (joinPath (tree.absolute here) more) = .ok location) :
    tree.Searchable [] here ∧ tree.Leads maxLinks here (pathComponents more) location := by
  have hnames : ∀ name ∈ here, IsName name := hwf.top.isName hes.choose_spec
  obtain ⟨below, hjoin, hcomponents⟩ := joinPath_absolute hwf hnames hrelative
  have hlong := not_isLongPath_of_resolve h
  rw [hjoin] at h hlong
  rw [resolve, start_mounted hlong, Except.ok_bind, ← String.empty_append (s := "/" ++ _), ← String.append_assoc,
    pathComponents_slash, hcomponents] at h
  change tree.resolveFrom maxLinks [] ("" :: (here ++ pathComponents more)) = .ok location at h
  rw [resolveFrom_blank] at h
  exact (leads_of_resolveFrom h).through hnames hes

/-! Files that are added. -/

section

variable {new : FileNode} {content : Except OsError (List UInt8)} {added : Location}

theorem Leads.put (h : tree.Leads links here components location) (hv : tree.top.Vacant added)
    (hnew : new.content? = some content) : (tree.put added new).Leads links here components location := by
  have hentries := entries_of_content? hnew
  have hother : ∀ {other n}, tree.top.find? other = some n → other ≠ added := by
    rintro other n hn rfl
    rw [hv.find?_eq_none] at hn
    cases hn
  induction h with
  | stop => exact .stop
  | skip _ ih => exact .skip ih
  | stay opens _ ih => exact .stay opens ih
  | rise opens known _ ih => exact .rise opens known ih
  | enter opens name_ok found _ ih =>
    obtain ⟨es, hes⟩ := (hv.exists_find?_put_iff hentries (hother found)).2 ⟨_, found⟩
    exact .enter opens name_ok hes ih
  | @file _ _ _ n opens name_ok found content =>
    refine .file opens name_ok ((hv.find?_put_eq_some_iff hentries (hother found) ?_).2 found) content
    cases n <;> first | rfl | cases content
  | follow opens name_ok found begins _ ih =>
    exact .follow opens name_ok ((hv.find?_put_eq_some_iff hentries (hother found) rfl).2 found) begins ih

end

end FileTree

end WireLayout
