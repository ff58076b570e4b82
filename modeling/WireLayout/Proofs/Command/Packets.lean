import WireLayout.Command.Run
import WireLayout.Proofs.Catalog.Isolation
import WireLayout.Proofs.Catalog.Merge

/-! The directory of the packets. A run accepts what its option leads to from the root; an extraction compares the option
with the name of a directory in the root. The two are one directory exactly when the option is that name, and otherwise
the run goes on without messages. -/

namespace WireLayout.Command

open WireLayout.Catalog WireLayout.FileTree WireLayout.FileNode WireLayout.Java WireLayout.Text

section

variable {options : Options} {tree : FileTree} {origin below : Location}

def extraction (options : Options) : ExtractionConfig := { packetsDirectory := options.packetsDirectory }

theorem isLongPath_of_joinPath {root more : String} (h : isLongPath (joinPath root more) = false)
    (hrelative : more.startsWith "/" = false) : isLongPath root = false := by
  obtain ⟨tail, hjoin, -⟩ := joinPath_cases root hrelative
  rw [hjoin] at h
  simp only [isLongPath, decide_eq_false_iff_not, not_lt, String.utf8ByteSize_append] at h ⊢
  omega

/-- The packets that a run accepts below the root. -/
structure Accepted (options : Options) (tree : FileTree) (origin below : Location) : Prop where
  wellFormed : tree.WellFormed
  root : sourceRoot options tree = .ok origin
  relative : options.packetsDirectory.startsWith "/" = false
  packets : tree.directory? (joinPath (tree.absolute origin) options.packetsDirectory) = some (origin ++ below)
  inside : below ≠ []

theorem Accepted.exists_directory (h : Accepted options tree origin below) :
    ∃ es, tree.top.find? origin = some (.directory es) := by
  have hroot := h.root
  rw [sourceRoot] at hroot
  split at hroot
  · rename_i location hlocation
    cases hroot
    exact (resolve_of_directory? hlocation).2
  · cases hroot

/-- The root and the directories above it are open: the packets are found through them. -/
theorem Accepted.opens (h : Accepted options tree origin below) : tree.Searchable [] origin ∧ origin ∉ tree.closed := by
  obtain ⟨hresolve, -⟩ := resolve_of_directory? h.packets
  obtain ⟨hsearchable, hleads⟩ := leads_of_joinPath_absolute h.wellFormed h.exists_directory h.relative hresolve
  exact ⟨hsearchable, hleads.notMem_closed fun heq => h.inside (List.append_right_eq_self.1 heq)⟩

theorem Accepted.directory?_root (h : Accepted options tree origin below) :
    tree.directory? (tree.absolute origin) = some origin := by
  obtain ⟨hresolve, -⟩ := resolve_of_directory? h.packets
  have hshort := isLongPath_of_joinPath (not_isLongPath_of_resolve hresolve) h.relative
  exact directory?_of_resolve (resolve_absolute h.wellFormed h.opens.1 h.exists_directory hshort) h.exists_directory

/-- A directory in the root that has the option for its name is the one that is accepted. -/
theorem Accepted.below_eq (h : Accepted options tree origin below)
    (hes : ∃ es, tree.top.find? (origin ++ [options.packetsDirectory]) = some (.directory es)) :
    below = [options.packetsDirectory] := by
  obtain ⟨es, hes⟩ := hes
  have hname : IsName options.packetsDirectory := h.wellFormed.top.isName hes _ (by simp)
  obtain ⟨hresolve, -⟩ := resolve_of_directory? h.packets
  obtain ⟨hroot, rootEntries, hrootEntries⟩ := resolve_of_directory? h.directory?_root
  have hlocate : tree.locate (tree.absolute origin) [options.packetsDirectory] = .ok (origin ++ [options.packetsDirectory]) := by
    obtain ⟨⟨first, components⟩, hstart, hleads⟩ := Except.bind_eq_ok_iff.1 hroot
    refine Except.bind_eq_ok_iff.2 ⟨_, hstart, ?_⟩
    exact ((leads_of_resolveFrom hleads).append_name hrootEntries h.opens.2 (isLookedUp_of_isName hname) hes (by simp)).resolveFrom_eq
  have hjoin : tree.resolve (joinPath (tree.absolute origin) ("/".intercalate [options.packetsDirectory])) = _ :=
    resolve_joinPath h.wellFormed (by simp) (by simpa using hname) hroot
      (by rw [String.intercalate_singleton]; exact not_isLongPath_of_resolve hresolve)
  rw [String.intercalate_singleton, hresolve, hlocate, Except.ok.injEq] at hjoin
  exact List.append_cancel_left hjoin

theorem categorize_append {below rest : Location} (hrest : rest ≠ []) :
    ((categorize (extraction options) (below ++ rest)).1 = true ↔
      (below ++ rest.dropLast).head? = some options.packetsDirectory) := by
  rw [categorize, List.dropLast_append_of_ne_nil hrest]
  exact decide_eq_true_iff

/-- A file below the accepted directory is classified as one of the packets exactly when the option is the name of that
directory in the root. -/
theorem Accepted.categorize_iff (h : Accepted options tree origin below) {rest : Location} (hrest : rest ≠ []) :
    (categorize (extraction options) (below ++ rest)).1 = true ↔ below = [options.packetsDirectory] := by
  rw [categorize_append hrest, List.head?_append_of_ne_nil _ h.inside]
  constructor
  · intro hhead
    obtain ⟨-, es, hes⟩ := resolve_of_directory? h.packets
    obtain ⟨more, rfl⟩ := List.head?_eq_some_iff.1 hhead
    refine h.below_eq ?_
    cases more with
    | nil => exact ⟨es, hes⟩
    | cons next more =>
      rw [List.append_cons] at hes
      exact exists_directory_of_find?_append hes
  · rintro rfl
    rfl

theorem categorize_named (options : Options) {rest : Location} (hrest : rest ≠ []) :
    categorize (extraction options) (options.packetsDirectory :: rest) = (true, categoryOf rest.dropLast) := by
  rw [categorize, List.dropLast_cons_of_ne_nil hrest]
  simp [extraction]

/-- Without a directory of the name in the root no source is one of the packets. -/
theorem Accepted.not_inPackets (h : Accepted options tree origin below) (hother : below ≠ [options.packetsDirectory])
    {unit : SourceUnit} (hunit : unit ∈ unitsOf (extraction options) tree (tree.absolute origin)) : unit.inPackets = false := by
  obtain ⟨ms, hms⟩ := exists_walk? h.directory?_root false
  rw [unitsOf, show (extraction options).followLinks = false from rfl, hms, Option.getD_some, List.mem_filterMap] at hunit
  obtain ⟨m, hm, hunit⟩ := hunit
  rw [unitOf?] at hunit
  rcases sight_cases (extraction options) (tree.absolute origin) m with ⟨path, content, file, rfl, hsight⟩ | hsight | ⟨hsight, -⟩
  · rw [hsight] at hunit
    obtain rfl := Option.some.inj hunit
    rw [Bool.eq_false_iff]
    intro hinside
    obtain ⟨n, hn⟩ := (isWalk_of_walk? h.wellFormed h.directory?_root hms).present rfl _ hm
    -- a path among the packets goes through a directory of the name
    obtain ⟨more, hmore⟩ := List.head?_eq_some_iff.1 (decide_eq_true_iff.1 hinside)
    change path.dropLast = options.packetsDirectory :: more at hmore
    have hpath : path ≠ [] := fun hnil => by rw [hnil] at hmore; cases hmore
    rw [WalkEntry.path, ← List.dropLast_concat_getLast hpath, hmore, List.cons_append, List.append_cons] at hn
    obtain ⟨last, rest, hrest⟩ := List.exists_cons_of_ne_nil (List.append_ne_nil_of_right_ne_nil more (List.cons_ne_nil (path.getLast hpath) []))
    rw [hrest] at hn
    exact hother (h.below_eq (exists_directory_of_find?_append hn))
  · rw [hsight] at hunit
    cases hunit
  · rw [hsight] at hunit
    cases hunit

/-- Without a source among the packets there are no messages. -/
theorem messages_ofUnits_eq_empty {units : List SourceUnit} (h : ∀ u ∈ units, u.inPackets = false) :
    (ofUnits units).messages = ∅ := by
  have hinside : (units.filter fun u => u.inPackets) = [] := List.filter_eq_nil_iff.2 fun u hu => by simp [h u hu]
  rw [ofUnits, hinside]
  rfl

/-- A message at the top of a source among the packets is in the catalog under its category. -/
theorem exists_mem_messages {units : List SourceUnit} {u : SourceUnit} (hu : u ∈ units) (hinside : u.inPackets = true)
    {d : TypeDeclaration} (hd : d ∈ u.file.types) (hcandidate : isCandidate d = true) (hmessage : isMessage d = true) :
    ∃ ms, (ofUnits units).messages.find? u.category = some ms ∧ messageOf u d ∈ ms := by
  have hdeclared : messageOf u d ∈ declaredMessages units u.category := by
    refine List.mem_flatMap.2 ⟨u, List.mem_filter.2 ⟨hu, by simp [hinside]⟩, List.mem_map.2 ⟨d, ?_, rfl⟩⟩
    exact List.mem_filter.2 ⟨hd, by simp [hcandidate, hmessage]⟩
  rw [find?_messages, if_neg (List.ne_nil_of_mem hdeclared)]
  exact ⟨_, rfl, (List.mergeSort_perm _ _).mem_iff.2 hdeclared⟩

/-- A source below the directory of the name is read as one of the packets. -/
theorem Accepted.mem_unitsOf (h : Accepted options tree origin [options.packetsDirectory]) {rest : Location} {bytes : List UInt8}
    {file : SourceFile} (hfind : tree.top.find? (origin ++ ([options.packetsDirectory] ++ rest)) = some (.file bytes))
    (hsource : isSource (extraction options) ([options.packetsDirectory] ++ rest) = true)
    (hshort : isLongPath (joinPath (tree.absolute origin) (joined ([options.packetsDirectory] ++ rest))) = false)
    (hopens : tree.Searchable (origin ++ [options.packetsDirectory]) rest)
    (hparse : parseContent (tree.absolute origin ++ "/" ++ joined ([options.packetsDirectory] ++ rest)) (.ok bytes) = .ok file) :
    ⟨joined ([options.packetsDirectory] ++ rest), true, categoryOf rest.dropLast, file⟩ ∈
      unitsOf (extraction options) tree (tree.absolute origin) := by
  obtain ⟨-, es, hes⟩ := resolve_of_directory? h.packets
  have hrest : rest ≠ [] := by
    rintro rfl
    rw [List.append_nil, hes] at hfind
    cases hfind
  have hnames : ∀ name ∈ [options.packetsDirectory] ++ rest, IsName name := fun name hname =>
    h.wellFormed.top.isName hfind name (List.mem_append_right _ hname)
  obtain ⟨ms, hms⟩ := exists_walk? h.directory?_root false
  have hmem := (isWalk_of_walk? h.wellFormed h.directory?_root hms).complete hfind rfl
    ⟨usable_of_short hnames hshort, hopens.cons h.opens.2⟩
  have hcontent : contentAt (tree.absolute origin) ([options.packetsDirectory] ++ rest) (.ok bytes) = .ok bytes := by
    rw [contentAt]
    exact if_neg (Bool.eq_false_iff.1 hshort)
  rw [hcontent] at hmem
  rw [unitsOf, show (extraction options).followLinks = false from rfl, hms, Option.getD_some, List.mem_filterMap]
  refine ⟨_, hmem, ?_⟩
  have hcategory := categorize_named options hrest
  rw [unitOf?, sight_parsed hsource hparse, List.singleton_append, hcategory]
  rfl

/-- A run goes on with the packets that it accepts. When the option is the name of a directory in the root, every source
that open directories below that one lead to is one of the packets, and its messages are in the catalog under the category
of their directory; otherwise none is, and there are no messages. -/
theorem extractSources_packets (h : Accepted options tree origin below) :
    (∀ rest, rest ≠ [] →
      ((categorize (extraction options) (below ++ rest)).1 = true ↔ below = [options.packetsDirectory])) ∧
    (overflows (unitsOf (extraction options) tree (tree.absolute origin)) = false →
      ∃ c, extractSources options tree (tree.absolute origin) = .ok c) ∧
    ∀ c, extractSources options tree (tree.absolute origin) = .ok c →
      (below = [options.packetsDirectory] → ∀ rest bytes file,
        tree.top.find? (origin ++ (below ++ rest)) = some (.file bytes) → isSource (extraction options) (below ++ rest) = true →
        isLongPath (joinPath (tree.absolute origin) (joined (below ++ rest))) = false →
        tree.Searchable (origin ++ below) rest →
        parseContent (tree.absolute origin ++ "/" ++ joined (below ++ rest)) (.ok bytes) = .ok file →
        ∀ d ∈ file.types, isCandidate d = true → isMessage d = true → ∃ ms,
          c.messages.find? (categoryOf rest.dropLast) = some ms ∧
            messageOf ⟨joined (below ++ rest), true, categoryOf rest.dropLast, file⟩ d ∈ ms) ∧
      (below ≠ [options.packetsDirectory] → c.messages = ∅) := by
  refine ⟨fun rest hrest => h.categorize_iff hrest, fun hsmall => ?_, fun c hc => ?_⟩
  · rw [extractSources, ← extraction, extract_eq h.directory?_root hsmall]
    exact ⟨_, rfl⟩
  · rw [extractSources, ← extraction, Except.mapError_eq_ok_iff] at hc
    obtain ⟨skipped, rfl⟩ := ofUnits_of_extract hc
    refine ⟨?_, fun hother => messages_ofUnits_eq_empty fun u hu => h.not_inPackets hother hu⟩
    rintro rfl rest bytes file hfind hsource hshort hopens hparse d hd hcandidate hmessage
    exact exists_mem_messages (h.mem_unitsOf hfind hsource hshort hopens hparse) rfl hd hcandidate hmessage

end

/-! Packets in a directory of the root. -/

namespace Sample

def text : String := "class Ping implements Packet \x7b\x7d"

def tree : FileTree := {
  mount := "/m"
  top := .directory [("net", .directory [("packets", .directory [("Ping.java", .file (utf8 text.toList))])])] }

def options (packetsDirectory : String) : Options := { sourceDirectory := "/m", packetsDirectory }

theorem wellFormed : tree.WellFormed := by
  have hfile : (FileNode.directory [("Ping.java", .file (utf8 text.toList))]).WellFormed :=
    wellFormed_directory (by decide) (by decide +kernel) (by simpa using wellFormed_of_entries_nil rfl)
  refine ⟨wellFormed_directory (by decide) (by decide +kernel) ?_, fun _ => by decide +kernel⟩
  simpa using wellFormed_directory (by decide) (by decide +kernel) (by simpa using hfile)

end Sample

/-- The message is found under its directory when the option is the name of the first directory, and not when it spells the
second one. -/
theorem extractSources_packets_net :
    Accepted (Sample.options "net") Sample.tree [] ["net"] ∧ Accepted (Sample.options "net/packets") Sample.tree [] ["net", "packets"] ∧
      (∃ c ms m, extractSources (Sample.options "net") Sample.tree "/m" = .ok c ∧ c.messages.find? "packets" = some ms ∧
        m ∈ ms ∧ m.id = ⟨"Ping", "", "packets", "net/packets/Ping.java"⟩) ∧
      ∃ c, extractSources (Sample.options "net/packets") Sample.tree "/m" = .ok c ∧ c.messages = ∅ := by
  have hnet : Accepted (Sample.options "net") Sample.tree [] ["net"] :=
    ⟨Sample.wellFormed, by decide +kernel, by decide +kernel, by decide +kernel, by decide⟩
  have hpackets : Accepted (Sample.options "net/packets") Sample.tree [] ["net", "packets"] :=
    ⟨Sample.wellFormed, by decide +kernel, by decide +kernel, by decide +kernel, by decide⟩
  have hroot : Sample.tree.absolute [] = "/m" := by decide +kernel
  obtain ⟨-, hsucceeds, hfound⟩ := extractSources_packets hnet
  obtain ⟨c, hc⟩ := hsucceeds (by decide +kernel)
  obtain ⟨-, hsucceeds', hnone⟩ := extractSources_packets hpackets
  obtain ⟨c', hc'⟩ := hsucceeds' (by decide +kernel)
  have hparsed : (parseContent "/m/net/packets/Ping.java" (.ok (utf8 Sample.text.toList))).map (fun file =>
      (file.package, file.types.map fun d => (d.name, isCandidate d, isMessage d))) = .ok ("", [("Ping", true, true)]) := by
    decide +kernel
  obtain ⟨file, hparse, hfile⟩ := Except.map_eq_ok_iff.1 hparsed
  obtain ⟨hpackage, htypes⟩ := Prod.mk.inj hfile
  obtain ⟨d, rest, htypes, hd, -⟩ := List.map_eq_cons_iff.1 htypes
  obtain ⟨hname, hcandidate, hmessage⟩ : d.name = "Ping" ∧ isCandidate d = true ∧ isMessage d = true := by simpa using hd
  have hcategory : categoryOf ["packets", "Ping.java"].dropLast = "packets" := by decide +kernel
  rw [hroot] at hc hc' hfound hnone
  obtain ⟨ms, hms, hmem⟩ := (hfound c hc).1 rfl ["packets", "Ping.java"] _ file rfl (by decide +kernel) (by decide +kernel)
    (fun _ _ _ _ => List.not_mem_nil) hparse d (htypes ▸ List.mem_cons_self) hcandidate hmessage
  rw [hcategory] at hms hmem
  refine ⟨hnet, hpackets, ⟨c, ms, _, hc, hms, hmem, ?_⟩, c', hc', (hnone c' hc').2 (by decide)⟩
  change (⟨d.name, file.package, "packets", joined ["net", "packets", "Ping.java"]⟩ : EntityId) = _
  rw [hname, hpackage]
  rfl

/-- The check of the paths lets two spellings of a directory pass, one with two names and one with a slash at the end, and
the extraction finds no messages there, though the file below declares one. -/
theorem no_messages_below_accepted :
    (checkPaths (Sample.options "net/packets") Sample.tree "/m" = .ok () ∧
      Sample.tree.directory? (joinPath "/m" "net/packets") = some ["net", "packets"] ∧
      (categorize (extraction (Sample.options "net/packets")) ["net", "packets", "Ping.java"]).1 = false ∧
      (extractSources (Sample.options "net/packets") Sample.tree "/m").map (·.messages.entries.length) = .ok 0) ∧
    (checkPaths (Sample.options "net/") Sample.tree "/m" = .ok () ∧
      Sample.tree.directory? (joinPath "/m" "net/") = some ["net"] ∧
      (categorize (extraction (Sample.options "net/")) ["net", "packets", "Ping.java"]).1 = false ∧
      (extractSources (Sample.options "net/") Sample.tree "/m").map (·.messages.entries.length) = .ok 0) ∧
    (SourceFile.parse "Ping.java" Sample.text).map (·.types.map isMessage) = .ok [true] := by
  refine ⟨⟨?_, ?_, ?_, ?_⟩, ⟨?_, ?_, ?_, ?_⟩, ?_⟩
  all_goals decide +kernel

end WireLayout.Command
