import WireLayout.Proofs.Pipeline

/-! What the counts add up to. A layout of a run is of one message and has records of fields that the message declares,
each once; so every declared field is counted exactly once, by the evidence of its record or as one without, and
every layout is counted with its message. -/

namespace WireLayout

open WireLayout.Batch

/-- Of items with distinct keys, those with a key in a list are as many as the list is long, when it lists keys of items
only and each of them once. -/
theorem countP_eq_length {α : Type} {key : α → String} {xs : List α} {keys : List String} {p : α → Bool}
    (hxs : (xs.map key).Nodup) (hkeys : keys.Nodup) (hsub : ∀ k ∈ keys, k ∈ xs.map key)
    (hp : ∀ x, p x = true ↔ key x ∈ keys) : xs.countP p = keys.length := by
  have hperm : ((xs.filter p).map key).Perm keys := by
    refine (List.perm_ext_iff_of_nodup (hxs.sublist (List.filter_sublist.map _)) hkeys).2 fun k => ?_
    constructor
    · intro hk
      obtain ⟨x, hx, rfl⟩ := List.mem_map.1 hk
      exact (hp x).1 (List.mem_filter.1 hx).2
    · intro hk
      obtain ⟨x, hx, rfl⟩ := List.mem_map.1 (hsub k hk)
      exact List.mem_map_of_mem (List.mem_filter.2 ⟨hx, (hp x).2 hk⟩)
  rw [List.countP_eq_length_filter, ← hperm.length_eq, List.length_map]

/-! One message. -/

theorem Layout.countEvidence_add (l : Layout) :
    l.countEvidence .verified + l.countEvidence .inferred = l.fields.length := by
  rw [countEvidence, countEvidence, List.length_eq_countP_add_countP fun f : FieldLayout => f.evidence = .verified]
  congr 1
  refine List.countP_congr fun f _ => ?_
  cases f.evidence <;> simp

theorem Layout.isSome_field?_iff {l : Layout} {name : String} :
    (l.field? name).isSome = true ↔ name ∈ l.fields.map (·.name) := by
  rw [field?, List.find?_isSome, List.mem_map]
  simp

/-- The declared fields are those with a record and those without one. -/
theorem Message.countP_bare {m : Message} {l : Layout} (hm : (m.fields.map (·.name)).Nodup)
    (hl : Records (m.fields.map (·.name)) l.fields) :
    l.fields.length + (m.resolvedFields (some l)).countP (fun r => r.2.isNone) = m.fields.length := by
  have hrecorded : m.fields.countP (fun f => (l.field? f.name).isSome) = (l.fields.map (·.name)).length :=
    countP_eq_length hm hl.distinct (List.forall_mem_map.2 hl.declared) fun f => Layout.isSome_field?_iff
  rw [List.length_map] at hrecorded
  rw [← hrecorded, resolvedFields, List.countP_map,
    List.length_eq_countP_add_countP (l := m.fields) fun f => (l.field? f.name).isSome]
  congr 1
  refine List.countP_congr fun f _ => ?_
  simp

/-! One entity after another. -/

namespace Emission

def hasLayout : Emission → Bool
  | message _ layout => layout.isSome
  | _ => false

def fieldCount : Emission → Nat
  | message m _ => m.fields.length
  | _ => 0

/-- The names of the fields of a message are distinct, and its layout, if it has one, is of these fields. -/
def Accountable : Emission → Prop
  | message m layout =>
    (m.fields.map (·.name)).Nodup ∧ ∀ l, layout = some l → Records (m.fields.map (·.name)) l.fields
  | _ => True

end Emission

namespace Statistics

/-- The fields that are counted, with a record or without one. -/
def fieldCount (s : Statistics) : Nat := s.verified + s.inferred + s.bareFields

theorem add_withLayout (s : Statistics) (e : Emission) :
    (s.add e).withLayout = s.withLayout + if e.hasLayout then 1 else 0 := by
  cases e <;> rfl

theorem add_fieldCount (s : Statistics) {e : Emission} (h : e.Accountable) :
    (s.add e).fieldCount = s.fieldCount + e.fieldCount := by
  cases e with
  | enumeration e => rfl
  | dataType d => rfl
  | message m layout =>
    cases layout with
    | none =>
      have hbare : (m.resolvedFields none).countP (fun r => r.2.isNone) = m.fields.length := by
        simp [Message.resolvedFields]
      simp only [add, addMessage, fieldCount, Emission.fieldCount, Option.map_none, Option.getD_none, hbare]
      omega
    | some l =>
      have hfields := Message.countP_bare h.1 (h.2 l rfl)
      have hrecords := l.countEvidence_add
      simp only [add, addMessage, fieldCount, Emission.fieldCount, Option.map_some, Option.getD_some]
      omega

theorem foldl_add_withLayout (es : List Emission) (s : Statistics) :
    (es.foldl add s).withLayout = s.withLayout + es.countP Emission.hasLayout := by
  induction es generalizing s with
  | nil => rfl
  | cons e rest ih =>
    rw [List.foldl_cons, ih, add_withLayout, List.countP_cons]
    omega

theorem foldl_add_fieldCount {es : List Emission} (h : ∀ e ∈ es, e.Accountable) (s : Statistics) :
    (es.foldl add s).fieldCount = s.fieldCount + (es.map Emission.fieldCount).sum := by
  induction es generalizing s with
  | nil => rfl
  | cons e rest ih =>
    obtain ⟨he, hrest⟩ := List.forall_mem_cons.1 h
    rw [List.foldl_cons, ih hrest, add_fieldCount s he, List.map_cons, List.sum_cons]
    omega

/-! A catalog. -/

variable {c : Catalog} {layouts : LayoutIndex}

/-- Where no two messages have one name, and each layout is of the name of a message, every layout is counted. -/
theorem ofCatalog_withLayout (hnames : (c.allMessages.map (·.id.name)).Nodup)
    (hkeys : ∀ name ∈ layouts.keys, name ∈ c.allMessages.map (·.id.name)) :
    (ofCatalog c layouts).withLayout = layouts.size := by
  have hcounted : c.allMessages.countP (fun m => (layouts.find? m.id.name).isSome) = layouts.keys.length :=
    countP_eq_length hnames layouts.nodup_keys hkeys fun _ => SortedMap.mem_keys_iff.symm
  rw [SortedMap.keys, List.length_map] at hcounted
  rw [SortedMap.size, ← hcounted, ofCatalog, foldl_add_withLayout, Catalog.emissions]
  simp [List.countP_map, Function.comp_def, Emission.hasLayout]

theorem ofCatalog_fieldCount
    (h : ∀ m ∈ c.allMessages, (Emission.message m (layouts.find? m.id.name)).Accountable) :
    (ofCatalog c layouts).fieldCount = (c.allMessages.map fun m => m.fields.length).sum := by
  have hall : ∀ e ∈ c.emissions layouts, e.Accountable := by
    simp only [Catalog.emissions, List.forall_mem_append, List.forall_mem_map]
    exact ⟨⟨h, fun _ _ => trivial⟩, fun _ _ => trivial⟩
  rw [ofCatalog, foldl_add_fieldCount hall, Catalog.emissions]
  simp [fieldCount, Function.comp_def, Emission.fieldCount]

end Statistics

section

variable {extraction : ExtractionConfig} {tree : FileTree} {root : String} {c : Catalog}
  {config : Batch.Config} {cancellation : Batch.Cancellation} {inference : Bundle → Batch.Call}
  {engine : Engine} {s : Batch.State}

/-- A layout of a run is of the name of a message, and has records of fields that the message declares. -/
theorem records_of_run (hc : Catalog.extract extraction tree root = .ok c) (ha : AnswersOf engine inference)
    (hr : run config cancellation inference c.allMessages = .ok s) {name : String} {layout : Layout}
    (hl : s.layouts.find? name = some layout) :
    ∃ m ∈ c.allMessages, m.id.name = name ∧ Records (m.fields.map (·.name)) layout.fields := by
  obtain ⟨calls, hprefix, hcalls, hlayouts⟩ := run_eq_ok hr
  rw [hlayouts, find?_foldl_accept, SortedMap.find?_empty, Option.or_none] at hl
  obtain ⟨r, hrc, rfl, hresult⟩ := exists_of_lastLayout hl
  obtain ⟨m, hm, hn, hb⟩ := message_of_call hprefix hrc
  obtain ⟨requests, hinfer⟩ := infer_of_call ha (hcalls r hrc) hresult
  refine ⟨m, hm, hn, ?_⟩
  rw [← Catalog.fieldNames_of_bundle hc hm hb]
  exact (Engine.coherent_of_infer hinfer rfl).2.records

/-- Where no two messages have one name, and no two fields of a message, every layout of a run is counted, and every
declared field is counted exactly once: by the evidence of its record, or as one without a record. -/
theorem Statistics.ofCatalog_accounts (hc : Catalog.extract extraction tree root = .ok c)
    (hnames : (c.allMessages.map (·.id.name)).Nodup)
    (hfields : ∀ m ∈ c.allMessages, (m.fields.map (·.name)).Nodup) (ha : AnswersOf engine inference)
    (hr : run config cancellation inference c.allMessages = .ok s) :
    (ofCatalog c s.layouts).withLayout = s.layouts.size ∧
      (ofCatalog c s.layouts).verified + (ofCatalog c s.layouts).inferred + (ofCatalog c s.layouts).bareFields =
        (c.allMessages.map fun m => m.fields.length).sum := by
  constructor
  · refine ofCatalog_withLayout hnames fun name hname => ?_
    obtain ⟨layout, hl⟩ := Option.isSome_iff_exists.1 (SortedMap.mem_keys_iff.1 hname)
    obtain ⟨m, hm, hn, -⟩ := records_of_run hc ha hr hl
    exact List.mem_map.2 ⟨m, hm, hn⟩
  · refine ofCatalog_fieldCount fun m hm => ⟨hfields m hm, fun layout hl => ?_⟩
    -- the message that the layout is of has the name of this one, so it is this one
    obtain ⟨m', hm', hn, hrecords⟩ := records_of_run hc ha hr hl
    rwa [← List.inj_on_of_nodup_map hnames hm' hm hn]

end

/-! A message that is read from its routine, and one of whose two fields the oracle knows one. -/

namespace Census

def tree : FileTree := {
  mount := "/t"
  top := .directory [("packets", .directory [
    ("a", .directory [("Pong.java", .file (Text.utf8 ("class Pong implements Packet\x7bint a;int b;" ++
      "T deserialize(B b,int i)\x7b\x7d\x7d").toList))]),
    ("b", Namesakes.source ("class Ping implements Packet\x7bint y;" ++
      "T deserialize(B b,int i)\x7bp.y=b.getIntLE(i);\x7d\x7d"))])] }

def bundle : Bundle := {
  entity := "Pong"
  package := ""
  constants := {}
  fields := ["a", "b"].map fun name => { name, type := "int", nullable := false }
  routine := "T deserialize(B b,int i)\x7b\x7d" }

def pong : Message := {
  id := ⟨"Pong", "", "a", "packets/a/Pong.java"⟩
  constants := {}
  fields := bundle.fields
  imports := []
  bundle := some bundle }

def catalog : Catalog := { messages := ⟨[("a", [pong]), ("b", [Namesakes.bundled])], by decide⟩ }

def engine : Engine := .withOracle fun _ =>
  .ok (.obj [("fields", .arr [.obj [("name", .str "a"), ("encoding", .str "u8")]])])

theorem extract_tree : Catalog.extract {} tree "/t" = .ok catalog := by
  have hd : tree.directory? "/t" = some [] :=
    FileTree.directory?_mount (by decide) (by decide +kernel) rfl
  rw [Catalog.extract, FileTree.walk?, hd]
  decide +kernel

theorem run_catalog : ∃ s, run {} {} (engineCall engine) catalog.allMessages = .ok s ∧
    s.layouts.keys = ["Ping", "Pong"] := by
  have hrun : (run {} {} (engineCall engine) catalog.allMessages).toOption.map (·.layouts.keys) =
      some ["Ping", "Pong"] := by decide +kernel
  cases hr : run {} {} (engineCall engine) catalog.allMessages with
  | error halt => rw [hr] at hrun; cases hrun
  | ok s => rw [hr] at hrun; exact ⟨s, rfl, Option.some.inj hrun⟩

end Census

/-- Of three declared fields one is without a record, and both layouts are counted. -/
theorem Statistics.ofCatalog_accounts_census :
    ∃ s, run {} {} (engineCall Census.engine) Census.catalog.allMessages = .ok s ∧
      s.layouts.keys = ["Ping", "Pong"] ∧ (Statistics.ofCatalog Census.catalog s.layouts).withLayout = 2 ∧
      (Statistics.ofCatalog Census.catalog s.layouts).verified +
        (Statistics.ofCatalog Census.catalog s.layouts).inferred +
        (Statistics.ofCatalog Census.catalog s.layouts).bareFields = 3 := by
  obtain ⟨s, hr, hkeys⟩ := Census.run_catalog
  have hsize : s.layouts.size = 2 := by
    simpa [SortedMap.keys, SortedMap.size] using congrArg List.length hkeys
  obtain ⟨hlayouts, hfields⟩ := Statistics.ofCatalog_accounts Census.extract_tree (by decide) (by decide)
    (answersOf_engineCall _) hr
  exact ⟨s, hr, hkeys, hlayouts.trans hsize, hfields⟩

end WireLayout
