import WireLayout.Pipeline
import WireLayout.Proofs.Batch.Run
import WireLayout.Proofs.Catalog.Extraction
import WireLayout.Proofs.FileTree.Resolve
import WireLayout.Proofs.Inference

/-! Which layout a message is emitted with. Layouts are kept by simple name, and messages that share a name
share the layout of the last call of the name that succeeded. Where no other message of the name has
another bundle, that is the layout of the message's own bundle. -/

namespace WireLayout

theorem Catalog.message_mem_emissions {c : Catalog} {layouts : LayoutIndex} {m : Message}
    {layout : Option Layout} :
    Emission.message m layout ∈ c.emissions layouts ↔
      m ∈ c.allMessages ∧ layout = layouts.find? m.id.name := by
  simp only [Catalog.emissions, List.mem_append, List.mem_map, Emission.message.injEq, reduceCtorEq,
    and_false, exists_false, or_false]
  constructor
  · rintro ⟨_, hm, rfl, rfl⟩
    exact ⟨hm, rfl⟩
  · rintro ⟨hm, rfl⟩
    exact ⟨m, hm, rfl, rfl⟩

/-! Two messages of one name in different categories, of which only the second reads itself. -/

namespace Namesakes

def source (text : String) : FileNode := .directory [("Ping.java", .file (Text.utf8 text.toList))]

def tree : FileTree := {
  mount := "/t"
  top := .directory [("packets", .directory [
    ("a", source "class Ping implements Packet\x7bint x;\x7d"),
    ("b", source ("class Ping implements Packet\x7bint y;" ++
      "T deserialize(B b,int i)\x7bp.y=b.getIntLE(i);\x7d\x7d"))])] }

def bare : Message := {
  id := ⟨"Ping", "", "a", "packets/a/Ping.java"⟩
  constants := {}
  fields := [{ name := "x", type := "int", nullable := false }]
  imports := []
  bundle := none }

def bundle : Bundle := {
  entity := "Ping"
  package := ""
  constants := {}
  fields := [{ name := "y", type := "int", nullable := false }]
  routine := "T deserialize(B b,int i)\x7bp.y=b.getIntLE(i);\x7d" }

def bundled : Message := {
  id := ⟨"Ping", "", "b", "packets/b/Ping.java"⟩
  constants := {}
  fields := bundle.fields
  imports := []
  bundle := some bundle }

def catalog : Catalog := { messages := ⟨[("a", [bare]), ("b", [bundled])], by decide +kernel⟩ }

def layout : Layout := {
  entity := "Ping"
  fields := [⟨"y", .fixed 0, .fixed 4, .i32le, false, none, none, .verified⟩]
  totalFixedSize := 4
  hasVariableSection := false
  variableSectionStart := none
  nullBits := ∅
  notes := none }

theorem extract_tree : Catalog.extract {} tree "/t" = .ok catalog := by
  have hd : tree.directory? "/t" = some [] :=
    FileTree.directory?_mount (by decide) (by decide +kernel) rfl
  rw [Catalog.extract, FileTree.walk?, hd]
  decide +kernel

theorem run_catalog : ∃ s, Batch.run {} {} (Batch.engineCall .offline) catalog.allMessages = .ok s ∧
    s.layouts.find? "Ping" = some layout := by
  have hrun : (Batch.run {} {} (Batch.engineCall .offline) catalog.allMessages).toOption.bind
      (fun s => s.layouts.find? "Ping") = some layout := by decide +kernel
  cases hr : Batch.run {} {} (Batch.engineCall .offline) catalog.allMessages with
  | error halt => rw [hr] at hrun; cases hrun
  | ok s => rw [hr] at hrun; exact ⟨s, rfl, hrun⟩

end Namesakes

section

variable {extraction : ExtractionConfig} {tree : FileTree} {root : String} {c : Catalog}
  {config : Batch.Config} {cancellation : Batch.Cancellation} {inference : Bundle → Batch.Call}
  {engine : Engine} {s : Batch.State}

/-- All messages of the sources are emitted, each with the layout of the last call of its name that succeeded,
inferred from the bundle of a message of the name. When no message of the name has another bundle, it is
the layout that the call of the message's own bundle gives, and none when that call fails or there is no
bundle. -/
theorem emitted_layouts (hc : Catalog.extract extraction tree root = .ok c)
    (ha : Batch.AnswersOf engine inference)
    (hr : Batch.run config cancellation inference c.allMessages = .ok s) :
    c.allMessages.Perm
        (((Catalog.unitsOf extraction tree root).filter (·.inPackets)).flatMap Catalog.messagesOf) ∧
      ∃ calls : List Batch.Resolved,
        calls.map Batch.Resolved.pending <+: Batch.pending c.allMessages ∧
        (∀ r ∈ calls, r.IsCall config cancellation.at_ inference) ∧
        (∀ m layout, Emission.message m layout ∈ c.emissions s.layouts ↔
          m ∈ c.allMessages ∧ layout = Batch.lastLayout calls m.id.name) ∧
        (∀ name layout, Batch.lastLayout calls name = some layout →
          ∃ m ∈ c.allMessages, m.id.name = name ∧ ∃ b requests, m.bundle = some b ∧
            engine.infer b = .ok ⟨.ok layout, requests⟩ ∧
            ∀ f ∈ layout.fields, f.name ∈ m.fields.map (·.name)) ∧
        ∀ m ∈ c.allMessages,
          (∀ m' ∈ c.allMessages, m'.id.name = m.id.name → m'.bundle = none ∨ m'.bundle = m.bundle) →
          ∀ layout, Emission.message m (some layout) ∈ c.emissions s.layouts ↔
            ∃ r ∈ calls, r.name = m.id.name ∧ m.bundle = some r.bundle ∧ r.ending.result = .ok layout := by
  refine ⟨Catalog.allMessages_extract hc, ?_⟩
  obtain ⟨calls, hprefix, hcalls, hlayouts⟩ := Batch.run_eq_ok hr
  have hfind : ∀ name, s.layouts.find? name = Batch.lastLayout calls name := by
    intro name
    rw [hlayouts, Batch.find?_foldl_accept, SortedMap.find?_empty, Option.or_none]
  refine ⟨calls, hprefix, hcalls, fun m layout => ?_, fun name layout hl => ?_, fun m hm hone layout => ?_⟩
  · rw [Catalog.message_mem_emissions, hfind]
  · obtain ⟨r, hrc, rfl, hresult⟩ := Batch.exists_of_lastLayout hl
    obtain ⟨m, hm, hn, hb⟩ := Batch.message_of_call hprefix hrc
    obtain ⟨requests, hinfer⟩ := Batch.infer_of_call ha (hcalls r hrc) hresult
    refine ⟨m, hm, hn, r.bundle, requests, hb, hinfer, fun f hf => ?_⟩
    rw [← Catalog.fieldNames_of_bundle hc hm hb]
    exact (Engine.coherent_of_infer hinfer rfl).2.records.declared f hf
  · rw [Catalog.message_mem_emissions, hfind, ← Batch.lastLayout_eq_some_iff hprefix hcalls hone]
    exact ⟨fun h => h.2.symm, fun h => ⟨hm, h.symm⟩⟩

end

/-- Of two messages of one name, the one with a routine gets the layout of its own call. -/
theorem emitted_layouts_namesakes :
    ∃ s, Batch.run {} {} (Batch.engineCall .offline) Namesakes.catalog.allMessages = .ok s ∧
      ∃ calls : List Batch.Resolved,
        calls.map Batch.Resolved.pending <+: Batch.pending Namesakes.catalog.allMessages ∧
        ∃ r ∈ calls, r.name = "Ping" ∧ r.bundle = Namesakes.bundle ∧
          r.ending.result = .ok Namesakes.layout := by
  obtain ⟨s, hr, hl⟩ := Namesakes.run_catalog
  obtain ⟨-, calls, hprefix, -, -, -, hown⟩ :=
    emitted_layouts Namesakes.extract_tree (Batch.answersOf_engineCall _) hr
  have hmem : Namesakes.bundled ∈ Namesakes.catalog.allMessages :=
    List.mem_of_mem_tail (List.mem_singleton_self _)
  have hone : ∀ m' ∈ Namesakes.catalog.allMessages, m'.id.name = Namesakes.bundled.id.name →
      m'.bundle = none ∨ m'.bundle = Namesakes.bundled.bundle := by decide +kernel
  have hemitted := Catalog.message_mem_emissions.2 ⟨hmem, hl.symm⟩
  obtain ⟨r, hrc, hn, hb, hresult⟩ := (hown _ hmem hone _).1 hemitted
  exact ⟨s, hr, calls, hprefix, r, hrc, hn, (Option.some.inj hb).symm, hresult⟩

/-- The other one has no routine, and gets a layout with a field that it does not declare. -/
theorem foreign_layout_of_namesake :
    ∃ c s m layout, Catalog.extract {} Namesakes.tree "/t" = .ok c ∧
      Batch.run {} {} (Batch.engineCall .offline) c.allMessages = .ok s ∧
      Emission.message m (some layout) ∈ c.emissions s.layouts ∧ m.bundle = none ∧
      ∃ f ∈ layout.fields, f.name ∉ m.fields.map (·.name) := by
  obtain ⟨s, hr, hl⟩ := Namesakes.run_catalog
  refine ⟨_, s, Namesakes.bare, Namesakes.layout, Namesakes.extract_tree, hr, ?_, rfl, _,
    List.mem_cons_self, by decide +kernel⟩
  exact Catalog.message_mem_emissions.2 ⟨List.mem_cons_self, hl.symm⟩

end WireLayout
