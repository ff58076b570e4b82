import Mathlib.Data.List.Infix
import WireLayout.Batch.Run
import WireLayout.Proofs.Except
import WireLayout.Proofs.SortedMap

/-! The calls of a run. A run that ends has made the calls of the first so many pending messages, in their
order and each under the limits of the run. The layout it leaves for a name is that of the last call of
the name that succeeded. -/

namespace WireLayout.Batch

theorem flatten_groupsOf {α : Type} {size : Nat} (h : 0 < size) {fuel : Nat} {xs : List α}
    (hf : xs.length ≤ fuel) : (groupsOf size fuel xs).flatten = xs := by
  induction fuel generalizing xs with
  | zero =>
    rw [Nat.le_zero, List.length_eq_zero_iff] at hf
    rw [hf]
    rfl
  | succ fuel ih =>
    unfold groupsOf
    cases xs with
    | nil => rfl
    | cons x rest =>
      have hdrop : ((x :: rest).drop size).length ≤ fuel := by
        rw [List.length_drop]
        omega
      simp only [List.isEmpty_cons, Bool.false_eq_true, if_false, List.flatten_cons]
      rw [ih hdrop, List.take_append_drop]

theorem groupSize_pos (config : Config) : 0 < config.groupSize := by
  unfold Config.groupSize
  omega

theorem outcome_of_ending {call : Call} {name : String} {timeout cancelAt : Option Nat} {start : Nat}
    {e : Ending} (h : call.ending name timeout cancelAt start = .ok e) {layout : Layout}
    (hl : e.result = .ok layout) : call.outcome = .answers (.ok layout) := by
  have hgiven : giveUp name timeout cancelAt start call.delay = .ok e →
      call.outcome = .answers (.ok layout) := by
    intro hg
    unfold giveUp at hg
    split at hg
    · cases hg
    · cases hg; cases hl
    · cases hg; cases hl
    · split at hg <;> cases hg <;> cases hl
  unfold Call.ending at h
  simp only at h
  split at h
  · rename_i result hanswers
    split at h
    · cases h
      rw [hanswers]
      exact congrArg Outcome.answers hl
    · exact hgiven h
  · split at h
    · cases h
    · exact hgiven h
  · exact hgiven h

def Due.pending (d : Due) : Pending := (d.name, d.bundle)

namespace Resolved

def pending (r : Resolved) : Pending := (r.name, r.bundle)

/-- A call of an inference that ended under the limits of a run, made at some instant. -/
def IsCall (config : Config) (cancelAt : Option Nat) (inference : Bundle → Call) (r : Resolved) : Prop :=
  r.call = inference r.bundle ∧
    ∃ start, r.call.ending r.name config.timeout cancelAt start = .ok r.ending

end Resolved

theorem pending_plan (inference : Bundle → Call) (messages : List Message) :
    (plan inference messages).map Due.pending = pending messages := by
  rw [plan, List.map_map]
  exact List.map_id _

theorem resolve_eq_ok_iff {config : Config} {s : State} (hs : s.cancelled = false) {d : Due} {r : Resolved} :
    resolve config s d = .ok r ↔
      r.toDue = d ∧ r.start = s.now ∧ d.call.ending d.name config.timeout s.cancelAt s.now = .ok r.ending := by
  unfold resolve
  simp only [hs, Bool.false_eq_true, if_false]
  rw [Except.bind_eq_ok_iff]
  constructor
  · rintro ⟨ending, hending, h⟩
    cases h
    exact ⟨rfl, rfl, hending⟩
  · rintro ⟨rfl, hstart, hending⟩
    refine ⟨r.ending, hending, ?_⟩
    rw [← hstart]

section

variable {config : Config} {cancellation : Cancellation} {total groups : Nat} {s s' : State}

/-- What one group does, unless the run is cancelled: it makes its calls, and takes over what they gave. -/
theorem runGroup_eq_ok (hs : s.cancelled = false) {group : List Due × Nat}
    (h : runGroup config cancellation total groups s group = .ok s') :
    ∃ calls : List Resolved, calls.map Resolved.toDue = group.1 ∧
      (∀ r ∈ calls, r.call.ending r.name config.timeout s.cancelAt r.start = .ok r.ending) ∧
      s'.layouts = calls.foldl accept s.layouts ∧ s'.cancelAt = s.cancelAt := by
  unfold runGroup at h
  simp only [hs, Bool.false_eq_true, if_false] at h
  obtain ⟨calls, hcalls, h⟩ := Except.bind_eq_ok_iff.1 h
  cases h
  refine ⟨calls, ?_, fun r hr => ?_, rfl, rfl⟩
  · have hall : List.Forall₂ (fun d r => d = Resolved.toDue r) group.1 calls :=
      (Except.forall₂_of_mapM hcalls).imp fun _ _ hr => ((resolve_eq_ok_iff hs).1 hr).1.symm
    exact (List.forall₂_eq_eq_eq ▸ List.forall₂_map_right_iff.2 hall : group.1 = _).symm
  · obtain ⟨d, -, hd⟩ := Except.exists_of_mem_mapM hcalls hr
    obtain ⟨rfl, hstart, hending⟩ := (resolve_eq_ok_iff hs).1 hd
    rw [hstart]
    exact hending

theorem foldlM_runGroup_of_cancelled (hs : s.cancelled = true) (gs : List (List Due × Nat)) :
    gs.foldlM (runGroup config cancellation total groups) s = .ok s := by
  induction gs with
  | nil => rfl
  | cons g rest ih =>
    rw [List.foldlM_cons, runGroup, if_pos hs]
    exact ih

/-- The groups of a run, by induction: once it is cancelled it makes no further call. -/
theorem foldlM_runGroup_eq_ok {gs : List (List Due × Nat)}
    (h : gs.foldlM (runGroup config cancellation total groups) s = .ok s') :
    ∃ calls : List Resolved, calls.map Resolved.toDue <+: (gs.map (·.1)).flatten ∧
      (∀ r ∈ calls, r.call.ending r.name config.timeout s.cancelAt r.start = .ok r.ending) ∧
      s'.layouts = calls.foldl accept s.layouts := by
  induction gs generalizing s with
  | nil =>
    cases h
    exact ⟨[], by simp, by simp, rfl⟩
  | cons g rest ih =>
    cases hs : s.cancelled with
    | true =>
      rw [foldlM_runGroup_of_cancelled hs] at h
      cases h
      exact ⟨[], List.nil_prefix, by simp, rfl⟩
    | false =>
      rw [List.foldlM_cons] at h
      obtain ⟨next, hnext, h⟩ := Except.bind_eq_ok_iff.1 h
      obtain ⟨first, hdue, hfirst, hlayouts, hat⟩ := runGroup_eq_ok hs hnext
      obtain ⟨later, hbegins, hlater, hfinal⟩ := ih h
      refine ⟨first ++ later, ?_, ?_, ?_⟩
      · rw [List.map_append, hdue, List.map_cons, List.flatten_cons]
        exact List.prefix_append_right_inj _ |>.2 hbegins
      · rw [hat] at hlater
        exact List.forall_mem_append.2 ⟨hfirst, hlater⟩
      · rw [List.foldl_append, ← hlayouts, hfinal]

end

/-- A run that ends has made the calls of the first so many pending messages. -/
theorem run_eq_ok {config : Config} {cancellation : Cancellation} {inference : Bundle → Call}
    {messages : List Message} {s : State} (h : run config cancellation inference messages = .ok s) :
    ∃ calls : List Resolved, calls.map Resolved.pending <+: pending messages ∧
      (∀ r ∈ calls, r.IsCall config cancellation.at_ inference) ∧ s.layouts = calls.foldl accept ∅ := by
  obtain ⟨calls, hbegins, hcalls, hlayouts⟩ := foldlM_runGroup_eq_ok h
  rw [List.zipIdx_map_fst, flatten_groupsOf (groupSize_pos config) le_rfl] at hbegins
  refine ⟨calls, ?_, fun r hr => ⟨?_, r.start, hcalls r hr⟩, hlayouts⟩
  · have hpending := hbegins.map Due.pending
    rw [pending_plan, List.map_map] at hpending
    exact hpending
  · obtain ⟨p, -, hp⟩ := List.mem_map.1 (hbegins.subset (List.mem_map_of_mem hr))
    have hcall : r.toDue.call = inference r.toDue.bundle := by rw [← hp]
    exact hcall

def Resolved.layoutFor? (name : String) (r : Resolved) : Option Layout :=
  if r.name = name then r.ending.result.toOption else none

theorem Resolved.layoutFor?_eq_some_iff {name : String} {r : Resolved} {layout : Layout} :
    r.layoutFor? name = some layout ↔ r.name = name ∧ r.ending.result = .ok layout := by
  unfold layoutFor?
  cases r.ending.result with
  | error e => simp [Except.toOption]
  | ok l => simp [Except.toOption]

def lastLayout (calls : List Resolved) (name : String) : Option Layout :=
  (calls.filterMap (Resolved.layoutFor? name)).getLast?

theorem lastLayout_cons (r : Resolved) (rest : List Resolved) (name : String) :
    lastLayout (r :: rest) name = (lastLayout rest name).or (r.layoutFor? name) := by
  unfold lastLayout
  cases hr : r.layoutFor? name with
  | none => rw [List.filterMap_cons_none hr, Option.or_none]
  | some layout =>
    rw [List.filterMap_cons_some hr, List.getLast?_cons]
    cases (rest.filterMap (Resolved.layoutFor? name)).getLast? <;> rfl

theorem find?_accept (layouts : LayoutIndex) (r : Resolved) (name : String) :
    (accept layouts r).find? name = (r.layoutFor? name).or (layouts.find? name) := by
  unfold accept Resolved.layoutFor?
  cases r.ending.result with
  | error e => simp [Except.toOption]
  | ok layout =>
    by_cases hn : r.name = name
    · simp [hn, Except.toOption]
    · simp [hn, SortedMap.find?_insert, Ne.symm hn]

theorem find?_foldl_accept (calls : List Resolved) (layouts : LayoutIndex) (name : String) :
    (calls.foldl accept layouts).find? name = (lastLayout calls name).or (layouts.find? name) := by
  induction calls generalizing layouts with
  | nil => rfl
  | cons r rest ih => rw [List.foldl_cons, ih, lastLayout_cons, Option.or_assoc, find?_accept]

theorem exists_of_lastLayout {calls : List Resolved} {name : String} {layout : Layout}
    (h : lastLayout calls name = some layout) :
    ∃ r ∈ calls, r.name = name ∧ r.ending.result = .ok layout := by
  obtain ⟨r, hr, hlayout⟩ := List.mem_filterMap.1 (List.mem_of_getLast? h)
  exact ⟨r, hr, Resolved.layoutFor?_eq_some_iff.1 hlayout⟩

theorem lastLayout_eq_none_iff {calls : List Resolved} {name : String} :
    lastLayout calls name = none ↔
      ∀ r ∈ calls, r.name = name → ∀ layout, r.ending.result ≠ .ok layout := by
  unfold lastLayout
  rw [List.getLast?_eq_none_iff, List.filterMap_eq_nil_iff]
  simp only [Option.eq_none_iff_forall_ne_some, ne_eq, Resolved.layoutFor?_eq_some_iff, not_and]
  exact ⟨fun h r hr hn layout => h r hr layout hn, fun h r hr layout hn => h r hr hn layout⟩

/-- Calls that answer, if they do, what an engine infers. -/
def AnswersOf (engine : Engine) (inference : Bundle → Call) : Prop :=
  ∀ b result, (inference b).outcome = .answers result → ∃ requests, engine.infer b = .ok ⟨result, requests⟩

theorem answersOf_engineCall (engine : Engine) : AnswersOf engine (engineCall engine) := by
  intro b result h
  unfold engineCall at h
  split at h
  · rename_i attempt hattempt
    cases h
    exact ⟨attempt.requests, hattempt⟩
  · cases h

theorem mem_pending {messages : List Message} {name : String} {b : Bundle} :
    (name, b) ∈ pending messages ↔ ∃ m ∈ messages, m.id.name = name ∧ m.bundle = some b := by
  unfold pending
  simp only [List.mem_filterMap, Option.map_eq_some_iff, Prod.mk.injEq]
  constructor
  · rintro ⟨m, hm, b', hb, hn, rfl⟩
    exact ⟨m, hm, hn, hb⟩
  · rintro ⟨m, hm, hn, hb⟩
    exact ⟨m, hm, b, hb, hn, rfl⟩

section

variable {config : Config} {cancelAt : Option Nat} {inference : Bundle → Call} {messages : List Message}
  {calls : List Resolved} {r : Resolved}

theorem message_of_call (h : calls.map Resolved.pending <+: pending messages) (hr : r ∈ calls) :
    ∃ m ∈ messages, m.id.name = r.name ∧ m.bundle = some r.bundle :=
  mem_pending.1 (h.subset (List.mem_map_of_mem hr))

/-- A call that gives a layout gives what the engine infers from its bundle. -/
theorem infer_of_call {engine : Engine} (ha : AnswersOf engine inference)
    (h : r.IsCall config cancelAt inference) {layout : Layout} (hl : r.ending.result = .ok layout) :
    ∃ requests, engine.infer r.bundle = .ok ⟨.ok layout, requests⟩ := by
  obtain ⟨hcall, start, hending⟩ := h
  exact ha _ _ (hcall ▸ outcome_of_ending hending hl)

/-- When all messages of a name with a bundle have the same one, the layout of the name is that of its
calls. -/
theorem lastLayout_eq_some_iff (h : calls.map Resolved.pending <+: pending messages)
    (hcalls : ∀ r ∈ calls, r.IsCall config cancelAt inference) {name : String} {bundle : Option Bundle}
    (hone : ∀ m ∈ messages, m.id.name = name → m.bundle = none ∨ m.bundle = bundle) {layout : Layout} :
    lastLayout calls name = some layout ↔
      ∃ r ∈ calls, r.name = name ∧ bundle = some r.bundle ∧ r.ending.result = .ok layout := by
  have hown : ∀ r ∈ calls, r.name = name → bundle = some r.bundle := by
    intro r hr hn
    obtain ⟨m, hm, hmn, hb⟩ := message_of_call h hr
    rcases hone m hm (hmn.trans hn) with hnone | heq
    · rw [hnone] at hb
      cases hb
    · exact heq.symm.trans hb
  constructor
  · intro hl
    obtain ⟨r, hr, hn, hresult⟩ := exists_of_lastLayout hl
    exact ⟨r, hr, hn, hown r hr hn, hresult⟩
  · rintro ⟨r, hr, hn, hb, hresult⟩
    cases hl : lastLayout calls name with
    | none => exact absurd hresult (lastLayout_eq_none_iff.1 hl r hr hn layout)
    | some other =>
      -- both calls are of one bundle, so they answer alike
      obtain ⟨r', hr', hn', hresult'⟩ := exists_of_lastLayout hl
      have hb' : r'.bundle = r.bundle := Option.some.inj ((hown r' hr' hn').symm.trans hb)
      obtain ⟨hcall, start, hending⟩ := hcalls r hr
      obtain ⟨hcall', start', hending'⟩ := hcalls r' hr'
      have houtcome := outcome_of_ending hending hresult
      rw [hcall, ← hb', ← hcall', outcome_of_ending hending' hresult'] at houtcome
      cases houtcome
      rfl

end

end WireLayout.Batch
