import WireLayout.Proofs.Batch.Cancellation

/-! What a run that nobody cancels leaves depends on what each call comes to by itself: the layout of a name is that of the
last call of the name that answers with one in time. How the calls are grouped, and what the calls of other names do, makes
no difference. -/

namespace WireLayout.Batch

/-- The call answers with a layout before its deadline. -/
def Call.Gives (timeout : Option Nat) (layout : Layout) (call : Call) : Prop :=
  call.outcome = .answers (.ok layout) ∧ ∀ limit, timeout = some limit → call.delay ≤ limit

/-- The message has a bundle and a name, and its call answers with a layout before its deadline. -/
def Succeeds (timeout : Option Nat) (name : String) (layout : Layout) (p : Message × Call) : Prop :=
  p.1.id.name = name ∧ p.1.bundle.isSome = true ∧ p.2.Gives timeout layout

def Call.own? (timeout : Option Nat) (call : Call) : Option Layout :=
  match call.outcome with
  | .answers (.ok layout) => if timeout.all (call.delay ≤ ·) then some layout else none
  | _ => none

def Due.ownLayout? (timeout : Option Nat) (name : String) (d : Due) : Option Layout :=
  if d.name = name then d.call.own? timeout else none

def ownLayout? (timeout : Option Nat) (name : String) (p : Message × Call) : Option Layout :=
  (p.1.bundle.map fun b => (⟨p.1.id.name, b, p.2⟩ : Due)).bind (Due.ownLayout? timeout name)

section

variable {timeout : Option Nat} {name : String} {layout : Layout}

theorem own?_eq_some_iff {call : Call} : call.own? timeout = some layout ↔ call.Gives timeout layout := by
  unfold Call.own? Call.Gives
  split
  · rename_i found ho
    rw [ho]
    cases timeout <;> simp [and_comm, eq_comm]
  · rename_i ho
    refine iff_of_false nofun fun h => ?_
    exact ho layout h.1

theorem due_ownLayout?_eq_some_iff {d : Due} :
    d.ownLayout? timeout name = some layout ↔ d.name = name ∧ d.call.Gives timeout layout := by
  unfold Due.ownLayout?
  rw [Option.ite_none_right_eq_some, own?_eq_some_iff]

theorem ownLayout?_eq_some_iff {p : Message × Call} :
    ownLayout? timeout name p = some layout ↔ Succeeds timeout name layout p := by
  unfold ownLayout? Succeeds
  cases p.1.bundle with
  | none => simp
  | some b => simp [due_ownLayout?_eq_some_iff]

/-- Without a cancellation a call that was made gives the layout that it gives by itself. -/
theorem Resolved.Settled.layoutFor?_eq {r : Resolved} (h : r.Settled timeout none) :
    r.layoutFor? name = r.toDue.ownLayout? timeout name := by
  refine Option.ext fun layout => ?_
  rw [Resolved.layoutFor?_eq_some_iff, due_ownLayout?_eq_some_iff, h.result_eq_ok_iff]
  simp [Call.Gives, Call.Late]

theorem Resolved.Settled.resolves {r : Resolved} (h : r.Settled timeout none) : r.call.Resolves timeout none := by
  cases h with
  | cancelled _ due => cases due
  | ended ended =>
    unfold Call.Resolves
    cases ended with
    | answered outcome => simp [outcome]
    | timedOut limit limited late =>
      cases ho : r.call.outcome with
      | answers result => trivial
      | hangs => exact .inl (by rw [limited]; rfl)
      | breaks fault => exact .inl ⟨limit, limited, late.resolve_left (by simp [ho])⟩

/-- The last value of a list is that of the last member that has one. -/
theorem getLast?_filterMap_eq_some_iff {α β : Type} {f : α → Option β} {xs : List α} {y : β} :
    (xs.filterMap f).getLast? = some y ↔
      ∃ before x after, xs = before ++ x :: after ∧ f x = some y ∧ ∀ x' ∈ after, f x' = none := by
  rw [List.getLast?_filterMap, List.findSome?_eq_some_iff]
  constructor
  · rintro ⟨after, x, before, h, hx, hafter⟩
    refine ⟨before.reverse, x, after.reverse, ?_, hx, fun x' hx' => hafter x' (List.mem_reverse.1 hx')⟩
    rw [← List.reverse_reverse xs, h]
    simp
  · rintro ⟨before, x, after, rfl, hx, hafter⟩
    exact ⟨after.reverse, x, before.reverse, by simp, hx, fun x' hx' => hafter x' (List.mem_reverse.1 hx')⟩

end

section

variable {config : Config} {due : List Due} {s : State} {script : Script}

theorem Stopped.all {started : List (List Resolved)} (h : Stopped config.timeout config.groupSize {} due s started) :
    s.calls.map Resolved.toDue = due := by
  have hpos := groupSize_pos config
  have hall : (groupsOf config.groupSize due.length due).length ≤ started.length := by
    rw [length_groupsOf hpos le_rfl]
    refine Nat.le_of_not_lt fun hlt => ?_
    rcases h.stop hlt with hbefore | hafter | ⟨r, hr, hfate⟩
    · cases hbefore
    · cases hafter
    · cases h.settled r hr with
      | ended ended => cases ended <;> simp_all
      | cancelled _ due => cases due
  rw [h.calls, List.map_flatten, h.first, List.take_of_length_le hall, flatten_groupsOf hpos le_rfl]

/-- The layouts of a run that nobody cancels, whatever its groups. -/
theorem layouts_of_runCalls (h : runCalls config {} due = .ok s) (name : String) :
    s.layouts.find? name = (due.filterMap (Due.ownLayout? config.timeout name)).getLast? := by
  obtain ⟨started, hstopped⟩ := stopped_of_runCalls h
  rw [hstopped.layouts, lastLayout, ← hstopped.all, List.filterMap_map]
  congr 1
  exact List.filterMap_congr fun r hr => (hstopped.settled r hr).layoutFor?_eq

theorem layouts_of_script (h : runCalls config {} script.due = .ok s) (name : String) :
    s.layouts.find? name = (script.filterMap (ownLayout? config.timeout name)).getLast? := by
  rw [layouts_of_runCalls h, Script.due, List.filterMap_filterMap]
  rfl

/-- A run that nobody cancels comes to an end exactly when every call does. -/
theorem exists_runCalls_iff :
    (∃ s, runCalls config {} due = .ok s) ↔ ∀ d ∈ due, d.call.Resolves config.timeout none := by
  refine ⟨?_, fun h => exists_runCalls h⟩
  rintro ⟨s, h⟩ d hd
  obtain ⟨started, hstopped⟩ := stopped_of_runCalls h
  rw [← hstopped.all] at hd
  obtain ⟨r, hr, rfl⟩ := List.mem_map.1 hd
  exact (hstopped.settled r hr).resolves

theorem forall_mem_due {P : Call → Prop} :
    (∀ d ∈ script.due, P d.call) ↔ ∀ p ∈ script, p.1.bundle.isSome = true → P p.2 := by
  simp only [Script.due, List.mem_filterMap, Option.map_eq_some_iff, Option.isSome_iff_exists]
  constructor
  · rintro h p hp ⟨b, hb⟩
    exact h _ ⟨p, hp, b, hb, rfl⟩
  · rintro h _ ⟨p, hp, b, hb, rfl⟩
    exact h p hp ⟨b, hb⟩

end

/-- A run that nobody cancels, of messages with what a call for each comes to. It comes to an end when every call does; then
the layout of a name is that of the last message of the name whose own call answers with one in time, and no other name has
one. So the layouts are the same for every size of the groups, and what becomes of one call is seen at its own name only. -/
theorem layouts_of_calls (timeout : Option Nat) (script : Script) :
    (∀ concurrency, (∃ s, runCalls ⟨concurrency, timeout⟩ {} script.due = .ok s) ↔
      ∀ p ∈ script, p.1.bundle.isSome = true → p.2.Resolves timeout none) ∧
    (∀ concurrency s, runCalls ⟨concurrency, timeout⟩ {} script.due = .ok s → ∀ name layout,
      s.layouts.find? name = some layout ↔ ∃ before p after, script = before ++ p :: after ∧
        Succeeds timeout name layout p ∧ ∀ q ∈ after, ∀ other, ¬ Succeeds timeout name other q) ∧
    (∀ concurrency concurrency' s s', runCalls ⟨concurrency, timeout⟩ {} script.due = .ok s →
      runCalls ⟨concurrency', timeout⟩ {} script.due = .ok s' → s.layouts = s'.layouts) ∧
    (∀ before m call call' after, script = before ++ (m, call) :: after → ∀ concurrency concurrency' s s',
      runCalls ⟨concurrency, timeout⟩ {} script.due = .ok s →
      runCalls ⟨concurrency', timeout⟩ {} (Script.due (before ++ (m, call') :: after)) = .ok s' →
      ∀ name, name ≠ m.id.name → s.layouts.find? name = s'.layouts.find? name) ∧
    ∀ inference, (∀ p ∈ script, ∀ b, p.1.bundle = some b → inference b = p.2) → ∀ config,
      run config {} inference (script.map (·.1)) = runCalls config {} script.due := by
  refine ⟨fun concurrency => ?_, fun concurrency s h name layout => ?_, fun concurrency concurrency' s s' h h' => ?_,
    ?_, fun inference h config => ?_⟩
  · rw [exists_runCalls_iff]
    exact forall_mem_due (P := (·.Resolves timeout none))
  · rw [layouts_of_script h, getLast?_filterMap_eq_some_iff]
    simp only [ownLayout?_eq_some_iff, Option.eq_none_iff_forall_ne_some, ne_eq]
  · refine SortedMap.ext_find? fun name => ?_
    rw [layouts_of_script h, layouts_of_script h']
  · rintro before m call call' after rfl concurrency concurrency' s s' h h' name hname
    have hnone : ∀ c : Call, ownLayout? timeout name (m, c) = none := by
      intro c
      refine Option.eq_none_iff_forall_ne_some.2 fun layout hl => ?_
      exact hname (ownLayout?_eq_some_iff.1 hl).1.symm
    rw [layouts_of_script h, layouts_of_script h', List.filterMap_append, List.filterMap_append,
      List.filterMap_cons_none (hnone call), List.filterMap_cons_none (hnone call')]
  · rw [run, plan_eq_due h]

/-! Three calls of one name, of which the second is the last that succeeds, and between them one that never answers. -/

namespace Siblings

def message (name : String) : Message := {
  id := ⟨name, "", "", ""⟩
  constants := {}
  fields := []
  imports := []
  bundle := some { entity := name, package := "", constants := {}, fields := [], routine := "" } }

def layout (size : Nat) : Layout := {
  entity := "a"
  fields := []
  totalFixedSize := size
  hasVariableSection := false
  variableSectionStart := none
  nullBits := ∅
  notes := none }

def script (second : Call) : Script := [(message "a", ⟨9, .answers (.ok (layout 1))⟩), (message "b", second),
  (message "a", ⟨1, .answers (.ok (layout 2))⟩), (message "a", ⟨0, .answers (.error (.internal "no"))⟩)]

end Siblings

/-- One at a time or all at once, and whatever the call of the other name does, the name gets the layout of its second call. -/
theorem layouts_of_calls_siblings : ∃ s s',
    runCalls ⟨1, some 10⟩ {} (Siblings.script ⟨0, .hangs⟩).due = .ok s ∧
      runCalls ⟨4, some 10⟩ {} (Siblings.script ⟨2, .answers (.ok (Siblings.layout 3))⟩).due = .ok s' ∧
      s.layouts.find? "a" = some (Siblings.layout 2) ∧ s'.layouts.find? "a" = some (Siblings.layout 2) ∧
      s.layouts.find? "b" = none := by
  obtain ⟨hends, hindex, -, hother, -⟩ := layouts_of_calls (some 10) (Siblings.script ⟨0, .hangs⟩)
  obtain ⟨hends', -⟩ := layouts_of_calls (some 10) (Siblings.script ⟨2, .answers (.ok (Siblings.layout 3))⟩)
  obtain ⟨s, hs⟩ := (hends 1).2 (by simp [Siblings.script, Call.Resolves])
  obtain ⟨s', hs'⟩ := (hends' 4).2 (by simp [Siblings.script, Call.Resolves])
  have ha : s.layouts.find? "a" = some (Siblings.layout 2) := by
    refine (hindex 1 s hs "a" _).2 ⟨_ :: [_], _, [_], rfl, ⟨rfl, rfl, rfl, ?_⟩, ?_⟩
    · rintro _ ⟨⟩
      decide
    · simp [Succeeds, Call.Gives]
  refine ⟨s, s', hs, hs', ha, ?_, ?_⟩
  · rw [← hother [_] _ _ _ _ rfl 1 4 s s' hs hs' "a" (by decide), ha]
  · refine Option.eq_none_iff_forall_ne_some.2 fun layout hl => ?_
    obtain ⟨before, p, after, hsplit, ⟨hname, -, hgives, -⟩, -⟩ := (hindex 1 s hs "b" layout).1 hl
    have hp : p ∈ Siblings.script ⟨0, .hangs⟩ := by simp [hsplit]
    simp only [Siblings.script, List.mem_cons, List.not_mem_nil, or_false] at hp
    rcases hp with rfl | rfl | rfl | rfl
    · exact absurd hname (by decide)
    · cases hgives
    · exact absurd hname (by decide)
    · exact absurd hname (by decide)

end WireLayout.Batch
