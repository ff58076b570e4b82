import WireLayout.Proofs.Batch.Groups

/-! Runs under a cancellation, which falls before the run, at an instant or after a group. A call that is in flight at the
instant is given up there unless it has answered or reached its deadline; no group starts from then on; and what was
accepted before is kept. -/

namespace WireLayout.Batch

/-! How a call ends when a cancellation is due. -/

/-- The answer of a call comes after its deadline or after the cancellation. -/
def Call.Late (timeout cancelAt : Option Nat) (start : Nat) (call : Call) : Prop :=
  (∃ limit, timeout = some limit ∧ limit < call.delay) ∨ ∃ c, cancelAt = some c ∧ c < start + call.delay

/-- Whenever it is made, the call answers or something puts an end to it. -/
def Call.Resolves (timeout cancelAt : Option Nat) (call : Call) : Prop :=
  match call.outcome with
  | .answers _ => True
  | .hangs => timeout.isSome = true ∨ cancelAt.isSome = true
  | .breaks _ => (∃ limit, timeout = some limit ∧ limit < call.delay) ∨ ∃ c, cancelAt = some c ∧ c < call.delay

section

variable {name : String} {timeout cancelAt : Option Nat} {start : Nat} {call : Call}

theorem inTime_iff_not_late : (timeout.all (call.delay ≤ ·) && !isPast cancelAt (start + call.delay)) = true ↔
    ¬ call.Late timeout cancelAt start := by
  unfold Call.Late isPast
  cases timeout <;> cases cancelAt <;> simp

theorem ending_of_late (h : call.outcome = .hangs ∨ call.Late timeout cancelAt start) :
    call.ending name timeout cancelAt start = giveUp name timeout cancelAt start call.delay := by
  unfold Call.ending
  cases ho : call.outcome with
  | hangs => rfl
  | answers result =>
    have hlate : call.Late timeout cancelAt start := h.resolve_left (by simp [ho])
    exact if_neg (inTime_iff_not_late.not_left.2 hlate)
  | breaks fault =>
    have hlate : call.Late timeout cancelAt start := h.resolve_left (by simp [ho])
    exact if_neg (inTime_iff_not_late.not_left.2 hlate)

theorem ending_of_answers {result : Except Error Layout} (ho : call.outcome = .answers result)
    (h : ¬ call.Late timeout cancelAt start) :
    call.ending name timeout cancelAt start = .ok { time := start + call.delay, result, fate := .ended } := by
  unfold Call.ending
  rw [ho]
  exact if_pos (inTime_iff_not_late.2 h)

theorem ending_of_breaks {fault : Fault} (ho : call.outcome = .breaks fault)
    (h : ¬ call.Late timeout cancelAt start) : call.ending name timeout cancelAt start = .error (.fault fault) := by
  unfold Call.ending
  rw [ho]
  exact if_pos (inTime_iff_not_late.2 h)

theorem exists_giveUp {delay : Nat} :
    (∃ ending, giveUp name timeout cancelAt start delay = .ok ending) ↔ timeout.isSome = true ∨ cancelAt.isSome = true := by
  unfold giveUp
  cases timeout <;> cases cancelAt <;> simp
  split <;> exact ⟨_, rfl⟩

theorem exists_ending_of_late (h : call.Late timeout cancelAt start) :
    ∃ ending, call.ending name timeout cancelAt start = .ok ending := by
  rw [ending_of_late (.inr h), exists_giveUp]
  rcases h with ⟨limit, rfl, -⟩ | ⟨c, rfl, -⟩
  · exact .inl rfl
  · exact .inr rfl

theorem resolves_iff : call.Resolves timeout cancelAt ↔
    ∀ start, ∃ ending, call.ending name timeout cancelAt start = .ok ending := by
  unfold Call.Resolves
  cases ho : call.outcome with
  | answers result =>
    refine iff_of_true trivial fun start => ?_
    by_cases hlate : call.Late timeout cancelAt start
    · exact exists_ending_of_late hlate
    · exact ⟨_, ending_of_answers ho hlate⟩
  | hangs =>
    simp only [ending_of_late (.inl ho), exists_giveUp, forall_const]
  | breaks fault =>
    constructor
    · intro h start
      refine exists_ending_of_late (h.imp_right ?_)
      rintro ⟨c, hc, hlt⟩
      exact ⟨c, hc, Nat.lt_add_left start hlt⟩
    · intro h
      by_contra hnot
      have hlate : ¬ call.Late timeout cancelAt 0 := by simpa only [Call.Late, Nat.zero_add] using hnot
      obtain ⟨ending, hending⟩ := h 0
      rw [ending_of_breaks ho hlate] at hending
      cases hending

end

namespace Resolved

/-- What became of a call that was made: it ended no later than the cancellation, or it had neither answered nor reached
its deadline then, and was cancelled. -/
inductive Settled (timeout cancelAt : Option Nat) (r : Resolved) : Prop where
  | ended (ended : r.Ended timeout) (early : ∀ c, cancelAt = some c → r.ending.time ≤ c)
  | cancelled (c : Nat) (due : cancelAt = some c) (unanswered : r.call.outcome = .hangs ∨ c < r.start + r.call.delay)
      (undue : ∀ limit, timeout = some limit → c < r.start + limit)
      (result : r.ending.result = .error (.cancelled r.name)) (fate : r.ending.fate = .cancelled)
      (time : r.ending.time = c)

namespace Settled

variable {timeout cancelAt : Option Nat} {r : Resolved}

theorem begun (h : r.Settled timeout cancelAt) : r.ending.begun = true := by
  cases h with
  | ended ended => exact ended.begun
  | cancelled _ _ _ _ _ fate => simp [Ending.begun, fate]

theorem time_le (h : r.Settled timeout cancelAt) {c : Nat} (hc : cancelAt = some c) : r.ending.time ≤ c := by
  cases h with
  | ended _ early => exact early c hc
  | cancelled c' due _ _ _ _ time =>
    obtain rfl := Option.some.inj (due.symm.trans hc)
    exact time.le

/-- Of the calls that were made, those that met the cancellation were cancelled, and the others had ended. -/
theorem metCancellation_iff (h : r.Settled timeout cancelAt) :
    r.ending.metCancellation = true ↔ r.ending.fate = .cancelled := by
  cases h with
  | ended ended =>
    rw [ended.not_cancelled]
    cases ended <;> simp_all
  | cancelled _ _ _ _ _ fate => simp [Ending.metCancellation, fate]

/-- A call gives a layout exactly when it answers with it in time. -/
theorem result_eq_ok_iff (h : r.Settled timeout cancelAt) {layout : Layout} : r.ending.result = .ok layout ↔
    r.call.outcome = .answers (.ok layout) ∧ ¬ r.call.Late timeout cancelAt r.start := by
  cases h with
  | ended ended early =>
    cases ended with
    | answered outcome fate time inTime =>
      have hnot : ¬ r.call.Late timeout cancelAt r.start := by
        rintro (⟨limit, hlimit, hlt⟩ | ⟨c, hc, hlt⟩)
        · exact absurd (inTime limit hlimit) (Nat.not_le.2 hlt)
        · exact absurd (early c hc) (by omega)
      rw [outcome]
      simp [hnot]
    | timedOut limit limited late result =>
      rw [result]
      refine iff_of_false nofun ?_
      rintro ⟨houtcome, hnot⟩
      refine hnot (.inl ⟨limit, limited, late.resolve_left ?_⟩)
      simp [houtcome]
  | cancelled c due unanswered undue result =>
    rw [result]
    refine iff_of_false nofun ?_
    rintro ⟨houtcome, hnot⟩
    refine hnot (.inr ⟨c, due, unanswered.resolve_left ?_⟩)
    simp [houtcome]

theorem ended_of_not_cancelled (h : r.Settled timeout cancelAt) (hf : r.ending.fate ≠ .cancelled) : r.Ended timeout := by
  cases h with
  | ended ended => exact ended
  | cancelled _ _ _ _ _ fate => exact absurd fate hf

end Settled

end Resolved

section

variable {timeout cancelAt : Option Nat} {d : Due} {start : Nat} {ending : Ending}

theorem settled_of_giveUp (hlate : d.call.outcome = .hangs ∨ d.call.Late timeout cancelAt start)
    (h : giveUp d.name timeout cancelAt start d.call.delay = .ok ending) :
    (⟨d, start, ending⟩ : Resolved).Settled timeout cancelAt := by
  unfold giveUp at h
  split at h
  · cases h
  · rename_i limit
    cases h
    refine .ended (.timedOut limit rfl ?_ rfl rfl rfl) nofun
    simpa [Call.Late] using hlate
  · rename_i c
    cases h
    refine .cancelled c rfl ?_ nofun rfl rfl rfl
    simpa [Call.Late] using hlate
  · rename_i limit c
    have hlate : d.call.outcome = .hangs ∨ limit < d.call.delay ∨ c < start + d.call.delay := by
      simpa [Call.Late] using hlate
    split at h
    · rename_i hlt
      cases h
      refine .cancelled c rfl (hlate.imp_right ?_) ?_ rfl rfl rfl
      · change _ → c < start + d.call.delay
        omega
      · rintro _ ⟨⟩
        exact hlt
    · rename_i hle
      cases h
      refine .ended (.timedOut limit rfl (hlate.imp_right ?_) rfl rfl rfl) ?_
      · change _ → limit < d.call.delay
        omega
      · rintro _ ⟨⟩
        exact Nat.not_lt.1 hle

theorem settled_of_ending (h : d.call.ending d.name timeout cancelAt start = .ok ending) :
    (⟨d, start, ending⟩ : Resolved).Settled timeout cancelAt := by
  by_cases hlate : d.call.outcome = .hangs ∨ d.call.Late timeout cancelAt start
  · rw [ending_of_late hlate] at h
    exact settled_of_giveUp hlate h
  · rw [not_or] at hlate
    cases ho : d.call.outcome with
    | hangs => exact absurd ho hlate.1
    | breaks fault =>
      rw [ending_of_breaks ho hlate.2] at h
      cases h
    | answers result =>
      rw [ending_of_answers ho hlate.2] at h
      cases h
      have hnot := hlate.2
      simp only [Call.Late, not_or, not_exists, not_and, Nat.not_lt] at hnot
      exact .ended (.answered ho rfl rfl hnot.1) hnot.2

end

/-! One group. -/

/-- The state after the calls of a group, counted from zero, have been taken over. -/
def State.afterGroup (cancellation : Cancellation) (total groups n : Nat) (s : State) (calls : List Resolved) : State :=
  { s.afterCalls calls with
    completed := s.completed + calls.length
    layouts := calls.foldl accept s.layouts
    progress := s.progress ++ [⟨s.completed + calls.length, total, n + 1, groups⟩]
    cancelled := (s.afterCalls calls).cancelled || cancellation.afterGroup = some (n + 1) }

/-- The cancellation has not fallen before the present. -/
def State.OnTime (s : State) : Prop := ∀ c, s.cancelAt = some c → s.now ≤ c

/-- The calls of a group: they begin together, and end by themselves, at their deadlines or by the cancellation. -/
structure GroupOf (timeout : Option Nat) (s : State) (ds : List Due) (calls : List Resolved) : Prop where
  due : calls.map Resolved.toDue = ds
  together : ∀ r ∈ calls, r.start = s.now
  settled : ∀ r ∈ calls, r.Settled timeout s.cancelAt

section

variable {config : Config} {cancellation : Cancellation} {total groups n : Nat} {s s' : State} {ds : List Due}

theorem runGroup_eq_map (hs : s.cancelled = false) : runGroup config cancellation total groups s (ds, n) =
    (ds.mapM (resolve config s)).map (s.afterGroup cancellation total groups n) := by
  rw [runGroup, if_neg (by simp [hs])]
  cases ds.mapM (resolve config s) <;> rfl

theorem groupOf_of_mapM (hs : s.cancelled = false) {calls : List Resolved} (h : ds.mapM (resolve config s) = .ok calls) :
    GroupOf config.timeout s ds calls := by
  refine ⟨?_, fun r hr => ?_, fun r hr => ?_⟩
  · have hall : List.Forall₂ (fun d r => d = Resolved.toDue r) ds calls :=
      (Except.forall₂_of_mapM h).imp fun _ _ hr => ((resolve_eq_ok_iff hs).1 hr).1.symm
    exact (List.forall₂_eq_eq_eq ▸ List.forall₂_map_right_iff.2 hall : ds = _).symm
  · obtain ⟨d, -, hd⟩ := Except.exists_of_mem_mapM h hr
    exact ((resolve_eq_ok_iff hs).1 hd).2.1
  · obtain ⟨d, -, hd⟩ := Except.exists_of_mem_mapM h hr
    obtain ⟨rfl, hstart, hending⟩ := (resolve_eq_ok_iff hs).1 hd
    rw [← hstart] at hending
    exact settled_of_ending hending

/-- What one group does, unless the run is cancelled before it. -/
theorem runGroup_inv (hs : s.cancelled = false) (h : runGroup config cancellation total groups s (ds, n) = .ok s') :
    ∃ calls, GroupOf config.timeout s ds calls ∧ s' = s.afterGroup cancellation total groups n calls := by
  rw [runGroup_eq_map hs] at h
  obtain ⟨calls, hcalls, rfl⟩ := Except.map_eq_ok_iff.1 h
  exact ⟨calls, groupOf_of_mapM hs hcalls, rfl⟩

theorem exists_runGroup (hs : s.cancelled = false) (h : ∀ d ∈ ds, d.call.Resolves config.timeout s.cancelAt) :
    ∃ calls, runGroup config cancellation total groups s (ds, n) =
      .ok (s.afterGroup cancellation total groups n calls) := by
  have hall : ∃ calls, List.Forall₂ (fun d r => resolve config s d = .ok r) ds calls := by
    induction ds with
    | nil => exact ⟨[], .nil⟩
    | cons d ds ih =>
      obtain ⟨calls, hcalls⟩ := ih fun d' hd' => h d' (List.mem_cons_of_mem d hd')
      obtain ⟨ending, hending⟩ := resolves_iff.1 (h d List.mem_cons_self) s.now
      exact ⟨⟨d, s.now, ending⟩ :: calls, .cons ((resolve_eq_ok_iff hs).2 ⟨rfl, rfl, hending⟩) hcalls⟩
  obtain ⟨calls, hcalls⟩ := hall
  refine ⟨calls, ?_⟩
  rw [runGroup_eq_map hs, Except.mapM_of_forall₂ hcalls]
  rfl

theorem GroupOf.onTime {calls : List Resolved} (h : GroupOf config.timeout s ds calls) (ht : s.OnTime) :
    (s.afterGroup cancellation total groups n calls).OnTime := by
  intro c hc
  refine foldl_max_le_iff.2 ⟨ht c hc, fun m hm => ?_⟩
  obtain ⟨r, hr, rfl⟩ := List.mem_map.1 hm
  exact (h.settled r hr).time_le hc

/-- A run that goes on is cancelled by a group when one of its calls is, or when the cancellation comes after it. -/
theorem GroupOf.cancelled_iff {calls : List Resolved} (h : GroupOf config.timeout s ds calls) (hs : s.cancelled = false) :
    (s.afterGroup cancellation total groups n calls).cancelled = true ↔
      (∃ r ∈ calls, r.ending.fate = .cancelled) ∨ cancellation.afterGroup = some (n + 1) := by
  have hany : (calls.any fun r => r.ending.metCancellation) = true ↔ ∃ r ∈ calls, r.ending.fate = .cancelled := by
    rw [List.any_eq_true]
    exact exists_congr fun r => and_congr_right fun hr => (h.settled r hr).metCancellation_iff
  simp only [State.afterGroup, State.afterCalls, hs, Bool.false_or, Bool.or_eq_true, decide_eq_true_eq, hany]

end

/-! The groups one after another. -/

/-- What the groups that are started add to a run, until a cancellation stops it. The first of them has a number. -/
structure Starts (timeout : Option Nat) (cancellation : Cancellation) (total groups n : Nat) (gs : List (List Due))
    (s s' : State) (rss : List (List Resolved)) : Prop where
  first : rss.map (List.map Resolved.toDue) <+: gs
  made : s'.calls = s.calls ++ rss.flatten
  settled : ∀ r ∈ rss.flatten, r.Settled timeout s.cancelAt
  onTime : ∀ r ∈ rss.flatten, ∀ c, s.cancelAt = some c → r.start ≤ c
  /-- Only calls of the last group are cancelled. -/
  last : ∀ g ∈ rss.dropLast, ∀ r ∈ g, r.Ended timeout
  none : s.cancelled = true → rss = []
  after : ∀ m, cancellation.afterGroup = some m → n < m → n + rss.length ≤ m
  stop : rss.length < gs.length → s.cancelled = true ∨ cancellation.afterGroup = some (n + rss.length) ∨
    ∃ r ∈ rss.flatten, r.ending.fate = .cancelled
  layouts : s'.layouts = rss.flatten.foldl accept s.layouts
  progress : s'.progress = s.progress ++ reports total groups s.completed n (gs.take rss.length)

section

variable {config : Config} {cancellation : Cancellation} {total groups n : Nat} {s s' : State} {ds : List Due}
  {gs : List (List Due)}

theorem starts_nil (h : gs = [] ∨ s.cancelled = true) : Starts config.timeout cancellation total groups n gs s s [] := by
  refine ⟨by simp, by simp, by simp, by simp, by simp, fun _ => rfl, fun m _ hm => Nat.le_of_lt hm, fun hlt => ?_, rfl, ?_⟩
  · refine .inl (h.resolve_left ?_)
    rintro rfl
    exact absurd hlt (Nat.not_lt_zero _)
  · simp [reports]

theorem GroupOf.starts {calls : List Resolved} {rss : List (List Resolved)} (hs : s.cancelled = false) (ht : s.OnTime)
    (h : GroupOf config.timeout s ds calls)
    (hrest : Starts config.timeout cancellation total groups (n + 1) gs (s.afterGroup cancellation total groups n calls) s' rss) :
    Starts config.timeout cancellation total groups n (ds :: gs) s s' (calls :: rss) := by
  have hcancelled : (s.afterGroup cancellation total groups n calls).cancelled = true ↔
      (∃ r ∈ calls, r.ending.fate = .cancelled) ∨ cancellation.afterGroup = some (n + 1) := h.cancelled_iff hs
  have hlength : calls.length = ds.length := by rw [← h.due, List.length_map]
  refine ⟨?_, ?_, ?_, ?_, ?_, ?_, fun m hm hlt => ?_, fun hlt => ?_, ?_, ?_⟩
  · rw [List.map_cons, h.due]
    exact (List.prefix_cons_inj ds).2 hrest.first
  · rw [hrest.made, List.flatten_cons, ← List.append_assoc]
    rfl
  · exact List.forall_mem_append.2 ⟨h.settled, hrest.settled⟩
  · refine List.forall_mem_append.2 ⟨fun r hr c hc => ?_, hrest.onTime⟩
    rw [h.together r hr]
    exact ht c hc
  · by_cases hnil : rss = []
    · subst hnil
      nofun
    · rw [List.dropLast_cons_of_ne_nil hnil]
      refine List.forall_mem_cons.2 ⟨fun r hr => ?_, hrest.last⟩
      -- a further group was started, so no call of this one was cancelled
      refine (h.settled r hr).ended_of_not_cancelled fun hf => hnil (hrest.none ?_)
      exact hcancelled.2 (.inl ⟨r, hr, hf⟩)
  · rw [hs]
    nofun
  · rw [List.length_cons]
    by_cases hm' : n + 1 = m
    · rw [hrest.none (hcancelled.2 (.inr (hm' ▸ hm))), List.length_nil]
      omega
    · have := hrest.after m hm (by omega)
      omega
  · rw [List.length_cons, List.length_cons, Nat.add_lt_add_iff_right] at hlt
    refine .inr ?_
    simp only [List.length_cons, List.flatten_cons, List.mem_append, or_and_right, exists_or]
    rcases hrest.stop hlt with hc | hafter | hfate
    · rw [hrest.none hc, List.length_nil]
      exact (hcancelled.1 hc).symm.imp_right .inl
    · exact .inl (by rw [hafter]; congr 1; omega)
    · exact .inr (.inr hfate)
  · rw [hrest.layouts, List.flatten_cons, List.foldl_append]
    rfl
  · rw [hrest.progress, List.length_cons, List.take_succ_cons, reports, ← hlength]
    simp only [State.afterGroup, List.append_assoc, List.singleton_append]

/-- The groups of a run, by induction: once it is cancelled none is started. -/
theorem foldlM_runGroup_starts (ht : s.OnTime)
    (h : (gs.zipIdx n).foldlM (runGroup config cancellation total groups) s = .ok s') :
    ∃ rss, Starts config.timeout cancellation total groups n gs s s' rss := by
  induction gs generalizing s n with
  | nil =>
    cases h
    exact ⟨[], starts_nil (.inl rfl)⟩
  | cons ds gs ih =>
    cases hs : s.cancelled with
    | true =>
      rw [foldlM_runGroup_of_cancelled hs] at h
      cases h
      exact ⟨[], starts_nil (.inr hs)⟩
    | false =>
      rw [List.zipIdx_cons, List.foldlM_cons] at h
      obtain ⟨next, hnext, h⟩ := Except.bind_eq_ok_iff.1 h
      obtain ⟨calls, hcalls, rfl⟩ := runGroup_inv hs hnext
      obtain ⟨rss, hrest⟩ := ih (hcalls.onTime ht) h
      exact ⟨calls :: rss, hcalls.starts hs ht hrest⟩

/-- A run comes to an end when all its calls do, whenever they are made. -/
theorem exists_foldlM_runGroup (h : ∀ ds ∈ gs, ∀ d ∈ ds, d.call.Resolves config.timeout s.cancelAt) (n : Nat) :
    ∃ s', (gs.zipIdx n).foldlM (runGroup config cancellation total groups) s = .ok s' := by
  induction gs generalizing s n with
  | nil => exact ⟨s, rfl⟩
  | cons ds gs ih =>
    cases hs : s.cancelled with
    | true => exact ⟨s, foldlM_runGroup_of_cancelled hs _⟩
    | false =>
      rw [List.forall_mem_cons] at h
      obtain ⟨calls, hcalls⟩ : ∃ calls, runGroup config cancellation total groups s (ds, n) =
          .ok (s.afterGroup cancellation total groups n calls) := exists_runGroup hs h.1
      rw [List.zipIdx_cons, List.foldlM_cons, hcalls, Except.ok_bind]
      exact ih (s := s.afterGroup cancellation total groups n calls) h.2 (n + 1)

end

/-! A whole run. -/

abbrev Script := List (Message × Call)

def Script.due (script : Script) : List Due :=
  script.filterMap fun p => p.1.bundle.map fun b => ⟨p.1.id.name, b, p.2⟩

theorem plan_eq_due {script : Script} {inference : Bundle → Call}
    (h : ∀ p ∈ script, ∀ b, p.1.bundle = some b → inference b = p.2) :
    plan inference (script.map (·.1)) = script.due := by
  rw [plan, pending, Script.due, List.filterMap_map, List.map_filterMap]
  refine List.filterMap_congr fun p hp => ?_
  cases hb : p.1.bundle with
  | none => simp [hb]
  | some b => simp [hb, h p hp b hb]

/-- The first groups together are a beginning of the list. -/
theorem flatten_take_groupsOf {α : Type} {size fuel : Nat} (h : 0 < size) {xs : List α} (hf : xs.length ≤ fuel) (k : Nat) :
    ((groupsOf size fuel xs).take k).flatten = xs.take (k * size) := by
  induction fuel generalizing xs k with
  | zero =>
    rw [Nat.le_zero, List.length_eq_zero_iff] at hf
    simp [groupsOf, hf]
  | succ fuel ih =>
    cases xs with
    | nil => simp [groupsOf]
    | cons x rest =>
      have hdrop : ((x :: rest).drop size).length ≤ fuel := by
        rw [List.length_drop, List.length_cons]
        rw [List.length_cons] at hf
        omega
      rw [groupsOf]
      simp only [List.isEmpty_cons, Bool.false_eq_true, if_false]
      cases k with
      | zero => simp
      | succ k => rw [List.take_succ_cons, List.flatten_cons, ih hdrop, Nat.succ_mul, Nat.add_comm, List.take_add]

theorem reports_take (total groups completed n : Nat) (gs : List (List Due)) (k : Nat) :
    reports total groups completed n (gs.take k) = (reports total groups completed n gs).take k := by
  induction gs generalizing completed n k with
  | nil => simp [reports]
  | cons ds gs ih =>
    cases k with
    | zero => rfl
    | succ k => rw [List.take_succ_cons, reports, reports, List.take_succ_cons, ih]

/-- A run under a cancellation, with the groups it started. -/
structure Stopped (timeout : Option Nat) (size : Nat) (cancellation : Cancellation) (due : List Due) (s : State)
    (started : List (List Resolved)) : Prop where
  calls : s.calls = started.flatten
  /-- The calls that were made are all calls of the first so many groups. -/
  first : started.map (List.map Resolved.toDue) = (groupsOf size due.length due).take started.length
  made : s.started = (due.take (started.length * size)).map (·.bundle)
  /-- No group is started after the cancellation. -/
  before : cancellation.before = true → started = []
  onTime : ∀ r ∈ s.calls, ∀ c, cancellation.at_ = some c → r.start ≤ c
  last : ∀ g ∈ started.dropLast, ∀ r ∈ g, r.Ended timeout
  after : ∀ n, 0 < n → cancellation.afterGroup = some n → started.length ≤ n
  /-- Nothing but the cancellation keeps a group from being started. -/
  stop : started.length < (due.length + size - 1) / size → cancellation.before = true ∨
    cancellation.afterGroup = some started.length ∨ ∃ r ∈ s.calls, r.ending.fate = .cancelled
  settled : ∀ r ∈ s.calls, r.Settled timeout cancellation.at_
  /-- What was accepted is what the calls gave that answered in time. -/
  accepted : ∀ r ∈ s.calls, ∀ layout, r.ending.result = .ok layout ↔
    r.call.outcome = .answers (.ok layout) ∧ ¬ r.call.Late timeout cancellation.at_ r.start
  layouts : ∀ name, s.layouts.find? name = lastLayout s.calls name
  progress : s.progress = (List.range started.length).map fun g =>
    ⟨min ((g + 1) * size) due.length, due.length, g + 1, (due.length + size - 1) / size⟩
  completed : ∀ p, s.progress.getLast? = some p → p.completed = s.calls.length

section

variable {config : Config} {cancellation : Cancellation} {due : List Due} {s : State}

theorem stopped_of_runCalls (h : runCalls config cancellation due = .ok s) :
    ∃ started, Stopped config.timeout config.groupSize cancellation due s started := by
  have hpos := groupSize_pos config
  have hinitial : (State.initial cancellation).OnTime := fun c _ => Nat.zero_le c
  obtain ⟨started, hstarts⟩ := foldlM_runGroup_starts hinitial h
  have hcalls : s.calls = started.flatten := hstarts.made
  have hfirst := List.prefix_iff_eq_take.1 hstarts.first
  rw [List.length_map] at hfirst
  have hle : started.length ≤ (groupsOf config.groupSize due.length due).length := by
    simpa using hstarts.first.length_le
  have hdue : s.calls.map Resolved.toDue = due.take (started.length * config.groupSize) := by
    rw [hcalls, List.map_flatten, hfirst, flatten_take_groupsOf hpos le_rfl]
  have hprogress : s.progress = (List.range started.length).map fun g =>
      ⟨min ((g + 1) * config.groupSize) due.length, due.length, g + 1, (due.length + config.groupSize - 1) / config.groupSize⟩ := by
    have hreports : s.progress = reports due.length (groupsOf config.groupSize due.length due).length 0 0
        ((groupsOf config.groupSize due.length due).take started.length) := hstarts.progress
    rw [hreports, reports_take, reports_groupsOf _ hpos le_rfl (fun _ => (Nat.zero_mul _).symm) (Nat.zero_add _),
      ← List.range_eq_range', ← List.map_take, List.take_range, Nat.min_eq_left hle, length_groupsOf hpos le_rfl]
  refine ⟨started, hcalls, hfirst, ?_, hstarts.none, hcalls ▸ hstarts.onTime, hstarts.last, fun n hn hafter => ?_, fun hlt => ?_,
    hcalls ▸ hstarts.settled, fun r hr layout => (hstarts.settled r (hcalls ▸ hr)).result_eq_ok_iff, fun name => ?_,
    hprogress, fun p hp => ?_⟩
  · have hall : (s.calls.filter fun r => r.ending.begun) = s.calls :=
      List.filter_eq_self.2 fun r hr => (hstarts.settled r (hcalls ▸ hr)).begun
    rw [State.started, hall, ← hdue, List.map_map]
    rfl
  · simpa using hstarts.after n hafter hn
  · have hstop := hstarts.stop (by rwa [length_groupsOf hpos le_rfl])
    rwa [Nat.zero_add, ← hcalls] at hstop
  · rw [hstarts.layouts, ← hcalls]
    exact (find?_foldl_accept s.calls ∅ name).trans (Option.or_none)
  · have hlength : s.calls.length = min (started.length * config.groupSize) due.length := by
      rw [← List.length_map (f := Resolved.toDue), hdue, List.length_take]
    rw [hprogress, List.getLast?_map, Option.map_eq_some_iff] at hp
    obtain ⟨g, hg, rfl⟩ := hp
    have hlast : g + 1 = started.length := by
      rw [List.getLast?_range] at hg
      split at hg
      · cases hg
      · have := Option.some.inj hg
        omega
    rw [hlength, ← hlast]

theorem exists_runCalls (h : ∀ d ∈ due, d.call.Resolves config.timeout cancellation.at_) :
    ∃ s, runCalls config cancellation due = .ok s := by
  refine exists_foldlM_runGroup (s := .initial cancellation) (fun ds hds d hd => h d ?_) 0
  rw [← flatten_groupsOf (groupSize_pos config) (le_refl due.length)]
  exact List.mem_flatten.2 ⟨ds, hds, hd⟩

end

/-- A run under a cancellation. Its calls are all calls of its first groups, and no group is started after the cancellation;
a call that is in flight then is cancelled unless it ends by then; the layouts are those of the calls that answered before, a
later one of a name in the place of an earlier one; and progress is reported for each group that was started. The run comes to
an end when its calls do, be it through the cancellation. -/
theorem run_stopped (config : Config) (cancellation : Cancellation) (script : Script) :
    (∀ s, runCalls config cancellation script.due = .ok s →
      ∃ started, Stopped config.timeout (max 1 config.concurrency) cancellation script.due s started) ∧
      ((∀ p ∈ script, p.1.bundle.isSome = true → p.2.Resolves config.timeout cancellation.at_) →
        ∃ s, runCalls config cancellation script.due = .ok s) ∧
      ∀ inference, (∀ p ∈ script, ∀ b, p.1.bundle = some b → inference b = p.2) →
        run config cancellation inference (script.map (·.1)) = runCalls config cancellation script.due := by
  refine ⟨fun s h => stopped_of_runCalls h, fun h => exists_runCalls fun d hd => ?_, fun inference h => ?_⟩
  · obtain ⟨p, hp, hdue⟩ := List.mem_filterMap.1 hd
    obtain ⟨b, hb, rfl⟩ := Option.map_eq_some_iff.1 hdue
    exact h p hp (by rw [hb]; rfl)
  · rw [run, plan_eq_due h]

/-! Three calls in groups of two, cancelled while the second one is in flight. -/

namespace Interrupted

def bundle (name : String) : Bundle := { entity := name, package := "", constants := {}, fields := [], routine := "" }

def message (name : String) (bundle : Option Bundle) : Message :=
  { id := ⟨name, "", "", ""⟩, constants := {}, fields := [], imports := [], bundle }

def layout : Layout := {
  entity := "a"
  fields := []
  totalFixedSize := 0
  hasVariableSection := false
  variableSectionStart := none
  nullBits := ∅
  notes := none }

def script : Script := [(message "a" (bundle "a"), ⟨3, .answers (.ok layout)⟩), (message "x" none, ⟨0, .hangs⟩),
  (message "b" (bundle "b"), ⟨0, .hangs⟩), (message "c" (bundle "c"), ⟨0, .answers (.ok layout)⟩)]

def config : Config := { concurrency := 2, timeout := none }

def cancellation : Cancellation := { at_ := some 5 }

end Interrupted

/-- The first call is accepted, the second is cancelled although it has no limit, and the third is never made. -/
theorem run_stopped_interrupted :
    ∃ s started, runCalls Interrupted.config Interrupted.cancellation Interrupted.script.due = .ok s ∧
      Stopped none 2 Interrupted.cancellation Interrupted.script.due s started ∧ started.length = 1 ∧
      s.started = [Interrupted.bundle "a", Interrupted.bundle "b"] ∧
      s.calls.map (fun r => (r.ending.time, r.ending.fate)) = [(3, .ended), (5, .cancelled)] ∧
      s.layouts.find? "a" = some Interrupted.layout ∧ s.progress = [⟨2, 3, 1, 2⟩] := by
  obtain ⟨hstopped, hends, -⟩ := run_stopped Interrupted.config Interrupted.cancellation Interrupted.script
  obtain ⟨s, hrun⟩ := hends (by simp [Interrupted.script, Call.Resolves, Interrupted.cancellation])
  obtain ⟨started, h⟩ := hstopped s hrun
  have hseen : (runCalls Interrupted.config Interrupted.cancellation Interrupted.script.due).toOption.map
      (fun s => (s.calls.map fun r => (r.ending.time, r.ending.fate), s.layouts.find? "a", s.progress)) =
        some ([(3, .ended), (5, .cancelled)], some Interrupted.layout, [⟨2, 3, 1, 2⟩]) := by decide
  rw [hrun] at hseen
  obtain ⟨hcalls, hlayouts, hprogress⟩ := Prod.mk.inj (Option.some.inj hseen) |>.imp id Prod.mk.inj
  have hlength : started.length = 1 := by
    have := congrArg List.length (h.progress.symm.trans hprogress)
    simpa using this
  refine ⟨s, started, hrun, h, hlength, ?_, hcalls, hlayouts, hprogress⟩
  rw [h.made, hlength]
  rfl

end WireLayout.Batch
