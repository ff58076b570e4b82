import WireLayout.Proofs.Batch.Run

/-! The groups of a run that nobody cancels. It makes the call of every message with a bundle, once and in order. The
calls of a group begin together, at the instant at which the last call of the groups before has ended by itself or at its
deadline, so no more calls are in flight at any instant than a group has members. -/

namespace WireLayout.Batch

/-! Cutting a list into groups. -/

section

variable {α β : Type} {size fuel : Nat} {xs : List α}

theorem groupsOf_map (f : α → β) (size fuel : Nat) (xs : List α) :
    groupsOf size fuel (xs.map f) = (groupsOf size fuel xs).map (List.map f) := by
  induction fuel generalizing xs with
  | zero => rfl
  | succ fuel ih =>
    rw [groupsOf, groupsOf, List.isEmpty_map, ← List.map_take, ← List.map_drop, ih]
    split <;> rfl

theorem getElem?_groupsOf (h : 0 < size) (hf : xs.length ≤ fuel) (g : Nat) :
    (groupsOf size fuel xs)[g]? = if g * size < xs.length then some ((xs.drop (g * size)).take size) else none := by
  induction fuel generalizing xs g with
  | zero =>
    rw [Nat.le_zero, List.length_eq_zero_iff] at hf
    subst hf
    simp [groupsOf]
  | succ fuel ih =>
    cases xs with
    | nil => simp [groupsOf]
    | cons x rest =>
      have hdrop : ((x :: rest).drop size).length ≤ fuel := by
        rw [List.length_drop]
        omega
      rw [groupsOf]
      simp only [List.isEmpty_cons, Bool.false_eq_true, if_false]
      cases g with
      | zero => simp
      | succ g =>
        rw [List.getElem?_cons_succ, ih hdrop, List.drop_drop, List.length_drop, Nat.succ_mul, Nat.add_comm size]
        refine if_congr ?_ rfl rfl
        omega

theorem length_groupsOf (h : 0 < size) (hf : xs.length ≤ fuel) :
    (groupsOf size fuel xs).length = (xs.length + size - 1) / size := by
  have hlast : ∀ g, g < (groupsOf size fuel xs).length ↔ g < (xs.length + size - 1) / size := by
    intro g
    have hbound : xs.length + size - 1 - (size - 1) = xs.length := by omega
    have hget : g < (groupsOf size fuel xs).length ↔ (groupsOf size fuel xs)[g]?.isSome = true := by simp
    rw [Nat.lt_div_iff_mul_lt h, hbound, hget, getElem?_groupsOf h hf]
    by_cases hg : g * size < xs.length <;> simp [hg]
  exact le_antisymm (not_lt.1 fun hlt => lt_irrefl _ ((hlast _).1 hlt)) (not_lt.1 fun hlt => lt_irrefl _ ((hlast _).2 hlt))

theorem length_le_of_mem_groupsOf {group : List α} (h : group ∈ groupsOf size fuel xs) : group.length ≤ size := by
  induction fuel generalizing xs with
  | zero => cases h
  | succ fuel ih =>
    rw [groupsOf] at h
    split at h
    · cases h
    · rcases List.mem_cons.1 h with rfl | h
      · exact List.length_take_le _ _
      · exact ih h

end

/-! How a call ends. -/

/-- The call comes to an end: it answers after its delay or, if it never does, there is a limit on its time. -/
def Call.Ends (timeout : Option Nat) (call : Call) : Prop :=
  (∃ result, call.outcome = .answers result) ∨ call.outcome = .hangs ∧ timeout.isSome = true

/-- What became of a call that was made: it answered within its time, or was given up at the end of its time. -/
inductive Resolved.Ended (timeout : Option Nat) (r : Resolved) : Prop where
  | answered (outcome : r.call.outcome = .answers r.ending.result) (fate : r.ending.fate = .ended)
      (time : r.ending.time = r.start + r.call.delay) (inTime : ∀ limit, timeout = some limit → r.call.delay ≤ limit)
  | timedOut (limit : Nat) (limited : timeout = some limit) (late : r.call.outcome = .hangs ∨ limit < r.call.delay)
      (result : r.ending.result = .error (.timeout r.name limit)) (fate : r.ending.fate = .timedOut)
      (time : r.ending.time = r.start + limit)

theorem Resolved.Ended.begun {timeout : Option Nat} {r : Resolved} (h : r.Ended timeout) : r.ending.begun = true := by
  cases h with
  | answered _ fate => simp [Ending.begun, fate]
  | timedOut _ _ _ _ fate => simp [Ending.begun, fate]

theorem Resolved.Ended.not_cancelled {timeout : Option Nat} {r : Resolved} (h : r.Ended timeout) :
    r.ending.metCancellation = false := by
  cases h with
  | answered _ fate => simp [Ending.metCancellation, fate]
  | timedOut _ _ _ _ fate => simp [Ending.metCancellation, fate]

theorem ending_of_ends {timeout : Option Nat} {d : Due} (h : d.call.Ends timeout) (start : Nat) :
    ∃ ending, d.call.ending d.name timeout none start = .ok ending ∧
      (⟨d, start, ending⟩ : Resolved).Ended timeout := by
  have hgiven : ∀ limit, timeout = some limit → d.call.outcome = .hangs ∨ limit < d.call.delay →
      ∃ ending, giveUp d.name timeout none start d.call.delay = .ok ending ∧
        (⟨d, start, ending⟩ : Resolved).Ended timeout := by
    rintro limit rfl hlate
    exact ⟨_, rfl, .timedOut limit rfl hlate rfl rfl rfl⟩
  rcases h with ⟨result, hanswers⟩ | ⟨hhangs, hlimit⟩
  · rw [Call.ending, hanswers]
    dsimp only
    have hpast : isPast none (start + d.call.delay) = false := rfl
    rw [hpast, Bool.not_false, Bool.and_true]
    cases timeout with
    | none => exact ⟨_, rfl, .answered hanswers rfl rfl nofun⟩
    | some limit =>
      by_cases hle : d.call.delay ≤ limit
      · rw [Option.all_some, decide_eq_true hle, if_pos rfl]
        refine ⟨_, rfl, .answered hanswers rfl rfl ?_⟩
        rintro _ ⟨⟩
        exact hle
      · rw [Option.all_some, decide_eq_false hle, if_neg Bool.false_ne_true]
        exact hgiven limit rfl (.inr (Nat.not_le.1 hle))
  · obtain ⟨limit, rfl⟩ := Option.isSome_iff_exists.1 hlimit
    rw [Call.ending, hhangs]
    exact hgiven limit rfl (.inl hhangs)

/-! One group. -/

/-- The run goes on, and nobody is going to cancel it. -/
structure State.Running (s : State) : Prop where
  going : s.cancelled = false
  uncancelled : s.cancelAt = none

/-- What a group adds to a run: calls that begin together and have all ended when the next group begins. -/
structure Adds (timeout : Option Nat) (s s' : State) (calls : List Resolved) : Prop where
  made : s'.calls = s.calls ++ calls
  together : ∀ r ∈ calls, r.start = s.now
  ended : ∀ r ∈ calls, r.Ended timeout
  finished : ∀ r ∈ calls, r.ending.time ≤ s'.now
  later : s.now ≤ s'.now
  completed : s'.completed = s.completed + calls.length
  /-- The calls that were given up are counted on. -/
  counted : s'.maxInFlight ≤ max s.maxInFlight (s.left + calls.length) ∧ s.left ≤ s'.left

theorem peak_le (count : Nat) (calls : List Resolved) : peak count calls ≤ count + calls.length := by
  induction calls generalizing count with
  | nil => exact Nat.zero_le _
  | cons r rest ih =>
    rw [peak, List.length_cons]
    have hsame := ih count
    have hmore := ih (count + 1)
    split
    · split <;> omega
    · omega

theorem foldl_max_le_iff {ns : List Nat} {n c : Nat} : ns.foldl max n ≤ c ↔ n ≤ c ∧ ∀ m ∈ ns, m ≤ c :=
  (List.max?_le_iff List.max?_cons').trans List.forall_mem_cons

section

variable {config : Config} {s : State}

theorem mapM_resolve (hs : s.Running) {ds : List Due} (hends : ∀ d ∈ ds, d.call.Ends config.timeout) :
    ∃ calls, ds.mapM (resolve config s) = .ok calls ∧ calls.map Resolved.toDue = ds ∧
      ∀ r ∈ calls, r.start = s.now ∧ r.Ended config.timeout := by
  induction ds with
  | nil => exact ⟨[], rfl, rfl, by simp⟩
  | cons d ds ih =>
    obtain ⟨ending, hending, hended⟩ := ending_of_ends (hends d List.mem_cons_self) s.now
    obtain ⟨calls, hcalls, hdue, hall⟩ := ih fun d' hd' => hends d' (List.mem_cons_of_mem d hd')
    have hd : resolve config s d = .ok ⟨d, s.now, ending⟩ :=
      (resolve_eq_ok_iff hs.going).2 ⟨rfl, rfl, by rw [hs.uncancelled, hending]⟩
    refine ⟨⟨d, s.now, ending⟩ :: calls, ?_, by rw [List.map_cons, hdue], ?_⟩
    · rw [List.mapM_cons, hd, Except.ok_bind, hcalls]
      rfl
    · exact List.forall_mem_cons.2 ⟨⟨rfl, hended⟩, hall⟩

/-- One group: its calls are made and end, and its progress is reported. -/
theorem runGroup_adds (total groups : Nat) (hs : s.Running) {ds : List Due} (hends : ∀ d ∈ ds, d.call.Ends config.timeout) (n : Nat) :
    ∃ s' calls, runGroup config {} total groups s (ds, n) = .ok s' ∧ s'.Running ∧ calls.map Resolved.toDue = ds ∧
      Adds config.timeout s s' calls ∧
      s'.progress = s.progress ++ [⟨s.completed + ds.length, total, n + 1, groups⟩] := by
  obtain ⟨calls, hcalls, hdue, hall⟩ := mapM_resolve hs hends
  have hlength : calls.length = ds.length := by rw [← hdue, List.length_map]
  have hgoing : (calls.any fun r => r.ending.metCancellation) = false :=
    List.any_eq_false.2 fun r hr => by simp [(hall r hr).2.not_cancelled]
  obtain ⟨hlater, hover⟩ := foldl_max_le_iff.1 (le_refl ((calls.map fun r => r.ending.time).foldl max s.now))
  have hpeak := peak_le s.left calls
  rw [runGroup, if_neg (by simp [hs.going]), hcalls, Except.ok_bind]
  refine ⟨_, calls, rfl, ⟨?_, hs.uncancelled⟩, hdue, ⟨rfl, fun r hr => (hall r hr).1, fun r hr => (hall r hr).2,
    fun r hr => hover _ (List.mem_map_of_mem hr), hlater, rfl, ?_, Nat.le_add_right _ _⟩, ?_⟩
  · simp [State.afterCalls, hs.going, hgoing]
  · change max s.maxInFlight (peak s.left calls) ≤ _
    omega
  · rw [← hlength]
    rfl

end

/-! The groups one after another. -/

/-- The calls of one group are over before those of another one begin. -/
def Before (g h : List Resolved) : Prop := ∀ r ∈ g, ∀ r' ∈ h, r.ending.time ≤ r'.start

/-- What is reported after each of several groups, the first of which has a number. -/
def reports (total groups : Nat) : Nat → Nat → List (List Due) → List Progress
  | _, _, [] => []
  | completed, n, ds :: rest =>
    ⟨completed + ds.length, total, n + 1, groups⟩ :: reports total groups (completed + ds.length) (n + 1) rest

/-- What several groups add to a run, each of them after the one before. -/
structure AddsGroups (timeout : Option Nat) (size : Nat) (s s' : State) (rss : List (List Resolved)) : Prop where
  made : s'.calls = s.calls ++ rss.flatten
  later : ∀ r ∈ rss.flatten, s.now ≤ r.start
  ended : ∀ r ∈ rss.flatten, r.Ended timeout
  together : ∀ g ∈ rss, ∀ r ∈ g, ∀ r' ∈ g, r.start = r'.start
  apart : rss.Pairwise Before
  counted : s'.maxInFlight ≤ max s.maxInFlight (size + s'.left) ∧ s.left ≤ s'.left

section

variable {config : Config} {total size : Nat} {s : State}

/-- The groups of a run, by induction: what a later group adds begins when the earlier ones are over. -/
theorem foldlM_runGroup_adds (total groups : Nat) {gs : List (List Due)} (hs : s.Running)
    (hends : ∀ ds ∈ gs, ∀ d ∈ ds, d.call.Ends config.timeout) (hsize : ∀ ds ∈ gs, ds.length ≤ size) (n : Nat) :
    ∃ s' rss, (gs.zipIdx n).foldlM (runGroup config {} total groups) s = .ok s' ∧
      rss.map (List.map Resolved.toDue) = gs ∧ AddsGroups config.timeout size s s' rss ∧
      s'.progress = s.progress ++ reports total groups s.completed n gs := by
  induction gs generalizing s n with
  | nil =>
    refine ⟨s, [], rfl, rfl, ⟨by simp, by simp, by simp, by simp, .nil, le_max_left _ _, le_rfl⟩, ?_⟩
    rw [reports, List.append_nil]
  | cons ds gs ih =>
    obtain ⟨s₁, calls, hgroup, hs₁, hdue, hadds, hprogress⟩ :=
      runGroup_adds total groups hs (hends ds List.mem_cons_self) n
    obtain ⟨s', rss, hfold, hdues, hlater, hreports⟩ := ih hs₁ (fun ds' h => hends ds' (List.mem_cons_of_mem ds h))
      (fun ds' h => hsize ds' (List.mem_cons_of_mem ds h)) (n + 1)
    have hlength : calls.length = ds.length := by rw [← hdue, List.length_map]
    have hshort := hsize ds List.mem_cons_self
    refine ⟨s', calls :: rss, ?_, by rw [List.map_cons, hdue, hdues], ⟨?_, ?_, ?_, ?_, ?_, ?_⟩, ?_⟩
    · rw [List.zipIdx_cons, List.foldlM_cons, hgroup, Except.ok_bind, hfold]
    · rw [hlater.made, hadds.made, List.flatten_cons, List.append_assoc]
    · refine List.forall_mem_append.2 ⟨fun r hr => (hadds.together r hr).ge, fun r hr => ?_⟩
      exact le_trans hadds.later (hlater.later r hr)
    · exact List.forall_mem_append.2 ⟨hadds.ended, hlater.ended⟩
    · refine List.forall_mem_cons.2 ⟨fun r hr r' hr' => ?_, hlater.together⟩
      rw [hadds.together r hr, hadds.together r' hr']
    · refine List.pairwise_cons.2 ⟨fun g hg r hr r' hr' => ?_, hlater.apart⟩
      exact le_trans (hadds.finished r hr) (hlater.later r' (List.mem_flatten.2 ⟨g, hg, hr'⟩))
    · have hfirst := hadds.counted
      have hrest := hlater.counted
      omega
    · rw [hreports, hprogress, hadds.completed, hlength, reports, List.append_assoc, List.singleton_append]

/-- With groups of one size all but the last report are of full groups. -/
theorem reports_groupsOf (groups : Nat) (h : 0 < size) {fuel : Nat} {ds : List Due} (hf : ds.length ≤ fuel) {completed n : Nat}
    (hfull : ds ≠ [] → completed = n * size) (htotal : completed + ds.length = total) :
    reports total groups completed n (groupsOf size fuel ds) =
      (List.range' n (groupsOf size fuel ds).length).map fun g => ⟨min ((g + 1) * size) total, total, g + 1, groups⟩ := by
  induction fuel generalizing ds completed n with
  | zero => rfl
  | succ fuel ih =>
    cases ds with
    | nil => rfl
    | cons d rest =>
      have hdrop : ((d :: rest).drop size).length = (d :: rest).length - size := List.length_drop
      have htake : ((d :: rest).take size).length = min size (d :: rest).length := List.length_take
      have hcompleted := hfull (List.cons_ne_nil d rest)
      have hlength : 0 < (d :: rest).length := Nat.succ_pos _
      rw [groupsOf]
      simp only [List.isEmpty_cons, Bool.false_eq_true, if_false]
      rw [reports, List.length_cons, List.range'_succ, List.map_cons, ih (by omega), Nat.add_mul, Nat.one_mul]
      · congr 2
        omega
      · intro hne
        have hlong : size < (d :: rest).length := by
          have := List.length_pos_iff.2 hne
          omega
        rw [Nat.add_mul, Nat.one_mul]
        omega
      · omega

end

/-! Calls in flight. -/

def Resolved.InFlight (t : Nat) (r : Resolved) : Prop := r.start ≤ t ∧ t < r.ending.time

instance (t : Nat) (r : Resolved) : Decidable (r.InFlight t) := inferInstanceAs (Decidable (_ ∧ _))

/-- When groups follow one another, the calls that are in flight at an instant are of one group. -/
theorem countP_inFlight_le {size : Nat} {rss : List (List Resolved)} (happart : rss.Pairwise Before)
    (hsize : ∀ g ∈ rss, g.length ≤ size) (t : Nat) :
    rss.flatten.countP (fun r => r.InFlight t) ≤ size := by
  induction rss with
  | nil => simp
  | cons g rss ih =>
    rw [List.pairwise_cons] at happart
    rw [List.flatten_cons, List.countP_append]
    by_cases hnone : ∀ r ∈ g, ¬ r.InFlight t
    · have hzero : g.countP (fun r => r.InFlight t) = 0 := List.countP_eq_zero.2 (by simpa using hnone)
      rw [hzero, Nat.zero_add]
      exact ih happart.2 fun g' hg' => hsize g' (List.mem_cons_of_mem g hg')
    · obtain ⟨r, hr, hflight⟩ : ∃ r ∈ g, r.InFlight t := by simpa using hnone
      have hzero : rss.flatten.countP (fun r => r.InFlight t) = 0 := by
        refine List.countP_eq_zero.2 fun r' hr' => ?_
        obtain ⟨g', hg', hr'⟩ := List.mem_flatten.1 hr'
        have hbefore : r.ending.time ≤ r'.start := happart.1 g' hg' r hr r' hr'
        have hlate : ¬ r'.InFlight t := fun h => absurd (lt_of_lt_of_le hflight.2 hbefore) (not_lt.2 h.1)
        simpa using hlate
      rw [hzero, Nat.add_zero]
      exact le_trans List.countP_le_length (hsize g List.mem_cons_self)

/-! A whole run. -/

/-- A run that has made all calls that were due, in groups of a size. -/
structure Grouped (timeout : Option Nat) (size : Nat) (due : List Due) (s : State) : Prop where
  made : s.calls.map Resolved.toDue = due
  ended : ∀ r ∈ s.calls, r.Ended timeout
  together : ∀ i j (hi : i < s.calls.length) (hj : j < s.calls.length), i / size = j / size →
    s.calls[i].start = s.calls[j].start
  apart : ∀ i j (hi : i < s.calls.length) (hj : j < s.calls.length), i / size < j / size →
    s.calls[i].ending.time ≤ s.calls[j].start
  inFlight : ∀ t, s.calls.countP (fun r => r.InFlight t) ≤ size
  /-- Counted on after they are given up, calls exceed the bound at most by those that were given up. -/
  counted : s.maxInFlight ≤ size + s.left
  progress : s.progress = (List.range ((due.length + size - 1) / size)).map fun g =>
    ⟨min ((g + 1) * size) due.length, due.length, g + 1, (due.length + size - 1) / size⟩

/-- The member of a list at an index is in the group of its index. -/
theorem mem_group {α : Type} {size : Nat} (h : 0 < size) {xs : List α} {i : Nat} (hi : i < xs.length) :
    ∃ hg : i / size < (groupsOf size xs.length xs).length, xs[i] ∈ (groupsOf size xs.length xs)[i / size] := by
  have hle : i / size * size ≤ i := Nat.div_mul_le_self i size
  have hlt : i < i / size * size + size := Nat.lt_div_mul_add h
  have hget := getElem?_groupsOf h (le_refl xs.length) (i / size)
  rw [if_pos (lt_of_le_of_lt hle hi)] at hget
  obtain ⟨hg, hget⟩ := List.getElem?_eq_some_iff.1 hget
  refine ⟨hg, ?_⟩
  rw [hget, List.mem_iff_getElem]
  refine ⟨i - i / size * size, by rw [List.length_take, List.length_drop]; omega, ?_⟩
  rw [List.getElem_take, List.getElem_drop]
  congr 1
  omega

/-- Groups that are made of all calls of a list, in the lengths of its groups, are its groups. -/
theorem eq_groupsOf {α β : Type} {size : Nat} (h : 0 < size) {f : α → β} {gs : List (List α)}
    (hgs : gs.map (List.map f) = groupsOf size (gs.flatten.map f).length (gs.flatten.map f)) :
    gs = groupsOf size gs.flatten.length gs.flatten := by
  have hlengths : ∀ hs : List (List α), hs.map List.length = (hs.map (List.map f)).map List.length := by
    intro hs
    simp [Function.comp_def]
  refine List.eq_iff_flatten_eq.2 ⟨(flatten_groupsOf h le_rfl).symm, ?_⟩
  rw [hlengths gs, hlengths (groupsOf _ _ _), hgs, ← groupsOf_map, List.length_map]

section

variable {config : Config} {messages : List Message} {due : List Due}

/-- A run whose calls have all ended has begun the call of every message with a bundle, in order. -/
theorem started_eq {s : State} {timeout : Option Nat} (hended : ∀ r ∈ s.calls, r.Ended timeout)
    (hmade : s.calls.map Resolved.toDue = due) (hdue : due.map Due.pending = pending messages) :
    s.started = messages.filterMap (·.bundle) := by
  have hall : (s.calls.filter fun r => r.ending.begun) = s.calls :=
    List.filter_eq_self.2 fun r hr => (hended r hr).begun
  have hbundles : s.calls.map (·.bundle) = (due.map Due.pending).map (·.2) := by
    rw [← hmade, List.map_map, List.map_map]
    rfl
  rw [State.started, hall, hbundles, hdue, pending, List.map_filterMap]
  congr 1
  funext m
  rw [Option.map_map]
  exact Option.map_id'

/-- Whatever its calls come to, if each comes to an end, a run that nobody cancels makes the call of every message with a
bundle once and in order. A call begins when all calls of the groups before have ended or were given up at their
deadline, so that at any instant no more calls are in flight than a group has members, and progress is reported once a
group. -/
theorem runCalls_grouped (hdue : due.map Due.pending = pending messages)
    (hends : ∀ d ∈ due, d.call.Ends config.timeout) :
    ∃ s, runCalls config {} due = .ok s ∧
      (∀ inference, plan inference messages = due → run config {} inference messages = .ok s) ∧
      s.started = messages.filterMap (·.bundle) ∧ Grouped config.timeout (max 1 config.concurrency) due s := by
  have hpos := groupSize_pos config
  have hflatten := flatten_groupsOf hpos (le_refl due.length)
  have hgroups : ∀ ds ∈ groupsOf config.groupSize due.length due, ∀ d ∈ ds, d.call.Ends config.timeout :=
    fun ds hds d hd => hends d (hflatten ▸ List.mem_flatten.2 ⟨ds, hds, hd⟩)
  obtain ⟨s, rss, hrun, hdues, hadds, hprogress⟩ := foldlM_runGroup_adds due.length
    (groupsOf config.groupSize due.length due).length (s := .initial {}) ⟨rfl, rfl⟩ hgroups
    (fun ds hds => length_le_of_mem_groupsOf hds) 0
  have hcalls : s.calls = rss.flatten := hadds.made
  have hmade : s.calls.map Resolved.toDue = due := by rw [hcalls, List.map_flatten, hdues, hflatten]
  -- the groups of the run are the groups of its calls, since they have the same lengths
  have hcut : rss = groupsOf config.groupSize s.calls.length s.calls := by
    rw [hcalls]
    exact eq_groupsOf hpos (by rw [← hcalls, hmade, hdues])
  have hended : ∀ r ∈ s.calls, r.Ended config.timeout := hcalls ▸ hadds.ended
  have hinference : ∀ inference, plan inference messages = due → run config {} inference messages = .ok s := by
    rintro inference rfl
    exact hrun
  refine ⟨s, hrun, hinference, started_eq hended hmade hdue, hmade, hended, fun i j hi hj hij => ?_,
    fun i j hi hj hij => ?_, fun t => ?_, ?_, ?_⟩
  · obtain ⟨hgi, hmi⟩ := mem_group hpos hi
    obtain ⟨hgj, hmj⟩ := mem_group hpos hj
    refine hadds.together _ (hcut ▸ List.getElem_mem hgi) _ hmi _ ?_
    have hij : i / config.groupSize = j / config.groupSize := hij
    simpa only [hij] using hmj
  · obtain ⟨hgi, hmi⟩ := mem_group hpos hi
    obtain ⟨hgj, hmj⟩ := mem_group hpos hj
    have happart : (groupsOf config.groupSize s.calls.length s.calls).Pairwise Before := hcut ▸ hadds.apart
    have hbefore : Before _ _ := List.pairwise_iff_getElem.1 happart _ _ hgi hgj hij
    exact hbefore _ hmi _ hmj
  · rw [hcalls]
    exact countP_inFlight_le hadds.apart (fun g hg => length_le_of_mem_groupsOf (hcut ▸ hg)) t
  · have hcounted : s.maxInFlight ≤ max 0 (config.groupSize + s.left) := hadds.counted.1
    rwa [Nat.zero_max] at hcounted
  · have hreports : s.progress = reports due.length (groupsOf config.groupSize due.length due).length 0 0
        (groupsOf config.groupSize due.length due) := hprogress
    rw [hreports, reports_groupsOf _ hpos le_rfl (fun _ => (Nat.zero_mul _).symm) (Nat.zero_add _),
      length_groupsOf hpos le_rfl, List.range_eq_range']
    rfl

end

/-! Two calls of one message, of which the first never answers, and a message without a bundle between them. -/

namespace Stalled

def bundle (name : String) : Bundle := { entity := name, package := "", constants := {}, fields := [], routine := "" }

def message (name : String) (bundled : Bool) : Message := {
  id := ⟨name, "", "", ""⟩
  constants := {}
  fields := []
  imports := []
  bundle := if bundled then some (bundle name) else none }

def messages : List Message := [message "a" true, message "b" false, message "a" true, message "c" true]

def due : List Due := [⟨"a", bundle "a", ⟨0, .hangs⟩⟩, ⟨"a", bundle "a", ⟨3, .answers (.error (.internal "no"))⟩⟩,
  ⟨"c", bundle "c", ⟨2, .answers (.error (.internal "no"))⟩⟩]

def config : Config := { concurrency := 2, timeout := some 5 }

end Stalled

/-- The last call waits for the limit of the first one. -/
theorem runCalls_grouped_stalled :
    Stalled.due.map Due.pending = pending Stalled.messages ∧ (∀ d ∈ Stalled.due, d.call.Ends (some 5)) ∧
      ∃ s, runCalls Stalled.config {} Stalled.due = .ok s ∧
        s.started = [Stalled.bundle "a", Stalled.bundle "a", Stalled.bundle "c"] ∧
        Grouped (some 5) 2 Stalled.due s ∧
        s.calls.map (fun r => (r.start, r.ending.time)) = [(0, 5), (0, 3), (5, 7)] := by
  have hends : ∀ d ∈ Stalled.due, d.call.Ends (some 5) := by
    intro d hd
    simp only [Stalled.due, List.mem_cons, List.not_mem_nil, or_false] at hd
    rcases hd with rfl | rfl | rfl
    · exact .inr ⟨rfl, rfl⟩
    · exact .inl ⟨_, rfl⟩
    · exact .inl ⟨_, rfl⟩
  have hdue : Stalled.due.map Due.pending = pending Stalled.messages := rfl
  have hlimit : ∀ d ∈ Stalled.due, d.call.Ends Stalled.config.timeout := hends
  obtain ⟨s, hrun, -, hstarted, hgrouped⟩ := runCalls_grouped hdue hlimit
  have htimes : (runCalls Stalled.config {} Stalled.due).toOption.map
      (fun s => s.calls.map fun r => (r.start, r.ending.time)) = some [(0, 5), (0, 3), (5, 7)] := by decide
  rw [hrun] at htimes
  exact ⟨hdue, hends, s, hrun, hstarted, hgrouped, Option.some.inj htimes⟩

end WireLayout.Batch
