import WireLayout.Proofs.Java.Mask
import WireLayout.Proofs.Routine.Controls
import WireLayout.Proofs.Routine.Guardless

/-! What braces around a controlled statement change. The braces make a header of the control and push its guard on the
blocks around, where the statement without braces is taken apart by itself. Both come to the same guard but for an
`else`, which lifts the guard of the blocks around it only without braces, and both read the statement unless two
conditions stand in front of it. -/

namespace WireLayout.Routine

open WireLayout.Java WireLayout.Text

/-! One statement. -/

theorem trim_trimBlank (cs : List Char) : trim isSpace (trimBlank id cs) = trim isSpace cs := by
  obtain ⟨before, after, hcs, hbefore, hafter⟩ := exists_trim isAsciiSpace cs
  have htrim : trim isSpace (before ++ (trim isAsciiSpace cs ++ after)) = trim isSpace (trim isAsciiSpace cs) := by
    rw [trim_append_left (isSpace_of_blank hbefore), trim_append_right (isSpace_of_blank hafter)]
  rw [← hcs] at htrim
  exact htrim.symm

theorem Reader.statement_congr (r : Reader) (nullBit : Option Nat) {cs ds : List Char}
    (h : trim isSpace cs = trim isSpace ds) : r.statement nullBit cs = r.statement nullBit ds := by
  rw [statement, statement, Statement.parse?, Statement.parse?, h]

theorem Reader.statement_trimBlank (r : Reader) (nullBit : Option Nat) (cs : List Char) :
    r.statement nullBit (trimBlank id cs) = r.statement nullBit cs :=
  r.statement_congr nullBit (trim_trimBlank cs)

theorem Reader.statement_space (r : Reader) (nullBit : Option Nat) (cs : List Char) :
    r.statement nullBit (' ' :: cs) = r.statement nullBit cs :=
  r.statement_congr nullBit (trim_append_left (show ∀ c ∈ [' '], isSpace c = true by simp [isSpace]))

/-- The guard of a statement matters only for the fact that it makes. -/
theorem Reader.simpleStatement_nullBit (r : Reader) (body : List Char) :
    (∀ nullBit nullBit', r.simpleStatement nullBit body = r.simpleStatement nullBit' body) ∨
      ∃ name reading, (∀ f ∈ r.facts, f.name ≠ name) ∧
        ∀ nullBit, r.simpleStatement nullBit body = { r with facts := r.facts ++ [⟨name, reading, nullBit⟩] } := by
  cases ha : memberAssignment? body with
  | none =>
    refine .inl fun nullBit nullBit' => ?_
    rw [simpleStatement, simpleStatement, ha]
  | some found =>
    obtain ⟨member, value⟩ := found
    simp only [simpleStatement_of_memberAssignment? r _ ha]
    unfold assign
    split
    · rename_i hnew
      rw [Bool.and_eq_true, Bool.not_eq_true', List.any_eq_false] at hnew
      cases hv : r.valueReading? value with
      | none => exact .inl fun _ _ => rfl
      | some reading => exact .inr ⟨member, reading, by simpa using hnew.2, fun _ => rfl⟩
    · exact .inl fun _ _ => rfl

/-- A statement under a control, which does not begin with an `else` of its own. -/
structure Controlled where
  control : Control
  text : List Char
  inner : Statement
  wellFormed : control.WellFormed
  parsed : Statement.parse? text = some inner
  notElse : inner.afterElse = false

namespace Controlled

variable (k : Controlled)

def steps : List Step := [.execute (trimBlank id (k.control.text ++ k.text))]

def bracedSteps : List Step := [.enter (trimBlank id k.control.text), .execute (trimBlank id (' ' :: k.text)), .leave]

def depth : Nat := k.control.depth k.inner

/-- The bit that the first condition in front of the statement tests. -/
def own? (r : Reader) : Option Nat := (k.control.condition? k.inner).bind r.guard?

/-- The `else` stands among blocks with a guard and before no condition with a bit of its own. -/
def LosesGuard (w : Walker) : Prop :=
  k.control.afterElse.isSome = true ∧ k.own? w.reader = none ∧ (Reader.innermost w.guards).isSome = true

variable {k} (w : Walker)

theorem run_steps (hd : k.depth ≤ 1) :
    w.run k.steps = ⟨w.reader.simpleStatement
      (k.own? w.reader <|> if k.control.afterElse.isSome then none else Reader.innermost w.guards) k.inner.body,
      w.guards⟩ := by
  have hparse := Control.parse?_text k.wellFormed k.parsed k.notElse hd
  rw [steps, Walker.run_cons, Walker.run_nil, Walker.step, Reader.statement_trimBlank, Reader.statement, hparse]
  rfl

/-- The condition is in front of the braces or behind them, and guards the same. -/
theorem guardUnder_inner (hd : k.depth ≤ 1) (r : Reader) (guards : List (Option Nat)) :
    k.inner.guardUnder r (Reader.innermost (r.guard? (trimBlank id k.control.text) :: guards)) =
      (k.own? r <|> Reader.innermost guards) := by
  have hconditions : k.control.conditions.length ≤ 1 := le_trans (Nat.le_add_right _ _) hd
  have hinnermost : ∀ guard, Reader.innermost (guard :: guards) = (guard <|> Reader.innermost guards) := by
    intro guard
    cases guard <;> rfl
  rw [hinnermost, Control.guard?_header k.wellFormed hconditions, Statement.guardUnder, k.notElse, own?,
    Control.condition?]
  cases hcond : k.control.conditions with
  | nil => simp
  | cons h rest =>
    have hnone : k.inner.condition = none := by
      simp only [depth, Control.depth, hcond, List.length_cons] at hd
      cases hsome : k.inner.condition with
      | none => rfl
      | some condition =>
        simp only [hsome, Option.toList_some, List.length_singleton] at hd
        omega
    simp [hnone]

theorem run_bracedSteps (hd : k.depth ≤ 1) :
    w.run k.bracedSteps = ⟨w.reader.simpleStatement (k.own? w.reader <|> Reader.innermost w.guards) k.inner.body,
      w.guards⟩ := by
  have hstatement : ∀ nullBit, w.reader.statement nullBit (trimBlank id (' ' :: k.text)) =
      w.reader.simpleStatement (k.inner.guardUnder w.reader nullBit) k.inner.body := by
    intro nullBit
    rw [Reader.statement_trimBlank, Reader.statement_space, Reader.statement, k.parsed]
  simp only [bracedSteps, Walker.run_cons, Walker.run_nil, Walker.step, hstatement, guardUnder_inner hd, List.tail_cons]

theorem run_steps_of_two (hd : 2 ≤ k.depth) : w.run k.steps = w := by
  rw [steps, Walker.run_cons, Walker.run_nil, Walker.step, Reader.statement_trimBlank,
    Control.statement_text k.wellFormed k.parsed k.notElse hd]

theorem run_steps_eq (hd : k.depth ≤ 1) (hg : ¬ k.LosesGuard w) : w.run k.steps = w.run k.bracedSteps := by
  rw [run_steps w hd, run_bracedSteps w hd]
  congr 2
  cases helse : k.control.afterElse with
  | none => rfl
  | some gap =>
    cases hown : k.own? w.reader with
    | some bit => rfl
    | none =>
      have hnone : Reader.innermost w.guards = none := by
        by_contra hne
        exact hg ⟨by rw [helse]; rfl, hown, Option.isSome_iff_ne_none.2 hne⟩
      simp [hnone]

/-- Where a guard is lost, the fact that the statement makes lacks its bit. -/
theorem run_steps_of_losesGuard (hd : k.depth ≤ 1) (hg : k.LosesGuard w) :
    w.run k.steps = w.run k.bracedSteps ∨
      ∃ name, (∀ fact ∈ w.reader.facts, fact.name ≠ name) ∧ w.run k.steps = (w.run k.bracedSteps).unguard name ∧
        ∃ fact ∈ (w.run k.bracedSteps).reader.facts, fact.name = name ∧ fact.nullBit = Reader.innermost w.guards := by
  obtain ⟨helse, hown, -⟩ := hg
  rw [run_steps w hd, run_bracedSteps w hd, hown, helse, if_pos rfl]
  rcases w.reader.simpleStatement_nullBit k.inner.body with hsame | ⟨name, reading, hnew, hmakes⟩
  · exact .inl (congrArg (Walker.mk · w.guards) (hsame _ _))
  · refine .inr ⟨name, hnew, ?_, ?_⟩
    · have hold : w.reader.facts.map (Fact.unguard name) = w.reader.facts :=
        (List.map_congr_left fun fact hfact => Fact.unguard_of_ne (hnew fact hfact)).trans (List.map_id' _)
      simp [hmakes, Walker.unguard, Reader.unguard, hold, Fact.unguard]
    · simp [hmakes]

end Controlled

/-! A statement in its routine. -/

/-- A text that ends between two steps. -/
def Whole (cs : List Char) : Prop := ∀ rest, stepsOf (cs ++ rest) = stepsOf cs ++ stepsOf rest

theorem Whole.append {cs ds : List Char} (h : Whole cs) (hd : Whole ds) : Whole (cs ++ ds) := by
  intro rest
  rw [List.append_assoc, h, hd, h, List.append_assoc]

/-- A text is whole when its last character ends its only step. -/
theorem whole_of_ends {cs : List Char} {mark : Char} {step : Step}
    (h : ∀ rest, stepsOf (cs ++ mark :: rest) = step :: stepsOf rest) : Whole (cs ++ [mark]) := by
  intro rest
  have hone : stepsOf (cs ++ [mark]) = [step] := h []
  rw [List.append_assoc, hone]
  exact h rest

/-- Blanks in front of what is read are trimmed away with it. -/
theorem stepsFrom_blank {gap : List Char} (hgap : Blank gap) (read : List Char) (found : List (Item Char)) :
    stepsFrom (read ++ gap) found = stepsFrom read found := by
  induction found generalizing read with
  | nil => rfl
  | cons item rest ih =>
    cases item with
    | group o inside c => exact ih (c :: (inside.reverse ++ o :: read)) ▸ by simp [stepsFrom]
    | single c =>
      have htrim : trimBlank id (read ++ gap).reverse = trimBlank id read.reverse := by
        rw [List.reverse_append]
        exact trim_append_left fun c hc => hgap c (List.mem_reverse.1 hc)
      rw [stepsFrom, stepsFrom, htrim]
      exact ih (c :: read) ▸ rfl

theorem whole_blank {cs : List Char} (h : Blank cs) : Whole cs := by
  intro rest
  have hpassed : stepsOf (cs ++ rest) = stepsFrom (cs.reverse ++ []) (items id parenthesis? rest) := passed_gap h [] rest
  have hreverse : Blank cs.reverse := fun c hc => h c (List.mem_reverse.1 hc)
  have hblank := stepsFrom_blank hreverse [] (items id parenthesis? rest)
  rw [stepsOf_end (passed_gap h), hpassed, List.append_nil]
  exact hblank

/-- A controlled statement without braces in the body of a routine. `front` is the source up to the statement, `rest` what
follows its semicolon; both are outside comments and literals there. Of what is shown, `signature` stands before
the brace of the body and `lead` between the brace and the control. -/
structure Branch (b : Bundle) where
  front : List Char
  source : List Char
  rest : List Char
  signature : List Char
  between : List Char
  call : Call
  lead : List Char
  statement : Controlled
  tail : List Char
  after : List Char
  routine : b.routine.toList = front ++ (source ++ ';' :: rest)
  front_code : EndsInCode front
  source_code : EndsInCode source
  apart : Apart source
  shown_front : views (cells front) = signature ++ '{' :: (lead ++ statement.control.text)
  shown_source : views (cells source) = statement.text
  found : findCall routineName (signature ++ ['{']) = some call
  body : call.after = between ++ ['{'] ∧ '{' ∉ between
  whole : Whole lead
  passed : Passed statement.text
  nested : Nested '{' '}' statement.text
  closes : closing id '{' '}' 1 (lead ++ (statement.control.text ++ (statement.text ++ ';' :: views (cells rest)))) =
    some (lead ++ (statement.control.text ++ (statement.text ++ ';' :: tail)), after)

namespace Branch

variable {b : Bundle} (br : Branch b)

def braced : Bundle :=
  { b with routine := String.ofList (br.front ++ ('{' :: ' ' :: (br.source ++ ';' :: ' ' :: '}' :: br.rest))) }

theorem shown : views (cells b.routine.toList) = br.signature ++ '{' :: (br.lead ++
    (br.statement.control.text ++ (br.statement.text ++ ';' :: views (cells br.rest)))) := by
  have hapart : Apart (br.source ++ ';' :: br.rest) := by
    cases hsource : br.source with
    | nil => simp
    | cons c cs => exact apart_cons.2 (apart_cons.1 (hsource ▸ br.apart))
  rw [br.routine, cells_append br.front_code hapart, cells_append br.source_code (by simp), views_append, views_append,
    views_cells_cons (by decide), br.shown_front, br.shown_source]
  simp

theorem shown_braced : views (cells br.braced.routine.toList) = br.signature ++ '{' :: (br.lead ++
    (br.statement.control.text ++ ('{' :: ' ' :: (br.statement.text ++ ';' :: ' ' :: '}' :: views (cells br.rest))))) := by
  rw [braced, String.toList_ofList, cells_append br.front_code (by simp), views_append, views_cells_cons (by decide),
    views_cells_cons (by decide), cells_append br.source_code (by simp), views_append, views_cells_cons (by decide),
    views_cells_cons (by decide), views_cells_cons (by decide), br.shown_front, br.shown_source]
  simp

/-- The reader before the body; the signature may break it off. -/
def start? : Except Fault Reader :=
  (br.call.arguments.mapM parameterName).map fun names =>
    ⟨(names.filterMap id)[1]?.getD "offset".toList, b.fieldNames, [], [], ∅, []⟩

/-- A routine with the signature of the branch begins with the same reader. -/
theorem course_of_shown {b' : Bundle} {body inside after : List Char} (hfields : b'.fieldNames = b.fieldNames)
    (hshown : views (cells b'.routine.toList) = br.signature ++ '{' :: body)
    (hclose : closing id '{' '}' 1 body = some (inside, after)) :
    course b' = br.start?.map (·, stepsOf inside) := by
  have hlast : (br.signature ++ ['{']).getLast? = some '{' := List.getLast?_concat
  have hcall : findCall routineName (br.signature ++ '{' :: body) =
      some { br.call with after := br.call.after ++ body } := by
    have hfound : findCall routineName (br.signature ++ ['{'] ++ body) = _ :=
      findCall_before_mark br.found hlast (isWordOrDollar_of_ascii (by decide) (by decide)) (by decide) (by decide)
    rwa [List.append_assoc] at hfound
  have hbody : (br.call.after ++ body).dropWhile (· ≠ '{') = '{' :: body := by
    have hbetween : ∀ c ∈ br.between, decide (c ≠ '{') = true := by
      intro c hc
      rw [decide_eq_true_eq]
      rintro rfl
      exact br.body.2 hc
    rw [br.body.1, List.append_assoc, List.dropWhile_append_of_pos hbetween]
    exact List.dropWhile_cons_of_neg (by simp)
  have hparts : parts? (br.signature ++ '{' :: body) =
      (br.call.arguments.mapM parameterName).map fun names => some (names.filterMap id, inside) := by
    simp only [parts?, hcall, hbody]
    cases br.call.arguments.mapM parameterName with
    | error fault => rfl
    | ok names => simp [bind, Except.bind, Except.map, hclose]
  rw [course, trace?, hshown, hparts, start?, hfields]
  cases br.call.arguments.mapM parameterName <;> rfl

def before : List Step := stepsOf br.lead

def later : List Step := stepsOf br.tail

theorem course_eq : course b = br.start?.map (·, br.before ++ (br.statement.steps ++ br.later)) := by
  have hpassed := passed_append (Control.passed_text br.statement.wellFormed) br.passed
  rw [br.course_of_shown rfl br.shown br.closes, br.whole, ← List.append_assoc br.statement.control.text,
    stepsOf_statement hpassed]
  rfl

theorem course_braced : course br.braced = br.start?.map (·, br.before ++ (br.statement.bracedSteps ++ br.later)) := by
  have hplain : Nested '{' '}' (br.statement.text ++ [';']) :=
    nested_append br.nested (nested_of_notMem (by simp) (by simp))
  have hspace : Nested '{' '}' [' '] := nested_of_notMem (by simp) (by simp)
  have hinside : Nested '{' '}' (' ' :: (br.statement.text ++ [';', ' '])) :=
    nested_append hspace (nested_append br.nested (nested_of_notMem (by simp) (by simp)))
  have hcloses : closing id '{' '}' 1 ((br.lead ++ br.statement.control.text) ++
      (('{' :: (' ' :: (br.statement.text ++ [';', ' ']) ++ ['}'])) ++ views (cells br.rest))) =
      some ((br.lead ++ br.statement.control.text) ++
        (('{' :: (' ' :: (br.statement.text ++ [';', ' ']) ++ ['}'])) ++ br.tail), br.after) :=
    closing_replace hplain (nested_bracketed (by decide) hinside) le_rfl (by simpa using br.closes)
  have hclose : closing id '{' '}' 1 (br.lead ++ (br.statement.control.text ++
      ('{' :: ' ' :: (br.statement.text ++ ';' :: ' ' :: '}' :: views (cells br.rest))))) =
      some (br.lead ++ (br.statement.control.text ++
        ('{' :: ' ' :: (br.statement.text ++ ';' :: ' ' :: '}' :: br.tail))), br.after) := by
    simpa using hcloses
  have hblank : Passed [' '] := passed_gap (by simp [isAsciiSpace])
  have hpassed : Passed (' ' :: br.statement.text) := passed_append hblank br.passed
  have hleave : stepsOf (' ' :: '}' :: br.tail) = .leave :: stepsOf br.tail :=
    stepsOf_leave hblank
  have hexecute : stepsOf (' ' :: (br.statement.text ++ ';' :: ' ' :: '}' :: br.tail)) =
      .execute (trimBlank id (' ' :: br.statement.text)) :: .leave :: stepsOf br.tail := by
    rw [← hleave]
    exact stepsOf_statement hpassed
  have hcourse : course br.braced = _ := br.course_of_shown rfl br.shown_braced hclose
  rw [hcourse, br.whole, stepsOf_enter (Control.passed_text br.statement.wellFormed), hexecute]
  rfl

theorem scanned_braced (r : Reader) : r.scanned br.braced = r.scanned b := rfl

end Branch

/-- What braces around a controlled statement change. Both routines break off alike. Under one condition at most the scan is
the same, unless an `else` lifts a guard: then at most the fact of the statement lacks the bit that it has in
braces. Behind two conditions the statement is read in braces only: without them the scan is as if it were not there. -/
theorem scan_braced {b : Bundle} (br : Branch b) :
    (∀ fault, scan b = .error fault ↔ scan br.braced = .error fault) ∧
      ∀ s, scan b = .ok s → ∃ start w s', br.start? = .ok start ∧ w = (Walker.mk start []).run br.before ∧
        scan br.braced = .ok s' ∧
        (br.statement.depth ≤ 1 → ¬ br.statement.LosesGuard w → s' = s) ∧
        (br.statement.depth ≤ 1 → br.statement.LosesGuard w →
          s' = s ∨ ∃ name, (∀ fact ∈ w.reader.facts, fact.name ≠ name) ∧
            s = { s' with facts := s'.facts.map (FieldLayout.unguard name) } ∧
            ∃ f ∈ s'.facts, f.name = name ∧ f.nullBit = Reader.innermost w.guards) ∧
        (2 ≤ br.statement.depth → s = (start.after (br.before ++ br.later)).scanned b) := by
  have hscan : ∀ steps, course b = br.start?.map (·, steps) →
      scan b = br.start?.map fun start => (start.after steps).scanned b := by
    intro steps hcourse
    rw [scan_eq_course, hcourse]
    cases br.start? <;> rfl
  have hbraced : scan br.braced = br.start?.map fun start =>
      (start.after (br.before ++ (br.statement.bracedSteps ++ br.later))).scanned b := by
    rw [scan_eq_course, br.course_braced]
    cases br.start? <;> rfl
  rw [hscan _ br.course_eq, hbraced]
  cases hstart : br.start? with
  | error fault => exact ⟨fun _ => Iff.rfl, nofun⟩
  | ok start =>
    refine ⟨fun _ => ⟨nofun, nofun⟩, fun s hs => ?_⟩
    obtain rfl : (start.after (br.before ++ (br.statement.steps ++ br.later))).scanned b = s := Except.ok.inj hs
    have hafter : ∀ steps, start.after (br.before ++ (steps ++ br.later)) =
        ((((Walker.mk start []).run br.before).run steps).run br.later).reader := by
      intro steps
      rw [Reader.after, Walker.run_append, Walker.run_append]
    refine ⟨start, _, (start.after (br.before ++ (br.statement.bracedSteps ++ br.later))).scanned b, rfl, rfl, rfl,
      fun hd hg => ?_, fun hd hg => ?_, fun hd => ?_⟩
    · rw [hafter, hafter, Controlled.run_steps_eq _ hd hg]
    · obtain hsame | ⟨name, hnew, hlost, fact, hfact, hname, hbit⟩ :=
        Controlled.run_steps_of_losesGuard _ hd hg
      · exact .inl (by rw [hafter, hafter, hsame])
      · refine .inr ⟨name, hnew, ?_, ?_⟩
        · rw [hafter, hafter, hlost, Walker.run_unguard ⟨fact, hfact, hname⟩]
          exact Reader.scanned_unguard _ b
        · have hkept := Walker.subset_facts_run _ br.later hfact
          rw [hafter]
          exact ⟨_, (wireOrder_perm _ _).mem_iff.2 (List.mem_map_of_mem hkept), by simp [hname], by simp [hbit]⟩
    · rw [hafter, Controlled.run_steps_of_two _ hd, Reader.after, Walker.run_append]

namespace LostElse

def bundle : Bundle := .ofRoutine ["a"] <|
  "static T deserialize(B buf, int offset) \x7b byte nullBits = buf.getByte(offset); if ((nullBits & 1) != 0) \x7b " ++
  "if (x) \x7b o.y(); \x7d else o.a = buf.getIntLE(offset + 1); \x7d \x7d"

theorem else_wellFormed : Control.WellFormed ⟨some [' '], []⟩ where
  afterElse := by simp [Blank, isAsciiSpace]
  conditions := by simp
  nonempty := .inl rfl

theorem parse?_assignment : Statement.parse? "o.a = buf.getIntLE(offset + 1)".toList =
    some ⟨false, none, "o.a = buf.getIntLE(offset + 1)".toList⟩ := by decide +kernel

def assignment : Controlled where
  control := ⟨some [' '], []⟩
  text := "o.a = buf.getIntLE(offset + 1)".toList
  inner := ⟨false, none, "o.a = buf.getIntLE(offset + 1)".toList⟩
  wellFormed := else_wellFormed
  parsed := parse?_assignment
  notElse := rfl

def presence : IfHead := ⟨[' '], "(nullBits & 1) != 0".toList, [' ']⟩

def other : IfHead := ⟨[' '], ['x'], [' ']⟩

/-- What stands between the brace of the body and the `else`, one step after the other. -/
def lead : List Char :=
  (" byte nullBits = buf.getByte".toList ++ '(' :: ("offset".toList ++ [')']) ++ [';']) ++
    ((" ".toList ++ presence.text ++ ['{']) ++ ((" ".toList ++ other.text ++ ['{']) ++
      ((" o.y".toList ++ '(' :: ([] ++ [')']) ++ [';']) ++ ((" ".toList ++ ['}']) ++ [' ']))))

theorem presence_wellFormed : presence.WellFormed where
  gap := by simp [Blank, presence, isAsciiSpace]
  condition := by
    have hmask : Nested '(' ')' "nullBits & 1".toList := nested_of_notMem (by decide) (by decide)
    have htest : Nested '(' ')' " != 0".toList := nested_of_notMem (by decide) (by decide)
    exact nested_append (nested_bracketed (by decide) hmask) htest
  after := by simp [Blank, presence, isAsciiSpace]

theorem other_wellFormed : other.WellFormed where
  gap := by simp [Blank, other, isAsciiSpace]
  condition := nested_of_notMem (by decide) (by decide)
  after := by simp [Blank, other, isAsciiSpace]

theorem whole_lead : Whole lead := by
  have hblank : Blank [' '] := by simp [Blank, isAsciiSpace]
  refine .append (whole_of_ends fun _ => stepsOf_statement (passed_append (passed_word rfl) (passed_group ?_))) <|
    .append (whole_of_ends fun _ => stepsOf_enter (passed_append (passed_gap hblank) (passed_ifHead presence_wellFormed))) <|
    .append (whole_of_ends fun _ => stepsOf_enter (passed_append (passed_gap hblank) (passed_ifHead other_wellFormed))) <|
    .append (whole_of_ends fun _ => stepsOf_statement (passed_append (passed_word rfl) (passed_group nested_nil))) <|
    .append (whole_of_ends fun _ => stepsOf_leave (passed_gap hblank)) (whole_blank hblank)
  exact nested_of_notMem (by decide) (by decide)

def branch : Branch bundle where
  front := ("static T deserialize(B buf, int offset) \x7b byte nullBits = buf.getByte(offset); " ++
    "if ((nullBits & 1) != 0) \x7b if (x) \x7b o.y(); \x7d else ").toList
  source := "o.a = buf.getIntLE(offset + 1)".toList
  rest := " \x7d \x7d".toList
  signature := "static T deserialize(B buf, int offset) ".toList
  between := [' ']
  call := ⟨none, ["B buf".toList, "int offset".toList], " \x7b".toList⟩
  lead := lead
  statement := assignment
  tail := " \x7d ".toList
  after := []
  routine := by
    unfold bundle Bundle.ofRoutine
    simp only [String.toList_append, String.reduceToList]
    decide +kernel
  front_code := by
    simp only [String.toList_append, String.reduceToList]
    decide +kernel
  source_code := by decide +kernel
  apart := by simp [Apart]
  shown_front := by
    simp only [String.toList_append, String.reduceToList]
    decide +kernel
  shown_source := by decide +kernel
  found := by decide +kernel
  body := by decide +kernel
  whole := whole_lead
  passed := by
    have hread : Passed "o.a = buf.getIntLE".toList := passed_word rfl
    have harguments : Nested '(' ')' "offset + 1".toList := nested_of_notMem (by decide) (by decide)
    exact passed_append hread (passed_group harguments)
  nested := nested_of_notMem (by decide) (by decide)
  closes := by decide +kernel

def start : Reader := { offsetName := "offset".toList, declared := ["a"] }

theorem start?_branch : branch.start? = .ok start := by decide +kernel

def walker : Walker := (Walker.mk start []).run branch.before

theorem losesGuard_walker : branch.statement.LosesGuard walker := ⟨rfl, rfl, by decide +kernel⟩

theorem scan_bundle :
    scan bundle = .ok ((start.after (branch.before ++ (assignment.steps ++ branch.later))).scanned bundle) := by
  have hcourse : course bundle = .ok (start, branch.before ++ (assignment.steps ++ branch.later)) := by
    rw [branch.course_eq, start?_branch]
    rfl
  exact scan_of_course hcourse

theorem scan_bundle_braced : scan branch.braced =
    .ok ((start.after (branch.before ++ (assignment.bracedSteps ++ branch.later))).scanned bundle) := by
  have hcourse : course branch.braced = .ok (start, branch.before ++ (assignment.bracedSteps ++ branch.later)) := by
    rw [branch.course_braced, start?_branch]
    rfl
  rw [scan_of_course hcourse, branch.scanned_braced]

def record (nullBit : Option Nat) : FieldLayout :=
  ⟨"a", .fixed 1, .fixed 4, .i32le, false, nullBit, none, .verified⟩

end LostElse

/-- The `else` lifts the guard of the block around it. -/
theorem scan_braced_lostElse : ∃ s s', scan LostElse.bundle = .ok s ∧ scan LostElse.branch.braced = .ok s' ∧
    LostElse.branch.statement.depth ≤ 1 ∧ LostElse.branch.statement.LosesGuard LostElse.walker ∧
    (s' = s ∨ ∃ name, s = { s' with facts := s'.facts.map (FieldLayout.unguard name) }) := by
  obtain ⟨start, w, s', hstart, rfl, hscan, -, hlost, -⟩ := (scan_braced LostElse.branch).2 _ LostElse.scan_bundle
  obtain rfl := Except.ok.inj (hstart.symm.trans LostElse.start?_branch)
  have hdepth : LostElse.branch.statement.depth ≤ 1 := by decide
  refine ⟨_, s', LostElse.scan_bundle, hscan, hdepth, LostElse.losesGuard_walker, ?_⟩
  exact (hlost hdepth LostElse.losesGuard_walker).imp_right fun ⟨name, _, hname, _⟩ => ⟨name, hname⟩

/-- Without braces the read under the presence test is reported unconditional, in braces with its bit. -/
theorem braces_change_lostElse : ∃ s s', scan LostElse.bundle = .ok s ∧ scan LostElse.branch.braced = .ok s' ∧
    s.facts = [LostElse.record none] ∧ s'.facts = [LostElse.record (some 1)] := by
  refine ⟨_, _, LostElse.scan_bundle, LostElse.scan_bundle_braced, ?_, ?_⟩ <;> decide +kernel

end WireLayout.Routine
