import WireLayout.Proofs.Routine.Assignments
import WireLayout.Proofs.Routine.Rendering

/-! A routine in canonical form as it is read: the head of the routine gives its names and its body, the statements
of a field add the fact and the pointer of the field under the guards around them, and the other statements change
nothing that the fields need. So after the routine the reader has what the fields say. -/

namespace WireLayout.Routine

open WireLayout.Java WireLayout.Text

variable {cs rest : List Char}

/-! The parts of the routine. -/

/-- A name at the edge of a word and a parenthesis begin a call without a receiver. -/
theorem callHead?_name {before w : List Char} (hb : before.head?.any isWord = false)
    (hw : ∀ c ∈ w, isWordOrDollar c = true) (hh : w.head?.any isWord = true) :
    callHead? before (w ++ '(' :: rest) = some (⟨none, w, rest⟩, rest) := by
  have hne : w ≠ [] := PlainCall.ne_nil_of_head? hh
  have hrun : run? isWordOrDollar (w ++ '(' :: rest) = some (w, '(' :: rest) :=
    run?_append hne hw (stops_cons.2 isWordOrDollar_open)
  have hedge : atWordEdge before (w ++ '(' :: rest) = true := by
    rw [atWordEdge, hb, PlainCall.head?_append_any hh]
    rfl
  have hpoint : token? "." ('(' :: rest) = none := rfl
  have hopen : token? "(" ('(' :: rest) = some rest := rfl
  simp only [callHead?, calledOn?, calledName?, hedge, hrun, hpoint, hopen, guard, if_true, Option.bind_eq_bind,
    Option.bind_some, Option.bind_none]
  rfl

theorem matchesFrom_name {before w : List Char} (hb : before.head?.any isWord = false)
    (hw : ∀ c ∈ w, isWordOrDollar c = true) (hh : w.head?.any isWord = true) :
    ∃ others, matchesFrom callHead? 0 before (w ++ '(' :: rest) = ⟨none, w, rest⟩ :: others := by
  have hhead : callHead? before (w ++ '(' :: rest) = some (⟨none, w, rest⟩, rest) := callHead?_name hb hw hh
  obtain ⟨c, cs, rfl⟩ := List.exists_cons_of_ne_nil (PlainCall.ne_nil_of_head? hh)
  have htext : c :: cs ++ '(' :: rest = c :: ((cs ++ ['(']) ++ rest) := by simp
  rw [htext] at hhead ⊢
  exact ⟨_, matchesFrom_of_some hhead⟩

def parametersText : List Char := "ByteBuf buf, int offset".toList

theorem names_parameters : (arguments parametersText).mapM parameterName =
    .ok [some ['b', 'u', 'f'], some offsetWord] := by
  decide +kernel

theorem CanonicalRoutine.text_eq (c : CanonicalRoutine) : c.text =
    ['p', 'u', 'b', 'l', 'i', 'c'] ++ ' ' :: (['s', 't', 'a', 't', 'i', 'c'] ++ ' ' :: (c.message.toList ++ ' ' ::
      (routineName.toList ++ '(' :: (parametersText ++ ')' :: ' ' :: '{' :: (c.body ++ ['}']))))) := by
  unfold text parametersText routineName
  simp only [String.reduceToList, List.cons_append, List.nil_append]

/-- The words before the name of the routine call nothing. -/
theorem findCall_text {c : CanonicalRoutine} (h : c.WellFormed) :
    findCall routineName c.text = some ⟨none, arguments parametersText, ' ' :: '{' :: (c.body ++ ['}'])⟩ := by
  have hparameters : closing id '(' ')' 1 (parametersText ++ ')' :: ' ' :: '{' :: (c.body ++ ['}'])) =
      some (parametersText, ' ' :: '{' :: (c.body ++ ['}'])) :=
    closing_nested (by decide) (nested_of_notMem (by decide +kernel) (by decide +kernel))
  have hmessage : ∀ ch ∈ c.message.toList, isWordOrDollar ch = true :=
    fun ch hc => isWordOrDollar_of_isIdent (h.message.2 ch hc)
  have hpublic : ∀ ch ∈ ['p', 'u', 'b', 'l', 'i', 'c'], isWordOrDollar ch = true := words_of_all (by decide)
  have hstatic : ∀ ch ∈ ['s', 't', 'a', 't', 'i', 'c'], isWordOrDollar ch = true := words_of_all (by decide)
  have hroutine : ∀ ch ∈ routineName.toList, isWordOrDollar ch = true := words_of_all (by decide +kernel)
  have hne : routineName.toList ≠ [] := by decide +kernel
  have hspace : ∀ before : List Char, (' ' :: before).head?.any isWord = false :=
    fun _ => isWord_of_isWordOrDollar isWordOrDollar_space
  generalize hafter : ' ' :: '{' :: (c.body ++ ['}']) = after at hparameters ⊢
  have hmatches : ∃ others, allMatches callHead? c.text =
      ⟨none, routineName.toList, parametersText ++ ')' :: after⟩ :: others := by
    rw [CanonicalRoutine.text_eq, hafter, allMatches, matchesFrom_word_space hpublic (head?_word (by simp) hstatic),
      matchesFrom_word_space hstatic (head?_word h.message.1 hmessage),
      matchesFrom_word_space hmessage (head?_word hne hroutine)]
    exact matchesFrom_name (hspace _) hroutine (by decide +kernel)
  obtain ⟨others, hmatches⟩ := hmatches
  rw [findCall, hmatches]
  simp [hparameters]

theorem parts?_text {c : CanonicalRoutine} (h : c.WellFormed) :
    parts? c.text = .ok (some ([['b', 'u', 'f'], offsetWord], c.body)) := by
  have hbody : closing id '{' '}' 1 (c.body ++ ['}']) = some (c.body, []) :=
    closing_nested (by decide) (blocks_body h).nested
  have hdrop : (' ' :: '{' :: (c.body ++ ['}'])).dropWhile (· ≠ '{') = '{' :: (c.body ++ ['}']) := by simp
  simp only [parts?, findCall_text h, names_parameters, hdrop, hbody]
  rfl

def startOf (b : Bundle) : Reader := ⟨offsetWord, b.fieldNames, [], [], ∅, []⟩

theorem trace?_text {c : CanonicalRoutine} (h : c.WellFormed) {b : Bundle} (hb : b.routine = String.ofList c.text) :
    trace? b = .ok (some (startOf b, c.steps)) := by
  rw [trace?, hb, String.toList_ofList, views_cells_text h, parts?_text h, ← stepsOf_body h]
  rfl

/-! The statements, one by one. -/

theorem parse?_statement (h : IsStatement cs) (he : Reader.afterElse? cs = none) (hi : Reader.afterIf? cs = none) :
    Statement.parse? cs = some ⟨false, none, cs⟩ := by
  simp [Statement.parse?, trim_statement h, he, hi]

theorem parse?_assignmentText {call : PlainCall} (h : call.Written) {name : String} (hn : IsName name) :
    Statement.parse? (assignmentText name.toList call.text) =
      some ⟨false, none, assignmentText name.toList call.text⟩ := by
  refine parse?_statement (isStatement_assignmentText h hn) ?_ ?_ <;> rw [assignmentText_eq]
  · simp [Reader.afterElse?, literal?]
  · simp [Reader.afterIf?, literal?]

theorem parse?_pointerText {name : String} (hn : IsName name) (base slot : Nat) :
    Statement.parse? (pointerText name.toList base slot) =
      some ⟨false, none, pointerText name.toList base slot⟩ := by
  refine parse?_statement (isStatement_pointerText hn base slot) ?_ ?_ <;> rw [pointerText_eq]
  · simp [Reader.afterElse?, literal?]
  · simp [Reader.afterIf?, literal?]

/-- The statement neither assigns to a member nor declares a pointer, whatever is in front of it. -/
def Silent (cs : List Char) : Prop :=
  ∀ st, Statement.parse? cs = some st → pointerDeclaration? st.body = none ∧ memberAssignment? st.body = none

theorem afterElse?_suffix (h : Reader.afterElse? cs = some rest) : rest <:+ cs := by
  simp only [Reader.afterElse?, Option.bind_eq_bind, Option.bind_eq_some_iff] at h
  obtain ⟨tail, hlit, -, -, hskip⟩ := h
  obtain rfl := Option.some.inj hskip
  exact (List.dropWhile_suffix isSpace).trans (literal?_suffix hlit)

theorem afterIf?_suffix (h : Reader.afterIf? cs = some rest) : rest <:+ cs := by
  simp only [Reader.afterIf?, Option.bind_eq_bind, Option.bind_eq_some_iff] at h
  obtain ⟨tail, hlit, hopen⟩ := h
  exact (literal?_suffix hopen).trans ((List.dropWhile_suffix isSpace).trans (literal?_suffix hlit))

theorem Statement.body_subset_of_condition {afterElse : Bool} {st : Statement}
    (h : (match Reader.afterIf? cs with
      | none => some (Statement.mk afterElse none cs)
      | some rest => (closing id '(' ')' 1 rest).map fun p =>
          ⟨afterElse, some ('(' :: p.1 ++ [')']), skipSpaces p.2⟩) = some st) : st.body ⊆ cs := by
  split at h
  · obtain rfl := Option.some.inj h
    exact List.Subset.refl _
  · rename_i tail htail
    obtain ⟨p, hp, rfl⟩ := Option.map_eq_some_iff.1 h
    have hsuffix : skipSpaces p.2 <:+ cs :=
      (List.dropWhile_suffix isSpace).trans ((closing_rest_suffix hp).trans (afterIf?_suffix htail))
    exact hsuffix.subset

/-- What is under the condition is part of the statement. -/
theorem Statement.body_subset {st : Statement} (h : Statement.parse? cs = some st) : st.body ⊆ cs := by
  unfold Statement.parse? at h
  split at h
  rename_i afterElse text heq
  split at heq
  · rename_i tail htail
    obtain ⟨rfl, rfl⟩ := Prod.mk.inj heq
    exact List.Subset.trans (body_subset_of_condition h)
      (List.Subset.trans (afterElse?_suffix htail).subset trim_subset)
  · obtain ⟨rfl, rfl⟩ := Prod.mk.inj heq
    exact List.Subset.trans (body_subset_of_condition h) trim_subset

theorem afterFinal?_suffix (h : afterFinal? cs = some rest) : rest <:+ cs := by
  simp only [afterFinal?, Option.bind_eq_bind, Option.bind_eq_some_iff] at h
  obtain ⟨tail, hlit, hspaces⟩ := h
  exact (spaces?_suffix hspaces).trans (literal?_suffix hlit)

theorem pointerDeclaration?_eq_none (h : '+' ∉ cs) : pointerDeclaration? cs = none := by
  have hstart : (afterFinal? cs).getD cs <:+ cs := by
    cases hf : afterFinal? cs with
    | none => exact List.suffix_refl cs
    | some tail => exact afterFinal?_suffix hf
  by_contra hne
  obtain ⟨declaration, hd⟩ := Option.ne_none_iff_exists'.1 hne
  simp only [pointerDeclaration?, Option.bind_eq_bind, Option.bind_eq_some_iff] at hd
  obtain ⟨afterInt, hint, spaced, hspaces, ⟨name, afterName⟩, hname, afterEqual, hequal,
    ⟨start, afterStart⟩, hoffset, afterPlus, hplus, -⟩ := hd
  have hskip : skipSpaces afterEqual <:+ afterEqual := List.dropWhile_suffix isSpace
  have hsuffix : afterStart <:+ cs :=
    ((run?_suffix hoffset).trans hskip).trans ((token?_suffix hequal).trans ((run?_suffix hname).trans
      ((spaces?_suffix hspaces).trans ((literal?_suffix hint).trans hstart))))
  rw [token?_eq_none_of_notMem (by simp) fun hm => h (hsuffix.subset hm)] at hplus
  cases hplus

theorem memberAssignment?_eq_none (h : '.' ∉ cs) : memberAssignment? cs = none := by
  by_contra hne
  obtain ⟨found, hf⟩ := Option.ne_none_iff_exists'.1 hne
  simp only [memberAssignment?, Option.bind_eq_bind, Option.bind_eq_some_iff] at hf
  obtain ⟨⟨w, tail⟩, hw, after, hpoint, -⟩ := hf
  rw [token?_eq_none_of_notMem (by simp) fun hm => h ((run?_suffix hw).subset hm)] at hpoint
  cases hpoint

/-- Without a point and a plus sign there is neither a member nor a pointer. -/
theorem silent_of_notMem (hpoint : '.' ∉ cs) (hplus : '+' ∉ cs) : Silent cs := fun _ hst =>
  ⟨pointerDeclaration?_eq_none fun hm => hplus (Statement.body_subset hst hm),
    memberAssignment?_eq_none fun hm => hpoint (Statement.body_subset hst hm)⟩

theorem notMem_of_isIdent {w : List Char} {d : Char} (h : ∀ c ∈ w, isIdent c = true)
    (hd : isIdent d = false) : d ∉ w := by
  intro hm
  rw [h d hm] at hd
  cases hd

theorem silent_objectText {c : CanonicalRoutine} (h : IsName c.message) : Silent c.objectText := by
  have hnotMem : ∀ d, isIdent d = false → d ∉ " obj = new ".toList → d ∉ "()".toList → d ∉ c.objectText := by
    intro d hd hnew hcall
    have hname := notMem_of_isIdent h.2 hd
    unfold CanonicalRoutine.objectText
    rw [List.mem_append, List.mem_append, List.mem_append]
    tauto
  exact silent_of_notMem (hnotMem '.' (by decide) (by decide +kernel) (by decide +kernel))
    (hnotMem '+' (by decide) (by decide +kernel) (by decide +kernel))

theorem silent_resultText : Silent CanonicalRoutine.resultText := by
  unfold CanonicalRoutine.resultText
  exact silent_of_notMem (by decide +kernel) (by decide +kernel)

/-- The local with the flags has a type in front, where a member would have its object. -/
theorem silent_flags (flags : FlagsLocal) : Silent flags.text := by
  have htext : ∃ c tail, flags.text = ['b', 'y', 't', 'e'] ++ c :: tail ∧ isWordOrDollar c = false ∧
      token? "." (c :: tail) = none := by
    unfold FlagsLocal.text
    cases flags with
    | octet =>
      unfold FlagsLocal.declared
      simp only [String.reduceToList, List.cons_append, List.nil_append]
      exact ⟨' ', _, rfl, isWordOrDollar_space, rfl⟩
    | octets count =>
      unfold FlagsLocal.declared
      simp only [String.reduceToList, List.cons_append, List.nil_append]
      exact ⟨'[', _, rfl, isWordOrDollar_bracket, rfl⟩
  obtain ⟨c, tail, htext, hc, hpoint⟩ := htext
  have hparse : Statement.parse? flags.text = some ⟨false, none, flags.text⟩ := by
    refine parse?_statement (isStatement_flags flags) ?_ ?_ <;> rw [htext]
    · simp [Reader.afterElse?, literal?]
    · simp [Reader.afterIf?, literal?]
  have hrun : run? isWordOrDollar (['b', 'y', 't', 'e'] ++ c :: tail) = some (['b', 'y', 't', 'e'], c :: tail) :=
    run?_append (by simp) (words_of_all (by decide)) (stops_cons.2 hc)
  intro st hst
  obtain rfl := Option.some.inj (hparse.symm.trans hst)
  constructor
  · rw [htext]
    simp [pointerDeclaration?, afterFinal?, literal?]
  · rw [htext]
    simp only [memberAssignment?, hrun, hpoint, Option.bind_eq_bind, Option.bind_some, Option.bind_none]

theorem silent_of_mem_opening {c : CanonicalRoutine} (h : IsName c.message) : ∀ s ∈ c.opening, Silent s := by
  have hobject := silent_objectText h
  rw [CanonicalRoutine.opening, List.forall_mem_append]
  refine ⟨fun s hs => ?_, List.forall_mem_singleton.2 hobject⟩
  obtain ⟨flags, -, rfl⟩ := Option.map_eq_some_iff.1 (Option.mem_toList.1 hs)
  exact silent_flags flags

/-! The reader on its way through the fields. -/

/-- The reader has these facts and pointers, and every local that it knows has a name without parentheses. -/
structure Reader.Has (declared : List String) (facts : List Fact) (pointers : List (String × OffsetPointer))
    (r : Reader) : Prop where
  offsetName : r.offsetName = offsetWord
  declared : r.declared = declared
  facts : r.facts = facts
  pointers : r.pointers = SortedMap.ofList pointers
  locals : ∀ p ∈ r.locals, '(' ∉ p.1

section

variable {declared : List String} {facts : List Fact} {pointers : List (String × OffsetPointer)} {r : Reader}
  {nullBit : Option Nat}

theorem notMem_of_localDeclaration? {name : String} {value : List Char}
    (h : localDeclaration? cs = some (name, value)) : '(' ∉ name.toList := by
  simp only [localDeclaration?, Option.bind_eq_bind, Option.bind_eq_some_iff] at h
  obtain ⟨_, -, _, -, _, -, heq⟩ := h
  obtain ⟨rfl, -⟩ := Prod.mk.inj (Option.some.inj heq)
  rw [String.toList_ofList]
  intro hm
  have hword := List.mem_takeWhile_imp (List.mem_reverse.1 hm)
  rw [isWordOrDollar_open] at hword
  cases hword

/-- A statement that neither assigns to a member nor declares a pointer at most declares a local. -/
theorem has_silent (h : r.Has declared facts pointers) {body : List Char} (hp : pointerDeclaration? body = none)
    (hm : memberAssignment? body = none) : (r.simpleStatement nullBit body).Has declared facts pointers := by
  have hpointer : r.pointer? body = none := Reader.pointer?_eq_none hp
  unfold Reader.simpleStatement
  rw [hpointer, hm]
  split
  · exact h
  · cases hl : localDeclaration? body with
    | none => exact h
    | some found =>
      obtain ⟨name, value⟩ := found
      have hname := notMem_of_localDeclaration? hl
      simp only [Reader.declareLocal]
      split
      · exact ⟨h.offsetName, h.declared, h.facts, h.pointers, List.forall_mem_cons.2 ⟨hname, h.locals⟩⟩
      · exact h

theorem ofList_concat (pointer : String × OffsetPointer) :
    SortedMap.ofList (pointers ++ [pointer]) = (SortedMap.ofList pointers).insert pointer.1 pointer.2 := by
  rw [SortedMap.ofList, List.foldl_append]
  rfl

theorem has_pointerText (h : r.Has declared facts pointers) {name : String} (hn : IsName name) {base slot : Nat}
    (hb : base ≤ maxWord) (hs : slot ≤ maxWord) :
    (r.simpleStatement nullBit (pointerText name.toList base slot)).Has declared facts
      (pointers ++ [(name, ⟨slot, base⟩)]) := by
  have hpointer : r.pointer? (pointerText name.toList base slot) = some (name, ⟨slot, base⟩) := by
    rw [Reader.pointer?_pointerText h.offsetName hn.1 hn.words hb hs, String.ofList_toList]
  have hne : (pointerText name.toList base slot).isEmpty = false := by
    simpa using (isStatement_pointerText hn base slot).nonempty
  unfold Reader.simpleStatement
  rw [hne, if_neg (by simp), hpointer]
  refine ⟨h.offsetName, h.declared, h.facts, ?_, h.locals⟩
  rw [ofList_concat, ← h.pointers]

theorem valueReading?_call (h : r.Has declared facts pointers) {call : PlainCall} {reading : Reading}
    (hr : r.scope.reading? call.text = some reading) : r.valueReading? call.text = some reading := by
  have hopen : '(' ∈ call.text := by simp [PlainCall.text]
  have hlookup : r.locals.lookup call.text = none := by
    rw [List.lookup_eq_none_iff]
    intro p hp
    have hne : call.text ≠ p.1 := fun heq => h.locals p hp (heq ▸ hopen)
    simpa using hne
  rw [Reader.valueReading?, hlookup, hr]
  rfl

theorem has_assignmentText (h : r.Has declared facts pointers) {name : String} (hn : IsName name)
    (hd : name ∈ declared) (hnew : ∀ f ∈ facts, f.name ≠ name) {call : PlainCall} (hw : call.Written)
    {reading : Reading} (hr : r.scope.reading? call.text = some reading) :
    (r.simpleStatement nullBit (assignmentText name.toList call.text)).Has declared
      (facts ++ [⟨name, reading, nullBit⟩]) pointers := by
  have hassign : memberAssignment? (assignmentText name.toList call.text) = some (name, call.text) := by
    rw [memberAssignment?_assignmentText hn.1 hn.words (PlainCall.trim_text hw), String.ofList_toList]
  have hne : (assignmentText name.toList call.text).isEmpty = false := by
    simpa using (isStatement_assignmentText hw hn).nonempty
  have hread := valueReading?_call h hr
  have hmember : name ∈ r.declared := h.declared ▸ hd
  have hfirst : ∀ f ∈ r.facts, f.name ≠ name := h.facts ▸ hnew
  have hfacts : (r.assign name call.text nullBit).facts = facts ++ [⟨name, reading, nullBit⟩] := by
    rw [Reader.facts_assign_of_new hmember hfirst, hread, h.facts]
    rfl
  have hrest : (r.assign name call.text nullBit).locals = r.locals ∧
      (r.assign name call.text nullBit).pointers = r.pointers := by
    unfold Reader.assign
    repeat' split
    all_goals exact ⟨rfl, rfl⟩
  have hsimple : r.simpleStatement nullBit (assignmentText name.toList call.text) =
      r.assign name call.text nullBit := by
    unfold Reader.simpleStatement
    rw [hne, if_neg (by simp), Reader.pointer?_eq_none_of_memberAssignment? r hassign, hassign]
  obtain ⟨hoffset, hdeclared⟩ := r.names_simpleStatement nullBit (assignmentText name.toList call.text)
  rw [hsimple] at hoffset hdeclared ⊢
  exact ⟨hoffset.trans h.offsetName, hdeclared.trans h.declared, hfacts, hrest.2.trans h.pointers,
    hrest.1 ▸ h.locals⟩

/-- The reads of a field are read back by a reader that has the pointers of the field. -/
theorem reading?_call (h : r.Has declared facts pointers) {source : Source} (hc : source.WellFormed)
    (hr : source.Readable) (hp : ∀ p ∈ source.pointer?, r.pointers.find? p.1 = some p.2) :
    r.scope.reading? source.call.text = some source.reading := by
  cases source with
  | fixed offset kind => exact Scope.reading?_fixed h.offsetName hc hr
  | varying pointer base slot charset => exact Scope.reading?_varying hc hr (hp (pointer, ⟨slot, base⟩) rfl)

end

/-! Steps. -/

section

variable {declared : List String} {facts : List Fact} {pointers : List (String × OffsetPointer)} {w : Walker}

theorem step_execute {body : List Char} (h : Statement.parse? cs = some ⟨false, none, body⟩) :
    w.step (.execute cs) = ⟨w.reader.simpleStatement (Reader.innermost w.guards) body, w.guards⟩ := by
  rw [Walker.step, Reader.statement, h]
  simp [Statement.guardUnder]

theorem has_silent_step (h : w.reader.Has declared facts pointers) (hs : Silent cs) :
    (w.step (.execute cs)).reader.Has declared facts pointers := by
  rw [Walker.step, Reader.statement]
  cases hp : Statement.parse? cs with
  | none => exact h
  | some st => exact has_silent h (hs st hp).1 (hs st hp).2

theorem has_silent_run (h : w.reader.Has declared facts pointers) {statements : List (List Char)}
    (hs : ∀ s ∈ statements, Silent s) :
    (w.run (statements.map .execute)).reader.Has declared facts pointers ∧
      (w.run (statements.map .execute)).guards = w.guards := by
  induction statements generalizing w with
  | nil => exact ⟨h, rfl⟩
  | cons s statements ih =>
    have hstep := has_silent_step h (hs s List.mem_cons_self)
    exact ih hstep fun x hx => hs x (List.mem_cons_of_mem s hx)

/-- The statements of a field add its fact, under the guards around them, and its pointer. -/
theorem has_statements (h : w.reader.Has declared facts pointers) {f : CanonicalField} (hf : f.Proper)
    (hd : f.name ∈ declared) (hnew : ∀ g ∈ facts, g.name ≠ f.name) :
    (w.run (f.statements.map .execute)).reader.Has declared
        (facts ++ [⟨f.name, f.source.reading, Reader.innermost w.guards⟩]) (pointers ++ f.source.pointer?.toList) ∧
      (w.run (f.statements.map .execute)).guards = w.guards := by
  have hcall := Source.proper_call hf.source
  have hassign := parse?_assignmentText hcall.toWritten hf.name
  obtain ⟨name, source, test⟩ := f
  -- the assignment, once the pointer is there
  have hlast : ∀ {w : Walker} {pointers : List (String × OffsetPointer)}, w.reader.Has declared facts pointers →
      (∀ p ∈ source.pointer?, w.reader.pointers.find? p.1 = some p.2) →
      (w.step (.execute (assignmentText name.toList source.call.text))).reader.Has declared
        (facts ++ [⟨name, source.reading, Reader.innermost w.guards⟩]) pointers := by
    intro w pointers h hp
    rw [step_execute hassign]
    exact has_assignmentText h hf.name hd hnew hcall.toWritten (reading?_call h hf.source hf.readable hp)
  cases source with
  | fixed offset kind =>
    refine ⟨?_, rfl⟩
    rw [Source.pointer?, Option.toList_none, List.append_nil]
    exact hlast h fun p hp => by cases hp
  | varying pointer base slot charset =>
    have hpointer : IsName pointer := hf.source
    obtain ⟨hbase, hslot, -⟩ := hf.readable
    have hparse := parse?_pointerText hpointer base slot
    have hfirst : (w.reader.simpleStatement (Reader.innermost w.guards) (pointerText pointer.toList base slot)).Has
        declared facts (pointers ++ [(pointer, ⟨slot, base⟩)]) := has_pointerText h hpointer hbase hslot
    have hstep := step_execute (w := w) hparse
    have hfind : (w.step (.execute (pointerText pointer.toList base slot))).reader.pointers.find? pointer =
        some ⟨slot, base⟩ := by
      rw [hstep, hfirst.pointers, ofList_concat, SortedMap.find?_insert, if_pos rfl]
    refine ⟨?_, rfl⟩
    refine hlast (w := w.step (.execute (pointerText pointer.toList base slot))) ?_ fun p hp => ?_
    · rw [hstep]
      exact hfirst
    · obtain rfl : (pointer, ⟨slot, base⟩) = p := Option.some.inj hp
      exact hfind

/-- A field adds its fact and its pointer, and leaves the blocks as they were. -/
theorem has_field (h : w.reader.Has declared facts pointers) (hg : w.guards = []) {f : CanonicalField}
    (hf : f.Proper) (hd : f.name ∈ declared) (hnew : ∀ g ∈ facts, g.name ≠ f.name) :
    (w.run f.steps).reader.Has declared (facts ++ [f.fact]) (pointers ++ f.source.pointer?.toList) ∧
      (w.run f.steps).guards = [] := by
  cases ht : f.test with
  | none =>
    have hsteps : f.steps = f.statements.map .execute := by rw [CanonicalField.steps, ht]
    have hfact : f.fact = ⟨f.name, f.source.reading, Reader.innermost w.guards⟩ := by
      rw [CanonicalField.fact, ht, hg]
      rfl
    obtain ⟨hhas, hguards⟩ := has_statements h hf hd hnew
    rw [hsteps, hfact]
    exact ⟨hhas, hguards.trans hg⟩
  | some test =>
    have hsteps : f.steps = .enter test.header :: (f.statements.map .execute ++ [.leave]) := by
      rw [CanonicalField.steps, ht]
    have henter : w.step (.enter test.header) = ⟨w.reader, [some test.bit]⟩ := by
      rw [Walker.step, guard?_header, hg]
    have hfact : f.fact = ⟨f.name, f.source.reading, Reader.innermost [some test.bit]⟩ := by
      rw [CanonicalField.fact, ht]
      rfl
    obtain ⟨hhas, hguards⟩ := has_statements (w := ⟨w.reader, [some test.bit]⟩) h hf hd hnew
    rw [hsteps, hfact, Walker.run_cons, henter, Walker.run_append]
    refine ⟨hhas, ?_⟩
    rw [Walker.run_cons, Walker.run_nil, Walker.step, hguards]
    rfl

/-- The fields of a routine add their facts and pointers in order, by induction on them. -/
theorem has_fields (h : w.reader.Has declared facts pointers) (hg : w.guards = []) {fields : List CanonicalField}
    (hf : ∀ f ∈ fields, f.Proper) (hd : ∀ f ∈ fields, f.name ∈ declared)
    (hnodup : (facts.map (·.name) ++ fields.map (·.name)).Nodup) :
    (w.run (fields.flatMap (·.steps))).reader.Has declared (facts ++ fields.map (·.fact))
        (pointers ++ fields.filterMap (·.source.pointer?)) ∧
      (w.run (fields.flatMap (·.steps))).guards = [] := by
  induction fields generalizing w facts pointers with
  | nil => simpa using ⟨h, hg⟩
  | cons f fields ih =>
    have hnew : ∀ g ∈ facts, g.name ≠ f.name := by
      intro g hgm heq
      exact (List.nodup_append.1 hnodup).2.2 g.name (List.mem_map_of_mem hgm) f.name (by simp) heq
    obtain ⟨hhas, hguards⟩ := has_field h hg (hf f List.mem_cons_self) (hd f List.mem_cons_self) hnew
    have hnext := ih hhas hguards (fun x hx => hf x (List.mem_cons_of_mem f hx))
      (fun x hx => hd x (List.mem_cons_of_mem f hx)) (by simpa [CanonicalField.fact] using hnodup)
    rw [List.flatMap_cons, Walker.run_append]
    have hpointers : (f :: fields).filterMap (·.source.pointer?) =
        f.source.pointer?.toList ++ fields.filterMap (·.source.pointer?) := by
      cases hp : f.source.pointer? <;> simp [hp]
    rw [hpointers, List.map_cons]
    simpa using hnext

end

/-- After a routine in canonical form the reader has the facts of the fields and their pointers. -/
theorem has_routine {c : CanonicalRoutine} (h : c.Proper) {b : Bundle}
    (hb : ∀ f ∈ c.fields, f.name ∈ b.fieldNames) :
    ((startOf b).after c.steps).Has b.fieldNames (c.fields.map (·.fact))
      (c.fields.filterMap (·.source.pointer?)) := by
  have hstart : (Walker.mk (startOf b) []).reader.Has b.fieldNames [] [] :=
    ⟨rfl, rfl, rfl, rfl, by simp [startOf]⟩
  obtain ⟨hopening, hguards⟩ := has_silent_run hstart (silent_of_mem_opening h.message)
  obtain ⟨hfields, -⟩ := has_fields hopening hguards h.field hb (by simpa using h.distinct)
  rw [Reader.after, CanonicalRoutine.steps, Walker.run_append, Walker.run_append]
  exact has_silent_step hfields silent_resultText

end WireLayout.Routine
