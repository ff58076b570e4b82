import WireLayout.Proofs.Routine.Canonical

/-! The text of a routine in canonical form, and what a walk makes of it: the steps of the text are its
statements, each where it stands, and the entering and leaving of its presence tests. -/

namespace WireLayout.Routine

open WireLayout.Java WireLayout.Text

variable {cs ds rest gap : List Char} {c d : Char}

/-! Statements. -/

def statementMarks : List Char := [' ', '.', '(', ')', ',', '=', '+', '&', '!', '[', ']']

def isStatementChar (c : Char) : Bool := isIdent c || statementMarks.contains c

theorem ne_of_isStatementChar (h : isStatementChar c = true) (hd : isStatementChar d = false) : c ≠ d := by
  rintro rfl
  rw [h] at hd
  cases hd

theorem isStatementChar_of_isIdent (h : isIdent c = true) : isStatementChar c = true := by
  simp [isStatementChar, h]

theorem isStatementChar_of_isArgumentChar (h : isArgumentChar c = true) : isStatementChar c = true := by
  simp only [isArgumentChar, Bool.or_eq_true, decide_eq_true_iff] at h
  rcases h with ((h | rfl) | rfl) | rfl
  · exact isStatementChar_of_isIdent h
  · decide
  · decide
  · decide

def isStartChar (c : Char) : Bool := isStatementChar c && c ≠ '('

theorem isStartChar_iff : isStartChar c = true ↔ isStatementChar c = true ∧ c ≠ '(' := by simp [isStartChar]

theorem isStartChar_of_isIdent (h : isIdent c = true) : isStartChar c = true := by
  refine isStartChar_iff.2 ⟨isStatementChar_of_isIdent h, ?_⟩
  rintro rfl
  exact absurd h (by decide)

/-- A statement: it ends no step before its end, and neither begins nor ends with space. -/
structure IsStatement (cs : List Char) : Prop where
  chars : ∀ c ∈ cs, isStatementChar c = true
  passed : Passed cs
  nonempty : cs ≠ []
  head : ∀ c ∈ cs.head?, isIdent c = true
  last : ∀ c ∈ cs.getLast?, isSpace c = false

theorem passed_of_chars (h : ∀ c ∈ cs, isStartChar c = true) : Passed cs := by
  apply passed_of_plain
  intro c hc
  obtain ⟨hchar, hopen⟩ := isStartChar_iff.1 (h c hc)
  have hleft : c ≠ '{' := ne_of_isStatementChar hchar (by decide)
  have hright : c ≠ '}' := ne_of_isStatementChar hchar (by decide)
  have hend : c ≠ ';' := ne_of_isStatementChar hchar (by decide)
  simp [isStepMark, hopen, hleft, hright, hend]

theorem isStatement_call {pre inside : List Char} (hpre : ∀ c ∈ pre, isStartChar c = true)
    (hne : pre ≠ []) (hhead : ∀ c ∈ pre.head?, isIdent c = true)
    (hin : ∀ c ∈ inside, isStatementChar c = true) (hn : Nested '(' ')' inside) :
    IsStatement (pre ++ '(' :: (inside ++ [')'])) where
  chars := by
    intro c hc
    simp only [List.mem_append, List.mem_cons, List.not_mem_nil, or_false] at hc
    rcases hc with hc | rfl | hc | rfl
    · exact (isStartChar_iff.1 (hpre c hc)).1
    · decide
    · exact hin c hc
    · decide
  passed := passed_append (passed_of_chars hpre) (passed_group hn)
  nonempty := by simp [hne]
  head := by
    rw [List.head?_append_of_ne_nil _ hne]
    exact hhead
  last := by
    intro c hc
    have hlast : (pre ++ '(' :: (inside ++ [')'])).getLast? = some ')' := by
      rw [← List.cons_append, ← List.append_assoc, List.getLast?_concat]
    rw [hlast] at hc
    obtain rfl := Option.some.inj hc
    simp [isSpace]

theorem trimBlank_statement (h : IsStatement cs) (post : List Char) (hgap : ∀ c ∈ gap, isAsciiSpace c = true)
    (hpost : ∀ c ∈ post, isAsciiSpace c = true) : trimBlank id (gap ++ (cs ++ post)) = cs := by
  have hdrop : (cs ++ post).dropWhile isAsciiSpace = cs ++ post := by
    obtain ⟨x, xs, rfl⟩ := List.exists_cons_of_ne_nil h.nonempty
    rw [List.cons_append, List.dropWhile_cons_of_neg]
    simpa using isAsciiSpace_of_isIdent (h.head x rfl)
  have hend : dropEnd isAsciiSpace (cs ++ post) = dropEnd isAsciiSpace cs := by
    rw [dropEnd, List.reverse_append, List.dropWhile_append_of_pos (by simpa using hpost), dropEnd]
  rw [trimBlank, trim_append_left (by simpa using hgap)]
  simp only [id, trim, hdrop, hend]
  exact dropEnd_eq_self fun c hc => isAsciiSpace_of_isSpace (h.last c hc)

theorem trim_statement (h : IsStatement cs) : trim isSpace cs = cs :=
  trim_eq_self (fun c hc => isSpace_of_isIdent (h.head c hc)) h.last

theorem stepsOf_gap_statement (h : IsStatement cs) (hgap : ∀ c ∈ gap, isAsciiSpace c = true) :
    stepsOf (gap ++ (cs ++ [';']) ++ rest) = .execute cs :: stepsOf rest := by
  have hpassed : Passed (gap ++ cs) := passed_append (passed_gap hgap) h.passed
  have htrim : trimBlank id (gap ++ cs) = cs := by
    simpa using trimBlank_statement h [] hgap (by simp)
  have hsteps : stepsOf (gap ++ cs ++ ';' :: rest) = .execute (trimBlank id (gap ++ cs)) :: stepsOf rest :=
    stepsOf_statement hpassed
  rw [htrim] at hsteps
  simpa using hsteps

/-- The steps of a block are its statements, by induction on them. -/
theorem stepsOf_block {statements : List (List Char)} (h : ∀ s ∈ statements, IsStatement s)
    (hgap : ∀ c ∈ gap, isAsciiSpace c = true) :
    stepsOf (CanonicalField.block gap statements ++ rest) = statements.map .execute ++ stepsOf rest := by
  induction statements with
  | nil => rfl
  | cons s statements ih =>
    rw [CanonicalField.block, List.flatMap_cons, List.append_assoc,
      stepsOf_gap_statement (h s List.mem_cons_self) hgap]
    exact congrArg (Step.execute s :: ·) (ih fun x hx => h x (List.mem_cons_of_mem s hx))

/-! The statements of a read. -/

theorem chars_inside {call : PlainCall} (h : call.Written) : ∀ c ∈ call.inside, isStatementChar c = true := by
  intro c hc
  rcases PlainCall.mem_intercalate hc with hsep | ⟨a, ha, hca⟩
  · simp only [List.mem_cons, List.not_mem_nil, or_false] at hsep
    rcases hsep with rfl | rfl <;> decide
  · exact isStatementChar_of_isArgumentChar ((h.arguments a ha).chars c hca)

theorem isStatement_before_call {call : PlainCall} (h : call.Written) {pre : List Char}
    (hpre : ∀ c ∈ pre, isStartChar c = true) (hne : pre ≠ []) (hhead : ∀ c ∈ pre.head?, isIdent c = true) :
    IsStatement (pre ++ call.text) := by
  have htext : pre ++ call.text =
      (pre ++ (call.receiver ++ '.' :: call.name)) ++ '(' :: (call.inside ++ [')']) := by
    simp [PlainCall.text]
  have hstart : ∀ c ∈ pre ++ (call.receiver ++ '.' :: call.name), isStartChar c = true := by
    simp only [List.forall_mem_append, List.forall_mem_cons]
    exact ⟨hpre, fun c hc => isStartChar_of_isIdent (h.receiver_ident c hc), by decide,
      fun c hc => isStartChar_of_isIdent (h.name_ident c hc)⟩
  rw [htext]
  refine isStatement_call hstart (by simp [hne]) ?_ (chars_inside h) (PlainCall.nested_inside h)
  rw [List.head?_append_of_ne_nil _ hne]
  exact hhead

theorem isStatement_assignmentText {call : PlainCall} (h : call.Written) {name : String} (hn : IsName name) :
    IsStatement (assignmentText name.toList call.text) := by
  have htext : assignmentText name.toList call.text =
      (['o', 'b', 'j'] ++ '.' :: (name.toList ++ [' ', '=', ' '])) ++ call.text := by
    simp [assignmentText_eq]
  have hobj : ∀ c ∈ ['o', 'b', 'j'], isStartChar c = true := List.all_eq_true.1 (by decide)
  have hequal : ∀ c ∈ [' ', '=', ' '], isStartChar c = true := List.all_eq_true.1 (by decide)
  rw [htext]
  refine isStatement_before_call h ?_ (by simp) ?_
  · exact List.forall_mem_append.2 ⟨hobj, List.forall_mem_cons.2 ⟨by decide,
      List.forall_mem_append.2 ⟨fun c hc => isStartChar_of_isIdent (hn.2 c hc), hequal⟩⟩⟩
  · intro c hc
    obtain rfl : 'o' = c := Option.some.inj hc
    decide

theorem isStatement_pointerText {name : String} (hn : IsName name) (base slot : Nat) :
    IsStatement (pointerText name.toList base slot) := by
  have htext : pointerText name.toList base slot =
      (['i', 'n', 't', ' '] ++ (name.toList ++ ([' ', '=', ' ', 'o', 'f', 'f', 's', 'e', 't', ' ', '+', ' '] ++
        (decimal base ++ [' ', '+', ' '])))) ++ (slotCall slot).text := by
    simp [pointerText_eq, offsetWord]
  have hint : ∀ c ∈ ['i', 'n', 't', ' '], isStartChar c = true := List.all_eq_true.1 (by decide)
  have hstart : ∀ c ∈ [' ', '=', ' ', 'o', 'f', 'f', 's', 'e', 't', ' ', '+', ' '], isStartChar c = true :=
    List.all_eq_true.1 (by decide)
  have hplus : ∀ c ∈ [' ', '+', ' '], isStartChar c = true := List.all_eq_true.1 (by decide)
  rw [htext]
  refine isStatement_before_call (written_slotCall slot) ?_ (by simp) ?_
  · simp only [List.forall_mem_append]
    exact ⟨hint, fun c hc => isStartChar_of_isIdent (hn.2 c hc), hstart,
      fun c hc => isStartChar_of_isIdent (isIdent_of_mem_decimal hc), hplus⟩
  · intro c hc
    obtain rfl : 'i' = c := Option.some.inj hc
    decide

theorem all_tested : ∀ (index : Option (Fin 4)) (exponent : Fin 8),
    (PresenceTest.tested ⟨index, exponent⟩).all (fun c => isStartChar c && c ≠ ')') = true := by
  decide +kernel

theorem isStatement_header (test : PresenceTest) : IsStatement test.header := by
  have htested : ∀ c ∈ test.tested, isStartChar c = true ∧ c ≠ ')' := by
    intro c hc
    simpa using List.all_eq_true.1 (all_tested test.index test.exponent) c hc
  have hopen : '(' ∉ test.tested := fun hm => absurd (htested _ hm).1 (by decide)
  have hclose : ')' ∉ test.tested := fun hm => (htested _ hm).2 rfl
  have hnested : Nested '(' ')' test.condition := by
    refine nested_append (nested_bracketed (by decide) (nested_of_notMem hopen hclose)) ?_
    simp only [String.reduceToList]
    exact nested_of_notMem (by decide) (by decide)
  have hchars : ∀ c ∈ test.condition, isStatementChar c = true := by
    have hzero : ∀ c ∈ " != 0".toList, isStatementChar c = true := List.all_eq_true.1 (by decide +kernel)
    refine List.forall_mem_append.2 ⟨List.forall_mem_cons.2 ⟨by decide, List.forall_mem_append.2 ⟨fun c hc => ?_,
      List.forall_mem_singleton.2 (by decide)⟩⟩, hzero⟩
    exact (isStartChar_iff.1 (htested c hc).1).1
  have hif : ∀ c ∈ "if ".toList, isStartChar c = true := List.all_eq_true.1 (by decide +kernel)
  refine isStatement_call hif ?_ ?_ hchars hnested
  · simp only [String.reduceToList]
    simp
  · simp only [String.reduceToList]
    intro c hc
    obtain rfl : 'i' = c := Option.some.inj hc
    decide

theorem isStatement_plain {w : List Char} (hw : ∀ c ∈ w, isStartChar c = true) (hne : w ≠ [])
    (hhead : ∀ c ∈ w.head?, isIdent c = true) (hlast : ∀ c ∈ w.getLast?, isIdent c = true) : IsStatement w where
  chars := fun c hc => (isStartChar_iff.1 (hw c hc)).1
  passed := passed_of_chars hw
  nonempty := hne
  head := hhead
  last := fun c hc => isSpace_of_isIdent (hlast c hc)

/-- The statements of a field are statements, whatever is read. -/
theorem isStatement_of_mem_statements {f : CanonicalField} (hn : IsName f.name) (hc : f.source.WellFormed) :
    ∀ s ∈ f.statements, IsStatement s := by
  have hassign := isStatement_assignmentText (Source.proper_call hc).toWritten hn
  obtain ⟨name, source, test⟩ := f
  cases source with
  | fixed offset kind => exact List.forall_mem_singleton.2 hassign
  | varying pointer base slot charset =>
    have hpointer : IsName pointer := hc
    exact List.forall_mem_cons.2 ⟨isStatement_pointerText hpointer base slot, List.forall_mem_singleton.2 hassign⟩

/-! The steps of the fields. -/

structure CanonicalField.WellFormed (f : CanonicalField) : Prop where
  name : IsName f.name
  source : f.source.WellFormed

structure CanonicalField.Proper (f : CanonicalField) : Prop extends WellFormed f where
  readable : f.source.Readable

theorem CanonicalField.WellFormed.statements {f : CanonicalField} (h : f.WellFormed) :
    ∀ s ∈ f.statements, IsStatement s :=
  isStatement_of_mem_statements h.name h.source

/-- A field makes its steps: its statements, in a block of their own under a test. -/
theorem stepsOf_field {f : CanonicalField} (h : f.WellFormed) (hgap : ∀ c ∈ gap, isAsciiSpace c = true) :
    stepsOf (f.text gap ++ rest) = f.steps ++ stepsOf rest := by
  have hstatements := h.statements
  obtain ⟨name, source, test⟩ := f
  cases test with
  | none => exact stepsOf_block hstatements hgap
  | some test =>
    generalize hs : CanonicalField.statements ⟨name, source, some test⟩ = statements at hstatements
    have hheader := isStatement_header test
    have hblank : ∀ c ∈ [' '], isAsciiSpace c = true := by simp [isAsciiSpace]
    have htext : CanonicalField.text gap ⟨name, source, some test⟩ ++ rest =
        (gap ++ (test.header ++ [' '])) ++ '{' :: (CanonicalField.block gap statements ++ (gap ++ '}' :: rest)) := by
      simp [CanonicalField.text, hs]
    have hsteps : CanonicalField.steps ⟨name, source, some test⟩ =
        .enter test.header :: (statements.map .execute ++ [.leave]) := by
      simp [CanonicalField.steps, hs]
    have hpassed := passed_append (passed_gap hgap) (passed_append hheader.passed (passed_gap hblank))
    rw [htext, hsteps, stepsOf_enter hpassed, trimBlank_statement hheader [' '] hgap hblank,
      stepsOf_block hstatements hgap, stepsOf_leave (passed_gap hgap)]
    simp

/-! Routines. -/

/-- The local with the presence flags: one octet, or an array of several. -/
inductive FlagsLocal where
  | octet
  | octets (count : Nat)
  deriving DecidableEq, Repr

namespace FlagsLocal

def declared : FlagsLocal → List Char
  | octet => "byte nullBits = ".toList
  | octets _ => "byte[] nullBits = ".toList

def call : FlagsLocal → PlainCall
  | octet => ⟨"buf".toList, "getByte".toList, ["offset".toList]⟩
  | octets count => ⟨"PacketIO".toList, "readBytes".toList, ["buf".toList, "offset".toList, decimal count]⟩

def text (flags : FlagsLocal) : List Char := flags.declared ++ flags.call.text

end FlagsLocal

/-- A routine in canonical form. The gap is what stands before each statement. -/
structure CanonicalRoutine where
  message : String
  gap : List Char
  flags : Option FlagsLocal
  fields : List CanonicalField
  deriving DecidableEq, Repr

namespace CanonicalRoutine

variable (c : CanonicalRoutine)

def objectText : List Char := c.message.toList ++ (" obj = new ".toList ++ (c.message.toList ++ "()".toList))

def resultText : List Char := "return obj".toList

def opening : List (List Char) := (c.flags.map FlagsLocal.text).toList ++ [c.objectText]

def body : List Char :=
  CanonicalField.block c.gap c.opening ++ (c.fields.flatMap (·.text c.gap) ++
    (CanonicalField.block c.gap [resultText] ++ c.gap))

def text : List Char :=
  "public static ".toList ++ (c.message.toList ++ (" deserialize(ByteBuf buf, int offset) ".toList ++
    '{' :: (c.body ++ ['}'])))

def steps : List Step :=
  c.opening.map .execute ++ (c.fields.flatMap (·.steps) ++ [.execute resultText])

/-- The routine can be written down: the gap is space, all names are names, and no field or pointer has the name
of another. -/
structure WellFormed : Prop where
  message : IsName c.message
  gap : ∀ ch ∈ c.gap, isAsciiSpace ch = true
  fields : ∀ f ∈ c.fields, f.WellFormed
  distinct : (c.fields.map (·.name)).Nodup
  fresh : ((c.fields.filterMap (·.source.pointer?)).map (·.1)).Nodup

structure Proper : Prop extends WellFormed c where
  readable : ∀ f ∈ c.fields, f.source.Readable

variable {c}

theorem Proper.field (h : c.Proper) : ∀ f ∈ c.fields, f.Proper :=
  fun f hf => ⟨h.fields f hf, h.readable f hf⟩

end CanonicalRoutine

theorem all_flagsNames : ["buf", "offset", "PacketIO", "getByte", "readBytes"].all (fun name =>
    name.toList.all isIdent && name.toList.head?.any isWord) = true := by
  decide +kernel

theorem FlagsLocal.written_call (flags : FlagsLocal) : flags.call.Written := by
  have hname : ∀ name ∈ ["buf", "offset", "PacketIO", "getByte", "readBytes"],
      (∀ c ∈ name.toList, isIdent c = true) ∧ name.toList.head?.any isWord = true := by
    intro name hmem
    have hall := List.all_eq_true.1 all_flagsNames name hmem
    rw [Bool.and_eq_true] at hall
    exact ⟨List.all_eq_true.1 hall.1, hall.2⟩
  have hargument : ∀ name ∈ ["buf", "offset", "PacketIO", "getByte", "readBytes"], IsArgument name.toList :=
    fun name hmem => isArgument_word (hname name hmem).1 (PlainCall.ne_nil_of_head? (hname name hmem).2)
  cases flags with
  | octet =>
    obtain ⟨hr, hh⟩ := hname "buf" (by simp)
    obtain ⟨hn, hnh⟩ := hname "getByte" (by simp)
    exact ⟨hr, hh, hn, hnh, List.forall_mem_singleton.2 (hargument "offset" (by simp))⟩
  | octets count =>
    obtain ⟨hr, hh⟩ := hname "PacketIO" (by simp)
    obtain ⟨hn, hnh⟩ := hname "readBytes" (by simp)
    exact ⟨hr, hh, hn, hnh, List.forall_mem_cons.2 ⟨hargument "buf" (by simp),
      List.forall_mem_cons.2 ⟨hargument "offset" (by simp), List.forall_mem_singleton.2 isArgument_decimal⟩⟩⟩

theorem isStatement_flags (flags : FlagsLocal) : IsStatement flags.text := by
  have hall : ∀ w ∈ ["byte nullBits = ".toList, "byte[] nullBits = ".toList],
      w.all isStartChar = true ∧ w ≠ [] ∧ w.head?.all isIdent = true := by decide +kernel
  have hmem : flags.declared ∈ ["byte nullBits = ".toList, "byte[] nullBits = ".toList] := by
    cases flags with
    | octet => exact List.mem_cons_self
    | octets count => exact List.mem_cons_of_mem _ List.mem_cons_self
  obtain ⟨hchars, hne, hhead⟩ := hall _ hmem
  refine isStatement_before_call flags.written_call (List.all_eq_true.1 hchars) hne fun c hc => ?_
  simpa [Option.mem_def.1 hc] using hhead

theorem isStatement_objectText {c : CanonicalRoutine} (h : IsName c.message) : IsStatement c.objectText := by
  have htext : c.objectText = (c.message.toList ++ (" obj = new ".toList ++ c.message.toList)) ++
      '(' :: ([] ++ [')']) := by
    unfold CanonicalRoutine.objectText
    simp only [String.reduceToList, List.append_assoc, List.cons_append, List.nil_append]
  have hnew : ∀ ch ∈ " obj = new ".toList, isStartChar ch = true := List.all_eq_true.1 (by decide +kernel)
  have hstart : ∀ ch ∈ c.message.toList ++ (" obj = new ".toList ++ c.message.toList), isStartChar ch = true := by
    simp only [List.forall_mem_append]
    exact ⟨fun ch hc => isStartChar_of_isIdent (h.2 ch hc), hnew, fun ch hc => isStartChar_of_isIdent (h.2 ch hc)⟩
  rw [htext]
  refine isStatement_call hstart (by simp [h.1]) ?_ (by simp) nested_nil
  intro ch hc
  rw [List.head?_append_of_ne_nil _ h.1] at hc
  exact h.2 ch (List.mem_of_mem_head? hc)

theorem isStatement_resultText : IsStatement CanonicalRoutine.resultText := by
  unfold CanonicalRoutine.resultText
  simp only [String.reduceToList]
  refine isStatement_plain (List.all_eq_true.1 (by decide)) (by simp) (fun c hc => ?_) fun c hc => ?_
  · obtain rfl : 'r' = c := Option.some.inj hc
    decide
  · obtain rfl : 'j' = c := Option.some.inj hc
    decide

theorem isStatement_of_mem_opening {c : CanonicalRoutine} (h : IsName c.message) :
    ∀ s ∈ c.opening, IsStatement s := by
  have hobject := isStatement_objectText h
  rw [CanonicalRoutine.opening, List.forall_mem_append]
  refine ⟨fun s hs => ?_, List.forall_mem_singleton.2 hobject⟩
  obtain ⟨flags, -, rfl⟩ := Option.map_eq_some_iff.1 (Option.mem_toList.1 hs)
  exact isStatement_flags flags

theorem stepsOf_fields {fields : List CanonicalField} (h : ∀ f ∈ fields, f.WellFormed)
    (hgap : ∀ c ∈ gap, isAsciiSpace c = true) :
    stepsOf (fields.flatMap (·.text gap) ++ rest) = fields.flatMap (·.steps) ++ stepsOf rest := by
  induction fields with
  | nil => rfl
  | cons f fields ih =>
    rw [List.flatMap_cons, List.flatMap_cons, List.append_assoc, List.append_assoc,
      stepsOf_field (h f List.mem_cons_self) hgap, ih fun x hx => h x (List.mem_cons_of_mem f hx)]

/-- The steps of a routine in canonical form. -/
theorem stepsOf_body {c : CanonicalRoutine} (h : c.WellFormed) : stepsOf c.body = c.steps := by
  have hresult : ∀ s ∈ [CanonicalRoutine.resultText], IsStatement s :=
    List.forall_mem_singleton.2 isStatement_resultText
  rw [CanonicalRoutine.body, stepsOf_block (isStatement_of_mem_opening h.message) h.gap,
    stepsOf_fields h.fields h.gap, stepsOf_block hresult h.gap, stepsOf_end (passed_gap h.gap)]
  simp [CanonicalRoutine.steps]

/-! The characters of a routine. -/

def isPlainChar (c : Char) : Bool := isStatementChar c || isAsciiSpace c || c = ';'

theorem isPlainChar_of_mem_block {statements : List (List Char)} (h : ∀ s ∈ statements, IsStatement s)
    (hgap : ∀ c ∈ gap, isAsciiSpace c = true) :
    ∀ c ∈ CanonicalField.block gap statements, isPlainChar c = true := by
  intro c hc
  obtain ⟨s, hs, hc⟩ := List.mem_flatMap.1 hc
  rcases List.mem_append.1 hc with hc | hc
  · simp [isPlainChar, hgap c hc]
  · rcases List.mem_append.1 hc with hc | hc
    · simp [isPlainChar, (h s hs).chars c hc]
    · obtain rfl := List.mem_singleton.1 hc
      decide

/-- A text in which all is plain but the braces, which are matched. -/
structure Blocks (cs : List Char) : Prop where
  nested : Nested '{' '}' cs
  chars : ∀ c ∈ cs, isPlainChar c = true ∨ c = '{' ∨ c = '}'

theorem blocks_of_plain (h : ∀ c ∈ cs, isPlainChar c = true) : Blocks cs :=
  ⟨nested_of_notMem (fun hm => absurd (h _ hm) (by decide)) (fun hm => absurd (h _ hm) (by decide)),
    fun c hc => Or.inl (h c hc)⟩

theorem Blocks.append (h : Blocks cs) (hd : Blocks ds) : Blocks (cs ++ ds) :=
  ⟨nested_append h.nested hd.nested, List.forall_mem_append.2 ⟨h.chars, hd.chars⟩⟩

theorem Blocks.braced (h : Blocks cs) : Blocks ('{' :: (cs ++ ['}'])) where
  nested := nested_bracketed (by decide) h.nested
  chars := List.forall_mem_cons.2 ⟨Or.inr (Or.inl rfl),
    List.forall_mem_append.2 ⟨h.chars, List.forall_mem_singleton.2 (Or.inr (Or.inr rfl))⟩⟩

theorem blocks_gap (hgap : ∀ c ∈ gap, isAsciiSpace c = true) : Blocks gap :=
  blocks_of_plain fun c hc => by simp [isPlainChar, hgap c hc]

theorem blocks_block {statements : List (List Char)} (h : ∀ s ∈ statements, IsStatement s)
    (hgap : ∀ c ∈ gap, isAsciiSpace c = true) : Blocks (CanonicalField.block gap statements) :=
  blocks_of_plain (isPlainChar_of_mem_block h hgap)

theorem blocks_field {f : CanonicalField} (h : f.WellFormed) (hgap : ∀ c ∈ gap, isAsciiSpace c = true) :
    Blocks (f.text gap) := by
  have hblock := blocks_block h.statements hgap
  obtain ⟨name, source, test⟩ := f
  cases test with
  | none => exact hblock
  | some test =>
    have hheader : Blocks (test.header ++ [' ']) := by
      refine blocks_of_plain (List.forall_mem_append.2 ⟨fun c hc => ?_, List.forall_mem_singleton.2 (by decide)⟩)
      simp [isPlainChar, (isStatement_header test).chars c hc]
    have hbraced := (hblock.append (blocks_gap hgap)).braced
    have htext := (blocks_gap hgap).append (hheader.append hbraced)
    simpa [CanonicalField.text] using htext

theorem blocks_body {c : CanonicalRoutine} (h : c.WellFormed) : Blocks c.body := by
  have hfields : ∀ fields : List CanonicalField, (∀ f ∈ fields, f.WellFormed) →
      Blocks (fields.flatMap (·.text c.gap)) := by
    intro fields
    induction fields with
    | nil => exact fun _ => blocks_of_plain (by simp)
    | cons f fields ih =>
      intro hall
      exact (blocks_field (hall f List.mem_cons_self) h.gap).append
        (ih fun x hx => hall x (List.mem_cons_of_mem f hx))
  have hresult : ∀ s ∈ [CanonicalRoutine.resultText], IsStatement s :=
    List.forall_mem_singleton.2 isStatement_resultText
  exact (blocks_block (isStatement_of_mem_opening h.message) h.gap).append
    ((hfields c.fields h.fields).append ((blocks_block hresult h.gap).append (blocks_gap h.gap)))

/-- The routine holds neither comments nor texts of its own, so all of it is shown. -/
theorem views_cells_text {c : CanonicalRoutine} (h : c.WellFormed) : views (cells c.text) = c.text := by
  have hshown : ∀ d, isPlainChar d = true ∨ d = '{' ∨ d = '}' → d ≠ '/' ∧ d ≠ '"' ∧ d ≠ '\'' := by
    intro d hd
    refine ⟨?_, ?_, ?_⟩ <;>
    · rintro rfl
      rcases hd with hd | hd | hd
      · exact absurd hd (by decide)
      · cases hd
      · cases hd
  have hname : ∀ d ∈ c.message.toList, isPlainChar d = true := fun d hd => by
    simp [isPlainChar, isStatementChar, h.message.2 d hd]
  have hstart : ∀ d ∈ "public static ".toList, isPlainChar d = true := List.all_eq_true.1 (by decide +kernel)
  have hheader : ∀ d ∈ " deserialize(ByteBuf buf, int offset) ".toList, isPlainChar d = true :=
    List.all_eq_true.1 (by decide +kernel)
  have htext : Blocks c.text :=
    (blocks_of_plain hstart).append ((blocks_of_plain hname).append
      ((blocks_of_plain hheader).append (blocks_body h).braced))
  exact views_cells fun d hd => hshown d (htext.chars d hd)

end WireLayout.Routine
