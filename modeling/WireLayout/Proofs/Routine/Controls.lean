import WireLayout.Proofs.Routine.Calls
import WireLayout.Proofs.Routine.Statements

/-! What stands before a statement to control it: an `else`, conditions, or both. A statement is taken apart by dropping
one `else` and one condition, so a second condition in front of it hides it from the reader. As the header of a block
the same text guards by its first condition. -/

namespace WireLayout.Routine

open WireLayout.Java WireLayout.Text

/-- A condition as it is written, with the blanks around its parentheses. -/
structure IfHead where
  gap : List Char
  condition : List Char
  after : List Char
  deriving DecidableEq, Repr

def IfHead.text (h : IfHead) : List Char := "if".toList ++ (h.gap ++ '(' :: (h.condition ++ ')' :: h.after))

/-- What controls a statement: the blanks after an `else`, if there is one, and the conditions. -/
structure Control where
  afterElse : Option (List Char)
  conditions : List IfHead
  deriving DecidableEq, Repr

def Control.text (c : Control) : List Char :=
  c.afterElse.elim [] ("else".toList ++ ·) ++ c.conditions.flatMap IfHead.text

def Blank (cs : List Char) : Prop := ∀ c ∈ cs, isAsciiSpace c = true

structure IfHead.WellFormed (h : IfHead) : Prop where
  gap : Blank h.gap
  condition : Nested '(' ')' h.condition
  after : Blank h.after

structure Control.WellFormed (c : Control) : Prop where
  afterElse : ∀ gap ∈ c.afterElse, gap ≠ [] ∧ Blank gap
  conditions : ∀ h ∈ c.conditions, h.WellFormed
  nonempty : c.afterElse.isSome = true ∨ c.conditions ≠ []

namespace Statement

def parseIf (afterElse : Bool) (text : List Char) : Option Statement :=
  match Reader.afterIf? text with
  | none => some ⟨afterElse, none, text⟩
  | some rest => (closing id '(' ')' 1 rest).map fun (inside, after) =>
      ⟨afterElse, some ('(' :: inside ++ [')']), skipSpaces after⟩

theorem parse?_eq (text : List Char) : parse? text =
    match Reader.afterElse? (trim isSpace text) with
    | some rest => parseIf true rest
    | none => parseIf false (trim isSpace text) := by
  unfold parse? parseIf
  cases Reader.afterElse? (trim isSpace text) <;> rfl

end Statement

/-! What a controlled statement is taken apart into. -/

section

variable {h : IfHead} {cs gap more : List Char}

theorem isSpace_of_blank (h : Blank cs) : ∀ c ∈ cs, isSpace c = true := by
  intro c hc
  by_contra hs
  have hascii := isAsciiSpace_of_isSpace (by simpa using hs)
  rw [h c hc] at hascii
  cases hascii

theorem skipSpaces_blank (hgap : Blank gap) : skipSpaces (gap ++ cs) = skipSpaces cs :=
  List.dropWhile_append_of_pos (isSpace_of_blank hgap)

theorem afterIf?_append (hgap : Blank gap) (more : List Char) :
    Reader.afterIf? ("if".toList ++ (gap ++ '(' :: more)) = some more := by
  have hskip : skipSpaces (gap ++ '(' :: more) = '(' :: more := by
    rw [skipSpaces_blank hgap, skipSpaces_of_stops (stops_cons.2 (by decide))]
  simp [Reader.afterIf?, hskip, literal?]

theorem trim_ifHead (h : IfHead) (cs : List Char) :
    trim isSpace (h.text ++ cs) =
      "if".toList ++ (h.gap ++ '(' :: (h.condition ++ ')' :: dropEnd isSpace (h.after ++ cs))) := by
  have htext : h.text ++ cs = ("if".toList ++ (h.gap ++ '(' :: h.condition)) ++ ')' :: (h.after ++ cs) := by
    simp [IfHead.text]
  have hdrop : (h.text ++ cs).dropWhile isSpace = h.text ++ cs := by
    rw [IfHead.text, List.append_assoc]
    exact List.dropWhile_cons_of_neg (by decide)
  rw [trim, hdrop, htext, dropEnd_append_cons (by decide)]
  simp

theorem Statement.parseIf_ifHead (hw : h.WellFormed) (afterElse : Bool) (cs : List Char) :
    parseIf afterElse (trim isSpace (h.text ++ cs)) =
      some ⟨afterElse, some ('(' :: h.condition ++ [')']), trim isSpace cs⟩ := by
  have hclose : closing id '(' ')' 1 (h.condition ++ ')' :: dropEnd isSpace (h.after ++ cs)) =
      some (h.condition, dropEnd isSpace (h.after ++ cs)) := closing_nested (by decide) hw.condition
  have hbody : skipSpaces (dropEnd isSpace (h.after ++ cs)) = trim isSpace cs := by
    rw [skipSpaces, dropWhile_dropEnd, trim_append_left (isSpace_of_blank hw.after)]
  rw [parseIf, trim_ifHead, afterIf?_append hw.gap]
  simp [hclose, hbody]

/-- Behind an `else` a statement is taken apart as it is without. -/
theorem Statement.parse?_else (hne : gap ≠ []) (hgap : Blank gap) (cs : List Char) :
    parse? ("else".toList ++ (gap ++ cs)) = parseIf true (trim isSpace cs) := by
  have htrim : trim isSpace ("else".toList ++ (gap ++ cs)) = "else".toList ++ dropEnd isSpace (gap ++ cs) := by
    have hdrop : ("else".toList ++ (gap ++ cs)).dropWhile isSpace = "els".toList ++ 'e' :: (gap ++ cs) :=
      List.dropWhile_cons_of_neg (by decide)
    rw [trim, hdrop, dropEnd_append_cons (by decide)]
    simp
  -- what is left begins with the gap or is empty, so the word ends here
  have hword : (dropEnd isSpace (gap ++ cs)).head?.any
      (fun c => isAsciiLetter c || isAsciiDigit c || c = '_') = false := by
    obtain ⟨x, gap, rfl⟩ := List.exists_cons_of_ne_nil hne
    cases hend : dropEnd isSpace (x :: gap ++ cs) with
    | nil => rfl
    | cons y rest =>
      have hprefix : y :: rest <+: x :: (gap ++ cs) := hend ▸ prefix_dropEnd
      obtain rfl : y = x := (List.cons_prefix_cons.1 hprefix).1
      have hident : isIdent y = false := by
        by_contra hi
        have hblank := isAsciiSpace_of_isIdent (by simpa using hi)
        rw [hgap y List.mem_cons_self] at hblank
        cases hblank
      simp only [isIdent, Bool.or_eq_false_iff] at hident
      simp [hident]
  have hrest : Reader.afterElse? (trim isSpace ("else".toList ++ (gap ++ cs))) = some (trim isSpace cs) := by
    rw [htrim, Reader.afterElse?, literal?_append]
    simp [hword, skipSpaces, dropWhile_dropEnd, trim_append_left (isSpace_of_blank hgap)]
  rw [parse?_eq, hrest]

theorem Statement.afterElse_of_parseIf {afterElse : Bool} {st : Statement} (h : parseIf afterElse cs = some st) :
    st.afterElse = afterElse := by
  unfold parseIf at h
  split at h
  · exact Option.some.inj h ▸ rfl
  · obtain ⟨p, -, rfl⟩ := Option.map_eq_some_iff.1 h
    rfl

theorem Statement.parseIf_eq_map (afterElse : Bool) (text : List Char) :
    parseIf afterElse text = (parseIf false text).map fun st => { st with afterElse } := by
  unfold parseIf
  cases Reader.afterIf? text with
  | none => rfl
  | some rest => cases hclose : closing id '(' ')' 1 rest <;> simp [hclose]

/-- What is left without a condition is the whole text, and it does not begin with one. -/
theorem Statement.condition_of_parseIf {afterElse : Bool} {st : Statement} (h : parseIf afterElse cs = some st) :
    (st.condition = none → st.body = cs) ∧ (st.condition ≠ none → (Reader.afterIf? cs).isSome = true) := by
  unfold parseIf at h
  split at h
  · obtain rfl := Option.some.inj h
    exact ⟨fun _ => rfl, fun hne => absurd rfl hne⟩
  · rename_i rest hif
    obtain ⟨p, -, rfl⟩ := Option.map_eq_some_iff.1 h
    exact ⟨nofun, fun _ => by rw [hif]; rfl⟩

theorem Statement.parse?_of_afterElse? (hn : Reader.afterElse? (trim isSpace cs) = none) :
    parse? cs = parseIf false (trim isSpace cs) := by
  rw [parse?_eq, hn]

theorem Statement.afterElse?_of_parse? {inner : Statement} (h : parse? cs = some inner) (hi : inner.afterElse = false) :
    Reader.afterElse? (trim isSpace cs) = none := by
  rw [parse?_eq] at h
  cases he : Reader.afterElse? (trim isSpace cs) with
  | none => rfl
  | some rest =>
    rw [he] at h
    rw [afterElse_of_parseIf h] at hi
    cases hi

theorem exists_of_afterIf? {rest : List Char} (h : Reader.afterIf? cs = some rest) :
    ∃ gap, cs = "if".toList ++ (gap ++ '(' :: rest) ∧ ∀ c ∈ gap, isSpace c = true := by
  simp only [Reader.afterIf?, Option.bind_eq_bind, Option.bind_eq_some_iff, literal?_eq_some_iff] at h
  obtain ⟨after, rfl, hskip⟩ := h
  refine ⟨after.takeWhile isSpace, ?_, fun c hc => List.mem_takeWhile_imp hc⟩
  have hsplit := List.takeWhile_append_dropWhile (p := isSpace) (l := after)
  rw [skipSpaces] at hskip
  rw [← hskip.trans (List.singleton_append), hsplit]

theorem stops_condition {p : Char → Bool} (hspace : ∀ c, isSpace c = true → p c = false) (hopen : p '(' = false)
    (hgap : ∀ c ∈ gap, isSpace c = true) : Stops p (gap ++ '(' :: more) := by
  cases gap with
  | nil => exact stops_cons.2 hopen
  | cons x gap => exact stops_cons.2 (hspace x (hgap x List.mem_cons_self))

theorem isWordOrDollar_of_isSpace {c : Char} (h : isSpace c = true) : isWordOrDollar c = false := by
  by_contra hw
  have hspace := isSpace_of_isWordOrDollar (by simpa using hw)
  rw [h] at hspace
  cases hspace

theorem isTypePart_of_isSpace {c : Char} (h : isSpace c = true) : isTypePart c = false := by
  have hpoint : c ≠ '.' := by
    rintro rfl
    exact absurd h (by decide)
  simp [isTypePart, isWordOrDollar_of_isSpace h, hpoint]

theorem onlyDimensions_spaces (hgap : ∀ c ∈ gap, isSpace c = true) (inside : Bool) (cs : List Char) :
    onlyDimensions inside (gap ++ cs) = onlyDimensions inside cs := by
  induction gap with
  | nil => rfl
  | cons x gap ih =>
    rw [List.cons_append, onlyDimensions, if_pos (hgap x List.mem_cons_self)]
    exact ih fun c hc => hgap c (List.mem_cons_of_mem x hc)

theorem isType_ifHead (hgap : ∀ c ∈ gap, isSpace c = true) : isType ("if".toList ++ (gap ++ '(' :: more)) = false := by
  have hword : ∀ c ∈ "if".toList, isTypePart c = true := fun c hc => by
    simp [isTypePart, words_of_all (w := "if".toList) rfl c hc]
  have hstops : Stops isTypePart (gap ++ '(' :: more) :=
    stops_condition (fun _ => isTypePart_of_isSpace) (by simp [isTypePart, isWordOrDollar_open]) hgap
  have hskip : skipSpaces (gap ++ '(' :: more) = '(' :: more := by
    rw [skipSpaces, List.dropWhile_append_of_pos hgap, List.dropWhile_cons_of_neg (by decide)]
  have hdimensions : onlyDimensions false (gap ++ '(' :: more) = false := by
    rw [onlyDimensions_spaces hgap]
    simp [onlyDimensions, isSpace]
  rw [isType, run?_append (by decide) hword hstops]
  simp [hskip, hdimensions]

theorem isType_of_localDeclaration? {found : String × List Char} (h : localDeclaration? cs = some found) {type : List Char}
    (htype : dropEnd isSpace (dropEnd isWordOrDollar (dropEnd isSpace (cs.takeWhile (· ≠ '=')))) = type) :
    (afterFinal? type).any isType = true ∨ isType type = true := by
  subst htype
  simp only [localDeclaration?, Option.bind_eq_bind, Option.bind_eq_some_iff] at h
  obtain ⟨_, -, _, -, _, htyped, -⟩ := h
  simpa [dropEnd] using htyped

/-- A text that begins with a condition is no declaration: a type holds no parenthesis. -/
theorem localDeclaration?_ifHead (hgap : ∀ c ∈ gap, isSpace c = true) :
    localDeclaration? ("if".toList ++ (gap ++ '(' :: more)) = none := by
  have hequal : ∀ c ∈ "if".toList ++ gap, decide (c ≠ '=') = true := by
    intro c hc
    rcases List.mem_append.1 hc with hc | hc
    · exact List.all_eq_true.1 (by decide : "if".toList.all fun c => decide (c ≠ '=')) c hc
    · rw [decide_eq_true_eq]
      rintro rfl
      exact absurd (hgap '=' hc) (by decide)
  -- the parenthesis is neither space nor part of a name, so it stays in front of the name
  obtain ⟨front, htype⟩ : ∃ front, dropEnd isSpace (dropEnd isWordOrDollar (dropEnd isSpace
      (("if".toList ++ (gap ++ '(' :: more)).takeWhile (· ≠ '=')))) = "if".toList ++ (gap ++ '(' :: front) := by
    refine ⟨dropEnd isSpace (dropEnd isWordOrDollar (dropEnd isSpace (more.takeWhile (· ≠ '=')))), ?_⟩
    rw [← List.append_assoc, List.takeWhile_append_of_pos hequal, List.takeWhile_cons_of_pos (by decide),
      dropEnd_append_cons (by decide), dropEnd_append_cons isWordOrDollar_open, dropEnd_append_cons (by decide),
      List.append_assoc]
  have hfinal : afterFinal? ("if".toList ++ (gap ++ '(' :: front)) = none := by simp [afterFinal?, literal?]
  by_contra hne
  obtain ⟨found, hfound⟩ := Option.ne_none_iff_exists'.1 hne
  rcases isType_of_localDeclaration? hfound htype with hfinal' | htyped
  · rw [hfinal] at hfinal'
    cases hfinal'
  · rw [isType_ifHead hgap] at htyped
    cases htyped

/-- A statement that still begins with a condition is none of the forms that are read. -/
theorem Reader.simpleStatement_of_afterIf? (r : Reader) (nullBit : Option Nat) {body rest : List Char}
    (h : Reader.afterIf? body = some rest) : r.simpleStatement nullBit body = r := by
  obtain ⟨gap, rfl, hgap⟩ := exists_of_afterIf? h
  have hstops : Stops isWordOrDollar (gap ++ '(' :: rest) :=
    stops_condition (fun _ => isWordOrDollar_of_isSpace) isWordOrDollar_open hgap
  have hskip : skipSpaces (gap ++ '(' :: rest) = '(' :: rest := by
    rw [skipSpaces, List.dropWhile_append_of_pos hgap, List.dropWhile_cons_of_neg (by decide)]
  have hmember : memberAssignment? ("if".toList ++ (gap ++ '(' :: rest)) = none := by
    rw [memberAssignment?, run?_append (by decide) (words_of_all rfl) hstops]
    simp [token?, hskip, literal?]
  have hpointer : r.pointer? ("if".toList ++ (gap ++ '(' :: rest)) = none := by
    exact pointer?_eq_none (by simp [pointerDeclaration?, afterFinal?, literal?])
  rw [simpleStatement, if_neg (by simp), hpointer, hmember, localDeclaration?_ifHead hgap]

/-! A statement under a control. -/

namespace Control

variable {c : Control} {inner : Statement}

/-- How many conditions stand in front of the body of a controlled statement. -/
def depth (c : Control) (inner : Statement) : Nat := c.conditions.length + inner.condition.toList.length

/-- The first condition in front of the body of a controlled statement. -/
def condition? (c : Control) (inner : Statement) : Option (List Char) :=
  (c.conditions.head?.map fun h => '(' :: h.condition ++ [')']) <|> inner.condition

theorem parse?_eq_parseIf (hc : c.WellFormed) (cs : List Char) :
    Statement.parse? (c.text ++ cs) =
      Statement.parseIf c.afterElse.isSome (trim isSpace (c.conditions.flatMap IfHead.text ++ cs)) := by
  obtain ⟨afterElse, conditions⟩ := c
  cases afterElse with
  | some gap =>
    obtain ⟨hne, hgap⟩ := hc.afterElse gap rfl
    simpa [text] using Statement.parse?_else hne hgap (conditions.flatMap IfHead.text ++ cs)
  | none =>
    obtain ⟨h, rest, rfl⟩ := List.exists_cons_of_ne_nil (hc.nonempty.resolve_left (by simp))
    have hnone : Reader.afterElse? (trim isSpace (h.text ++ (rest.flatMap IfHead.text ++ cs))) = none := by
      rw [trim_ifHead]
      simp [Reader.afterElse?, literal?]
    simpa [text] using Statement.parse?_of_afterElse? hnone

/-- Under one condition at most the body is read, with that condition. -/
theorem parse?_text (hc : c.WellFormed) (hp : Statement.parse? cs = some inner) (hi : inner.afterElse = false)
    (hd : c.depth inner ≤ 1) :
    Statement.parse? (c.text ++ cs) = some ⟨c.afterElse.isSome, c.condition? inner, inner.body⟩ := by
  have hinner : Statement.parseIf false (trim isSpace cs) = some inner :=
    Statement.parse?_of_afterElse? (Statement.afterElse?_of_parse? hp hi) ▸ hp
  rw [parse?_eq_parseIf hc]
  cases hcond : c.conditions with
  | nil =>
    rw [List.flatMap_nil, List.nil_append, Statement.parseIf_eq_map, hinner]
    simp [condition?, hcond]
  | cons h rest =>
    simp only [depth, hcond, List.length_cons] at hd
    obtain rfl : rest = [] := List.length_eq_zero_iff.1 (by omega)
    have hnone : inner.condition = none := by
      cases hsome : inner.condition with
      | none => rfl
      | some condition => simp [hsome] at hd
    rw [List.flatMap_singleton, Statement.parseIf_ifHead (hc.conditions h (by simp [hcond])),
      (Statement.condition_of_parseIf hinner).1 hnone]
    simp [condition?, hcond]

/-- Under two conditions or more a condition is left in front of the body, and nothing is read. -/
theorem statement_text (hc : c.WellFormed) (hp : Statement.parse? cs = some inner) (hi : inner.afterElse = false)
    (hd : 2 ≤ c.depth inner) (r : Reader) (nullBit : Option Nat) : r.statement nullBit (c.text ++ cs) = r := by
  have hinner : Statement.parseIf false (trim isSpace cs) = some inner :=
    Statement.parse?_of_afterElse? (Statement.afterElse?_of_parse? hp hi) ▸ hp
  cases hcond : c.conditions with
  | nil =>
    simp only [depth, hcond, List.length_nil] at hd
    cases hsome : inner.condition <;> simp [hsome] at hd
  | cons h rest =>
    have hleft : (Reader.afterIf? (trim isSpace (rest.flatMap IfHead.text ++ cs))).isSome = true := by
      cases rest with
      | nil =>
        refine (Statement.condition_of_parseIf hinner).2 fun hnone => ?_
        simp [depth, hcond, hnone] at hd
      | cons h' rest =>
        have hgap := (hc.conditions h' (by simp [hcond])).gap
        rw [List.flatMap_cons, List.append_assoc, trim_ifHead, afterIf?_append hgap]
        rfl
    obtain ⟨left, hleft⟩ := Option.isSome_iff_exists.1 hleft
    have hparse : Statement.parse? (c.text ++ cs) = some ⟨c.afterElse.isSome, some ('(' :: h.condition ++ [')']),
        trim isSpace (rest.flatMap IfHead.text ++ cs)⟩ := by
      rw [parse?_eq_parseIf hc, hcond, List.flatMap_cons, List.append_assoc,
        Statement.parseIf_ifHead (hc.conditions h (by simp [hcond]))]
    rw [Reader.statement, hparse]
    exact Reader.simpleStatement_of_afterIf? r _ hleft

end Control

/-! The guard of a block with a control for its header. -/

theorem maskTest?_word {before w rest : List Char} {c : Char} (hw : ∀ d ∈ w, isWordOrDollar d = true)
    (hr : Stops isWordOrDollar rest) (hnext : ∀ d ∈ (skipSpaces rest).head?, d ≠ '[' ∧ d ≠ '&') :
    maskTest? before (c :: (w ++ rest)) = none := by
  have hbracket : token? "[" rest = none := token?_eq_none_of_head? rfl fun h => (hnext '[' h).1 rfl
  have hmask : token? "&" rest = none := token?_eq_none_of_head? rfl fun h => (hnext '&' h).2 rfl
  unfold maskTest? name?
  by_cases hc : isNameStart c = true
  · simp [hc, takeWhile_append_of_stops hw hr, dropWhile_append_of_stops hw hr, index?, hbracket, hmask]
  · simp [hc]

/-- The search for a test does not see what stands before it. -/
theorem matchesFrom_maskTest? {skip : Nat} (before before' cs : List Char) :
    matchesFrom maskTest? skip before cs = matchesFrom maskTest? skip before' cs := by
  induction cs generalizing skip before before' with
  | nil => cases skip <;> rfl
  | cons c cs ih =>
    have hnext : ∀ {skip : Nat}, matchesFrom maskTest? skip (c :: before) cs =
        matchesFrom maskTest? skip (c :: before') cs := ih _ _
    have hstep : maskTest? before (c :: cs) = maskTest? before' (c :: cs) := rfl
    cases skip with
    | succ skip => exact hnext
    | zero =>
      rw [matchesFrom, matchesFrom, hstep]
      cases maskTest? before' (c :: cs) with
      | none => exact hnext
      | some p => simp only [hnext]

/-- A word that is followed by neither a bracket nor a mask, and blanks behind it, hold no test. -/
theorem maskTest_word {w gap rest : List Char} (hw : ∀ c ∈ w, isWordOrDollar c = true) (hgap : Blank gap)
    (hr : Stops isWordOrDollar (gap ++ rest)) (hs : Stops isSpace rest)
    (hnext : ∀ c ∈ rest.head?, c ≠ '[' ∧ c ≠ '&') : maskTest (w ++ (gap ++ rest)) = maskTest rest := by
  have hskip : skipSpaces (gap ++ rest) = rest := by rw [skipSpaces_blank hgap, skipSpaces_of_stops hs]
  have hword : matchesFrom maskTest? 0 [] (w ++ (gap ++ rest)) =
      matchesFrom maskTest? 0 (w.reverse ++ []) (gap ++ rest) := by
    refine matchesFrom_silent fun u c v heq => maskTest?_word (fun d hd => hw d (heq ▸ by simp [hd])) hr ?_
    rwa [hskip]
  have hblank : ∀ before, matchesFrom maskTest? 0 before (gap ++ rest) =
      matchesFrom maskTest? 0 (gap.reverse ++ before) rest := by
    intro before
    refine matchesFrom_silent fun u c v heq => ?_
    have hstart : isNameStart c = false := by
      by_contra hn
      have hword := isWordOrDollar_of_isNameStart (by simpa using hn)
      rw [isWordOrDollar_of_isSpace (isSpace_of_blank hgap c (heq ▸ by simp))] at hword
      cases hword
    simp [maskTest?, name?, hstart]
  rw [maskTest, maskTest, allMatches, allMatches, hword, hblank, matchesFrom_maskTest? _ []]

theorem trimBlank_ifHead (hw : h.WellFormed) {front : List Char} (hfront : ∀ c ∈ front.head?, isAsciiSpace c = false) :
    trimBlank id (front ++ h.text) = front ++ ("if".toList ++ (h.gap ++ '(' :: (h.condition ++ [')']))) := by
  have htext : front ++ h.text =
      [] ++ ((front ++ ("if".toList ++ (h.gap ++ '(' :: (h.condition ++ [')'])))) ++ h.after) := by
    simp [IfHead.text]
  rw [htext, trimBlank]
  refine trim_between (by simp) hw.after ?_ ?_
  · cases front with
    | nil => simp [isAsciiSpace]
    | cons x front => simpa using hfront
  · intro c hc
    have hlast : (front ++ ("if".toList ++ (h.gap ++ '(' :: h.condition)) ++ [')']).getLast? = some ')' :=
      List.getLast?_concat
    rw [show front ++ ("if".toList ++ (h.gap ++ '(' :: (h.condition ++ [')']))) =
      front ++ ("if".toList ++ (h.gap ++ '(' :: h.condition)) ++ [')'] by simp, hlast] at hc
    obtain rfl := Option.some.inj hc
    decide

theorem maskTest_ifHead (hw : h.WellFormed) :
    maskTest ("if".toList ++ (h.gap ++ '(' :: (h.condition ++ [')']))) = maskTest ('(' :: h.condition ++ [')']) :=
  maskTest_word (words_of_all rfl) hw.gap
    (stops_condition (fun _ => isWordOrDollar_of_isSpace) isWordOrDollar_open (isSpace_of_blank hw.gap))
    (stops_cons.2 (by decide)) (by simp)

/-- A header with one condition at most tests what the condition does. -/
theorem Control.guard?_header {c : Control} (hc : c.WellFormed) (hd : c.conditions.length ≤ 1) (r : Reader) :
    r.guard? (trimBlank id c.text) =
      (c.conditions.head?.map fun h => '(' :: h.condition ++ [')']).bind r.guard? := by
  obtain ⟨afterElse, conditions⟩ := c
  have hguard : ∀ {header condition : List Char}, maskTest header = maskTest condition →
      r.guard? header = r.guard? condition := by
    intro header condition heq
    rw [Reader.guard?, Reader.guard?, heq]
  cases conditions with
  | nil =>
    obtain ⟨gap, rfl⟩ := Option.isSome_iff_exists.1 (hc.nonempty.resolve_right (by simp))
    have htrim : trimBlank id ("else".toList ++ gap) = "else".toList := by
      rw [trimBlank]
      exact (trim_append_right (hc.afterElse gap rfl).2).trans
        (trim_eq_self (by simp [isAsciiSpace]) (by simp [isAsciiSpace]))
    have hnone : maskTest "else".toList = none := by decide +kernel
    have htext : Control.text ⟨some gap, []⟩ = "else".toList ++ gap := by simp [Control.text]
    rw [htext, htrim, Reader.guard?, hnone]
    rfl
  | cons h rest =>
    obtain rfl : rest = [] := List.length_eq_zero_iff.1 (by simpa using hd)
    have hw := hc.conditions h (by simp)
    cases afterElse with
    | none =>
      have htrim : trimBlank id ([] ++ h.text) = _ := trimBlank_ifHead hw (by simp)
      have htext : Control.text ⟨none, [h]⟩ = [] ++ h.text := by simp [Control.text]
      rw [htext, htrim, List.nil_append]
      exact hguard (maskTest_ifHead hw)
    | some gap =>
      obtain ⟨hne, hgap⟩ := hc.afterElse gap rfl
      have htrim : trimBlank id ("else".toList ++ gap ++ h.text) = _ :=
        trimBlank_ifHead hw (by simp [isAsciiSpace])
      have hstops : Stops isWordOrDollar (gap ++ ("if".toList ++ (h.gap ++ '(' :: (h.condition ++ [')'])))) := by
        obtain ⟨x, gap, rfl⟩ := List.exists_cons_of_ne_nil hne
        exact stops_cons.2 (isWordOrDollar_of_isSpace (isSpace_of_blank hgap x List.mem_cons_self))
      have htest := maskTest_word (w := "else".toList) (words_of_all rfl) hgap hstops (by simp [isSpace]) (by simp)
      have htext : Control.text ⟨some gap, [h]⟩ = "else".toList ++ gap ++ h.text := by simp [Control.text]
      rw [htext, htrim, List.append_assoc]
      exact hguard (htest.trans (maskTest_ifHead hw))

/-! The steps of a control. -/

theorem passed_word {w : List Char} (hw : w.all fun c => !isStepMark c) : Passed w :=
  passed_of_plain fun c hc => by simpa using List.all_eq_true.1 hw c hc

theorem passed_ifHead (hw : h.WellFormed) : Passed h.text := by
  have hgroup := passed_append (passed_group hw.condition) (passed_gap hw.after)
  have htext := passed_append (passed_word (w := "if".toList) rfl) (passed_append (passed_gap hw.gap) hgroup)
  simpa [IfHead.text] using htext

theorem Control.passed_text {c : Control} (hc : c.WellFormed) : Passed c.text := by
  have hconditions : ∀ conditions : List IfHead, (∀ h ∈ conditions, h.WellFormed) →
      Passed (conditions.flatMap IfHead.text) := by
    intro conditions
    induction conditions with
    | nil => exact fun _ => passed_of_plain (by simp)
    | cons h rest ih =>
      intro hall
      exact passed_append (passed_ifHead (hall h List.mem_cons_self)) (ih fun x hx => hall x (List.mem_cons_of_mem h hx))
  refine passed_append ?_ (hconditions c.conditions hc.conditions)
  cases helse : c.afterElse with
  | none => exact passed_of_plain (by simp)
  | some gap => exact passed_append (passed_word rfl) (passed_gap (hc.afterElse gap helse).2)

end

end WireLayout.Routine
