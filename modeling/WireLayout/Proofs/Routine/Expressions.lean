import WireLayout.Proofs.Java.Nesting
import WireLayout.Proofs.Layout.Literals
import WireLayout.Proofs.Routine.Calls
import WireLayout.Routine.Scan

/-! Expressions as a routine writes them: a call on a receiver with plain arguments, a position after the
offset, and the declaration of an offset pointer. Each is read as what it was written for. -/

namespace WireLayout.Routine

open WireLayout.Java WireLayout.Text

variable {cs w rest : List Char} {c : Char}

def offsetWord : List Char := ['o', 'f', 'f', 's', 'e', 't']

theorem offsetWord_ne_nil : offsetWord ≠ [] := by simp [offsetWord]

theorem offsetWord_words : ∀ c ∈ offsetWord, isWordOrDollar c = true := words_of_all (by decide)

theorem single_space : ∀ c ∈ [' '], isSpace c = true := by simp [isSpace]

/-- A text that begins with a word does not begin with space. -/
theorem stops_isSpace_word (hne : w ≠ []) (hw : ∀ c ∈ w, isWordOrDollar c = true) : Stops isSpace (w ++ rest) := by
  intro c hc
  rw [List.head?_append_of_ne_nil _ hne] at hc
  exact isSpace_of_isWordOrDollar (hw c (List.mem_of_mem_head? hc))

/-! Plain arguments. -/

def isArgumentChar (c : Char) : Bool := isIdent c || c = ' ' || c = '+' || c = '.'

theorem plain_of_isArgumentChar (h : isArgumentChar c = true) : depthChange false c = none ∧ c ≠ ',' := by
  by_cases hp : c = '(' ∨ c = '[' ∨ c = '{' ∨ c = ')' ∨ c = ']' ∨ c = '}' ∨ c = ','
  · rcases hp with rfl | rfl | rfl | rfl | rfl | rfl | rfl <;> exact absurd h (by decide)
  · simp only [not_or] at hp
    simp [depthChange, hp]

/-! Texts that make no array. -/

/-- No array is made from here on, whatever stands before. -/
def NoArray (cs : List Char) : Prop := ∀ before, makesArrayFrom before cs = false

theorem noArray_nil : NoArray [] := fun _ => rfl

theorem noArray_cons (h : isWordOrDollar c = false) (hr : NoArray rest) : NoArray (c :: rest) := by
  intro before
  rw [makesArrayFrom_cons h, hr]

theorem noArray_word (hw : ∀ c ∈ w, isWordOrDollar c = true) (hs : Stops isWordOrDollar rest)
    (hq : ∀ s, s <:+ w → Quiet s rest) (hr : NoArray rest) : NoArray (w ++ rest) := by
  intro before
  rw [makesArrayFrom_word hw hs hq, hr]

/-- A mark that ends a word: nothing can be made or called over it. -/
def isClosingMark (c : Char) : Bool := !isWordOrDollar c && !isSpace c && c ≠ '('

theorem quiet_of_closingMark (h : isClosingMark c = true) (s : List Char) : Quiet s (c :: rest) := by
  simp only [isClosingMark, Bool.and_eq_true, Bool.not_eq_true', decide_eq_true_iff] at h
  obtain ⟨⟨-, hspace⟩, hopen⟩ := h
  have hstop : Stops isSpace (c :: rest) := stops_cons.2 hspace
  refine ⟨Or.inr hstop, Or.inr ?_⟩
  rw [skipSpaces_of_stops hstop]
  simpa using hopen

/-- A text after which no array is made as long as a mark that ends words follows. -/
def Harmless (cs : List Char) : Prop :=
  ∀ c rest, isClosingMark c = true → NoArray rest → NoArray (cs ++ c :: rest)

theorem isClosingMark_of_mem (h : c ∈ ['.', ')', ',']) : isClosingMark c = true := by
  have hall : ['.', ')', ','].all isClosingMark = true := by decide +kernel
  exact List.all_eq_true.1 hall c h

theorem harmless_word (hw : ∀ c ∈ w, isWordOrDollar c = true) : Harmless w := by
  intro c rest hc hr
  have hword : isWordOrDollar c = false := by
    simp only [isClosingMark, Bool.and_eq_true, Bool.not_eq_true'] at hc
    exact hc.1.1
  exact noArray_word hw (stops_cons.2 hword) (fun s _ => quiet_of_closingMark hc s) (noArray_cons hword hr)

theorem harmless_dotted (hw : ∀ c ∈ w, isWordOrDollar c = true) (hcs : Harmless cs) :
    Harmless (w ++ '.' :: cs) := by
  intro c rest hc hr
  rw [List.append_assoc, List.cons_append]
  exact harmless_word hw '.' _ (isClosingMark_of_mem (by simp)) (hcs c rest hc hr)

/-! Calls. -/

/-- An argument that holds no call: it begins and ends with a name, and no array is made in it. -/
structure IsArgument (cs : List Char) : Prop where
  chars : ∀ c ∈ cs, isArgumentChar c = true
  nonempty : cs ≠ []
  head : ∀ c ∈ cs.head?, isIdent c = true
  last : ∀ c ∈ cs.getLast?, isIdent c = true
  harmless : Harmless cs

theorem IsArgument.piece (h : IsArgument cs) : Piece cs where
  plain := fun c hc => plain_of_isArgumentChar (h.chars c hc)
  nonempty := h.nonempty
  trimmed := trim_eq_self (fun c hc => isAsciiSpace_of_isIdent (h.head c hc)) fun c hc =>
    isAsciiSpace_of_isIdent (h.last c hc)

theorem isArgument_word (h : ∀ c ∈ w, isIdent c = true) (hne : w ≠ []) : IsArgument w where
  chars := fun c hc => by simp [isArgumentChar, h c hc]
  nonempty := hne
  head := fun c hc => h c (List.mem_of_mem_head? hc)
  last := fun c hc => h c (List.mem_of_getLast? hc)
  harmless := harmless_word fun c hc => isWordOrDollar_of_isIdent (h c hc)

/-- A call on a receiver; the arguments hold no calls. -/
structure PlainCall where
  receiver : List Char
  name : List Char
  arguments : List (List Char)

namespace PlainCall

def inside (call : PlainCall) : List Char := [',', ' '].intercalate call.arguments

def text (call : PlainCall) : List Char :=
  call.receiver ++ '.' :: (call.name ++ '(' :: (call.inside ++ [')']))

/-- The names are names, and the arguments hold no calls. -/
structure Written (call : PlainCall) : Prop where
  receiver_ident : ∀ c ∈ call.receiver, isIdent c = true
  receiver_head : call.receiver.head?.any isWord = true
  name_ident : ∀ c ∈ call.name, isIdent c = true
  name_head : call.name.head?.any isWord = true
  arguments : ∀ a ∈ call.arguments, IsArgument a

structure Proper (call : PlainCall) : Prop extends Written call where
  name_quiet : ∀ s, s <:+ call.name → s ≠ "readBytes".toList ∧ s ≠ "readByteArray".toList

variable {call : PlainCall}

theorem Written.receiver_word (h : call.Written) : ∀ c ∈ call.receiver, isWordOrDollar c = true :=
  fun c hc => isWordOrDollar_of_isIdent (h.receiver_ident c hc)

theorem Written.name_word (h : call.Written) : ∀ c ∈ call.name, isWordOrDollar c = true :=
  fun c hc => isWordOrDollar_of_isIdent (h.name_ident c hc)

theorem ne_nil_of_head? {p : Char → Bool} (h : w.head?.any p = true) : w ≠ [] := by
  rintro rfl
  cases h

theorem head?_append_any {p : Char → Bool} (h : w.head?.any p = true) : (w ++ rest).head?.any p = true := by
  rwa [List.head?_append_of_ne_nil _ (ne_nil_of_head? h)]

theorem mem_intercalate {sep : List Char} {list : List (List Char)} (h : c ∈ sep.intercalate list) :
    c ∈ sep ∨ ∃ a ∈ list, c ∈ a := by
  induction list with
  | nil => exact absurd h (by simp)
  | cons a list ih =>
    cases list with
    | nil => exact Or.inr ⟨a, List.mem_cons_self, by simpa using h⟩
    | cons a' list =>
      rw [List.intercalate_cons_cons, List.append_assoc, List.mem_append, List.mem_append] at h
      rcases h with h | h | h
      · exact Or.inr ⟨a, List.mem_cons_self, h⟩
      · exact Or.inl h
      · rcases ih h with h | ⟨x, hx, hc⟩
        · exact Or.inl h
        · exact Or.inr ⟨x, List.mem_cons_of_mem a hx, hc⟩

theorem bracket_notMem_inside (h : call.Written) (hc : depthChange false c ≠ none) : c ∉ call.inside := by
  intro hmem
  rcases mem_intercalate hmem with hsep | ⟨a, ha, hca⟩
  · simp only [List.mem_cons, List.not_mem_nil, or_false] at hsep
    rcases hsep with rfl | rfl <;> simp [depthChange] at hc
  · exact hc (plain_of_isArgumentChar ((h.arguments a ha).chars c hca)).1

theorem nested_inside (h : call.Written) : Nested '(' ')' call.inside :=
  nested_of_notMem (bracket_notMem_inside h (by decide)) (bracket_notMem_inside h (by decide))

theorem trim_text (h : call.Written) : trim isSpace call.text = call.text := by
  apply trim_eq_self
  · intro c hc
    rw [text, List.head?_append_of_ne_nil _ (ne_nil_of_head? h.receiver_head)] at hc
    exact isSpace_of_isIdent (h.receiver_ident c (List.mem_of_mem_head? hc))
  · have htext : call.text = (call.receiver ++ '.' :: (call.name ++ '(' :: call.inside)) ++ [')'] := by simp [text]
    intro c hc
    rw [htext, List.getLast?_concat] at hc
    obtain rfl : ')' = c := Option.some.inj hc
    simp [isSpace]

theorem callHead?_text (h : call.Written) {before : List Char} (hb : before.head?.any isWord = false) :
    callHead? before (call.text ++ rest) =
      some (⟨some call.receiver, call.name, call.inside ++ ')' :: rest⟩, call.inside ++ ')' :: rest) := by
  have hreceiver : run? isWordOrDollar (call.text ++ rest) =
      some (call.receiver, '.' :: (call.name ++ '(' :: (call.inside ++ ')' :: rest))) := by
    have hrun : run? isWordOrDollar (call.receiver ++ '.' :: (call.name ++ '(' :: (call.inside ++ ')' :: rest))) =
        some (call.receiver, '.' :: (call.name ++ '(' :: (call.inside ++ ')' :: rest))) := run?_append
      (ne_nil_of_head? h.receiver_head) h.receiver_word (stops_cons.2 isWordOrDollar_point)
    simpa [text] using hrun
  have hname : run? isWordOrDollar (call.name ++ '(' :: (call.inside ++ ')' :: rest)) =
      some (call.name, '(' :: (call.inside ++ ')' :: rest)) :=
    run?_append (ne_nil_of_head? h.name_head) h.name_word (stops_cons.2 isWordOrDollar_open)
  have hskip : skipSpaces (call.name ++ '(' :: (call.inside ++ ')' :: rest)) =
      call.name ++ '(' :: (call.inside ++ ')' :: rest) :=
    skipSpaces_of_stops (stops_isSpace_word (ne_nil_of_head? h.name_head) h.name_word)
  have hedge : atWordEdge before (call.text ++ rest) = true := by
    have hhead : (call.text ++ rest).head?.any isWord = true := by
      rw [text, List.append_assoc]
      exact head?_append_any h.receiver_head
    rw [atWordEdge, hb, hhead]
    rfl
  have hhead : (call.name ++ '(' :: (call.inside ++ ')' :: rest)).head?.any isWord = true :=
    head?_append_any h.name_head
  have htoken : token? "." ('.' :: (call.name ++ '(' :: (call.inside ++ ')' :: rest))) =
      some (call.name ++ '(' :: (call.inside ++ ')' :: rest)) := rfl
  have hparen : token? "(" ('(' :: (call.inside ++ ')' :: rest)) = some (call.inside ++ ')' :: rest) := rfl
  have hcalled : calledOn? (call.text ++ rest) =
      some (⟨some call.receiver, call.name, call.inside ++ ')' :: rest⟩, call.inside ++ ')' :: rest) := by
    simp only [calledOn?, calledName?, hreceiver, htoken, hskip, hhead, hname, hparen, guard,
      Option.bind_eq_bind, Option.bind_some, if_true]
    rfl
  simp only [callHead?, hedge, hcalled, guard, if_true, Option.bind_eq_bind]
  rfl

/-- A text that ends with a call and calls nothing before it has this one call. -/
theorem matchesFrom_text (h : call.Written) {before : List Char} (hb : before.head?.any isWord = false) :
    matchesFrom callHead? 0 before call.text = [⟨some call.receiver, call.name, call.inside ++ [')']⟩] := by
  obtain ⟨c, cs, hreceiver⟩ := List.exists_cons_of_ne_nil (ne_nil_of_head? h.receiver_head)
  have htext : call.text = c :: ((cs ++ '.' :: (call.name ++ ['('])) ++ (call.inside ++ [')'])) := by
    simp [text, hreceiver]
  have hhead : callHead? before (call.text ++ []) =
      some (⟨some call.receiver, call.name, call.inside ++ [')']⟩, call.inside ++ [')']) := callHead?_text h hb
  rw [List.append_nil, htext] at hhead
  have hno : '(' ∉ call.inside ++ [')'] := by
    simp [bracket_notMem_inside h (c := '(') (by decide)]
  rw [htext, matchesFrom_of_some hhead, matchesFrom_callHead?_of_notMem hno]

/-- What is found of the call once its head is the first of the name. -/
theorem closing_inside (h : call.Written) : closing id '(' ')' 1 (call.inside ++ [')']) = some (call.inside, []) :=
  closing_nested (by decide) (nested_inside h)

theorem arguments_inside (h : call.Written) : Routine.arguments call.inside = call.arguments :=
  pieces_intercalate fun a ha => (h.arguments a ha).piece

theorem findCall_text (h : call.Written) (name : String) :
    findCall name call.text =
      if call.name = name.toList then some ⟨some call.receiver, call.arguments, []⟩ else none := by
  rw [findCall, allMatches, matchesFrom_text h rfl]
  by_cases hn : call.name = name.toList
  · simp [hn, closing_inside h, arguments_inside h]
  · simp [hn]

theorem noArray_inside (h : call.Written) : NoArray (call.inside ++ [')']) := by
  have hlist : ∀ list : List (List Char), (∀ a ∈ list, Harmless a) →
      NoArray ([',', ' '].intercalate list ++ [')']) := by
    intro list
    induction list with
    | nil => intro _; exact noArray_cons isWordOrDollar_close noArray_nil
    | cons a list ih =>
      intro hlist
      have ha := hlist a List.mem_cons_self
      cases list with
      | nil =>
        rw [List.intercalate_singleton]
        exact ha ')' [] (isClosingMark_of_mem (by simp)) noArray_nil
      | cons a' list =>
        rw [List.intercalate_cons_cons, List.append_assoc, List.append_assoc]
        exact ha ',' _ (isClosingMark_of_mem (by simp)) (noArray_cons isWordOrDollar_comma
          (ih fun x hx => hlist x (List.mem_cons_of_mem a hx)))
  exact hlist _ fun a ha => (h.arguments a ha).harmless

theorem makesArray_text (h : call.Proper) : makesArray call.text = false := by
  have hname : NoArray (call.name ++ '(' :: (call.inside ++ [')'])) := by
    refine noArray_word h.name_word (stops_cons.2 isWordOrDollar_open) (fun s hs => ?_)
      (noArray_cons isWordOrDollar_open (noArray_inside h.toWritten))
    exact ⟨Or.inr (stops_cons.2 (by simp [isSpace])), Or.inl (h.name_quiet s hs)⟩
  exact harmless_word h.receiver_word '.' _ (isClosingMark_of_mem (by simp)) hname []

end PlainCall

/-! Positions. -/

def positionText (k : Nat) : List Char := "offset + ".toList ++ decimal k

variable {k : Nat}

theorem positionText_eq :
    positionText k = offsetWord ++ ' ' :: '+' :: ' ' :: decimal k := by
  unfold positionText
  simp only [offsetWord, String.reduceToList, List.cons_append, List.nil_append]

theorem head?_positionText : (positionText k).head? = some 'o' := by
  rw [positionText_eq]
  rfl

theorem getLast?_positionText : (positionText k).getLast? = (decimal k).getLast? := by
  unfold positionText
  rw [List.getLast?_append_of_ne_nil _ decimal_ne_nil]

theorem harmless_positionText : Harmless (positionText k) := by
  intro c rest hc hr
  have hdigits : NoArray (decimal k ++ c :: rest) :=
    harmless_word (fun c hc => isWordOrDollar_of_isIdent (isIdent_of_mem_decimal hc)) c rest hc hr
  have hplus : NoArray (' ' :: '+' :: ' ' :: (decimal k ++ c :: rest)) :=
    noArray_cons isWordOrDollar_space
      (noArray_cons isWordOrDollar_plus (noArray_cons isWordOrDollar_space hdigits))
  have hquiet : ∀ s, s <:+ offsetWord →
      Quiet s (' ' :: '+' :: ' ' :: (decimal k ++ c :: rest)) := by
    intro s hs
    have hnew : ∀ s ∈ offsetWord.tails, s ≠ "new".toList := by
      simp only [String.reduceToList]
      decide
    refine ⟨Or.inl (hnew s ((List.mem_tails _ _).2 hs)), Or.inr ?_⟩
    intro hhead
    cases hhead
  rw [positionText_eq, List.append_assoc]
  exact noArray_word (words_of_all (by decide)) (stops_cons.2 isWordOrDollar_space) hquiet hplus

theorem isArgument_positionText : IsArgument (positionText k) where
  chars := by
    have hstart : ∀ c ∈ offsetWord, isArgumentChar c = true := List.all_eq_true.1 (by decide)
    rw [positionText_eq, List.forall_mem_append]
    refine ⟨hstart, ?_⟩
    simp only [List.forall_mem_cons]
    refine ⟨by decide, by decide, by decide, fun c hc => ?_⟩
    simp [isArgumentChar, isIdent_of_mem_decimal hc]
  nonempty := by
    rw [positionText_eq]
    simp
  head := by
    intro c hc
    rw [head?_positionText] at hc
    obtain rfl : 'o' = c := Option.some.inj hc
    decide
  last := by
    intro c hc
    rw [getLast?_positionText] at hc
    exact isIdent_of_mem_decimal (List.mem_of_getLast? hc)
  harmless := harmless_positionText

theorem Scope.position?_positionText {scope : Scope} (ho : scope.offsetName = offsetWord)
    (hk : k ≤ maxWord) : scope.position? (positionText k) = some k := by
  have htrim : trim isSpace (positionText k) = positionText k := by
    refine trim_eq_self (fun c hc => ?_) fun c hc => ?_
    · rw [head?_positionText] at hc
      obtain rfl : 'o' = c := Option.some.inj hc
      exact isSpace_of_isIdent (by decide)
    · rw [getLast?_positionText] at hc
      exact isSpace_of_mem_decimal (List.mem_of_getLast? hc)
  have hne : positionText k ≠ scope.offsetName := by
    rw [ho, positionText_eq]
    intro h
    have hlen := congrArg List.length h
    simp at hlen
  have hsplit : splitPlus? (positionText k) = some (['o', 'f', 'f', 's', 'e', 't', ' '], ' ' :: decimal k) := by
    have hstop : Stops (fun x => decide (x ≠ '+')) ('+' :: ' ' :: decimal k) := stops_cons.2 (by decide)
    have hstart : ∀ x ∈ ['o', 'f', 'f', 's', 'e', 't', ' '], decide (x ≠ '+') = true :=
      List.all_eq_true.1 (by decide)
    have heq : positionText k = ['o', 'f', 'f', 's', 'e', 't', ' '] ++ '+' :: ' ' :: decimal k := by
      rw [positionText_eq]
      rfl
    unfold splitPlus?
    rw [heq, dropWhile_append_of_stops hstart hstop, takeWhile_append_of_stops hstart hstop]
  have hoffset : trim isSpace ['o', 'f', 'f', 's', 'e', 't', ' '] = scope.offsetName := by
    rw [ho]
    decide +kernel
  have hread : (IntLiteral.read? (' ' :: decimal k)).bind word? = some k :=
    word?_read?_decimal [' '] single_space hk
  simp only [Scope.position?, htrim, hsplit, hoffset, if_neg hne, hread, guard, if_true, Option.bind_eq_bind,
    Option.bind_some]
  rfl

/-! Statements. -/

def assignmentText (member value : List Char) : List Char :=
  "obj.".toList ++ (member ++ (" = ".toList ++ value))

theorem assignmentText_eq (member value : List Char) :
    assignmentText member value = ['o', 'b', 'j'] ++ '.' :: (member ++ ' ' :: '=' :: ' ' :: value) := by
  simp only [assignmentText, String.reduceToList, List.cons_append, List.nil_append]

theorem memberAssignment?_assignmentText {member value : List Char} (hne : member ≠ [])
    (hm : ∀ c ∈ member, isWordOrDollar c = true) (ht : trim isSpace value = value) :
    memberAssignment? (assignmentText member value) = some (String.ofList member, value) := by
  have hobj : run? isWordOrDollar (assignmentText member value) =
      some (['o', 'b', 'j'], '.' :: (member ++ ' ' :: '=' :: ' ' :: value)) := by
    rw [assignmentText_eq]
    exact run?_append (by simp) (words_of_all (by decide)) (stops_cons.2 isWordOrDollar_point)
  have hskip : skipSpaces (member ++ ' ' :: '=' :: ' ' :: value) = member ++ ' ' :: '=' :: ' ' :: value :=
    skipSpaces_of_stops (stops_isSpace_word hne hm)
  have hmember : run? isWordOrDollar (member ++ ' ' :: '=' :: ' ' :: value) =
      some (member, ' ' :: '=' :: ' ' :: value) := run?_append hne hm (stops_cons.2 isWordOrDollar_space)
  have hpoint : token? "." ('.' :: (member ++ ' ' :: '=' :: ' ' :: value)) =
      some (member ++ ' ' :: '=' :: ' ' :: value) := rfl
  have hvalue : assigned? (' ' :: '=' :: ' ' :: value) = some (' ' :: value) := rfl
  have htrim : trim isSpace (' ' :: value) = value :=
    (trim_append_left single_space).trans ht
  simp only [memberAssignment?, hobj, hpoint, hskip, hmember, hvalue, htrim, Option.bind_eq_bind,
    Option.bind_some]

def slotCall (slot : Nat) : PlainCall := ⟨"buf".toList, "getIntLE".toList, [positionText slot]⟩

def pointerText (name : List Char) (base slot : Nat) : List Char :=
  "int ".toList ++ (name ++ (" = offset + ".toList ++ (decimal base ++ (" + ".toList ++ (slotCall slot).text))))

theorem written_slotCall (slot : Nat) : (slotCall slot).Written where
  receiver_ident := List.all_eq_true.1 (by unfold slotCall; simp only [String.reduceToList]; decide)
  receiver_head := by unfold slotCall; simp only [String.reduceToList]; decide +kernel
  name_ident := List.all_eq_true.1 (by unfold slotCall; simp only [String.reduceToList]; decide)
  name_head := by unfold slotCall; simp only [String.reduceToList]; decide +kernel
  arguments := by simpa [slotCall] using isArgument_positionText

/-- A number in decimal ends before anything that is no digit and does not make it hexadecimal. -/
theorem number?_decimal {n : Nat} (hr : Stops isDigit rest) (hx : ∀ c ∈ rest.head?, c ≠ 'x' ∧ c ≠ 'X') :
    number? (decimal n ++ rest) = some (decimal n, rest) := by
  have hrun : run? isDigit (decimal n ++ rest) = some (decimal n, rest) :=
    run?_append decimal_ne_nil (fun c hc => isDigit_of_mem_decimal hc) hr
  have hhex : ∀ x tail, decimal n ++ rest = '0' :: x :: tail → x ≠ 'x' ∧ x ≠ 'X' := by
    intro x tail heq
    rcases Nat.eq_zero_or_pos n with rfl | hpos
    · have hzero : decimal 0 = ['0'] := by decide +kernel
      rw [hzero, List.singleton_append] at heq
      exact hx x (by rw [(List.cons.inj heq).2]; rfl)
    · obtain ⟨d, ds, hd⟩ := List.exists_cons_of_ne_nil (decimal_ne_nil (n := n))
      rw [hd, List.cons_append] at heq
      obtain rfl : d = '0' := (List.cons.inj heq).1
      exact absurd rfl (head?_decimal hpos '0' (by rw [hd]; rfl))
  unfold number?
  rw [hrun]
  split
  · rename_i x tail heq
    obtain ⟨hlower, hupper⟩ := hhex x tail heq
    simp [hlower, hupper]
  · rfl

section

variable {name : List Char} {base slot : Nat}

theorem pointerText_eq : pointerText name base slot =
    ['i', 'n', 't'] ++ ' ' :: (name ++ ' ' :: '=' :: ' ' :: (offsetWord ++ ' ' :: '+' :: ' ' ::
      (decimal base ++ ' ' :: '+' :: ' ' :: (slotCall slot).text))) := by
  unfold pointerText
  simp only [offsetWord, String.reduceToList, List.cons_append, List.nil_append]

theorem slotCall_text_eq : (slotCall slot).text =
    ['b', 'u', 'f'] ++ '.' ::
      (['g', 'e', 't', 'I', 'n', 't', 'L', 'E'] ++ '(' :: ((slotCall slot).inside ++ [')'])) := by
  unfold PlainCall.text slotCall
  simp only [String.reduceToList]

theorem skipSpaces_space_word {w : List Char} (hne : w ≠ []) (hw : ∀ c ∈ w, isWordOrDollar c = true) :
    skipSpaces (' ' :: (w ++ rest)) = w ++ rest := by
  rw [skipSpaces_cons_of_space (single_space ' ' List.mem_cons_self)]
  exact skipSpaces_of_stops (stops_isSpace_word hne hw)

theorem spaces?_space_word {w : List Char} (hne : w ≠ []) (hw : ∀ c ∈ w, isWordOrDollar c = true) :
    spaces? (' ' :: (w ++ rest)) = some (w ++ rest) := by
  have hrun : run? isSpace ([' '] ++ (w ++ rest)) = some ([' '], w ++ rest) :=
    run?_append (by simp) single_space (stops_isSpace_word hne hw)
  rw [spaces?, ← List.singleton_append, hrun]
  rfl

theorem pointerDeclaration?_pointerText (hne : name ≠ []) (hw : ∀ c ∈ name, isWordOrDollar c = true) :
    pointerDeclaration? (pointerText name base slot) =
      some ⟨String.ofList name, String.ofList offsetWord, decimal base⟩ := by
  have hbuf : ∀ c ∈ ['b', 'u', 'f'], isWordOrDollar c = true := words_of_all (by decide)
  have hbase : ∀ c ∈ decimal base, isWordOrDollar c = true :=
    fun c hc => isWordOrDollar_of_isIdent (isIdent_of_mem_decimal hc)
  -- what follows the base, the offset and the name
  generalize hcall : ['g', 'e', 't', 'I', 'n', 't', 'L', 'E'] ++ '(' :: ((slotCall slot).inside ++ [')']) = call
  have htext : (slotCall slot).text = ['b', 'u', 'f'] ++ '.' :: call := by rw [slotCall_text_eq, hcall]
  generalize hslot : ' ' :: '+' :: ' ' :: (['b', 'u', 'f'] ++ '.' :: call) = afterBase
  generalize hsum : ' ' :: '+' :: ' ' :: (decimal base ++ afterBase) = afterOffset
  generalize hdecl : ' ' :: '=' :: ' ' :: (offsetWord ++ afterOffset) = afterName
  have hfinal : afterFinal? (['i', 'n', 't'] ++ ' ' :: (name ++ afterName)) = none := by
    simp [afterFinal?, literal?]
  have hint : literal? "int".toList (['i', 'n', 't'] ++ ' ' :: (name ++ afterName)) =
      some (' ' :: (name ++ afterName)) := by
    simp [literal?]
  have hname : run? isWordOrDollar (name ++ afterName) = some (name, afterName) :=
    run?_append hne hw (by rw [← hdecl]; exact stops_cons.2 isWordOrDollar_space)
  have hassign : token? "=" afterName = some (' ' :: (offsetWord ++ afterOffset)) := by
    rw [← hdecl]
    rfl
  have hstart : run? isWordOrDollar (offsetWord ++ afterOffset) =
      some (offsetWord, afterOffset) :=
    run?_append offsetWord_ne_nil offsetWord_words (by rw [← hsum]; exact stops_cons.2 isWordOrDollar_space)
  have hplus : token? "+" afterOffset = some (' ' :: (decimal base ++ afterBase)) := by
    rw [← hsum]
    rfl
  have hnumber : number? (decimal base ++ afterBase) = some (decimal base, afterBase) := by
    rw [← hslot]
    exact number?_decimal (stops_cons.2 (by decide)) (by simp)
  have hplus' : token? "+" afterBase = some (' ' :: (['b', 'u', 'f'] ++ '.' :: call)) := by
    rw [← hslot]
    rfl
  have hreceiver : run? isWordOrDollar (['b', 'u', 'f'] ++ '.' :: call) = some (['b', 'u', 'f'], '.' :: call) :=
    run?_append (by simp) hbuf (stops_cons.2 isWordOrDollar_point)
  have hpoint : token? "." ('.' :: call) = some call := rfl
  have hgetter : token? "getIntLE" call = some ('(' :: ((slotCall slot).inside ++ [')'])) := by
    rw [← hcall]
    exact token?_eq_some_iff.2 (by simp only [String.reduceToList]; rfl)
  have hopen : token? "(" ('(' :: ((slotCall slot).inside ++ [')'])) = some ((slotCall slot).inside ++ [')']) := rfl
  rw [pointerText_eq, htext, hslot, hsum, hdecl]
  simp only [pointerDeclaration?, hfinal, Option.getD_none, hint, spaces?_space_word hne hw, hname, hassign,
    skipSpaces_space_word offsetWord_ne_nil offsetWord_words, hstart, hplus,
    skipSpaces_space_word decimal_ne_nil hbase, hnumber,
    hplus', skipSpaces_space_word (by simp) hbuf, hreceiver, hpoint, hgetter, hopen, Option.bind_eq_bind,
    Option.bind_some]

/-- A word before a space and a further character calls nothing. -/
theorem matchesFrom_word_space {before w : List Char} (hw : ∀ c ∈ w, isWordOrDollar c = true)
    (hd : ∀ c ∈ rest.head?, isSpace c = false ∧ c ≠ '.' ∧ c ≠ '(') :
    matchesFrom callHead? 0 before (w ++ ' ' :: rest) =
      matchesFrom callHead? 0 (' ' :: (w.reverse ++ before)) rest := by
  have hstop : Stops isSpace rest := fun c hc => (hd c hc).1
  have hskip : skipSpaces (' ' :: rest) = rest := by
    rw [skipSpaces_cons_of_space (single_space ' ' List.mem_cons_self), skipSpaces_of_stops hstop]
  have hnext : ∀ c ∈ (skipSpaces (' ' :: rest)).head?, c ≠ '.' ∧ c ≠ '(' := by
    rw [hskip]
    exact fun c hc => (hd c hc).2
  rw [matchesFrom_callHead?_word hw (stops_cons.2 isWordOrDollar_space) hnext,
    matchesFrom_callHead?_cons isWordOrDollar_space]

theorem matchesFrom_mark_space {before : List Char} {mark : Char} (hm : isWordOrDollar mark = false) :
    matchesFrom callHead? 0 before (mark :: ' ' :: rest) =
      matchesFrom callHead? 0 (' ' :: mark :: before) rest := by
  rw [matchesFrom_callHead?_cons hm, matchesFrom_callHead?_cons isWordOrDollar_space]

theorem head?_word {w : List Char} (hne : w ≠ []) (hw : ∀ c ∈ w, isWordOrDollar c = true) :
    ∀ c ∈ (w ++ rest).head?, isSpace c = false ∧ c ≠ '.' ∧ c ≠ '(' := by
  intro c hc
  rw [List.head?_append_of_ne_nil _ hne] at hc
  have hword := hw c (List.mem_of_mem_head? hc)
  refine ⟨isSpace_of_isWordOrDollar hword, ?_, ?_⟩
  · rintro rfl
    simp [isWordOrDollar_point] at hword
  · rintro rfl
    simp [isWordOrDollar_open] at hword

theorem allMatches_pointerText (hne : name ≠ []) (hw : ∀ c ∈ name, isWordOrDollar c = true) :
    allMatches callHead? (pointerText name base slot) =
      [⟨some (slotCall slot).receiver, (slotCall slot).name, (slotCall slot).inside ++ [')']⟩] := by
  have hint : ∀ c ∈ ['i', 'n', 't'], isWordOrDollar c = true := words_of_all (by decide)
  have hbase : ∀ c ∈ decimal base, isWordOrDollar c = true :=
    fun c hc => isWordOrDollar_of_isIdent (isIdent_of_mem_decimal hc)
  have hmark : ∀ mark, isSpace mark = false ∧ mark ≠ '.' ∧ mark ≠ '(' → ∀ tail : List Char,
      ∀ c ∈ (mark :: tail).head?, isSpace c = false ∧ c ≠ '.' ∧ c ≠ '(' := by
    intro mark h tail c hc
    obtain rfl : mark = c := Option.some.inj hc
    exact h
  have hassign := hmark '=' (by simp [isSpace])
  have hsum := hmark '+' (by simp [isSpace])
  have hblank : isWord ' ' = false := isWord_of_isWordOrDollar isWordOrDollar_space
  rw [pointerText_eq, allMatches, matchesFrom_word_space hint (head?_word hne hw),
    matchesFrom_word_space hw (hassign _), matchesFrom_mark_space isWordOrDollar_equal,
    matchesFrom_word_space offsetWord_words (hsum _), matchesFrom_mark_space isWordOrDollar_plus,
    matchesFrom_word_space hbase (hsum _), matchesFrom_mark_space isWordOrDollar_plus]
  exact PlainCall.matchesFrom_text (written_slotCall slot) hblank

theorem findCall_pointerText (hne : name ≠ []) (hw : ∀ c ∈ name, isWordOrDollar c = true) :
    findCall "getIntLE" (pointerText name base slot) =
      some ⟨some (slotCall slot).receiver, [positionText slot], []⟩ := by
  have hwritten := written_slotCall slot
  rw [findCall, allMatches_pointerText hne hw]
  simp only [slotCall, List.find?_cons, decide_true, Option.bind_eq_bind, Option.bind_some]
  have hclose := PlainCall.closing_inside hwritten
  have harguments := PlainCall.arguments_inside hwritten
  simp only [slotCall] at hclose harguments
  rw [hclose, Option.bind_some, harguments]

end

theorem Reader.pointer?_pointerText {r : Reader} {name : List Char} {base slot : Nat}
    (ho : r.offsetName = offsetWord) (hne : name ≠ [])
    (hw : ∀ c ∈ name, isWordOrDollar c = true) (hb : base ≤ maxWord) (hs : slot ≤ maxWord) :
    r.pointer? (pointerText name base slot) = some (String.ofList name, ⟨slot, base⟩) := by
  have hbase : (IntLiteral.read? (decimal base)).bind word? = some base :=
    word?_read?_decimal [] (by simp) hb
  have hslot : r.scope.position? (positionText slot) = some slot := Scope.position?_positionText ho hs
  have hname : (String.ofList offsetWord).toList = r.offsetName := by
    rw [String.toList_ofList, ho]
  have hparts : r.pointerParts? (pointerText name base slot) = some (String.ofList name, base, positionText slot) := by
    simp only [Reader.pointerParts?, pointerDeclaration?_pointerText hne hw, findCall_pointerText hne hw, hbase,
      hname, guard, if_true, List.head?_cons, Option.bind_eq_bind, Option.bind_some]
    rfl
  simp only [Reader.pointer?, hparts, hslot, Option.bind_eq_bind, Option.bind_some]

end WireLayout.Routine
