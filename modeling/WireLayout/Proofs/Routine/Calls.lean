import WireLayout.Proofs.Java.Balance
import WireLayout.Proofs.Text.Marks
import WireLayout.Routine.Reading

/-! Where calls and new arrays stand in a text, word by word. A word that is followed by neither a point nor a
parenthesis begins no call, and a word that is followed by neither space nor a parenthesis makes no array,
whatever it is. -/

namespace WireLayout.Routine

open WireLayout.Java WireLayout.Text

variable {before w rest cs : List Char} {c : Char}

/-! Calls. -/

theorem calledName?_eq_none (h : '(' ∉ cs) : calledName? cs = none := by
  unfold calledName?
  cases hr : run? isWordOrDollar cs with
  | none => rfl
  | some p =>
    have hrest : '(' ∉ p.2 := fun hm => h (mem_of_mem_rest hr hm)
    simp [token?_eq_none_of_notMem (l := "(") (by decide) hrest]

theorem calledOn?_eq_none (h : '(' ∉ cs) : calledOn? cs = none := by
  unfold calledOn?
  cases hr : run? isWordOrDollar cs with
  | none => rfl
  | some p =>
    cases ht : token? "." p.2 with
    | none => simp [ht]
    | some rest =>
      have hrest : '(' ∉ skipSpaces rest := by
        intro hm
        refine h (mem_of_mem_rest hr (mem_of_mem_skipSpaces ?_))
        rw [token?_eq_some_iff.1 ht]
        exact List.mem_append_right _ (mem_of_mem_skipSpaces hm)
      simp [ht, calledName?_eq_none hrest]

theorem callHead?_eq_none (h : '(' ∉ cs) : callHead? before cs = none := by
  simp [callHead?, calledName?_eq_none h, calledOn?_eq_none h]

theorem callHead?_of_stops (h : Stops isWordOrDollar cs) : callHead? before cs = none := by
  simp [callHead?, calledName?, calledOn?, run?_of_stops h]

/-- A word before neither a point nor a parenthesis begins no call. -/
theorem callHead?_word (hne : w ≠ []) (hw : ∀ c ∈ w, isWordOrDollar c = true) (hr : Stops isWordOrDollar rest)
    (hnext : ∀ c ∈ (skipSpaces rest).head?, c ≠ '.' ∧ c ≠ '(') : callHead? before (w ++ rest) = none := by
  have hpoint : token? "." rest = none := token?_eq_none_of_head? rfl fun h => (hnext '.' h).1 rfl
  have hopen : token? "(" rest = none := token?_eq_none_of_head? rfl fun h => (hnext '(' h).2 rfl
  simp [callHead?, calledName?, calledOn?, run?_append hne hw hr, hpoint, hopen]

theorem matchesFrom_callHead?_of_notMem (h : '(' ∉ cs) : matchesFrom callHead? 0 before cs = [] := by
  induction cs generalizing before with
  | nil => rfl
  | cons c cs ih =>
    rw [matchesFrom_of_none (callHead?_eq_none h)]
    exact ih (fun hm => h (List.mem_cons_of_mem _ hm))

theorem matchesFrom_callHead?_cons (h : isWordOrDollar c = false) :
    matchesFrom callHead? 0 before (c :: rest) = matchesFrom callHead? 0 (c :: before) rest :=
  matchesFrom_of_none (callHead?_of_stops (stops_cons.2 h))

/-- A word that begins no call is passed over, and so is each of its ends. -/
theorem matchesFrom_callHead?_word (hw : ∀ c ∈ w, isWordOrDollar c = true) (hr : Stops isWordOrDollar rest)
    (hnext : ∀ c ∈ (skipSpaces rest).head?, c ≠ '.' ∧ c ≠ '(') :
    matchesFrom callHead? 0 before (w ++ rest) = matchesFrom callHead? 0 (w.reverse ++ before) rest := by
  induction w generalizing before with
  | nil => rfl
  | cons c w ih =>
    have hnone : callHead? before (c :: (w ++ rest)) = none :=
      callHead?_word (List.cons_ne_nil c w) hw hr hnext
    rw [List.cons_append, matchesFrom_of_none hnone, ih fun x hx => hw x (List.mem_cons_of_mem _ hx)]
    simp

/-- A text without an opening parenthesis calls nothing. -/
theorem findCall_eq_none (name : String) (h : '(' ∉ cs) : findCall name cs = none := by
  simp [findCall, allMatches, matchesFrom_callHead?_of_notMem h]

/-! Calls before a mark: what begins before it is read the same whatever follows, but for what follows. -/

section

variable {mark : Char} {ds : List Char}

theorem calledName?_before_mark (hlast : cs.getLast? = some mark) (hword : isWordOrDollar mark = false)
    (hspace : isSpace mark = false) : calledName? (cs ++ ds) = (calledName? cs).map fun p => (p.1, p.2 ++ ds) := by
  rw [calledName?, calledName?, run?_before_mark hlast hword]
  cases hr : run? isWordOrDollar cs with
  | none => rfl
  | some p =>
    have hp : p.2.getLast? = some mark := getLast?_of_run? hlast hword hr
    have htoken : token? "(" (p.2 ++ ds) = (token? "(" p.2).map (· ++ ds) :=
      token?_before_mark hp hspace (by simp)
    cases ht : token? "(" p.2 <;> simp [htoken, ht]

def CallHead.extend (ds : List Char) (h : CallHead) : CallHead := { h with rest := h.rest ++ ds }

theorem calledOn?_before_mark (hlast : cs.getLast? = some mark) (hword : isWordOrDollar mark = false)
    (hspace : isSpace mark = false) (hpoint : mark ≠ '.') :
    calledOn? (cs ++ ds) = (calledOn? cs).map fun p => (p.1.extend ds, p.2 ++ ds) := by
  rw [calledOn?, calledOn?, run?_before_mark hlast hword]
  cases hr : run? isWordOrDollar cs with
  | none => rfl
  | some p =>
    have hp : p.2.getLast? = some mark := getLast?_of_run? hlast hword hr
    have htoken : token? "." (p.2 ++ ds) = (token? "." p.2).map (· ++ ds) :=
      token?_before_mark hp hspace (by simp)
    cases ht : token? "." p.2 with
    | none => simp [htoken, ht]
    | some rest =>
      have hrest : (skipSpaces rest).getLast? = some mark :=
        getLast?_dropWhile (getLast?_of_token? hp hspace (by simpa using hpoint) ht) hspace
      have hskip : skipSpaces (rest ++ ds) = skipSpaces rest ++ ds :=
        skipSpaces_before_mark (getLast?_of_token? hp hspace (by simpa using hpoint) ht) hspace
      have hhead : (skipSpaces rest ++ ds).head? = (skipSpaces rest).head? :=
        List.head?_append_of_ne_nil _ (ne_nil_of_getLast? hrest)
      have hname : calledName? (skipSpaces rest ++ ds) = _ := calledName?_before_mark hrest hword hspace
      by_cases hw : (skipSpaces rest).head?.any isWord = true
      · cases hn : calledName? (skipSpaces rest) <;> simp [htoken, ht, hskip, hhead, hname, hw, hn, CallHead.extend]
      · simp [htoken, ht, hskip, hhead, hw]

theorem callHead?_before_mark (hlast : cs.getLast? = some mark) (hword : isWordOrDollar mark = false)
    (hspace : isSpace mark = false) (hpoint : mark ≠ '.') :
    callHead? before (cs ++ ds) = (callHead? before cs).map fun p => (p.1.extend ds, p.2 ++ ds) := by
  have hedge : atWordEdge before (cs ++ ds) = atWordEdge before cs := by
    rw [atWordEdge, atWordEdge, List.head?_append_of_ne_nil _ (ne_nil_of_getLast? hlast)]
  rw [callHead?, callHead?, hedge, calledOn?_before_mark hlast hword hspace hpoint,
    calledName?_before_mark hlast hword hspace]
  cases atWordEdge before cs with
  | false => rfl
  | true => cases calledOn? cs <;> cases calledName? cs <;> simp [CallHead.extend]

/-- A call that begins and ends before a mark is found whatever follows. -/
theorem findCall_before_mark {name : String} {call : Call} (h : findCall name cs = some call)
    (hlast : cs.getLast? = some mark) (hword : isWordOrDollar mark = false) (hspace : isSpace mark = false)
    (hpoint : mark ≠ '.') : findCall name (cs ++ ds) = some { call with after := call.after ++ ds } := by
  simp only [findCall, Option.bind_eq_bind, Option.bind_eq_some_iff] at h ⊢
  obtain ⟨head, hhead, ⟨inside, after⟩, hclose, hcall⟩ := h
  obtain rfl := Option.some.inj hcall
  have hmatches : allMatches callHead? (cs ++ ds) =
      (allMatches callHead? cs).map (CallHead.extend ds) ++ matchesFrom callHead? 0 (cs.reverse ++ []) ds :=
    matchesFrom_mark_map (fun before cs hl => callHead?_before_mark hl hword hspace hpoint)
      (by simp [hlast]) (Nat.zero_le _)
  refine ⟨head.extend ds, ?_, (inside, after ++ ds), closing_local hclose, rfl⟩
  have hfind : ((allMatches callHead? cs).map (CallHead.extend ds)).find? (fun h => h.name = name.toList) =
      some (head.extend ds) := by
    rw [List.find?_map]
    simpa using ⟨head, hhead, rfl⟩
  rw [hmatches, List.find?_append, hfind]
  rfl

end

/-! New arrays. -/

/-- What follows a word lets it make no array: it is not the word that makes one, or what such a word needs
after it is not there. -/
structure Quiet (w rest : List Char) : Prop where
  new : w ≠ "new".toList ∨ Stops isSpace rest
  octets : w ≠ "readBytes".toList ∧ w ≠ "readByteArray".toList ∨ (skipSpaces rest).head? ≠ some '('

/-- A word at the beginning of a text is the given one when the text begins with it and no more of it
follows. -/
theorem word_of_prefix {l after : List Char} (hw : ∀ c ∈ w, isWordOrDollar c = true)
    (hr : Stops isWordOrDollar rest) (hl : ∀ c ∈ l, isWordOrDollar c = true)
    (ha : Stops isWordOrDollar after) (h : w ++ rest = l ++ after) : w = l ∧ rest = after := by
  have hword : w = l := by
    rw [← takeWhile_append_of_stops hw hr, h, takeWhile_append_of_stops hl ha]
  subst hword
  exact ⟨rfl, List.append_cancel_left h⟩

theorem exists_of_afterNew? {tail : List Char} (h : afterNew? before cs = some tail) :
    ∃ after, cs = "new".toList ++ after ∧ ∃ s, s ∈ after.head? ∧ isSpace s = true := by
  simp only [afterNew?, Option.bind_eq_bind, Option.bind_eq_some_iff, literal?_eq_some_iff] at h
  obtain ⟨-, -, after, hafter, hspaces⟩ := h
  exact ⟨after, hafter, (spaces?_eq_some hspaces).2⟩

theorem exists_of_readsOctets (h : readsOctets before cs = true) :
    ∃ l tail, (l = "readBytes".toList ∨ l = "readByteArray".toList) ∧ cs = l ++ tail ∧
      (skipSpaces tail).head? = some '(' := by
  have hhead : ∀ {tail after : List Char}, token? "(" tail = some after → (skipSpaces tail).head? = some '(' := by
    intro tail after ht
    rw [token?_eq_some_iff.1 ht]
    rfl
  obtain ⟨found, hfound⟩ := Option.isSome_iff_exists.1 h
  clear h
  simp only [Option.bind_eq_bind, Option.bind_eq_some_iff, Option.orElse_eq_orElse, Option.orElse_eq_or,
    Option.or_eq_some_iff, literal?_eq_some_iff] at hfound
  obtain ⟨-, -, rest, rfl, ⟨tail, rfl, ht⟩ | ⟨-, tail, rfl, ht⟩⟩ := hfound
  · exact ⟨_, tail, Or.inl rfl, rfl, hhead ht⟩
  · exact ⟨_, tail, Or.inr rfl, rfl, hhead ht⟩

theorem stops_of_isSpace (h : ∃ s, s ∈ cs.head? ∧ isSpace s = true) : Stops isWordOrDollar cs := by
  obtain ⟨s, hs, hspace⟩ := h
  intro c hc
  obtain rfl : s = c := Option.some.inj (hs.symm.trans hc)
  by_contra hword
  rw [isSpace_of_isWordOrDollar (by simpa using hword)] at hspace
  cases hspace

theorem stops_of_head? (h : (skipSpaces cs).head? = some '(') : Stops isWordOrDollar cs := by
  intro c hc
  by_contra hword
  have hword : isWordOrDollar c = true := by simpa using hword
  have hstop : Stops isSpace cs := by
    intro d hd
    obtain rfl : c = d := Option.some.inj (hc.symm.trans hd)
    exact isSpace_of_isWordOrDollar hword
  rw [skipSpaces_of_stops hstop] at h
  obtain rfl : c = '(' := Option.some.inj (hc.symm.trans h)
  exact absurd hword (by decide +kernel)

theorem makesArrayHere_word (hw : ∀ c ∈ w, isWordOrDollar c = true) (hr : Stops isWordOrDollar rest)
    (hq : Quiet w rest) : makesArrayHere before (w ++ rest) = false := by
  have hnew : afterNew? before (w ++ rest) = none := by
    by_contra hne
    obtain ⟨tail, htail⟩ := Option.ne_none_iff_exists'.1 hne
    obtain ⟨after, heq, hspace⟩ := exists_of_afterNew? htail
    obtain ⟨hword, rfl⟩ := word_of_prefix hw hr (words_of_all rfl) (stops_of_isSpace hspace) heq
    obtain ⟨s, hs, hspace⟩ := hspace
    rcases hq.new with hne | hstop
    · exact hne hword
    · rw [hstop s hs] at hspace
      cases hspace
  have hoctets : readsOctets before (w ++ rest) = false := by
    by_contra hne
    obtain ⟨l, tail, hl, heq, hhead⟩ := exists_of_readsOctets (by simpa using hne)
    have hlw : ∀ c ∈ l, isWordOrDollar c = true := by
      rcases hl with rfl | rfl <;> exact words_of_all rfl
    obtain ⟨rfl, rfl⟩ := word_of_prefix hw hr hlw (stops_of_head? hhead) heq
    rcases hq.octets with ⟨h1, h2⟩ | hne
    · tauto
    · exact hne hhead
  simp [makesArrayHere, hnew, hoctets]

theorem makesArrayHere_of_stops (h : Stops isWordOrDollar cs) : makesArrayHere before cs = false := by
  have hq : Quiet [] cs := ⟨Or.inl (by simp), Or.inl (by simp)⟩
  exact makesArrayHere_word (w := []) (by simp) h hq

theorem makesArrayFrom_cons (h : isWordOrDollar c = false) :
    makesArrayFrom before (c :: rest) = makesArrayFrom (c :: before) rest := by
  rw [makesArrayFrom, makesArrayHere_of_stops (stops_cons.2 h), Bool.false_or]

/-- A word none of whose ends makes an array is passed over. -/
theorem makesArrayFrom_word (hw : ∀ c ∈ w, isWordOrDollar c = true) (hr : Stops isWordOrDollar rest)
    (hq : ∀ s, s <:+ w → Quiet s rest) :
    makesArrayFrom before (w ++ rest) = makesArrayFrom (w.reverse ++ before) rest := by
  induction w generalizing before with
  | nil => rfl
  | cons c w ih =>
    have hhere : makesArrayHere before (c :: (w ++ rest)) = false :=
      makesArrayHere_word hw hr (hq _ (List.suffix_refl _))
    rw [List.cons_append, makesArrayFrom, hhere, Bool.false_or,
      ih (fun x hx => hw x (List.mem_cons_of_mem _ hx)) fun s hs => hq s (hs.trans (List.suffix_cons c w))]
    simp

/-- What follows a word at the end of a text lets it make no array. -/
theorem quiet_nil (w : List Char) : Quiet w [] := ⟨Or.inr stops_nil, Or.inr (by simp [skipSpaces])⟩

theorem makesArray_word (hw : ∀ c ∈ w, isWordOrDollar c = true) : makesArray w = false := by
  have h : makesArrayFrom [] (w ++ []) = makesArrayFrom (w.reverse ++ []) [] :=
    makesArrayFrom_word hw stops_nil fun s _ => quiet_nil s
  rw [List.append_nil] at h
  rw [makesArray, h]
  rfl

theorem findCall_word (hw : ∀ c ∈ w, isWordOrDollar c = true) (name : String) : findCall name w = none :=
  findCall_eq_none name fun hm => absurd (hw _ hm) (by decide +kernel)

theorem Scope.form_word (hw : ∀ c ∈ w, isWordOrDollar c = true) : Scope.form w = .primitive := by
  simp [form, makesArray_word hw, findCall_word hw]

theorem Scope.reading?_word (scope : Scope) (hw : ∀ c ∈ w, isWordOrDollar c = true) :
    scope.reading? w = none := by
  rw [reading?, form_word hw]
  simp [primitive?, primitives, primitiveFrom, findCall_word hw]

end WireLayout.Routine
