import WireLayout.Proofs.Routine.Ranges.Readings

/-! Statements by positions. The names that a reader has come upon are free of spaces, so that it tells the same names
apart in the masked text and in what the text shows; a statement that adds a name keeps it so. A condition is taken from
the statement where its parentheses are, and the statement goes on behind them. -/

namespace WireLayout

namespace Routine

open WireLayout.Java WireLayout.Text

namespace Reader

def conditional (r : Reader) (nullBit : Option Nat) (text : List Char) : Reader :=
  match afterIf? text with
  | none => r.simpleStatement nullBit text
  | some rest =>
    match closing id '(' ')' 1 rest with
    | none => r
    | some (inside, after) => r.simpleStatement (r.guard? ('(' :: inside ++ [')']) <|> nullBit) (skipSpaces after)

theorem statement_eq_conditional (r : Reader) (nullBit : Option Nat) (text : List Char) :
    r.statement nullBit text = match afterElse? (trim isSpace text) with
      | some rest => r.conditional none rest
      | none => r.conditional nullBit (trim isSpace text) := by
  unfold statement Statement.parse? conditional
  cases afterElse? (trim isSpace text) with
  | none =>
    cases hi : afterIf? (trim isSpace text) with
    | none => simp [hi, Statement.guardUnder]
    | some rest => cases hc : closing id '(' ')' 1 rest <;> simp [hi, hc, Statement.guardUnder]
  | some text =>
    cases hi : afterIf? text with
    | none => simp [hi, Statement.guardUnder]
    | some rest => cases hc : closing id '(' ')' 1 rest <;> simp [hi, hc, Statement.guardUnder]

structure Spaceless (r : Reader) : Prop where
  scope : r.scope.Spaceless
  locals : ∀ entry ∈ r.locals, ' ' ∉ entry.1

theorem spaceless_start {offsetName : List Char} (h : ' ' ∉ offsetName) (declared : List String) :
    Spaceless { offsetName, declared } :=
  ⟨⟨h, fun _ hkey => absurd hkey List.not_mem_nil⟩, fun _ hentry => absurd hentry List.not_mem_nil⟩

theorem guardIn_maskedText (r : Reader) (cs : List Cell) : r.guardIn (maskedText cs) = .ok (r.guard? (views cs)) := by
  rw [guardIn, guard?, maskTest_maskedText]
  cases maskTest (views cs) with
  | none => rfl
  | some test =>
    obtain ⟨name, index, mask⟩ := test
    simp only [Option.bind_eq_bind, Option.bind_some]
    split
    · rename_i hflags
      cases index with
      | none => simp [hflags, guard, wordIn_eq, Except.ok_bind, pure, Except.pure]
      | some digits =>
        cases hdigits : decimalWord? digits <;>
          simp [hflags, hdigits, guard, wordIn_eq, Except.ok_bind, pure, Except.pure]
    · rename_i hflags
      simp [hflags, guard, pure, Except.pure]

theorem space_notMem_pointer {cs : List Char} {declaration : PointerDeclaration}
    (h : pointerDeclaration? cs = some declaration) : ' ' ∉ declaration.name.toList := by
  simp only [pointerDeclaration?, Option.bind_eq_bind, Option.bind_eq_some_iff, Option.some.injEq] at h
  obtain ⟨_, -, _, -, ⟨name, _⟩, hrun, _, -, ⟨_, _⟩, -, _, -, ⟨_, _⟩, -, _, -, ⟨_, _⟩, -, _, -, _, -, _, -, rfl⟩ := h
  exact space_notMem_of_all isWordOrDollar_space (run?_eq_some hrun).2.2.1

theorem exists_declaration {r : Reader} {cs : List Char} {name : String} {pointer : OffsetPointer}
    (h : r.pointer? cs = some (name, pointer)) : ∃ declaration, pointerDeclaration? cs = some declaration ∧
      declaration.name = name := by
  simp only [pointer?, pointerParts?, Option.bind_eq_bind, Option.bind_eq_some_iff, Option.some.injEq] at h
  obtain ⟨parts, ⟨declaration, hdeclaration, -, -, base, -, call, -, argument, -, rfl⟩, slot, -, h⟩ := h
  exact ⟨declaration, hdeclaration, congrArg Prod.fst h⟩

namespace Spaceless

variable {r : Reader} {cs : List Cell}

theorem pointerIn_maskedText (h : r.Spaceless) (cs : List Cell) :
    r.pointerIn (maskedText cs) = .ok (r.pointer? (views cs)) := by
  rw [pointerIn, pointer?, pointerParts?, pointerDeclaration?_maskedText]
  cases pointerDeclaration? (views cs) with
  | none => rfl
  | some declaration =>
    obtain ⟨found, hshown, hplaced, -⟩ := findCallIn_maskedText "getIntLE" cs
    simp only [Option.bind_eq_bind, Option.bind_some, hshown, hplaced]
    by_cases hstart : declaration.start.toList = r.offsetName
    · simp only [hstart, if_true, wordIn_eq, Except.ok_bind, guard]
      cases (IntLiteral.read? declaration.base).bind word? with
      | none => rfl
      | some base =>
        cases found with
        | none => rfl
        | some call =>
          simp only [Option.map_some, CallCells.placed, CallCells.shown, Option.bind_some, List.head?_map]
          cases call.arguments.head? with
          | none => rfl
          | some argument =>
            simp only [Option.map_some, h.scope.positionIn_maskedText, Except.ok_bind]
            cases hposition : r.scope.position? (views argument) <;> simp [hposition, pure, Except.pure]
    · simp [hstart, guard, pure, Except.pure]

theorem valueReadingIn_maskedText (h : r.Spaceless) (hcs : Tight cs) :
    r.valueReadingIn (maskedText cs) = .ok (r.valueReading? (views cs)) := by
  have hlookup : r.locals.lookup (maskedText cs) = r.locals.lookup (views cs) := by
    have hsame : ∀ entry ∈ r.locals, (maskedText cs == entry.1) = (views cs == entry.1) := fun entry hentry =>
      Bool.eq_iff_iff.2 (by simpa using maskedText_eq_iff (h.locals entry hentry))
    generalize r.locals = locals at hsame
    induction locals with
    | nil => rfl
    | cons entry locals ih =>
      obtain ⟨name, reading⟩ := entry
      have hname : (maskedText cs == name) = (views cs == name) := hsame _ List.mem_cons_self
      rw [List.lookup_cons, List.lookup_cons, hname, ih fun entry hentry => hsame entry (List.mem_cons_of_mem _ hentry)]
  rw [valueReadingIn, valueReading?, hlookup]
  cases r.locals.lookup (views cs) with
  | none => exact h.scope.readingIn_maskedText hcs
  | some reading => rfl

theorem assignIn_maskedText (h : r.Spaceless) (hcs : Tight cs) (member : String) (nullBit : Option Nat) :
    r.assignIn member (maskedText cs) nullBit = .ok (r.assign member (views cs) nullBit) := by
  rw [assignIn, assign]
  split
  · rw [h.valueReadingIn_maskedText hcs, Except.ok_bind]
    cases r.valueReading? (views cs) <;> rfl
  · rfl

theorem declareLocalIn_maskedText (h : r.Spaceless) (hcs : Tight cs) (name : String) :
    r.declareLocalIn name (maskedText cs) = .ok (r.declareLocal name (views cs)) := by
  rw [declareLocalIn, declareLocal, h.scope.readingIn_maskedText hcs, Except.ok_bind]
  cases r.scope.reading? (views cs) <;> rfl

theorem simpleStatementIn_maskedText (h : r.Spaceless) (hcs : Tight cs) (nullBit : Option Nat) :
    r.simpleStatementIn nullBit (maskedText cs) = .ok (r.simpleStatement nullBit (views cs)) := by
  have hempty : (maskedText cs).isEmpty = (views cs).isEmpty := by
    cases cs with
    | nil => rfl
    | cons c cs =>
      obtain ⟨x, os, hc⟩ := List.exists_cons_of_ne_nil c.masked_ne_nil
      rw [maskedText, List.flatMap_cons, hc]
      rfl
  rw [simpleStatementIn, Reader.simpleStatement, hempty, h.pointerIn_maskedText, Except.ok_bind]
  split
  · rfl
  · cases r.pointer? (views cs) with
    | some entry => rfl
    | none =>
      obtain ⟨_ | ⟨member, value⟩, hviews, hmasked, hvalue⟩ := agree_memberAssignment? cs
      · obtain ⟨_ | ⟨name, value⟩, hviews', hmasked', hvalue⟩ := agree_localDeclaration? cs
        · simp only [hviews, hmasked, hviews', hmasked', Option.map_none]
          rfl
        · simp only [hviews, hmasked, hviews', hmasked', Option.map_none, Option.map_some]
          exact h.declareLocalIn_maskedText (hcs.part (hvalue _ rfl).1) name
      · simp only [hviews, hmasked, Option.map_some]
        exact h.assignIn_maskedText (hcs.part (hvalue _ rfl).1) member nullBit

/-- The names stay free of spaces: a statement adds at most the name of a pointer or of a local. -/
theorem simpleStatement (h : r.Spaceless) (nullBit : Option Nat) (text : List Char) :
    (r.simpleStatement nullBit text).Spaceless := by
  rw [Reader.simpleStatement]
  split
  · exact h
  · split
    · rename_i name pointer hpointer
      obtain ⟨declaration, hdeclaration, hname⟩ := exists_declaration hpointer
      refine ⟨⟨h.scope.offsetName, fun key hkey => ?_⟩, h.locals⟩
      obtain ⟨entry, hentry, rfl⟩ := List.mem_map.1 hkey
      rcases SortedMap.mem_entries_insert.1 hentry with rfl | ⟨-, hentry⟩
      · exact hname ▸ space_notMem_pointer hdeclaration
      · exact h.scope.pointers _ (List.mem_map_of_mem hentry)
    · split
      · rw [assign]
        repeat' split
        all_goals exact ⟨h.scope, h.locals⟩
      · split
        · rename_i name value hlocal
          obtain ⟨o, hviews, -, ho⟩ := agree_localDeclaration? (codes text)
          rw [views_codes, hlocal] at hviews
          obtain ⟨q, rfl, hq⟩ := Option.map_eq_some_iff.1 hviews.symm
          obtain ⟨rfl, -⟩ := Prod.mk.inj hq
          rw [declareLocal]
          split
          · refine ⟨h.scope, fun entry hentry => ?_⟩
            rcases List.mem_cons.1 hentry with rfl | hentry
            · exact (ho q rfl).2
            · exact h.locals entry hentry
          · exact h
        · exact h

/-- The text behind a leading `if`, cut off two octets from the beginning. -/
theorem conditionalIn_maskedText (h : r.Spaceless) (hcs : Tight cs) (nullBit : Option Nat) :
    r.conditionalIn nullBit (maskedText cs) = .ok (r.conditional nullBit (views cs)) := by
  rw [conditionalIn, conditional, afterIf?]
  obtain ⟨_ | ds, hviews, hmasked, hsuffix⟩ := agree_literal? (l := "if".toList) (by decide) cs
  · simp only [hviews, hmasked]
    exact h.simpleStatementIn_maskedText hcs nullBit
  · have hcut : textFrom (maskedText cs) 2 = .ok (maskedText ds) := by
      rw [literal?_eq_some_iff.1 hmasked]
      exact textFrom_append "if".toList (maskedText ds)
    obtain ⟨es, hes, hskip, hskip'⟩ := skipSpaces_cells ds
    simp only [hviews, hmasked, hcut, Option.map_some, Option.isSome_some, if_true, Except.ok_bind,
      Option.bind_eq_bind, Option.bind_some]
    generalize hopening : octetCount (maskedText cs) - octetCount (skipSpaces (maskedText ds)) = opening
    rw [hskip', octetCount_maskedText, octetCount_maskedText] at hopening
    rw [hskip, hskip', head?_maskedText]
    have hsuffix : es <:+ cs := hes.trans (hsuffix ds rfl)
    cases es with
    | nil => exact h.simpleStatementIn_maskedText hcs nullBit
    | cons c es =>
      rw [views_cons, List.head?_cons, literal?]
      by_cases hc : c.view = '('
      · have hneutral : ¬ Neutral c.view := hc ▸ not_neutral (by decide) (by decide)
        have hcovers := (Covers.whole cs).suffix hsuffix
        rw [Nat.zero_add, hopening] at hcovers
        obtain ⟨hnone, hsome⟩ := hcovers.partner_eq hneutral (not_neutral_closing : ¬ Neutral ')')
        rw [hc] at hnone hsome
        simp only [hc, if_true, literal?, closing_views]
        cases hclosing : closing Cell.view '(' ')' 1 es with
        | none =>
          rw [hnone hclosing]
          rfl
        | some parts =>
          obtain ⟨inside, after⟩ := parts
          obtain ⟨close, hclose, d, rfl, hd, hinside, hlast, hafter⟩ := hsome inside after hclosing
          have hcondition : Covers cs ⟨opening, close + 1⟩ (c :: (inside ++ [d])) :=
            (hcovers.single hneutral).2.1.join (hinside.join hlast)
          have hshown : views (c :: (inside ++ [d])) = '(' :: views inside ++ [')'] := by simp [views, hc, hd]
          obtain ⟨fs, hfs, hskip, hskip'⟩ := skipSpaces_cells after
          have hbody : fs <:+ cs := (hfs.trans ⟨c :: (inside ++ [d]), by simp⟩).trans hsuffix
          simp only [hclose, hcondition.textIn_masked, hafter.textFrom, Except.ok_bind, r.guardIn_maskedText, hshown,
            Option.map_some, hskip, hskip']
          exact h.simpleStatementIn_maskedText (hcs.part hbody.isInfix) _
      · have hhead : some c.view ≠ some '(' := fun heq => hc (Option.some.inj heq)
        rw [if_neg hhead, if_neg (Ne.symm hc)]
        exact h.simpleStatementIn_maskedText hcs nullBit

/-- A statement is executed by positions as what it shows is executed. -/
theorem statementIn_maskedText (h : r.Spaceless) (hcs : Tight cs) (nullBit : Option Nat) :
    r.statementIn nullBit (maskedText cs) = .ok (r.statement nullBit (views cs)) := by
  obtain ⟨ds, hds, htrim, htrim'⟩ := trim_cells cs
  rw [statementIn, statement_eq_conditional, htrim, htrim']
  obtain ⟨_ | es, hviews, hmasked, hsuffix⟩ := agreeRest_afterElse? ds
  · rw [hviews, hmasked]
    exact h.conditionalIn_maskedText (hcs.part hds) nullBit
  · rw [hviews, hmasked]
    exact h.conditionalIn_maskedText (hcs.part ((hsuffix es rfl).isInfix.trans hds)) none

theorem statement (h : r.Spaceless) (nullBit : Option Nat) (text : List Char) : (r.statement nullBit text).Spaceless := by
  unfold Reader.statement
  split
  · exact h
  · exact h.simpleStatement _ _

end Spaceless

end Reader

end Routine

end WireLayout
