import WireLayout.Proofs.Java.CommentMarks
import WireLayout.Proofs.Java.Ranges.Ends

/-! The state of the mask at a position of the masked text. Where the masked text shows no blank the mask is in no
comment, behind a sign that is no quote it is in code, and blanks do not lead from code into a literal. -/

namespace WireLayout.Java

open WireLayout.Text

variable {state : MaskState} {text before part rest : List Char} {c x : Char} {i : Nat}

namespace MaskState

/-- The characters that are passed over and shown are quotes, before code or the inside of a text block. -/
def Fits : MaskState → List Char → Prop
  | .passing left true region, rest => (region = .code ∨ region = .textBlock) ∧ List.replicate (left + 1) '"' <+: rest
  | _, _ => True

theorem Fits.step (h : state.Fits (c :: rest)) : (state.step c rest).2.Fits rest := by
  have hquotes : twoQuotes rest = true → List.replicate 2 '"' <+: rest := by
    intro htwo
    obtain ⟨more, rfl⟩ := twoQuotes_eq_true.1 htwo
    exact ⟨more, rfl⟩
  cases state with
  | passing left shown region =>
    cases left with
    | zero => cases region <;> trivial
    | succ left =>
      cases shown with
      | false => trivial
      | true => exact ⟨h.1, (List.cons_prefix_cons.1 h.2).2⟩
  | inside region =>
    cases region <;> rw [MaskState.step] <;> try rw [step.literal]
    all_goals split_ifs <;> first | trivial | simp_all [Fits]

theorem Fits.after (h : state.Fits (part ++ rest)) : (state.after part rest).Fits rest := by
  induction part generalizing state with
  | nil => exact h
  | cons c part ih => exact ih h.step

theorem newline_of_shown (hfits : state.Fits (c :: rest)) (h : state.inComment = true)
    (hshown : (state.step c rest).1 = true) : c = '\n' := by
  cases state with
  | passing left shown region =>
    cases shown with
    | true => rcases hfits.1 with rfl | rfl <;> cases h
    | false => cases left <;> cases hshown
  | inside region =>
    cases region with
    | lineComment =>
      rw [step] at hshown
      split_ifs at hshown
      assumption
    | blockComment =>
      rw [step] at hshown
      split_ifs at hshown
      simpa using hshown
    | code => cases h
    | string => cases h
    | character => cases h
    | textBlock => cases h

/-- Nothing but quotes and line ends is shown outside of code. -/
theorem code_of_shown (hfits : state.Fits (c :: rest)) (hshown : (state.step c rest).1 = true)
    (hc : c ≠ '"' ∧ c ≠ '\'' ∧ c ≠ '\n') : state = .inside .code := by
  cases state with
  | passing left shown region =>
    cases shown with
    | true => exact absurd (List.cons_prefix_cons.1 hfits.2).1.symm hc.1
    | false => cases left <;> cases hshown
  | inside region =>
    cases region <;> rw [step] at hshown <;> try rw [step.literal] at hshown
    all_goals first | rfl | (split_ifs at hshown <;> simp_all)

/-- In code, or in a comment. -/
def OutsideLiterals (state : MaskState) : Prop := state = .inside .code ∨ state.inComment = true

theorem OutsideLiterals.step (h : state.OutsideLiterals) (hblank : (Cell.mk c (state.step c rest).1).isBlank = true) :
    (state.step c rest).2.OutsideLiterals := by
  rcases h with rfl | h
  · rw [MaskState.step] at hblank ⊢
    split_ifs at hblank ⊢
    · exact .inr rfl
    · exact .inr rfl
    · simp_all [Cell.isBlank, Cell.view, isAsciiSpace]
    · simp_all [Cell.isBlank, Cell.view, isAsciiSpace]
    · simp_all [Cell.isBlank, Cell.view, isAsciiSpace]
    · exact .inl rfl
  · cases state with
    | passing left shown region =>
      cases left with
      | succ left => exact .inr h
      | zero => cases shown <;> cases region <;> first | exact .inl rfl | exact .inr rfl | cases h
    | inside region =>
      cases region with
      | lineComment =>
        rw [MaskState.step]
        split_ifs
        · exact .inl rfl
        · exact .inr rfl
      | blockComment =>
        rw [MaskState.step]
        split_ifs <;> exact .inr rfl
      | code => cases h
      | string => cases h
      | character => cases h
      | textBlock => cases h

end MaskState

/-! Places of a text. -/

def stateAt (before rest : List Char) : MaskState := (MaskState.inside .code).after before rest

theorem fits_stateAt (before rest : List Char) : (stateAt before rest).Fits rest :=
  MaskState.Fits.after (show (MaskState.inside .code).Fits (before ++ rest) from trivial)

theorem stateAt_append : stateAt (before ++ part) rest = (stateAt before (part ++ rest)).after part rest :=
  MaskState.after_append

def cellAt (before : List Char) (c : Char) (rest : List Char) : Cell :=
  ⟨c, ((stateAt before (c :: rest)).step c rest).1⟩

theorem cellsFrom_append_after (state : MaskState) (before rest : List Char) :
    ∃ cs, verbatim cs = before ∧ cellsFrom state (before ++ rest) = cs ++ cellsFrom (state.after before rest) rest := by
  induction before generalizing state with
  | nil => exact ⟨[], rfl, rfl⟩
  | cons c before ih =>
    obtain ⟨cs, hcs, hcells⟩ := ih (state.step c (before ++ rest)).2
    refine ⟨⟨c, (state.step c (before ++ rest)).1⟩ :: cs, congrArg (c :: ·) hcs, ?_⟩
    rw [List.cons_append, cellsFrom, hcells]
    rfl

theorem covers_cellAt (before : List Char) (c : Char) (rest : List Char) :
    Covers (cells (before ++ c :: rest))
      ⟨(octetViews before).length, (octetViews before).length + (octetViews [c]).length⟩ [cellAt before c rest] := by
  obtain ⟨cs, rfl, hcells⟩ := cellsFrom_append_after (.inside .code) before (c :: rest)
  exact ⟨cs, _, hcells, rfl⟩

theorem length_mask (text : List Char) : (octetViews (mask text)).length = (octetViews text).length := by
  have hwidth := width_eq (cells text)
  rw [width, cells, verbatim_cellsFrom] at hwidth
  exact hwidth.symm

theorem reads_first (h : octetAt (mask (before ++ c :: rest)) (octetViews before).length = .ok x) :
    Reads x (cellAt before c rest) := by
  obtain ⟨y, hy, hreads⟩ := (covers_cellAt before c rest).octetAt_ok
  obtain rfl : x = y := Except.ok.inj (h.symm.trans hy)
  exact hreads

theorem reads_last (h : octetAt (mask (before ++ c :: rest)) ((octetViews (before ++ [c])).length - 1) = .ok x) :
    Reads x (cellAt before c rest) := by
  have hcovers : Covers (cells (before ++ c :: rest)) _ ([] ++ [cellAt before c rest]) := covers_cellAt before c rest
  obtain ⟨y, hy, hreads⟩ := hcovers.octetAt_last
  rw [← List.length_append, ← octetViews_append] at hy
  obtain rfl : x = y := Except.ok.inj (h.symm.trans hy)
  exact hreads

/-- A sign stands in the text where it stands in the masked text, by induction on the text. -/
theorem exists_of_sign (h : octetAt (mask text) i = .ok x) (hx : ¬ Neutral x) : ∃ before rest,
    text = before ++ x :: rest ∧ i = (octetViews before).length ∧ (cellAt before x rest).shown = true := by
  have hget : (octetViews (maskedText (cellsFrom (.inside .code) text)))[i]? = some x := by
    unfold octetAt at h
    split at h
    · cases h
      assumption
    · cases h
  rw [show cellAt = fun before c rest =>
    ⟨c, (((MaskState.inside .code).after before (c :: rest)).step c rest).1⟩ from rfl]
  clear h
  generalize MaskState.inside .code = state at hget ⊢
  induction text generalizing state i with
  | nil => simp [cellsFrom, maskedText] at hget
  | cons c text ih =>
    rw [cellsFrom, maskedText_cons, octetViews_append] at hget
    by_cases hi : i < (Cell.mk c (state.step c text).1).octets.length
    · rw [Cell.octets] at hi
      rw [List.getElem?_append_left hi] at hget
      have hmem : x ∈ (Cell.mk c (state.step c text).1).octets := List.mem_of_getElem? hget
      have hone := (Cell.mk c (state.step c text).1).octets_eq.resolve_right fun hneutral => hx (hneutral.2 x hmem)
      have hzero : i = 0 := by
        rw [Cell.octets] at hone
        rw [hone, List.length_singleton] at hi
        omega
      rw [hone, List.mem_singleton, Cell.view] at hmem
      split at hmem
      · rename_i hshown
        dsimp only at hmem hshown
        subst hmem
        exact ⟨[], text, rfl, hzero, hshown⟩
      · exact absurd (.inl hmem) hx
    · rw [Cell.octets] at hi
      rw [List.getElem?_append_right (Nat.le_of_not_lt hi)] at hget
      obtain ⟨before, rest, rfl, hlength, hshown⟩ := ih _ hget
      refine ⟨c :: before, rest, rfl, ?_, hshown⟩
      have hwidth : (octetViews (Cell.mk c (state.step c (before ++ x :: rest)).1).masked).length =
          (octetViews [c]).length := (Cell.length_octets _).trans (length_octetViews_singleton c).symm
      rw [octetViews_cons, List.length_append]
      omega

/-- Behind a sign that is shown and no quote the mask is in code. -/
theorem code_behind (hshown : (cellAt before c rest).shown = true) (hc : c ≠ '"' ∧ c ≠ '\'' ∧ c ≠ '\n') :
    stateAt (before ++ [c]) rest = .inside .code := by
  have hcode : stateAt before (c :: rest) = .inside .code := MaskState.code_of_shown (fits_stateAt before _) hshown hc
  rw [cellAt, hcode] at hshown
  rw [stateAt_append, List.singleton_append, hcode, MaskState.after, MaskState.after, List.nil_append]
  dsimp only at hshown
  rw [MaskState.step] at hshown ⊢
  split_ifs at hshown ⊢ <;> simp_all

theorem outsideLiterals_append (h : (stateAt before (part ++ rest)).OutsideLiterals)
    (hblank : ∀ j, (octetViews before).length ≤ j → j < (octetViews (before ++ part)).length →
      ShowsAt (mask (before ++ (part ++ rest))) isAsciiSpace j) : (stateAt (before ++ part) rest).OutsideLiterals := by
  induction part generalizing before with
  | nil => simpa using h
  | cons c part ih =>
    have hc := c.utf8Size_pos
    have hlength : (octetViews (before ++ [c])).length = (octetViews before).length + c.utf8Size := by
      rw [octetViews_append, List.length_append, length_octetViews_singleton]
    have hmore : (octetViews (before ++ c :: part)).length = (octetViews (before ++ [c] ++ part)).length := by simp
    have hle : (octetViews (before ++ [c])).length ≤ (octetViews (before ++ [c] ++ part)).length := by
      simp only [octetViews_append, List.length_append]
      omega
    have hstep : (stateAt (before ++ [c]) (part ++ rest)).OutsideLiterals := by
      obtain ⟨x, hx, hspace⟩ := hblank (octetViews before).length le_rfl (by omega)
      have hreads : Reads x (cellAt before c (part ++ rest)) := reads_first hx
      rw [stateAt_append]
      exact h.step (by rw [← hspace, hreads.class_eq asciiClass_isAsciiSpace]; rfl)
    have hall := ih hstep fun j hj hjlt => by simpa using hblank j (by omega) (by omega)
    simpa using hall

theorem exists_sign_before {k : Nat} (hsign : octetAt (mask (before ++ rest)) k = .ok x) (hneutral : ¬ Neutral x)
    (hk : k < (octetViews before).length) : ∃ front gap, before = front ++ x :: gap ∧ k = (octetViews front).length ∧
      (cellAt front x (gap ++ rest)).shown = true := by
  obtain ⟨front, back, htext, rfl, hshown⟩ := exists_of_sign hsign hneutral
  rcases List.append_eq_append_iff.1 htext with ⟨more, rfl, -⟩ | ⟨more, rfl, hmore⟩
  · rw [octetViews_append, List.length_append] at hk
    omega
  · cases more with
    | nil => simp at hk
    | cons y gap =>
      obtain ⟨rfl, rfl⟩ := List.cons.inj hmore
      exact ⟨front, gap, rfl, rfl, hshown⟩

theorem length_octetViews_cons (c : Char) (text : List Char) :
    (octetViews (c :: text)).length = c.utf8Size + (octetViews text).length := by
  rw [octetViews_cons, List.length_append, length_octetViews_singleton]

theorem code_of_sign {k : Nat} (hsign : octetAt (mask (before ++ rest)) k = .ok x) (hneutral : ¬ Neutral x)
    (hx : x ≠ '"' ∧ x ≠ '\'' ∧ x ≠ '\n') (hk : k + 1 = (octetViews before).length) :
    stateAt before rest = .inside .code := by
  obtain ⟨front, gap, rfl, rfl, hshown⟩ := exists_sign_before hsign hneutral (by omega)
  have hgap : gap = [] := by
    have hx := x.utf8Size_pos
    rw [octetViews_append, List.length_append, length_octetViews_cons] at hk
    cases gap with
    | nil => rfl
    | cons c gap =>
      have hc := c.utf8Size_pos
      rw [length_octetViews_cons] at hk
      omega
  subst hgap
  exact code_behind hshown hx

/-- Blanks between a sign and a position do not lead into a literal. -/
theorem outsideLiterals_of_follows (h : Follows (mask (before ++ rest)) x (octetViews before).length)
    (hneutral : ¬ Neutral x) (hx : x ≠ '"' ∧ x ≠ '\'' ∧ x ≠ '\n') : (stateAt before rest).OutsideLiterals := by
  obtain ⟨k, hk, hsign, hblank⟩ := h
  obtain ⟨front, gap, rfl, rfl, hshown⟩ := exists_sign_before hsign hneutral hk
  have hlength : (octetViews (front ++ [x])).length = (octetViews front).length + x.utf8Size := by
    rw [octetViews_append, List.length_append, length_octetViews_singleton]
  have hpos := x.utf8Size_pos
  have hgap : (stateAt (front ++ [x] ++ gap) rest).OutsideLiterals :=
    outsideLiterals_append (.inl (code_behind hshown hx)) fun j hj hjlt => by
      have hj' := hblank j (by omega) (by simpa using hjlt)
      simpa using hj'
  simpa using hgap

/-! What stands at a place. -/

theorem shown_of_visible {cell : Cell} (hreads : Reads x cell) (h : visible x = true) :
    cell.shown = true ∧ isAsciiSpace cell.char = false := by
  have hview : isAsciiSpace cell.view = false := by
    rw [← hreads.class_eq asciiClass_isAsciiSpace]
    simpa [visible] using h
  rw [Cell.view] at hview
  split at hview
  · exact ⟨‹_›, hview⟩
  · cases hview

theorem not_inComment_of_visible (h : ShowsAt (mask (before ++ c :: rest)) visible (octetViews before).length) :
    (stateAt before (c :: rest)).inComment = false := by
  obtain ⟨x, hx, hvisible⟩ := h
  obtain ⟨hshown, hspace⟩ := shown_of_visible (reads_first hx) hvisible
  by_contra hcomment
  obtain rfl := MaskState.newline_of_shown (fits_stateAt before _) (by simpa using hcomment) hshown
  cases hspace

/-- A piece behind a parenthesis or a comma begins in code. -/
theorem code_of_piece {s : Span} {k : Nat} (h : PieceOf (mask (before ++ rest)) ',' (k + 1) s)
    (hopen : octetAt (mask (before ++ rest)) k = .ok '(') (hs : s.start = (octetViews before).length) :
    stateAt before rest = .inside .code := by
  have hfollows : (stateAt before rest).OutsideLiterals := by
    rcases h.follows with ⟨hfirst, hblank⟩ | hcomma
    · refine outsideLiterals_of_follows (x := '(') ⟨k, by omega, hopen, fun j hk hj => ?_⟩
        (not_neutral (by decide) (by decide)) (by decide)
      exact hblank j hk (by omega)
    · exact outsideLiterals_of_follows (hs ▸ hcomma) not_neutral_comma (by decide)
  have hvisible := (h.trimmed h.lt).1
  cases rest with
  | nil =>
    obtain ⟨x, hx, -⟩ := hvisible
    have hlt := lt_of_octetAt hx
    rw [length_mask, List.append_nil, hs] at hlt
    exact absurd hlt (lt_irrefl _)
  | cons c rest => exact hfollows.resolve_right (by simp [not_inComment_of_visible (hs ▸ hvisible)])

/-- A mark is not shown, so what ends with something visible does not end within one. -/
theorem undivided_of_visible
    (h : ShowsAt (mask (before ++ (part ++ rest))) visible ((octetViews (before ++ part)).length - 1)) :
    Undivided part rest := by
  intro hslash
  obtain ⟨front, rfl⟩ := List.getLast?_eq_some_iff.1 hslash
  obtain ⟨x, hx, hvisible⟩ := h
  have htext : before ++ (front ++ ['/'] ++ rest) = (before ++ front) ++ '/' :: rest := by simp
  rw [htext, ← List.append_assoc] at hx
  have hshown := (shown_of_visible (reads_last hx) hvisible).1
  rw [cellAt, MaskState.code_of_shown (fits_stateAt _ _) hshown (by decide)] at hshown
  dsimp only at hshown
  rw [MaskState.step] at hshown
  constructor <;> intro hhead <;> simp [hhead] at hshown

theorem undivided_of_ident
    (h : ShowsAt (mask (before ++ (part ++ rest))) isIdent (octetViews (before ++ part)).length) :
    Undivided part rest := by
  intro _
  cases rest with
  | nil => simp
  | cons c rest =>
    obtain ⟨x, hx, hident⟩ := h
    rw [← List.append_assoc] at hx
    have hview : isIdent (cellAt (before ++ part) c rest).view = true := by
      rwa [← (reads_first hx).class_eq asciiClass_isIdent]
    rw [Cell.view] at hview
    split at hview
    · change isIdent c = true at hview
      constructor <;> intro hhead <;> obtain rfl := Option.some.inj hhead <;> cases hview
    · cases hview

/-! A part of the text with its comments blanked. -/

/-- What a range gives of a text, and of the text with its comments blanked. -/
theorem exists_blanked {s : Span} {part' : List Char} (h : textIn text s = .ok part)
    (h' : textIn (withoutComments text) s = .ok part') : ∃ before rest, text = before ++ (part ++ rest) ∧
      s.start = (octetViews before).length ∧ s.stop = (octetViews (before ++ part)).length ∧
        part' = (stateAt before (part ++ rest)).blanked part rest := by
  obtain ⟨before, rest, rfl, hstart, hstop⟩ := textIn_eq_ok h
  refine ⟨before, rest, rfl, hstart, by rw [hstop, octetViews_append, List.length_append], ?_⟩
  have htext : withoutComments (before ++ (part ++ rest)) =
      (MaskState.inside .code).blanked before (part ++ rest) ++ ((stateAt before (part ++ rest)).blanked part rest ++
        ((stateAt before (part ++ rest)).after part rest).blanked rest []) := by
    rw [withoutComments, commentCells, ← MaskState.blanked_eq_commentCellsFrom, MaskState.blanked_append,
      MaskState.blanked_append]
    simp [stateAt]
  have hspan : s = ⟨(octetViews ((MaskState.inside .code).blanked before (part ++ rest))).length,
      (octetViews ((MaskState.inside .code).blanked before (part ++ rest))).length +
        (octetViews ((stateAt before (part ++ rest)).blanked part rest)).length⟩ := by
    rw [MaskState.length_blanked, MaskState.length_blanked, ← hstop, ← hstart]
  rw [htext, hspan, textIn_eq] at h'
  exact (Except.ok.inj h').symm

/-- A type and the same type with comments blanked: it stands before a name, and something visible begins it. -/
theorem type_blanked {s : Span} {part' : List Char} (h : textIn text s = .ok part)
    (h' : textIn (withoutComments text) s = .ok part')
    (hstart : s.start < s.stop → ShowsAt (mask text) visible s.start) (hstop : ShowsAt (mask text) isIdent s.stop) :
    (hasMark (squeeze part) = false → part' = part) ∧
      (opensComment (squeeze part) = false → (squeeze part' = [] ↔ squeeze part = [])) := by
  have hlt := lt_of_textIn h
  obtain ⟨before, rest, rfl, hbefore, hend, rfl⟩ := exists_blanked h h'
  cases part with
  | nil => exact ⟨fun _ => rfl, fun _ => Iff.rfl⟩
  | cons c part =>
    have hstate : (stateAt before (c :: part ++ rest)).inComment = false :=
      not_inComment_of_visible (hbefore ▸ hstart (hlt (List.cons_ne_nil c part)))
    have hundivided : Undivided (c :: part) rest := undivided_of_ident (hend ▸ hstop)
    refine ⟨fun hmark => MaskState.blanked_of_not_hasMark hstate hundivided ?_, squeeze_blanked_eq_nil hstate hundivided⟩
    by_contra hpart
    rw [hasMark_squeeze (by simpa using hpart)] at hmark
    cases hmark

/-- A value and the same value with comments blanked: it stands in code, and something visible ends it. -/
theorem value_blanked {s : Span} {part' : List Char} (h : textIn text s = .ok part)
    (h' : textIn (withoutComments text) s = .ok part')
    (hstart : ∀ before rest, text = before ++ rest → s.start = (octetViews before).length →
      stateAt before rest = .inside .code)
    (hstop : s.start < s.stop → ShowsAt (mask text) visible (s.stop - 1))
    (halone : withoutComments (trim isSpace part) = trim isSpace part) : trim isSpace part' = trim isSpace part := by
  have hlt := lt_of_textIn h
  obtain ⟨before, rest, rfl, hbefore, hend, rfl⟩ := exists_blanked h h'
  rw [hstart before _ rfl hbefore]
  refine trim_blanked ?_ halone
  cases part with
  | nil => nofun
  | cons c part => exact undivided_of_visible (hend ▸ hstop (hlt (List.cons_ne_nil c part)))

end WireLayout.Java
