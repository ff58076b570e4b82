import WireLayout.Proofs.Java.Ranges.Masked

/-! A text and the same text with its comments blanked. The mask tells where comments stand; blanked, each of their
characters becomes as many spaces as it has octets, and line ends stay. The mask of the blanked text is the mask of the
text, octet for octet: blanks keep the mask in code, where the end of a comment would bring it back. -/

namespace WireLayout.Java

open WireLayout.Text

/-- A character that is hidden after this state belongs to a comment. -/
def MaskState.ofComment : MaskState → Bool
  | .inside region => region = .code || region = .lineComment || region = .blockComment
  | .passing _ _ region => region = .code || region = .lineComment || region = .blockComment

def commentCellsFrom : MaskState → List Char → List Cell
  | _, [] => []
  | state, c :: rest => ⟨c, (state.step c rest).1 || !state.ofComment⟩ :: commentCellsFrom (state.step c rest).2 rest

def commentCells (text : List Char) : List Cell := commentCellsFrom (.inside .code) text

def withoutComments (text : List Char) : List Char := maskedText (commentCells text)

variable {state : MaskState} {text rest : List Char} {c : Char}

/-! The state of the mask in the blanked text. -/

def Region.uncommented : Region → Region
  | .lineComment | .blockComment => .code
  | region => region

/-- The state in the blanked text: what is inside or before a comment is inside code. -/
def MaskState.uncommented : MaskState → MaskState
  | .inside region => .inside region.uncommented
  | .passing left shown region =>
    if shown || !(MaskState.passing left shown region).ofComment then .passing left shown region.uncommented
    else .inside .code

theorem cellsFrom_blanks (n : Nat) (text : List Char) :
    cellsFrom (.inside .code) (List.replicate n ' ' ++ text) =
      List.replicate n (Cell.code ' ') ++ cellsFrom (.inside .code) text := by
  induction n with
  | zero => rfl
  | succ n ih =>
    have hstep : ∀ rest, MaskState.step (.inside .code) ' ' rest = (true, .inside .code) := fun rest => rfl
    rw [List.replicate_succ, List.cons_append, cellsFrom, hstep, ih, List.replicate_succ, List.cons_append]
    rfl

/-- After a hidden character of a comment the blanked text is in code, and was before. -/
theorem uncommented_of_hidden (hhidden : (state.step c rest).1 = false) (hcomment : state.ofComment = true) :
    state.uncommented = .inside .code ∧ (state.step c rest).2.uncommented = .inside .code := by
  cases state with
  | inside region =>
    cases region with
    | code =>
      rw [MaskState.step] at hhidden ⊢
      split_ifs at hhidden ⊢
      · exact ⟨rfl, rfl⟩
      · exact ⟨rfl, rfl⟩
    | lineComment =>
      rw [MaskState.step] at hhidden ⊢
      split_ifs at hhidden ⊢
      exact ⟨rfl, rfl⟩
    | blockComment =>
      rw [MaskState.step] at hhidden ⊢
      split_ifs
      · exact ⟨rfl, rfl⟩
      · exact ⟨rfl, rfl⟩
    | string => cases hcomment
    | character => cases hcomment
    | textBlock => cases hcomment
  | passing left shown region =>
    obtain rfl : shown = false := by cases left <;> exact hhidden
    have hregion : region.uncommented = .code := by
      cases region <;> first | rfl | cases hcomment
    have hstate : (MaskState.passing left false region).uncommented = .inside .code := by
      rw [MaskState.uncommented, hcomment]
      rfl
    cases left with
    | zero => exact ⟨hstate, by rw [MaskState.step, MaskState.uncommented, hregion]⟩
    | succ left =>
      refine ⟨hstate, ?_⟩
      rw [MaskState.step, MaskState.uncommented, show (MaskState.passing left false region).ofComment = true from hcomment]
      rfl

/-- Inside a literal the next step looks at the end of the text only. -/
theorem literal_uncommented {rest' : List Char} {region : Region} {quote : Char} (hregion : region.uncommented = region)
    (hcomment : (MaskState.inside region).ofComment = false) (hempty : rest'.isEmpty = rest.isEmpty) :
    MaskState.step.literal region quote c rest' =
      ((MaskState.step.literal region quote c rest).1, (MaskState.step.literal region quote c rest).2.uncommented) := by
  have hpassing : (MaskState.passing 0 false region).uncommented = .passing 0 false region := by
    rw [MaskState.uncommented, hregion, show (MaskState.passing 0 false region).ofComment = false from hcomment]
    rfl
  have hinside : (MaskState.inside region).uncommented = .inside region := congrArg MaskState.inside hregion
  rw [MaskState.step.literal, MaskState.step.literal, hempty]
  split_ifs
  · rw [hpassing]
  · rfl
  · rw [hinside]

/-- In code a shown character begins no comment, and none in the blanked text. -/
theorem code_uncommented {rest' : List Char} (hshown : (MaskState.step (.inside .code) c rest).1 = true)
    (hhead : ∀ v, v ≠ ' ' → rest'.head? = some v → rest.head? = some v)
    (hquotes : (decide (c = '"') && twoQuotes rest') = (decide (c = '"') && twoQuotes rest)) :
    MaskState.step (.inside .code) c rest' =
      ((MaskState.step (.inside .code) c rest).1, (MaskState.step (.inside .code) c rest).2.uncommented) := by
  have hno : ∀ v, v ≠ ' ' → ¬ (decide (c = '/') && decide (rest.head? = some v)) = true →
      ¬ (decide (c = '/') && decide (rest'.head? = some v)) = true := by
    intro v hv hnot hboth
    rw [Bool.and_eq_true, decide_eq_true_eq, decide_eq_true_eq] at hboth
    exact hnot (by simp [hboth.1, hhead v hv hboth.2])
  rw [MaskState.step] at hshown
  have hline : ¬ (decide (c = '/') && decide (rest.head? = some '/')) = true := fun h => by
    rw [if_pos h] at hshown
    cases hshown
  have hblock : ¬ (decide (c = '/') && decide (rest.head? = some '*')) = true := fun h => by
    rw [if_neg hline, if_pos h] at hshown
    cases hshown
  rw [MaskState.step, MaskState.step, if_neg (hno '/' (by decide) hline), if_neg (hno '*' (by decide) hblock),
    if_neg hline, if_neg hblock, hquotes]
  split_ifs <;> rfl

theorem passing_uncommented {left : Nat} {shown : Bool} {region : Region} {rest' : List Char}
    (hplain : shown = true ∨ (MaskState.passing left shown region).ofComment = false) :
    (MaskState.passing left shown region).uncommented.step c rest' =
      (((MaskState.passing left shown region).step c rest).1,
        ((MaskState.passing left shown region).step c rest).2.uncommented) := by
  have hcomment : (shown || !(MaskState.passing left shown region).ofComment) = true := by simpa using hplain
  have hstate : ∀ left, (MaskState.passing left shown region).uncommented = .passing left shown region.uncommented := by
    intro left
    rw [MaskState.uncommented]
    exact if_pos hcomment
  cases left with
  | zero =>
    rw [hstate]
    rfl
  | succ left =>
    rw [hstate, MaskState.step, MaskState.step, hstate]

/-- After a shown character the blanked text goes on as the text does, if it begins with no other marks. -/
theorem step_uncommented {rest' : List Char} (hshown : (state.step c rest).1 = true ∨ state.ofComment = false)
    (hempty : rest'.isEmpty = rest.isEmpty) (hhead : ∀ v, v ≠ ' ' → rest'.head? = some v → rest.head? = some v)
    (hquotes : state = .inside .code ∨ state = .inside .textBlock →
      (decide (c = '"') && twoQuotes rest') = (decide (c = '"') && twoQuotes rest)) :
    state.uncommented.step c rest' = ((state.step c rest).1, (state.step c rest).2.uncommented) := by
  cases state with
  | inside region =>
    cases region with
    | code => exact code_uncommented (hshown.resolve_right (by decide)) hhead (hquotes (.inl rfl))
    | lineComment =>
      have hplain := hshown.resolve_right (by decide)
      rw [MaskState.step] at hplain ⊢
      split_ifs at hplain ⊢ with hend
      rw [hend]
      rfl
    | blockComment =>
      have hplain := hshown.resolve_right (by decide)
      rw [MaskState.step] at hplain ⊢
      split_ifs at hplain ⊢
      rw [decide_eq_true_eq] at hplain
      rw [hplain]
      rfl
    | string => exact literal_uncommented rfl rfl hempty
    | character => exact literal_uncommented rfl rfl hempty
    | textBlock =>
      change MaskState.step (.inside .textBlock) c rest' = _
      rw [MaskState.step, MaskState.step, hquotes (.inr rfl), hempty]
      split_ifs <;> rfl
  | passing left shown region =>
    have hplain : shown = true ∨ (MaskState.passing left shown region).ofComment = false := by
      cases left <;> exact hshown
    exact passing_uncommented hplain

theorem isEmpty_withoutComments (state : MaskState) (text : List Char) :
    (maskedText (commentCellsFrom state text)).isEmpty = text.isEmpty := by
  rw [Bool.eq_iff_iff, List.isEmpty_iff, List.isEmpty_iff, maskedText_eq_nil]
  cases text <;> simp [commentCellsFrom]

/-- A character that is no blank stands in the text as well. -/
theorem cons_of_withoutComments {v : Char} {after : List Char} (hv : v ≠ ' ')
    (h : maskedText (commentCellsFrom state text) = v :: after) :
    ∃ rest, text = v :: rest ∧ after = maskedText (commentCellsFrom (state.step v rest).2 rest) := by
  cases text with
  | nil => cases h
  | cons c rest =>
    rw [commentCellsFrom, maskedText_cons] at h
    generalize ((state.step c rest).1 || !state.ofComment) = shown at h
    cases shown with
    | true =>
      obtain ⟨rfl, rfl⟩ := List.cons.inj h
      exact ⟨rest, rfl, rfl⟩
    | false =>
      obtain ⟨n, hn⟩ := Nat.exists_eq_succ_of_ne_zero c.utf8Size_pos.ne'
      rw [Cell.masked, if_neg Bool.false_ne_true, hn, List.replicate_succ] at h
      exact absurd (List.cons.inj h).1.symm hv

theorem twoQuotes_eq_true {text : List Char} : twoQuotes text = true ↔ ∃ rest, text = '"' :: '"' :: rest := by
  unfold twoQuotes
  split <;> simp_all

theorem twoQuotes_of_withoutComments (h : twoQuotes (maskedText (commentCellsFrom state text)) = true) :
    twoQuotes text = true := by
  obtain ⟨after, hafter⟩ := twoQuotes_eq_true.1 h
  obtain ⟨rest, rfl, hrest⟩ := cons_of_withoutComments (by decide) hafter
  obtain ⟨rest', rfl, -⟩ := cons_of_withoutComments (by decide) hrest.symm
  exact twoQuotes_eq_true.2 ⟨rest', rfl⟩

/-- The quotes that begin or end a text block stay where they are. -/
theorem threeQuotes_withoutComments (hstate : state = .inside .code ∨ state = .inside .textBlock) :
    (decide (c = '"') && twoQuotes (maskedText (commentCellsFrom (state.step c rest).2 rest))) =
      (decide (c = '"') && twoQuotes rest) := by
  by_cases hc : c = '"'
  · subst hc
    simp only [decide_true, Bool.true_and]
    refine Bool.eq_iff_iff.2 ⟨twoQuotes_of_withoutComments, fun h => ?_⟩
    obtain ⟨after, rfl⟩ := twoQuotes_eq_true.1 h
    rcases hstate with rfl | rfl <;> rfl
  · simp [hc]

/-- The mask of the text without its comments is the mask of the text, by induction on the text: after a character of
a comment the blanked text is in code, after any other character in the state of the text. -/
theorem maskedText_withoutComments (state : MaskState) (text : List Char) :
    maskedText (cellsFrom state.uncommented (maskedText (commentCellsFrom state text))) =
      maskedText (cellsFrom state text) := by
  induction text generalizing state with
  | nil => rfl
  | cons c rest ih =>
    have hrest := ih (state.step c rest).2
    rw [commentCellsFrom, maskedText_cons, cellsFrom, maskedText_cons, Cell.masked]
    dsimp only
    by_cases hshown : ((state.step c rest).1 || !state.ofComment) = true
    · have hplain : (state.step c rest).1 = true ∨ state.ofComment = false := by simpa using hshown
      have hstep := step_uncommented hplain (isEmpty_withoutComments _ rest)
        (fun v hv hhead => by
          obtain ⟨after, hafter⟩ := List.head?_eq_some_iff.1 hhead
          obtain ⟨more, rfl, -⟩ := cons_of_withoutComments hv hafter
          rfl)
        threeQuotes_withoutComments
      rw [if_pos hshown, List.singleton_append, cellsFrom, hstep, maskedText_cons, hrest]
    · have hhidden : (state.step c rest).1 = false ∧ state.ofComment = true := by simpa using hshown
      obtain ⟨hbefore, hafter⟩ := uncommented_of_hidden hhidden.1 hhidden.2
      rw [hafter] at hrest
      rw [if_neg hshown, hbefore, cellsFrom_blanks, maskedText_append, hrest, Cell.masked, if_neg (by simp [hhidden.1])]
      rw [maskedText, List.flatMap_replicate]
      simp [Cell.masked, Cell.code]

theorem mask_withoutComments (text : List Char) : mask (withoutComments text) = mask text :=
  maskedText_withoutComments (.inside .code) text

end WireLayout.Java
