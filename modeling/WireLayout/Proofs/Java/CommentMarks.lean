import WireLayout.Proofs.Java.Comments
import WireLayout.Proofs.Java.Declarators
import WireLayout.Proofs.Java.Mask

/-! Comments within a part of a text. A part that begins outside of comments and does not end between the two
characters of a mark either holds a mark that begins a comment, or is the same with the comments blanked. What is kept of
the part, squeezed or trimmed, shows such a mark as well. -/

namespace WireLayout.Java

open WireLayout.Text

def opensComment : List Char → Bool
  | '/' :: c :: _ => c = '/' || c = '*'
  | _ => false

/-- The mark of a comment stands somewhere in the text, be it in a literal. -/
def hasMark (text : List Char) : Bool := text.tails.any opensComment

variable {state : MaskState} {text part front back rest : List Char} {c : Char}

theorem opensComment_cons :
    opensComment (c :: rest) = true ↔ c = '/' ∧ (rest.head? = some '/' ∨ rest.head? = some '*') := by
  by_cases hc : c = '/'
  · subst hc
    cases rest <;> simp [opensComment]
  · simp [opensComment, hc]

theorem opensComment_append (h : opensComment back = true) : opensComment (back ++ rest) = true := by
  cases back with
  | nil => cases h
  | cons c back =>
    obtain ⟨hc, hhead⟩ := opensComment_cons.1 h
    refine opensComment_cons.2 ⟨hc, ?_⟩
    cases back with
    | nil => simp at hhead
    | cons d back => exact hhead

theorem hasMark_iff : hasMark text = true ↔ ∃ front back, text = front ++ back ∧ opensComment back = true := by
  rw [hasMark, List.any_eq_true]
  constructor
  · rintro ⟨back, hback, hopen⟩
    obtain ⟨front, rfl⟩ := (List.mem_tails back text).1 hback
    exact ⟨front, back, rfl, hopen⟩
  · rintro ⟨front, back, rfl, hopen⟩
    exact ⟨back, (List.mem_tails _ _).2 (List.suffix_append front back), hopen⟩

theorem hasMark_of_part (hpart : part <:+: text) (h : hasMark part = true) : hasMark text = true := by
  obtain ⟨before, after, rfl⟩ := hpart
  obtain ⟨front, back, rfl, hopen⟩ := hasMark_iff.1 h
  exact hasMark_iff.2 ⟨before ++ front, back ++ after, by simp, opensComment_append hopen⟩

/-- The end of a part does not come between the two characters of a mark. -/
def Undivided (part rest : List Char) : Prop := part.getLast? = some '/' → rest.head? ≠ some '/' ∧ rest.head? ≠ some '*'

theorem Undivided.of_append (h : Undivided (front ++ back) rest) (hne : back ≠ []) : Undivided back rest := by
  rwa [Undivided, List.getLast?_append_of_ne_nil _ hne] at h

/-! A part of a text, read from the state before it. -/

namespace MaskState

def inComment : MaskState → Bool
  | .inside region => region = .lineComment || region = .blockComment
  | .passing _ shown region => region = .lineComment || region = .blockComment || !shown && region = .code

def after : MaskState → List Char → List Char → MaskState
  | state, [], _ => state
  | state, c :: part, rest => (state.step c (part ++ rest)).2.after part rest

def blanked : MaskState → List Char → List Char → List Char
  | _, [], _ => []
  | state, c :: part, rest =>
    Cell.masked ⟨c, (state.step c (part ++ rest)).1 || !state.ofComment⟩ ++
      (state.step c (part ++ rest)).2.blanked part rest

theorem after_append : state.after (front ++ back) rest = (state.after front (back ++ rest)).after back rest := by
  induction front generalizing state with
  | nil => rfl
  | cons c front ih => rw [List.cons_append, after, after, ih, List.append_assoc]

theorem blanked_append : state.blanked (front ++ back) rest =
    state.blanked front (back ++ rest) ++ (state.after front (back ++ rest)).blanked back rest := by
  induction front generalizing state with
  | nil => rfl
  | cons c front ih => rw [List.cons_append, blanked, blanked, after, ih, List.append_assoc, List.append_assoc]

theorem blanked_eq_commentCellsFrom : state.blanked text [] = maskedText (commentCellsFrom state text) := by
  induction text generalizing state with
  | nil => rfl
  | cons c text ih => rw [blanked, commentCellsFrom, maskedText_cons, List.append_nil, ih]

theorem length_blanked (part rest : List Char) :
    (octetViews (state.blanked part rest)).length = (octetViews part).length := by
  induction part generalizing state with
  | nil => rfl
  | cons c part ih =>
    have hc := Cell.length_octets ⟨c, (state.step c (part ++ rest)).1 || !state.ofComment⟩
    rw [blanked, octetViews_append, octetViews_cons (c := c), List.length_append, List.length_append, ih,
      length_octetViews_singleton]
    exact congrArg (· + _) hc

theorem blanked_space (h : ∀ c ∈ part, isSpace c = true) : ∀ c ∈ state.blanked part rest, isSpace c = true := by
  induction part generalizing state with
  | nil => simp [blanked]
  | cons c part ih =>
    intro x hx
    rcases List.mem_append.1 hx with hx | hx
    · rw [Cell.masked] at hx
      split at hx
      · rw [List.mem_singleton.1 hx]
        exact h c List.mem_cons_self
      · rw [List.eq_of_mem_replicate hx]
        rfl
    · exact ih (fun d hd => h d (List.mem_cons_of_mem c hd)) x hx

/-- Outside of comments a character is kept, unless it begins one, in code. -/
theorem step_of_not_inComment (c : Char) (rest : List Char) (h : state.inComment = false) :
    opensComment (c :: rest) = true ∧ state = .inside .code ∨
      ((state.step c rest).1 || !state.ofComment) = true ∧ (state.step c rest).2.inComment = false := by
  have hliteral : ∀ region quote, region ≠ .code → (MaskState.inside region).inComment = false →
      (MaskState.step.literal region quote c rest).2.inComment = false := by
    intro region quote hcode hinside
    have hpassing : (MaskState.passing 0 false region).inComment = false := by simpa [inComment, hcode] using hinside
    rw [step.literal]
    split_ifs
    · exact hpassing
    · rfl
    · exact hinside
  cases state with
  | passing left shown region =>
    have hregion : (MaskState.inside region).inComment = false := by
      simp only [inComment, Bool.or_eq_false_iff] at h ⊢
      exact h.1
    refine .inr ⟨?_, ?_⟩
    · cases shown <;> cases left <;> cases region <;> first | rfl | cases h
    · cases left with
      | zero => exact hregion
      | succ left => exact h
  | inside region =>
    cases region with
    | code =>
      by_cases hopen : opensComment (c :: rest) = true
      · exact .inl ⟨hopen, rfl⟩
      · rw [opensComment_cons] at hopen
        refine .inr ?_
        rw [step]
        split_ifs <;> simp_all [inComment]
    | lineComment => cases h
    | blockComment => cases h
    | string => exact .inr ⟨by simp [ofComment], hliteral .string '"' (by decide) rfl⟩
    | character => exact .inr ⟨by simp [ofComment], hliteral .character '\'' (by decide) rfl⟩
    | textBlock =>
      refine .inr ⟨by simp [ofComment], ?_⟩
      rw [step]
      split_ifs <;> rfl

/-- A part that begins outside of comments is kept, or it is kept up to a mark that begins a comment. -/
theorem exists_mark (h : state.inComment = false) (hend : Undivided part rest) :
    state.blanked part rest = part ∨ ∃ front back, part = front ++ back ∧ opensComment back = true ∧
      state.blanked front (back ++ rest) = front ∧ state.after front (back ++ rest) = .inside .code := by
  induction part generalizing state with
  | nil => exact .inl rfl
  | cons c part ih =>
    rcases step_of_not_inComment c (part ++ rest) h with ⟨hopen, rfl⟩ | ⟨hkept, hnext⟩
    · refine .inr ⟨[], c :: part, rfl, ?_, rfl, rfl⟩
      obtain ⟨rfl, hhead⟩ := opensComment_cons.1 hopen
      refine opensComment_cons.2 ⟨rfl, ?_⟩
      cases part with
      | nil =>
        obtain ⟨hslash, hstar⟩ := hend rfl
        exact absurd hhead (by simpa using ⟨hslash, hstar⟩)
      | cons d part => exact hhead
    · have hlater : Undivided part rest := by
        cases part with
        | nil => nofun
        | cons d part =>
          have hsplit : Undivided ([c] ++ d :: part) rest := hend
          exact hsplit.of_append (List.cons_ne_nil d part)
      have hmasked : Cell.masked ⟨c, (state.step c (part ++ rest)).1 || !state.ofComment⟩ = [c] := by
        rw [Cell.masked, hkept]
        rfl
      rcases ih hnext hlater with hsame | ⟨front, back, rfl, hopen, hfront, hcode⟩
      · left
        rw [blanked, hmasked, hsame]
        rfl
      · rw [List.append_assoc] at hfront hcode hmasked
        refine .inr ⟨c :: front, back, rfl, hopen, ?_, hcode⟩
        rw [blanked, hmasked, hfront]
        rfl

theorem blanked_of_not_hasMark (h : state.inComment = false) (hend : Undivided part rest)
    (hmark : hasMark part = false) : state.blanked part rest = part := by
  rcases exists_mark h hend with hsame | ⟨front, back, hpart, hopen, -⟩
  · exact hsame
  · rw [hasMark_iff.2 ⟨front, back, hpart, hopen⟩] at hmark
    cases hmark

/-- The mask looks no further ahead than two characters. -/
theorem step_ahead (h : 2 ≤ part.length) : state.step c (part ++ rest) = state.step c part := by
  obtain ⟨x, y, part, rfl⟩ : ∃ x y more, part = x :: y :: more := by
    match part, h with
    | x :: y :: more, _ => exact ⟨x, y, more, rfl⟩
  have hquotes : twoQuotes (x :: y :: (part ++ rest)) = twoQuotes (x :: y :: part) := by
    simp [twoQuotes_cons]
  rw [List.cons_append, List.cons_append]
  cases state with
  | passing left shown region => cases left <;> rfl
  | inside region => cases region <;> simp [step, step.literal, hquotes]

theorem ahead (state : MaskState) (front rest : List Char) (h : 2 ≤ back.length) :
    state.blanked front (back ++ rest) = state.blanked front back ∧
      state.after front (back ++ rest) = state.after front back := by
  induction front generalizing state with
  | nil => exact ⟨rfl, rfl⟩
  | cons c front ih =>
    have hstep : state.step c (front ++ (back ++ rest)) = state.step c (front ++ back) := by
      rw [← List.append_assoc]
      exact step_ahead (by rw [List.length_append]; omega)
    rw [blanked, blanked, after, after, hstep, (ih _).1, (ih _).2]
    exact ⟨rfl, rfl⟩

/-- A part that has no comment when it is read on its own is kept. -/
theorem blanked_of_alone (h : state.inComment = false) (hend : Undivided part rest)
    (halone : state.blanked part [] = part) : state.blanked part rest = part := by
  rcases exists_mark h hend with hsame | ⟨front, back, rfl, hopen, hfront, hcode⟩
  · exact hsame
  · obtain ⟨c, back, rfl⟩ : ∃ c more, back = c :: more := by
      cases back with
      | nil => cases hopen
      | cons c back => exact ⟨c, back, rfl⟩
    obtain ⟨rfl, hhead⟩ := opensComment_cons.1 hopen
    have hlong : 2 ≤ ('/' :: back).length := by
      cases back with
      | nil => simp at hhead
      | cons d back => simp
    have hahead := ahead state front rest hlong
    rw [blanked_append, List.append_nil, ← hahead.1, ← hahead.2, hfront, hcode, List.append_cancel_left_eq] at halone
    have hhidden : (MaskState.step (.inside .code) '/' (back ++ [])).1 = false := by
      rw [List.append_nil, step]
      rcases hhead with hhead | hhead <;> simp [hhead]
    rw [blanked, hhidden] at halone
    exact absurd (List.cons.inj halone).1 (by decide)

end MaskState

/-! What is kept of a part. -/

/-- Neither character of a mark is a space, so a word goes on over it. -/
theorem wordsFrom_mark (word : List Char) (h : opensComment back = true) :
    ∃ d more ws, (d = '/' ∨ d = '*') ∧ wordsFrom word back = (word.reverse ++ '/' :: d :: more) :: ws := by
  cases back with
  | nil => cases h
  | cons c back =>
    obtain ⟨rfl, hhead⟩ := opensComment_cons.1 h
    cases back with
    | nil => simp at hhead
    | cons d back =>
      have hd : d = '/' ∨ d = '*' := by simpa using hhead
      have hspace : isSpace d = false := by rcases hd with rfl | rfl <;> rfl
      have hslash : isSpace '/' = false := rfl
      obtain ⟨more, ws, hwords, -⟩ := exists_wordsFrom back
      refine ⟨d, more, ws, hd, ?_⟩
      rw [wordsFrom, hslash, if_neg Bool.false_ne_true, wordsFrom, hspace, if_neg Bool.false_ne_true,
        hwords _ (List.cons_ne_nil d ('/' :: word))]
      simp

theorem opensComment_squeeze (h : opensComment text = true) : opensComment (squeeze text) = true := by
  obtain ⟨d, more, ws, hd, hwords⟩ := wordsFrom_mark [] h
  rw [squeeze, words, hwords]
  cases ws <;> simpa [List.intercalate_cons_cons, opensComment] using hd

theorem infix_intercalate {w : List Char} {ws : List (List Char)} (h : w ∈ ws) : w <:+: [' '].intercalate ws := by
  induction ws with
  | nil => cases h
  | cons v ws ih =>
    cases ws with
    | nil =>
      rw [List.mem_singleton.1 h]
      simp
    | cons v' ws =>
      rw [List.intercalate_cons_cons]
      rcases List.mem_cons.1 h with rfl | h
      · exact ⟨[], _, by simp; rfl⟩
      · exact (ih h).trans (List.suffix_append _ _).isInfix

theorem hasMark_squeeze (h : hasMark text = true) : hasMark (squeeze text) = true := by
  obtain ⟨front, back, rfl, hopen⟩ := hasMark_iff.1 h
  suffices hword : ∀ word, ∃ w ∈ wordsFrom word (front ++ back), hasMark w = true by
    obtain ⟨w, hw, hmark⟩ := hword []
    exact hasMark_of_part (infix_intercalate hw) hmark
  induction front with
  | nil =>
    intro word
    obtain ⟨d, more, ws, hd, hwords⟩ := wordsFrom_mark word hopen
    rw [List.nil_append, hwords]
    refine ⟨_, List.mem_cons_self, hasMark_iff.2 ⟨word.reverse, '/' :: d :: more, rfl, ?_⟩⟩
    simpa [opensComment] using hd
  | cons c front ih =>
    intro word
    rw [List.cons_append, wordsFrom]
    split
    · obtain ⟨w, hw, hmark⟩ := ih (hasMark_iff.2 ⟨front, back, rfl, hopen⟩) []
      split
      · exact ⟨w, hw, hmark⟩
      · exact ⟨w, List.mem_cons_of_mem _ hw, hmark⟩
    · exact ih (hasMark_iff.2 ⟨front, back, rfl, hopen⟩) (c :: word)

/-- What is nothing but comments and spaces begins, squeezed, with the mark of a comment. -/
theorem squeeze_blanked_eq_nil (h : state.inComment = false) (hend : Undivided part rest)
    (hopen : opensComment (squeeze part) = false) : squeeze (state.blanked part rest) = [] ↔ squeeze part = [] := by
  rw [squeeze_eq_nil, squeeze_eq_nil]
  refine ⟨fun hblank => ?_, MaskState.blanked_space⟩
  rcases MaskState.exists_mark h hend with hsame | ⟨front, back, rfl, hback, hfront, -⟩
  · rwa [hsame] at hblank
  · have hspace : ∀ c ∈ front, isSpace c = true := by
      rw [MaskState.blanked_append, hfront] at hblank
      exact fun c hc => hblank c (List.mem_append_left _ hc)
    rw [squeeze_append_of_space hspace, opensComment_squeeze hback] at hopen
    cases hopen

theorem after_space (h : ∀ c ∈ part, isSpace c = true) : (MaskState.inside .code).after part rest = .inside .code := by
  induction part with
  | nil => rfl
  | cons c part ih =>
    have hplain : ∀ v, isSpace v = false → c ≠ v := by
      rintro v hv rfl
      rw [h c List.mem_cons_self] at hv
      cases hv
    have hstep : MaskState.step (.inside .code) c (part ++ rest) = (true, .inside .code) := by
      simp [MaskState.step, hplain '/' rfl, hplain '"' rfl, hplain '\'' rfl]
    rw [MaskState.after, hstep]
    exact ih fun d hd => h d (List.mem_cons_of_mem c hd)

/-- A part in code that, trimmed, has no comment on its own is the same, trimmed, with the comments blanked. -/
theorem trim_blanked (hend : Undivided part rest) (halone : withoutComments (trim isSpace part) = trim isSpace part) :
    trim isSpace ((MaskState.inside .code).blanked part rest) = trim isSpace part := by
  obtain ⟨before, after, hpart, hbefore, hafter⟩ := exists_trim isSpace part
  generalize hkept : trim isSpace part = kept at hpart halone
  have hhead : ∀ c ∈ kept.head?, isSpace c = false := hkept ▸ head?_trim
  have hlast : ∀ c ∈ kept.getLast?, isSpace c = false := hkept ▸ getLast?_trim
  have hundivided : Undivided kept (after ++ rest) := by
    intro hslash
    cases after with
    | nil =>
      refine hend ?_
      have hne : kept ≠ [] := by rintro rfl; cases hslash
      rwa [hpart, List.append_nil, List.getLast?_append_of_ne_nil _ hne]
    | cons c after =>
      have hc := hafter c List.mem_cons_self
      constructor <;> rintro hhead <;> cases Option.some.inj hhead <;> cases hc
  have hsame : (MaskState.inside .code).blanked kept (after ++ rest) = kept :=
    MaskState.blanked_of_alone rfl hundivided (MaskState.blanked_eq_commentCellsFrom.trans halone)
  rw [hpart, MaskState.blanked_append, MaskState.blanked_append, after_space hbefore, hsame]
  exact trim_between (MaskState.blanked_space hbefore) (MaskState.blanked_space hafter) hhead hlast

end WireLayout.Java
