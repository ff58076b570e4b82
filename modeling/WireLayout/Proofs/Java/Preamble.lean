import WireLayout.Java.Preamble
import WireLayout.Proofs.Java.Cuts
import WireLayout.Proofs.Text.Marks

/-! What the annotations and modifiers in front of a declaration leave of it. One equation says what happens at the
first cell that shows something; from these a word or an annotation in front is read off, and a text whose
reading ends before its last parenthesis is read the same way whatever follows. -/

namespace WireLayout.Java

open WireLayout.Text

/-- The reading as a relation, with one rule for each thing a declaration can begin with. -/
inductive ReadsLead : List Cell → Preamble → Prop
  | nothing (hd : dropBlank cs = []) : ReadsLead cs ⟨[], [], []⟩
  | interface (hd : dropBlank cs = c :: rest) (hat : c.view = '@')
      (hname : shownText (rest.takeWhile isAnnotationCell) = "interface") : ReadsLead cs ⟨[], [], c :: rest⟩
  | annotated (hd : dropBlank cs = c :: rest) (hat : c.view = '@')
      (hname : shownText (rest.takeWhile isAnnotationCell) ≠ "interface")
      (more : ReadsLead (skipArguments (rest.dropWhile isAnnotationCell)) lead) :
      ReadsLead cs { lead with annotations := shownText (rest.takeWhile isAnnotationCell) :: lead.annotations }
  | angles (hd : dropBlank cs = c :: rest) (hopen : c.view = '<') (more : ReadsLead (skipAngles 1 rest) lead) :
      ReadsLead cs lead
  | modifier (hd : dropBlank cs = c :: rest) (hat : c.view ≠ '@') (hopen : c.view ≠ '<') (hc : isModifierCell c = true)
      (hword : modifierWords.contains (shownText (c :: rest.takeWhile isModifierCell)) = true)
      (more : ReadsLead (rest.dropWhile isModifierCell) lead) :
      ReadsLead cs { lead with modifiers := shownText (c :: rest.takeWhile isModifierCell) :: lead.modifiers }
  | other (hd : dropBlank cs = c :: rest) (hat : c.view ≠ '@') (hopen : c.view ≠ '<')
      (hword : isModifierCell c = true →
        modifierWords.contains (shownText (c :: rest.takeWhile isModifierCell)) = false) :
      ReadsLead cs ⟨[], [], c :: rest⟩

variable {cs ds rest gap tail : List Cell} {c : Cell} {depth : Nat}

/-- Cells that only separate words. -/
def Blank (cs : List Cell) : Prop := ∀ c ∈ cs, c.isBlank = true

instance : Decidable (Blank cs) := inferInstanceAs (Decidable (∀ c ∈ cs, c.isBlank = true))

theorem dropBlank_append (h : Blank gap) : dropBlank (gap ++ cs) = dropBlank cs :=
  List.dropWhile_append_of_pos h

theorem dropBlank_blank (h : Blank gap) : dropBlank gap = [] := by
  rw [dropBlank, List.dropWhile_eq_nil_iff]
  exact h

theorem dropBlank_cons (h : c.isBlank = false) : dropBlank (c :: cs) = c :: cs := by
  rw [dropBlank, List.dropWhile_cons_of_neg (by simp [h])]

theorem dropBlank_dropBlank : dropBlank (dropBlank cs) = dropBlank cs := List.dropWhile_idempotent Cell.isBlank cs

theorem isBlank_head {rest : List Cell} (h : dropBlank cs = c :: rest) : c.isBlank = false := by
  have hnot := List.head?_dropWhile_not Cell.isBlank cs
  rw [← dropBlank, h] at hnot
  simpa using hnot

theorem dropBlank_suffix : dropBlank cs <:+ cs := List.dropWhile_suffix _

theorem suffix_of_dropBlank (h : dropBlank cs = c :: rest) : rest <:+ cs :=
  (List.suffix_cons c rest).trans (h ▸ dropBlank_suffix)

theorem exists_dropBlank (cs : List Cell) : ∃ gap, Blank gap ∧ cs = gap ++ dropBlank cs :=
  ⟨cs.takeWhile Cell.isBlank, fun _ hc => List.mem_takeWhile_imp hc, List.takeWhile_append_dropWhile.symm⟩

theorem dropBlank_append_right (h : dropBlank cs ≠ []) : dropBlank (cs ++ ds) = dropBlank cs ++ ds := by
  rw [dropBlank, List.dropWhile_append, if_neg (by simpa [dropBlank] using h), dropBlank]

theorem unmarked_of_blank (h : Blank cs) : Unmarked cs := fun c hc => notMem_marks_of_isAsciiSpace (h c hc)

theorem lead_blank (h : Blank cs) : Lead cs := by
  have hunmarked := unmarked_of_blank h
  refine ⟨hunmarked.balanced, hunmarked.free (by decide), ?_⟩
  cases cs with
  | nil => rfl
  | cons c cs =>
    have hlast : compares (lastView none ([] ++ c :: cs)) = false :=
      compares_lastView_append hunmarked (List.cons_ne_nil c cs)
    exact hlast

theorem unmarked_of_isModifierCell (h : ∀ c ∈ cs, isModifierCell c = true) : Unmarked cs := by
  intro c hc
  have hcell := h c hc
  rw [isModifierCell, Bool.or_eq_true, decide_eq_true_eq] at hcell
  rcases hcell with hident | hdash
  · exact notMem_marks_of_isIdent hident
  · rw [hdash]
    decide

theorem isBlank_of_isIdent (h : c.isIdent = true) : c.isBlank = false := isAsciiSpace_of_isIdent h

theorem isBlank_of_view {v : Char} (h : c.view = v) (hv : isAsciiSpace v = false) : c.isBlank = false := by
  rw [Cell.isBlank, h, hv]

/-! One step of the reading. -/

theorem preamble_eq (cs : List Cell) : preamble cs =
    match dropBlank cs with
    | [] => ⟨[], [], []⟩
    | c :: rest =>
      if c.view = '@' then
        if shownText (rest.takeWhile isAnnotationCell) = "interface" then ⟨[], [], c :: rest⟩
        else { preamble (skipArguments (rest.dropWhile isAnnotationCell)) with
          annotations := shownText (rest.takeWhile isAnnotationCell) ::
            (preamble (skipArguments (rest.dropWhile isAnnotationCell))).annotations }
      else if c.view = '<' then preamble (skipAngles 1 rest)
      else if isModifierCell c && modifierWords.contains (shownText (c :: rest.takeWhile isModifierCell)) then
        { preamble (rest.dropWhile isModifierCell) with
          modifiers := shownText (c :: rest.takeWhile isModifierCell) ::
            (preamble (rest.dropWhile isModifierCell)).modifiers }
      else ⟨[], [], c :: rest⟩ := by
  rw [preamble]
  split
  · rename_i h
    simp only [h]
  · rename_i c rest h
    simp only [h]
    split
    · rfl
    · split
      · rfl
      · cases isModifierCell c <;> simp

theorem preamble_dropBlank : preamble (dropBlank cs) = preamble cs := by
  rw [preamble_eq, preamble_eq cs, dropBlank_dropBlank]

theorem preamble_append_blank (h : Blank gap) : preamble (gap ++ cs) = preamble cs := by
  rw [preamble_eq, preamble_eq cs, dropBlank_append h]

theorem preamble_blank (h : Blank gap) : preamble gap = ⟨[], [], []⟩ := by
  rw [preamble_eq, dropBlank_blank h]

theorem readsLead (cs : List Cell) : ReadsLead cs (preamble cs) := by
  fun_induction preamble cs with
  | case1 cs hd => exact .nothing hd
  | case2 cs c rest hd _ hat _ hname => exact .interface hd hat hname
  | case3 cs c rest hd _ hat _ hname _ _ _ ih => exact .annotated hd hat hname ih
  | case4 cs c rest hd _ _ hopen _ ih => exact .angles hd hopen ih
  | case5 cs c rest hd _ hat hopen hc _ hword _ _ ih => exact .modifier hd hat hopen hc hword ih
  | case6 cs c rest hd _ hat hopen _ _ hword => exact .other hd hat hopen fun _ => by simpa using hword
  | case7 cs c rest hd _ hat hopen hc => exact .other hd hat hopen fun h => absurd h hc

theorem ReadsLead.preamble_eq {lead : Preamble} (h : ReadsLead cs lead) : preamble cs = lead := by
  induction h with
  | nothing hd => rw [Java.preamble_eq, hd]
  | interface hd hat hname =>
    rw [Java.preamble_eq, hd]
    simp only [if_pos hat, if_pos hname]
  | annotated hd hat hname _ ih =>
    rw [Java.preamble_eq, hd]
    simp only [if_pos hat, if_neg hname, ih]
  | angles hd hopen _ ih =>
    rw [Java.preamble_eq, hd]
    simp only [hopen, Char.reduceEq, if_false, if_true, ih]
  | modifier hd hat hopen hc hword _ ih =>
    rw [Java.preamble_eq, hd]
    simp only [if_neg hat, if_neg hopen, hc, hword, Bool.and_self, if_true, ih]
  | @other cs c rest hd hat hopen hword =>
    rw [Java.preamble_eq, hd]
    simp only [if_neg hat, if_neg hopen]
    rw [if_neg]
    rw [Bool.and_eq_true]
    exact fun h => Bool.eq_false_iff.1 (hword h.1) h.2

/-- A declaration that begins with no annotation, no type parameter and no modifier. -/
structure Plain (cs : List Cell) : Prop where
  shows : ∀ c ∈ cs.head?, c.isBlank = false ∧ c.view ≠ '@' ∧ c.view ≠ '<'
  word : modifierWords.contains (shownText (cs.takeWhile isModifierCell)) = false

theorem preamble_plain (h : Plain cs) : preamble cs = ⟨[], [], cs⟩ := by
  cases cs with
  | nil => rw [preamble_eq]; rfl
  | cons c rest =>
    obtain ⟨hblank, hat, hangle⟩ := h.shows c rfl
    rw [preamble_eq, dropBlank_cons hblank]
    simp only [if_neg hat, if_neg hangle]
    rw [if_neg]
    intro hword
    rw [Bool.and_eq_true] at hword
    have hplain := h.word
    rw [List.takeWhile_cons_of_pos hword.1] at hplain
    rw [hplain] at hword
    exact Bool.false_ne_true hword.2

/-- A run of a class ends where its text does if the next cell is not of the class. -/
theorem span_append {p : Cell → Bool} {w : List Cell} (hw : ∀ c ∈ w, p c = true) (hr : ∀ c ∈ rest.head?, p c = false) :
    (w ++ rest).takeWhile p = w ∧ (w ++ rest).dropWhile p = rest := by
  rw [List.takeWhile_append_of_pos hw, List.dropWhile_append_of_pos hw]
  cases rest with
  | nil => simp
  | cons c rest => simp [hr c rfl]

theorem isModifierCell_head {w : List Cell} (hw : ∀ c ∈ w, isModifierCell c = true) (hne : w ≠ []) :
    ∃ c ws, w = c :: ws ∧ c.isBlank = false ∧ c.view ≠ '@' ∧ c.view ≠ '<' := by
  obtain ⟨c, ws, rfl⟩ := List.exists_cons_of_ne_nil hne
  have hc := hw c List.mem_cons_self
  rw [isModifierCell, Bool.or_eq_true, decide_eq_true_eq] at hc
  refine ⟨c, ws, rfl, ?_⟩
  rcases hc with hc | hc
  · refine ⟨isBlank_of_isIdent hc, ?_, ?_⟩ <;>
      (intro heq; rw [Cell.isIdent, heq] at hc; exact absurd hc (by decide))
  · exact ⟨isBlank_of_view hc (by decide), by rw [hc]; decide, by rw [hc]; decide⟩

theorem preamble_modifier {w : List Cell} (hw : ∀ c ∈ w, isModifierCell c = true)
    (hword : shownText w ∈ modifierWords) (hrest : ∀ c ∈ rest.head?, isModifierCell c = false) :
    preamble (w ++ rest) = { preamble rest with modifiers := shownText w :: (preamble rest).modifiers } := by
  have hne : w ≠ [] := by
    rintro rfl
    exact absurd hword (by decide)
  obtain ⟨c, ws, rfl, hblank, hat, hangle⟩ := isModifierCell_head hw hne
  obtain ⟨htake, hdrop⟩ := span_append (fun d hd => hw d (List.mem_cons_of_mem c hd)) hrest
  rw [preamble_eq, List.cons_append, dropBlank_cons hblank]
  simp only [if_neg hat, if_neg hangle, htake, hdrop]
  rw [if_pos]
  rw [hw c List.mem_cons_self, Bool.true_and]
  exact List.contains_iff_mem.2 hword

/-- An annotation in front is read up to the end of its name. -/
theorem preamble_annotation {w : List Cell} (hw : ∀ c ∈ w, isAnnotationCell c = true) (hname : shownText w ≠ "interface")
    (hrest : ∀ c ∈ rest.head?, isAnnotationCell c = false) :
    preamble (Cell.code '@' :: (w ++ rest)) = { preamble (skipArguments rest) with
      annotations := shownText w :: (preamble (skipArguments rest)).annotations } := by
  obtain ⟨htake, hdrop⟩ := span_append hw hrest
  have hsign : (Cell.code '@').isBlank = false := rfl
  rw [preamble_eq, dropBlank_cons hsign]
  simp only [Cell.view_code, if_true, htake, hdrop, if_neg hname]

theorem skipArguments_parentheses {inside : List Cell} (hgap : Blank gap) (hinside : Balanced Cell.view inside) :
    skipArguments (gap ++ Cell.code '(' :: (inside ++ Cell.code ')' :: rest)) = rest := by
  have hclosing : closing Cell.view '(' ')' 1 (inside ++ Cell.code ')' :: rest) = some (inside, rest) :=
    closing_balanced (c := Cell.code ')') hinside rfl
  have hopen : (Cell.code '(').isBlank = false := rfl
  rw [skipArguments, dropBlank_append hgap, dropBlank_cons hopen]
  simp only [Cell.view_code, if_true, hclosing, Option.map_some, Option.getD_some]

theorem preamble_skipArguments (h : ∀ c ∈ (dropBlank cs).head?, c.view ≠ '(') :
    preamble (skipArguments cs) = preamble cs := by
  have hshown : preamble (dropBlank cs) = preamble cs := preamble_dropBlank
  rw [skipArguments]
  cases hd : dropBlank cs with
  | nil => rw [← hshown, hd]
  | cons c rest =>
    simp only [if_neg (h c (by rw [hd]; rfl))]
    rw [← hshown, hd]

theorem isAnnotationCell_of_isBlank (h : c.isBlank = true) : isAnnotationCell c = false := by
  by_contra hcell
  rw [Bool.not_eq_false, isAnnotationCell, Bool.or_eq_true, decide_eq_true_eq] at hcell
  rcases hcell with hident | hpoint
  · rw [isBlank_of_isIdent hident] at h
    cases h
  · rw [Cell.isBlank, hpoint] at h
    cases h

/-! Headers that only say where code runs. -/

theorem isModifierCell_of_isBlank (h : c.isBlank = true) : isModifierCell c = false := by
  by_contra hc
  obtain ⟨_, _, heq, hblank, -⟩ := isModifierCell_head (w := [c]) (by simpa using hc) (by simp)
  obtain ⟨rfl, -⟩ := List.cons.inj heq
  rw [h] at hblank
  cases hblank

theorem preamble_of_trimCells {w : String} (hw : w ∈ modifierWords)
    (hchars : w.toList.all (fun x => isIdent x || x = '-') = true) (h : views (trimCells cs) = w.toList) :
    (preamble cs).rest = [] := by
  obtain ⟨before, after, hcs, hbefore, hafter⟩ := exists_trim (fun c : Cell => isAsciiSpace c.view) cs
  rw [← trimBlank, ← trimCells] at hcs
  have hword : ∀ c ∈ trimCells cs, isModifierCell c = true := by
    intro c hc
    exact List.all_eq_true.1 hchars c.view (by rw [← h]; exact List.mem_map_of_mem hc)
  have hshown : shownText (trimCells cs) = w := by rw [shownText, h, String.ofList_toList]
  have hstop : ∀ c ∈ after.head?, isModifierCell c = false :=
    fun c hc => isModifierCell_of_isBlank (hafter c (List.mem_of_mem_head? hc))
  rw [hcs, preamble_append_blank hbefore, preamble_modifier hword (by rw [hshown]; exact hw) hstop,
    preamble_blank hafter]

end WireLayout.Java
