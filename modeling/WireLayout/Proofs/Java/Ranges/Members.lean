import WireLayout.Proofs.Java.Ranges.Masked
import WireLayout.Proofs.Java.Ranges.Reader

/-! Members read by positions: annotations and modifiers, types and names, parameters, fields, methods. A reader that
gets the range of some cells gives what the reading of the cells gives, and no position or range on its way is a
fault. -/

namespace WireLayout.Java

open WireLayout.Text

variable {all cs : List Cell} {c : Cell} {i k stop : Nat} {s : Span}

def Texts.of (all : List Cell) : Texts := ⟨maskedText all, verbatim all⟩

theorem exists_part? {text part : List Char} (h : textIn text s = .ok part) : (part? text s).isSome := by
  unfold textIn at h
  split at h
  · rename_i hpart
    rw [hpart]
    rfl
  · cases h

theorem Covers.demand (h : Covers all s cs) : (Texts.of all).demand s = .ok () :=
  if_pos ⟨exists_part? h.textIn_masked, exists_part? h.textIn_source⟩

/-! Annotations and modifiers. -/

theorem asciiClass_annotation : AsciiClass fun c => isIdent c || c = '.' := asciiClass_isIdent_or (by decide)

theorem asciiClass_modifier : AsciiClass fun c => isIdent c || c = '-' := asciiClass_isIdent_or (by decide)

/-- A word is cut from the masked text as the cells show it. -/
theorem Covers.textIn_word {p : Char → Bool} (hp : p ' ' = false) (hcs : ∀ c ∈ cs, p c.view = true)
    (h : Covers all s cs) : textIn (maskedText all) s = .ok (views cs) := by
  rw [h.textIn_masked, maskedText_eq_views]
  intro c hc heq
  have hc := hcs c hc
  rw [heq, hp] at hc
  cases hc

theorem leadFrom_past (text : List Char) (h : stop ≤ i) : leadFrom text i stop = .ok ⟨[], [], ⟨stop, stop⟩⟩ := by
  rw [Java.leadFrom, passWhile, if_neg (by omega)]
  simp only [pure, Except.pure, Except.ok_bind]
  rw [dif_neg (by omega), Nat.min_eq_right h]

theorem Covers.argumentsEnd (hall : Balanced Cell.view all) (h : Covers all ⟨i, stop⟩ cs) :
    ∃ j, Java.argumentsEnd (maskedText all) i stop = .ok (j, true) ∧
      (Covers all ⟨j, stop⟩ (skipArguments cs) ∨ skipArguments cs = [] ∧ stop ≤ j) := by
  obtain ⟨⟨j, hij⟩, hj, -, hrest⟩ := h.passWhile asciiClass_isAsciiSpace
  change Covers all ⟨j, stop⟩ (dropBlank cs) at hrest
  rw [Java.argumentsEnd, skipArguments]
  rw [hj, Except.ok_bind]
  cases hd : dropBlank cs with
  | nil =>
    rw [hd] at hrest
    obtain rfl := hrest.nil_stop
    dsimp only
    rw [if_neg (lt_irrefl _)]
    exact ⟨_, rfl, .inl hrest⟩
  | cons c rest =>
    rw [hd] at hrest
    obtain ⟨x, hx, hreads⟩ := hrest.octetAt_ok
    have hparen : x = '(' ↔ c.view = '(' := hreads.eq_iff (by decide)
    dsimp only
    rw [if_pos (hrest.lt_iff.2 (List.cons_ne_nil c rest)), hx, Except.ok_bind]
    by_cases hc : c.view = '('
    · have hopen : closer? c.view = some ')' := by rw [hc]; rfl
      obtain ⟨⟨close, hlt⟩, hpartner, hfound⟩ := hrest.partner hall hopen
      rw [hc] at hpartner hfound
      rw [if_pos (hparen.2 hc), hpartner, if_pos hc]
      refine ⟨_, rfl, ?_⟩
      rcases hfound with ⟨inside, rest', hclosing, -, hrest'⟩ | ⟨hclosing, hle⟩
      · rw [hclosing]
        exact .inl hrest'
      · rw [hclosing]
        exact .inr ⟨rfl, Nat.le_succ_of_le hle⟩
    · rw [if_neg (mt hparen.1 hc), if_neg hc]
      exact ⟨_, rfl, .inl hrest⟩

/-- The word in front of cells is cut from the masked text, and what is behind it is left. -/
theorem Covers.word {p : Char → Bool} (hp : AsciiClass p) (hspace : p ' ' = false) (h : Covers all ⟨i, stop⟩ cs) :
    ∃ j, Java.passWhile (maskedText all) p i stop = .ok j ∧
      textIn (maskedText all) ⟨i, j⟩ = .ok (views (cs.takeWhile fun c => p c.view)) ∧
      (i < j.1 ↔ cs.takeWhile (fun c => p c.view) ≠ []) ∧ Covers all ⟨j, stop⟩ (cs.dropWhile fun c => p c.view) := by
  obtain ⟨j, hj, hword, hafter⟩ := h.passWhile hp
  exact ⟨j, hj, hword.textIn_word hspace fun _ => List.mem_takeWhile_imp, hword.lt_iff, hafter⟩

/-- The first cell that shows something is where the reader stops passing over blanks. -/
theorem Covers.first {rest : List Cell} (h : Covers all ⟨i, stop⟩ cs) (hd : dropBlank cs = c :: rest) :
    ∃ j x, Java.passWhile (maskedText all) isAsciiSpace i stop = .ok j ∧ j.1 < stop ∧
      octetAt (maskedText all) j = .ok x ∧ Reads x c ∧ Covers all ⟨j, stop⟩ (c :: rest) := by
  obtain ⟨j, hj, -, hrest⟩ := h.passWhile asciiClass_isAsciiSpace
  change Covers all ⟨j, stop⟩ (dropBlank cs) at hrest
  rw [hd] at hrest
  obtain ⟨x, hx, hreads⟩ := hrest.octetAt_ok
  exact ⟨j, x, hj, hrest.lt_iff.2 (List.cons_ne_nil c rest), hx, hreads, hrest⟩

/-- What is read in front of a declaration, and the range of the rest, which ends at a given position. -/
structure LeadRange.Matches (all : List Cell) (stop : Nat) (lead : Preamble) (r : LeadRange) : Prop where
  annotations : r.annotations = lead.annotations
  modifiers : r.modifiers = lead.modifiers
  covers : Covers all r.rest lead.rest
  stop : r.rest.stop = stop

/-- A reader from a position on gives what stands in front of a declaration. -/
def LeadsAt (all : List Cell) (i stop : Nat) (lead : Preamble) : Prop :=
  ∃ r, leadFrom (maskedText all) i stop = .ok r ∧ r.Matches all stop lead

theorem LeadRange.Matches.here (h : Covers all ⟨i, stop⟩ cs) : Matches all stop ⟨[], [], cs⟩ ⟨[], [], ⟨i, stop⟩⟩ :=
  ⟨rfl, rfl, h, rfl⟩

theorem Covers.leadsAt_nothing (h : Covers all ⟨i, stop⟩ cs) (hd : dropBlank cs = []) : LeadsAt all i stop ⟨[], [], []⟩ := by
  obtain ⟨⟨j, hij⟩, hj, -, hrest⟩ := h.passWhile asciiClass_isAsciiSpace
  change Covers all ⟨j, stop⟩ (dropBlank cs) at hrest
  rw [hd] at hrest
  obtain rfl := hrest.nil_stop
  rw [LeadsAt, Java.leadFrom, hj, Except.ok_bind]
  dsimp only
  rw [dif_neg (lt_irrefl _), Nat.min_self]
  exact ⟨_, rfl, .here hrest⟩

section

variable {rest : List Cell} {lead : Preamble}

theorem Covers.leadsAt_interface (h : Covers all ⟨i, stop⟩ cs) (hd : dropBlank cs = c :: rest) (hat : c.view = '@')
    (hname : shownText (rest.takeWhile isAnnotationCell) = "interface") : LeadsAt all i stop ⟨[], [], c :: rest⟩ := by
  obtain ⟨⟨j, hij⟩, x, hj, hlt, hx, hreads, hrest⟩ := h.first hd
  have hsign : x = '@' := (hreads.eq_iff (by decide)).2 hat
  have hneutral : ¬ Neutral c.view := not_neutral_of_view hat (by decide) (by decide)
  obtain ⟨⟨nameEnd, _⟩, hend, htext, -, -⟩ := (hrest.single hneutral).2.2.word asciiClass_annotation (by decide)
  change textIn _ _ = .ok (views (rest.takeWhile isAnnotationCell)) at htext
  dsimp only at hx hlt
  rw [LeadsAt, Java.leadFrom, hj, Except.ok_bind]
  dsimp only
  rw [dif_pos hlt, hx, Except.ok_bind, if_pos hsign, hend, Except.ok_bind]
  dsimp only
  rw [htext, Except.ok_bind, if_pos (show String.ofList (views _) = _ from hname)]
  exact ⟨_, rfl, .here hrest⟩

theorem Covers.leadsAt_annotated (hall : Balanced Cell.view all) (h : Covers all ⟨i, stop⟩ cs)
    (hd : dropBlank cs = c :: rest) (hat : c.view = '@')
    (hname : shownText (rest.takeWhile isAnnotationCell) ≠ "interface")
    (hmore : ReadsLead (skipArguments (rest.dropWhile isAnnotationCell)) lead)
    (ih : ∀ k, Covers all ⟨k, stop⟩ (skipArguments (rest.dropWhile isAnnotationCell)) → LeadsAt all k stop lead) :
    LeadsAt all i stop
      { lead with annotations := shownText (rest.takeWhile isAnnotationCell) :: lead.annotations } := by
  obtain ⟨⟨j, hij⟩, x, hj, hlt, hx, hreads, hrest⟩ := h.first hd
  have hsign : x = '@' := (hreads.eq_iff (by decide)).2 hat
  have hneutral : ¬ Neutral c.view := not_neutral_of_view hat (by decide) (by decide)
  obtain ⟨⟨nameEnd, _⟩, hend, htext, -, hafter⟩ := (hrest.single hneutral).2.2.word asciiClass_annotation (by decide)
  change Covers all ⟨nameEnd, stop⟩ (rest.dropWhile isAnnotationCell) at hafter
  obtain ⟨⟨next, _⟩, hnext, hleft⟩ := hafter.argumentsEnd hall
  obtain ⟨r, hr, hannotations, hmodifiers, hcovers, hstop⟩ : LeadsAt all next stop lead := by
    rcases hleft with hleft | ⟨hnil, hle⟩
    · exact ih next hleft
    · -- behind arguments that do not end nothing is left to read
      rw [← hmore.preamble_eq, hnil, preamble_blank (by simp [Blank])]
      exact ⟨_, leadFrom_past _ hle, .here hrest.finish⟩
  change textIn _ _ = .ok (views (rest.takeWhile isAnnotationCell)) at htext
  dsimp only at hx hlt
  rw [LeadsAt, Java.leadFrom, hj, Except.ok_bind]
  dsimp only
  rw [dif_pos hlt, hx, Except.ok_bind, if_pos hsign, hend, Except.ok_bind]
  dsimp only
  rw [htext, Except.ok_bind, if_neg (show ¬ String.ofList (views _) = _ from hname), hnext, Except.ok_bind]
  dsimp only
  rw [if_pos rfl, hr, Except.ok_bind]
  exact ⟨_, rfl, congrArg (_ :: ·) hannotations, hmodifiers, hcovers, hstop⟩

theorem Covers.leadsAt_angles (h : Covers all ⟨i, stop⟩ cs) (hd : dropBlank cs = c :: rest) (hopen : c.view = '<')
    (ih : ∀ k, Covers all ⟨k, stop⟩ (skipAngles 1 rest) → LeadsAt all k stop lead) : LeadsAt all i stop lead := by
  obtain ⟨⟨j, hij⟩, x, hj, hlt, hx, hreads, hrest⟩ := h.first hd
  have hangle : x = '<' := (hreads.eq_iff (by decide)).2 hopen
  have hneutral : ¬ Neutral c.view := not_neutral_of_view hopen (by decide) (by decide)
  obtain ⟨⟨next, _⟩, hnext, hmore⟩ := (hrest.single hneutral).2.2.anglesEnd (Nat.le_refl 1)
  rw [Nat.cast_one] at hnext
  dsimp only at hx hlt
  rw [LeadsAt, Java.leadFrom, hj, Except.ok_bind]
  dsimp only
  rw [dif_pos hlt, hx, Except.ok_bind, if_neg (by rw [hangle]; decide), if_pos hangle, hnext, Except.ok_bind]
  exact ih next hmore

theorem Covers.leadsAt_modifier (h : Covers all ⟨i, stop⟩ cs) (hd : dropBlank cs = c :: rest) (hat : c.view ≠ '@')
    (hopen : c.view ≠ '<') (hc : isModifierCell c = true)
    (hword : modifierWords.contains (shownText (c :: rest.takeWhile isModifierCell)) = true)
    (ih : ∀ k, Covers all ⟨k, stop⟩ (rest.dropWhile isModifierCell) → LeadsAt all k stop lead) :
    LeadsAt all i stop
      { lead with modifiers := shownText (c :: rest.takeWhile isModifierCell) :: lead.modifiers } := by
  obtain ⟨⟨j, hij⟩, x, hj, hlt, hx, hreads, hrest⟩ := h.first hd
  obtain ⟨⟨wordEnd, _⟩, hend, htext, hne, hafter⟩ := hrest.word asciiClass_modifier (by decide)
  change textIn _ _ = .ok (views ((c :: rest).takeWhile isModifierCell)) at htext
  change _ ↔ (c :: rest).takeWhile isModifierCell ≠ [] at hne
  change Covers all _ ((c :: rest).dropWhile isModifierCell) at hafter
  rw [List.takeWhile_cons_of_pos hc] at htext hne
  rw [List.dropWhile_cons_of_pos hc] at hafter
  obtain ⟨r, hr, hannotations, hmodifiers, hcovers, hstop⟩ := ih wordEnd hafter
  dsimp only at hx hlt
  rw [LeadsAt, Java.leadFrom, hj, Except.ok_bind]
  dsimp only
  rw [dif_pos hlt, hx, Except.ok_bind, if_neg (mt (hreads.eq_iff (by decide)).1 hat),
    if_neg (mt (hreads.eq_iff (by decide)).1 hopen), hend, Except.ok_bind, htext, Except.ok_bind]
  dsimp only
  rw [dif_pos ⟨hne.2 (List.cons_ne_nil _ _), hword⟩, hr, Except.ok_bind]
  exact ⟨_, rfl, hannotations, congrArg (_ :: ·) hmodifiers, hcovers, hstop⟩

theorem Covers.leadsAt_other (h : Covers all ⟨i, stop⟩ cs) (hd : dropBlank cs = c :: rest) (hat : c.view ≠ '@')
    (hopen : c.view ≠ '<')
    (hword : isModifierCell c = true → modifierWords.contains (shownText (c :: rest.takeWhile isModifierCell)) = false) :
    LeadsAt all i stop ⟨[], [], c :: rest⟩ := by
  obtain ⟨⟨j, hij⟩, x, hj, hlt, hx, hreads, hrest⟩ := h.first hd
  obtain ⟨⟨wordEnd, _⟩, hend, htext, hne, -⟩ := hrest.word asciiClass_modifier (by decide)
  change textIn _ _ = .ok (views ((c :: rest).takeWhile isModifierCell)) at htext
  change _ ↔ (c :: rest).takeWhile isModifierCell ≠ [] at hne
  dsimp only at hx hlt
  rw [LeadsAt, Java.leadFrom, hj, Except.ok_bind]
  dsimp only
  rw [dif_pos hlt, hx, Except.ok_bind, if_neg (mt (hreads.eq_iff (by decide)).1 hat),
    if_neg (mt (hreads.eq_iff (by decide)).1 hopen), hend, Except.ok_bind, htext, Except.ok_bind]
  dsimp only
  rw [dif_neg]
  · exact ⟨_, rfl, .here hrest⟩
  · rintro ⟨hlt, hknown⟩
    cases hc : isModifierCell c with
    | false => exact hne.1 hlt (List.takeWhile_cons_of_neg (by simp [hc]))
    | true =>
      rw [List.takeWhile_cons_of_pos hc] at hknown
      exact Bool.false_ne_true ((hword hc).symm.trans hknown)

end

/-- The reader finds what the reading finds, rule by rule. -/
theorem ReadsLead.leadsAt {lead : Preamble} (hlead : ReadsLead cs lead) (hall : Balanced Cell.view all)
    (h : Covers all ⟨i, stop⟩ cs) : LeadsAt all i stop lead := by
  induction hlead generalizing i with
  | nothing hd => exact h.leadsAt_nothing hd
  | interface hd hat hname => exact h.leadsAt_interface hd hat hname
  | annotated hd hat hname more ih => exact h.leadsAt_annotated hall hd hat hname more fun _ => ih
  | angles hd hopen _ ih => exact h.leadsAt_angles hd hopen fun _ => ih
  | modifier hd hat hopen hc hword _ ih => exact h.leadsAt_modifier hd hat hopen hc hword fun _ => ih
  | other hd hat hopen hword => exact h.leadsAt_other hd hat hopen hword

theorem Covers.lead (hall : Balanced Cell.view all) (h : Covers all s cs) :
    ∃ r, (Texts.of all).lead s = .ok r ∧ r.Matches all s.stop (preamble cs) := by
  rw [Texts.lead, h.demand, Except.ok_bind]
  exact (readsLead cs).leadsAt hall h

/-! A type and a name. -/

theorem Covers.octetAt_last (h : Covers all ⟨i, k⟩ (cs ++ [c])) :
    ∃ x, octetAt (maskedText all) (k - 1) = .ok x ∧ Reads x c := by
  obtain ⟨front, back, htext, rfl, rfl⟩ := h.octets_at
  obtain ⟨os, x, hx⟩ := (List.eq_nil_or_concat' c.octets).resolve_left c.octets_ne_nil
  have hsplit : octetViews (maskedText all) = (front ++ (cs.flatMap Cell.octets ++ os)) ++ x :: back := by
    rw [htext, List.flatMap_append, List.flatMap_cons, hx]
    simp
  have hposition : front.length + ((cs ++ [c]).flatMap Cell.octets).length - 1 =
      (front ++ (cs.flatMap Cell.octets ++ os)).length := by
    rw [List.flatMap_append, List.flatMap_cons, hx]
    simp only [List.flatMap_nil, List.append_nil, List.length_append, List.length_singleton]
    omega
  rw [hposition]
  exact ⟨x, octetAt_eq hsplit, c.octet_eq x (by rw [hx]; simp)⟩

theorem Covers.concat_single (h : Covers all ⟨i, k⟩ (cs ++ [c])) (hc : ¬ Neutral c.view) :
    ∃ j, k = j + 1 ∧ octetAt (maskedText all) j = .ok c.view ∧ Covers all ⟨i, j⟩ cs := by
  obtain ⟨j, hinit, hlast⟩ := h.append
  obtain ⟨hoctet, -, hend⟩ := hlast.single hc
  exact ⟨j, hend.nil_stop, hoctet, hinit⟩

theorem octetAt_of_lt {text : List Char} (h : i < (octetViews text).length) : ∃ x, octetAt text i = .ok x := by
  unfold octetAt
  rw [List.getElem?_eq_getElem h]
  exact ⟨_, rfl⟩

theorem Covers.stop_le (h : Covers all ⟨i, k⟩ cs) : k ≤ (octetViews (maskedText all)).length := by
  obtain ⟨front, back, htext, rfl, rfl⟩ := h.octets_at
  rw [htext]
  simp

theorem stripDimensions_blank {b : Cell} (hb : b.isBlank = true) (rest : List Cell) :
    stripDimensions (b :: rest) = stripDimensions rest := by
  cases rest with
  | nil => simp [stripDimensions, hb]
  | cons a rest => rw [stripDimensions, if_pos hb]

theorem stripDimensions_dropWhile (cs : List Cell) :
    stripDimensions (cs.dropWhile Cell.isBlank) = stripDimensions cs := by
  induction cs with
  | nil => rfl
  | cons c cs ih =>
    cases hc : c.isBlank with
    | true => rw [List.dropWhile_cons_of_pos hc, ih, stripDimensions_blank hc]
    | false => rw [List.dropWhile_cons_of_neg (by simp [hc])]

theorem stripDimensions_plain {b : Cell} (hb : b.isBlank = false) {rest : List Cell}
    (h : b.view = ']' → ∀ a ∈ rest.head?, a.view ≠ '[') : stripDimensions (b :: rest) = (0, b :: rest) := by
  cases rest with
  | nil => rw [stripDimensions, if_neg (by simp [hb])]
  | cons a rest =>
    rw [stripDimensions, if_neg (by simp [hb]), if_neg]
    intro hpair
    rw [Bool.and_eq_true, decide_eq_true_eq, decide_eq_true_eq] at hpair
    exact h hpair.1 a rfl hpair.2

theorem dimensionsEnd_plain {text : List Char} {start : Nat} {x y : Char} (hx : octetAt text (stop - 2) = .ok x)
    (hy : octetAt text (stop - 1) = .ok y) (h : ¬ (x = '[' ∧ y = ']')) :
    dimensionsEnd text start stop = .ok (0, ⟨stop, le_rfl⟩) := by
  rw [Java.dimensionsEnd]
  split
  · rw [hx, Except.ok_bind, hy, Except.ok_bind, if_neg (by simpa using h)]
    rfl
  · rfl

theorem dimensionsEnd_pair {text : List Char} {start n : Nat} {r : {r : Span // r.stop ≤ i}} {j : {j // j ≤ r.1.stop}}
    (hle : start ≤ i) (hx : octetAt text i = .ok '[') (hy : octetAt text (i + 1) = .ok ']')
    (hr : trimRange text ⟨start, i⟩ = .ok r) (hj : dimensionsEnd text start r.1.stop = .ok (n, j)) :
    ∃ j', dimensionsEnd text start (i + 2) = .ok (n + 1, j') ∧ j'.1 = j.1 := by
  have hopen : octetAt text (i + 2 - 2) = .ok '[' := hx
  have hclose : octetAt text (i + 2 - 1) = .ok ']' := hy
  have hrest : trimRange text ⟨start, i + 2 - 2⟩ = .ok r := hr
  rw [Java.dimensionsEnd, dif_pos (by omega), hopen, Except.ok_bind, hclose, Except.ok_bind, if_pos (by decide), hrest,
    Except.ok_bind]
  dsimp only
  rw [hj, Except.ok_bind]
  exact ⟨_, rfl, rfl⟩

theorem dropBlank_of_head (h : ∀ c ∈ cs.head?, c.isBlank = false) : dropBlank cs = cs := by
  cases cs with
  | nil => rfl
  | cons c cs => exact dropBlank_cons (h c rfl)

/-- Nothing is trimmed off the front of cells that begin with no blank. -/
theorem Covers.trimRange_start (h : Covers all s cs) (hhead : ∀ c ∈ cs.head?, c.isBlank = false) :
    ∃ r, Java.trimRange (maskedText all) s = .ok r ∧ Covers all r (trimCells cs) ∧ r.1.start = s.start := by
  obtain ⟨r, hr, htrimmed, hrest⟩ := h.trimRange
  rw [dropBlank_of_head hhead] at hrest
  have hwhole : s.stop = s.start + (cs.flatMap Cell.octets).length := h.stop_eq
  have hlength := hrest.stop_eq
  exact ⟨r, hr, htrimmed, by omega⟩

theorem stripDimensions_pair {a b : Cell} (hb : b.view = ']') (ha : a.view = '[') (rest : List Cell) :
    stripDimensions (b :: a :: rest) = ((stripDimensions rest).1 + 1, (stripDimensions rest).2) := by
  have hblank : b.isBlank = false := isBlank_of_view hb (by decide)
  rw [stripDimensions, if_neg (by simp [hblank]), if_pos (by simp [ha, hb])]

/-- What is trimmed off the end before the next dimensions is passed over by them anyway. -/
theorem stripDimensions_trimCells (hhead : ∀ c ∈ cs.head?, c.isBlank = false) :
    stripDimensions (trimCells cs).reverse = stripDimensions cs.reverse := by
  change stripDimensions (dropEnd Cell.isBlank (dropBlank cs)).reverse = _
  rw [dropBlank_of_head hhead, dropEnd, List.reverse_reverse, stripDimensions_dropWhile]

def EndsInBrackets (cs : List Cell) : Prop :=
  ∃ front a b, cs = front ++ [a, b] ∧ a.view = '[' ∧ b.view = ']'

theorem Covers.dimensionsEnd_none {start : Nat} (h : Covers all ⟨start, stop⟩ cs) (hpair : ¬ EndsInBrackets cs) :
    dimensionsEnd (maskedText all) start stop = .ok (0, ⟨stop, le_rfl⟩) := by
  by_cases hwide : start + 2 ≤ stop
  · have hstop := h.stop_le
    obtain ⟨x, hx⟩ : ∃ x, octetAt (maskedText all) (stop - 2) = .ok x := octetAt_of_lt (by omega)
    rcases List.eq_nil_or_concat' cs with rfl | ⟨init, b, rfl⟩
    · have := h.nil_stop
      omega
    obtain ⟨y, hy, hreads⟩ := h.octetAt_last
    refine dimensionsEnd_plain hx hy fun hxy => ?_
    have hview : b.view = ']' := (hreads.eq_iff (by decide)).1 hxy.2
    obtain ⟨k, rfl, -, hinit⟩ := h.concat_single (not_neutral_of_view hview (by decide) (by decide))
    rcases List.eq_nil_or_concat' init with rfl | ⟨front, a, rfl⟩
    · have := hinit.nil_stop
      omega
    · obtain ⟨x', hx', hreads'⟩ := hinit.octetAt_last
      obtain rfl : x = x' := Except.ok.inj (hx.symm.trans hx')
      exact hpair ⟨front, a, b, by simp, (hreads'.eq_iff (by decide)).1 hxy.1, hview⟩
  · rw [Java.dimensionsEnd, dif_neg hwide]
    rfl

theorem stripDimensions_none (hlast : ∀ c ∈ cs.getLast?, c.isBlank = false) (hpair : ¬ EndsInBrackets cs) :
    stripDimensions cs.reverse = (0, cs.reverse) := by
  rcases List.eq_nil_or_concat' cs with rfl | ⟨init, b, rfl⟩
  · rfl
  rw [List.reverse_append, List.reverse_singleton, List.singleton_append]
  refine stripDimensions_plain (hlast b (by simp)) fun hview a ha hopen => hpair ?_
  rw [List.head?_reverse] at ha
  obtain ⟨front, rfl⟩ := List.getLast?_eq_some_iff.1 ha
  exact ⟨front, a, b, by simp, hopen, hview⟩

/-- The dimensions at the end of cells that neither begin nor end with a blank, by induction on their number. -/
theorem Covers.dimensionsEnd {start : Nat} (h : Covers all ⟨start, stop⟩ cs)
    (hhead : ∀ c ∈ cs.head?, c.isBlank = false) (hlast : ∀ c ∈ cs.getLast?, c.isBlank = false) :
    ∃ j, dimensionsEnd (maskedText all) start stop = .ok ((stripDimensions cs.reverse).1, j) ∧
      Covers all ⟨start, j⟩ (stripDimensions cs.reverse).2.reverse := by
  induction hn : cs.length using Nat.strong_induction_on generalizing cs stop with
  | _ n ih =>
    by_cases hpair : EndsInBrackets cs
    · obtain ⟨front, a, b, rfl, hopen, hclose⟩ := hpair
      have hsplit : front ++ [a, b] = front ++ [a] ++ [b] := by simp
      have hfronthead : ∀ c ∈ front.head?, c.isBlank = false := by
        cases front with
        | nil => simp
        | cons c front => simpa using hhead
      -- each of the brackets is one octet
      obtain ⟨k, rfl, hoctet, hinit⟩ :=
        (hsplit ▸ h).concat_single (not_neutral_of_view hclose (by decide) (by decide))
      obtain ⟨m, rfl, hoctet', hfront⟩ := hinit.concat_single (not_neutral_of_view hopen (by decide) (by decide))
      rw [hclose] at hoctet
      rw [hopen] at hoctet'
      obtain ⟨⟨⟨start', stop⟩, _⟩, hr, htrimmed, hstart⟩ := hfront.trimRange_start hfronthead
      dsimp only at htrimmed hstart
      subst hstart
      have hlength : (trimCells front).length ≤ front.length := prefix_dropEnd.length_le.trans (length_dropBlank_le front)
      obtain ⟨j, hj, hcovers⟩ := ih (trimCells front).length (by rw [← hn]; simp; omega) htrimmed head?_trim
        getLast?_trim rfl
      obtain ⟨j', hj', hsame⟩ := dimensionsEnd_pair hfront.le hoctet' hoctet hr hj
      have hstrip : stripDimensions (front ++ [a, b]).reverse =
          ((stripDimensions (trimCells front).reverse).1 + 1, (stripDimensions (trimCells front).reverse).2) := by
        rw [stripDimensions_trimCells hfronthead, ← stripDimensions_pair hclose hopen, List.reverse_append]
        rfl
      rw [hstrip]
      exact ⟨j', hj', hsame ▸ hcovers⟩
    · rw [stripDimensions_none hlast hpair, List.reverse_reverse]
      exact ⟨_, h.dimensionsEnd_none hpair, h⟩

/-- The name at the end of cells, and the range before it. -/
theorem Covers.nameAtEnd (h : Covers all ⟨i, k⟩ cs) : ∃ j, Java.backWhile (maskedText all) isIdent i k = .ok j ∧
    textIn (maskedText all) ⟨j, k⟩ = .ok (views (cs.reverse.takeWhile Cell.isIdent).reverse) ∧
    Covers all ⟨i, j⟩ (cs.reverse.dropWhile Cell.isIdent).reverse := by
  obtain ⟨j, hj, hbefore, hname⟩ := h.backWhile asciiClass_isIdent
  have htext := hname.textIn_word (p := isIdent) (by decide) fun c hc =>
    List.mem_takeWhile_imp (p := fun c : Cell => isIdent c.view) (List.mem_reverse.1 hc)
  exact ⟨j, hj, htext, hbefore⟩

theorem Covers.typedName (h : Covers all s cs) : (Texts.of all).typedName s = .ok (typedName? cs) := by
  obtain ⟨⟨r, _⟩, hr, htrimmed, -⟩ := h.trimRange
  obtain ⟨stop, hstop, hrest⟩ := Covers.dimensionsEnd htrimmed head?_trim getLast?_trim
  rw [Texts.typedName, h.demand, Except.ok_bind, show (Texts.of all).masked = maskedText all from rfl, hr, Except.ok_bind]
  dsimp only at hstop ⊢
  rw [hstop, Except.ok_bind, typedName?]
  generalize stripDimensions (trimCells cs).reverse = stripped at hrest
  obtain ⟨dims, rest⟩ := stripped
  obtain ⟨⟨nameStart, _⟩, hname, htext, htype⟩ := hrest.nameAtEnd
  rw [List.reverse_reverse] at htext htype
  have hempty : (views (rest.takeWhile Cell.isIdent).reverse).isEmpty = (rest.takeWhile Cell.isIdent).reverse.isEmpty := by
    rw [views, List.isEmpty_map]
  have hdigit : (views (rest.takeWhile Cell.isIdent).reverse).head?.any isAsciiDigit =
      (rest.takeWhile Cell.isIdent).reverse.head?.any fun c => isAsciiDigit c.view := by
    rw [views, List.head?_map, Option.any_map]
  dsimp only at hname htype htext ⊢
  rw [hname, Except.ok_bind]
  dsimp only
  rw [htext, Except.ok_bind, show (Texts.of all).source = verbatim all from rfl, htype.textIn_source, Except.ok_bind,
    hempty, hdigit]
  split <;> rfl

/-! Parameters. -/

theorem Covers.parameter (hall : Balanced Cell.view all) (h : Covers all s cs) :
    (Texts.of all).parameter s = .ok (parameter? cs) := by
  obtain ⟨lead, hlead, hannotations, -, hrest, -⟩ := h.lead hall
  rw [Texts.parameter, hlead, Except.ok_bind, hrest.typedName, Except.ok_bind, hannotations]
  rfl

theorem mapM_reduceOption {α β γ : Type} {f : α → Checked (Option γ)} {g : β → Option γ} {R : α → β → Prop} {as : List α}
    {bs : List β} (h : List.Forall₂ R as bs) (hf : ∀ a b, R a b → f a = .ok (g b)) :
    (do return (← as.mapM f).reduceOption) = (.ok (bs.filterMap g) : Checked (List γ)) := by
  have hmap : as.mapM f = .ok (bs.map g) := by
    refine Except.mapM_of_forall₂ ?_
    rw [List.forall₂_map_right_iff]
    exact h.imp hf
  rw [hmap, Except.ok_bind, List.reduceOption, List.filterMap_map]
  rfl

theorem Covers.parameters (hall : Balanced Cell.view all) (h : Covers all s cs) :
    (Texts.of all).parameters s = .ok (parameters cs) := by
  obtain ⟨pieces, hpieces, hmatch⟩ := h.pieceRanges true not_neutral_comma
  rw [Texts.parameters, h.demand, Except.ok_bind, show (Texts.of all).masked = maskedText all from rfl, hpieces,
    Except.ok_bind]
  exact mapM_reduceOption hmatch fun s piece hs => hs.parameter hall

/-! Fields. -/

theorem assignmentFrom_eq_some {depth : Int} {before : Option Char} {as bs : List Cell}
    (h : assignmentFrom depth before cs = some (as, bs)) : ∃ sign, sign.view = '=' ∧ cs = as ++ sign :: bs := by
  induction cs generalizing depth before as with
  | nil => cases h
  | cons c cs ih =>
    rw [assignmentFrom] at h
    split at h
    · rename_i hc
      rw [Bool.and_eq_true, Bool.and_eq_true, decide_eq_true_eq] at hc
      obtain ⟨rfl, rfl⟩ := Prod.mk.inj (Option.some.inj h)
      exact ⟨c, hc.1.1, rfl⟩
    · obtain ⟨q, hq, heq⟩ := Option.map_eq_some_iff.1 h
      obtain ⟨rfl, rfl⟩ := Prod.mk.inj heq
      obtain ⟨sign, hsign, rfl⟩ := ih hq
      exact ⟨sign, hsign, rfl⟩

theorem Covers.declarator (h : Covers all s cs) :
    ∃ r, (Texts.of all).declarator s = .ok (r, (declarator cs).2) ∧ Covers all r (declarator cs).1 := by
  rw [Texts.declarator, show (Texts.of all).masked = maskedText all from rfl, h.textIn_masked, Except.ok_bind,
    assignmentIndex_maskedText, Java.declarator]
  cases hsplit : splitAssignment cs with
  | none =>
    obtain ⟨⟨r, _⟩, hr, htrimmed, -⟩ := h.trimRange
    dsimp only [Option.map_none]
    rw [hr, Except.ok_bind]
    exact ⟨r, rfl, htrimmed⟩
  | some parts =>
    obtain ⟨before, after⟩ := parts
    obtain ⟨sign, hsign, rfl⟩ := assignmentFrom_eq_some hsplit
    obtain ⟨start, stop⟩ := s
    obtain ⟨m, hbefore, hassigned⟩ := h.append
    have hneutral : ¬ Neutral sign.view := not_neutral_of_view hsign (by decide) (by decide)
    obtain ⟨-, -, hafter⟩ := hassigned.single hneutral
    have hm : m = start + width before := by
      rw [hbefore.stop_eq, width_eq, octetViews_maskedText]
    subst hm
    obtain ⟨⟨r, _⟩, hr, htrimmed, -⟩ := hbefore.trimRange
    dsimp only [Option.map_some]
    rw [hr, Except.ok_bind, show (Texts.of all).source = verbatim all from rfl, hafter.textIn_source]
    exact ⟨r, rfl, htrimmed⟩

theorem Covers.laterFields (template : FieldDeclaration) {ss : List Span} {pieces : List (List Cell)}
    (h : List.Forall₂ (Covers all) ss pieces) :
    (Texts.of all).laterFields template ss = .ok (laterFields template pieces) := by
  induction h with
  | nil => rfl
  | @cons s piece ss pieces hs _ ih =>
    obtain ⟨r, hr, hbefore⟩ := hs.declarator
    have hname := bareName?_maskedText (Java.declarator piece).1
    rw [Texts.laterFields, hr, Except.ok_bind, show (Texts.of all).masked = maskedText all from rfl]
    dsimp only
    rw [hbefore.textIn_masked, Except.ok_bind, Java.laterFields]
    dsimp only
    rw [← hname]
    split
    · rfl
    · rw [ih]
      rfl

theorem Covers.fields (hall : Balanced Cell.view all) (h : Covers all s cs) :
    (Texts.of all).fields s = .ok (fieldDeclarations cs) := by
  obtain ⟨lead, hlead, hannotations, hmodifiers, hrest, -⟩ := h.lead hall
  obtain ⟨ss, hss, hpieces⟩ := hrest.pieceRanges true not_neutral_comma
  rw [Texts.fields, hlead, Except.ok_bind, show (Texts.of all).source = verbatim all from rfl, h.textIn_source,
    Except.ok_bind, show (Texts.of all).masked = maskedText all from rfl, hss, Except.ok_bind, fieldDeclarations,
    hannotations, hmodifiers]
  generalize pieces Cell.view true ',' (preamble cs).rest = ps at hpieces
  cases hpieces with
  | nil => rfl
  | @cons s piece ss pieces hs hmore =>
    obtain ⟨r, hr, hbefore⟩ := hs.declarator
    dsimp only
    rw [hr, Except.ok_bind]
    dsimp only
    rw [hbefore.typedName, Except.ok_bind]
    cases typedName? (Java.declarator piece).1 with
    | none => rfl
    | some typed =>
      dsimp only
      rw [Covers.laterFields _ hmore]
      rfl

/-! Methods. -/

/-- The rest of a declaration is its end, and begins with no blank. -/
theorem ReadsLead.rest {lead : Preamble} (h : ReadsLead cs lead) :
    lead.rest <:+ cs ∧ ∀ c ∈ lead.rest.head?, c.isBlank = false := by
  induction h with
  | nothing => exact ⟨List.nil_suffix, by simp⟩
  | interface hd => exact ⟨hd ▸ dropBlank_suffix, by simpa using isBlank_head hd⟩
  | annotated hd _ _ _ ih =>
    exact ⟨ih.1.trans (skipArguments_suffix.trans ((List.dropWhile_suffix _).trans (suffix_of_dropBlank hd))), ih.2⟩
  | angles hd _ _ ih => exact ⟨ih.1.trans (skipAngles_suffix.trans (suffix_of_dropBlank hd)), ih.2⟩
  | modifier hd _ _ _ _ _ ih =>
    exact ⟨ih.1.trans ((List.dropWhile_suffix _).trans (suffix_of_dropBlank hd)), ih.2⟩
  | other hd => exact ⟨hd ▸ dropBlank_suffix, by simpa using isBlank_head hd⟩

/-- A parenthesis at the end of balanced cells has its partner there. -/
theorem Covers.partner_suffix {o : Cell} {rest : List Cell} (h : Covers all ⟨i, k⟩ (o :: rest)) (ho : o.view = '(')
    (hbalanced : Balanced Cell.view cs) (hsuffix : o :: rest <:+ cs) :
    ∃ inside after j, closing Cell.view '(' ')' 1 rest = some (inside, after) ∧
      partner? (maskedText all) i '(' ')' = some j ∧ Covers all ⟨i + 1, j⟩ inside ∧ Covers all ⟨j + 1, k⟩ after ∧
      Balanced Cell.view inside := by
  obtain ⟨front, rfl⟩ := hsuffix
  have hopen : closer? o.view = some ')' := by rw [ho]; rfl
  obtain ⟨inside, c, after, rfl, hinside, hc⟩ := hbalanced.exists_partner hopen
  have hpair : closer? o.view = some c.view := by rw [ho, hc]; rfl
  obtain ⟨j, hj, hin, -, hafter⟩ := h.partner_group hinside hpair
  have hclosing : closing Cell.view o.view c.view 1 (inside ++ c :: after) = some (inside, after) :=
    closing_balanced hinside hpair
  rw [ho, hc] at hj hclosing
  exact ⟨inside, after, j, hclosing, hj, hin, hafter, hinside⟩

theorem Covers.method (hall : Balanced Cell.view all) (h : Covers all s cs) (hbalanced : Balanced Cell.view cs)
    (body : Option Span) {text code : List Cell} (htext : Covers all ⟨s.start, (body.map (·.stop + 1)).getD s.stop⟩ text)
    (hcode : (Texts.of all).codeIn body = .ok (sourceText code)) (owner : String) :
    (Texts.of all).method owner s body = .ok (method? owner cs (sourceText text) (sourceText code)) := by
  obtain ⟨lead, hlead, hannotations, hmodifiers, hrest, -⟩ := h.lead hall
  obtain ⟨r, hr, hparted⟩ := hrest.parenthesisAt 0
  rw [Texts.method, hlead, Except.ok_bind, show (Texts.of all).masked = maskedText all from rfl, hr, Except.ok_bind,
    method?]
  cases r with
  | none =>
    cases hsplit : splitAtParen 0 (preamble cs).rest with
    | none => rfl
    | some parts => rw [hsplit] at hparted; exact hparted.elim
  | some open_ =>
    cases hsplit : splitAtParen 0 (preamble cs).rest with
    | none => rw [hsplit] at hparted; exact hparted.elim
    | some parts =>
      obtain ⟨before, rest⟩ := parts
      rw [hsplit] at hparted
      obtain ⟨hbefore, o, ho, heq, hopen⟩ := hparted
      have hsuffix : o :: rest <:+ cs := List.IsSuffix.trans ⟨before, heq.symm⟩ (readsLead cs).rest.1
      obtain ⟨inside, after, close, hclosing, hclose, hinside, -, -⟩ := hopen.partner_suffix ho hbalanced hsuffix
      have hhead : ∀ c ∈ before.head?, c.isBlank = false := fun c hc =>
        (readsLead cs).rest.2 c (by rw [heq, List.head?_append, Option.mem_def.1 hc]; rfl)
      obtain ⟨⟨b, _⟩, hb, htrimmed, hbstart⟩ := hbefore.trimRange_start hhead
      obtain ⟨⟨nameStart, _⟩, hstart, hname, hresult⟩ := htrimmed.nameAtEnd
      dsimp only at hb hbstart hstart hname hresult ⊢
      rw [hbstart] at hresult
      rw [hclose]
      dsimp only
      rw [hb, Except.ok_bind]
      dsimp only
      rw [hstart, Except.ok_bind]
      dsimp only
      rw [hname, Except.ok_bind, show (Texts.of all).source = verbatim all from rfl, hresult.textIn_source, Except.ok_bind,
        hinside.parameters hall, Except.ok_bind, htext.textIn_source, Except.ok_bind, hcode, Except.ok_bind, hannotations,
        hmodifiers]
      rw [show String.ofList (views ((trimCells before).reverse.takeWhile Cell.isIdent).reverse) =
        shownText ((trimCells before).reverse.takeWhile Cell.isIdent).reverse from rfl]
      simp only [hclosing, Option.bind_eq_bind, Option.bind_some]
      generalize shownText ((trimCells before).reverse.takeWhile Cell.isIdent).reverse = name
      generalize squeeze (verbatim ((trimCells before).reverse.dropWhile Cell.isIdent).reverse) = result
      -- a declaration without a result is a constructor of the owner
      cases name.isEmpty <;> cases result.isEmpty <;> by_cases howner : name = owner <;> simp [howner, guard] <;> rfl

end WireLayout.Java
