import WireLayout.Proofs.Java.MaskedOctets

/-! The line ends of a masked text. The mask shows a line end in code, in comments and in literals; what it hides is a
line end behind a backslash that escapes it, in a string, a character literal or a text block. -/

namespace WireLayout.Java

open WireLayout.Text

def Region.isLiteral : Region → Bool
  | .string | .character | .textBlock => true
  | .code | .lineComment | .blockComment => false

/-- The octet at a position is escaped: the one in front is a backslash that the mask meets inside a literal. -/
def EscapedAt (octets : List Char) (i : Nat) : Prop :=
  ∃ front rest region, octets = front ++ '\\' :: rest ∧ i = front.length + 1 ∧
    stateAt front ('\\' :: rest) = .inside region ∧ region.isLiteral = true

variable {text rest before octets : List Char} {state : MaskState} {c : Char} {i : Nat}

namespace MaskState

theorem HidesOne.after {part : List Char} (h : state.HidesOne (part ++ rest)) : (state.after part rest).HidesOne rest := by
  induction part generalizing state with
  | nil => exact h
  | cons c part ih => exact ih h.step

/-- A line end is hidden only where the mask passes over an escaped character. -/
theorem shown_lineEnd_iff (hfits : state.Fits ('\n' :: rest)) (hhides : state.HidesOne ('\n' :: rest)) :
    (state.step '\n' rest).1 = false ↔ ∃ region, state = .passing 0 false region ∧ region.isLiteral = true := by
  cases state with
  | inside region => cases region <;> simp [step, step.literal]
  | passing left shown region =>
    cases shown with
    | true => exact absurd (List.cons_prefix_cons.1 hfits.2).1 (by decide)
    | false =>
      obtain ⟨rfl, hmark⟩ := hhides
      have hliteral : region.isLiteral = true := by
        cases region <;> simp_all [Region.markEnd?, Region.isLiteral]
      exact iff_of_true rfl ⟨region, rfl, hliteral⟩

/-- The mask passes over a character of a literal behind a backslash. -/
theorem step_eq_passing_iff {region : Region} (hliteral : region.isLiteral = true) (hrest : rest ≠ [])
    (hhides : state.HidesOne (c :: rest)) :
    (state.step c rest).2 = .passing 0 false region ↔ state = .inside region ∧ c = '\\' := by
  have hempty : rest.isEmpty = false := by simpa using hrest
  cases state with
  | passing left shown inner =>
    cases left with
    | zero => simp [step]
    | succ left =>
      cases shown with
      | true => simp [step]
      | false => exact absurd hhides.1 (Nat.succ_ne_zero left)
  | inside inner =>
    cases inner <;> simp only [step, step.literal, hempty]
    all_goals grind [Region.isLiteral]

end MaskState

theorem hidesOne_stateAt (before rest : List Char) : (stateAt before rest).HidesOne rest :=
  MaskState.HidesOne.after (show (MaskState.inside .code).HidesOne (before ++ rest) from trivial)

/-! Places among octets. -/

theorem getElem?_views_cells (before : List Char) (c : Char) (rest : List Char) :
    (views (cells (before ++ c :: rest)))[before.length]? = some (cellAt before c rest).view := by
  obtain ⟨cs, rfl, hcells⟩ := cellsFrom_append_after (.inside .code) before (c :: rest)
  rw [cells, hcells, verbatim, List.length_map, views, List.getElem?_map, List.getElem?_append_right le_rfl, Nat.sub_self]
  rfl

theorem escapedAt_iff (hrest : rest ≠ []) : EscapedAt (before ++ rest) before.length ↔
    ∃ region, stateAt before rest = .passing 0 false region ∧ region.isLiteral = true := by
  obtain rfl | ⟨front, c, rfl⟩ := before.eq_nil_or_concat'
  · refine iff_of_false ?_ ?_
    · rintro ⟨front, more, region, -, hlength, -⟩
      exact absurd hlength (Nat.succ_ne_zero front.length).symm
    · rintro ⟨region, hstate, -⟩
      cases hstate
  · have hstate : stateAt (front ++ [c]) rest = ((stateAt front (c :: rest)).step c rest).2 := stateAt_append
    have hlength : (front ++ [c]).length = front.length + 1 := by simp
    rw [hstate, hlength, List.append_assoc, List.singleton_append]
    constructor
    · rintro ⟨front', more, region, htext, hfront, hinside, hliteral⟩
      obtain ⟨rfl, hmore⟩ := List.append_inj htext (by omega)
      obtain ⟨rfl, rfl⟩ := List.cons.inj hmore
      refine ⟨region, ?_, hliteral⟩
      exact (MaskState.step_eq_passing_iff hliteral hrest (hidesOne_stateAt front _)).2 ⟨hinside, rfl⟩
    · rintro ⟨region, hpassing, hliteral⟩
      obtain ⟨hinside, rfl⟩ :=
        (MaskState.step_eq_passing_iff hliteral hrest (hidesOne_stateAt front _)).1 hpassing
      exact ⟨front, rest, region, rfl, rfl, hinside, hliteral⟩

/-- The mask shows the line ends that are not escaped, and no others. -/
theorem getElem?_views_eq_lineEnd_iff (octets : List Char) (i : Nat) :
    (views (cells octets))[i]? = some '\n' ↔ octets[i]? = some '\n' ∧ ¬ EscapedAt octets i := by
  by_cases hi : i < octets.length
  · have hparts : octets.take i ++ octets[i] :: octets.drop (i + 1) = octets := by
      rw [List.getElem_cons_drop, List.take_append_drop]
    have hlength : (octets.take i).length = i := List.length_take_of_le hi.le
    have hview := getElem?_views_cells (octets.take i) octets[i] (octets.drop (i + 1))
    have hescaped : EscapedAt (octets.take i ++ octets[i] :: octets.drop (i + 1)) (octets.take i).length ↔ _ :=
      escapedAt_iff (List.cons_ne_nil _ _)
    rw [hparts, hlength] at hview hescaped
    rw [hview, hescaped, List.getElem?_eq_getElem hi, Option.some.injEq, Option.some.injEq]
    generalize octets.take i = before at *
    generalize octets.drop (i + 1) = rest at *
    generalize octets[i] = c at *
    by_cases hc : c = '\n'
    · subst hc
      rw [← MaskState.shown_lineEnd_iff (fits_stateAt before _) (hidesOne_stateAt before _), Bool.not_eq_false,
        Cell.view, cellAt]
      cases ((stateAt before ('\n' :: rest)).step '\n' rest).1 <;> simp
    · refine iff_of_false ?_ fun h => hc h.1
      rw [Cell.view]
      split
      · exact hc
      · decide
  · have hnone : octets[i]? = none := List.getElem?_eq_none (Nat.le_of_not_lt hi)
    have hviews : (views (cells octets))[i]? = none := by
      apply List.getElem?_eq_none
      rw [views, List.length_map, cells, length_cellsFrom]
      omega
    rw [hnone, hviews]
    simp

theorem getElem?_octetViews_eq_lineEnd_iff (text : List Char) (i : Nat) :
    (octetViews text)[i]? = some '\n' ↔ (utf8 text)[i]? = some 0x0A := by
  rw [octetViews, List.getElem?_map]
  constructor
  · intro h
    obtain ⟨b, hb, hview⟩ := Option.map_eq_some_iff.1 h
    rw [hb, ← toOctet b, hview]
    rfl
  · intro h
    rw [h]
    rfl

/-- The masked text has a line end at each octet where the text has one, unless it is escaped in a literal. -/
theorem lineEnds_of_mask (text : List Char) (i : Nat) :
    (utf8 (mask text))[i]? = some 0x0A ↔ (utf8 text)[i]? = some 0x0A ∧ ¬ EscapedAt (octetViews text) i := by
  rw [← getElem?_octetViews_eq_lineEnd_iff, ← getElem?_octetViews_eq_lineEnd_iff, ← views_cells_octetViews]
  exact getElem?_views_eq_lineEnd_iff (octetViews text) i

/-- A text block that goes on behind an escaped line end has none in the masked text. -/
theorem lineEnd_lost_continuation : ¬ ∀ (text : List Char) (i : Nat),
    (utf8 (mask text))[i]? = some 0x0A ↔ (utf8 text)[i]? = some 0x0A := by
  intro h
  have hlost := h "\"\"\"a\\\nb\"\"\"".toList 5
  revert hlost
  decide

end WireLayout.Java
