import WireLayout.Proofs.Java.Ranges.Refinement
import WireLayout.Proofs.Routine.Ranges.Forms
import WireLayout.Proofs.Routine.Ranges.Scan

/-! Calls, numbers and parameters by positions. A position that is found in the masked text of cells lies between cells,
so that what is cut out there is the masked text of some of them; numbers are cut behind a zero. Only the name of a
parameter is cut at a position that may lie within a character. -/

namespace WireLayout

namespace Java

open WireLayout.Text

variable {all cs xs : List Cell} {c : Cell} {i : Nat} {opener closer : Char}

/-! Ends of a text. -/

theorem octetCount_maskedText (cs : List Cell) : octetCount (maskedText cs) = width cs := (width_eq cs).symm

theorem Covers.textFrom (h : Covers all ⟨i, width all⟩ xs) : textFrom (maskedText all) i = .ok (maskedText xs) := by
  rw [Java.textFrom, octetCount_maskedText]
  exact h.textIn_masked

theorem textFrom_append (as bs : List Char) : textFrom (as ++ bs) (octetCount as) = .ok bs := by
  have hcut := textIn_eq as bs []
  rw [List.append_nil] at hcut
  rw [Java.textFrom, octetCount, octetCount, octetViews_append, List.length_append]
  exact hcut

theorem textFrom_suffix (h : xs <:+ cs) : textFrom (maskedText cs) (width cs - width xs) = .ok (maskedText xs) := by
  have hcovers := (Covers.whole cs).suffix h
  rw [Nat.zero_add] at hcovers
  exact hcovers.textFrom

/-! Partners of brackets in what cells show. -/

theorem closing_map {α β : Type} {view : β → Char} (f : α → β) (depth : Nat) (xs : List α) :
    closing view opener closer depth (xs.map f) =
      (closing (view ∘ f) opener closer depth xs).map fun p => (p.1.map f, p.2.map f) := by
  induction xs generalizing depth with
  | nil => rfl
  | cons x xs ih =>
    rw [List.map_cons, closing, closing, ih, ih, ih, Function.comp_apply]
    split
    · simp [Option.map_map, Function.comp_def]
    · split
      · split
        · rfl
        · simp [Option.map_map, Function.comp_def]
      · simp [Option.map_map, Function.comp_def]

theorem closing_views (depth : Nat) (cs : List Cell) : closing id opener closer depth (views cs) =
    (closing Cell.view opener closer depth cs).map fun p => (views p.1, views p.2) :=
  closing_map Cell.view depth cs

theorem part_of_covers {ranges : List Span} {parts : List (List Cell)} (h : List.Forall₂ (Covers all) ranges parts) :
    ∀ part ∈ parts, part <:+: all := by
  induction h with
  | nil => simp
  | cons hpart _ ih =>
    intro part hmem
    rcases List.mem_cons.1 hmem with rfl | hmem
    · obtain ⟨before, after, hall, -⟩ := hpart
      exact ⟨before, after, by rw [hall, List.append_assoc]⟩
    · exact ih part hmem

end Java

namespace Routine

open WireLayout.Java WireLayout.Text

/-! Calls. -/

structure CallCells where
  receiver : Option (List Char)
  arguments : List (List Cell)
  after : List Cell

def CallCells.shown (call : CallCells) : Call := ⟨call.receiver, call.arguments.map views, views call.after⟩

/-- The call in the masked text of cells that end with it and what follows. -/
def CallCells.placed (call : CallCells) (cs : List Cell) : CallIn :=
  ⟨call.receiver, call.arguments.map maskedText, width cs - width call.after⟩

structure CallCells.Within (call : CallCells) (cs : List Cell) : Prop where
  arguments : ∀ argument ∈ call.arguments, argument <:+: cs
  after : call.after <:+ cs

theorem pieces_views (cs : List Cell) :
    pieces id false ',' (views cs) = (pieces Cell.view false ',' cs).map views := by
  have hmap : piecesFrom id false ',' 0 [] (cs.map Cell.view) =
      (piecesFrom Cell.view false ',' 0 [] cs).map (List.map Cell.view) := piecesFrom_map false ',' 0 [] cs
  exact hmap

theorem not_neutral_closing : ¬ Neutral ')' := not_neutral (by decide) (by decide)

/-- The first call of a name is found at positions as it is found in what the cells show. -/
theorem findCallIn_maskedText (name : String) (cs : List Cell) : ∃ found : Option CallCells,
    findCall name (views cs) = found.map CallCells.shown ∧
      findCallIn name (maskedText cs) = .ok (found.map (·.placed cs)) ∧ ∀ call ∈ found, call.Within cs := by
  obtain ⟨o, hviews, hmasked, hparen⟩ := find?_callHead? name.toList cs
  rw [findCall, findCallIn, hviews, hmasked]
  cases o with
  | none => exact ⟨none, rfl, rfl, by simp⟩
  | some head =>
    obtain ⟨⟨receiver, called⟩, rest⟩ := head
    obtain ⟨front, paren, hcs, hview⟩ : ∃ front paren, cs = front ++ paren :: rest ∧ paren.view = '(' := hparen _ rfl
    have hneutral : ¬ Neutral paren.view := hview ▸ not_neutral (by decide) (by decide)
    have hwhole : Covers cs ⟨0, width cs⟩ (front ++ paren :: rest) := hcs ▸ Covers.whole cs
    obtain ⟨i, -, hrest⟩ := hwhole.append
    have hopening : octetCount (maskedText cs) - octetCount (maskedText rest) - 1 = i := by
      have hstop := (hrest.single hneutral).2.2.stop_eq
      rw [← octetViews_maskedText, ← width_eq] at hstop
      rw [octetCount_maskedText, octetCount_maskedText]
      omega
    obtain ⟨hnone, hsome⟩ := hrest.partner_eq hneutral (not_neutral_closing : ¬ Neutral ')')
    rw [hview] at hnone hsome
    subst hopening
    simp only [Option.map_some, CallHead.ofParts, Option.bind_eq_bind, Option.bind_some, closing_views]
    cases hclosing : closing Cell.view '(' ')' 1 rest with
    | none =>
      rw [hnone hclosing]
      exact ⟨none, rfl, rfl, by simp⟩
    | some parts =>
      obtain ⟨inside, after⟩ := parts
      obtain ⟨close, hclose, paren', hsplit, -, hinside, -, hafter⟩ := hsome inside after hclosing
      obtain ⟨ranges, hranges, hpieces⟩ := hinside.pieceRanges false not_neutral_comma
      have harguments : ranges.mapM (textIn (maskedText cs)) = .ok ((pieces Cell.view false ',' inside).map maskedText) := by
        refine Except.mapM_of_forall₂ ?_
        rw [List.forall₂_map_right_iff]
        exact hpieces.imp fun s piece hpiece => hpiece.textIn_masked
      have hsuffix : after <:+ cs := by
        rw [hcs, hsplit]
        exact ⟨front ++ paren :: (inside ++ [paren']), by simp⟩
      have hstop : close.1 + 1 = width cs - width after := by
        have hend := hafter.stop_eq
        rw [← octetViews_maskedText, ← width_eq] at hend
        omega
      rw [hclose]
      dsimp only
      rw [hranges, Except.ok_bind, harguments, Except.ok_bind, hstop]
      refine ⟨some ⟨receiver, pieces Cell.view false ',' inside, after⟩, ?_, ?_, ?_⟩
      · simp [CallCells.shown, arguments, pieces_views]
      · rfl
      · rintro call ⟨rfl⟩
        exact ⟨fun a ha => part_of_covers hpieces a ha, hsuffix⟩

theorem CallCells.Within.textFrom {call : CallCells} {cs : List Cell} (h : call.Within cs) :
    textFrom (maskedText cs) (call.placed cs).stop = .ok (maskedText call.after) := textFrom_suffix h.after

/-! Numbers. -/

theorem magnitudeIn_eq (cs : List Char) : magnitudeIn cs = .ok (IntLiteral.magnitude? cs) := by
  unfold magnitudeIn
  split
  · rename_i c cs
    split
    · rfl
    · rename_i hmark
      have hzero : ∀ m ∈ IntLiteral.baseMarks, c ≠ m.2 := by
        simp only [Bool.or_eq_true, decide_eq_true_eq, not_or] at hmark
        simp [IntLiteral.baseMarks, hmark]
      have hcut : textFrom ('0' :: c :: cs) 1 = .ok (c :: cs) := textFrom_append ['0'] (c :: cs)
      rw [hcut, IntLiteral.magnitude?_zero hzero]
      rfl
  · rfl

theorem literalIn_eq (cs : List Char) : literalIn cs = .ok (IntLiteral.read? cs) := by
  rw [literalIn, IntLiteral.read?]
  generalize trim isSpace cs = trimmed
  split
  · rw [magnitudeIn_eq]
    rfl
  · exact (magnitudeIn_eq _).trans rfl
  · refine (magnitudeIn_eq _).trans ?_
    simp

theorem wordIn_eq (cs : List Char) : wordIn cs = .ok ((IntLiteral.read? cs).bind word?) := by
  rw [wordIn, literalIn_eq]
  rfl

/-! Parameters. -/

@[simp] theorem octetCount_append (as bs : List Char) : octetCount (as ++ bs) = octetCount as + octetCount bs := by
  rw [octetCount, octetViews_append, List.length_append, ← octetCount, ← octetCount]

theorem octetCount_singleton (c : Char) : octetCount [c] = c.utf8Size := length_octetViews_singleton c

theorem octetCount_cons_pos (c : Char) (cs : List Char) : 0 < octetCount (c :: cs) := by
  have hpos := c.utf8Size_pos
  rw [← List.singleton_append, octetCount_append, octetCount_singleton]
  omega

/-- A text is cut behind a part of it where the rest of it can be cut. -/
theorem splitOctets?_add (as bs : List Char) (n : Nat) :
    splitOctets? (octetCount as + n) (as ++ bs) = (splitOctets? n bs).map fun p => (as ++ p.1, p.2) := by
  induction as with
  | nil =>
    have hzero : octetCount [] + n = n := Nat.zero_add n
    simp [hzero]
  | cons c as ih =>
    have hpos := c.utf8Size_pos
    have hcount : octetCount (c :: as) + n = (octetCount as + n + (c.utf8Size - 1)) + 1 := by
      rw [← List.singleton_append, octetCount_append, octetCount_singleton]
      omega
    have hrest : octetCount as + n + (c.utf8Size - 1) + 1 - c.utf8Size = octetCount as + n := by omega
    rw [hcount, List.cons_append, splitOctets?, if_pos (by omega), hrest, ih, Option.map_map]
    rfl

/-- A text cannot be cut one octet behind the beginning of a longer character. -/
theorem textFrom_within (as bs : List Char) {c : Char} (hc : c.utf8Size ≠ 1) :
    ∃ fault, textFrom (as ++ c :: bs) (octetCount as + 1) = .error fault := by
  have hpos := c.utf8Size_pos
  have hsplit : splitOctets? (octetCount as + 1) (as ++ c :: bs) = none := by
    rw [splitOctets?_add, splitOctets?, if_neg (by omega)]
    rfl
  rw [textFrom, textIn, part?, hsplit]
  simp [guard]

/-- The name of a parameter is cut off without a fault just if it does not begin within a character. -/
theorem parameterNameIn_toOption (argument : List Char) :
    (parameterNameIn argument).toOption = (parameterName argument).toOption := by
  rw [parameterNameIn, parameterName_eq]
  generalize trim isSpace argument = trimmed
  have hsplit : dropEnd isIdent trimmed ++ (trimmed.reverse.takeWhile isIdent).reverse = trimmed := by
    rw [dropEnd, ← List.reverse_append, List.takeWhile_append_dropWhile, List.reverse_reverse]
  generalize (trimmed.reverse.takeWhile isIdent).reverse = name at hsplit ⊢
  have hcut : ∀ front : List Char, front ++ name = trimmed →
      (if octetCount front < octetCount trimmed then some <$> textFrom trimmed (octetCount front) else return none) =
        (.ok (if name.isEmpty then none else some name) : Checked (Option (List Char))) := by
    rintro front rfl
    cases name with
    | nil => simp [octetCount, pure, Except.pure]
    | cons x name =>
      have hlt := octetCount_cons_pos x name
      rw [if_pos (by rw [octetCount_append]; omega), textFrom_append]
      rfl
  rcases List.eq_nil_or_concat (dropEnd isIdent trimmed) with hnil | ⟨front, c, hfront⟩
  · rw [hnil] at hsplit
    rw [hnil]
    exact congrArg Except.toOption (hcut [] hsplit)
  · rw [List.concat_eq_append] at hfront
    rw [hfront] at hsplit
    have hstart : nameStart (front ++ [c]) = octetCount front + 1 := by simp [nameStart]
    rw [hfront, hstart, List.getLast?_concat]
    by_cases hc : c.utf8Size = 1
    · have hcount : octetCount front + 1 = octetCount (front ++ [c]) := by
        rw [octetCount_append, octetCount_singleton, hc]
      rw [hcount, hcut _ hsplit]
      simp only [hc, ne_eq, not_true_eq_false, if_false]
      rfl
    · obtain ⟨fault, hfault⟩ := textFrom_within front name hc
      have hpos := c.utf8Size_pos
      have hlt : octetCount front + 1 < octetCount trimmed := by
        rw [← hsplit, octetCount_append, octetCount_append, octetCount_singleton]
        omega
      have htext : trimmed = front ++ c :: name := by rw [← hsplit, List.append_assoc, List.singleton_append]
      rw [if_pos hlt, htext, hfault]
      simp [hc, Except.toOption]

end Routine

end WireLayout
