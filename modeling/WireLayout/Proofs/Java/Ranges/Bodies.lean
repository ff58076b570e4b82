import WireLayout.Proofs.Java.Ranges.Members

/-! Bodies read by positions: their segments, the constants of an enum, and the members that a segment declares. The
cells of a body are balanced, so the partner of each bracket lies in the body, and what is cut between brackets is
balanced again. -/

namespace WireLayout.Java

open WireLayout.Text

variable {all cs : List Cell} {c : Cell} {i k start stop : Nat} {s : Span}

/-! Segments. -/

/-- A segment that is read at a range. The cells of a block are its header, the brackets, and the body between them. -/
inductive SegmentRange.Matches (all : List Cell) : SegmentRange → Segment → Prop where
  | statement {s : Span} {cs : List Cell} (h : Covers all s cs) (hbalanced : Balanced Cell.view cs) :
    Matches all (.statement s) (.statement cs)
  | block {header body : Span} {hs bs : List Cell} {o c : Cell} (hheader : Covers all header hs)
      (hbody : Covers all body bs) (hbraces : Covers all ⟨header.stop, body.stop + 1⟩ (o :: (bs ++ [c])))
      (ho : o.view = '{') (hc : c.view = '}') (hhs : Balanced Cell.view hs) (hbs : Balanced Cell.view bs) :
    Matches all (.block header body) (.block hs bs)

theorem closer?_brace {o : Char} (ho : o = '{') : closer? o = some '}' := by rw [ho]; rfl

theorem segmentRangesFrom_plain {text : List Char} {x : Char} (hi : i < stop) (hx : octetAt text i = .ok x)
    (hsemicolon : x ≠ ';') (hopen : closer? x = none) :
    segmentRangesFrom text start i stop = segmentRangesFrom text start (i + 1) stop := by
  rw [Java.segmentRangesFrom, if_pos hi, hx, Except.ok_bind, if_neg hsemicolon, hopen]

/-- The reader cuts these segments from a position on, the current one of which began before. -/
def SegmentsAt (all : List Cell) (start i stop : Nat) (segments : List Segment) : Prop :=
  ∃ rs, segmentRangesFrom (maskedText all) start i stop = .ok rs ∧ List.Forall₂ (SegmentRange.Matches all) rs segments

section

variable {o : Cell} {read inside rest : List Cell} {more : List Segment}

theorem segmentsAt_nil : SegmentsAt all start stop stop [] := by
  rw [SegmentsAt, Java.segmentRangesFrom, if_neg (lt_irrefl _)]
  exact ⟨[], rfl, .nil⟩

theorem Covers.segmentsAt_statement (hread : Covers all ⟨start, i⟩ read.reverse)
    (hreadBalanced : Balanced Cell.view read.reverse) (h : Covers all ⟨i, stop⟩ (c :: cs)) (hc : c.view = ';')
    (hmore : SegmentsAt all (i + 1) (i + 1) stop more) :
    SegmentsAt all start i stop (.statement read.reverse :: more) := by
  have hoctet := (h.single (not_neutral_of_view hc (by decide) (by decide))).1
  obtain ⟨rs, hrs, hmatch⟩ := hmore
  rw [SegmentsAt, Java.segmentRangesFrom, if_pos (h.lt_iff.2 (List.cons_ne_nil c cs)), hoctet, Except.ok_bind, if_pos hc,
    hrs, Except.ok_bind]
  exact ⟨_, rfl, .cons (.statement hread hreadBalanced) hmatch⟩

theorem isSome_assignmentIndex (cs : List Cell) :
    (assignmentIndex (maskedText cs)).isSome = (splitAssignment cs).isSome := by
  rw [assignmentIndex_maskedText, Option.isSome_map]

/-- A brace and its partner end a segment, unless they are assigned. -/
theorem Covers.segmentsAt_block {j : Nat} {hlt : i < j} (hread : Covers all ⟨start, i⟩ read.reverse)
    (hreadBalanced : Balanced Cell.view read.reverse) (h : Covers all ⟨i, stop⟩ (o :: cs)) (ho : o.view = '{')
    (hassigned : splitAssignment read.reverse = none) (hpartner : partner? (maskedText all) i '{' '}' = some ⟨j, hlt⟩)
    (hin : Covers all ⟨i + 1, j⟩ inside) (hinside : Balanced Cell.view inside) (hc : c.view = '}')
    (hbraces : Covers all ⟨i, j + 1⟩ (o :: (inside ++ [c]))) (hmore : SegmentsAt all (j + 1) (j + 1) stop more) :
    SegmentsAt all start i stop (.block read.reverse inside :: more) := by
  have hoctet := (h.single (not_neutral_of_view ho (by decide) (by decide))).1
  obtain ⟨rs, hrs, hmatch⟩ := hmore
  rw [SegmentsAt, Java.segmentRangesFrom, if_pos (h.lt_iff.2 (List.cons_ne_nil o cs)), hoctet, Except.ok_bind, ho,
    if_neg (by decide), closer?_brace rfl]
  dsimp only
  rw [hpartner]
  dsimp only
  rw [if_pos rfl, hread.textIn_masked, Except.ok_bind, isSome_assignmentIndex, hassigned, if_neg (by simp), hrs,
    Except.ok_bind]
  exact ⟨_, rfl, .cons (.block hread hin hbraces ho hc hreadBalanced hinside) hmatch⟩

/-- Other brackets belong to the current segment, with what is between them. -/
theorem Covers.segmentsAt_group {j : Nat} {hlt : i < j} (hread : Covers all ⟨start, i⟩ read.reverse)
    (h : Covers all ⟨i, stop⟩ (o :: cs)) (hpair : closer? o.view = some c.view)
    (hassigned : o.view = '{' → (splitAssignment read.reverse).isSome)
    (hpartner : partner? (maskedText all) i o.view c.view = some ⟨j, hlt⟩) (hmore : SegmentsAt all start (j + 1) stop more) :
    SegmentsAt all start i stop more := by
  have hoctet := (h.single (not_neutral_opener hpair).1).1
  have hsemicolon : o.view ≠ ';' := fun heq => by rw [heq] at hpair; cases hpair
  obtain ⟨rs, hrs, hmatch⟩ := hmore
  refine ⟨rs, ?_, hmatch⟩
  rw [Java.segmentRangesFrom, if_pos (h.lt_iff.2 (List.cons_ne_nil o cs)), hoctet, Except.ok_bind, if_neg hsemicolon, hpair]
  dsimp only
  rw [hpartner]
  dsimp only
  by_cases hbrace : o.view = '{'
  · rw [if_pos hbrace, hread.textIn_masked, Except.ok_bind, isSome_assignmentIndex, if_pos (hassigned hbrace), hrs]
  · rw [if_neg hbrace, hrs]

end

/-- By induction on the brackets of the cells; what has been read since the last segment is balanced too. -/
theorem Covers.segmentRangesFrom {read : List Cell} (hread : Covers all ⟨start, i⟩ read.reverse)
    (hreadBalanced : Balanced Cell.view read.reverse) (h : Covers all ⟨i, stop⟩ cs) (hcs : Balanced Cell.view cs) :
    SegmentsAt all start i stop (segmentsFrom read (items Cell.view closer? cs)) := by
  induction hcs generalizing i start read with
  | nil =>
    obtain rfl := h.nil_stop
    exact segmentsAt_nil
  | @plain c cs hopen hclose _ ih =>
    have hread' : Balanced Cell.view (c :: read).reverse := by
      rw [List.reverse_cons]
      exact hreadBalanced.append (.plain hopen hclose .nil)
    rw [items_plain hopen, segmentsFrom]
    by_cases hneutral : Neutral c.view
    · obtain ⟨j, hhead, htail, hpass⟩ := h.pass hneutral
        (F := fun i => Java.segmentRangesFrom (maskedText all) start i stop) fun i x hi hx hneutral =>
          segmentRangesFrom_plain hi hx (hneutral.ne (by decide) (by decide)) hneutral.plain.1
      rw [SegmentsAt, hpass, if_neg (hneutral.ne (by decide) (by decide))]
      exact ih (by simpa using hread.join hhead) hread' htail
    · obtain ⟨hoctet, hhead, htail⟩ := h.single hneutral
      by_cases hsemicolon : c.view = ';'
      · have hnone : Covers all ⟨i + 1, i + 1⟩ ([] : List Cell).reverse := htail.start
        rw [if_pos hsemicolon]
        exact hread.segmentsAt_statement hreadBalanced h hsemicolon (ih hnone .nil htail)
      · rw [if_neg hsemicolon, SegmentsAt,
          segmentRangesFrom_plain (h.lt_iff.2 (List.cons_ne_nil c cs)) hoctet hsemicolon hopen]
        exact ih (by simpa using hread.join hhead) hread' htail
  | @group o c inside rest hpair hinside _ _ ih =>
    obtain ⟨⟨j, hlt⟩, hj, hin, hclose, hrest⟩ := h.partner_group hinside hpair
    have hbraces : Covers all ⟨i, j + 1⟩ (o :: (inside ++ [c])) :=
      ((h.single (not_neutral_opener hpair).1).2.1).join (hin.join hclose)
    have hread' : (c :: (inside.reverse ++ o :: read)).reverse = read.reverse ++ o :: (inside ++ [c]) := by simp
    rw [items_group hinside hpair, segmentsFrom]
    by_cases hblock : o.view = '{' ∧ splitAssignment read.reverse = none
    · obtain ⟨ho, hassigned⟩ := hblock
      have hc : c.view = '}' := by
        rw [closer?_brace ho] at hpair
        exact (Option.some.inj hpair).symm
      rw [ho, hc] at hj
      have hnone : Covers all ⟨j + 1, j + 1⟩ ([] : List Cell).reverse := hrest.start
      rw [if_pos (by simp [ho, hassigned])]
      exact hread.segmentsAt_block hreadBalanced h ho hassigned hj hin hinside hc hbraces (ih hnone .nil hrest)
    · rw [if_neg (by simpa using hblock)]
      refine hread.segmentsAt_group h hpair (fun ho => ?_) hj (ih ?_ ?_ hrest)
      · exact Option.isSome_iff_ne_none.2 fun hassigned => hblock ⟨ho, hassigned⟩
      · rw [hread']
        exact hread.join hbraces
      · rw [hread']
        exact hreadBalanced.append (.group hpair hinside .nil)

theorem Covers.segmentRanges (h : Covers all s cs) (hcs : Balanced Cell.view cs) :
    ∃ rs, (Texts.of all).segmentRanges s = .ok rs ∧ List.Forall₂ (SegmentRange.Matches all) rs (segments cs) := by
  rw [Texts.segmentRanges, h.demand, Except.ok_bind]
  have hnone : Covers all ⟨s.start, s.start⟩ ([] : List Cell).reverse := h.start
  exact hnone.segmentRangesFrom .nil h hcs

/-! Constants. -/

theorem constantsEndFrom_plain {text : List Char} {x : Char} (hi : i < stop) (hx : octetAt text i = .ok x)
    (hsemicolon : x ≠ ';') (hopen : closer? x = none) :
    Subtype.val <$> constantsEndFrom text i stop = Subtype.val <$> constantsEndFrom text (i + 1) stop := by
  rw [Java.constantsEndFrom, if_pos hi, hx, Except.ok_bind, if_neg hsemicolon, hopen]
  dsimp only
  cases constantsEndFrom text (i + 1) stop <;> rfl

/-- Where the constants of an enum end, in terms of the cells of its body. -/
structure ConstantsEnd (all : List Cell) (i stop : Nat) (cs : List Cell) (j : Nat) : Prop where
  constants : Covers all ⟨i, j⟩ (splitConstants (items Cell.view closer? cs)).1
  members : Covers all ⟨min (j + 1) stop, stop⟩ (splitConstants (items Cell.view closer? cs)).2
  balanced : Balanced Cell.view (splitConstants (items Cell.view closer? cs)).1
  balanced_members : Balanced Cell.view (splitConstants (items Cell.view closer? cs)).2

section

variable {inside rest : List Cell} {o : Cell} {j n : Nat}

theorem Covers.constantsEnd_nil (h : Covers all ⟨stop, stop⟩ []) : ConstantsEnd all stop stop [] stop := by
  refine ⟨h, ?_, .nil, .nil⟩
  rw [Nat.min_eq_right (Nat.le_succ stop)]
  exact h

/-- The constants end at the first semicolon outside brackets. -/
theorem Covers.constantsEnd_semicolon (hc : c.view = ';') (hcs : Balanced Cell.view cs) (h : Covers all ⟨i, stop⟩ (c :: cs)) :
    ConstantsEnd all i stop (c :: cs) i := by
  have hsplit : splitConstants (items Cell.view closer? (c :: cs)) = ([], cs) := by
    rw [items_plain (by rw [hc]; rfl), splitConstants, if_pos hc, elements_items hcs]
  obtain ⟨-, -, htail⟩ := h.single (not_neutral_of_view hc (by decide) (by decide))
  constructor <;> rw [hsplit]
  · exact h.start
  · rw [Nat.min_eq_left htail.le]
    exact htail
  · exact .nil
  · exact hcs

theorem ConstantsEnd.plain (h : ConstantsEnd all j stop cs n) (hopen : closer? c.view = none)
    (hclose : isCloser c.view = false) (hsemicolon : c.view ≠ ';') (hhead : Covers all ⟨i, j⟩ [c]) :
    ConstantsEnd all i stop (c :: cs) n := by
  have hsplit : splitConstants (items Cell.view closer? (c :: cs)) =
      (c :: (splitConstants (items Cell.view closer? cs)).1, (splitConstants (items Cell.view closer? cs)).2) := by
    rw [items_plain hopen, splitConstants, if_neg hsemicolon]
  constructor <;> rw [hsplit]
  · exact hhead.join h.constants
  · exact h.members
  · exact .plain hopen hclose h.balanced
  · exact h.balanced_members

theorem ConstantsEnd.group (h : ConstantsEnd all j stop rest n) (hpair : closer? o.view = some c.view)
    (hinside : Balanced Cell.view inside) (hbrackets : Covers all ⟨i, j⟩ (o :: (inside ++ [c]))) :
    ConstantsEnd all i stop (o :: (inside ++ c :: rest)) n := by
  have hsplit : splitConstants (items Cell.view closer? (o :: (inside ++ c :: rest))) =
      (o :: (inside ++ [c]) ++ (splitConstants (items Cell.view closer? rest)).1,
        (splitConstants (items Cell.view closer? rest)).2) := by
    rw [items_group hinside hpair, splitConstants]
    simp
  constructor <;> rw [hsplit]
  · exact hbrackets.join h.constants
  · exact h.members
  · exact (Balanced.group hpair hinside .nil).append h.balanced
  · exact h.balanced_members

theorem Covers.constantsEndFrom_semicolon (h : Covers all ⟨i, stop⟩ (c :: cs)) (hc : c.view = ';') :
    Subtype.val <$> Java.constantsEndFrom (maskedText all) i stop = .ok i := by
  rw [Java.constantsEndFrom, if_pos (h.lt_iff.2 (List.cons_ne_nil c cs)),
    (h.single (not_neutral_of_view hc (by decide) (by decide))).1, Except.ok_bind, if_pos hc]
  rfl

theorem Covers.constantsEndFrom_group {hlt : i < j} (h : Covers all ⟨i, stop⟩ (o :: cs))
    (hpair : closer? o.view = some c.view) (hpartner : partner? (maskedText all) i o.view c.view = some ⟨j, hlt⟩) :
    Subtype.val <$> Java.constantsEndFrom (maskedText all) i stop =
      Subtype.val <$> Java.constantsEndFrom (maskedText all) (j + 1) stop := by
  have hsemicolon : o.view ≠ ';' := fun heq => by rw [heq] at hpair; cases hpair
  rw [Java.constantsEndFrom, if_pos (h.lt_iff.2 (List.cons_ne_nil o cs)), (h.single (not_neutral_opener hpair).1).1,
    Except.ok_bind, if_neg hsemicolon, hpair]
  dsimp only
  rw [hpartner]
  dsimp only
  cases Java.constantsEndFrom (maskedText all) (j + 1) stop <;> rfl

end

theorem Covers.constantsEndFrom (h : Covers all ⟨i, stop⟩ cs) (hcs : Balanced Cell.view cs) :
    ∃ j, Java.constantsEndFrom (maskedText all) i stop = .ok j ∧ ConstantsEnd all i stop cs j := by
  suffices hmap : ∃ n, Subtype.val <$> Java.constantsEndFrom (maskedText all) i stop = .ok n ∧
      ConstantsEnd all i stop cs n by
    obtain ⟨n, hn, hend⟩ := hmap
    obtain ⟨j, hj, rfl⟩ := exists_of_map_val hn
    exact ⟨j, hj, hend⟩
  induction hcs generalizing i with
  | nil =>
    obtain rfl := h.nil_stop
    rw [Java.constantsEndFrom, if_neg (lt_irrefl _)]
    exact ⟨stop, rfl, h.constantsEnd_nil⟩
  | @plain c cs hopen hclose hbalanced ih =>
    by_cases hsemicolon : c.view = ';'
    · exact ⟨i, h.constantsEndFrom_semicolon hsemicolon, h.constantsEnd_semicolon hsemicolon hbalanced⟩
    · by_cases hneutral : Neutral c.view
      · obtain ⟨j, hhead, htail, hpass⟩ := h.pass hneutral
          (F := fun i => Subtype.val <$> Java.constantsEndFrom (maskedText all) i stop) fun i x hi hx hneutral =>
            constantsEndFrom_plain hi hx (hneutral.ne (by decide) (by decide)) hneutral.plain.1
        obtain ⟨n, hn, hend⟩ := ih htail
        exact ⟨n, hpass.trans hn, hend.plain hopen hclose hsemicolon hhead⟩
      · obtain ⟨hoctet, hhead, htail⟩ := h.single hneutral
        obtain ⟨n, hn, hend⟩ := ih htail
        have hi := h.lt_iff.2 (List.cons_ne_nil c cs)
        exact ⟨n, (constantsEndFrom_plain hi hoctet hsemicolon hopen).trans hn,
          hend.plain hopen hclose hsemicolon hhead⟩
  | @group o c inside rest hpair hinside _ _ ih =>
    obtain ⟨-, hhead, -⟩ := h.single (not_neutral_opener hpair).1
    obtain ⟨⟨j, hlt⟩, hj, hin, hclose, hrest⟩ := h.partner_group hinside hpair
    obtain ⟨n, hn, hend⟩ := ih hrest
    exact ⟨n, (h.constantsEndFrom_group hpair hj).trans hn,
      hend.group hpair hinside (hhead.join (hin.join hclose))⟩

theorem Balanced.of_append_right {xs ys : List Cell} (hy : Balanced Cell.view ys) (h : Balanced Cell.view (xs ++ ys)) :
    Balanced Cell.view xs := by
  have hinsert := balancedFrom_insert hy [] (xs.map Cell.view) []
  rw [← isBalanced_map, isBalanced] at h ⊢
  rwa [List.append_nil, List.append_nil, ← List.map_append, h, eq_comm] at hinsert

theorem Balanced.trimCells (h : Balanced Cell.view cs) : Balanced Cell.view (trimCells cs) := by
  obtain ⟨before, after, heq, hbefore, hafter⟩ := exists_trim (fun c : Cell => isAsciiSpace c.view) cs
  rw [heq] at h
  exact .of_append_right (unmarked_of_blank hafter).balanced ((unmarked_of_blank hbefore).balanced.of_append h)

/-- Pieces of balanced cells are balanced where angle brackets are no brackets. -/
theorem balanced_pieces {read : List Cell} (hread : Balanced Cell.view read.reverse) (h : Balanced Cell.view cs) :
    ∀ piece ∈ piecesFrom Cell.view false ',' 0 read cs, Balanced Cell.view piece := by
  have hend : ∀ {read : List Cell}, Balanced Cell.view read.reverse →
      ∀ piece ∈ nonEmpty (trimBlank Cell.view read.reverse), Balanced Cell.view piece := by
    intro read hread piece hpiece
    rw [nonEmpty] at hpiece
    split at hpiece
    · cases hpiece
    · rw [List.mem_singleton.1 hpiece]
      exact hread.trimCells
  induction h generalizing read with
  | nil => exact hend hread
  | @plain c cs hopen hclose _ ih =>
    rw [piecesFrom, depthChange_plain hopen hclose]
    simp only
    split
    · intro piece hpiece
      rcases List.mem_append.1 hpiece with hpiece | hpiece
      · exact hend hread piece hpiece
      · exact ih .nil piece hpiece
    · refine ih ?_
      rw [List.reverse_cons]
      exact hread.append (.plain hopen hclose .nil)
  | @group o c inside rest hpair hinside _ _ ih =>
    have hgroup : Balanced Cell.view (o :: (inside ++ [c])) := .group hpair hinside .nil
    have hopener : o.view ≠ ',' := fun heq => by rw [heq] at hpair; cases hpair
    have hwalk : walk Cell.view false ',' 0 (o :: (inside ++ [c])) = some 0 :=
      walk_balanced hgroup ((free_group hinside hpair).2 ⟨by simpa using hopener, by simp [Free, items, itemsFrom]⟩)
    have hsplit : o :: (inside ++ c :: rest) = (o :: (inside ++ [c])) ++ rest := by simp
    rw [hsplit, piecesFrom_walk hwalk]
    refine ih ?_
    rw [List.reverse_append, List.reverse_reverse]
    exact hread.append hgroup

theorem Covers.arguments {ss : List Span} {pieces : List (List Cell)} (h : List.Forall₂ (Covers all) ss pieces) :
    ss.mapM (fun a => (String.ofList ∘ trim isSpace) <$> textIn (verbatim all) a) =
      .ok (pieces.map fun a => String.ofList (trim isSpace (verbatim a))) := by
  refine Except.mapM_of_forall₂ ?_
  rw [List.forall₂_map_right_iff]
  refine h.imp fun s piece hs => ?_
  rw [hs.textIn_source]
  rfl

theorem Covers.enumArguments {name : List Char} {o : Cell} {more : List Cell} (h : Covers all ⟨i, stop⟩ (o :: more))
    (ho : o.view = '(') (hcs : Balanced Cell.view cs) (hsuffix : o :: more <:+ cs) :
    (match partner? (maskedText all) i '(' ')' with
      | none => pure none
      | some ⟨close, _⟩ => do
        let arguments ← Java.pieceRanges (maskedText all) ',' false ⟨i + 1, close⟩
        return some ⟨String.ofList name,
          ← arguments.mapM fun a => (String.ofList ∘ trim isSpace) <$> textIn (verbatim all) a⟩ : Checked (Option EnumConstant)) =
      .ok (do
        let (inside, _) ← closing Cell.view '(' ')' 1 more
        some ⟨String.ofList name, (Java.pieces Cell.view false ',' inside).map fun a => String.ofList (trim isSpace (verbatim a))⟩) := by
  obtain ⟨inside, after, close, hclosing, hclose, hinside, -, -⟩ := h.partner_suffix ho hcs hsuffix
  obtain ⟨ss, hss, hpieces⟩ := hinside.pieceRanges false not_neutral_comma
  rw [hclose, hclosing]
  dsimp only
  rw [hss, Except.ok_bind, Covers.arguments hpieces]
  rfl

theorem Covers.enumConstant (hall : Balanced Cell.view all) (h : Covers all s cs) (hcs : Balanced Cell.view cs) :
    (Texts.of all).enumConstant s = .ok (enumConstant? cs) := by
  obtain ⟨lead, hlead, -, -, hrest, hstop⟩ := h.lead hall
  have hrest' : Covers all ⟨lead.rest.start, s.stop⟩ (preamble cs).rest := hstop ▸ hrest
  obtain ⟨⟨nameEnd, hstart⟩, hname, htext, hempty, hafter⟩ := hrest'.word asciiClass_isIdent (by decide)
  obtain ⟨⟨open_, _⟩, hopen, -, hmore⟩ := hafter.passWhile asciiClass_isAsciiSpace
  change Covers all ⟨open_, s.stop⟩ (dropBlank ((preamble cs).rest.dropWhile Cell.isIdent)) at hmore
  change textIn (maskedText all) ⟨lead.rest.start, nameEnd⟩ = .ok (views ((preamble cs).rest.takeWhile Cell.isIdent))
    at htext
  change lead.rest.start < nameEnd ↔ (preamble cs).rest.takeWhile Cell.isIdent ≠ [] at hempty
  rw [Texts.enumConstant, hlead, Except.ok_bind, show (Texts.of all).masked = maskedText all from rfl, hname,
    Except.ok_bind, enumConstant?]
  by_cases hnil : (preamble cs).rest.takeWhile Cell.isIdent = []
  · have hsame : nameEnd = lead.rest.start := by
      have := mt hempty.1 (not_not.2 hnil)
      omega
    rw [if_pos hsame, hnil]
    rfl
  · rw [if_neg (Nat.ne_of_gt (hempty.2 hnil))]
    dsimp only at hopen ⊢
    rw [htext, Except.ok_bind, hopen, Except.ok_bind]
    dsimp only
    have hguard : (guard ((!((preamble cs).rest.takeWhile Cell.isIdent).isEmpty) = true) : Option Unit) = some () := by
      simp [guard, hnil]
    rw [hguard, Option.bind_eq_bind, Option.bind_some]
    cases hd : dropBlank ((preamble cs).rest.dropWhile Cell.isIdent) with
    | nil =>
      rw [hd] at hmore
      obtain rfl := hmore.nil_stop
      rw [if_neg (lt_irrefl _)]
      rfl
    | cons o more =>
      rw [hd] at hmore
      have hsuffix : o :: more <:+ cs :=
        hd ▸ dropBlank_suffix.trans ((List.dropWhile_suffix _).trans (readsLead cs).rest.1)
      obtain ⟨x, hx, hreads⟩ := hmore.octetAt_ok
      have hparen : x = '(' ↔ o.view = '(' := hreads.eq_iff (by decide)
      rw [if_pos (hmore.lt_iff.2 (List.cons_ne_nil o more)), hx, Except.ok_bind]
      by_cases ho : o.view = '('
      · rw [if_pos (hparen.2 ho)]
        simp only [if_pos ho]
        exact hmore.enumArguments ho hcs hsuffix
      · rw [if_neg (mt hparen.1 ho)]
        simp only [if_neg ho]
        rfl

theorem forall₂_mem {α β : Type} {R : α → β → Prop} {xs : List α} {ys : List β} {p : β → Prop}
    (h : List.Forall₂ R xs ys) (hp : ∀ y ∈ ys, p y) : List.Forall₂ (fun x y => R x y ∧ p y) xs ys := by
  induction h with
  | nil => exact .nil
  | cons hxy _ ih => exact .cons ⟨hxy, hp _ List.mem_cons_self⟩ (ih fun y hy => hp y (List.mem_cons_of_mem _ hy))

theorem Covers.enumConstants (hall : Balanced Cell.view all) (h : Covers all s cs) (hcs : Balanced Cell.view cs) :
    (Texts.of all).enumConstants s = .ok (enumConstants cs) := by
  obtain ⟨ss, hss, hpieces⟩ := h.pieceRanges false not_neutral_comma
  have hnone : Balanced Cell.view ([] : List Cell).reverse := .nil
  have hbalanced := forall₂_mem hpieces (balanced_pieces hnone hcs)
  rw [Texts.enumConstants, h.demand, Except.ok_bind, show (Texts.of all).masked = maskedText all from rfl, hss,
    Except.ok_bind]
  exact mapM_reduceOption hbalanced fun s piece hs => hs.1.enumConstant hall hs.2

/-- The body of a type: its constants, and a range for its members. -/
theorem Covers.bodyRanges (hall : Balanced Cell.view all) (h : Covers all s cs) (hcs : Balanced Cell.view cs)
    (kind : TypeKind) (hle : s.start ≤ s.stop) :
    ∃ r, (Texts.of all).bodyRanges kind s hle =
        .ok (if kind = .enumType then Java.enumConstants (splitBody kind cs).1 else [], r) ∧
      Covers all r (splitBody kind cs).2 ∧ Balanced Cell.view (splitBody kind cs).2 := by
  rw [Texts.bodyRanges, splitBody]
  by_cases hkind : kind = .enumType
  · have h' : Covers all ⟨s.start, s.stop⟩ cs := h
    obtain ⟨⟨j, hj⟩, hend, hconstants, hmembers, hbalanced, hbalanced'⟩ := Covers.constantsEndFrom h' hcs
    rw [if_pos hkind, if_pos hkind, if_pos hkind, h.demand, Except.ok_bind, show (Texts.of all).masked = maskedText all from rfl,
      hend, Except.ok_bind]
    dsimp only
    rw [hconstants.enumConstants hall hbalanced, Except.ok_bind]
    exact ⟨_, rfl, hmembers, hbalanced'⟩
  · rw [if_neg hkind, if_neg hkind, if_neg hkind]
    exact ⟨_, rfl, h, hcs⟩

/-! Members. -/

theorem Covers.stop_le_iff (h : Covers all s cs) : s.stop ≤ s.start ↔ cs = [] := by
  have hlt : s.start < s.stop ↔ cs ≠ [] := h.lt_iff
  rw [← not_iff_not, not_le, hlt]

theorem Covers.statementMembers (hall : Balanced Cell.view all) (h : Covers all s cs) (hcs : Balanced Cell.view cs)
    (owner : String) : (Texts.of all).statementMembers owner s = .ok (statementMembers owner cs) := by
  obtain ⟨⟨r, _⟩, hr, htrimmed, -⟩ := h.trimRange
  have hempty : r.stop ≤ r.start ↔ Java.trimCells cs = [] := htrimmed.stop_le_iff
  have hcode : (Texts.of all).codeIn none = .ok (sourceText []) := rfl
  have hmethod := htrimmed.method hall hcs.trimCells none htrimmed hcode owner
  rw [Texts.statementMembers, show (Texts.of all).masked = maskedText all from rfl, hr, Except.ok_bind,
    Java.statementMembers]
  dsimp only
  by_cases hnil : Java.trimCells cs = []
  · rw [if_pos (hempty.2 hnil), hnil]
    rfl
  · rw [if_neg (mt hempty.1 hnil), if_neg (by simpa using hnil), htrimmed.textIn_masked, Except.ok_bind,
      isBodiless_maskedText]
    split
    · rw [hmethod, Except.ok_bind]
      change pure ((method? owner (Java.trimCells cs) (sourceText (Java.trimCells cs)) "").map Member.method).toList = _
      cases method? owner (Java.trimCells cs) (sourceText (Java.trimCells cs)) "" <;> rfl
    · rw [htrimmed.fields hall]
      rfl

theorem Cell.char_of_view {v : Char} (hc : c.view = v) (hv : v ≠ ' ') : c.char = v := by
  rw [Cell.view] at hc
  split at hc
  · exact hc
  · exact absurd hc.symm hv

theorem Covers.blockMembers (hall : Balanced Cell.view all) {header body : Span} {hs bs : List Cell}
    (h : SegmentRange.Matches all (.block header body) (.block hs bs)) (owner : String) :
    (Texts.of all).blockMembers owner header body = .ok (blockMembers owner hs bs) := by
  cases h with
  | @block _ _ _ _ o c hheader hbody hbraces ho hc hhs hbs =>
    obtain ⟨⟨r, _⟩, hr, htrimmed, hfront⟩ := hheader.trimRange
    have htext : Covers all ⟨r.start, body.stop + 1⟩ (dropBlank hs ++ o :: (bs ++ [c])) := hfront.join hbraces
    have hsource : sourceText (dropBlank hs ++ o :: (bs ++ [c])) =
        String.ofList (verbatim (dropBlank hs) ++ '{' :: verbatim bs ++ ['}']) := by
      have ho' : o.char = '{' := Cell.char_of_view ho (by decide)
      have hc' : c.char = '}' := Cell.char_of_view hc (by decide)
      simp [sourceText, verbatim, ho', hc']
    have hcode : (Texts.of all).codeIn (some body) = .ok (sourceText bs) := by
      rw [Texts.codeIn, show (Texts.of all).source = verbatim all from rfl, hbody.textIn_source]
      rfl
    have hmethod := htrimmed.method hall hhs.trimCells (some body) htext hcode owner
    rw [Texts.blockMembers, show (Texts.of all).masked = maskedText all from rfl, hr, Except.ok_bind, Java.blockMembers]
    dsimp only at hmethod ⊢
    rw [hmethod, Except.ok_bind, hsource]
    cases method? owner (Java.trimCells hs) _ (sourceText bs) with
    | none => rfl
    | some m => dsimp only; split <;> rfl

theorem Covers.runsOnly (h : Covers all s cs) : Java.runsOnly (maskedText all) s = .ok (isInitializer cs) := by
  obtain ⟨⟨r, _⟩, hr, htrimmed, -⟩ := h.trimRange
  have hstatic : ' ' ∉ "static".toList := by decide
  have hempty : (maskedText (Java.trimCells cs)).isEmpty = (views (Java.trimCells cs)).isEmpty := by
    rw [Bool.eq_iff_iff, List.isEmpty_iff, List.isEmpty_iff, maskedText_eq_nil, views, List.map_eq_nil_iff]
  have hword : decide (maskedText (Java.trimCells cs) = "static".toList) =
      decide (views (Java.trimCells cs) = "static".toList) := decide_eq_decide.2 (maskedText_eq_iff hstatic)
  rw [Java.runsOnly, hr, Except.ok_bind]
  dsimp only
  rw [htrimmed.textIn_masked, Except.ok_bind, isInitializer, hempty, hword]
  rfl

end WireLayout.Java
