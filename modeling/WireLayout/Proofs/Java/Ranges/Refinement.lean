import WireLayout.Proofs.Java.Ranges.Bodies

/-! A source read by positions is the source read by its cells. Every text is read without a fault, and what is read
is what the cells give: so each range that the reading takes or gives lies in the text, with its ends in order and
between characters. -/

namespace WireLayout.Java

open WireLayout.Text

variable {all cs : List Cell} {i k stop : Nat} {s : Span}

/-! The header of a type. -/

theorem heading?_suffix {heading : Heading} (h : heading? cs = some heading) : heading.after <:+ cs := by
  suffices hfrom : ∀ (before : Option Char) (heading : Heading), headingFrom before cs = some heading →
      heading.after <:+ cs by
    obtain ⟨h, -⟩ := Option.filter_eq_some_iff.1 h
    exact hfrom none heading h
  clear h
  induction cs with
  | nil => intro _ _ h; cases h
  | cons c cs ih =>
    intro before heading h
    rw [headingFrom] at h
    split at h
    · obtain rfl := Option.some.inj h
      exact List.drop_suffix _ _
    · obtain ⟨later, hlater, rfl⟩ := Option.map_eq_some_iff.1 h
      exact (ih _ later hlater).trans (List.suffix_cons c cs)

theorem afterTypeParameters_suffix : afterTypeParameters cs <:+ cs := by
  rw [afterTypeParameters]
  cases hd : dropBlank cs with
  | nil => exact List.nil_suffix
  | cons c rest =>
    have hsuffix : c :: rest <:+ cs := hd ▸ dropBlank_suffix
    simp only
    split
    · exact dropBlank_suffix.trans (skipAngles_suffix.trans ((List.suffix_cons c rest).trans hsuffix))
    · exact dropBlank_suffix.trans hsuffix

/-- The end of contiguous cells begins behind what stands before it. -/
theorem Covers.suffix {after : List Cell} (h : Covers all ⟨i, stop⟩ cs) (hsuffix : after <:+ cs) :
    Covers all ⟨i + (width cs - width after), stop⟩ after := by
  obtain ⟨front, rfl⟩ := hsuffix
  obtain ⟨m, hfront, hafter⟩ := h.append
  have hm : m = i + (width (front ++ after) - width after) := by
    rw [hfront.stop_eq, width_append, Nat.add_sub_cancel, width_eq, octetViews_maskedText]
  exact hm ▸ hafter

theorem Covers.typeParametersEnd (h : Covers all ⟨i, stop⟩ cs) :
    ∃ j, Java.typeParametersEnd (maskedText all) i stop = .ok j ∧ Covers all ⟨j, stop⟩ (afterTypeParameters cs) := by
  obtain ⟨⟨j, _⟩, hj, -, hrest⟩ := h.passWhile asciiClass_isAsciiSpace
  change Covers all ⟨j, stop⟩ (dropBlank cs) at hrest
  rw [Java.typeParametersEnd, hj, Except.ok_bind, afterTypeParameters]
  dsimp only
  have hlast : ∀ {i : Nat} {ds : List Cell}, Covers all ⟨i, stop⟩ ds →
      ∃ j, (do let k ← Java.passWhile (maskedText all) isAsciiSpace i stop; return k.1) = (.ok j : Checked Nat) ∧
        Covers all ⟨j, stop⟩ (dropBlank ds) := by
    intro i ds hds
    obtain ⟨j, hj, -, hrest⟩ := hds.passWhile asciiClass_isAsciiSpace
    rw [hj]
    exact ⟨_, rfl, hrest⟩
  cases hd : dropBlank cs with
  | nil =>
    rw [hd] at hrest
    obtain rfl := hrest.nil_stop
    rw [if_neg (lt_irrefl _)]
    exact hlast hrest
  | cons c rest =>
    rw [hd] at hrest
    obtain ⟨x, hx, hreads⟩ := hrest.octetAt_ok
    have hangle : x = '<' ↔ c.view = '<' := hreads.eq_iff (by decide)
    dsimp only
    rw [if_pos (hrest.lt_iff.2 (List.cons_ne_nil c rest)), hx, Except.ok_bind]
    by_cases hc : c.view = '<'
    · have hneutral : ¬ Neutral c.view := not_neutral_of_view hc (by decide) (by decide)
      obtain ⟨next, hnext, hmore⟩ := (hrest.single hneutral).2.2.anglesEnd (Nat.le_refl 1)
      rw [Nat.cast_one] at hnext
      rw [if_pos (hangle.2 hc), if_pos hc, hnext, Except.map_ok, Except.ok_bind]
      exact hlast hmore
    · rw [if_neg (mt hangle.1 hc), if_neg hc]
      exact hlast hrest

theorem Covers.components {header : List Cell} (h : Covers all ⟨i, stop⟩ cs) (hheader : Balanced Cell.view header)
    (hsuffix : cs <:+ header) :
    Java.components (maskedText all) i stop = .ok none ∧ components? cs = none ∨
      ∃ inside after j, Java.components (maskedText all) i stop = .ok (some ⟨i + 1, j⟩) ∧ components? cs = some (inside, after) ∧
        Covers all ⟨i + 1, j⟩ inside ∧ Covers all ⟨j + 1, stop⟩ after := by
  cases cs with
  | nil =>
    obtain rfl := h.nil_stop
    rw [Java.components, if_neg (lt_irrefl _)]
    exact .inl ⟨rfl, rfl⟩
  | cons c rest =>
    obtain ⟨x, hx, hreads⟩ := h.octetAt_ok
    have hparen : x = '(' ↔ c.view = '(' := hreads.eq_iff (by decide)
    rw [Java.components, if_pos (h.lt_iff.2 (List.cons_ne_nil c rest)), hx, Except.ok_bind, components?]
    by_cases hc : c.view = '('
    · obtain ⟨inside, after, j, hclosing, hj, hinside, hafter, -⟩ := h.partner_suffix hc hheader hsuffix
      rw [if_pos (hparen.2 hc), if_pos hc, hj, hclosing]
      exact .inr ⟨inside, after, j, rfl, rfl, hinside, hafter⟩
    · rw [if_neg (mt hparen.1 hc), if_neg hc]
      exact .inl ⟨rfl, rfl⟩

theorem Covers.recordConstructor (hall : Balanced Cell.view all) {components : Span} {ds : List Cell}
    (h : Covers all s cs) (hds : Covers all components ds) (name : String) :
    (Texts.of all).recordConstructor name s components = .ok (recordConstructor name cs ds) := by
  rw [Texts.recordConstructor, hds.parameters hall, Except.ok_bind, show (Texts.of all).source = verbatim all from rfl,
    h.textIn_source]
  rfl

/-- What follows the name of a type: the constructor of a record, and a range for the clauses. -/
theorem Covers.heading (hall : Balanced Cell.view all) {header : List Cell} (hheader : Covers all s header)
    (hbalanced : Balanced Cell.view header) {heading : Heading} (hsuffix : heading.after <:+ header)
    (h : Covers all ⟨i, s.stop⟩ heading.after) :
    ∃ j r, Java.typeParametersEnd (maskedText all) i s.stop = .ok j ∧
      Java.recordComponents (maskedText all) heading.kind j s.stop = .ok r ∧
      r.mapM ((Texts.of all).recordConstructor heading.name s) =
        .ok (heading.components?.map fun q => Java.recordConstructor heading.name header q.1) ∧
      Covers all ⟨min ((r.map (·.stop + 1)).getD j) s.stop, s.stop⟩ heading.tail := by
  obtain ⟨j, hj, hafter⟩ := h.typeParametersEnd
  have hsuffix' : afterTypeParameters heading.after <:+ header := afterTypeParameters_suffix.trans hsuffix
  rw [Heading.tail]
  by_cases hkind : heading.kind = .recordType
  · have hread : Java.recordComponents (maskedText all) heading.kind j s.stop = Java.components (maskedText all) j s.stop := if_pos hkind
    have hmodel : heading.components? = components? (afterTypeParameters heading.after) := if_pos hkind
    rw [hmodel]
    rcases hafter.components hbalanced hsuffix' with ⟨hnone, heq⟩ | ⟨inside, rest, close, hsome, heq, hinside, hrest⟩
    · rw [heq]
      refine ⟨j, none, hj, hread.trans hnone, rfl, ?_⟩
      simpa [Nat.min_eq_left hafter.le] using hafter
    · rw [heq]
      refine ⟨j, _, hj, hread.trans hsome, ?_, ?_⟩
      · rw [Option.mapM_some, hheader.recordConstructor hall hinside]
        rfl
      · simpa [Nat.min_eq_left hrest.le] using hrest
  · have hread : Java.recordComponents (maskedText all) heading.kind j s.stop = .ok none := if_neg hkind
    have hmodel : heading.components? = none := if_neg hkind
    rw [hmodel]
    exact ⟨j, none, hj, hread, rfl, by simpa [Nat.min_eq_left hafter.le] using hafter⟩

/-! Types. -/

theorem attached_eq {α : Type} {x : Checked α} {a : α} (h : x = .ok a) : Texts.attached x = .ok ⟨a, h⟩ := by
  subst h
  rfl

theorem mapM_attach {α β γ : Type} {R : α → β → Prop} {xs : List α} {ys : List β} {f : {x // x ∈ xs} → Checked γ}
    {g : β → γ} (h : List.Forall₂ R xs ys) (hf : ∀ x hx, ∀ y ∈ ys, R x y → f ⟨x, hx⟩ = .ok (g y)) :
    xs.attach.mapM f = .ok (ys.map g) := by
  refine Except.mapM_of_forall₂ ?_
  have hpairs := forall₂_mem h (p := (· ∈ ys)) fun y hy => hy
  rw [← List.attach_map_subtype_val xs, List.forall₂_map_left_iff] at hpairs
  rw [List.forall₂_map_right_iff]
  exact hpairs.imp fun x y hxy => hf x.1 x.2 y hxy.2 hxy.1

/-- A block that is read as a type, or is none, declares what the reading of its cells declares. -/
theorem Covers.block (hall : Balanced Cell.view all) {inner block : Span} {hs bs : List Cell}
    (h : SegmentRange.Matches all (.block inner block) (.block hs bs)) (owner : String)
    (htype : (Texts.of all).typeIn inner block = .ok (typeDeclaration? hs bs)) :
    (do
      if ← Java.runsOnly (Texts.of all).masked inner then return []
      else match ← (Texts.of all).typeIn inner block with
        | some nested => return [.nested nested]
        | none => (Texts.of all).blockMembers owner inner block : Checked (List Member)) =
      .ok (segmentMembers owner (.block hs bs)) := by
  have hinner : Covers all inner hs := by cases h; assumption
  have hruns : Java.runsOnly (Texts.of all).masked inner = .ok (isInitializer hs) := hinner.runsOnly
  rw [hruns, Except.ok_bind, segmentMembers]
  cases isInitializer hs with
  | true => rfl
  | false =>
    rw [if_neg Bool.false_ne_true, if_neg Bool.false_ne_true, htype, Except.ok_bind]
    cases typeDeclaration? hs bs with
    | none => exact Covers.blockMembers hall h owner
    | some t => rfl

/-- A type is read at the ranges of its header and its body, by induction on the length of the body. -/
theorem Covers.typeIn (hall : Balanced Cell.view all) {header body : Span} {hs bs : List Cell}
    (h : SegmentRange.Matches all (.block header body) (.block hs bs)) :
    (Texts.of all).typeIn header body = .ok (typeDeclaration? hs bs) := by
  induction hn : bs.length using Nat.strong_induction_on generalizing header body hs bs with
  | _ n ih =>
    obtain ⟨hheader, hbody, hhs, hbs⟩ : Covers all header hs ∧ Covers all body bs ∧ Balanced Cell.view hs ∧
        Balanced Cell.view bs := by
      cases h with
      | block hheader hbody _ _ _ hhs hbs => exact ⟨hheader, hbody, hhs, hbs⟩
    obtain ⟨lead, hlead, -, hmodifiers, hrest, hstop⟩ := hheader.lead hall
    have hle : body.start ≤ body.stop := hbody.le
    have hshown : textIn (Texts.of all).masked lead.rest = .ok (maskedText (preamble hs).rest) := hrest.textIn_masked
    rw [Texts.typeIn, dif_pos hle, hlead, Except.ok_bind, hshown, Except.ok_bind, heading?_maskedText, typeDeclaration?_eq]
    cases hheading : heading? (preamble hs).rest with
    | none => rfl
    | some heading =>
      have hrest' : Covers all ⟨lead.rest.start, header.stop⟩ (preamble hs).rest := hstop ▸ hrest
      have hsuffix := heading?_suffix hheading
      have hafter := hrest'.suffix hsuffix
      rw [width_eq, width_eq] at hafter
      obtain ⟨j, r, hj, hr, hconstructor, htail⟩ :=
        hheader.heading hall hhs (hsuffix.trans (readsLead hs).rest.1) hafter
      obtain ⟨⟨range, _⟩, hrange, hmembers, hmembersBalanced⟩ := hbody.bodyRanges hall hbs heading.kind hle
      obtain ⟨rs, hrs, hmatch⟩ := hmembers.segmentRanges hmembersBalanced
      have hwords : textIn (Texts.of all).masked ⟨min ((r.map (·.stop + 1)).getD j) header.stop, header.stop⟩ =
          .ok (maskedText heading.tail) := htail.textIn_masked
      have hj' : Java.typeParametersEnd (Texts.of all).masked (lead.rest.start + ((octetViews (maskedText (preamble hs).rest)).length -
          (octetViews (maskedText heading.after)).length)) header.stop = .ok j := hj
      have hr' : recordComponents (Texts.of all).masked heading.kind j header.stop = .ok r := hr
      have hviews : views heading.inMasked.after = maskedText heading.after := views_codes
      dsimp only [Option.map_some]
      rw [hviews, hj', Except.ok_bind]
      dsimp only [Heading.inMasked]
      rw [hr', Except.ok_bind, hconstructor, Except.ok_bind, hwords, Except.ok_bind, clauseIn_eq, Except.ok_bind, clauseIn_eq,
        Except.ok_bind, hrange, Except.ok_bind]
      dsimp only
      rw [attached_eq hrs, Except.ok_bind]
      refine Except.bind_eq_ok_iff.2 ⟨_, mapM_attach (g := segmentMembers heading.name) hmatch ?_, ?_⟩
      · intro r hr segment hsegment hmatches
        cases hmatches with
        | statement hcovers hbalanced => exact hcovers.statementMembers hall hbalanced heading.name
        | @block inner block hs' bs' o c hinner hblock hbraces ho hc hinnerBalanced hblockBalanced =>
          have hblock' : SegmentRange.Matches all (.block inner block) (.block hs' bs') :=
            .block hinner hblock hbraces ho hc hinnerBalanced hblockBalanced
          have hshort : bs'.length < n :=
            hn ▸ Nat.lt_of_lt_of_le (length_block_lt hsegment) (length_splitBody_le heading.kind bs)
          exact Covers.block hall hblock' heading.name (ih _ hshort hblock' rfl)
      · rw [words_maskedText, hmodifiers, ← List.flatMap_def]
        rfl

/-! Files. -/

theorem Covers.topLevelTypes (hall : Balanced Cell.view all) :
    (Texts.of all).topLevelTypes = .ok (topLevelTypes (segments all)) := by
  obtain ⟨rs, hrs, hmatch⟩ := (Covers.whole all).segmentRanges hall
  have hrs' : (Texts.of all).segmentRanges ⟨0, (octetViews (Texts.of all).source).length⟩ = .ok rs := hrs
  rw [Texts.topLevelTypes, hrs', Except.ok_bind, Java.topLevelTypes]
  refine mapM_reduceOption hmatch fun r segment hmatches => ?_
  cases hmatches with
  | statement _ _ => rfl
  | block hheader hbody hbraces ho hc hhs hbs => exact Covers.typeIn hall (.block hheader hbody hbraces ho hc hhs hbs)

theorem Texts.of_cells (text : List Char) : Texts.of (cells text) = ⟨mask text, text⟩ := by
  rw [Texts.of, cells, verbatim_cellsFrom, ← cells]
  rfl

theorem parse_cases (path text : String) :
    (∃ file, SourceFile.parse path text = .ok file) ∨ SourceFile.parse path text = .error (.emptySource path) ∨
      ∃ message, SourceFile.parse path text = .error (.sourceParse path message) := by
  rw [SourceFile.parse]
  dsimp only
  split
  · exact .inr (.inl rfl)
  · split
    · exact .inr (.inr ⟨_, rfl⟩)
    · exact .inl ⟨_, rfl⟩

/-- A text that is not blank and has balanced brackets is read from its masked text. -/
theorem parse_of_balanced (path : String) {text : String} (hblank : text.toList.all isSpace = false)
    (hbalanced : isBalanced (octetViews (mask text.toList)) = true) : ∃ types,
      Texts.topLevelTypes ⟨mask text.toList, text.toList⟩ = .ok types ∧
        SourceFile.parse path text = .ok {
          package := ((allMatches packageName? (mask text.toList)).head?).getD ""
          imports := allMatches importName? (mask text.toList)
          types } := by
  have hmask : mask text.toList = maskedText (cells text.toList) := rfl
  have hviews : isBalanced (views (cells text.toList)) = true := by rw [← isBalanced_maskedText, ← hmask, hbalanced]
  refine ⟨topLevelTypes (segments (cells text.toList)), ?_, ?_⟩
  · rw [← Texts.of_cells]
    exact Covers.topLevelTypes (balanced_of_isBalanced hviews)
  · rw [SourceFile.parse]
    dsimp only
    rw [hblank, hviews, hmask, packageName?_readsCells.allMatches_maskedText, importName?_readsCells.allMatches_maskedText]
    rfl

/-- Reading by positions of octets faults for no text: each position and range that the reading takes is in order, in
the text it is applied to, and between characters. It gives what the reading of the cells gives, a source file or one of
the two errors. -/
theorem parseRanges_eq (path text : String) :
    SourceFile.parseRanges path text = .ok (SourceFile.parse path text) ∧
      ((∃ file, SourceFile.parse path text = .ok file) ∨ SourceFile.parse path text = .error (.emptySource path) ∨
        ∃ message, SourceFile.parse path text = .error (.sourceParse path message)) := by
  refine ⟨?_, parse_cases path text⟩
  rw [SourceFile.parseRanges]
  dsimp only
  cases hblank : text.toList.all isSpace with
  | true =>
    rw [SourceFile.parse, hblank]
    rfl
  | false =>
    cases hbalanced : isBalanced (octetViews (mask text.toList)) with
    | false =>
      have hviews : isBalanced (views (cells text.toList)) = false := by
        rw [← isBalanced_maskedText, ← hbalanced]
        rfl
      rw [SourceFile.parse]
      dsimp only
      rw [hblank, hviews]
      rfl
    | true =>
      obtain ⟨types, htypes, hparse⟩ := parse_of_balanced path hblank hbalanced
      rw [htypes, hparse]
      rfl

end WireLayout.Java
