import WireLayout.Java.Header
import WireLayout.Proofs.Java.Cuts
import WireLayout.Proofs.Java.Preamble

/-! What is decided before a parenthesis. The annotations and modifiers of a header, the name in front of its
parameters and the heading of a type are read up to the parenthesis that follows them, so they are the same
whatever stands behind it. -/

namespace WireLayout.Java

open WireLayout.Text

variable {cs ds rest tail : List Cell} {c paren : Cell}

/-- The text ends with an opening parenthesis. -/
def EndsOpen (cs : List Cell) : Prop := ∀ c ∈ cs.getLast?, c.view = '('

theorem EndsOpen.suffix (h : EndsOpen cs) (hs : ds <:+ cs) : EndsOpen ds := by
  obtain ⟨front, rfl⟩ := hs
  cases ds with
  | nil => simp [EndsOpen]
  | cons d ds =>
    intro c hc
    exact h c (by rw [List.getLast?_append_of_ne_nil _ (List.cons_ne_nil d ds)]; exact hc)

theorem endsOpen_append (h : paren.view = '(') : EndsOpen (cs ++ [paren]) := by
  intro c hc
  rw [List.getLast?_concat] at hc
  obtain rfl := Option.some.inj hc
  exact h

theorem EndsOpen.stops {p : Cell → Bool} (h : EndsOpen cs) (hp : ∀ c : Cell, c.view = '(' → p c = false) :
    ∀ c ∈ cs.getLast?, p c = false := fun c hc => hp c (h c hc)

theorem isAnnotationCell_paren (h : c.view = '(') : isAnnotationCell c = false := by
  rw [isAnnotationCell, Cell.isIdent, h]
  decide

theorem isModifierCell_paren (h : c.view = '(') : isModifierCell c = false := by
  rw [isModifierCell, Cell.isIdent, h]
  decide

theorem isBlank_paren (h : c.view = '(') : c.isBlank = false := isBlank_of_view h (by decide)

theorem skipAngles_local {depth : Nat} (h : skipAngles depth cs ≠ []) :
    skipAngles depth (cs ++ tail) = skipAngles depth cs ++ tail := by
  induction cs generalizing depth with
  | nil => exact absurd rfl h
  | cons c cs ih =>
    rw [skipAngles] at h
    rw [List.cons_append, skipAngles, skipAngles]
    split
    · rename_i hc
      rw [if_pos hc] at h
      exact ih h
    · rename_i hc
      rw [if_neg hc] at h
      split
      · rename_i hc'
        rw [if_pos hc'] at h
        split
        · rfl
        · rename_i hdepth
          rw [if_neg hdepth] at h
          exact ih h
      · rename_i hc'
        rw [if_neg hc'] at h
        exact ih h

theorem skipAngles_suffix {depth : Nat} : skipAngles depth cs <:+ cs := by
  induction cs generalizing depth with
  | nil => exact List.suffix_rfl
  | cons c cs ih =>
    rw [skipAngles]
    split
    · exact ih.trans (List.suffix_cons c cs)
    · split
      · split
        · exact List.suffix_cons c cs
        · exact ih.trans (List.suffix_cons c cs)
      · exact ih.trans (List.suffix_cons c cs)

theorem skipArguments_local (h : skipArguments cs ≠ []) : skipArguments (cs ++ tail) = skipArguments cs ++ tail := by
  unfold skipArguments at h ⊢
  cases hd : dropBlank cs with
  | nil =>
    rw [hd] at h
    exact absurd rfl h
  | cons c rest =>
    rw [hd] at h
    rw [dropBlank_append_right (by rw [hd]; exact List.cons_ne_nil c rest), hd, List.cons_append]
    simp only at h ⊢
    split
    · rename_i hc
      rw [if_pos hc] at h
      cases hclosing : closing Cell.view '(' ')' 1 rest with
      | none =>
        rw [hclosing] at h
        exact absurd rfl h
      | some p =>
        rw [closing_local hclosing]
        rfl
    · rfl

theorem skipArguments_suffix : skipArguments cs <:+ cs := by
  unfold skipArguments
  cases hd : dropBlank cs with
  | nil => exact List.nil_suffix
  | cons c rest =>
    have hsuffix : c :: rest <:+ cs := hd ▸ dropBlank_suffix
    simp only
    split
    · cases hclosing : closing Cell.view '(' ')' 1 rest with
      | none => exact List.nil_suffix
      | some p => exact (closing_rest_suffix hclosing).trans ((List.suffix_cons c rest).trans hsuffix)
    · exact hsuffix

theorem dropBlank_append_cons (hd : dropBlank cs = c :: rest) : dropBlank (cs ++ tail) = c :: (rest ++ tail) := by
  rw [dropBlank_append_right (by rw [hd]; exact List.cons_ne_nil c rest), hd, List.cons_append]

theorem EndsOpen.behind (h : EndsOpen cs) (hd : dropBlank cs = c :: rest) : EndsOpen rest :=
  h.suffix (suffix_of_dropBlank hd)

/-- Something is left behind a cell that is not the parenthesis at the end. -/
theorem EndsOpen.behind_ne_nil (h : EndsOpen cs) (hd : dropBlank cs = c :: rest) (hc : c.view ≠ '(') : rest ≠ [] := by
  rintro rfl
  exact hc (h.suffix (hd ▸ dropBlank_suffix) c rfl)

theorem ReadsLead.ne_nil {lead : Preamble} (h : ReadsLead cs lead) (hrest : lead.rest ≠ []) : cs ≠ [] := by
  rintro rfl
  rw [← h.preamble_eq, preamble_blank (by simp [Blank])] at hrest
  exact hrest rfl

/-- A reading of annotations and modifiers that ends before the last parenthesis looks no further. -/
theorem ReadsLead.append {lead : Preamble} (h : ReadsLead cs lead) (hend : EndsOpen cs) (hrest : lead.rest ≠ []) :
    ReadsLead (cs ++ tail) { lead with rest := lead.rest ++ tail } := by
  induction h with
  | nothing => exact absurd rfl hrest
  | @interface cs c rest hd hat hname =>
    have htake : (rest ++ tail).takeWhile isAnnotationCell = rest.takeWhile isAnnotationCell :=
      (span_local (hend.behind_ne_nil hd (by rw [hat]; decide))
        ((hend.behind hd).stops fun _ => isAnnotationCell_paren)).1
    rw [← htake] at hname
    exact .interface (dropBlank_append_cons hd) hat hname
  | @annotated cs c rest lead hd hat hname hmore ih =>
    obtain ⟨htake, hdrop⟩ : _ ∧ (rest ++ tail).dropWhile isAnnotationCell = _ :=
      span_local (hend.behind_ne_nil hd (by rw [hat]; decide)) ((hend.behind hd).stops fun _ => isAnnotationCell_paren)
    have hsuffix : skipArguments (rest.dropWhile isAnnotationCell) <:+ rest :=
      skipArguments_suffix.trans (List.dropWhile_suffix _)
    have hread := ih ((hend.behind hd).suffix hsuffix) hrest
    rw [← skipArguments_local (hmore.ne_nil hrest), ← hdrop] at hread
    rw [← htake] at hname ⊢
    exact .annotated (dropBlank_append_cons hd) hat hname hread
  | @angles cs c rest lead hd hopen hmore ih =>
    have hread := ih ((hend.behind hd).suffix skipAngles_suffix) hrest
    rw [← skipAngles_local (hmore.ne_nil hrest)] at hread
    exact .angles (dropBlank_append_cons hd) hopen hread
  | @modifier cs c rest lead hd hat hopen hc hword _ ih =>
    have hparen : c.view ≠ '(' := fun h => Bool.false_ne_true ((isModifierCell_paren h).symm.trans hc)
    obtain ⟨htake, hdrop⟩ : _ ∧ (rest ++ tail).dropWhile isModifierCell = _ :=
      span_local (hend.behind_ne_nil hd hparen) ((hend.behind hd).stops fun _ => isModifierCell_paren)
    have hread := ih ((hend.behind hd).suffix (List.dropWhile_suffix _)) hrest
    rw [← hdrop] at hread
    rw [← htake] at hword ⊢
    exact .modifier (dropBlank_append_cons hd) hat hopen hc hword hread
  | @other cs c rest hd hat hopen hword =>
    have hunknown : isModifierCell c = true →
        modifierWords.contains (shownText (c :: (rest ++ tail).takeWhile isModifierCell)) = false := by
      intro hc
      have hparen : c.view ≠ '(' := fun h => Bool.false_ne_true ((isModifierCell_paren h).symm.trans hc)
      have htake : (rest ++ tail).takeWhile isModifierCell = rest.takeWhile isModifierCell :=
        (span_local (hend.behind_ne_nil hd hparen) ((hend.behind hd).stops fun _ => isModifierCell_paren)).1
      rw [htake]
      exact hword hc
    exact .other (dropBlank_append_cons hd) hat hopen hunknown

theorem preamble_local (hend : EndsOpen cs) (hrest : (preamble cs).rest ≠ []) :
    preamble (cs ++ tail) = { preamble cs with rest := (preamble cs).rest ++ tail } :=
  ((readsLead cs).append hend hrest).preamble_eq

theorem splitAtParen_local {depth : Int} {p : List Cell × List Cell} (h : splitAtParen depth cs = some p) :
    splitAtParen depth (cs ++ tail) = some (p.1, p.2 ++ tail) := by
  induction cs generalizing depth p with
  | nil => cases h
  | cons c cs ih =>
    rw [splitAtParen] at h
    rw [List.cons_append, splitAtParen]
    split at h
    · rename_i hc
      rw [if_pos hc, ← Option.some.inj h]
    · rename_i hc
      rw [if_neg hc]
      obtain ⟨q, hq, rfl⟩ := Option.map_eq_some_iff.1 h
      exact Option.map_eq_some_iff.2 ⟨_, ih hq, rfl⟩

theorem afterTypeParameters_local (h : afterTypeParameters cs ≠ []) :
    afterTypeParameters (cs ++ tail) = afterTypeParameters cs ++ tail := by
  unfold afterTypeParameters at h ⊢
  cases hd : dropBlank cs with
  | nil =>
    rw [hd] at h
    exact absurd rfl h
  | cons c rest =>
    rw [hd] at h
    rw [dropBlank_append_right (by rw [hd]; exact List.cons_ne_nil c rest), hd, List.cons_append]
    simp only at h ⊢
    split
    · rename_i hc
      rw [if_pos hc] at h
      have hne : skipAngles 1 rest ≠ [] := by
        intro heq
        rw [heq] at h
        exact h rfl
      rw [skipAngles_local hne, dropBlank_append_right h]
    · rename_i hc
      rw [if_neg hc] at h
      rw [← List.cons_append, dropBlank_append_right h]

/-! The heading of a type. -/

def keywordName? (word : List Char) (text : List Char) : Option (List Char × List Char) := do
  name? (← spaces? (← literal? word text))

theorem typeKeyword?_eq (text : List Char) : typeKeyword? text =
    typeKeywords.findSome? fun k => (keywordName? k.1 text).map fun q => (k.2, q.1, q.2) := by
  unfold typeKeyword? keywordName?
  congr 1
  funext ⟨word, kind⟩
  cases hl : literal? word text with
  | none => simp [hl]
  | some r =>
    cases hs : spaces? r with
    | none => simp [hl, hs]
    | some t => cases hn : name? t <;> simp [hl, hs, hn]

theorem keywordName?_suffix {word text : List Char} {q : List Char × List Char} (h : keywordName? word text = some q) :
    q.2 <:+ text := by
  obtain ⟨r, hr, h⟩ := Option.bind_eq_some_iff.1 h
  obtain ⟨s, hs, h⟩ := Option.bind_eq_some_iff.1 h
  exact (name?_suffix h).trans ((spaces?_suffix hs).trans (literal?_suffix hr))

theorem keywordName?_local {word text : List Char} (hlast : text.getLast? = some '(') (hword : '(' ∉ word)
    (more : List Char) :
    keywordName? word (text ++ more) = (keywordName? word text).map fun q => (q.1, q.2 ++ more) := by
  unfold keywordName?
  rw [literal?_before_mark hlast fun h => hword (List.dropLast_subset _ h)]
  cases hl : literal? word text with
  | none => rfl
  | some r =>
    have hr := getLast?_of_literal? hlast hword hl
    simp only [Option.map_some, Option.bind_eq_bind, Option.bind_some]
    rw [spaces?_before_mark hr (by decide)]
    cases hs : spaces? r with
    | none => rfl
    | some t =>
      have ht := getLast?_of_spaces? hr (by decide) hs
      simp only [Option.map_some, Option.bind_some]
      exact name?_before_mark ht isWordOrDollar_open

theorem typeKeyword?_suffix {text : List Char} {p : TypeKind × List Char × List Char} (h : typeKeyword? text = some p) :
    p.2.2 <:+ text := by
  rw [typeKeyword?_eq] at h
  obtain ⟨k, -, hk⟩ := List.exists_of_findSome?_eq_some h
  obtain ⟨q, hq, rfl⟩ := Option.map_eq_some_iff.1 hk
  exact keywordName?_suffix hq

theorem typeKeyword?_local {text : List Char} (hlast : text.getLast? = some '(') (more : List Char) :
    typeKeyword? (text ++ more) = (typeKeyword? text).map fun p => (p.1, p.2.1, p.2.2 ++ more) := by
  have hwords : ∀ k ∈ typeKeywords, '(' ∉ k.1 := by decide
  rw [typeKeyword?_eq, typeKeyword?_eq]
  generalize typeKeywords = keywords at hwords ⊢
  induction keywords with
  | nil => rfl
  | cons k ks ih =>
    have hk := keywordName?_local hlast (hwords k List.mem_cons_self) more
    rw [List.findSome?_cons, List.findSome?_cons, hk]
    cases keywordName? k.1 text with
    | none => exact ih fun l hl => hwords l (List.mem_cons_of_mem k hl)
    | some q => rfl

/-- A keyword before the last parenthesis is the first one whatever follows; otherwise the search goes on behind. -/
theorem headingFrom_local {before : Option Char} (hend : EndsOpen cs) :
    (∀ h, headingFrom before cs = some h →
      headingFrom before (cs ++ tail) = some { h with after := h.after ++ tail }) ∧
    (headingFrom before cs = none → ∀ h, headingFrom before (cs ++ tail) = some h → cs <+: h.before) := by
  induction cs generalizing before with
  | nil =>
    refine ⟨fun h hh => ?_, fun _ h _ => List.nil_prefix⟩
    cases hh
  | cons c cs ih =>
    obtain ⟨ihsome, ihnone⟩ := @ih (some c.view) (hend.suffix (List.suffix_cons c cs))
    have hlast : (views (c :: cs)).getLast? = some '(' := by
      rw [views, List.getLast?_map]
      cases hl : (c :: cs).getLast? with
      | none => simp at hl
      | some d => rw [Option.map_some, hend d hl]
    have hlocal : typeKeyword? (views (c :: (cs ++ tail))) =
        (typeKeyword? (views (c :: cs))).map fun p => (p.1, p.2.1, p.2.2 ++ views tail) := by
      rw [← typeKeyword?_local hlast, ← List.cons_append, views, views, views, List.map_append]
    -- where no keyword is read the search goes on behind the cell
    have hlater : (∀ h, (headingFrom (some c.view) cs).map (fun h => { h with before := c :: h.before }) = some h →
          (headingFrom (some c.view) (cs ++ tail)).map (fun h => { h with before := c :: h.before }) =
            some { h with after := h.after ++ tail }) ∧
        ((headingFrom (some c.view) cs).map (fun h => { h with before := c :: h.before }) = none →
          ∀ h, (headingFrom (some c.view) (cs ++ tail)).map (fun h => { h with before := c :: h.before }) = some h →
            c :: cs <+: h.before) := by
      refine ⟨fun h hh => ?_, fun hnone h hh => ?_⟩
      · obtain ⟨h', hh', rfl⟩ := Option.map_eq_some_iff.1 hh
        rw [ihsome h' hh']
        rfl
      · obtain ⟨h', hh', rfl⟩ := Option.map_eq_some_iff.1 hh
        exact (List.prefix_cons_inj c).2 (ihnone (Option.map_eq_none_iff.1 hnone) h' hh')
    rw [List.cons_append, headingFrom, headingFrom]
    cases hmay : mayPrecedeKeyword before with
    | false => simpa only [Bool.false_eq_true, if_false] using hlater
    | true =>
      simp only [if_true, hlocal]
      cases hword : typeKeyword? (views (c :: cs)) with
      | none => simpa only [Option.map_none] using hlater
      | some p =>
        refine ⟨fun h hh => ?_, fun hnone => by cases hnone⟩
        obtain rfl := Option.some.inj hh
        have hle : p.2.2.length ≤ cs.length + 1 := by
          simpa [views] using (typeKeyword?_suffix hword).sublist.length_le
        have hdrop : (cs ++ tail).length + 1 - (p.2.2 ++ views tail).length = cs.length + 1 - p.2.2.length := by
          simp only [views, List.length_append, List.length_map]
          omega
        simp only [Option.map_some, hdrop, ← List.cons_append]
        rw [List.drop_append_of_le_length (by simp)]

/-- Before the last parenthesis stands the same heading whatever follows it, or none. -/
theorem heading?_local (hend : EndsOpen cs) (hne : cs ≠ []) :
    heading? (cs ++ tail) = (heading? cs).map fun h => { h with after := h.after ++ tail } := by
  obtain ⟨hsome, hnone⟩ : _ ∧ (_ → ∀ h, headingFrom none (cs ++ tail) = some h → _) := headingFrom_local hend
  rw [heading?, heading?]
  cases hh : headingFrom none cs with
  | some h =>
    rw [hsome h hh]
    cases hany : h.before.any fun c => c.view = '(' <;> simp [Option.filter, hany]
  | none =>
    rw [Option.filter_none, Option.map_none, Option.filter_eq_none_iff]
    intro h hh'
    have hprefix := hnone hh h hh'
    have hparen : h.before.any (fun c => c.view = '(') = true :=
      List.any_eq_true.2 ⟨cs.getLast hne, hprefix.subset (List.getLast_mem hne), by
        simpa using hend _ (List.getLast?_eq_some_getLast hne)⟩
    simp [hparen]

end WireLayout.Java
