import WireLayout.Proofs.Java.Annotation
import WireLayout.Proofs.Java.Mask
import WireLayout.Proofs.Java.TypeText
import WireLayout.Proofs.Text.WordMatches

/-! The header of a type as it is written: annotations and modifiers, the keyword, the name and what follows it. Each
annotation and each modifier is passed over, so that the keyword is found behind them and the heading is that of the
keyword and the name. -/

namespace WireLayout.Java

open WireLayout.Text

variable {cs rest gap : List Cell} {w : List Char} {c : Cell}

theorem Identifier.wholeName (hw : Identifier w) : WholeName w := by
  refine ⟨?_, hw.isWordOrDollar⟩
  obtain ⟨x, v, rfl⟩ := List.exists_cons_of_ne_nil hw.nonempty
  have hident := hw.ident x List.mem_cons_self
  rw [isIdent, hw.head x rfl, Bool.or_false] at hident
  exact ⟨x, rfl, hident⟩

/-- An annotation with its arguments, or a modifier, and the blanks behind. -/
inductive Mark where
  | tag (name : List Cell) (arguments : Option (List Cell × List Cell)) (gap : List Cell)
  | modifier (word : List Cell) (gap : List Cell)

namespace Mark

/-- The arguments of an annotation, with the blanks before their parentheses. -/
def parentheses : Option (List Cell × List Cell) → List Cell
  | none => []
  | some (gap, inside) => gap ++ Cell.code '(' :: (inside ++ [Cell.code ')'])

def cells : Mark → List Cell
  | tag name arguments gap => Cell.code '@' :: (name ++ (parentheses arguments ++ gap))
  | modifier word gap => word ++ gap

def WellFormed : Mark → List Cell → Prop
  | tag name arguments gap, next =>
    (∀ c ∈ name, isAnnotationCell c = true) ∧ shownText name ≠ "interface" ∧
      (∀ p ∈ arguments, Blank p.1 ∧ isBalanced (views p.2) = true) ∧ Blank gap ∧
        (arguments = none → ∀ c ∈ (gap ++ next).head?, isAnnotationCell c = false)
  | modifier word gap, next =>
    (∀ c ∈ word, isModifierCell c = true) ∧ shownText word ∈ modifierWords ∧ Blank gap ∧
      ∀ c ∈ (gap ++ next).head?, isModifierCell c = false

def word? : Mark → Option String
  | tag .. => none
  | modifier word _ => some (shownText word)

def title? : Mark → Option String
  | tag name .. => some (shownText name)
  | modifier .. => none

variable {m : Mark}

theorem head_cells (h : m.WellFormed rest) :
    ∃ c cs, m.cells = c :: cs ∧ c.isBlank = false ∧ c.view ≠ '(' := by
  cases m with
  | tag name arguments gap => exact ⟨_, _, rfl, rfl, by decide⟩
  | modifier word gap =>
    obtain ⟨hcells, hword, -⟩ := h
    have hne : word ≠ [] := by
      rintro rfl
      exact absurd hword (by decide)
    obtain ⟨c, cs, rfl, hblank, -⟩ := isModifierCell_head hcells hne
    refine ⟨c, cs ++ gap, rfl, hblank, fun hopen => ?_⟩
    have hcell := hcells c List.mem_cons_self
    rw [isModifierCell, Cell.isIdent, hopen] at hcell
    exact absurd hcell (by decide)

theorem preamble_cells (h : m.WellFormed rest) (hrest : ∀ c ∈ rest.head?, c.isBlank = false ∧ c.view ≠ '(') :
    preamble (m.cells ++ rest) = { preamble rest with
      annotations := m.title?.toList ++ (preamble rest).annotations
      modifiers := m.word?.toList ++ (preamble rest).modifiers } := by
  have hshown : ∀ c ∈ (dropBlank rest).head?, c.view ≠ '(' := by
    cases rest with
    | nil => simp [dropBlank]
    | cons c rest =>
      rw [dropBlank_cons (hrest c rfl).1]
      exact fun d hd => (hrest d hd).2
  cases m with
  | tag name arguments gap =>
    obtain ⟨hname, htitle, harguments, hgap, hstop⟩ := h
    have hcells : (tag name arguments gap).cells ++ rest =
        Cell.code '@' :: (name ++ (parentheses arguments ++ (gap ++ rest))) := by simp [cells]
    have hskip : preamble (skipArguments (parentheses arguments ++ (gap ++ rest))) = preamble rest := by
      cases arguments with
      | none =>
        rw [parentheses, List.nil_append, preamble_skipArguments (by rwa [dropBlank_append hgap]),
          preamble_append_blank hgap]
      | some p =>
        obtain ⟨hbefore, hinside⟩ := harguments p rfl
        rw [parentheses, List.append_assoc, List.cons_append, List.append_assoc, List.singleton_append,
          skipArguments_parentheses hbefore (isBalanced_map.1 hinside), preamble_append_blank hgap]
    have hend : ∀ c ∈ (parentheses arguments ++ (gap ++ rest)).head?, isAnnotationCell c = false := by
      cases arguments with
      | none => exact hstop rfl
      | some p =>
        obtain ⟨hbefore, -⟩ := harguments p rfl
        intro c hc
        rw [parentheses, List.append_assoc] at hc
        cases hp : p.1 with
        | nil =>
          rw [hp] at hc
          rw [← Option.some.inj hc]
          decide
        | cons b bs =>
          rw [hp] at hc
          rw [← Option.some.inj hc]
          exact isAnnotationCell_of_isBlank (hbefore b (by rw [hp]; exact List.mem_cons_self))
    rw [hcells, preamble_annotation hname htitle hend, hskip]
    rfl
  | modifier word gap =>
    obtain ⟨hcells, hword, hgap, hstop⟩ := h
    rw [cells, List.append_assoc, preamble_modifier hcells hword hstop, preamble_append_blank hgap]
    rfl

/-- Outside its parentheses an annotation or a modifier has no mark but the sign. -/
theorem balanced_cells (h : m.WellFormed rest) {xs : List Char} (hxs : xs ⊆ marks) (hsign : '@' ∉ xs) (hopen : '(' ∉ xs) :
    Balanced Cell.view m.cells ∧ Free Cell.view xs m.cells := by
  cases m with
  | tag name arguments gap =>
    obtain ⟨hname, -, harguments, hgap, -⟩ := h
    have hunmarked : Unmarked name := by
      intro c hc
      have hcell := hname c hc
      rw [isAnnotationCell, Bool.or_eq_true, decide_eq_true_eq] at hcell
      rcases hcell with hident | hpoint
      · exact notMem_marks_of_isIdent hident
      · rw [hpoint]
        decide
    have hblank := unmarked_of_blank hgap
    have hgroup : Balanced Cell.view (parentheses arguments) ∧ Free Cell.view xs (parentheses arguments) := by
      cases arguments with
      | none => exact ⟨.nil, fun it hit => absurd hit List.not_mem_nil⟩
      | some p =>
        obtain ⟨hbefore, hinside⟩ := harguments p rfl
        have hfront := unmarked_of_blank hbefore
        have hbalanced : Balanced Cell.view p.2 := isBalanced_map.1 hinside
        refine ⟨hfront.balanced.append (.bracketed rfl hbalanced), (free_append hfront.balanced).2 ⟨hfront.free hxs, ?_⟩⟩
        exact (free_group hbalanced rfl).2 ⟨hopen, fun it hit => absurd hit List.not_mem_nil⟩
    refine ⟨.plain rfl rfl (hunmarked.balanced.append (hgroup.1.append hblank.balanced)), ?_⟩
    rw [cells, free_cons rfl, free_append hunmarked.balanced, free_append hgroup.1]
    exact ⟨hsign, hunmarked.free hxs, hgroup.2, hblank.free hxs⟩
  | modifier word gap =>
    obtain ⟨hcells, -, hgap, -⟩ := h
    have hunmarked := unmarked_append.2 ⟨unmarked_of_isModifierCell hcells, unmarked_of_blank hgap⟩
    exact ⟨hunmarked.balanced, hunmarked.free hxs⟩

end Mark

/-- Annotations and modifiers in front of a declaration, each well-formed before what follows it. -/
def Marked : List Mark → List Cell → Prop
  | [], _ => True
  | m :: ms, next => m.WellFormed (ms.flatMap Mark.cells ++ next) ∧ Marked ms next

/-- The annotations and modifiers are read one after another, by induction on them. -/
theorem preamble_marks {ms : List Mark} (h : Marked ms rest) (hhead : ∀ c ∈ rest.head?, c.isBlank = false ∧ c.view ≠ '(') :
    preamble (ms.flatMap Mark.cells ++ rest) = { preamble rest with
      annotations := ms.filterMap Mark.title? ++ (preamble rest).annotations
      modifiers := ms.filterMap Mark.word? ++ (preamble rest).modifiers } := by
  have hmarks : ∀ {ms : List Mark}, Marked ms rest →
      ∀ c ∈ (ms.flatMap Mark.cells ++ rest).head?, c.isBlank = false ∧ c.view ≠ '(' := by
    intro ms h
    cases ms with
    | nil => exact hhead
    | cons m ms =>
      obtain ⟨c, cs, hcells, hc⟩ := m.head_cells h.1
      intro d hd
      rw [List.flatMap_cons, hcells] at hd
      rw [← Option.some.inj hd]
      exact hc
  induction ms with
  | nil => rfl
  | cons m ms ih =>
    obtain ⟨hm, hms⟩ := h
    rw [List.flatMap_cons, List.append_assoc, Mark.preamble_cells hm (hmarks hms), ih hms]
    cases m <;> rfl

theorem preamble_marked {ms : List Mark} (h : Marked ms rest) (hhead : ∀ c ∈ rest.head?, c.isBlank = false ∧ c.view ≠ '(')
    (hrest : Plain rest) :
    preamble (ms.flatMap Mark.cells ++ rest) = ⟨ms.filterMap Mark.title?, ms.filterMap Mark.word?, rest⟩ := by
  rw [preamble_marks h hhead, preamble_plain hrest, List.append_nil, List.append_nil]

theorem balanced_marked {ms : List Mark} (h : Marked ms rest) {xs : List Char} (hxs : xs ⊆ marks) (hsign : '@' ∉ xs)
    (hopen : '(' ∉ xs) :
    Balanced Cell.view (ms.flatMap Mark.cells) ∧ Free Cell.view xs (ms.flatMap Mark.cells) := by
  induction ms with
  | nil => exact ⟨.nil, fun it hit => absurd hit List.not_mem_nil⟩
  | cons m ms ih =>
    obtain ⟨hbalanced, hfree⟩ := Mark.balanced_cells h.1 hxs hsign hopen
    obtain ⟨hbalanced', hfree'⟩ := ih h.2
    exact ⟨hbalanced.append hbalanced', (free_append hbalanced).2 ⟨hfree, hfree'⟩⟩

theorem isSpace_of_blank (h : Blank gap) : ∀ c ∈ views gap, isSpace c = true := by
  intro c hc
  obtain ⟨s, hs, rfl⟩ := List.mem_map.1 hc
  by_contra hnot
  have hblank := h s hs
  rw [Cell.isBlank, isAsciiSpace_of_isSpace (by simpa using hnot)] at hblank
  cases hblank

def TypeKind.keyword : TypeKind → List Char
  | classType => "class".toList
  | interfaceType => "interface".toList
  | enumType => "enum".toList
  | recordType => "record".toList

/-- A header: blanks, annotations and modifiers, the keyword, the name and what follows it. -/
structure TypeHeader where
  gap : List Cell
  marks : List Mark
  kind : TypeKind
  space : List Cell
  name : List Char
  after : List Cell

namespace TypeHeader

variable {t : TypeHeader}

def declared (t : TypeHeader) : List Cell := codes t.kind.keyword ++ (t.space ++ (codes t.name ++ t.after))

def cells (t : TypeHeader) : List Cell := t.gap ++ (t.marks.flatMap Mark.cells ++ t.declared)

structure WellFormed (t : TypeHeader) : Prop where
  gap : Blank t.gap
  marks : Marked t.marks t.declared
  space : Blank t.space ∧ t.space ≠ []
  name : WholeName t.name
  after : Stops isWordOrDollar (views t.after)

def heading (t : TypeHeader) : Heading := ⟨[], t.kind, String.ofList t.name, t.after⟩

theorem head_keyword (kind : TypeKind) :
    ∃ c cs, kind.keyword = c :: cs ∧ (Cell.code c).isBlank = false ∧ c ≠ '@' ∧ c ≠ '<' ∧ c ≠ '(' := by
  cases kind <;> exact ⟨_, _, rfl, by decide, by decide, by decide, by decide⟩

theorem isIdent_keyword (kind : TypeKind) : ∀ c ∈ kind.keyword, isIdent c = true := by
  cases kind <;> exact List.all_eq_true.1 (by decide)

theorem modifierWords_keyword (kind : TypeKind) : modifierWords.contains (String.ofList kind.keyword) = false := by
  cases kind <;> decide

theorem space_cons (h : t.WellFormed) : ∃ s rest, t.space = s :: rest ∧ s.isBlank = true := by
  obtain ⟨s, rest, hs⟩ := List.exists_cons_of_ne_nil h.space.2
  exact ⟨s, rest, hs, h.space.1 s (by rw [hs]; exact List.mem_cons_self)⟩

theorem plain_declared (h : t.WellFormed) : Plain t.declared := by
  obtain ⟨k, ks, hk, hblank, hsign, hangle, -⟩ := head_keyword t.kind
  obtain ⟨s, space, hs, hspace⟩ := space_cons h
  have hcell : ∀ c ∈ codes t.kind.keyword, isModifierCell c = true := by
    refine forall_codes.2 fun c hc => ?_
    simp [isModifierCell, Cell.isIdent, isIdent_keyword t.kind c hc]
  have hstop : ∀ c ∈ (t.space ++ (codes t.name ++ t.after)).head?, isModifierCell c = false := by
    intro c hc
    rw [hs] at hc
    rw [← Option.some.inj hc]
    exact isModifierCell_of_isBlank hspace
  refine ⟨fun c hc => ?_, ?_⟩
  · rw [declared, hk] at hc
    rw [← Option.some.inj hc]
    exact ⟨hblank, hsign, hangle⟩
  · rw [declared, (span_append hcell hstop).1, shownText_codes]
    exact modifierWords_keyword t.kind

theorem preamble_cells (h : t.WellFormed) :
    preamble t.cells = ⟨t.marks.filterMap Mark.title?, t.marks.filterMap Mark.word?, t.declared⟩ := by
  obtain ⟨k, ks, hk, hblank, -, -, hopen⟩ := head_keyword t.kind
  rw [cells, preamble_append_blank h.gap]
  refine preamble_marked h.marks (fun c hc => ?_) (plain_declared h)
  rw [declared, hk] at hc
  rw [← Option.some.inj hc]
  exact ⟨hblank, hopen⟩

theorem views_declared (t : TypeHeader) :
    views t.declared = t.kind.keyword ++ (views t.space ++ (t.name ++ views t.after)) := by
  simp only [declared, views_append, views_codes]

theorem typeKeyword?_declared (h : t.WellFormed) :
    typeKeyword? (views t.declared) = some (t.kind, t.name, views t.after) := by
  have hspace := isSpace_of_blank h.space.1
  have hstop : Stops isSpace (t.name ++ views t.after) := by
    intro c hc
    rw [List.head?_append_of_ne_nil _ h.name.ne_nil] at hc
    exact isSpace_of_isWordOrDollar (h.name.chars c (List.mem_of_mem_head? hc))
  have hspaces : spaces? (views t.space ++ (t.name ++ views t.after)) = some (t.name ++ views t.after) := by
    rw [spaces?, run?_append (by simpa [views] using h.space.2) hspace hstop]
    rfl
  have hname : name? (t.name ++ views t.after) = some (t.name, views t.after) :=
    name?_eq_some_iff.2 ⟨rfl, h.name, h.after⟩
  have hfound : keywordName? t.kind.keyword (views t.declared) = some (t.name, views t.after) := by
    rw [keywordName?, views_declared, literal?_append]
    simp only [Option.bind_eq_bind, Option.bind_some, hspaces, hname]
  -- the keywords begin with different letters
  have hother : ∀ kind, kind ≠ t.kind → keywordName? kind.keyword (views t.declared) = none := by
    intro kind hne
    have hliteral : literal? kind.keyword (views t.declared) = none := by
      rw [views_declared]
      cases kind <;> cases hkind : t.kind <;> first
        | exact absurd hkind.symm hne
        | rfl
    rw [keywordName?, hliteral]
    rfl
  have hwords : typeKeywords = [(TypeKind.classType.keyword, .classType), (TypeKind.interfaceType.keyword, .interfaceType),
      (TypeKind.enumType.keyword, .enumType), (TypeKind.recordType.keyword, .recordType)] := rfl
  rw [typeKeyword?_eq, hwords]
  cases hkind : t.kind <;> rw [hkind] at hfound hother <;> simp [hfound, hother]

theorem heading?_declared (h : t.WellFormed) : heading? t.declared = some t.heading := by
  have hkeyword := typeKeyword?_declared h
  obtain ⟨k, ks, hk, -⟩ := head_keyword t.kind
  have hfound : headingFrom none t.declared = some t.heading := by
    have hcons : t.declared = Cell.code k :: (codes ks ++ (t.space ++ (codes t.name ++ t.after))) := by
      rw [declared, hk]
      rfl
    have hsplit : t.declared = (codes t.kind.keyword ++ (t.space ++ codes t.name)) ++ t.after := by
      simp [declared]
    have hafter : t.declared.drop (t.declared.length - (views t.after).length) = t.after := by
      have hlength : t.declared.length - (views t.after).length =
          (codes t.kind.keyword ++ (t.space ++ codes t.name)).length := by
        rw [hsplit, List.length_append, views, List.length_map, Nat.add_sub_cancel]
      rw [hlength, hsplit, List.drop_left]
    have hmay : mayPrecedeKeyword none = true := rfl
    rw [hcons] at hkeyword hafter ⊢
    rw [headingFrom, hmay]
    simp only [if_true, hkeyword]
    rw [← List.length_cons (a := Cell.code k), hafter]
    rfl
  rw [heading?, hfound]
  rfl

theorem heading?_cells (h : t.WellFormed) : heading? (preamble t.cells).rest = some t.heading := by
  rw [preamble_cells h, heading?_declared h]

end TypeHeader

end WireLayout.Java
