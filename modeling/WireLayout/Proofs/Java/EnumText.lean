import WireLayout.FieldList
import WireLayout.Proofs.Java.Places
import WireLayout.Proofs.Java.TypeHeader
import WireLayout.Proofs.Layout.IntegerText

/-! Enums as they are written: constants with their annotations, arguments and bodies between commas, and the members
behind a semicolon. Every list of constants is read back one by one, in order and with the arguments of each, and a
constant has the value of its first argument or its position. -/

namespace WireLayout.Java

open WireLayout.Text WireLayout.FieldList

variable {cs rest gap tail : List Cell}

/-- The words that Java reserves. -/
def keywords : List String :=
  ["abstract", "assert", "boolean", "break", "byte", "case", "catch", "char", "class", "const", "continue", "default",
    "do", "double", "else", "enum", "extends", "final", "finally", "float", "for", "goto", "if", "implements", "import",
    "instanceof", "int", "interface", "long", "native", "new", "package", "private", "protected", "public", "return",
    "short", "static", "strictfp", "super", "switch", "synchronized", "this", "throw", "throws", "transient", "try",
    "void", "volatile", "while", "_"]

/-- A part of a list: its brackets match, its commas lie within them, and it shows something. -/
structure IsItem (cs : List Cell) : Prop where
  balanced : isBalanced (views cs) = true
  free : Free Cell.view [','] cs
  shows : trimCells cs ≠ []

theorem IsItem.isPart (h : IsItem cs) : IsPart Cell.view false cs :=
  ⟨walk_balanced (isBalanced_map.1 h.balanced) h.free, h.shows⟩

/-- The arguments of a constant: the blanks before their parentheses, the arguments, and the blanks behind them. -/
structure ArgumentList where
  gap : List Cell
  arguments : List (List Cell)
  tail : List Cell

namespace ArgumentList

def inside (l : ArgumentList) : List Cell := [Cell.code ','].intercalate l.arguments ++ l.tail

def cells (l : ArgumentList) : List Cell := l.gap ++ Cell.code '(' :: (l.inside ++ [Cell.code ')'])

structure WellFormed (l : ArgumentList) : Prop where
  gap : Blank l.gap
  arguments : ∀ a ∈ l.arguments, IsItem a
  tail : Blank l.tail

def texts (l : ArgumentList) : List String :=
  l.arguments.map fun a => String.ofList (trim isSpace (verbatim (trimCells a)))

variable {l : ArgumentList}

theorem pieces_inside (h : l.WellFormed) : pieces Cell.view false ',' l.inside = l.arguments.map trimCells :=
  pieces_commas (Cell.view_code ',') (fun a ha => (h.arguments a ha).isPart) (.inl h.tail)

theorem balanced_inside (h : l.WellFormed) : Balanced Cell.view l.inside := by
  have hlist : Balanced Cell.view ([Cell.code ','].intercalate l.arguments) ∧ Free Cell.view [] _ :=
    balanced_commas (Cell.view_code ',') (fun a ha => isBalanced_map.1 (h.arguments a ha).balanced)
      (fun a _ it _ => List.not_mem_nil) List.not_mem_nil
  exact hlist.1.append (unmarked_of_blank h.tail).balanced

end ArgumentList

/-- A constant: blanks, annotations, the name, the arguments, the body with the blanks before its brace, and blanks. -/
structure ConstantText where
  before : List Cell
  annotations : List Mark
  name : List Char
  arguments : Option ArgumentList
  body : Option (List Cell × List Cell)
  after : List Cell

namespace ConstantText

def braces : Option (List Cell × List Cell) → List Cell
  | none => []
  | some (gap, inside) => gap ++ Cell.code '{' :: (inside ++ [Cell.code '}'])

def argumentCells (k : ConstantText) : List Cell := (k.arguments.map ArgumentList.cells).getD []

def declared (k : ConstantText) : List Cell := codes k.name ++ (k.argumentCells ++ braces k.body)

def core (k : ConstantText) : List Cell := k.annotations.flatMap Mark.cells ++ k.declared

def cells (k : ConstantText) : List Cell := k.before ++ (k.core ++ k.after)

structure WellFormed (k : ConstantText) : Prop where
  before : Blank k.before
  annotations : Marked k.annotations k.declared
  name : k.name ≠ [] ∧ ∀ c ∈ k.name, isIdent c = true
  first : ∀ c ∈ k.name.head?, isAsciiDigit c = false
  reserved : String.ofList k.name ∉ keywords
  arguments : ∀ l ∈ k.arguments, l.WellFormed
  body : ∀ b ∈ k.body, Blank b.1 ∧ isBalanced (views b.2) = true
  after : Blank k.after

def constant (k : ConstantText) : EnumConstant :=
  ⟨String.ofList k.name, (k.arguments.map ArgumentList.texts).getD []⟩

variable {k : ConstantText}

/-- Behind its name a constant ends, or a parenthesis or a brace follows. -/
theorem exists_tail (h : k.WellFormed) : ∃ gap rest, Blank gap ∧ (∀ c ∈ rest.head?, c.view = '(' ∨ c.view = '{') ∧
    k.argumentCells ++ braces k.body = gap ++ rest := by
  cases ha : k.arguments with
  | some l =>
    refine ⟨l.gap, Cell.code '(' :: (l.inside ++ [Cell.code ')'] ++ braces k.body), (h.arguments l ha).gap, ?_, ?_⟩
    · simp
    · simp [argumentCells, ha, ArgumentList.cells]
  | none =>
    cases hb : k.body with
    | some b =>
      refine ⟨b.1, Cell.code '{' :: (b.2 ++ [Cell.code '}']), (h.body b hb).1, ?_, ?_⟩
      · simp
      · simp [argumentCells, ha, braces]
    | none => exact ⟨[], [], by simp [Blank], by simp, by simp [argumentCells, ha, braces]⟩

theorem head_tail (h : k.WellFormed) : ∀ c ∈ (k.argumentCells ++ braces k.body).head?, isModifierCell c = false := by
  obtain ⟨gap, rest, hgap, hrest, heq⟩ := exists_tail h
  intro c hc
  rw [heq] at hc
  cases gap with
  | nil => rcases hrest c hc with hview | hview <;> (rw [isModifierCell, Cell.isIdent, hview]; decide)
  | cons g gap =>
    rw [← Option.some.inj hc]
    exact isModifierCell_of_isBlank (hgap g List.mem_cons_self)

theorem isIdent_of_not_isModifierCell {c : Cell} (h : isModifierCell c = false) : c.isIdent = false := by
  rw [isModifierCell, Bool.or_eq_false_iff] at h
  exact h.1

/-- A modifier is reserved, has a dash in it, or is `sealed`. -/
theorem modifierWords_reserved : ∀ m ∈ modifierWords, m ∈ keywords ∨ m = "sealed" ∨ '-' ∈ m.toList := by decide

theorem isModifierCell_name (h : k.WellFormed) : ∀ c ∈ codes k.name, isModifierCell c = true :=
  forall_codes.2 fun c hc => by simp [isModifierCell, Cell.isIdent, h.name.2 c hc]

theorem plain_declared (h : k.WellFormed) (hsealed : k.name ≠ "sealed".toList) : Plain k.declared := by
  refine ⟨fun c hc => ?_, ?_⟩
  · obtain ⟨x, xs, hname⟩ := List.exists_cons_of_ne_nil h.name.1
    rw [declared, hname] at hc
    obtain rfl := Option.some.inj hc
    have hident := h.name.2 x (by rw [hname]; exact List.mem_cons_self)
    refine ⟨isAsciiSpace_of_isIdent hident, ?_, ?_⟩
    · rintro rfl
      exact absurd hident (by decide)
    · rintro rfl
      exact absurd hident (by decide)
  · rw [declared, (span_append (isModifierCell_name h) (head_tail h)).1, shownText_codes]
    by_contra hword
    rcases modifierWords_reserved _ (by simpa using hword) with hreserved | hseal | hdash
    · exact h.reserved hreserved
    · exact hsealed (by rw [← hseal, String.toList_ofList])
    · rw [String.toList_ofList] at hdash
      exact absurd (h.name.2 _ hdash) (by decide)

theorem head_declared (h : k.WellFormed) : ∀ c ∈ k.declared.head?, c.isBlank = false ∧ c.view ≠ '(' := by
  intro c hc
  obtain ⟨x, xs, hname⟩ := List.exists_cons_of_ne_nil h.name.1
  rw [declared, hname] at hc
  obtain rfl := Option.some.inj hc
  have hident := h.name.2 x (by rw [hname]; exact List.mem_cons_self)
  refine ⟨isAsciiSpace_of_isIdent hident, ?_⟩
  rintro rfl
  exact absurd hident (by decide)

/-- A constant is read with its name and its arguments; its annotations and its body are passed over. -/
theorem enumConstant?_core (h : k.WellFormed) (hsealed : k.name ≠ "sealed".toList) :
    enumConstant? k.core = some k.constant := by
  have hrest : (preamble k.core).rest = k.declared := by
    rw [core, preamble_marked h.annotations (head_declared h) (plain_declared h hsealed)]
  obtain ⟨htake, hdrop⟩ : k.declared.takeWhile Cell.isIdent = codes k.name ∧
      k.declared.dropWhile Cell.isIdent = k.argumentCells ++ braces k.body :=
    span_append (forall_codes.2 h.name.2) fun c hc => isIdent_of_not_isModifierCell (head_tail h c hc)
  have hne : (!(codes k.name).isEmpty) = true := by simpa using h.name.1
  rw [enumConstant?, hrest]
  simp only [htake, hdrop, hne, guard, if_true, Option.bind_eq_bind, shownText_codes]
  rw [constant]
  cases ha : k.arguments with
  | some l =>
    have hl := h.arguments l ha
    have hopen : (Cell.code '(').isBlank = false := rfl
    have hcells : k.argumentCells ++ braces k.body =
        l.gap ++ Cell.code '(' :: (l.inside ++ Cell.code ')' :: braces k.body) := by
      simp [argumentCells, ha, ArgumentList.cells]
    have hclosing : closing Cell.view '(' ')' 1 (l.inside ++ Cell.code ')' :: braces k.body) =
        some (l.inside, braces k.body) := closing_balanced (c := Cell.code ')') (ArgumentList.balanced_inside hl) rfl
    rw [hcells, dropBlank_append hl.gap, dropBlank_cons hopen]
    simp only [Cell.view_code, if_true, hclosing, Option.bind_some, ArgumentList.pieces_inside hl, List.map_map]
    rfl
  | none =>
    have hcells : k.argumentCells ++ braces k.body = braces k.body := by simp [argumentCells, ha]
    rw [hcells]
    cases hb : k.body with
    | none => rfl
    | some b =>
      have hbrace : (Cell.code '{').isBlank = false := rfl
      rw [braces, dropBlank_append (h.body b hb).1, dropBlank_cons hbrace]
      simp

/-- The word `sealed` is taken for a modifier, and nothing is left to be the name. -/
theorem enumConstant?_sealed (h : k.WellFormed) (hsealed : k.name = "sealed".toList) : enumConstant? k.core = none := by
  obtain ⟨gap, rest, hgap, hhead, htail⟩ := exists_tail h
  have hword : shownText (codes k.name) ∈ modifierWords := by
    rw [shownText_codes, hsealed]
    decide
  have hnothing : ∀ p : Cell → Bool, (∀ c : Cell, c.view = '(' ∨ c.view = '{' → p c = false) → rest.takeWhile p = [] := by
    intro p hp
    rw [List.takeWhile_eq_nil_iff]
    intro hlt hfirst
    rw [hp _ (hhead _ (by rw [List.head?_eq_getElem?, List.getElem?_eq_getElem hlt]; rfl))] at hfirst
    cases hfirst
  have hplain : Plain rest := by
    refine ⟨fun c hc => ?_, ?_⟩
    · rw [Cell.isBlank]
      rcases hhead c hc with hview | hview <;> (rw [hview]; decide)
    · rw [hnothing isModifierCell fun c hc => by
        rw [isModifierCell, Cell.isIdent]
        rcases hc with hview | hview <;> (rw [hview]; decide)]
      decide
  have hrest : (preamble k.core).rest = rest := by
    rw [core, preamble_marks h.annotations (head_declared h), declared,
      preamble_modifier (isModifierCell_name h) hword (head_tail h), htail, preamble_append_blank hgap,
      preamble_plain hplain]
  have hident : rest.takeWhile Cell.isIdent = [] := by
    refine hnothing Cell.isIdent fun c hc => ?_
    rw [Cell.isIdent]
    rcases hc with hview | hview <;> (rw [hview]; decide)
  rw [enumConstant?, hrest, hident]
  rfl

/-- A constant ends in its name, a parenthesis or a brace. -/
theorem last_declared (h : k.WellFormed) : ∀ c ∈ k.declared.getLast?, c.isBlank = false := by
  intro c hc
  cases hb : k.body with
  | some b =>
    have hcells : k.declared =
        (codes k.name ++ (k.argumentCells ++ (b.1 ++ Cell.code '{' :: b.2))) ++ [Cell.code '}'] := by
      simp [declared, hb, braces]
    rw [hcells, List.getLast?_concat] at hc
    rw [← Option.some.inj hc]
    rfl
  | none =>
    cases ha : k.arguments with
    | some l =>
      have hcells : k.declared = (codes k.name ++ (l.gap ++ Cell.code '(' :: l.inside)) ++ [Cell.code ')'] := by
        simp [declared, hb, braces, argumentCells, ha, ArgumentList.cells]
      rw [hcells, List.getLast?_concat] at hc
      rw [← Option.some.inj hc]
      rfl
    | none =>
      have hcells : k.declared = codes k.name := by simp [declared, hb, braces, argumentCells, ha]
      rw [hcells] at hc
      have hident : ∀ c ∈ codes k.name, c.isIdent = true := forall_codes.2 h.name.2
      exact isBlank_of_isIdent (hident c (List.mem_of_getLast? hc))

theorem trimCells_cells (h : k.WellFormed) : trimCells k.cells = k.core := by
  have hne : k.declared ≠ [] := by simp [declared, h.name.1]
  have hhead : ∀ c ∈ k.core.head?, c.isBlank = false := by
    intro c hc
    rw [core] at hc
    cases hms : k.annotations with
    | nil =>
      rw [hms] at hc
      exact (head_declared h c hc).1
    | cons m ms =>
      have hmarks := h.annotations
      rw [hms] at hc hmarks
      obtain ⟨d, ds, hcells, hblank, -⟩ := m.head_cells hmarks.1
      rw [List.flatMap_cons, hcells] at hc
      rw [← Option.some.inj hc]
      exact hblank
  have hlast : ∀ c ∈ k.core.getLast?, c.isBlank = false := by
    rw [core, List.getLast?_append_of_ne_nil _ hne]
    exact last_declared h
  exact trim_between h.before h.after hhead hlast

/-- Outside its brackets a constant holds no mark but the signs of its annotations. -/
theorem balanced_cells (h : k.WellFormed) {xs : List Char} (hxs : xs ⊆ marks) (hsign : '@' ∉ xs) (hopen : '(' ∉ xs)
    (hbrace : '{' ∉ xs) : Balanced Cell.view k.cells ∧ Free Cell.view xs k.cells := by
  have hbefore := unmarked_of_blank h.before
  have hafter := unmarked_of_blank h.after
  have hname : Unmarked (codes k.name) := unmarked_of_isIdent (forall_codes.2 h.name.2)
  have hmarks := balanced_marked h.annotations hxs hsign hopen
  have hgroup : ∀ {o c : Cell} {gap inside : List Cell}, closer? o.view = some c.view → o.view ∉ xs → Blank gap →
      Balanced Cell.view inside → Balanced Cell.view (gap ++ o :: (inside ++ [c])) ∧
        Free Cell.view xs (gap ++ o :: (inside ++ [c])) := by
    intro o c gap inside hpair ho hgap hinside
    have hblank := unmarked_of_blank hgap
    refine ⟨hblank.balanced.append (.bracketed hpair hinside), (free_append hblank.balanced).2 ⟨hblank.free hxs, ?_⟩⟩
    exact (free_group hinside hpair).2 ⟨ho, fun it hit => absurd hit List.not_mem_nil⟩
  have harguments : Balanced Cell.view k.argumentCells ∧ Free Cell.view xs k.argumentCells := by
    rw [argumentCells]
    cases ha : k.arguments with
    | none => exact ⟨.nil, fun it hit => absurd hit List.not_mem_nil⟩
    | some l =>
      have hl := h.arguments l ha
      exact hgroup rfl hopen hl.gap (ArgumentList.balanced_inside hl)
  have hbraces : Balanced Cell.view (braces k.body) ∧ Free Cell.view xs (braces k.body) := by
    cases hb : k.body with
    | none => exact ⟨.nil, fun it hit => absurd hit List.not_mem_nil⟩
    | some b => exact hgroup rfl hbrace (h.body b hb).1 (isBalanced_map.1 (h.body b hb).2)
  have htail := harguments.1.append hbraces.1
  refine ⟨hbefore.balanced.append ((hmarks.1.append (hname.balanced.append htail)).append hafter.balanced), ?_⟩
  rw [cells, core, declared, free_append hbefore.balanced, free_append (hmarks.1.append (hname.balanced.append htail)),
    free_append hmarks.1, free_append hname.balanced, free_append harguments.1]
  exact ⟨hbefore.free hxs, ⟨hmarks.2, hname.free hxs, harguments.2, hbraces.2⟩, hafter.free hxs⟩

theorem isPart_cells (h : k.WellFormed) : IsPart Cell.view false k.cells := by
  obtain ⟨hbalanced, hfree⟩ : _ ∧ Free Cell.view [','] k.cells :=
    balanced_cells h (by decide) (by decide) (by decide) (by decide)
  refine ⟨walk_balanced hbalanced hfree, ?_⟩
  rw [← trimCells, trimCells_cells h, core, declared]
  simp [h.name.1]

end ConstantText

/-- The body of an enum: the constants between commas, what follows the last one, and the members behind a semicolon. -/
structure EnumText where
  constants : List ConstantText
  tail : List Cell
  members : Option (List Cell)

namespace EnumText

def head (e : EnumText) : List Cell := [Cell.code ','].intercalate (e.constants.map ConstantText.cells) ++ e.tail

def cells (e : EnumText) : List Cell := e.head ++ (e.members.map (Cell.code ';' :: ·)).getD []

structure WellFormed (e : EnumText) : Prop where
  constants : ∀ k ∈ e.constants, k.WellFormed
  tail : Trailing Cell.view (Cell.code ',') e.tail

variable {e : EnumText}

theorem balanced_head (h : e.WellFormed) : Balanced Cell.view e.head ∧ Free Cell.view [';'] e.head := by
  have hconstant : ∀ p ∈ e.constants.map ConstantText.cells, Balanced Cell.view p ∧ Free Cell.view [';'] p := by
    intro p hp
    obtain ⟨k, hk, rfl⟩ := List.mem_map.1 hp
    exact ConstantText.balanced_cells (h.constants k hk) (by decide) (by decide) (by decide) (by decide)
  have hlist := balanced_commas (Cell.view_code ',') (fun p hp => (hconstant p hp).1) (fun p hp => (hconstant p hp).2)
    (by decide)
  have htail : Balanced Cell.view e.tail ∧ Free Cell.view [';'] e.tail := by
    rcases h.tail with hblank | ⟨gap, hgap, heq⟩
    · have hunmarked := unmarked_of_blank hblank
      exact ⟨hunmarked.balanced, hunmarked.free (by decide)⟩
    · have hunmarked := unmarked_of_blank hgap
      rw [heq]
      exact ⟨.plain rfl rfl hunmarked.balanced, (free_cons rfl).2 ⟨by decide, hunmarked.free (by decide)⟩⟩
  exact ⟨hlist.1.append htail.1, (free_append hlist.1).2 ⟨hlist.2, htail.2⟩⟩

/-- The first semicolon outside brackets ends the constants. -/
theorem splitBody_cells (h : e.WellFormed) : (splitBody .enumType e.cells).1 = e.head := by
  obtain ⟨hbalanced, hfree⟩ := balanced_head h
  rw [cells, splitBody_append rfl hbalanced hfree]
  cases e.members with
  | none => exact List.append_nil _
  | some members =>
    have hsemicolon : closer? (Cell.code ';').view = none := rfl
    rw [Option.map_some, Option.getD_some, items_plain hsemicolon, splitConstants, if_pos (Cell.view_code ';'),
      List.append_nil]

/-- The constants that are read: the word `sealed` is no name of one. -/
def read (e : EnumText) : List ConstantText := e.constants.filter fun k => k.name ≠ "sealed".toList

/-- Every constant is read in its place, but for those called `sealed`. -/
theorem enumConstants_head (h : e.WellFormed) : enumConstants e.head = e.read.map ConstantText.constant := by
  have hpart : ∀ p ∈ e.constants.map ConstantText.cells, IsPart Cell.view false p := by
    intro p hp
    obtain ⟨k, hk, rfl⟩ := List.mem_map.1 hp
    exact ConstantText.isPart_cells (h.constants k hk)
  rw [enumConstants, head, pieces_commas (Cell.view_code ',') hpart h.tail, List.map_map, List.filterMap_map, read,
    ← List.filterMap_eq_map, ← List.filterMap_eq_filter, List.filterMap_filterMap]
  refine List.filterMap_congr fun k hk => ?_
  have hk' := h.constants k hk
  change enumConstant? (trimCells k.cells) = _
  rw [ConstantText.trimCells_cells hk']
  by_cases hsealed : k.name = "sealed".toList
  · rw [ConstantText.enumConstant?_sealed hk' hsealed, Option.guard, if_neg (by simpa using hsealed), Option.bind_none]
  · rw [ConstantText.enumConstant?_core hk' hsealed, Option.guard, if_pos (by simpa using hsealed), Option.bind_some]
    rfl

theorem bodyConstants_cells (h : e.WellFormed) {heading : Heading} (hkind : heading.kind = .enumType) :
    bodyConstants heading e.cells = e.read.map ConstantText.constant := by
  rw [bodyConstants, if_pos hkind, hkind, splitBody_cells h, enumConstants_head h]

end EnumText

/-! The values of the constants. -/

namespace ConstantText

variable {k : ConstantText}

def first? (k : ConstantText) : Option String := k.constant.arguments.head?

/-- The first argument is read as a number only if it is an integer literal. -/
def LiteralOnly (k : ConstantText) : Prop :=
  ∀ a, k.first? = some a → ∀ v, intLiteral? a = some v →
    ∃ (t : IntegerText) (n : Nat), t.Spells n ∧ a = String.ofList t.text

/-- The value of a constant at a position: that of its first argument if it is an integer literal, else the position. -/
structure Numbered (k : ConstantText) (position : Nat) (value : Int) : Prop where
  literal : ∀ (t : IntegerText) (n : Nat), t.Spells n → n ≤ maxLong → k.first? = some (String.ofList t.text) →
    value = t.value n
  position : k.LiteralOnly → (∀ (t : IntegerText) (n : Nat), t.Spells n → k.first? ≠ some (String.ofList t.text)) →
    value = position

theorem numbered (k : ConstantText) (position : Nat) :
    k.Numbered position ((k.first?.bind intLiteral?).getD position) where
  literal t n ht hn hfirst := by
    rw [hfirst, Option.bind_some, intLiteral?, String.toList_ofList, IntegerText.read?_text ht hn, Option.getD_some]
  position hliteral hnone := by
    cases hfirst : k.first? with
    | none => rfl
    | some a =>
      cases hread : intLiteral? a with
      | none => simp [hread]
      | some v =>
        obtain ⟨t, n, ht, rfl⟩ := hliteral a hfirst v hread
        exact absurd hfirst (hnone t n ht)

end ConstantText

theorem names_enumVariants (constants : List EnumConstant) :
    (enumVariants constants).map (·.name) = constants.map (·.name) := by
  conv_rhs => rw [← List.zipIdx_map_fst 0 constants, List.map_map]
  rw [enumVariants, List.map_map]
  rfl

theorem getElem?_enumVariants (constants : List EnumConstant) (i : Nat) :
    (enumVariants constants)[i]? =
      constants[i]?.map fun c => ⟨c.name, (c.arguments.head?.bind intLiteral?).getD i⟩ := by
  rw [enumVariants, List.getElem?_map, List.getElem?_zipIdx, Option.map_map, Nat.zero_add]
  rfl

/-- An enum of a file is read with its constants in order, each with its arguments, but for those called `sealed`. The
values are those of first arguments that are integer literals, and positions otherwise. -/
theorem constants_of_enum {path text : String} {file : SourceFile} (hfile : SourceFile.parse path text = .ok file)
    {t : TypeHeader} {e : EnumText} (ht : t.WellFormed) (hkind : t.kind = .enumType) (he : e.WellFormed)
    (hin : TypeIn (segments (cells text.toList)) t.cells e.cells) :
    ∃ decl ∈ file.allTypes, typeDeclaration? t.cells e.cells = some decl ∧ decl.kind = .enumType ∧
      decl.name = String.ofList t.name ∧ decl.constants = e.read.map ConstantText.constant ∧
      (enumVariants decl.constants).map (·.name) = e.read.map (fun k => String.ofList k.name) ∧
      ∀ i (k : ConstantText), e.read[i]? = some k →
        ∃ v, (enumVariants decl.constants)[i]? = some v ∧ k.Numbered i v.value := by
  have hread : typeDeclaration? t.cells e.cells = some (t.heading.declare t.cells (e.read.map ConstantText.constant)
      (bodyMembers t.heading e.cells)) := by
    rw [typeDeclaration?_eq, TypeHeader.heading?_cells ht, Option.map_some,
      EnumText.bodyConstants_cells he (show t.heading.kind = .enumType from hkind)]
  refine ⟨_, typeIn_allTypes hfile hin hread, hread, hkind, rfl, rfl, ?_, fun i k hk => ?_⟩
  · change (enumVariants (e.read.map ConstantText.constant)).map (·.name) = _
    rw [names_enumVariants, List.map_map]
    rfl
  · change ∃ v, (enumVariants (e.read.map ConstantText.constant))[i]? = some v ∧ _
    rw [getElem?_enumVariants, List.getElem?_map, hk]
    exact ⟨_, rfl, ConstantText.numbered k i⟩

namespace Modes

def text : String := "enum Mode \x7b @Old(1, 2) OFF(0x10, \"a, b\"), ON(x) \x7b int f; \x7d, ; int g; \x7d"

def header : TypeHeader := ⟨[], [], .enumType, cells " ".toList, "Mode".toList, cells " ".toList⟩

def off : ConstantText where
  before := cells " ".toList
  annotations := [.tag (cells "Old".toList) (some ([], cells "1, 2".toList)) (cells " ".toList)]
  name := "OFF".toList
  arguments := some ⟨[], [cells "0x10".toList, cells " \"a, b\"".toList], []⟩
  body := none
  after := []

def on : ConstantText where
  before := cells " ".toList
  annotations := []
  name := "ON".toList
  arguments := some ⟨[], [cells "x".toList], []⟩
  body := some (cells " ".toList, cells " int f; ".toList)
  after := []

def enumText : EnumText := ⟨[off, on], cells ", ".toList, some (cells " int g; ".toList)⟩

theorem wellFormed_header : header.WellFormed where
  gap := by simp [header, Blank]
  marks := trivial
  space := by decide
  name := ⟨⟨'M', rfl, by decide⟩, List.all_eq_true.1 (by decide)⟩
  after c hc := by
    rw [← Option.some.inj hc]
    decide

theorem wellFormed_off : off.WellFormed where
  before := by decide
  annotations := by
    refine ⟨⟨List.all_eq_true.1 (by decide), by decide, fun p hp => ?_, by decide, by simp⟩, trivial⟩
    rw [← Option.some.inj hp]
    exact ⟨by simp [Blank], by decide⟩
  name := ⟨by decide, List.all_eq_true.1 (by decide)⟩
  first c hc := by
    rw [← Option.some.inj hc]
    decide
  reserved := by decide
  arguments l hl := by
    rw [← Option.some.inj hl]
    refine ⟨by simp [Blank], fun a ha => ?_, by simp [Blank]⟩
    rcases List.mem_pair.1 ha with rfl | rfl <;> exact ⟨by decide, by decide, by decide⟩
  body := by simp [off]
  after := by simp [off, Blank]

theorem wellFormed_on : on.WellFormed where
  before := by decide
  annotations := trivial
  name := ⟨by decide, List.all_eq_true.1 (by decide)⟩
  first c hc := by
    rw [← Option.some.inj hc]
    decide
  reserved := by decide
  arguments l hl := by
    rw [← Option.some.inj hl]
    refine ⟨by simp [Blank], fun a ha => ?_, by simp [Blank]⟩
    rw [List.mem_singleton.1 ha]
    exact ⟨by decide, by decide, by decide⟩
  body b hb := by
    rw [← Option.some.inj hb]
    exact ⟨by decide, by decide⟩
  after := by simp [on, Blank]

theorem wellFormed_enumText : enumText.WellFormed where
  constants k hk := by
    rcases List.mem_pair.1 hk with rfl | rfl
    exacts [wellFormed_off, wellFormed_on]
  tail := .inr ⟨cells " ".toList, by decide, by decide⟩

theorem typeIn : TypeIn (segments (cells text.toList)) header.cells enumText.cells := by
  have hsegments : segments (cells text.toList) = [.block header.cells enumText.cells] := by decide +kernel
  exact .top (by rw [hsegments]; exact List.mem_singleton_self _)

end Modes

theorem constants_of_enum_modes :
    ∃ file, SourceFile.parse "Mode.java" Modes.text = .ok file ∧ ∃ decl ∈ file.allTypes, decl.name = "Mode" ∧
      decl.constants = [⟨"OFF", ["0x10", "\"a, b\""]⟩, ⟨"ON", ["x"]⟩] ∧
      enumVariants decl.constants = [⟨"OFF", 16⟩, ⟨"ON", 1⟩] := by
  have hfile : SourceFile.parse "Mode.java" Modes.text = .ok (SourceFile.ofText Modes.text) :=
    SourceFile.parse_eq_ok_iff.2 ⟨by decide +kernel, by decide +kernel, rfl⟩
  obtain ⟨decl, hdecl, -, -, hname, hconstants, -, -⟩ :=
    constants_of_enum hfile Modes.wellFormed_header rfl Modes.wellFormed_enumText Modes.typeIn
  have hread : decl.constants = [⟨"OFF", ["0x10", "\"a, b\""]⟩, ⟨"ON", ["x"]⟩] := by
    rw [hconstants]
    decide +kernel
  refine ⟨_, hfile, decl, hdecl, hname, hread, ?_⟩
  rw [hread]
  decide +kernel

/-- A constant called `sealed` is lost, so that the next one has its value, and an argument that is a name of an
underscore and digits is read as a number. -/
theorem constants_lost_sealed :
    let variants := fun text => (SourceFile.parse "E.java" text).map fun file =>
      file.allTypes.map fun d => (d.kind, d.name, enumVariants d.constants)
    "sealed" ∉ keywords ∧ variants "enum E \x7b sealed, open \x7d" = .ok [(.enumType, "E", [⟨"open", 0⟩])] ∧
      variants "enum E \x7b A, B(_5) \x7d" = .ok [(.enumType, "E", [⟨"A", 0⟩, ⟨"B", 5⟩])] ∧
      ¬∃ (t : IntegerText) (n : Nat), t.Spells n ∧ "_5" = String.ofList t.text := by
  refine ⟨by decide, by decide +kernel, by decide +kernel, ?_⟩
  rintro ⟨t, n, ht, htext⟩
  have hcore : t.core = ['_', '5'] := by
    rw [← IntegerText.trim_text ht, ← String.toList_ofList (l := t.text), ← htext]
    decide
  exact IntegerText.head_ne ht '_' (by rw [hcore]; rfl) rfl

end WireLayout.Java
