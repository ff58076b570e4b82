import WireLayout.Proofs.Java.Clauses
import WireLayout.Proofs.Java.TypeReader

/-! An annotation in front of a declaration. It is read as one more name in the list of annotations and leaves what
follows it as it is: the type and name of a parameter, a constant, the fields of a statement, a method. Only whether a
statement declares a method is asked of the whole statement, so that the parentheses of the annotation count. -/

namespace WireLayout.Java

open WireLayout.Text

variable {cs ds gap rest : List Cell}

/-- The name of an annotation, its arguments in parentheses, and the blanks after it. -/
structure Annotation where
  name : List Cell
  arguments : Option (List Cell)
  gap : List Cell
  named : ∀ c ∈ name, isAnnotationCell c = true
  title_ne : shownText name ≠ "interface"
  balanced : ∀ inside ∈ arguments, isBalanced (views inside) = true
  blank : Blank gap
  spaced : arguments = none → gap ≠ []

namespace Annotation

variable {a : Annotation}

def title (a : Annotation) : String := shownText a.name

def parentheses : Option (List Cell) → List Cell
  | none => []
  | some inside => Cell.code '(' :: (inside ++ [Cell.code ')'])

def cells (a : Annotation) : List Cell := Cell.code '@' :: (a.name ++ (parentheses a.arguments ++ a.gap))

/-- The angle brackets of the annotation match, and no comma of its arguments is outside all brackets when they are
counted. -/
def AnglesMatch (a : Annotation) : Prop := walk Cell.view true ',' 0 a.cells = some 0

instance : Decidable a.AnglesMatch := inferInstanceAs (Decidable (_ = _))

/-! The marks of an annotation. -/

theorem unmarked_name (a : Annotation) : Unmarked a.name := by
  intro c hc
  have hcell := a.named c hc
  rw [isAnnotationCell, Bool.or_eq_true, decide_eq_true_eq] at hcell
  rcases hcell with hident | hpoint
  · exact notMem_marks_of_isIdent hident
  · rw [hpoint]
    decide

theorem balanced_parentheses (a : Annotation) : Balanced Cell.view (parentheses a.arguments) := by
  cases harguments : a.arguments with
  | none => exact .nil
  | some inside => exact .bracketed rfl (isBalanced_map.1 (a.balanced inside harguments))

theorem free_parentheses (a : Annotation) {xs : List Char} (hxs : '(' ∉ xs) :
    Free Cell.view xs (parentheses a.arguments) := by
  cases harguments : a.arguments with
  | none => exact fun it hit => absurd hit List.not_mem_nil
  | some inside =>
    have hinside : Balanced Cell.view inside := isBalanced_map.1 (a.balanced inside harguments)
    exact (free_group hinside rfl).2 ⟨hxs, fun it hit => absurd hit List.not_mem_nil⟩

theorem balanced_cells (a : Annotation) : Balanced Cell.view a.cells :=
  .plain rfl rfl (a.unmarked_name.balanced.append (a.balanced_parentheses.append (unmarked_of_blank a.blank).balanced))

/-- Outside its parentheses an annotation has no mark but its sign. -/
theorem free_cells (a : Annotation) {xs : List Char} (hxs : xs ⊆ marks) (hsign : '@' ∉ xs) (hopen : '(' ∉ xs) :
    Free Cell.view xs a.cells := by
  rw [cells, free_cons rfl, free_append a.unmarked_name.balanced, free_append a.balanced_parentheses]
  exact ⟨hsign, a.unmarked_name.free hxs, a.free_parentheses hopen, (unmarked_of_blank a.blank).free hxs⟩

theorem walk_cells (a : Annotation) : walk Cell.view false ',' 0 a.cells = some 0 :=
  walk_balanced a.balanced_cells (a.free_cells (by decide) (by decide) (by decide))

/-- Neither its name nor its parentheses end in a sign of comparison. -/
theorem lead_cells (a : Annotation) : Lead a.cells := by
  refine ⟨a.balanced_cells, a.free_cells (by decide) (by decide) (by decide), ?_⟩
  cases harguments : a.arguments with
  | none =>
    have hcells : a.cells = (Cell.code '@' :: a.name) ++ a.gap := by simp [cells, harguments, parentheses]
    rw [hcells]
    exact compares_lastView_append (unmarked_of_blank a.blank) (a.spaced harguments)
  | some inside =>
    have hcells : a.cells = ((Cell.code '@' :: (a.name ++ (Cell.code '(' :: inside))) ++ [Cell.code ')']) ++ a.gap := by
      simp [cells, harguments, parentheses]
    rw [hcells]
    by_cases hgap : a.gap = []
    · rw [hgap, List.append_nil, lastView_append]
      rfl
    · exact compares_lastView_append (unmarked_of_blank a.blank) hgap

theorem any_open_cells (a : Annotation) : (a.cells.any fun c => c.view = '(') = a.arguments.isSome := by
  cases harguments : a.arguments with
  | some inside => simp [cells, harguments, parentheses]
  | none =>
    rw [Option.isSome_none, List.any_eq_false]
    intro c hc
    rw [decide_eq_true_eq]
    rintro heq
    simp only [cells, harguments, parentheses, List.nil_append, List.mem_cons, List.mem_append] at hc
    have hmark : c.view ∈ marks := by
      rw [heq]
      decide
    rcases hc with rfl | hc | hc
    · exact absurd heq (by decide)
    · exact a.unmarked_name c hc hmark
    · exact unmarked_of_blank a.blank c hc hmark

/-! The annotation before a text. -/

/-- The annotation is read as such, and what follows it as without it. -/
theorem preamble_cells (a : Annotation) (h : ∀ c ∈ (dropBlank cs).head?, c.view ≠ '(') :
    preamble (a.cells ++ cs) =
      { preamble cs with annotations := a.title :: (preamble cs).annotations } := by
  have hstop : ∀ c ∈ (parentheses a.arguments ++ (a.gap ++ cs)).head?, isAnnotationCell c = false := by
    cases harguments : a.arguments with
    | some inside => simp [parentheses]; decide
    | none =>
      obtain ⟨g, gs, hgap⟩ := List.exists_cons_of_ne_nil (a.spaced harguments)
      intro c hc
      rw [parentheses, List.nil_append, hgap] at hc
      obtain rfl := Option.some.inj hc
      exact isAnnotationCell_of_isBlank (a.blank g (by rw [hgap]; exact List.mem_cons_self))
  have harguments : preamble (skipArguments (parentheses a.arguments ++ (a.gap ++ cs))) = preamble cs := by
    cases harguments : a.arguments with
    | some inside =>
      have hnil : Blank [] := by simp [Blank]
      have hskip : skipArguments ([] ++ Cell.code '(' :: (inside ++ Cell.code ')' :: (a.gap ++ cs))) = a.gap ++ cs :=
        skipArguments_parentheses hnil (isBalanced_map.1 (a.balanced inside harguments))
      rw [List.nil_append] at hskip
      rw [parentheses, List.cons_append, List.append_assoc, List.singleton_append, hskip, preamble_append_blank a.blank]
    | none =>
      rw [parentheses, List.nil_append, preamble_skipArguments (by rwa [dropBlank_append a.blank]),
        preamble_append_blank a.blank]
  have hcells : a.cells ++ cs = Cell.code '@' :: (a.name ++ (parentheses a.arguments ++ (a.gap ++ cs))) := by
    simp [cells]
  rw [hcells, preamble_annotation a.named a.title_ne hstop, harguments]
  rfl

end Annotation

/-- What follows the blanks opens no arguments. -/
def Begins (cs : List Cell) : Prop := ∃ c rest, dropBlank cs = c :: rest ∧ c.view ≠ '('

namespace Begins

theorem head (h : Begins cs) : ∀ c ∈ (dropBlank cs).head?, c.view ≠ '(' := by
  obtain ⟨c, rest, heq, hopen⟩ := h
  rw [heq]
  rintro d hd
  obtain rfl := Option.some.inj hd
  exact hopen

theorem trimCells_cons (h : Begins cs) : ∃ c rest, trimCells cs = c :: rest ∧ c.isBlank = false ∧ c.view ≠ '(' := by
  obtain ⟨c, rest, heq, hopen⟩ := h
  have hblank := isBlank_head heq
  have htrim : trimCells cs = dropEnd Cell.isBlank ([] ++ c :: rest) := by
    rw [List.nil_append, ← heq]
    rfl
  rw [dropEnd_append_cons hblank] at htrim
  exact ⟨c, dropEnd Cell.isBlank rest, htrim, hblank, hopen⟩

theorem trimCells_ne_nil (h : Begins cs) : trimCells cs ≠ [] := by
  obtain ⟨c, rest, heq, -⟩ := h.trimCells_cons
  rw [heq]
  exact List.cons_ne_nil c rest

theorem trimCells (h : Begins cs) : Begins (trimCells cs) := by
  obtain ⟨c, rest, heq, hblank, hopen⟩ := h.trimCells_cons
  exact ⟨c, rest, by rw [heq, dropBlank_cons hblank], hopen⟩

end Begins

/-- Trimming keeps the annotation and the blanks behind it. -/
theorem trimCells_annotated (a : Annotation) (hgap : Blank gap) (h : Begins cs) :
    ∃ blanks, Blank blanks ∧ trimCells (gap ++ (a.cells ++ cs)) = a.cells ++ (blanks ++ trimCells cs) := by
  obtain ⟨before, after, hcs, hbefore, hafter⟩ := exists_trim (fun c : Cell => isAsciiSpace c.view) cs
  rw [← trimBlank, ← trimCells] at hcs
  have hne := h.trimCells_ne_nil
  refine ⟨before, hbefore, ?_⟩
  have hhead : ∀ c ∈ (a.cells ++ (before ++ trimCells cs)).head?, c.isBlank = false := by
    intro c hc
    obtain rfl := Option.some.inj hc
    rfl
  have hlast : ∀ c ∈ (a.cells ++ (before ++ trimCells cs)).getLast?, c.isBlank = false := by
    rw [← List.append_assoc, List.getLast?_append_of_ne_nil _ hne]
    exact getLast?_trim
  have hcells : gap ++ (a.cells ++ cs) = gap ++ ((a.cells ++ (before ++ trimCells cs)) ++ after) := by
    rw [List.append_assoc, List.append_assoc, ← hcs]
  rw [hcells]
  exact trim_between hgap hafter hhead hlast

/-- In front of a piece of a list the annotation belongs to this piece. -/
theorem pieces_annotated {generics : Bool} (a : Annotation) (hgap : Blank gap)
    (hwalk : walk Cell.view generics ',' 0 a.cells = some 0) (h : Begins cs)
    (hcomma : (dropBlank cs).head?.map Cell.view ≠ some ',') :
    ∃ piece blanks more, Blank blanks ∧ Begins piece ∧
      pieces Cell.view generics ',' (gap ++ cs) = piece :: more ∧
      pieces Cell.view generics ',' (gap ++ (a.cells ++ cs)) = (a.cells ++ (blanks ++ piece)) :: more := by
  obtain ⟨front, hfront, hcs⟩ := exists_dropBlank cs
  obtain ⟨first, more, -, hhead, hmore⟩ := exists_firstPiece Cell.view generics ',' 0 (dropBlank cs)
  obtain ⟨c, rest, hc, hopen⟩ := h
  obtain ⟨first, rfl⟩ : ∃ f, first = c :: f := by
    have hfirst := hhead hcomma
    rw [hc] at hfirst
    exact List.head?_eq_some_iff.1 hfirst
  have hbegins : Begins (front ++ c :: first) :=
    ⟨c, first, by rw [dropBlank_append hfront, dropBlank_cons (isBlank_head hc)], hopen⟩
  obtain ⟨blanks, hblanks, htrim⟩ := trimCells_annotated a hgap hbegins
  have hblank : ∀ {bs : List Cell}, Blank bs → walk Cell.view generics ',' 0 bs = some 0 :=
    fun hbs => (unmarked_of_blank hbs).walk (by decide) 0
  -- whatever is read before the piece goes into it and is trimmed with it
  have hread : ∀ {read : List Cell}, walk Cell.view generics ',' 0 read = some 0 →
      pieces Cell.view generics ',' (read ++ cs) = nonEmpty (trimCells (read ++ (front ++ c :: first))) ++ more := by
    intro read hwalk
    have hboth : walk Cell.view generics ',' 0 (read ++ front) = some 0 := by
      rw [walk_append, hwalk, Option.bind_some, hblank hfront]
    rw [hcs, ← List.append_assoc, pieces, piecesFrom_walk hboth, hmore, List.append_nil, List.reverse_reverse,
      List.append_assoc]
    rfl
  refine ⟨trimCells (front ++ c :: first), blanks, more, hblanks, hbegins.trimCells, ?_, ?_⟩
  · have hleft : trimCells (gap ++ (front ++ c :: first)) = trimCells (front ++ c :: first) := trim_append_left hgap
    rw [hread (hblank hgap), hleft, nonEmpty, if_neg (by simpa using hbegins.trimCells_ne_nil)]
    rfl
  · have hannotated : walk Cell.view generics ',' 0 (gap ++ a.cells) = some 0 := by
      rw [walk_append, hblank hgap, Option.bind_some, hwalk]
    rw [← List.append_assoc, hread hannotated, List.append_assoc, htrim, nonEmpty,
      if_neg (by simp [ Annotation.cells])]
    rfl

/-! What is read behind the annotation. -/

def FieldDeclaration.annotate (name text : String) (f : FieldDeclaration) : FieldDeclaration :=
  { f with annotations := name :: f.annotations, text }

def Method.annotate (name text : String) (m : Method) : Method :=
  { m with annotations := name :: m.annotations, text }

def Parameter.annotate (name : String) (p : Parameter) : Parameter :=
  { p with annotations := name :: p.annotations }

section

variable {blanks : List Cell}

theorem preamble_annotated (a : Annotation) (hblanks : Blank blanks) (h : Begins cs) :
    preamble (a.cells ++ (blanks ++ cs)) =
      { preamble cs with annotations := a.title :: (preamble cs).annotations } := by
  rw [a.preamble_cells (by rw [dropBlank_append hblanks]; exact h.head), preamble_append_blank hblanks]

theorem parameter?_annotated (a : Annotation) (hblanks : Blank blanks) (h : Begins cs) :
    parameter? (a.cells ++ (blanks ++ cs)) = (parameter? cs).map (Parameter.annotate a.title) := by
  rw [parameter?, parameter?, preamble_annotated a hblanks h, Option.map_map]
  rfl

theorem enumConstant?_annotated (a : Annotation) (hblanks : Blank blanks) (h : Begins cs) :
    enumConstant? (a.cells ++ (blanks ++ cs)) = enumConstant? cs := by
  rw [enumConstant?, enumConstant?, preamble_annotated a hblanks h]

theorem enumConstants_annotated (a : Annotation) (hcut : Cuts (pieces Cell.view false ',') cs) (hgap : Blank gap)
    (h : Begins ds) (hcomma : (dropBlank ds).head?.map Cell.view ≠ some ',') :
    enumConstants (cs ++ (gap ++ (a.cells ++ ds))) = enumConstants (cs ++ (gap ++ ds)) := by
  obtain ⟨piece, blanks, more, hblanks, hpiece, hread, hread'⟩ := pieces_annotated a hgap a.walk_cells h hcomma
  rw [enumConstants, enumConstants, hcut, hcut, hread, hread', List.filterMap_append, List.filterMap_append,
    List.filterMap_cons, List.filterMap_cons, enumConstant?_annotated a hblanks hpiece]

/-- Among parameters it is one more annotation of the parameter behind it. -/
theorem parameters_annotated (a : Annotation) (hangles : a.AnglesMatch) (hcut : Cuts (pieces Cell.view true ',') cs)
    (hgap : Blank gap) (h : Begins ds) (hcomma : (dropBlank ds).head?.map Cell.view ≠ some ',') {p : Parameter}
    (hp : (pieces Cell.view true ',' (gap ++ ds)).head?.bind parameter? = some p) :
    ∃ front back, parameters (cs ++ (gap ++ ds)) = front ++ p :: back ∧
      parameters (cs ++ (gap ++ (a.cells ++ ds))) = front ++ p.annotate a.title :: back := by
  obtain ⟨piece, blanks, more, hblanks, hpiece, hread, hread'⟩ := pieces_annotated a hgap hangles h hcomma
  rw [hread, List.head?_cons, Option.bind_some] at hp
  refine ⟨parameters cs, more.filterMap parameter?, ?_, ?_⟩
  · rw [parameters, hcut, hread, List.filterMap_append, List.filterMap_cons_some hp]
    rfl
  · have hp' : parameter? (a.cells ++ (blanks ++ piece)) = some (p.annotate a.title) := by
      rw [parameter?_annotated a hblanks hpiece, hp]
      rfl
    rw [parameters, hcut, hread', List.filterMap_append, List.filterMap_cons_some hp']
    rfl

theorem laterFields_annotate (name text : String) (template : FieldDeclaration) (more : List (List Cell)) :
    laterFields (template.annotate name text) more = (laterFields template more).map (.annotate name text) := by
  induction more with
  | nil => rfl
  | cons piece more ih =>
    rw [laterFields, laterFields]
    obtain ⟨before, initializer⟩ := declarator piece
    simp only
    cases bareName? before with
    | none => rfl
    | some n =>
      simp only [List.map_cons, ← ih]
      rfl

theorem fieldDeclarations_annotated (a : Annotation) (hblanks : Blank blanks) (h : Begins cs) :
    ∃ text, fieldDeclarations (a.cells ++ (blanks ++ cs)) =
      (fieldDeclarations cs).map (.annotate a.title text) := by
  refine ⟨String.ofList (squeeze (verbatim (a.cells ++ (blanks ++ cs))) ++ [';']), ?_⟩
  rw [fieldDeclarations, fieldDeclarations, preamble_annotated a hblanks h]
  simp only
  cases pieces Cell.view true ',' (preamble cs).rest with
  | nil => rfl
  | cons first more =>
    simp only
    cases typedName? (declarator first).1 with
    | none => rfl
    | some p =>
      simp only [List.map_cons, ← laterFields_annotate]
      rfl

theorem method?_annotated (a : Annotation) (hblanks : Blank blanks) (h : Begins cs)
    (owner text text' body : String) :
    method? owner (a.cells ++ (blanks ++ cs)) text' body =
      (method? owner cs text body).map (.annotate a.title text') := by
  rw [method?, method?, preamble_annotated a hblanks h]
  simp only
  cases splitAtParen 0 (preamble cs).rest with
  | none => rfl
  | some p =>
    cases hclosing : closing Cell.view '(' ')' 1 p.2 with
    | none => simp [hclosing]
    | some q => simp [hclosing, Option.map_bind, Function.comp_def, Method.annotate]

/-- The parentheses of an annotation make a statement one without a body. -/
theorem isBodiless_annotated (a : Annotation) (hblanks : Blank blanks) :
    isBodiless (a.cells ++ (blanks ++ cs)) = (a.arguments.isSome || isBodiless cs) := by
  have hnone : (blanks.any fun c => c.view = '(') = false := by
    rw [List.any_eq_false]
    intro c hc heq
    have hmark := unmarked_of_blank hblanks c hc
    rw [of_decide_eq_true heq] at hmark
    exact hmark (by decide)
  rw [isBodiless, isBodiless, splitAssignment_lead a.lead_cells, splitAssignment_lead (lead_blank hblanks)]
  cases splitAssignment cs with
  | none => simp [a.any_open_cells, hnone]
  | some p => simp [a.any_open_cells, hnone]

end

end WireLayout.Java
