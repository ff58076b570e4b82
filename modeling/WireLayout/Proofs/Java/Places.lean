import WireLayout.Proofs.Java.Annotation
import WireLayout.Proofs.Java.Parameters

/-! An annotation at any place of a file where it belongs: in front of a statement, a method, a constructor or a type
of a body, in front of a parameter, a component of a record or a constant of an enum. -/

namespace WireLayout.Java

open WireLayout.Text

variable {cs ds gap rest : List Cell} {a : Annotation} {owner : String}

/-- What an annotation stands in front of. -/
inductive Site where
  | fields (fs : List FieldDeclaration)
  | declaration
  | parameter (p : Parameter)
  | constant

/-- A method with an annotation in front of it or of one of its parameters. -/
inductive Method.Edited (name : String) : Site → Method → Method → Prop where
  | head (m : Method) (text : String) : Edited name .declaration m (m.annotate name text)
  | parameter {m : Method} {front back : List Parameter} {p : Parameter} (h : m.parameters = front ++ p :: back)
      (text : String) :
      Edited name (.parameter p) m { m with parameters := front ++ p.annotate name :: back, text }

/-- The same members but for one annotation and the texts that hold it. The first constructor of a record has the
components as parameters and the header as its text. -/
inductive Edited (name : String) : Site → List Member → List Member → Prop where
  | fields (fs : List FieldDeclaration) (text : String) :
      Edited name (.fields fs) (fs.map .field) (fs.map fun f => .field (f.annotate name text))
  | method {site : Site} {m m' : Method} (h : m.Edited name site m') : Edited name site [.method m] [.method m']
  | constructor {site : Site} {m m' : Method} (h : m.Edited name site m') :
      Edited name site [.constructor m] [.constructor m']
  | type (t : TypeDeclaration) : Edited name .declaration [.nested t] [.nested t]
  | header {t : TypeDeclaration} {m : Method} {ms : List Method} (h : t.constructors = m :: ms) (text : String) :
      Edited name .declaration [.nested t] [.nested { t with constructors := { m with text } :: ms }]
  | component {t : TypeDeclaration} {m m' : Method} {ms : List Method} {p : Parameter} (h : t.constructors = m :: ms)
      (hm : m.Edited name (.parameter p) m') :
      Edited name (.parameter p) [.nested t] [.nested { t with constructors := m' :: ms }]
  | constant (t : TypeDeclaration) : Edited name .constant [.nested t] [.nested t]
  | noDeclaration : Edited name .declaration [] []
  | noMethod (p : Parameter) : Edited name (.parameter p) [] []

/-- Instead of the fields there is a method, or nothing. -/
inductive Lost (fs : List FieldDeclaration) : List Member → List Member → Prop where
  | instead (m : Option Method) : Lost fs (fs.map .field) (m.map .method).toList

/-- The parentheses of an annotation hide the fields of a statement, and its angle brackets are counted among
parameters. -/
def Annotation.Transparent (a : Annotation) : Site → Prop
  | .fields _ => a.arguments = none
  | .parameter _ => a.AnglesMatch
  | _ => True

structure Annotation.Effect (a : Annotation) (site : Site) (ms ms' : List Member) : Prop where
  edited : a.Transparent site → Edited a.title site ms ms'
  lost : ∀ fs, site = .fields fs → a.arguments ≠ none → Lost fs ms ms'

def TypeDeclaration.extend (t : TypeDeclaration) (ms : List Member) : TypeDeclaration := {
  t with
  fields := t.fields ++ ms.filterMap Member.field?
  constructors := t.constructors ++ ms.filterMap Member.constructor?
  methods := t.methods ++ ms.filterMap Member.method?
  nested := t.nested ++ ms.filterMap Member.nested? }

/-- A change of some members here, or among the members of a type. -/
inductive Within (E : List Member → List Member → Prop) : List Member → List Member → Prop where
  | here {ms ms' : List Member} (h : E ms ms') : Within E ms ms'
  | inside (t : TypeDeclaration) (front back : List Member) {ms ms' : List Member} (h : Within E ms ms') :
      Within E [.nested (t.extend (front ++ (ms ++ back)))] [.nested (t.extend (front ++ (ms' ++ back)))]

def Changed (E : List Member → List Member → Prop) (ms ms' : List Member) : Prop :=
  ∃ front one one' back, ms = front ++ (one ++ back) ∧ ms' = front ++ (one' ++ back) ∧ Within E one one'

def members (owner : String) (cs : List Cell) : List Member := (segments cs).flatMap (segmentMembers owner)

/-! In front of a segment. -/

theorem trimCells_append_left (hgap : Blank gap) : trimCells (gap ++ cs) = trimCells cs := trim_append_left hgap

theorem statementMembers_eq (h : trimCells cs ≠ []) : statementMembers owner cs =
    if isBodiless (trimCells cs) then
      ((method? owner (trimCells cs) (sourceText (trimCells cs)) "").map Member.method).toList
    else (fieldDeclarations (trimCells cs)).map .field := by
  have hempty : (trimCells cs).isEmpty = false := by simpa using h
  rw [statementMembers]
  simp only [hempty, Bool.false_eq_true, if_false]
  split
  · cases method? owner (trimCells cs) (sourceText (trimCells cs)) "" <;> rfl
  · rfl

def statementSite (statement : List Cell) : Site :=
  if isBodiless statement then .declaration else .fields (fieldDeclarations statement)

theorem effect_statement (a : Annotation) (hgap : Blank gap) (h : Begins cs) (owner : String) :
    a.Effect (statementSite (trimCells cs)) (statementMembers owner (gap ++ cs))
      (statementMembers owner (gap ++ (a.cells ++ cs))) := by
  obtain ⟨blanks, hblanks, htrim⟩ := trimCells_annotated a hgap h
  have hne : trimCells (gap ++ cs) ≠ [] := by
    rw [trimCells_append_left hgap]
    exact h.trimCells_ne_nil
  have hne' : trimCells (gap ++ (a.cells ++ cs)) ≠ [] := by
    rw [htrim]
    simp [ Annotation.cells]
  rw [statementMembers_eq hne, statementMembers_eq hne', htrim, trimCells_append_left hgap,
    isBodiless_annotated a hblanks, statementSite]
  cases hbodiless : isBodiless (trimCells cs) with
  | true =>
    simp only [Bool.or_true, if_true]
    refine ⟨fun _ => ?_, fun fs hfs => by cases hfs⟩
    rw [method?_annotated a hblanks h.trimCells owner (sourceText (trimCells cs))]
    cases method? owner (trimCells cs) (sourceText (trimCells cs)) "" with
    | none => exact .noDeclaration
    | some m => exact .method (.head m _)
  | false =>
    simp only [Bool.or_false, Bool.false_eq_true, if_false]
    cases harguments : a.arguments with
    | none =>
      refine ⟨fun _ => ?_, fun _ _ hne => absurd harguments hne⟩
      obtain ⟨text, hfields⟩ := fieldDeclarations_annotated a hblanks h.trimCells
      simp only [Option.isSome_none, Bool.false_eq_true, if_false, hfields, List.map_map]
      exact .fields _ text
    | some inside =>
      refine ⟨fun hnone => ?_, fun fs hfs _ => ?_⟩
      · rw [ Annotation.Transparent, harguments] at hnone
        cases hnone
      · simp only [Option.isSome_some, if_true]
        obtain rfl := Site.fields.inj hfs
        exact .instead _

theorem isInitializer_annotated (a : Annotation) (hgap : Blank gap) (h : Begins cs) :
    isInitializer (gap ++ (a.cells ++ cs)) = false := by
  obtain ⟨blanks, -, htrim⟩ := trimCells_annotated a hgap h
  rw [isInitializer, htrim]
  simp [views, Annotation.cells]

/-- The member that a block declares as a method or a constructor. -/
theorem edited_block {name : String} {site : Site} {m m' : Method} (h : m.Edited name site m') :
    Edited name site (if m.returnType.isNone then [.constructor m] else [.method m])
      (if m'.returnType.isNone then [.constructor m'] else [.method m']) := by
  have htype : m'.returnType = m.returnType := by cases h <;> rfl
  rw [htype]
  split
  · exact .constructor h
  · exact .method h

theorem edited_header {name : String} {header header' : List Cell}
    (h : (preamble header').modifiers = (preamble header).modifiers) (heading : Heading) (constants : List EnumConstant)
    (ms : List Member) :
    Edited name .declaration [.nested (heading.declare header constants ms)]
      [.nested (heading.declare header' constants ms)] := by
  cases hcomponents : heading.components? with
  | none =>
    have hsame : heading.declare header' constants ms = heading.declare header constants ms := by
      simp only [Heading.declare, hcomponents, h, Option.map_none]
    rw [hsame]
    exact .type _
  | some r =>
    have hfirst : (heading.declare header constants ms).constructors =
        recordConstructor heading.name header r.1 :: ms.filterMap Member.constructor? := by
      simp only [Heading.declare, hcomponents, Option.map_some, Option.toList_some, List.singleton_append]
    have hother : heading.declare header' constants ms = { heading.declare header constants ms with
        constructors := { recordConstructor heading.name header r.1 with
          text := String.ofList (squeeze (verbatim header')) } :: ms.filterMap Member.constructor? } := by
      simp only [Heading.declare, hcomponents, h, Option.map_some, Option.toList_some, List.singleton_append]
      rfl
    rw [hother]
    exact .header hfirst _

theorem effect_block (a : Annotation) (hgap : Blank gap) (h : Begins cs) (hruns : isInitializer cs = false)
    (owner : String) (body : List Cell) :
    a.Effect .declaration (segmentMembers owner (.block (gap ++ cs) body))
      (segmentMembers owner (.block (gap ++ (a.cells ++ cs)) body)) := by
  refine ⟨fun _ => ?_, fun fs hfs => by cases hfs⟩
  obtain ⟨blanks, hblanks, htrim⟩ := trimCells_annotated a hgap h
  have hruns' : isInitializer (gap ++ cs) = false := by
    rw [isInitializer, trimCells_append_left hgap, ← isInitializer, hruns]
  have hpreamble : preamble (gap ++ (a.cells ++ cs)) =
      { preamble (gap ++ cs) with annotations := a.title :: (preamble (gap ++ cs)).annotations } := by
    rw [preamble_append_blank hgap, preamble_append_blank hgap, a.preamble_cells h.head]
  have hrest : (preamble (gap ++ (a.cells ++ cs))).rest = (preamble (gap ++ cs)).rest := by rw [hpreamble]
  rw [segmentMembers, segmentMembers, hruns', isInitializer_annotated a hgap h, typeDeclaration?_eq, typeDeclaration?_eq,
    hrest]
  simp only [Bool.false_eq_true, if_false]
  cases heading? (preamble (gap ++ cs)).rest with
  | none =>
    simp only [Option.map_none, blockMembers, htrim, trimCells_append_left hgap]
    rw [method?_annotated a hblanks h.trimCells owner
      (String.ofList (verbatim (dropBlank (gap ++ cs)) ++ '{' :: verbatim body ++ ['}']))]
    cases method? owner (trimCells cs) (String.ofList (verbatim (dropBlank (gap ++ cs)) ++ '{' :: verbatim body ++ ['}']))
      (sourceText body) with
    | none => exact .noDeclaration
    | some m => exact edited_block (.head m _)
  | some heading =>
    simp only [Option.map_some]
    exact edited_header (by rw [hpreamble]) heading _ _

/-! In front of a parameter. -/

section

variable {front params params' body : List Cell} {o c : Cell} {p : Parameter} {before back : List Parameter}
  {name : String}

theorem isInitializer_parameters (h : ParameterHead front o) (hc : c.view = ')') :
    isInitializer (front ++ o :: (params ++ c :: rest)) = false := by
  have hopen : '(' ∈ views (trimCells (front ++ o :: (params ++ c :: rest))) := by
    rw [h.trimCells_append hc, ← h.mark]
    exact List.mem_map_of_mem (List.mem_append_right _ List.mem_cons_self)
  rw [isInitializer, Bool.or_eq_false_iff]
  refine ⟨?_, ?_⟩
  · rw [List.isEmpty_eq_false_iff]
    exact List.ne_nil_of_mem hopen
  · rw [decide_eq_false_iff_not]
    intro heq
    rw [heq] at hopen
    exact absurd hopen (by decide)

theorem edited_parameters (hparams : parameters params = before ++ p :: back)
    (hparams' : parameters params' = before ++ p.annotate name :: back) (m : Method) (text text' body : String) :
    Method.Edited name (.parameter p) { m with parameters := parameters params, text, body }
      { m with parameters := parameters params', text := text', body } := by
  rw [hparams, hparams']
  exact .parameter (m := { m with parameters := before ++ p :: back, text, body }) rfl text'

theorem edited_components (h : ParameterHead front o) (hc : c.view = ')') (hbalanced : Balanced Cell.view params)
    (hbalanced' : Balanced Cell.view params') (hparams : parameters params = before ++ p :: back)
    (hparams' : parameters params' = before ++ p.annotate name :: back) {heading : Heading}
    (hkind : heading.kind = .recordType) (hafter : afterTypeParameters heading.after = [o])
    (constants : List EnumConstant) (ms : List Member) :
    Edited name (.parameter p)
      [.nested (Heading.declare { heading with after := heading.after ++ (params ++ c :: rest) }
        (front ++ o :: (params ++ c :: rest)) constants ms)]
      [.nested (Heading.declare { heading with after := heading.after ++ (params' ++ c :: rest) }
        (front ++ o :: (params' ++ c :: rest)) constants ms)] := by
  have hcomponents : Heading.components? { heading with after := heading.after ++ (params ++ c :: rest) } = _ :=
    components?_append hkind hafter h.mark hbalanced hc
  have hcomponents' : Heading.components? { heading with after := heading.after ++ (params' ++ c :: rest) } = _ :=
    components?_append hkind hafter h.mark hbalanced' hc
  have hmodifiers : (preamble (front ++ o :: (params' ++ c :: rest))).modifiers =
      (preamble (front ++ o :: (params ++ c :: rest))).modifiers := by
    rw [h.preamble_append (params' ++ c :: rest), h.preamble_append (params ++ c :: rest)]
  have hfirst : (Heading.declare { heading with after := heading.after ++ (params ++ c :: rest) }
      (front ++ o :: (params ++ c :: rest)) constants ms).constructors =
        recordConstructor heading.name (front ++ o :: (params ++ c :: rest)) params ::
          ms.filterMap Member.constructor? := by
    simp only [Heading.declare, hcomponents, Option.map_some, Option.toList_some, List.singleton_append]
  have hother : Heading.declare { heading with after := heading.after ++ (params' ++ c :: rest) }
      (front ++ o :: (params' ++ c :: rest)) constants ms =
        { Heading.declare { heading with after := heading.after ++ (params ++ c :: rest) }
            (front ++ o :: (params ++ c :: rest)) constants ms with
          constructors := recordConstructor heading.name (front ++ o :: (params' ++ c :: rest)) params' ::
            ms.filterMap Member.constructor? } := by
    simp only [Heading.declare, Heading.tail, hcomponents, hcomponents', hmodifiers, Option.map_some,
      Option.toList_some, Option.getD_some, List.singleton_append]
  rw [hother]
  exact .component hfirst (edited_parameters hparams hparams' (recordConstructor heading.name [] []) _ _ _)

/-- Another list of parameters changes the parameters of what is declared, and nothing else. -/
theorem edited_segment (h : ParameterHead front o) (hc : c.view = ')') (hbalanced : Balanced Cell.view params)
    (hbalanced' : Balanced Cell.view params') (hparams : parameters params = before ++ p :: back)
    (hparams' : parameters params' = before ++ p.annotate name :: back) (owner : String) (s : Segment) :
    Edited name (.parameter p) (segmentMembers owner (s.prepend (front ++ o :: (params ++ [c]))))
      (segmentMembers owner (s.prepend (front ++ o :: (params' ++ [c])))) := by
  have hcells : ∀ params rest : List Cell,
      (front ++ o :: (params ++ [c])) ++ rest = front ++ o :: (params ++ c :: rest) := by simp
  obtain ⟨m, hm⟩ := h.trimmed.exists_method owner
  cases s with
  | statement rest =>
    have hne : ∀ params, trimCells (front ++ o :: (params ++ c :: rest)) ≠ [] := by
      intro params
      rw [h.trimCells_append hc]
      simp
    rw [Segment.prepend, Segment.prepend, segmentMembers, segmentMembers, hcells, hcells, statementMembers_eq (hne _),
      statementMembers_eq (hne _), h.trimCells_append hc, h.trimCells_append hc, h.trimmed.isBodiless_append hbalanced hc,
      h.trimmed.isBodiless_append hbalanced' hc, hm _ _ _ _ _ hbalanced hc, hm _ _ _ _ _ hbalanced' hc]
    simp only [if_true]
    cases m with
    | none => exact .noMethod p
    | some m => exact .method (edited_parameters hparams hparams' m _ _ _)
  | block rest body =>
    rw [Segment.prepend, Segment.prepend, segmentMembers, segmentMembers, hcells, hcells, isInitializer_parameters h hc,
      isInitializer_parameters h hc, typeDeclaration?_eq, typeDeclaration?_eq,
      h.heading?_append (params ++ c :: rest), h.heading?_append (params' ++ c :: rest)]
    simp only [Bool.false_eq_true, if_false]
    cases hheading : heading? (preamble (front ++ [o])).rest with
    | none =>
      simp only [Option.map_none, blockMembers, h.trimCells_append hc, hm _ _ _ _ _ hbalanced hc,
        hm _ _ _ _ _ hbalanced' hc]
      cases m with
      | none => exact .noMethod p
      | some m => exact edited_block (edited_parameters hparams hparams' m _ _ _)
    | some heading =>
      obtain ⟨hkind, hafter⟩ := h.heading heading hheading
      exact edited_components h hc hbalanced hbalanced' hparams hparams' hkind hafter _ _

end

/-! Places. -/

structure TypeHead (header : List Cell) (heading : Heading) : Prop where
  balanced : Balanced Cell.view header
  free : Free Cell.view [';', '{'] header
  assigns : splitAssignment header = none
  heading : heading? (preamble header).rest = some heading

/-- What a body holds before its members: in an enum the constants and a semicolon. -/
inductive Opening : TypeKind → List Cell → Prop where
  | constants {cs : List Cell} {semicolon : Cell} (h : semicolon.view = ';') (hbalanced : Balanced Cell.view cs)
      (hfree : Free Cell.view [';'] cs) : Opening .enumType (cs ++ [semicolon])
  | none {kind : TypeKind} (h : kind ≠ .enumType) : Opening kind []

/-- A text is cut where something begins to which an annotation can belong. -/
inductive Place : Site → List Cell → List Cell → Prop where
  | statement {before gap cells r : List Cell} {more : List Segment} (hcut : Cuts segments before)
      (hlast : ∀ c ∈ before.getLast?, c.view = ';' ∨ c.view = '}') (hgap : Blank gap)
      (hfirst : segments r = .statement cells :: more) (hbegins : Begins cells) :
      Place (statementSite (trimCells cells)) (before ++ gap) r
  | block {before gap header body r : List Cell} {more : List Segment} (hcut : Cuts segments before)
      (hlast : ∀ c ∈ before.getLast?, c.view = ';' ∨ c.view = '}') (hgap : Blank gap)
      (hfirst : segments r = .block header body :: more) (hbegins : Begins header)
      (hruns : isInitializer header = false) :
      Place .declaration (before ++ gap) r
  | parameter {before front ps gap qs rest : List Cell} {o c : Cell} {p : Parameter} (hcut : Cuts segments before)
      (hhead : ParameterHead front o) (hc : c.view = ')') (hbalanced : Balanced Cell.view (ps ++ (gap ++ qs)))
      (hlist : Cuts (pieces Cell.view true ',') ps) (hlast : ∀ d ∈ ps.getLast?, d.view = ',') (hgap : Blank gap)
      (hbegins : Begins qs) (hcomma : (dropBlank qs).head?.map Cell.view ≠ some ',')
      (hp : (pieces Cell.view true ',' (gap ++ qs)).head?.bind parameter? = some p) :
      Place (.parameter p) (before ++ (front ++ o :: (ps ++ gap))) (qs ++ c :: rest)
  | constant {before header ps gap qs rest : List Cell} {o c : Cell} {heading : Heading} (hcut : Cuts segments before)
      (hhead : TypeHead header heading) (hkind : heading.kind = .enumType) (ho : o.view = '{') (hc : c.view = '}')
      (hbalanced : Balanced Cell.view ps) (hbalanced' : Balanced Cell.view qs) (hfree : Free Cell.view [';'] ps)
      (hlist : Cuts (pieces Cell.view false ',') ps) (hlast : ∀ d ∈ ps.getLast?, d.view = ',') (hgap : Blank gap)
      (hbegins : Begins (splitConstants (items Cell.view closer? qs)).1)
      (hcomma : (dropBlank (splitConstants (items Cell.view closer? qs)).1).head?.map Cell.view ≠ some ',') :
      Place .constant (before ++ (header ++ o :: (ps ++ gap))) (qs ++ c :: rest)
  | inside {site : Site} {before header opening l r rest : List Cell} {o c : Cell} {heading : Heading}
      (hcut : Cuts segments before) (hhead : TypeHead header heading) (ho : o.view = '{') (hc : c.view = '}')
      (hopening : Opening heading.kind opening) (hbalanced : Balanced Cell.view (l ++ r)) (h : Place site l r) :
      Place site (before ++ (header ++ o :: (opening ++ l))) (r ++ c :: rest)

theorem members_append (h : Cuts segments cs) (owner : String) :
    members owner (cs ++ ds) = members owner cs ++ members owner ds := by
  rw [members, h, List.flatMap_append, members, members]

theorem splitConstants_append (h : Balanced Cell.view cs) (hfree : Free Cell.view [';'] cs) :
    splitConstants (items Cell.view closer? (cs ++ ds)) =
      (cs ++ (splitConstants (items Cell.view closer? ds)).1, (splitConstants (items Cell.view closer? ds)).2) := by
  induction h with
  | nil => rfl
  | plain hopen _ _ ih =>
    obtain ⟨hx, hxs⟩ := (free_cons hopen).1 hfree
    rw [List.cons_append, items_plain hopen, splitConstants, if_neg (by simpa using hx), ih hxs, List.cons_append]
  | group hpair hinside _ _ ih =>
    rw [List.cons_append, List.append_assoc, List.cons_append, items_group hinside hpair, splitConstants,
      ih ((free_group hinside hpair).1 hfree).2]
    simp

theorem Opening.balanced {kind : TypeKind} {opening : List Cell} (h : Opening kind opening) :
    Balanced Cell.view opening := by
  cases h with
  | constants h hbalanced _ => exact hbalanced.append (.plain (by rw [h]; rfl) (by rw [h]; rfl) .nil)
  | none _ => exact .nil

theorem Opening.splitBody {kind : TypeKind} {opening : List Cell} (h : Opening kind opening) :
    ∃ constants, ∀ ds, Balanced Cell.view ds → splitBody kind (opening ++ ds) = (constants, ds) := by
  cases h with
  | @constants cs semicolon h hbalanced hfree =>
    refine ⟨cs, fun ds hds => ?_⟩
    have hsemicolon : closer? semicolon.view = Option.none := by rw [h]; rfl
    rw [Java.splitBody, if_pos rfl, List.append_assoc, splitConstants_append hbalanced hfree, List.singleton_append,
      items_plain hsemicolon, splitConstants, if_pos h, elements_items hds, List.append_nil]
  | none h => exact ⟨[], fun ds _ => by rw [Java.splitBody, if_neg h, List.nil_append]⟩

theorem TypeHead.segmentMembers {header body : List Cell} {heading : Heading} (h : TypeHead header heading)
    (owner : String) : segmentMembers owner (.block header body) =
      [.nested (heading.declare header (bodyConstants heading body) (bodyMembers heading body))] := by
  have hruns : isInitializer header = false := by
    by_contra hruns
    have hnone := heading?_of_isInitializer (by simpa using hruns)
    rw [h.heading] at hnone
    cases hnone
  rw [Java.segmentMembers, hruns, typeDeclaration?_eq, h.heading]
  rfl

theorem TypeHead.members {header body : List Cell} {heading : Heading} (h : TypeHead header heading)
    (hbody : Balanced Cell.view body) {o c : Cell} (ho : o.view = '{') (hc : c.view = '}') (owner : String) :
    members owner (header ++ o :: (body ++ c :: rest)) =
      .nested (heading.declare header (bodyConstants heading body) (bodyMembers heading body)) :: members owner rest := by
  rw [Java.members, segments_block h.balanced h.free h.assigns hbody ho hc, List.flatMap_cons, h.segmentMembers]
  rfl

theorem declare_extend (heading : Heading) (header : List Cell) (constants : List EnumConstant) (ms : List Member) :
    heading.declare header constants ms = (heading.declare header constants []).extend ms := by
  simp [Heading.declare, TypeDeclaration.extend]

theorem Annotation.free_segment (a : Annotation) : Free Cell.view [';', '{'] a.cells :=
  a.free_cells (by decide) (by decide) (by decide)

theorem Changed.here {E : List Member → List Member → Prop} {ms ms' : List Member} (h : E ms ms')
    (front back : List Member) : Changed E (front ++ (ms ++ back)) (front ++ (ms' ++ back)) :=
  ⟨front, ms, ms', back, rfl, rfl, .here h⟩

section

variable {E : List Member → List Member → Prop} {cs' before : List Cell}

/-- Two texts that go into the same segment make a difference at its members only. -/
theorem changed_prepend (hcut : Cuts segments before) (h : Lead cs ∧ Free Cell.view [';', '{'] cs)
    (h' : Lead cs' ∧ Free Cell.view [';', '{'] cs') (hnone : segments ds = [] → E [] [])
    (hfirst : ∀ s more, segments ds = s :: more →
      E (segmentMembers owner (s.prepend cs)) (segmentMembers owner (s.prepend cs'))) :
    Changed E (members owner (before ++ (cs ++ ds))) (members owner (before ++ (cs' ++ ds))) := by
  rw [members_append hcut, members_append hcut, members, members, members, segments_prepend h.1 h.2,
    segments_prepend h'.1 h'.2]
  cases hsegments : segments ds with
  | nil => simpa using Changed.here (hnone hsegments) ((segments before).flatMap (segmentMembers owner)) []
  | cons s more =>
    rw [List.modifyHead_cons, List.modifyHead_cons, List.flatMap_cons, List.flatMap_cons]
    exact .here (hfirst s more hsegments) _ _

theorem changed_segment {s : Segment} {more : List Segment} (a : Annotation) (hcut : Cuts segments before)
    (hgap : Blank gap) (hfirst : segments ds = s :: more)
    (h : E (segmentMembers owner (s.prepend gap)) (segmentMembers owner (s.prepend (gap ++ a.cells)))) :
    Changed E (members owner ((before ++ gap) ++ ds)) (members owner ((before ++ gap) ++ (a.cells ++ ds))) := by
  have hblank : Lead gap ∧ Free Cell.view [';', '{'] gap :=
    ⟨lead_blank hgap, (unmarked_of_blank hgap).free (by decide)⟩
  have hannotated : Lead (gap ++ a.cells) ∧ Free Cell.view [';', '{'] (gap ++ a.cells) :=
    ⟨hblank.1.append a.lead_cells, (free_append hblank.1.balanced).2 ⟨hblank.2, a.free_segment⟩⟩
  rw [List.append_assoc, List.append_assoc, ← List.append_assoc gap]
  refine changed_prepend hcut hblank hannotated (fun hnone => ?_) fun s' more' hfirst' => ?_
  · rw [hnone] at hfirst
    cases hfirst
  · rw [hfirst] at hfirst'
    obtain ⟨rfl, -⟩ := List.cons.inj hfirst'
    exact h

end

theorem splitBody_append {kind : TypeKind} (hkind : kind = .enumType) (h : Balanced Cell.view cs)
    (hfree : Free Cell.view [';'] cs) :
    splitBody kind (cs ++ ds) =
      (cs ++ (splitConstants (items Cell.view closer? ds)).1, (splitConstants (items Cell.view closer? ds)).2) := by
  rw [splitBody, if_pos hkind, splitConstants_append h hfree]

theorem ParameterHead.lead_list {front params : List Cell} {o c : Cell} (h : ParameterHead front o) (hc : c.view = ')')
    (hparams : Balanced Cell.view params) :
    Lead (front ++ o :: (params ++ [c])) ∧ Free Cell.view [';', '{'] (front ++ o :: (params ++ [c])) := by
  have hpair : closer? o.view = some c.view := by
    rw [h.mark, hc]
    rfl
  have hopen : o.view ∉ [';', '{'] := by
    rw [h.mark]
    decide
  refine ⟨lead_parameters h.balanced (h.free.mono (by simp)) h.mark hc hparams, ?_⟩
  refine (free_append h.balanced).2 ⟨h.free.mono (by simp), (free_group hparams hpair).2 ⟨hopen, ?_⟩⟩
  exact fun it hit => absurd hit List.not_mem_nil

/-- Another list of parameters makes a difference at the segment it stands in. -/
theorem ParameterHead.changed {E : List Member → List Member → Prop} {before front params params' : List Cell} {o c : Cell}
    (h : ParameterHead front o) (hc : c.view = ')') (hcut : Cuts segments before)
    (hparams : Balanced Cell.view params) (hparams' : Balanced Cell.view params') (hnone : E [] [])
    (hsegment : ∀ s : Segment, E (segmentMembers owner (s.prepend (front ++ o :: (params ++ [c]))))
      (segmentMembers owner (s.prepend (front ++ o :: (params' ++ [c]))))) :
    Changed E (members owner (before ++ (front ++ o :: (params ++ c :: rest))))
      (members owner (before ++ (front ++ o :: (params' ++ c :: rest)))) := by
  have hcells : ∀ params : List Cell,
      before ++ (front ++ o :: (params ++ c :: rest)) = before ++ ((front ++ o :: (params ++ [c])) ++ rest) := by simp
  rw [hcells, hcells]
  exact changed_prepend hcut (h.lead_list hc hparams) (h.lead_list hc hparams') (fun _ => hnone) fun s _ _ => hsegment s

/-- In front of a constant an annotation changes neither the constants nor the members of an enum. -/
theorem body_annotated (a : Annotation) {heading : Heading} {ps qs : List Cell} (hkind : heading.kind = .enumType)
    (hbalanced : Balanced Cell.view ps) (hfree : Free Cell.view [';'] ps) (hlist : Cuts (pieces Cell.view false ',') ps)
    (hgap : Blank gap) (hbegins : Begins (splitConstants (items Cell.view closer? qs)).1)
    (hcomma : (dropBlank (splitConstants (items Cell.view closer? qs)).1).head?.map Cell.view ≠ some ',') :
    bodyConstants heading (ps ++ (gap ++ (a.cells ++ qs))) = bodyConstants heading (ps ++ (gap ++ qs)) ∧
      bodyMembers heading (ps ++ (gap ++ (a.cells ++ qs))) = bodyMembers heading (ps ++ (gap ++ qs)) := by
  have hblank := unmarked_of_blank hgap
  have hfront : Balanced Cell.view (ps ++ gap) := hbalanced.append hblank.balanced
  have hfrontFree : Free Cell.view [';'] (ps ++ gap) := (free_append hbalanced).2 ⟨hfree, hblank.free (by decide)⟩
  have hcells : ps ++ (gap ++ qs) = (ps ++ gap) ++ qs := by simp
  have hcells' : ps ++ (gap ++ (a.cells ++ qs)) = ((ps ++ gap) ++ a.cells) ++ qs := by simp
  have hannotated : Free Cell.view [';'] ((ps ++ gap) ++ a.cells) :=
    (free_append hfront).2 ⟨hfrontFree, a.free_segment.mono (by simp)⟩
  rw [bodyConstants, bodyConstants, if_pos hkind, if_pos hkind, bodyMembers, bodyMembers, hcells, hcells',
    splitBody_append hkind (hfront.append a.balanced_cells) hannotated, splitBody_append hkind hfront hfrontFree]
  refine ⟨?_, rfl⟩
  simp only [List.append_assoc]
  exact enumConstants_annotated a hlist hgap hbegins hcomma

/-- A type is declared with the members of its body, and the rest of it does not depend on them. -/
theorem TypeHead.members_inside {header opening : List Cell} {heading : Heading} (h : TypeHead header heading)
    (hopening : Opening heading.kind opening) {o c : Cell} (ho : o.view = '{') (hc : c.view = '}') (owner : String) :
    ∃ t : TypeDeclaration, ∀ ds rest, Balanced Cell.view ds →
      Java.members owner (header ++ o :: ((opening ++ ds) ++ c :: rest)) =
        .nested (t.extend (Java.members heading.name ds)) :: Java.members owner rest := by
  obtain ⟨constants, hsplit⟩ := hopening.splitBody
  have hconstants : ∀ ds, Balanced Cell.view ds → bodyConstants heading (opening ++ ds) = bodyConstants heading opening := by
    intro ds hds
    have hnil := hsplit [] .nil
    rw [List.append_nil] at hnil
    rw [bodyConstants, bodyConstants, hsplit ds hds, hnil]
  refine ⟨heading.declare header (bodyConstants heading opening) [], fun ds rest hds => ?_⟩
  rw [h.members (hopening.balanced.append hds) ho hc, hconstants ds hds, bodyMembers, hsplit ds hds, declare_extend]
  rfl

/-- Wherever the annotation is put, it has its effect on the members there and no other. -/
theorem Place.changed {site : Site} {l r : List Cell} (h : Place site l r) (a : Annotation) (owner : String) :
    Changed (a.Effect site) (members owner (l ++ r)) (members owner (l ++ (a.cells ++ r))) := by
  -- by induction on the place: outside its type nothing changes
  induction h generalizing owner with
  | @statement before gap cells r more hcut _ hgap hfirst hbegins =>
    refine changed_segment a hcut hgap hfirst ?_
    rw [Segment.prepend, Segment.prepend, List.append_assoc]
    exact effect_statement a hgap hbegins owner
  | @block before gap header body r more hcut _ hgap hfirst hbegins hruns =>
    refine changed_segment a hcut hgap hfirst ?_
    rw [Segment.prepend, Segment.prepend, List.append_assoc]
    exact effect_block a hgap hbegins hruns owner body
  | @parameter before front ps gap qs rest o c p hcut hhead hc hbalanced hlist _ hgap hbegins hcomma hp =>
    have hannotated : Balanced Cell.view (ps ++ (gap ++ (a.cells ++ qs))) := by
      rw [← List.append_assoc] at hbalanced ⊢
      exact hbalanced.insert a.balanced_cells
    have hcells : (before ++ (front ++ o :: (ps ++ gap))) ++ (qs ++ c :: rest) =
        before ++ (front ++ o :: ((ps ++ (gap ++ qs)) ++ c :: rest)) := by simp
    have hcells' : (before ++ (front ++ o :: (ps ++ gap))) ++ (a.cells ++ (qs ++ c :: rest)) =
        before ++ (front ++ o :: ((ps ++ (gap ++ (a.cells ++ qs))) ++ c :: rest)) := by simp
    rw [hcells, hcells']
    refine hhead.changed hc hcut hbalanced hannotated ⟨fun _ => .noMethod p, fun fs hfs => by cases hfs⟩ fun s => ?_
    refine ⟨fun hangles => ?_, fun fs hfs => by cases hfs⟩
    obtain ⟨front', back, hparams, hparams'⟩ := parameters_annotated a hangles hlist hgap hbegins hcomma hp
    exact edited_segment hhead hc hbalanced hannotated hparams hparams' owner s
  | @constant before header ps gap qs rest o c heading hcut hhead hkind ho hc hbalanced hbalanced' hfree hlist _ hgap
      hbegins hcomma =>
    have hinside : Balanced Cell.view (gap ++ qs) := (unmarked_of_blank hgap).balanced.append hbalanced'
    have hannotated : Balanced Cell.view (gap ++ (a.cells ++ qs)) := hinside.insert a.balanced_cells
    have hcells : (before ++ (header ++ o :: (ps ++ gap))) ++ (qs ++ c :: rest) =
        before ++ (header ++ o :: ((ps ++ (gap ++ qs)) ++ c :: rest)) := by simp
    have hcells' : (before ++ (header ++ o :: (ps ++ gap))) ++ (a.cells ++ (qs ++ c :: rest)) =
        before ++ (header ++ o :: ((ps ++ (gap ++ (a.cells ++ qs))) ++ c :: rest)) := by simp
    obtain ⟨hconstants, hmembers⟩ := body_annotated a hkind hbalanced hfree hlist hgap hbegins hcomma
    rw [hcells, hcells', members_append hcut, members_append hcut, hhead.members (hbalanced.append hinside) ho hc,
      hhead.members (hbalanced.append hannotated) ho hc, hconstants, hmembers]
    have heffect : ∀ t, a.Effect .constant [.nested t] [.nested t] :=
      fun t => ⟨fun _ => .constant t, fun fs hfs => by cases hfs⟩
    exact Changed.here (heffect _) (members owner before) (members owner rest)
  | @inside site before header opening l r rest o c heading hcut hhead ho hc hopening hbalanced _ ih =>
    have hcells : (before ++ (header ++ o :: (opening ++ l))) ++ (r ++ c :: rest) =
        before ++ (header ++ o :: ((opening ++ (l ++ r)) ++ c :: rest)) := by simp
    have hcells' : (before ++ (header ++ o :: (opening ++ l))) ++ (a.cells ++ (r ++ c :: rest)) =
        before ++ (header ++ o :: ((opening ++ (l ++ (a.cells ++ r))) ++ c :: rest)) := by simp
    obtain ⟨t, ht⟩ := hhead.members_inside hopening ho hc owner
    obtain ⟨front, one, one', back, hone, hone', hwithin⟩ := ih heading.name
    rw [hcells, hcells', members_append hcut, members_append hcut, ht _ rest hbalanced,
      ht _ rest (hbalanced.insert a.balanced_cells), hone, hone']
    exact ⟨members owner before, _, _, members owner rest, rfl, rfl, .inside t front back hwithin⟩

/-! The whole file. -/

theorem isMark_of_mem {c : Char} (h : c ∈ [';', '{', '}', '(', ',']) : IsMark c := by
  have hall : [';', '{', '}', '(', ','].all (fun m => !isNamePart m && !isSpace m && m != '*') = true := by decide
  have hmark := List.all_eq_true.1 hall c h
  simp only [Bool.and_eq_true, Bool.not_eq_true', bne_iff_ne] at hmark
  exact ⟨hmark.1.1, hmark.1.2, hmark.2⟩

theorem mem_getLast?_append_cons {xs ys : List Cell} {o c : Cell} (h : c ∈ (xs ++ o :: ys).getLast?) :
    c = o ∨ c ∈ ys.getLast? := by
  rw [List.getLast?_append_of_ne_nil _ (List.cons_ne_nil o ys), List.getLast?_cons] at h
  cases hlast : ys.getLast? with
  | none => exact .inl (by rw [hlast] at h; exact (Option.some.inj h).symm)
  | some d => exact .inr (by rw [hlast] at h; exact h)

theorem Opening.last {kind : TypeKind} {opening : List Cell} (h : Opening kind opening) :
    ∀ c ∈ opening.getLast?, c.view = ';' := by
  cases h with
  | constants hsemicolon _ _ =>
    intro c hc
    rw [List.getLast?_concat] at hc
    rw [← Option.some.inj hc, hsemicolon]
  | none _ => simp

/-- Before the blanks in front of a place stands a mark, or nothing. -/
theorem Place.behind_mark {site : Site} {l r : List Cell} (h : Place site l r) :
    ∃ front gap, l = front ++ gap ∧ Blank gap ∧ ∀ c ∈ front.getLast?, IsMark c.view := by
  induction h with
  | @statement before gap _ _ _ _ hlast hgap =>
    refine ⟨before, gap, rfl, hgap, fun c hc => isMark_of_mem ?_⟩
    rcases hlast c hc with heq | heq <;> simp [heq]
  | @block before gap _ _ _ _ _ hlast hgap =>
    refine ⟨before, gap, rfl, hgap, fun c hc => isMark_of_mem ?_⟩
    rcases hlast c hc with heq | heq <;> simp [heq]
  | @parameter before front ps gap _ _ o _ _ _ hhead _ _ _ hlast hgap =>
    refine ⟨(before ++ front) ++ o :: ps, gap, by simp, hgap, fun c hc => isMark_of_mem ?_⟩
    rcases mem_getLast?_append_cons hc with rfl | hc
    · simp [hhead.mark]
    · simp [hlast c hc]
  | @constant before header ps gap _ _ o _ _ _ _ _ ho _ _ _ _ _ hlast hgap =>
    refine ⟨(before ++ header) ++ o :: ps, gap, by simp, hgap, fun c hc => isMark_of_mem ?_⟩
    rcases mem_getLast?_append_cons hc with rfl | hc
    · simp [ho]
    · simp [hlast c hc]
  | @inside _ before header opening _ _ _ o _ _ _ _ ho _ hopening _ _ ih =>
    obtain ⟨front, gap, rfl, hgap, hlast⟩ := ih
    refine ⟨(before ++ header) ++ o :: (opening ++ front), gap, by simp, hgap, fun c hc => ?_⟩
    rcases mem_getLast?_append_cons hc with rfl | hc
    · exact isMark_of_mem (by simp [ho])
    · rw [List.getLast?_append, Option.mem_def, Option.or_eq_some_iff] at hc
      rcases hc with hc | ⟨-, hc⟩
      · exact hlast c hc
      · exact isMark_of_mem (by simp [hopening.last c hc])

theorem isSpace_of_isAsciiSpace {c : Char} (h : isAsciiSpace c = true) : isSpace c = true := by
  by_contra hspace
  rw [Bool.not_eq_true] at hspace
  rw [isAsciiSpace_of_isSpace hspace] at h
  cases h

def Annotation.tag (a : Annotation) : Tag := ⟨views a.name, a.arguments.map views, views a.gap⟩

theorem Annotation.text_tag (a : Annotation) : a.tag.text = views a.cells := by
  cases harguments : a.arguments <;>
    simp [Tag.text, tag, cells, harguments, Tag.parentheses, parentheses, views]

theorem nested?_statementMembers (owner : String) (cs : List Cell) :
    (statementMembers owner cs).filterMap Member.nested? = [] := by
  have hfields : ∀ fs : List FieldDeclaration, (fs.map Member.field).filterMap Member.nested? = [] := by
    intro fs
    rw [List.filterMap_map, List.filterMap_eq_nil_iff]
    exact fun f _ => rfl
  by_cases hempty : trimCells cs = []
  · simp [statementMembers, hempty]
  · rw [statementMembers_eq hempty]
    split
    · cases method? owner (trimCells cs) (sourceText (trimCells cs)) "" <;> rfl
    · exact hfields _

theorem nested?_blockMembers (owner : String) (header body : List Cell) :
    (blockMembers owner header body).filterMap Member.nested? = [] := by
  rw [blockMembers]
  cases method? owner (trimCells header) (String.ofList (verbatim (dropBlank header) ++ '{' :: verbatim body ++ ['}']))
    (sourceText body) with
  | none => rfl
  | some m =>
    simp only
    split <;> rfl

/-- The types of a file are the types among the members that its text has as a body. -/
theorem topLevelTypes_eq (owner : String) (ss : List Segment) :
    topLevelTypes ss = (ss.flatMap (segmentMembers owner)).filterMap Member.nested? := by
  rw [topLevelTypes, List.filterMap_flatMap, List.filterMap_eq_flatMap_toList]
  congr 1
  funext s
  cases s with
  | statement cs => exact (nested?_statementMembers owner cs).symm
  | block header body =>
    rw [segmentMembers]
    cases hruns : isInitializer header with
    | true =>
      have hnone : typeDeclaration? header body = none := by
        rw [typeDeclaration?_eq, heading?_of_isInitializer hruns, Option.map_none]
      simp only [hnone, if_true]
      rfl
    | false =>
      simp only [Bool.false_eq_true, if_false]
      cases typeDeclaration? header body with
      | none => exact (nested?_blockMembers owner header body).symm
      | some t => rfl

end WireLayout.Java
