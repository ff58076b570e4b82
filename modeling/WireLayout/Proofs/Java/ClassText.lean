import WireLayout.Proofs.Java.Mask
import WireLayout.Proofs.Java.TypeHeader

/-! Classes as they are written: members one after another between braces, each a field, a constructor or a method
with a body of any text in which brackets match and which ends outside comments and literals. Every such text is
read back as the class it was written from, each body to the letter. -/

namespace WireLayout.Java

open WireLayout.Text

variable {cs ds t w rest : List Char} {c : Char} {owner : List Char}

structure ParameterText where
  type : List Char
  name : List Char

namespace ParameterText

def text (p : ParameterText) : List Char := p.type ++ ' ' :: p.name

def parameter (p : ParameterText) : Parameter := ⟨[], String.ofList p.type, String.ofList p.name⟩

structure WellFormed (p : ParameterText) : Prop where
  type : IsTypeText p.type
  name : Identifier p.name

end ParameterText

def modifiersText (ms : List String) : List Char := ms.flatMap fun m => m.toList ++ [' ']

def parametersText (ps : List ParameterText) : List Char := [',', ' '].intercalate (ps.map ParameterText.text)

structure FieldText where
  modifiers : List String
  type : List Char
  name : List Char

structure RoutineText where
  modifiers : List String
  type : Option (List Char)
  name : List Char
  parameters : List ParameterText
  body : List Char

inductive MemberText where
  | field (f : FieldText)
  | routine (r : RoutineText)

namespace FieldText

def statement (f : FieldText) : List Char := modifiersText f.modifiers ++ (f.type ++ ' ' :: f.name)

def text (f : FieldText) : List Char := f.statement ++ [';']

def declaration (f : FieldText) : FieldDeclaration := {
  annotations := []
  modifiers := f.modifiers
  type := String.ofList f.type
  name := String.ofList f.name
  initializer := none
  text := String.ofList f.text }

structure WellFormed (f : FieldText) : Prop where
  modifiers : ∀ m ∈ f.modifiers, m ∈ modifierWords
  type : IsTypeText f.type
  name : Identifier f.name

end FieldText

namespace RoutineText

def front (r : RoutineText) : List Char := (r.type.map (· ++ [' '])).getD []

def signature (r : RoutineText) : List Char :=
  modifiersText r.modifiers ++ (r.front ++ (r.name ++ '(' :: (parametersText r.parameters ++ [')'])))

def text (r : RoutineText) : List Char := r.signature ++ ' ' :: '{' :: (r.body ++ ['}'])

def method (r : RoutineText) : Method := {
  annotations := []
  modifiers := r.modifiers
  returnType := r.type.map String.ofList
  name := String.ofList r.name
  parameters := r.parameters.map ParameterText.parameter
  text := String.ofList r.text
  body := String.ofList r.body }

structure WellFormed (owner : List Char) (r : RoutineText) : Prop where
  modifiers : ∀ m ∈ r.modifiers, m ∈ modifierWords
  type : ∀ t ∈ r.type, IsTypeText t
  name : Identifier r.name
  owner : r.type = none → r.name = owner
  parameters : ∀ p ∈ r.parameters, p.WellFormed
  balanced : isBalanced (views (Java.cells r.body)) = true
  ends : EndsInCode r.body

end RoutineText

namespace MemberText

def text : MemberText → List Char
  | field f => f.text
  | routine r => r.text

def member : MemberText → Member
  | field f => .field f.declaration
  | routine r => if r.type.isNone then .constructor r.method else .method r.method

theorem nested?_member (m : MemberText) : m.member.nested? = none := by
  cases m with
  | field f => rfl
  | routine r =>
    rw [member]
    split <;> rfl

def WellFormed (owner : List Char) : MemberText → Prop
  | field f => f.WellFormed
  | routine r => r.WellFormed owner

end MemberText

structure Placed where
  gap : List Char
  member : MemberText

def Placed.text (p : Placed) : List Char := p.gap ++ p.member.text

/-- A class, with the blanks before the brace that closes it. -/
structure ClassText where
  name : List Char
  members : List Placed
  gap : List Char

namespace ClassText

def classWord : List Char := ['c', 'l', 'a', 's', 's']

def text (t : ClassText) : List Char :=
  classWord ++ ' ' :: (t.name ++ ' ' :: '{' ::
    (t.members.flatMap Placed.text ++ (t.gap ++ ['}'])))

def declaration (t : ClassText) : TypeDeclaration := {
  kind := .classType
  name := String.ofList t.name
  modifiers := []
  superclasses := []
  interfaces := []
  fields := t.members.filterMap fun m => m.member.member.field?
  constructors := t.members.filterMap fun m => m.member.member.constructor?
  methods := t.members.filterMap fun m => m.member.member.method?
  constants := []
  nested := [] }

structure WellFormed (t : ClassText) : Prop where
  name : Identifier t.name
  gaps : ∀ m ∈ t.members, ∀ c ∈ m.gap, isAsciiSpace c = true
  members : ∀ m ∈ t.members, m.member.WellFormed t.name
  gap : ∀ c ∈ t.gap, isAsciiSpace c = true

end ClassText

/-! Texts without comments, literals and blocks. -/

/-- A text that the mask shows whole. -/
def Coded (cs : List Char) : Prop := ∀ c ∈ cs, c ≠ '/' ∧ c ≠ '"' ∧ c ≠ '\''

theorem coded_append : Coded (cs ++ ds) ↔ Coded cs ∧ Coded ds := List.forall_mem_append

theorem coded_cons : Coded (c :: cs) ↔ (c ≠ '/' ∧ c ≠ '"' ∧ c ≠ '\'') ∧ Coded cs := List.forall_mem_cons

theorem coded_of_isIdent (h : ∀ c ∈ cs, isIdent c = true) : Coded cs := by
  intro c hc
  refine ⟨?_, ?_, ?_⟩ <;> (rintro rfl; exact absurd (h _ hc) (by decide))

theorem coded_of_isAsciiSpace (h : ∀ c ∈ cs, isAsciiSpace c = true) : Coded cs := by
  intro c hc
  refine ⟨?_, ?_, ?_⟩ <;> (rintro rfl; exact absurd (h _ hc) (by decide))

theorem Tokens.coded (h : Tokens cs) : Coded cs := by
  intro c hc
  rcases h.chars c hc with hident | hmark
  · exact coded_of_isIdent (fun d hd => by rwa [List.mem_singleton.1 hd]) c (List.mem_singleton_self c)
  · have hall : ('[' :: ']' :: typeMarks).all (fun m => m ≠ '/' && m ≠ '"' && m ≠ '\'') = true := by decide
    simpa [and_assoc] using List.all_eq_true.1 hall c hmark

/-- Without marks of comments and literals a text is shown, whatever follows it. -/
theorem cells_coded (h : Coded cs) (ds : List Char) : cells (cs ++ ds) = codes cs ++ cells ds := by
  induction cs with
  | nil => rfl
  | cons c cs ih =>
    obtain ⟨⟨hslash, hquote, happos⟩, hcs⟩ := coded_cons.1 h
    have hstep : ∀ rest, MaskState.step (.inside .code) c rest = (true, .inside .code) := by
      simp [MaskState.step, hslash, hquote, happos]
    have hih := ih hcs
    rw [cells] at hih
    rw [List.cons_append, cells, cellsFrom, hstep, hih]
    rfl

/-- A text of names, marks and blanks: no method, block or value begins in it. -/
structure Quiet (cs : List Char) : Prop where
  bare : Bare (codes cs)
  coded : Coded cs

namespace Quiet

theorem append (hc : Quiet cs) (hd : Quiet ds) : Quiet (cs ++ ds) := by
  refine ⟨?_, coded_append.2 ⟨hc.coded, hd.coded⟩⟩
  rw [codes_append]
  exact hc.bare.append hd.bare

theorem nil : Quiet [] := ⟨⟨.nil, by simp⟩, by simp [Coded]⟩

theorem ident (h : ∀ c ∈ cs, isIdent c = true) : Quiet cs :=
  ⟨(unmarked_of_isIdent (forall_codes.2 h)).bare, coded_of_isIdent h⟩

theorem blank (h : ∀ c ∈ cs, isAsciiSpace c = true) : Quiet cs :=
  ⟨(unmarked_of_blank (forall_codes.2 h)).bare, coded_of_isAsciiSpace h⟩

theorem space : Quiet [' '] := blank (by simp; decide)

end Quiet

theorem IsTypeText.quiet (h : IsTypeText t) : Quiet (t ++ [' ']) := ⟨h.isType.bare, h.spells.spaced.tokens.coded⟩

theorem Identifier.isName (h : Identifier w) : IsName (codes w) := by
  refine ⟨by simpa using h.nonempty, forall_codes.2 h.ident, ?_⟩
  intro c hc
  rw [head?_codes] at hc
  obtain ⟨d, hd, rfl⟩ := Option.map_eq_some_iff.1 hc
  exact h.head d hd

def modifierCells (m : String) : ModifierWord := ⟨codes m.toList, codes [' ']⟩

theorem modifierWords_cells : ∀ m ∈ modifierWords, m.toList.all (fun c => isIdent c || c = '-') = true := by decide

theorem wellFormed_modifierCells {ms : List String} (h : ∀ m ∈ ms, m ∈ modifierWords) :
    ∀ m ∈ ms.map modifierCells, m.WellFormed := by
  intro w hw
  obtain ⟨m, hm, rfl⟩ := List.mem_map.1 hw
  have hcells : ∀ c ∈ m.toList, (isIdent c || c = '-') = true := List.all_eq_true.1 (modifierWords_cells m (h m hm))
  refine ⟨?_, forall_codes.2 hcells, show Blank (codes [' ']) by decide, by simp [modifierCells]⟩
  rw [modifierCells, shownText_codes, String.ofList_toList]
  exact h m hm

theorem flatMap_modifierCells (ms : List String) :
    ((ms.map modifierCells).flatMap fun m => m.word ++ m.gap) = codes (modifiersText ms) := by
  rw [modifiersText, codes, List.map_flatMap, List.flatMap_map]
  congr 1
  funext m
  have hcells : codes (m.toList ++ [' ']) = codes m.toList ++ codes [' '] := codes_append
  exact hcells.symm

theorem quiet_modifiers {ms : List String} (h : ∀ m ∈ ms, m ∈ modifierWords) : Quiet (modifiersText ms) := by
  have hbare := (unmarked_modifiers (wellFormed_modifierCells h)).bare
  rw [flatMap_modifierCells] at hbare
  refine ⟨hbare, ?_⟩
  intro c hc
  obtain ⟨m, hm, hc⟩ := List.mem_flatMap.1 hc
  rcases List.mem_append.1 hc with hc | hc
  · have hcell := List.all_eq_true.1 (modifierWords_cells m (h m hm)) c hc
    refine ⟨?_, ?_, ?_⟩ <;> (rintro rfl; exact absurd hcell (by decide))
  · rw [List.mem_singleton.1 hc]
    decide

theorem map_shownText_modifierCells (ms : List String) :
    (ms.map modifierCells).map (fun m => shownText m.word) = ms := by
  rw [List.map_map]
  have hword : (fun m : ModifierWord => shownText m.word) ∘ modifierCells = id := by
    funext m
    rw [Function.comp_apply, modifierCells, shownText_codes, String.ofList_toList]
    rfl
  rw [hword, List.map_id]

/-! Fields. -/

theorem squeeze_modifiers {ms : List String} (h : ∀ m ∈ ms, m ∈ modifierWords) (ht : squeeze t = t) (hne : t ≠ []) :
    squeeze (modifiersText ms ++ t) = modifiersText ms ++ t := by
  induction ms with
  | nil => exact ht
  | cons m ms ih =>
    have hspace : ∀ c ∈ m.toList, isSpace c = false := by
      intro c hc
      have hcell := List.all_eq_true.1 (modifierWords_cells m (h m List.mem_cons_self)) c hc
      rw [Bool.or_eq_true, decide_eq_true_eq] at hcell
      rcases hcell with hident | rfl
      · exact isSpace_of_isIdent hident
      · decide
    have hword : m.toList ≠ [] := by
      have hnonempty : ∀ m ∈ modifierWords, m.toList ≠ [] := by decide
      exact hnonempty m (h m List.mem_cons_self)
    have hm := squeeze_unspaced hspace hword
    have hms := ih fun n hn => h n (List.mem_cons_of_mem m hn)
    have hcells : modifiersText (m :: ms) ++ t = m.toList ++ ' ' :: (modifiersText ms ++ t) := by simp [modifiersText]
    rw [hcells, squeeze_append_space (by rwa [hm]) (by rw [hms]; simp [hne]), hm, hms]

namespace FieldText

variable {f : FieldText}

def cells (gap : List Char) (f : FieldText) : FieldStatement := {
  before := codes gap
  modifiers := f.modifiers.map modifierCells
  type := codes (f.type ++ [' '])
  first := ⟨codes f.name, none⟩
  more := []
  after := [] }

theorem wellFormed_cells (h : f.WellFormed) {gap : List Char} (hgap : ∀ c ∈ gap, isAsciiSpace c = true) :
    (f.cells gap).WellFormed where
  before := forall_codes.2 hgap
  modifiers := wellFormed_modifierCells h.modifiers
  type := h.type.isType
  first := ⟨h.name.isName, by simp [cells], by simp [cells]⟩
  more := by simp [cells]
  after := by simp [cells, Blank]

theorem core_cells (gap : List Char) (f : FieldText) : (f.cells gap).core = codes f.statement := by
  simp [FieldStatement.core, FieldStatement.declared, cells, flatMap_modifierCells, Declarator.cells,
    Declarator.assigned, statement]

theorem cells_cells (gap : List Char) (f : FieldText) : (f.cells gap).cells = codes (gap ++ f.statement) := by
  rw [FieldStatement.cells, core_cells]
  simp [cells]

theorem quiet (h : f.WellFormed) : Quiet f.statement := by
  have hcells : f.statement = modifiersText f.modifiers ++ ((f.type ++ [' ']) ++ f.name) := by simp [statement]
  rw [hcells]
  exact (quiet_modifiers h.modifiers).append (h.type.quiet.append (.ident h.name.ident))

theorem squeeze_statement (h : f.WellFormed) : squeeze f.statement = f.statement := by
  have hname := h.name.squeeze
  have hdeclared : squeeze (f.type ++ ' ' :: f.name) = f.type ++ ' ' :: f.name := by
    rw [squeeze_append_space (by rw [h.type.normal]; exact h.type.ne_nil) (by rw [hname]; exact h.name.nonempty),
      h.type.normal, hname]
  exact squeeze_modifiers h.modifiers hdeclared (by simp)

theorem fields_cells (h : f.WellFormed) (gap : List Char) : (f.cells gap).fields = [f.declaration] := by
  have hmodifiers := map_shownText_modifierCells f.modifiers
  have htype : squeeze (verbatim (codes (f.type ++ [' ']))) = f.type := by
    rw [verbatim_codes, squeeze_spaced, h.type.normal]
  have htext : squeeze (verbatim (f.cells gap).core) ++ [';'] = f.text := by
    rw [core_cells, verbatim_codes, squeeze_statement h, text]
  rw [FieldStatement.fields, htext]
  simp only [FieldStatement.declarators, cells, List.map_nil, List.map_cons, hmodifiers, htype, shownText_codes]
  rfl

theorem segmentMembers_cells (h : f.WellFormed) {gap : List Char} (hgap : ∀ c ∈ gap, isAsciiSpace c = true)
    (owner : String) : segmentMembers owner (.statement (codes (gap ++ f.statement))) = [.field f.declaration] := by
  have hwell := wellFormed_cells h hgap
  have hread := (FieldStatement.fieldDeclarations_eq_iff hwell).2 (by
    rw [cells, Separable, Declarator.depth]
    simp)
  rw [← cells_cells, FieldStatement.segmentMembers_cells hwell, hread, fields_cells h]
  rfl

end FieldText

/-! Parameters. -/

theorem parameter?_text {p : ParameterText} (h : p.WellFormed) : parameter? (codes p.text) = some p.parameter := by
  have hcells : codes p.text = codes (p.type ++ [' ']) ++ codes p.name := by simp [ParameterText.text]
  have htype : squeeze (p.type ++ [' ']) = p.type := by rw [squeeze_spaced, h.type.normal]
  rw [parameter?, ParameterText.text, preamble_plain (h.type.plain p.name), ← ParameterText.text, hcells, typedName?_type h.type.isType h.name.isName,
    verbatim_codes, htype, shownText_codes]
  rfl

/-- Parameters are cut apart at the commas between them, by induction on them. -/
theorem pieces_parameters {ps : List ParameterText} (h : ∀ p ∈ ps, p.WellFormed) (hne : ps ≠ []) {gap : List Cell}
    (hgap : Blank gap) :
    pieces Cell.view true ',' (gap ++ codes (parametersText ps)) = ps.map fun p => codes p.text := by
  induction ps generalizing gap with
  | nil => exact absurd rfl hne
  | cons p ps ih =>
    have hp := h p List.mem_cons_self
    have hnil : Blank [] := by simp [Blank]
    have hname : Declarator.WellFormed ⟨codes p.name, none⟩ := ⟨hp.name.isName, by simp, by simp⟩
    have htext : codes (p.type ++ [' ']) ++ Declarator.cells ⟨codes p.name, none⟩ = codes p.text := by
      simp [ParameterText.text, Declarator.cells, Declarator.assigned]
    cases ps with
    | nil =>
      have hlast := pieces_last hgap hp.type.isType.typed hname (by simp [Declarator.depth])
      rw [htext] at hlast
      simpa [parametersText] using hlast
    | cons q ps =>
      have hspace : Blank (codes [' ']) := by decide
      have hnext := ih (fun r hr => h r (List.mem_cons_of_mem p hr)) (List.cons_ne_nil q ps) hspace
      have hcells : gap ++ codes (parametersText (p :: q :: ps)) = gap ++ (codes (p.type ++ [' ']) ++
          (Declarator.cells ⟨codes p.name, none⟩ ++ ([] ++ Cell.code ',' :: (codes [' '] ++ codes (parametersText (q :: ps)))))) := by
        simp [parametersText, List.intercalate_cons_cons, ParameterText.text, Declarator.cells, Declarator.assigned]
      rw [hcells, pieces_separated hgap hp.type.isType.typed hname hnil rfl, htext, hnext]
      rfl

theorem parameters_text {ps : List ParameterText} (h : ∀ p ∈ ps, p.WellFormed) :
    parameters (codes (parametersText ps)) = ps.map ParameterText.parameter := by
  cases ps with
  | nil => rfl
  | cons p ps =>
    have hnil : Blank [] := by simp [Blank]
    have hpieces := pieces_parameters h (List.cons_ne_nil p ps) hnil
    rw [List.nil_append] at hpieces
    rw [parameters, hpieces, List.filterMap_map]
    exact List.filterMap_eq_map_iff_forall_eq_some.2 fun q hq => parameter?_text (h q hq)

theorem quiet_parameters {ps : List ParameterText} (h : ∀ p ∈ ps, p.WellFormed) : Quiet (parametersText ps) := by
  induction ps with
  | nil => exact .nil
  | cons p ps ih =>
    have hp := h p List.mem_cons_self
    have htext : Quiet p.text := by
      have hquiet := hp.type.quiet.append (.ident hp.name.ident)
      simpa [ParameterText.text] using hquiet
    cases ps with
    | nil => simpa [parametersText] using htext
    | cons q ps =>
      have hcomma : Quiet [','] := ⟨Bare.comma, by simp [Coded]⟩
      have hquiet := htext.append (hcomma.append (Quiet.space.append (ih fun r hr => h r (List.mem_cons_of_mem p hr))))
      simpa [parametersText, List.intercalate_cons_cons] using hquiet

/-! Constructors and methods. -/

/-- What stands before the name of a method or constructor: a type and a space, or nothing. -/
structure IsFront (cs : List Char) : Prop where
  quiet : Quiet cs
  typed : Typed (codes cs)
  last : ∀ c ∈ cs.getLast?, isIdent c = false
  angles : cs.count '<' = cs.count '>'
  tokens : ∀ w, Identifier w → Tokens (cs ++ w)
  plain : ∀ w, Identifier w → ∀ rest, Plain (codes (cs ++ (w ++ '(' :: rest)))

namespace RoutineText

variable {r : RoutineText}

theorem isFront (h : r.WellFormed owner) : IsFront r.front := by
  unfold front
  cases ht : r.type with
  | none => exact ⟨.nil, typed_nil, by simp, rfl, fun w hw => hw.tokens, fun w hw rest => hw.plain (by simp; decide)⟩
  | some t =>
    have htype := h.type t ht
    have hcells : ∀ rest : List Char, (t ++ [' ']) ++ rest = t ++ ' ' :: rest := by simp
    refine ⟨htype.quiet, htype.isType.typed, ?_, htype.spells.spaced.angles, fun w hw => ?_, fun w hw rest => ?_⟩
    · intro c hc
      rw [Option.map_some, Option.getD_some, List.getLast?_concat] at hc
      rw [← Option.some.inj hc]
      decide
    · rw [Option.map_some, Option.getD_some, hcells]
      exact htype.spells.tokens.append_mark (by decide) hw.tokens
    · rw [Option.map_some, Option.getD_some, hcells]
      exact htype.plain _

theorem squeeze_front (h : r.WellFormed owner) : squeeze r.front = r.type.getD [] := by
  unfold front
  cases ht : r.type with
  | none => rfl
  | some t => exact squeeze_spaced.trans (h.type t ht).normal

def declared (r : RoutineText) : List Char := r.front ++ (r.name ++ '(' :: (parametersText r.parameters ++ [')']))

theorem preamble_signature (h : r.WellFormed owner) (tail : List Char) :
    preamble (codes (r.signature ++ tail)) = ⟨[], r.modifiers, codes (r.declared ++ tail)⟩ := by
  have hplain : Plain (codes (r.declared ++ tail)) := by
    have hfront := (isFront h).plain r.name h.name (parametersText r.parameters ++ ')' :: tail)
    simpa [declared] using hfront
  have hcells : codes (r.signature ++ tail) =
      ((r.modifiers.map modifierCells).flatMap fun m => m.word ++ m.gap) ++ codes (r.declared ++ tail) := by
    rw [flatMap_modifierCells, ← codes_append]
    simp [signature, declared]
  rw [hcells, preamble_modifiers (wellFormed_modifierCells h.modifiers) hplain, map_shownText_modifierCells]

theorem balanced_parameters (h : r.WellFormed owner) : Balanced Cell.view (codes (parametersText r.parameters)) :=
  (quiet_parameters h.parameters).bare.balanced

theorem paren_notMem (h : r.WellFormed owner) : '(' ∉ r.front ++ r.name := by
  have hquiet := (isFront h).quiet.append (.ident h.name.ident)
  intro hmem
  exact hquiet.bare.plain _ (List.mem_map_of_mem hmem) (by simp)

/-- A header is read as the method or constructor it is written from. -/
theorem method?_signature (h : r.WellFormed owner) (text body : String) :
    method? (String.ofList owner) (codes r.signature) text body = some { r.method with text, body } := by
  have hfront := isFront h
  have hpreamble := preamble_signature h []
  rw [List.append_nil, List.append_nil] at hpreamble
  have hcells : codes r.declared = codes (r.front ++ r.name) ++
      Cell.code '(' :: (codes (parametersText r.parameters) ++ Cell.code ')' :: []) := by simp [declared]
  have hname : r.name.count '<' = 0 ∧ r.name.count '>' = 0 := by
    refine ⟨List.count_eq_zero.2 fun hmem => ?_, List.count_eq_zero.2 fun hmem => ?_⟩ <;>
      exact absurd (h.name.ident _ hmem) (by decide)
  have hsplit : splitAtParen 0 (codes r.declared) =
      some (codes (r.front ++ r.name), codes (parametersText r.parameters) ++ Cell.code ')' :: []) := by
    have hzero : (0 : Int) + ((r.front ++ r.name).count '<' : Nat) - ((r.front ++ r.name).count '>' : Nat) = 0 := by
      rw [List.count_append, List.count_append, hname.1, hname.2, hfront.angles]
      omega
    rw [hcells, splitAtParen_codes (paren_notMem h), hzero, splitAtParen]
    simp
  have hclosing : closing Cell.view '(' ')' 1 (codes (parametersText r.parameters) ++ Cell.code ')' :: []) =
      some (codes (parametersText r.parameters), []) := closing_balanced (c := Cell.code ')') (balanced_parameters h) rfl
  have htrim : trimCells (codes (r.front ++ r.name)) = codes r.front ++ codes r.name := by
    have hnil : Blank [] := by simp [Blank]
    have htyped := trimCells_typed hfront.typed h.name.isName hnil
    rw [List.append_nil] at htyped
    rw [codes_append, htyped]
  have hstop : ∀ c ∈ (codes r.front).reverse.head?, c.isIdent = false := by
    intro c hc
    rw [List.head?_reverse, codes, List.getLast?_map] at hc
    obtain ⟨d, hd, rfl⟩ := Option.map_eq_some_iff.1 hc
    exact hfront.last d hd
  obtain ⟨htake, hdrop⟩ : ((codes r.name).reverse ++ (codes r.front).reverse).takeWhile Cell.isIdent = _ ∧ _ = _ :=
    span_append (fun c hc => h.name.isName.ident c (List.mem_reverse.1 hc)) hstop
  have hnonempty : (!(String.ofList r.name).isEmpty) = true := by simpa using h.name.nonempty
  rw [method?, hpreamble]
  simp only [hsplit, hclosing, Option.bind_eq_bind, Option.bind_some, htrim, List.reverse_append, htake, hdrop,
    List.reverse_reverse, shownText_codes, verbatim_codes, squeeze_front h, parameters_text h.parameters]
  have howner : (!(r.type.getD []).isEmpty || decide (String.ofList r.name = String.ofList owner)) = true := by
    cases ht : r.type with
    | none => simp [h.owner ht]
    | some t => simp [(h.type t ht).ne_nil]
  have hresult : (if (r.type.getD []).isEmpty = true then none else some (String.ofList (r.type.getD []))) =
      r.type.map String.ofList := by
    cases ht : r.type with
    | none => rfl
    | some t => simp [(h.type t ht).ne_nil]
  rw [hresult, hnonempty, howner]
  rfl

/-- Before the parenthesis of a header stands no heading of a type. -/
theorem heading?_signature (h : r.WellFormed owner) (tail : List Char) :
    heading? (preamble (codes (r.signature ++ tail))).rest = none := by
  have hopen : headingFrom none (codes ((r.front ++ r.name) ++ ['('])) = none := by
    refine ((isFront h).tokens r.name h.name).headingFrom (by simpa using isWordOrDollar_open) (fun before => ?_) none
    rw [headingFrom_codes_cons before (typeKeyword?_mark (by decide))]
    rfl
  have hend : EndsOpen (codes ((r.front ++ r.name) ++ ['('])) := by
    rw [codes_append]
    exact endsOpen_append rfl
  have hcells : codes (r.declared ++ tail) =
      codes ((r.front ++ r.name) ++ ['(']) ++ codes (parametersText r.parameters ++ ')' :: tail) := by simp [declared]
  rw [preamble_signature h, hcells, heading?_local hend (by simp), heading?, hopen]
  rfl

theorem head_signature (h : r.WellFormed owner) : ∀ c ∈ (codes r.signature).head?, c.isBlank = false := by
  have hfront := (isFront h).plain r.name h.name (parametersText r.parameters ++ [')'])
  rw [signature, codes_append, ← flatMap_modifierCells]
  exact head_modifiers (wellFormed_modifierCells h.modifiers) fun c hc => (hfront.shows c hc).1

theorem trimCells_signature (h : r.WellFormed owner) {gap : List Char} (hgap : ∀ c ∈ gap, isAsciiSpace c = true) :
    trimCells (codes (gap ++ (r.signature ++ [' ']))) = codes r.signature := by
  have hlast : ∀ c ∈ (codes r.signature).getLast?, c.isBlank = false := by
    have hcells : codes r.signature = codes (modifiersText r.modifiers ++ (r.front ++ (r.name ++ '(' ::
        parametersText r.parameters))) ++ [Cell.code ')'] := by simp [signature]
    intro c hc
    rw [hcells, List.getLast?_concat] at hc
    rw [← Option.some.inj hc]
    rfl
  rw [codes_append, codes_append]
  exact trim_between (forall_codes.2 hgap) (show Blank (codes [' ']) by decide) (head_signature h) hlast

theorem free_signature (h : r.WellFormed owner) {gap : List Char} (hgap : ∀ c ∈ gap, isAsciiSpace c = true) :
    Balanced Cell.view (codes (gap ++ (r.signature ++ [' ']))) ∧
      Free Cell.view ['=', ';', '{'] (codes (gap ++ (r.signature ++ [' ']))) ∧ Coded (gap ++ (r.signature ++ [' '])) := by
  have hfront : Quiet (gap ++ (modifiersText r.modifiers ++ (r.front ++ r.name))) :=
    (Quiet.blank hgap).append ((quiet_modifiers h.modifiers).append ((isFront h).quiet.append (.ident h.name.ident)))
  have hparameters := quiet_parameters h.parameters
  have hpair : closer? (Cell.code '(').view = some (Cell.code ')').view := rfl
  have hcells : gap ++ (r.signature ++ [' ']) = (gap ++ (modifiersText r.modifiers ++ (r.front ++ r.name))) ++
      '(' :: (parametersText r.parameters ++ ')' :: [' ']) := by simp [signature]
  have hmarks : ['=', ';', '{'] ⊆ ['=', '(', '{', ';'] := by simp
  have hcodes : codes ((gap ++ (modifiersText r.modifiers ++ (r.front ++ r.name))) ++
      '(' :: (parametersText r.parameters ++ ')' :: [' '])) =
        codes (gap ++ (modifiersText r.modifiers ++ (r.front ++ r.name))) ++
          Cell.code '(' :: (codes (parametersText r.parameters) ++ Cell.code ')' :: codes [' ']) := by
    simp only [codes_append, codes_cons]
  rw [hcells, hcodes]
  refine ⟨?_, ?_, ?_⟩
  · exact hfront.bare.balanced.append (.group hpair hparameters.bare.balanced Quiet.space.bare.balanced)
  · rw [free_append hfront.bare.balanced, free_group hparameters.bare.balanced hpair]
    exact ⟨hfront.bare.free.mono hmarks, by simp, Quiet.space.bare.free.mono hmarks⟩
  · exact coded_append.2 ⟨hfront.coded, coded_cons.2 ⟨by simp, coded_append.2 ⟨hparameters.coded,
      coded_cons.2 ⟨by simp, Quiet.space.coded⟩⟩⟩⟩

/-- The constructor or method is read as it is written. -/
theorem segmentMembers_cells (h : r.WellFormed owner) {gap : List Char} (hgap : ∀ c ∈ gap, isAsciiSpace c = true) :
    segmentMembers (String.ofList owner) (.block (codes (gap ++ (r.signature ++ [' ']))) (cells r.body)) =
      [MemberText.member (.routine r)] := by
  have hviews : views (trimCells (codes (gap ++ (r.signature ++ [' '])))) = r.signature := by
    rw [trimCells_signature h hgap, views_codes]
  have hparen : '(' ∈ r.signature := by simp [signature]
  have hrun : isInitializer (codes (gap ++ (r.signature ++ [' ']))) = false := by
    have hnil : r.signature ≠ [] := by simp [signature]
    have hstatic : r.signature ≠ "static".toList := by
      intro heq
      rw [heq] at hparen
      exact absurd hparen (by decide)
    rw [isInitializer, hviews]
    exact Bool.or_eq_false_iff.2 ⟨List.isEmpty_eq_false_iff.2 hnil, decide_eq_false hstatic⟩
  have hheading : typeDeclaration? (codes (gap ++ (r.signature ++ [' ']))) (cells r.body) = none := by
    rw [typeDeclaration?_eq, codes_append, preamble_append_blank (forall_codes.2 hgap), heading?_signature h,
      Option.map_none]
  have hbody : verbatim (cells r.body) = r.body := verbatim_cellsFrom _ _
  have htext : String.ofList (verbatim (dropBlank (codes (gap ++ (r.signature ++ [' '])))) ++
      '{' :: verbatim (cells r.body) ++ ['}']) = r.method.text := by
    have hdrop : dropBlank (codes (gap ++ (r.signature ++ [' ']))) = codes (r.signature ++ [' ']) := by
      rw [codes_append, dropBlank_append (forall_codes.2 hgap), codes_append]
      have hhead := head_signature h
      cases hc : codes r.signature with
      | nil => simp [signature] at hc
      | cons c rest =>
        rw [hc] at hhead
        exact dropBlank_cons (hhead c rfl)
    rw [hdrop, verbatim_codes, hbody]
    simp [method, text]
  have hread : method? (String.ofList owner) (codes r.signature) r.method.text (String.ofList r.body) = some r.method :=
    method?_signature h _ _
  have hresult : r.method.returnType.isNone = r.type.isNone := Option.isNone_map
  rw [segmentMembers, hrun, hheading]
  simp only [Bool.false_eq_true, if_false]
  rw [blockMembers, htext, sourceText, hbody, trimCells_signature h hgap, hread, MemberText.member]
  simp only [hresult]
  cases r.type.isNone <;> rfl

end RoutineText

/-! Members one after another. -/

namespace Placed

variable {p : Placed}

def cells : Placed → List Cell
  | ⟨gap, .field f⟩ => codes (gap ++ f.statement) ++ [Cell.code ';']
  | ⟨gap, .routine r⟩ =>
    codes (gap ++ (r.signature ++ [' '])) ++ Cell.code '{' :: (Java.cells r.body ++ [Cell.code '}'])

def segment : Placed → Segment
  | ⟨gap, .field f⟩ => .statement (codes (gap ++ f.statement))
  | ⟨gap, .routine r⟩ => .block (codes (gap ++ (r.signature ++ [' ']))) (Java.cells r.body)

structure WellFormed (owner : List Char) (p : Placed) : Prop where
  gap : ∀ c ∈ p.gap, isAsciiSpace c = true
  member : p.member.WellFormed owner

theorem cells_code_cons (hc : c ≠ '/' ∧ c ≠ '"' ∧ c ≠ '\'') (cs : List Char) :
    Java.cells (c :: cs) = Cell.code c :: Java.cells cs := by
  have hone : Coded [c] := by simpa [Coded] using hc
  exact cells_coded hone cs

/-- A body is masked as if it stood alone, and so is what follows the member. -/
theorem cells_text (h : p.WellFormed owner) (rest : List Char) :
    Java.cells (p.text ++ rest) = p.cells ++ Java.cells rest := by
  obtain ⟨hgap, hmember⟩ := h
  obtain ⟨gap, f | r⟩ := p
  · have hf : f.WellFormed := hmember
    have htext : text ⟨gap, .field f⟩ ++ rest = (gap ++ f.statement) ++ ';' :: rest := by
      simp [text, MemberText.text, FieldText.text]
    have hquiet : Quiet (gap ++ f.statement) := (Quiet.blank hgap).append (FieldText.quiet hf)
    rw [htext, cells_coded hquiet.coded, cells_code_cons (by simp)]
    simp [cells]
  · have hr : r.WellFormed owner := hmember
    have htext : text ⟨gap, .routine r⟩ ++ rest =
        (gap ++ (r.signature ++ [' '])) ++ '{' :: (r.body ++ '}' :: rest) := by
      simp [text, MemberText.text, RoutineText.text]
    have hend : Apart ('}' :: rest) := by simp
    rw [htext, cells_coded (RoutineText.free_signature hr hgap).2.2, cells_code_cons (by simp),
      cells_append hr.ends hend, cells_code_cons (by simp)]
    simp [cells]

theorem balanced_cells (h : p.WellFormed owner) : Balanced Cell.view p.cells := by
  obtain ⟨hgap, hmember⟩ := h
  obtain ⟨gap, f | r⟩ := p
  · have hf : f.WellFormed := hmember
    have hquiet : Quiet (gap ++ f.statement) := (Quiet.blank hgap).append (FieldText.quiet hf)
    exact hquiet.bare.balanced.append (.plain rfl rfl .nil)
  · have hr : r.WellFormed owner := hmember
    exact (RoutineText.free_signature hr hgap).1.append (.bracketed rfl (isBalanced_map.1 hr.balanced))

theorem segments_cells (h : p.WellFormed owner) (rest : List Cell) :
    segments (p.cells ++ rest) = p.segment :: segments rest := by
  obtain ⟨hgap, hmember⟩ := h
  obtain ⟨gap, f | r⟩ := p
  · have hf : f.WellFormed := hmember
    have hquiet : Quiet (gap ++ f.statement) := (Quiet.blank hgap).append (FieldText.quiet hf)
    rw [cells, List.append_assoc, List.singleton_append]
    exact segments_statement hquiet.bare.balanced (hquiet.bare.free.mono (by simp)) rfl
  · have hr : r.WellFormed owner := hmember
    obtain ⟨hbalanced, hfree, -⟩ := RoutineText.free_signature hr hgap
    have hassignment := splitAssignment_eq_none hbalanced (hfree.mono (by simp))
    rw [cells, List.append_assoc, List.cons_append, List.append_assoc, List.singleton_append]
    exact segments_block hbalanced (hfree.mono (by simp)) hassignment (isBalanced_map.1 hr.balanced) rfl rfl

theorem segmentMembers_segment (h : p.WellFormed owner) :
    segmentMembers (String.ofList owner) p.segment = [p.member.member] := by
  obtain ⟨hgap, hmember⟩ := h
  obtain ⟨gap, f | r⟩ := p
  · exact FieldText.segmentMembers_cells hmember hgap _
  · exact RoutineText.segmentMembers_cells hmember hgap

end Placed

/-- Members one after another, by induction on them. -/
theorem reads_members {ms : List Placed} (h : ∀ p ∈ ms, p.WellFormed owner) :
    (∀ rest, cells (ms.flatMap Placed.text ++ rest) = ms.flatMap Placed.cells ++ cells rest) ∧
      Balanced Cell.view (ms.flatMap Placed.cells) ∧
        ∀ rest, (segments (ms.flatMap Placed.cells ++ rest)).flatMap (segmentMembers (String.ofList owner)) =
          (ms.map fun p => p.member.member) ++ (segments rest).flatMap (segmentMembers (String.ofList owner)) := by
  induction ms with
  | nil => exact ⟨fun _ => rfl, .nil, fun _ => rfl⟩
  | cons p ms ih =>
    have hp := h p List.mem_cons_self
    obtain ⟨hcells, hbalanced, hmembers⟩ := ih fun q hq => h q (List.mem_cons_of_mem p hq)
    refine ⟨fun rest => ?_, ?_, fun rest => ?_⟩
    · rw [List.flatMap_cons, List.append_assoc, Placed.cells_text hp, hcells, List.flatMap_cons, List.append_assoc]
    · rw [List.flatMap_cons]
      exact (Placed.balanced_cells hp).append hbalanced
    · rw [List.flatMap_cons, List.append_assoc, Placed.segments_cells hp, List.flatMap_cons,
        Placed.segmentMembers_segment hp, hmembers]
      rfl

theorem segments_blank {gap : List Cell} (h : Blank gap) : segments gap = [] := by
  have hunmarked := unmarked_of_blank h
  have hread : segmentsFrom [] (items Cell.view closer? (gap ++ [])) = _ :=
    segmentsFrom_unbroken hunmarked.balanced (hunmarked.free (by decide))
  rw [List.append_nil] at hread
  rw [segments, hread]
  rfl

namespace ClassText

variable {k : ClassText}

theorem placed (h : k.WellFormed) : ∀ p ∈ k.members, p.WellFormed k.name :=
  fun p hp => ⟨h.gaps p hp, h.members p hp⟩

def header (k : ClassText) : List Char := classWord ++ ' ' :: (k.name ++ [' '])

def typeHeader (k : ClassText) : TypeHeader := ⟨[], [], .classType, codes [' '], k.name, codes [' ']⟩

theorem wellFormed_typeHeader (h : k.WellFormed) : k.typeHeader.WellFormed where
  gap := by simp [typeHeader, Blank]
  marks := trivial
  space := by simp [typeHeader, Blank, Cell.isBlank, isAsciiSpace]
  name := h.name.wholeName
  after c hc := by
    rw [← Option.some.inj hc]
    exact isWordOrDollar_space

theorem heading?_header (h : k.WellFormed) :
    preamble (codes k.header) = ⟨[], [], codes k.header⟩ ∧
      heading? (codes k.header) = some ⟨[], .classType, String.ofList k.name, codes [' ']⟩ := by
  have ht := wellFormed_typeHeader h
  have hdeclared : k.typeHeader.declared = codes k.header := by
    have hword : k.typeHeader.kind.keyword = classWord := show "class".toList = classWord by decide
    rw [TypeHeader.declared, hword, header, ← List.singleton_append (l := k.name ++ [' ']), codes_append, codes_append,
      codes_append]
    rfl
  have hcells : k.typeHeader.cells = codes k.header := by
    rw [← hdeclared]
    rfl
  have hpreamble := TypeHeader.preamble_cells ht
  have hheading := TypeHeader.heading?_cells ht
  rw [hcells, hdeclared] at hpreamble
  rw [hcells, hpreamble] at hheading
  exact ⟨hpreamble, hheading⟩

def body (k : ClassText) : List Cell := k.members.flatMap Placed.cells ++ codes k.gap

theorem quiet_header (h : k.WellFormed) : Quiet k.header := by
  have hclass : Quiet classWord := .ident (List.all_eq_true.1 (by decide))
  exact hclass.append (Quiet.space.append ((Quiet.ident h.name.ident).append .space))

theorem cells_text (h : k.WellFormed) :
    cells k.text = codes k.header ++ Cell.code '{' :: (k.body ++ Cell.code '}' :: []) := by
  have htext : k.text = k.header ++ '{' :: (k.members.flatMap Placed.text ++ (k.gap ++ '}' :: [])) := by
    simp [text, header]
  have hnil : cells [] = [] := rfl
  rw [htext, cells_coded (quiet_header h).coded, Placed.cells_code_cons (by simp),
    (reads_members (placed h)).1, cells_coded (Quiet.blank h.gap).coded, Placed.cells_code_cons (by simp), hnil, body,
    List.append_assoc]

theorem balanced_body (h : k.WellFormed) : Balanced Cell.view k.body :=
  (reads_members (placed h)).2.1.append (Quiet.blank h.gap).bare.balanced

/-- A class is read as it is written. -/
theorem typeDeclaration?_text (h : k.WellFormed) : typeDeclaration? (codes k.header) k.body = some k.declaration := by
  obtain ⟨hpreamble, hheading⟩ := heading?_header h
  have hsegments : segments (codes k.gap) = [] := segments_blank (forall_codes.2 h.gap)
  have hmembers : bodyMembers ⟨[], .classType, String.ofList k.name, codes [' ']⟩ k.body =
      k.members.map fun p => p.member.member := by
    have hread := (reads_members (placed h)).2.2 (codes k.gap)
    rw [hsegments] at hread
    simpa [bodyMembers, splitBody, body] using hread
  have hnested : (k.members.map fun p => p.member.member).filterMap Member.nested? = [] := by
    rw [List.filterMap_map, List.filterMap_eq_nil_iff]
    exact fun p _ => p.member.nested?_member
  rw [typeDeclaration?_eq, hpreamble, hheading, Option.map_some, hmembers, Heading.declare, hpreamble, hnested]
  simp only [List.filterMap_map]
  rfl

end ClassText

/-- A file with a class in it is read as one type: its fields, constructors and methods are those that are written
in the class, in their order, and each body is the text between its braces. -/
theorem parse_classText {k : ClassText} (h : k.WellFormed) (path : String) :
    ∃ file, SourceFile.parse path (String.ofList k.text) = .ok file ∧ file.types = [k.declaration] := by
  have hheader := ClassText.quiet_header h
  have hnil : segments ([] : List Cell) = [] := rfl
  have hsegments : segments (cells k.text) = [.block (codes k.header) k.body] := by
    have hassignment := splitAssignment_eq_none hheader.bare.balanced (hheader.bare.free.mono (by simp))
    rw [ClassText.cells_text h, segments_block hheader.bare.balanced (hheader.bare.free.mono (by simp)) hassignment
      (ClassText.balanced_body h) rfl rfl, hnil]
  have hbalanced : isBalanced (views (cells k.text)) = true := by
    rw [ClassText.cells_text h]
    exact isBalanced_map.2 (hheader.bare.balanced.append (.bracketed rfl (ClassText.balanced_body h)))
  have hshows : k.text.all isSpace = false := rfl
  refine ⟨SourceFile.ofText (String.ofList k.text), ?_, ?_⟩
  · rw [SourceFile.parse_eq_ok_iff, String.toList_ofList]
    exact ⟨hshows, hbalanced, rfl⟩
  · simp only [SourceFile.ofText, String.toList_ofList, hsegments, topLevelTypes]
    simp only [List.filterMap_cons, ClassText.typeDeclaration?_text h, List.filterMap_nil]

namespace Ping

def field : FieldText := {
  modifiers := ["private", "final"]
  type := "Map<String, int[]>".toList
  name := "ids".toList }

def constructor : RoutineText := {
  modifiers := ["public"]
  type := none
  name := "Ping".toList
  parameters := [⟨"Map<String, int[]>".toList, "ids".toList⟩, ⟨"int".toList, "n".toList⟩]
  body := " this.ids = ids; /* \x7b */ ".toList }

def method : RoutineText := {
  modifiers := []
  type := some "int".toList
  name := "size".toList
  parameters := []
  body := " return f(\"\x7d\"); // \x7d\n ".toList }

def classText : ClassText := {
  name := "Ping".toList
  members := [⟨[' '], .field field⟩, ⟨[], .routine constructor⟩, ⟨['\n'], .routine method⟩]
  gap := [' '] }

theorem isTypeText_int : IsTypeText "int".toList :=
  ⟨.name (.of_all (by decide) (by decide) (by decide) (by decide)), by decide⟩

theorem isTypeText_map : IsTypeText "Map<String, int[]>".toList := by
  have hname : ∀ w : List Char, w = "Map".toList ∨ w = "String".toList → Identifier w := by
    rintro _ (rfl | rfl) <;> exact .of_all (by decide) (by decide) (by decide) (by decide)
  have hspells : Spells .type ("Map".toList ++ '<' ::
      (("String".toList ++ ',' :: ' ' :: ("int".toList ++ ['[', ']'])) ++ ['>'])) :=
    .generic (.name (hname _ (.inl rfl))) (.more (.argument (.name (hname _ (.inr rfl))))
      (.argument (.indented (.array isTypeText_int.spells))))
  exact ⟨hspells, by decide⟩

theorem wellFormed : classText.WellFormed where
  name := .of_all (by decide) (by decide) (by decide) (by decide)
  gaps := by
    have hall : classText.members.all (fun m => m.gap.all isAsciiSpace) = true := rfl
    exact fun m hm => List.all_eq_true.1 (List.all_eq_true.1 hall m hm)
  gap := List.all_eq_true.1 rfl
  members := by
    have hname : ∀ w : List Char, w = "ids".toList ∨ w = "n".toList ∨ w = "size".toList ∨ w = "Ping".toList →
        Identifier w := by
      rintro _ (rfl | rfl | rfl | rfl) <;> exact .of_all (by decide) (by decide) (by decide) (by decide)
    have hfield : field.WellFormed := ⟨by decide, isTypeText_map, hname _ (.inl rfl)⟩
    have hconstructor : constructor.WellFormed "Ping".toList := {
      modifiers := by decide
      type := by simp [constructor]
      name := hname _ (.inr (.inr (.inr rfl)))
      owner := fun _ => rfl
      parameters := by
        intro p hp
        rcases List.mem_cons.1 hp with rfl | hp
        · exact ⟨isTypeText_map, hname _ (.inl rfl)⟩
        · obtain rfl := List.mem_singleton.1 hp
          exact ⟨isTypeText_int, hname _ (.inr (.inl rfl))⟩
      balanced := by decide
      ends := by decide }
    have hmethod : method.WellFormed "Ping".toList := {
      modifiers := by decide
      type := by
        intro t ht
        obtain rfl := Option.some.inj ht
        exact isTypeText_int
      name := hname _ (.inr (.inr (.inl rfl)))
      owner := by simp [method]
      parameters := by simp [method]
      balanced := by decide
      ends := by decide }
    intro p hp
    simp only [classText, List.mem_cons, List.not_mem_nil, or_false] at hp
    rcases hp with rfl | rfl | rfl
    · exact hfield
    · exact hconstructor
    · exact hmethod

end Ping

theorem parse_classText_ping :
    String.ofList Ping.classText.text =
        "class Ping \x7b private final Map<String, int[]> ids;public Ping(Map<String, int[]> ids, int n) \x7b this.ids = ids; /* \x7b */ \x7d\nint size() \x7b return f(\"\x7d\"); // \x7d\n \x7d \x7d" ∧
      ∃ file, SourceFile.parse "Ping.java" (String.ofList Ping.classText.text) = .ok file ∧
        file.types = [Ping.classText.declaration] :=
  ⟨by decide +kernel, parse_classText Ping.wellFormed "Ping.java"⟩

end WireLayout.Java
