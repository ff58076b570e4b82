import WireLayout.Proofs.Java.Ranges.Scan
import WireLayout.Proofs.Java.TypeReader

/-! Reading a source by positions of octets. Structure is found in the masked text, and the ranges found there are cut
from the source as well. A reader that gets a range first asks whether both texts admit it, so no range is handed on
that is out of order, leaves the text or ends within a character. -/

namespace WireLayout.Java

open WireLayout.Text

/-- A masked text and its source. -/
structure Texts where
  masked : List Char
  source : List Char

structure LeadRange where
  annotations : List String
  modifiers : List String
  rest : Span

inductive SegmentRange where
  | statement (s : Span)
  | block (header body : Span)

/-! Structure, found in the masked text. -/

section

variable (masked : List Char)

/-- The position behind the arguments of an annotation, if there are any, and whether the reading goes on there. -/
def argumentsEnd (i stop : Nat) : Checked ({j : Nat // i ≤ j} × Bool) := do
  let ⟨open_, _⟩ ← passWhile masked isAsciiSpace i stop
  if open_ < stop then
    if (← octetAt masked open_) = '(' then
      match partner? masked open_ '(' ')' with
      | some ⟨close, _⟩ => return (⟨close + 1, by omega⟩, true)
      | none => return (⟨open_, ‹_›⟩, false)
    else return (⟨open_, ‹_›⟩, true)
  else return (⟨open_, ‹_›⟩, true)

/-- The annotations and modifiers from a position on. -/
def leadFrom (i stop : Nat) : Checked LeadRange := do
  let ⟨i, _⟩ ← passWhile masked isAsciiSpace i stop
  if _ : i < stop then
    let c ← octetAt masked i
    if c = '@' then
      let ⟨nameEnd, _⟩ ← passWhile masked (fun c => isIdent c || c = '.') (i + 1) stop
      let name := String.ofList (← textIn masked ⟨i + 1, nameEnd⟩)
      if name = "interface" then return ⟨[], [], ⟨i, stop⟩⟩
      let (⟨next, _⟩, goesOn) ← argumentsEnd masked nameEnd stop
      let more ← if goesOn then leadFrom next stop else pure ⟨[], [], ⟨next, stop⟩⟩
      return { more with annotations := name :: more.annotations }
    else if c = '<' then
      let ⟨next, _⟩ ← anglesEnd masked 1 (i + 1) stop
      leadFrom next stop
    else
      let wordEnd ← passWhile masked (fun c => isIdent c || c = '-') i stop
      let word := String.ofList (← textIn masked ⟨i, wordEnd⟩)
      if _ : i < wordEnd ∧ modifierWords.contains word = true then
        let more ← leadFrom wordEnd stop
        return { more with modifiers := word :: more.modifiers }
      else return ⟨[], [], ⟨i, stop⟩⟩
  else return ⟨[], [], ⟨min i stop, stop⟩⟩
termination_by stop - i

/-- The number of dimensions at the end of a range, and the end without them. -/
def dimensionsEnd (start stop : Nat) : Checked (Nat × {j : Nat // j ≤ stop}) := do
  if _ : start + 2 ≤ stop then
    if (← octetAt masked (stop - 2)) = '[' && (← octetAt masked (stop - 1)) = ']' then
      let ⟨rest, _⟩ ← trimRange masked ⟨start, stop - 2⟩
      let (n, ⟨j, _⟩) ← dimensionsEnd start rest.stop
      return (n + 1, ⟨j, by simp_all; omega⟩)
    else return (0, ⟨stop, le_rfl⟩)
  else return (0, ⟨stop, le_rfl⟩)
termination_by stop
decreasing_by simp_all; omega

/-- The segments from a position on; the current one begins at `start`. A bracket without a partner ends the reading. -/
def segmentRangesFrom (start i stop : Nat) : Checked (List SegmentRange) := do
  if i < stop then
    let c ← octetAt masked i
    if c = ';' then return .statement ⟨start, i⟩ :: (← segmentRangesFrom (i + 1) (i + 1) stop)
    else match closer? c with
    | none => segmentRangesFrom start (i + 1) stop
    | some closer =>
      match partner? masked i c closer with
      | none => return []
      | some ⟨close, _⟩ =>
        if c = '{' then
          if (assignmentIndex (← textIn masked ⟨start, i⟩)).isSome then segmentRangesFrom start (close + 1) stop
          else
            return .block ⟨start, i⟩ ⟨i + 1, close⟩ :: (← segmentRangesFrom (close + 1) (close + 1) stop)
        else segmentRangesFrom start (close + 1) stop
  else return []
termination_by stop - i

/-- The position of the semicolon behind the constants of an enum, or the end of its body. -/
def constantsEndFrom (i stop : Nat) : Checked {j : Nat // i ≤ j ∨ j = stop} := do
  if i < stop then
    let c ← octetAt masked i
    if c = ';' then return ⟨i, .inl le_rfl⟩
    else match closer? c with
    | none =>
      let ⟨j, hj⟩ ← constantsEndFrom (i + 1) stop
      return ⟨j, hj.imp_left Nat.le_of_succ_le⟩
    | some closer =>
      match partner? masked i c closer with
      | none => return ⟨stop, .inr rfl⟩
      | some ⟨close, hclose⟩ =>
        let ⟨j, hj⟩ ← constantsEndFrom (close + 1) stop
        return ⟨j, hj.imp_left fun hle => (Nat.lt_of_lt_of_le hclose (Nat.le_of_succ_le hle)).le⟩
  else return ⟨stop, .inr rfl⟩
termination_by stop - i

/-- The position behind the type parameters that may follow the name of a type. -/
def typeParametersEnd (i stop : Nat) : Checked Nat := do
  let i ← passWhile masked isAsciiSpace i stop
  let i ←
    if i < stop then
      if (← octetAt masked i) = '<' then Subtype.val <$> anglesEnd masked 1 (i + 1) stop
      else pure i.1
    else pure i.1
  let i ← passWhile masked isAsciiSpace i stop
  return i

def components (i stop : Nat) : Checked (Option Span) := do
  if i < stop then
    if (← octetAt masked i) = '(' then return (partner? masked i '(' ')').map fun close => ⟨i + 1, close⟩
    else return none
  else return none

def recordComponents (kind : TypeKind) (i stop : Nat) : Checked (Option Span) :=
  if kind = .recordType then components masked i stop else return none

def runsOnly (header : Span) : Checked Bool := do
  let ⟨header, _⟩ ← trimRange masked header
  let shown ← textIn masked header
  return shown.isEmpty || shown = "static".toList

/-! The body of a block within a range begins behind the start of the range, so the nesting of types ends. -/

theorem lt_of_octetAt {text : List Char} {i : Nat} {c : Char} (h : octetAt text i = .ok c) :
    i < (octetViews text).length := by
  unfold octetAt at h
  split at h
  · rename_i hget
    exact (List.getElem?_eq_some_iff.1 hget).1
  · cases h

variable {masked} in
theorem body_of_segmentRangesFrom {start i stop : Nat} {ranges : List SegmentRange}
    (h : segmentRangesFrom masked start i stop = .ok ranges) :
    ∀ header body, .block header body ∈ ranges → i < body.start ∧ body.start ≤ (octetViews masked).length := by
  induction hn : stop - i using Nat.strong_induction_on generalizing start i ranges with
  | _ n ih =>
    rw [segmentRangesFrom] at h
    have hlater : ∀ {start j : Nat} {more : List SegmentRange}, i < stop → i < j →
        segmentRangesFrom masked start j stop = .ok more → ∀ header body, .block header body ∈ more →
          i < body.start ∧ body.start ≤ (octetViews masked).length := by
      intro start j more hi hj hmore header body hmem
      have hbody := ih (stop - j) (by omega) hmore rfl header body hmem
      exact ⟨by omega, hbody.2⟩
    split at h
    · rename_i hi
      obtain ⟨c, hc, h⟩ := Except.bind_eq_ok_iff.1 h
      have hlength := lt_of_octetAt hc
      split at h
      · obtain ⟨more, hmore, h⟩ := Except.bind_eq_ok_iff.1 h
        cases h
        intro header body hmem
        exact hlater hi (Nat.lt_succ_self i) hmore header body (by simpa using hmem)
      · split at h
        · exact hlater hi (Nat.lt_succ_self i) h
        · split at h
          · cases h
            simp
          · rename_i close hclose _
            have hnext : i < close + 1 := Nat.lt_succ_of_lt hclose
            split at h
            · obtain ⟨before, _, h⟩ := Except.bind_eq_ok_iff.1 h
              split at h
              · exact hlater hi hnext h
              · obtain ⟨more, hmore, h⟩ := Except.bind_eq_ok_iff.1 h
                cases h
                intro header body hmem
                rcases List.mem_cons.1 hmem with heq | hmem
                · cases heq
                  exact ⟨Nat.lt_succ_self i, hlength⟩
                · exact hlater hi hnext hmore header body hmem
            · exact hlater hi hnext h
    · cases h
      simp

end

namespace Texts

variable (t : Texts)

/-- Both texts can be cut at the ends of the range. -/
def Admits (s : Span) : Prop := (part? t.masked s).isSome ∧ (part? t.source s).isSome

instance (s : Span) : Decidable (t.Admits s) := inferInstanceAs (Decidable (_ ∧ _))

def demand (s : Span) : Checked Unit := if t.Admits s then .ok () else .error (.range s.start s.stop)

def lead (s : Span) : Checked LeadRange := do
  t.demand s
  leadFrom t.masked s.start s.stop

/-- A type and a name, the dimensions after the name counted to the type. -/
def typedName (s : Span) : Checked (Option (String × String)) := do
  t.demand s
  let ⟨s, _⟩ ← trimRange t.masked s
  let (dims, stop) ← dimensionsEnd t.masked s.start s.stop
  let nameStart ← backWhile t.masked isIdent s.start stop
  let name ← textIn t.masked ⟨nameStart, stop⟩
  let type := squeeze (← textIn t.source ⟨s.start, nameStart⟩)
  if name.isEmpty || type.isEmpty || name.head?.any isAsciiDigit then return none
  else return some (String.ofList (type ++ dimensions dims), String.ofList name)

def parameter (piece : Span) : Checked (Option Parameter) := do
  let lead ← t.lead piece
  return (← t.typedName lead.rest).map fun (type, name) => ⟨lead.annotations, type, name⟩

def parameters (s : Span) : Checked (List Parameter) := do
  t.demand s
  return (← (← pieceRanges t.masked ',' true s).mapM t.parameter).reduceOption

/-- The range before the assignment sign of a declarator, and its initialiser. -/
def declarator (piece : Span) : Checked (Span × Option String) := do
  match assignmentIndex (← textIn t.masked piece) with
  | some i =>
    let ⟨before, _⟩ ← trimRange t.masked ⟨piece.start, piece.start + i⟩
    let initializer ← textIn t.source ⟨piece.start + i + 1, piece.stop⟩
    return (before, some (String.ofList (trim isSpace initializer)))
  | none =>
    let ⟨before, _⟩ ← trimRange t.masked piece
    return (before, none)

/-- The declarators that share the type of the first one, up to one that is no name. -/
def laterFields (template : FieldDeclaration) : List Span → Checked (List FieldDeclaration)
  | [] => return []
  | piece :: rest => do
    let (before, initializer) ← t.declarator piece
    let name := trim isSpace (← textIn t.masked before)
    if name.isEmpty || !name.all isIdent then return []
    else return { template with name := String.ofList name, initializer } :: (← laterFields template rest)

def fields (statement : Span) : Checked (List FieldDeclaration) := do
  let lead ← t.lead statement
  let text := String.ofList (squeeze (← textIn t.source statement) ++ [';'])
  match ← pieceRanges t.masked ',' true lead.rest with
  | [] => return []
  | first :: rest =>
    let (before, initializer) ← t.declarator first
    match ← t.typedName before with
    | none => return []
    | some (type, name) =>
      let field : FieldDeclaration := ⟨lead.annotations, lead.modifiers, type, name, initializer, text⟩
      return field :: (← t.laterFields field rest)

def codeIn : Option Span → Checked String
  | some body => String.ofList <$> textIn t.source body
  | none => pure ""

/-- A method with the given header, or a constructor of the owner. -/
def method (owner : String) (header : Span) (body : Option Span) : Checked (Option Method) := do
  let lead ← t.lead header
  match ← parenthesisAt t.masked 0 lead.rest.start lead.rest.stop with
  | none => return none
  | some open_ =>
    match partner? t.masked open_ '(' ')' with
    | none => return none
    | some ⟨close, _⟩ =>
      let ⟨before, _⟩ ← trimRange t.masked ⟨lead.rest.start, open_⟩
      let nameStart ← backWhile t.masked isIdent before.start before.stop
      let name := String.ofList (← textIn t.masked ⟨nameStart, before.stop⟩)
      if name.isEmpty then return none
      let result := squeeze (← textIn t.source ⟨lead.rest.start, nameStart⟩)
      if result.isEmpty && name ≠ owner then return none
      return some {
        annotations := lead.annotations
        modifiers := lead.modifiers
        returnType := if result.isEmpty then none else some (String.ofList result)
        name
        parameters := ← t.parameters ⟨open_ + 1, close⟩
        text := String.ofList (← textIn t.source ⟨header.start, (body.map (·.stop + 1)).getD header.stop⟩)
        body := ← t.codeIn body }

def segmentRanges (s : Span) : Checked (List SegmentRange) := do
  t.demand s
  segmentRangesFrom t.masked s.start s.start s.stop

def enumConstant (piece : Span) : Checked (Option EnumConstant) := do
  let lead ← t.lead piece
  let nameEnd ← passWhile t.masked isIdent lead.rest.start piece.stop
  if nameEnd = lead.rest.start then return none
  let name := String.ofList (← textIn t.masked ⟨lead.rest.start, nameEnd⟩)
  let ⟨open_, _⟩ ← passWhile t.masked isAsciiSpace nameEnd piece.stop
  if open_ < piece.stop then
    if (← octetAt t.masked open_) = '(' then
      match partner? t.masked open_ '(' ')' with
      | none => return none
      | some ⟨close, _⟩ =>
        let arguments ← pieceRanges t.masked ',' false ⟨open_ + 1, close⟩
        return some ⟨name, ← arguments.mapM fun a => (String.ofList ∘ trim isSpace) <$> textIn t.source a⟩
    else return some ⟨name, []⟩
  else return some ⟨name, []⟩

def enumConstants (s : Span) : Checked (List EnumConstant) := do
  t.demand s
  return (← (← pieceRanges t.masked ',' false s).mapM t.enumConstant).reduceOption

def bodyRanges (kind : TypeKind) (body : Span) (h : body.start ≤ body.stop) :
    Checked (List EnumConstant × {members : Span // body.start ≤ members.start}) := do
  if kind = .enumType then
    t.demand body
    let ⟨constantsEnd, _⟩ ← constantsEndFrom t.masked body.start body.stop
    let constants ← t.enumConstants ⟨body.start, constantsEnd⟩
    return (constants, ⟨⟨min (constantsEnd + 1) body.stop, body.stop⟩, by simp only [le_min_iff]; omega⟩)
  else return ([], ⟨body, le_rfl⟩)

def recordConstructor (name : String) (header components : Span) : Checked Method := do
  return {
    annotations := []
    modifiers := ["public"]
    returnType := none
    name
    parameters := ← t.parameters components
    text := String.ofList (squeeze (← textIn t.source header))
    body := "" }

def statementMembers (owner : String) (s : Span) : Checked (List Member) := do
  let ⟨statement, _⟩ ← trimRange t.masked s
  if statement.stop ≤ statement.start then return []
  else if isBodiless (octetCells (← textIn t.masked statement)) then
    return ((← t.method owner statement none).map Member.method).toList
  else return (← t.fields statement).map .field

def blockMembers (owner : String) (header body : Span) : Checked (List Member) := do
  let ⟨header, _⟩ ← trimRange t.masked header
  match ← t.method owner header (some body) with
  | some m => return if m.returnType.isNone then [.constructor m] else [.method m]
  | none => return []

theorem body_of_segmentRanges {s : Span} {ranges : List SegmentRange} (h : t.segmentRanges s = .ok ranges)
    {header body : Span} (hmem : .block header body ∈ ranges) :
    s.start < body.start ∧ body.start ≤ (octetViews t.masked).length := by
  obtain ⟨_, _, h⟩ := Except.bind_eq_ok_iff.1 h
  exact body_of_segmentRangesFrom h header body hmem

/-- A result with the proof that it is the result. -/
def attached {α : Type} (x : Checked α) : Checked {a : α // x = .ok a} :=
  match x with
  | .ok a => .ok ⟨a, rfl⟩
  | .error fault => .error fault

/-- The type that a header and a body declare, if the header is one of a type. -/
def typeIn (header body : Span) : Checked (Option TypeDeclaration) := do
  if hbody : body.start ≤ body.stop then
    let lead ← t.lead header
    let shown ← textIn t.masked lead.rest
    match heading? (codes shown) with
    | none => return none
    | some heading =>
      let nameEnd := lead.rest.start + ((octetViews shown).length - (octetViews (views heading.after)).length)
      let after ← typeParametersEnd t.masked nameEnd header.stop
      let record ← recordComponents t.masked heading.kind after header.stop
      let constructor ← record.mapM (t.recordConstructor heading.name header)
      let tailStart := (record.map (·.stop + 1)).getD after
      let tail := words (← textIn t.masked ⟨min tailStart header.stop, header.stop⟩)
      let superclasses ← clauseIn tail "extends" ["implements", "permits"]
      let interfaces ← clauseIn tail "implements" ["permits"]
      let (constants, ⟨range, _⟩) ← t.bodyRanges heading.kind body hbody
      let ⟨ranges, hranges⟩ ← attached (t.segmentRanges range)
      let members ← ranges.attach.mapM fun
        | ⟨.statement s, _⟩ => t.statementMembers heading.name s
        | ⟨.block inner block, hmem⟩ => do
          have := t.body_of_segmentRanges hranges hmem
          if ← runsOnly t.masked inner then return []
          else match ← typeIn inner block with
            | some nested => return [.nested nested]
            | none => t.blockMembers heading.name inner block
      let members := members.flatten
      return some {
        kind := heading.kind
        name := heading.name
        modifiers := lead.modifiers
        superclasses
        interfaces
        fields := members.filterMap Member.field?
        constructors := constructor.toList ++ members.filterMap Member.constructor?
        methods := members.filterMap Member.method?
        constants
        nested := members.filterMap Member.nested? }
  else throw (.range body.start body.stop)
termination_by (octetViews t.masked).length - body.start
decreasing_by omega

def topLevelTypes : Checked (List TypeDeclaration) := do
  let ranges ← t.segmentRanges ⟨0, (octetViews t.source).length⟩
  let types ← ranges.mapM fun
    | .statement _ => pure none
    | .block header body => t.typeIn header body
  return types.reduceOption

end Texts

/-- Reads the text of a file by positions; the path is for messages only. -/
def SourceFile.parseRanges (path text : String) : Checked (Except Error SourceFile) := do
  let characters := text.toList
  if characters.all isSpace then return .error (.emptySource path)
  let masked := mask characters
  if !isBalanced (octetViews masked) then return .error (.sourceParse path "unbalanced delimiters")
  let types ← Texts.topLevelTypes ⟨masked, characters⟩
  return .ok {
    package := ((allMatches packageName? masked).head?).getD ""
    imports := allMatches importName? masked
    types }

end WireLayout.Java
