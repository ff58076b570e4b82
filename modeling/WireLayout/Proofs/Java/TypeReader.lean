import WireLayout.Java.SourceReader
import WireLayout.Proofs.Java.Preamble

/-! A type is its header and the members of its body, segment by segment. What can be found in a file is the
types of its segments and, within the body of such a type, the types of the segments there; all of them are in the
list of all types. -/

namespace WireLayout.Java

open WireLayout.Text

def segmentMembers (owner : String) : Segment → List Member
  | .statement cells => statementMembers owner cells
  | .block header body =>
    if isInitializer header then []
    else match typeDeclaration? header body with
      | some t => [.nested t]
      | none => blockMembers owner header body

def bodyMembers (heading : Heading) (body : List Cell) : List Member :=
  (segments (splitBody heading.kind body).2).flatMap (segmentMembers heading.name)

/-- What follows the name of a type in its header, the components of a record aside. -/
def Heading.components? (heading : Heading) : Option (List Cell × List Cell) :=
  if heading.kind = .recordType then Java.components? (afterTypeParameters heading.after) else none

def Heading.tail (heading : Heading) : List Cell :=
  (heading.components?.map (·.2)).getD (afterTypeParameters heading.after)

def Heading.declare (heading : Heading) (header : List Cell) (constants : List EnumConstant)
    (members : List Member) : TypeDeclaration := {
  kind := heading.kind
  name := heading.name
  modifiers := (preamble header).modifiers
  superclasses := clause (words (views heading.tail)) "extends" ["implements", "permits"]
  interfaces := clause (words (views heading.tail)) "implements" ["permits"]
  fields := members.filterMap Member.field?
  constructors := (heading.components?.map fun r => recordConstructor heading.name header r.1).toList ++
    members.filterMap Member.constructor?
  methods := members.filterMap Member.method?
  constants
  nested := members.filterMap Member.nested? }

def bodyConstants (heading : Heading) (body : List Cell) : List EnumConstant :=
  if heading.kind = .enumType then enumConstants (splitBody heading.kind body).1 else []

theorem flatMap_attach {α β : Type} (xs : List α) (f : {x // x ∈ xs} → List β) (g : α → List β)
    (h : ∀ x hx, f ⟨x, hx⟩ = g x) : xs.attach.flatMap f = xs.flatMap g := by
  have hf : f = fun x => g x.1 := funext fun ⟨x, hx⟩ => h x hx
  rw [hf, ← List.flatMap_map, List.attach_map_subtype_val]

/-- A type is read from its heading and from the members of its body. -/
theorem typeDeclaration?_eq (header body : List Cell) :
    typeDeclaration? header body = (heading? (preamble header).rest).map fun heading =>
      heading.declare header (bodyConstants heading body) (bodyMembers heading body) := by
  rw [typeDeclaration?]
  cases heading? (preamble header).rest with
  | none => rfl
  | some heading =>
    simp only
    rw [flatMap_attach (segments (splitBody heading.kind body).2) _ (segmentMembers heading.name)]
    · rfl
    · intro segment h
      cases segment <;> rfl

/-- The header and the body of a type that the segments declare, at the top or within another type. -/
inductive TypeIn (file : List Segment) : List Cell → List Cell → Prop where
  | top {header body : List Cell} (h : .block header body ∈ file) : TypeIn file header body
  | nested {header body inner block : List Cell} {heading : Heading} (houter : TypeIn file header body)
      (hheading : heading? (preamble header).rest = some heading)
      (h : .block inner block ∈ segments (splitBody heading.kind body).2) : TypeIn file inner block

/-- A block that only runs code has no heading of a type. -/
theorem heading?_of_isInitializer {header : List Cell} (h : isInitializer header = true) :
    heading? (preamble header).rest = none := by
  have hrest : (preamble header).rest = [] := by
    simp only [isInitializer, Bool.or_eq_true, List.isEmpty_iff, decide_eq_true_eq] at h
    rcases h with h | h
    · obtain ⟨before, after, hheader, hbefore, hafter⟩ := exists_trim (fun c : Cell => isAsciiSpace c.view) header
      rw [← trimBlank, ← trimCells, List.map_eq_nil_iff.1 h, List.nil_append] at hheader
      rw [hheader, preamble_append_blank hbefore, preamble_blank hafter]
    · exact preamble_of_trimCells (by decide) (by decide) h
  rw [hrest]
  rfl

/-! What is nested in a listed type is listed. -/

namespace TypeDeclaration

theorem withNested_eq (t : TypeDeclaration) : withNested t = t :: allNested t.nested := by
  cases t
  rw [withNested]

theorem mem_allNested {ts : List TypeDeclaration} {t : TypeDeclaration} (h : t ∈ ts) : t ∈ allNested ts := by
  induction ts with
  | nil => cases h
  | cons u ts ih =>
    rw [allNested, withNested_eq]
    rcases List.mem_cons.1 h with rfl | h
    · exact List.mem_cons_self
    · exact List.mem_append_right _ (ih h)

mutual

theorem nested_mem_withNested {t n : TypeDeclaration} (hn : n ∈ t.nested) :
    ∀ u : TypeDeclaration, t ∈ withNested u → n ∈ withNested u
  | ⟨kind, name, modifiers, superclasses, interfaces, fields, constructors, methods, constants, nested⟩, h => by
    rw [withNested] at h ⊢
    rcases List.mem_cons.1 h with rfl | h
    · exact List.mem_cons_of_mem _ (mem_allNested hn)
    · exact List.mem_cons_of_mem _ (nested_mem_allNested hn nested h)

theorem nested_mem_allNested {t n : TypeDeclaration} (hn : n ∈ t.nested) :
    ∀ us : List TypeDeclaration, t ∈ allNested us → n ∈ allNested us
  | u :: us, h => by
    rw [allNested] at h ⊢
    rcases List.mem_append.1 h with h | h
    · exact List.mem_append_left _ (nested_mem_withNested hn u h)
    · exact List.mem_append_right _ (nested_mem_allNested hn us h)

end

end TypeDeclaration

theorem TypeIn.mem_allNested {file : List Segment} {header body : List Cell} (h : TypeIn file header body) :
    ∀ t, typeDeclaration? header body = some t → t ∈ TypeDeclaration.allNested (topLevelTypes file) := by
  induction h with
  | @top header body h =>
    intro t ht
    exact TypeDeclaration.mem_allNested (List.mem_filterMap.2 ⟨.block header body, h, ht⟩)
  | @nested header body inner block heading _ hheading h ih =>
    intro t ht
    refine TypeDeclaration.nested_mem_allNested ?_ _ (ih _ (by rw [typeDeclaration?_eq, hheading]; rfl))
    have hrun : isInitializer inner = false := by
      by_contra hi
      rw [typeDeclaration?_eq, heading?_of_isInitializer (by simpa using hi)] at ht
      cases ht
    have hmember : Member.nested t ∈ bodyMembers heading body :=
      List.mem_flatMap.2 ⟨_, h, by rw [segmentMembers, hrun, ht]; simp⟩
    exact List.mem_filterMap.2 ⟨_, hmember, rfl⟩

/-- What a text declares, whether or not it is accepted. -/
def SourceFile.ofText (text : String) : SourceFile := {
  package := ((allMatches packageName? (views (cells text.toList))).head?).getD ""
  imports := allMatches importName? (views (cells text.toList))
  types := topLevelTypes (segments (cells text.toList)) }

theorem SourceFile.parse_eq_ok_iff {path text : String} {file : SourceFile} :
    SourceFile.parse path text = .ok file ↔
      text.toList.all isSpace = false ∧ isBalanced (views (cells text.toList)) = true ∧ SourceFile.ofText text = file := by
  unfold SourceFile.parse
  simp only
  split
  · rename_i hblank
    simp [hblank]
  · rename_i hblank
    rw [Bool.not_eq_true] at hblank
    split
    · rename_i hbalanced
      rw [Bool.not_eq_true'] at hbalanced
      simp [hbalanced]
    · rename_i hbalanced
      rw [Bool.not_eq_true', Bool.not_eq_false] at hbalanced
      exact ⟨fun h => ⟨hblank, hbalanced, Except.ok.inj h⟩, fun h => congrArg Except.ok h.2.2⟩

theorem typeIn_allTypes {path text : String} {file : SourceFile} (hfile : SourceFile.parse path text = .ok file)
    {header body : List Cell} (h : TypeIn (segments (cells text.toList)) header body) {t : TypeDeclaration}
    (ht : typeDeclaration? header body = some t) : t ∈ file.allTypes := by
  obtain ⟨-, -, rfl⟩ := SourceFile.parse_eq_ok_iff.1 hfile
  exact h.mem_allNested t ht

end WireLayout.Java
