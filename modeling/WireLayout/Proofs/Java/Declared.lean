import WireLayout.Proofs.Java.SimpleNames
import WireLayout.Proofs.Java.TypeReader

/-! What is declared in a file. Every type in the list of all types is read from a header and a body, and has a name; the
annotations of its fields and parameters are dotted names. -/

namespace WireLayout.Java

open WireLayout.Text

variable {cs : List Cell} {t : TypeDeclaration}

/-! Where a type comes from. -/

def IsRead (t : TypeDeclaration) : Prop := ∃ header body, typeDeclaration? header body = some t

theorem IsRead.exists_heading (h : IsRead t) : ∃ header body heading, heading? (preamble header).rest = some heading ∧
    t = heading.declare header (bodyConstants heading body) (bodyMembers heading body) := by
  obtain ⟨header, body, ht⟩ := h
  rw [typeDeclaration?_eq, Option.map_eq_some_iff] at ht
  obtain ⟨heading, hheading, rfl⟩ := ht
  exact ⟨header, body, heading, hheading, rfl⟩

inductive Declares (owner : String) : Member → Prop where
  | field {cells : List Cell} {f : FieldDeclaration} (h : f ∈ fieldDeclarations cells) : Declares owner (.field f)
  | constructor {cells : List Cell} {text body : String} {m : Method} (h : method? owner cells text body = some m) :
      Declares owner (.constructor m)
  | method {cells : List Cell} {text body : String} {m : Method} (h : method? owner cells text body = some m) :
      Declares owner (.method m)
  | nested {t : TypeDeclaration} (h : IsRead t) : Declares owner (.nested t)

theorem declares_of_statementMembers {owner : String} {member : Member} (h : member ∈ statementMembers owner cs) :
    Declares owner member := by
  rw [statementMembers] at h
  split at h
  · cases h
  · split at h
    · split at h
      · rw [List.mem_singleton.1 h]
        exact .method ‹_›
      · cases h
    · obtain ⟨f, hf, rfl⟩ := List.mem_map.1 h
      exact .field hf

theorem declares_of_blockMembers {owner : String} {header body : List Cell} {member : Member}
    (h : member ∈ blockMembers owner header body) : Declares owner member := by
  rw [blockMembers] at h
  split at h
  · split at h
    · rw [List.mem_singleton.1 h]
      exact .constructor ‹_›
    · rw [List.mem_singleton.1 h]
      exact .method ‹_›
  · cases h

theorem declares_of_mem_bodyMembers {heading : Heading} {body : List Cell} {member : Member}
    (h : member ∈ bodyMembers heading body) : Declares heading.name member := by
  obtain ⟨segment, -, h⟩ := List.mem_flatMap.1 h
  cases segment with
  | statement cells => exact declares_of_statementMembers h
  | block header block =>
    rw [segmentMembers] at h
    split at h
    · cases h
    · split at h
      · rw [List.mem_singleton.1 h]
        exact .nested ⟨header, block, ‹_›⟩
      · exact declares_of_blockMembers h

theorem IsRead.nested (h : IsRead t) {n : TypeDeclaration} (hn : n ∈ t.nested) : IsRead n := by
  obtain ⟨header, body, heading, -, rfl⟩ := h.exists_heading
  obtain ⟨member, hmember, hn⟩ := List.mem_filterMap.1 hn
  cases declares_of_mem_bodyMembers hmember with
  | nested h => exact Option.some.inj hn ▸ h
  | field _ => cases hn
  | constructor _ => cases hn
  | method _ => cases hn

mutual

theorem isRead_of_mem_withNested : ∀ u : TypeDeclaration, IsRead u → ∀ t ∈ u.withNested, IsRead t
  | ⟨kind, name, modifiers, superclasses, interfaces, fields, constructors, methods, constants, nested⟩, h, t, ht => by
    rw [TypeDeclaration.withNested] at ht
    rcases List.mem_cons.1 ht with rfl | ht
    · exact h
    · exact isRead_of_mem_allNested nested (fun n hn => h.nested hn) t ht

theorem isRead_of_mem_allNested : ∀ us : List TypeDeclaration, (∀ u ∈ us, IsRead u) → ∀ t ∈ TypeDeclaration.allNested us, IsRead t
  | [], _, t, ht => by cases ht
  | u :: us, h, t, ht => by
    rw [TypeDeclaration.allNested] at ht
    rcases List.mem_append.1 ht with ht | ht
    · exact isRead_of_mem_withNested u (h u List.mem_cons_self) t ht
    · exact isRead_of_mem_allNested us (fun v hv => h v (List.mem_cons_of_mem u hv)) t ht

end

theorem isRead_of_mem_allTypes {path text : String} {file : SourceFile} (hfile : SourceFile.parse path text = .ok file)
    (ht : t ∈ file.allTypes) : IsRead t := by
  obtain ⟨-, -, rfl⟩ := SourceFile.parse_eq_ok_iff.1 hfile
  refine isRead_of_mem_allNested _ (fun u hu => ?_) t ht
  obtain ⟨segment, -, hu⟩ := List.mem_filterMap.1 hu
  cases segment with
  | statement cells => cases hu
  | block header body => exact ⟨header, body, hu⟩

/-! Names and annotations. -/

theorem name_ne_empty_of_headingFrom {before : Option Char} {heading : Heading} (h : headingFrom before cs = some heading) :
    heading.name ≠ "" := by
  induction cs generalizing before heading with
  | nil => cases h
  | cons c cs ih =>
    rw [headingFrom] at h
    split at h
    · rename_i kind name rest hhere
      cases h
      split at hhere
      · obtain ⟨⟨word, kind'⟩, -, hword⟩ := List.exists_of_findSome?_eq_some hhere
        obtain ⟨behind, -, hword⟩ := Option.bind_eq_some_iff.1 hword
        obtain ⟨spaced, -, hword⟩ := Option.bind_eq_some_iff.1 hword
        obtain ⟨⟨name', rest'⟩, hname, hword⟩ := Option.bind_eq_some_iff.1 hword
        cases hword
        exact fun hempty => (name?_eq_some_iff.1 hname).2.1.ne_nil (String.ofList_eq_empty_iff.1 hempty)
      · cases hhere
    · obtain ⟨heading', hlater, rfl⟩ := Option.map_eq_some_iff.1 h
      have hname := ih hlater
      exact hname

theorem IsRead.name_ne_empty (h : IsRead t) : t.name ≠ "" := by
  obtain ⟨header, body, heading, hheading, rfl⟩ := h.exists_heading
  exact name_ne_empty_of_headingFrom (Option.filter_eq_some_iff.1 hheading).1

theorem isDotted_takeWhile (cs : List Cell) : IsDotted (shownText (cs.takeWhile isAnnotationCell)) := by
  intro c hc
  rw [shownText, String.toList_ofList] at hc
  obtain ⟨cell, hcell, rfl⟩ := List.mem_map.1 hc
  have hshown : isAnnotationCell cell = true := List.mem_takeWhile_imp hcell
  rwa [isAnnotationCell, Bool.or_eq_true, decide_eq_true_iff] at hshown

theorem isDotted_preamble (cs : List Cell) : ∀ a ∈ (preamble cs).annotations, IsDotted a := by
  have hreads := readsLead cs
  generalize preamble cs = lead at hreads
  induction hreads with
  | nothing _ => exact nofun
  | interface _ _ _ => exact nofun
  | annotated _ _ _ _ ih => exact List.forall_mem_cons.2 ⟨isDotted_takeWhile _, ih⟩
  | angles _ _ _ ih => exact ih
  | modifier _ _ _ _ _ _ ih => exact ih
  | other _ _ _ _ => exact nofun

theorem isDotted_parameters {p : Parameter} (hp : p ∈ parameters cs) : ∀ a ∈ p.annotations, IsDotted a := by
  obtain ⟨piece, -, hread⟩ := List.mem_filterMap.1 hp
  obtain ⟨⟨type, name⟩, -, rfl⟩ := Option.map_eq_some_iff.1 hread
  exact isDotted_preamble piece

theorem annotations_of_mem_laterFields {template f : FieldDeclaration} {ps : List (List Cell)}
    (hf : f ∈ laterFields template ps) : f.annotations = template.annotations := by
  induction ps with
  | nil => cases hf
  | cons piece ps ih =>
    rw [laterFields] at hf
    dsimp only at hf
    split at hf
    · rcases List.mem_cons.1 hf with rfl | hf
      · rfl
      · exact ih hf
    · cases hf

theorem isDotted_fieldDeclarations {f : FieldDeclaration} (hf : f ∈ fieldDeclarations cs) :
    ∀ a ∈ f.annotations, IsDotted a := by
  have hlead : f.annotations = (preamble cs).annotations := by
    rw [fieldDeclarations] at hf
    dsimp only at hf
    split at hf
    · cases hf
    · split at hf
      · rcases List.mem_cons.1 hf with rfl | hf
        · rfl
        · exact annotations_of_mem_laterFields hf
      · cases hf
  rw [hlead]
  exact isDotted_preamble cs

theorem isDotted_method? {owner text body : String} {m : Method} (h : method? owner cs text body = some m) :
    ∀ p ∈ m.parameters, ∀ a ∈ p.annotations, IsDotted a := by
  obtain ⟨⟨before, rest⟩, -, h⟩ := Option.bind_eq_some_iff.1 h
  obtain ⟨⟨inside, behind⟩, -, h⟩ := Option.bind_eq_some_iff.1 h
  obtain ⟨-, -, h⟩ := Option.bind_eq_some_iff.1 h
  obtain ⟨-, -, h⟩ := Option.bind_eq_some_iff.1 h
  cases h
  exact fun p hp => isDotted_parameters hp

theorem IsRead.isDotted_fields (h : IsRead t) {f : FieldDeclaration} (hf : f ∈ t.fields) :
    ∀ a ∈ f.annotations, IsDotted a := by
  obtain ⟨header, body, heading, -, rfl⟩ := h.exists_heading
  obtain ⟨member, hmember, hf⟩ := List.mem_filterMap.1 hf
  cases declares_of_mem_bodyMembers hmember with
  | field h => exact Option.some.inj hf ▸ isDotted_fieldDeclarations h
  | constructor _ => cases hf
  | method _ => cases hf
  | nested _ => cases hf

theorem IsRead.isDotted_constructors (h : IsRead t) {m : Method} (hm : m ∈ t.constructors) :
    ∀ p ∈ m.parameters, ∀ a ∈ p.annotations, IsDotted a := by
  obtain ⟨header, body, heading, -, rfl⟩ := h.exists_heading
  rcases List.mem_append.1 hm with hm | hm
  · obtain ⟨components, -, rfl⟩ := Option.map_eq_some_iff.1 (Option.mem_toList.1 hm)
    exact fun p hp => isDotted_parameters hp
  · obtain ⟨member, hmember, hm⟩ := List.mem_filterMap.1 hm
    cases declares_of_mem_bodyMembers hmember with
    | constructor h => exact Option.some.inj hm ▸ isDotted_method? h
    | field _ => cases hm
    | method _ => cases hm
    | nested _ => cases hm

end WireLayout.Java
