import Mathlib.Data.List.Forall2
import Mathlib.Data.List.Induction
import WireLayout.FieldList
import WireLayout.Proofs.Except
import WireLayout.Proofs.Java.Declared

/-! Where the fields of a message come from: the parameters of the first of its fullest constructors, joined by name with
what is declared, or else the declared fields. The limits that are found in the text of a type are added to either. A
constructor that copies a value of the type is told by the simple name of its parameter, which the reader finds unless
it stands behind type arguments, or apart from the point in front of it. -/

namespace WireLayout.FieldList

open WireLayout.Java WireLayout.Text

section

variable {decl : TypeDeclaration}

/-! Constructors. -/

/-- A constructor can give the fields when it has parameters and does not copy another value of the type. -/
structure IsEligible (decl : TypeDeclaration) (m : Method) : Prop where
  nonempty : m.parameters ≠ []
  original : ∀ p, m.parameters = [p] → ¬SimpleName p.type.toList decl.name.toList

/-- A type that is plainly spelled: the reader finds its simple name. -/
def IsPlain (type : String) : Prop := ∃ w, SimpleName type.toList w ∧ PlainSpelling type.toList w

/-- A type as the parser declares it, where single parameters have plainly spelled types. -/
structure Readable (decl : TypeDeclaration) : Prop where
  named : decl.name ≠ ""
  single : ∀ m ∈ decl.constructors, ∀ p, m.parameters = [p] → IsPlain p.type ∨ IsVariadic p.type
  parameters : ∀ m ∈ decl.constructors, ∀ p ∈ m.parameters, ∀ a ∈ p.annotations, IsDotted a
  fields : ∀ f ∈ decl.fields, ∀ a ∈ f.annotations, IsDotted a

/-- For a type of a file, only how single parameters spell their types is a condition. -/
theorem readable_of_mem_allTypes {path text : String} {file : SourceFile} (hfile : SourceFile.parse path text = .ok file)
    (hmem : decl ∈ file.allTypes)
    (hsingle : ∀ m ∈ decl.constructors, ∀ p, m.parameters = [p] → IsPlain p.type ∨ IsVariadic p.type) : Readable decl where
  named := (isRead_of_mem_allTypes hfile hmem).name_ne_empty
  single := hsingle
  parameters _ hm := (isRead_of_mem_allTypes hfile hmem).isDotted_constructors hm
  fields _ hf := (isRead_of_mem_allTypes hfile hmem).isDotted_fields hf

/-- The first of the eligible constructors with the most parameters. -/
structure IsFirstFullest (decl : TypeDeclaration) (before : List Method) (m : Method) (after : List Method) :
    Prop where
  constructors : decl.constructors = before ++ m :: after
  eligible : IsEligible decl m
  fewer : ∀ c ∈ before, IsEligible decl c → c.parameters.length < m.parameters.length
  most : ∀ c ∈ after, IsEligible decl c → c.parameters.length ≤ m.parameters.length

theorem Readable.isEligible_iff (h : Readable decl) {m : Method} (hm : m ∈ decl.constructors) :
    IsEligible decl m ↔ (!m.parameters.isEmpty && !isCopyConstructor m decl.name) = true := by
  have hread : ∀ p, m.parameters = [p] → (simpleTypeName p.type = decl.name ↔ SimpleName p.type.toList decl.name.toList) := by
    intro p hp
    rcases h.single m hm p hp with ⟨w, hname, hplain⟩ | hvariadic
    · exact simpleTypeName_eq_iff hname hplain
    · exact iff_of_false (fun heq => h.named (heq ▸ hvariadic.simpleTypeName)) hvariadic.not_simpleName
  rw [Bool.and_eq_true, Bool.not_eq_true', Bool.not_eq_true', List.isEmpty_eq_false_iff, isCopyConstructor]
  constructor
  · intro h
    refine ⟨h.nonempty, ?_⟩
    split
    · rename_i p hp
      exact decide_eq_false fun heq => h.original p hp ((hread p hp).1 heq)
    · rfl
  · rintro ⟨hne, hcopy⟩
    refine ⟨hne, fun p hp hname => ?_⟩
    rw [hp] at hcopy
    exact of_decide_eq_false hcopy ((hread p hp).2 hname)

theorem foldl_fuller_eq_none_iff {ms : List Method} : ms.foldl fuller none = none ↔ ms = [] := by
  induction ms using List.reverseRecOn with
  | nil => simp
  | append_singleton ms m _ =>
    rw [List.foldl_concat]
    unfold fuller
    split
    · split <;> simp
    · simp

/-- What is kept is longer than all before it and at least as long as all after it, by induction on the constructors
that were looked at. -/
theorem split_of_foldl_fuller {ms : List Method} {m : Method} (h : ms.foldl fuller none = some m) :
    ∃ before after, ms = before ++ m :: after ∧ (∀ c ∈ before, c.parameters.length < m.parameters.length) ∧
      ∀ c ∈ after, c.parameters.length ≤ m.parameters.length := by
  induction ms using List.reverseRecOn generalizing m with
  | nil => cases h
  | append_singleton ms last ih =>
    rw [List.foldl_concat] at h
    cases hbest : ms.foldl fuller none with
    | none =>
      rw [hbest] at h
      obtain rfl := foldl_fuller_eq_none_iff.1 hbest
      obtain rfl := Option.some.inj h
      exact ⟨[], [], rfl, nofun, nofun⟩
    | some best =>
      rw [hbest, fuller] at h
      obtain ⟨before, after, rfl, hbefore, hafter⟩ := ih hbest
      split at h
      · rename_i hle
        obtain rfl := Option.some.inj h
        refine ⟨before, after ++ [last], by simp, hbefore, ?_⟩
        rw [List.forall_mem_append, List.forall_mem_singleton]
        exact ⟨hafter, hle⟩
      · rename_i hlt
        obtain rfl := Option.some.inj h
        refine ⟨before ++ best :: after, [], rfl, fun c hc => ?_, nofun⟩
        rcases List.mem_append.1 hc with hc | hc
        · have hless := hbefore c hc
          omega
        · rcases List.mem_cons.1 hc with rfl | hc
          · omega
          · have hless := hafter c hc
            omega

theorem Readable.isFirstFullest (h : Readable decl) {m : Method} (hm : selectConstructor decl = some m) :
    ∃ before after, IsFirstFullest decl before m after := by
  obtain ⟨before, after, hfiltered, hfewer, hmost⟩ := split_of_foldl_fuller hm
  obtain ⟨start, rest, hsplit, rfl, hrest⟩ := List.filter_eq_append_iff.1 hfiltered
  obtain ⟨skipped, finish, rfl, hskipped, heligible, rfl⟩ := List.filter_eq_cons_iff.1 hrest
  have hmem : ∀ {c : Method}, c ∈ start ∨ c ∈ skipped ∨ c = m ∨ c ∈ finish → c ∈ decl.constructors := by
    intro c hc
    rw [hsplit]
    simpa only [List.mem_append, List.mem_cons] using hc
  have hread := fun {c : Method} hc => h.isEligible_iff (m := c) (hmem hc)
  refine ⟨start ++ skipped, finish, by rw [hsplit, List.append_assoc], (hread (by simp)).2 heligible, ?_, ?_⟩
  · rw [List.forall_mem_append]
    refine ⟨fun c hc he => hfewer c (List.mem_filter.2 ⟨hc, (hread (.inl hc)).1 he⟩), fun c hc he => ?_⟩
    exact absurd ((hread (.inr (.inl hc))).1 he) (hskipped c hc)
  · exact fun c hc he => hmost c (List.mem_filter.2 ⟨hc, (hread (.inr (.inr (.inr hc)))).1 he⟩)

theorem Readable.selectConstructor_eq_none_iff (h : Readable decl) :
    selectConstructor decl = none ↔ ∀ c ∈ decl.constructors, ¬ IsEligible decl c := by
  rw [selectConstructor, foldl_fuller_eq_none_iff, List.filter_eq_nil_iff]
  exact forall₂_congr fun c hc => not_congr (h.isEligible_iff hc).symm

/-! Fields. -/

def IsInstance (f : FieldDeclaration) : Prop := "static" ∉ f.modifiers

theorem isStatic_eq_false_iff {f : FieldDeclaration} : f.isStatic = false ↔ IsInstance f := by
  rw [FieldDeclaration.isStatic, IsInstance, ← Bool.not_eq_true, List.contains_iff_mem]

instance (f : FieldDeclaration) : Decidable (IsInstance f) := inferInstanceAs (Decidable ("static" ∉ f.modifiers))

def IsLastDeclaration (decl : TypeDeclaration) (name : String) (f : FieldDeclaration) : Prop :=
  (IsInstance f ∧ f.name = name) ∧ ∃ before after, decl.fields = before ++ f :: after ∧
    ∀ g ∈ after, IsInstance g → g.name ≠ name

theorem IsLastDeclaration.mem {name : String} {f : FieldDeclaration} (h : IsLastDeclaration decl name f) : f ∈ decl.fields := by
  obtain ⟨-, before, after, hfields, -⟩ := h
  rw [hfields]
  exact List.mem_append_right _ List.mem_cons_self

theorem declaration?_eq_some_iff {name : String} {f : FieldDeclaration} :
    declaration? decl name = some f ↔ IsLastDeclaration decl name f := by
  rw [declaration?, List.find?_eq_some_iff_append, IsLastDeclaration]
  simp only [Bool.and_eq_true, Bool.not_eq_true', decide_eq_true_iff, isStatic_eq_false_iff]
  refine and_congr_right fun _ => ?_
  constructor
  · rintro ⟨after, before, hfields, hafter⟩
    refine ⟨before.reverse, after.reverse, ?_, fun g hg hinstance => ?_⟩
    · rw [← List.reverse_reverse decl.fields, hfields]
      simp
    · simpa [isStatic_eq_false_iff.2 hinstance] using hafter g (List.mem_reverse.1 hg)
  · rintro ⟨before, after, hfields, hafter⟩
    refine ⟨after.reverse, before.reverse, by simp [hfields], fun g hg => ?_⟩
    have hname := hafter g (List.mem_reverse.1 hg)
    cases hstatic : g.isStatic with
    | true => simp
    | false => simp [hname (isStatic_eq_false_iff.1 hstatic)]

/-- The field of a parameter, with what the last declaration of its name adds. -/
structure OfParameter (decl : TypeDeclaration) (p : Parameter) (f : Field) : Prop where
  name : f.name = p.name
  type : f.type = p.type
  nullable : f.nullable = true ↔ Annotated p.annotations "Nullable" ∨
    ∃ d, IsLastDeclaration decl p.name d ∧ Annotated d.annotations "Nullable"
  defaultValue : ∀ text, f.defaultValue = some text ↔
    ∃ d, IsLastDeclaration decl p.name d ∧ d.initializer = some text

structure OfDeclaration (d : FieldDeclaration) (f : Field) : Prop where
  name : f.name = d.name
  type : f.type = d.type
  nullable : f.nullable = true ↔ Annotated d.annotations "Nullable"
  defaultValue : f.defaultValue = d.initializer

/-- A field with the limit that is found for its name, and otherwise as it was. -/
def limited (decl : TypeDeclaration) (f : Field) : Field :=
  { f with maxLength := ((lengthBounds decl).find? (lowercase f.name)).or f.maxLength }

theorem withBounds_eq_map (decl : TypeDeclaration) (fields : List Field) :
    withBounds decl fields = fields.map (limited decl) := by
  unfold withBounds limited
  dsimp only
  split
  · rename_i hempty
    have hentries : (lengthBounds decl).entries = [] := List.isEmpty_iff.1 hempty
    simp [SortedMap.find?, hentries, SortedMap.lookup]
  · refine List.map_congr_left fun f _ => ?_
    cases hlimit : (lengthBounds decl).find? (lowercase f.name) <;> simp

theorem Readable.ofParameter (h : Readable decl) {m : Method} (hm : m ∈ decl.constructors) {p : Parameter}
    (hp : p ∈ m.parameters) : OfParameter decl p (limited decl (FieldList.ofParameter decl p)) := by
  refine ⟨rfl, rfl, ?_, fun text => ?_⟩
  · simp only [limited, FieldList.ofParameter, Bool.or_eq_true, Option.any_eq_true, declaration?_eq_some_iff]
    refine or_congr (hasNullable_iff (h.parameters m hm p hp)) (exists_congr fun d => and_congr_right fun hd => ?_)
    exact hasNullable_iff (h.fields d hd.mem)
  · simp only [limited, FieldList.ofParameter, Option.bind_eq_some_iff, declaration?_eq_some_iff]

theorem Readable.ofDeclaration (h : Readable decl) {d : FieldDeclaration} (hd : d ∈ decl.fields) :
    OfDeclaration d (limited decl (FieldList.ofDeclaration d)) :=
  ⟨rfl, rfl, hasNullable_iff (h.fields d hd), rfl⟩

def dataDeclarations (decl : TypeDeclaration) : List FieldDeclaration :=
  decl.fields.filter fun f => IsInstance f ∧ f.name ≠ "VALUES" ∧ f.name ≠ "value"

theorem declaredFields_eq (decl : TypeDeclaration) :
    declaredFields decl = (dataDeclarations decl).map FieldList.ofDeclaration := by
  rw [declaredFields, dataDeclarations]
  congr 2
  funext f
  rw [Bool.eq_iff_iff, Bool.and_eq_true, Bool.not_eq_true', isStatic_eq_false_iff, decide_eq_true_iff]
  simp [ignoredNames]

theorem maxLength_of_mem_messageFields {f : Field} (hf : f ∈ messageFields decl) :
    f.maxLength = (lengthBounds decl).find? (lowercase f.name) := by
  have hunbounded : ∀ fields : List Field, (∀ f ∈ fields, f.maxLength = none) →
      ∀ f ∈ withBounds decl fields, f.maxLength = (lengthBounds decl).find? (lowercase f.name) := by
    intro fields hnone f hf
    rw [withBounds_eq_map] at hf
    obtain ⟨given, hgiven, rfl⟩ := List.mem_map.1 hf
    simp [limited, hnone given hgiven]
  refine hunbounded _ ?_ f hf
  split
  · rw [List.forall_mem_map]
    exact fun p _ => rfl
  · rw [declaredFields, List.forall_mem_map]
    exact fun d _ => rfl

/-- The fields of a message have the names and types of the parameters of the constructor that is selected, in their
order, and this is the first of the fullest eligible ones. Without an eligible constructor they are the declared fields
that are not static, two names aside. Limits change nothing but the largest length. -/
theorem messageFields_of_constructor_or_declarations (h : Readable decl) :
    ((∃ before m after, IsFirstFullest decl before m after ∧ selectConstructor decl = some m ∧
        List.Forall₂ (OfParameter decl) m.parameters (messageFields decl)) ∨
      (∀ c ∈ decl.constructors, ¬ IsEligible decl c) ∧ selectConstructor decl = none ∧
        List.Forall₂ OfDeclaration (dataDeclarations decl) (messageFields decl)) ∧
      (∀ fields, withBounds decl fields = fields.map (limited decl)) ∧
      ∀ f ∈ messageFields decl, f.maxLength = (lengthBounds decl).find? (lowercase f.name) := by
  refine ⟨?_, withBounds_eq_map decl, fun f hf => maxLength_of_mem_messageFields hf⟩
  cases hselected : selectConstructor decl with
  | some m =>
    obtain ⟨before, after, hfirst⟩ := h.isFirstFullest hselected
    have hm : m ∈ decl.constructors := by
      rw [hfirst.constructors]
      exact List.mem_append_right _ List.mem_cons_self
    refine .inl ⟨before, m, after, hfirst, rfl, ?_⟩
    rw [messageFields, hselected, withBounds_eq_map, List.map_map, List.forall₂_map_right_iff, List.forall₂_same]
    exact fun p hp => h.ofParameter hm hp
  | none =>
    refine .inr ⟨h.selectConstructor_eq_none_iff.1 hselected, rfl, ?_⟩
    rw [messageFields, hselected, withBounds_eq_map, declaredFields_eq, List.map_map, List.forall₂_map_right_iff,
      List.forall₂_same]
    exact fun d hd => h.ofDeclaration (List.mem_filter.1 hd).1

end

/-! A message with a copy constructor, two constructors of one length, and fields that can be absent. -/

namespace Copied

def text : String := "class P \x7b @org.Nullable int x = 1; String y; P(a.P<T> p) \x7b\x7d " ++
  "P(int x, @Nullable String y) \x7b\x7d P(int u, int v) \x7b\x7d \x7d"

theorem simpleName_word (w : String) (h : w.toList ≠ [] ∧ w.toList.all isWordOrDollar = true) : SimpleName w.toList w.toList :=
  .name ⟨h.1, List.all_eq_true.1 h.2⟩

theorem isPlain : IsPlain "a.P<T>" := by
  have hname : SimpleName "a.P<T>".toList "P".toList :=
    .generic (.member (simpleName_word "a" (by decide)) (simpleName_word "P" (by decide)))
      (.plain (by decide) (by decide) .nil : Matched ['T'])
  refine ⟨"P".toList, hname, hname.typeWord, "a.".toList, [], 0, "<T>".toList, by decide, by decide, ?_, ?_, by simp, ?_⟩
  · exact fun c hc => by rw [← Option.some.inj hc]; decide
  · exact fun c hc => (Option.some.inj hc).symm
  · exact fun c hc => (Option.some.inj hc).symm

/-- The only type of the file, the types of the parameters in it, and the names of those that are selected. -/
theorem exists_decl : ∃ file decl, SourceFile.parse "P.java" text = .ok file ∧ file.allTypes = [decl] ∧
    decl.constructors.map (fun m => m.parameters.map (·.type)) = [["a.P<T>"], ["int", "String"], ["int", "int"]] ∧
    (selectConstructor decl).map (fun m => m.parameters.map (·.name)) = some ["x", "y"] := by
  have hread : (SourceFile.parse "P.java" text).map (fun file => file.allTypes.map fun decl =>
      (decl.constructors.map (fun m => m.parameters.map (·.type)),
        (selectConstructor decl).map fun m => m.parameters.map (·.name))) =
      .ok [([["a.P<T>"], ["int", "String"], ["int", "int"]], some ["x", "y"])] := by decide +kernel
  obtain ⟨file, hfile, htypes⟩ := Except.map_eq_ok_iff.1 hread
  obtain ⟨decl, hdecl, hshown⟩ := List.map_eq_singleton_iff.1 htypes
  obtain ⟨hconstructors, hselected⟩ := Prod.mk.inj hshown
  exact ⟨file, decl, hfile, hdecl, hconstructors, hselected⟩

end Copied

/-- The first of the two fullest constructors gives the fields. -/
theorem messageFields_of_copied : ∃ file decl m, SourceFile.parse "P.java" Copied.text = .ok file ∧
    decl ∈ file.allTypes ∧ Readable decl ∧ selectConstructor decl = some m ∧ m.parameters.map (·.name) = ["x", "y"] ∧
      List.Forall₂ (OfParameter decl) m.parameters (messageFields decl) := by
  obtain ⟨file, decl, hfile, htypes, hconstructors, hselected⟩ := Copied.exists_decl
  have hmem : decl ∈ file.allTypes := htypes ▸ List.mem_singleton_self decl
  have hreadable : Readable decl := by
    refine readable_of_mem_allTypes hfile hmem fun m hm p hp => .inl ?_
    have htype : [p.type] ∈ decl.constructors.map fun m => m.parameters.map (·.type) :=
      List.mem_map.2 ⟨m, hm, by rw [hp]; rfl⟩
    rw [hconstructors] at htype
    have hcopy : p.type = "a.P<T>" := by simpa using htype
    rw [hcopy]
    exact Copied.isPlain
  obtain ⟨m, hm, hnames⟩ := Option.map_eq_some_iff.1 hselected
  rcases (messageFields_of_constructor_or_declarations hreadable).1 with ⟨before, m', after, -, hm', hfields⟩ | ⟨-, hnone, -⟩
  · obtain rfl : m = m' := Option.some.inj (hm.symm.trans hm')
    exact ⟨file, decl, m, hfile, hmem, hreadable, hm, hnames, hfields⟩
  · rw [hnone] at hm
    cases hm

/-- A constructor is taken for a copy when its type stands in front of the name, behind type arguments; and a copy is taken
for data when a space stands behind the point. -/
theorem copies_misread :
    let read := fun text => (SourceFile.parse "Packet.java" text).map fun file =>
      file.types.map fun d => (d.constructors.map fun m => m.parameters.map (·.type), (messageFields d).map (·.name))
    (SimpleName "Packet<X>.Inner".toList "Inner".toList ∧
        read "class Packet \x7b int y; Packet(Packet<X>.Inner i) \x7b\x7d \x7d" = .ok [([["Packet<X>.Inner"]], ["y"])]) ∧
      SimpleName "a. Packet".toList "Packet".toList ∧
        read "class Packet \x7b int y; Packet(a. Packet p) \x7b\x7d \x7d" = .ok [([["a. Packet"]], ["p"])] := by
  refine ⟨⟨?_, by decide +kernel⟩, ?_, by decide +kernel⟩
  · exact .member (.generic (Copied.simpleName_word "Packet" (by decide)) (.plain (by decide) (by decide) .nil : Matched ['X']))
      (Copied.simpleName_word "Inner" (by decide))
  · exact .member (Copied.simpleName_word "a" (by decide)) (.indented (by decide) (Copied.simpleName_word "Packet" (by decide)))

end WireLayout.FieldList
