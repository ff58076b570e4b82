import WireLayout.Proofs.Java.Ranges.Refinement
import WireLayout.Proofs.Java.Ranges.Related

/-! Reading a source with its comments blanked. The declarations are the same up to what is cut from the source itself: a
comment between a type and a name, or within an initialiser, is kept with it, and the constructor that gives the fields
and the constants of the layout are then chosen by a text that holds the comment. -/

namespace WireLayout.Java

open WireLayout.Text Texts

variable {text : List Char}

/-! Types. -/

theorem related_recordConstructor (name : String) (header components : Span) :
    Related (fun m n => (∀ type ∈ m.types, Led type) → m.Alike SameType n)
      ((ofSource text).recordConstructor name header components)
      ((uncommented text).recordConstructor name header components) := by
  refine (related_parameters components).bind fun ps qs hpq => ?_
  refine (related_source header).bind fun _ _ _ => .pure fun hled => ⟨rfl, rfl, .none, rfl, hpq fun p hp => ?_⟩
  exact hled p.type (List.mem_append_right _ (List.mem_map_of_mem hp))

theorem related_recordConstructors (name : String) (header : Span) (record : Option Span) :
    Related (fun x y => (∀ m ∈ x, ∀ type ∈ m.types, Led type) → Both (Method.Alike SameType) x y)
      (record.mapM ((ofSource text).recordConstructor name header))
      (record.mapM ((uncommented text).recordConstructor name header)) := by
  cases record with
  | none => exact .pure fun _ => .none
  | some components =>
    rw [Option.mapM_some, Option.mapM_some]
    intro x y hx hy hled
    obtain ⟨m, hm, rfl⟩ := Except.map_eq_ok_iff.1 hx
    obtain ⟨n, hn, rfl⟩ := Except.map_eq_ok_iff.1 hy
    exact .some (related_recordConstructor name header components m n hm hn (hled m rfl))

theorem related_segmentRanges (s : Span) :
    Related Eq ((ofSource text).segmentRanges s) ((uncommented text).segmentRanges s) :=
  related_demand.bind fun _ _ _ => fun _ _ ha hb => Except.ok.inj (ha.symm.trans hb)

theorem related_attached {α : Type} {x y : Checked α} (h : Related Eq x y) :
    Related (fun a b => a.1 = b.1) (Texts.attached x) (Texts.attached y) :=
  fun a b _ _ => h a.1 b.1 a.2 b.2

/-- No type that the declaration or one nested in it keeps begins with a comment. -/
def TypeDeclaration.Led (d : TypeDeclaration) : Prop := ∀ c ∈ d.withNested, ∀ type ∈ c.typeTexts, Java.Led type

/-- A block that is no type declares a method or a constructor; one that only runs code declares nothing. -/
theorem related_block (owner : String) (header body : Span)
    (h : Related (fun x y => (∀ d ∈ x, d.Led) → Both (TypeDeclaration.Alike SameType SameValue) x y)
      ((ofSource text).typeIn header body) ((uncommented text).typeIn header body)) :
    Related AlikeIfLed
      (do
        if ← runsOnly (ofSource text).masked header then return []
        else match ← (ofSource text).typeIn header body with
          | some nested => return [.nested nested]
          | none => (ofSource text).blockMembers owner header body)
      (do
        if ← runsOnly (uncommented text).masked header then return []
        else match ← (uncommented text).typeIn header body with
          | some nested => return [.nested nested]
          | none => (uncommented text).blockMembers owner header body) := by
  refine Related.step fun runs _ => ?_
  split
  · exact .pure fun _ => .nil
  · refine h.bind fun x y hxy => ?_
    cases x with
    | none =>
      cases hxy nofun
      exact related_blockMembers owner header body
    | some d =>
      intro ms ns hms hns hled
      cases hms
      have hd : d.Led := fun c hc type htype =>
        hled _ (List.mem_singleton.2 rfl) type (List.mem_flatMap.2 ⟨c, hc, htype⟩)
      have hboth := hxy (by rintro e ⟨rfl⟩; exact hd)
      cases hboth with
      | some hde =>
        cases hns
        exact .cons (.nested hde) .nil

theorem Both.of_alike {m n : Member} (h : m.Alike n) :
    Both (FieldDeclaration.Alike SameType SameValue) m.field? n.field? ∧
      Both (Method.Alike SameType) m.constructor? n.constructor? ∧ Both (Method.Alike SameType) m.method? n.method? ∧
        Both (TypeDeclaration.Alike SameType SameValue) m.nested? n.nested? := by
  cases h with
  | field h => exact ⟨.some h, .none, .none, .none⟩
  | constructor h => exact ⟨.none, .some h, .none, .none⟩
  | method h => exact ⟨.none, .none, .some h, .none⟩
  | nested h => exact ⟨.none, .none, .none, .some h⟩

theorem TypeDeclaration.mem_withNested_self (d : TypeDeclaration) : d ∈ d.withNested := by
  rw [withNested_eq]
  exact List.mem_cons_self

theorem TypeDeclaration.mem_allNested_of_mem {c d : TypeDeclaration} {ds : List TypeDeclaration} (hd : d ∈ ds)
    (hc : c ∈ d.withNested) : c ∈ allNested ds := by
  induction ds with
  | nil => cases hd
  | cons e ds ih =>
    rw [allNested]
    rcases List.mem_cons.1 hd with rfl | hd
    · exact List.mem_append_left _ hc
    · exact List.mem_append_right _ (ih hd)

/-- The members of a type keep the types that the declaration keeps. -/
theorem TypeDeclaration.Led.members {d : TypeDeclaration} (h : d.Led) {ms : List Member}
    (hfields : ∀ f, .field f ∈ ms → f ∈ d.fields)
    (hmethods : ∀ m, .constructor m ∈ ms ∨ .method m ∈ ms → m ∈ d.constructors ++ d.methods)
    (hnested : ∀ e, .nested e ∈ ms → e ∈ d.nested) : ∀ m ∈ ms, ∀ type ∈ m.typeTexts, Java.Led type := by
  have hself : ∀ type ∈ d.typeTexts, Java.Led type := h d (mem_withNested_self d)
  have hmethod : ∀ m, .constructor m ∈ ms ∨ .method m ∈ ms → ∀ type ∈ m.types, Java.Led type := fun m hm type htype =>
    hself type (List.mem_append_right _ (List.mem_flatMap.2 ⟨m, hmethods m hm, htype⟩))
  intro m hm type htype
  cases m with
  | field f =>
    rw [List.mem_singleton.1 htype]
    exact hself _ (List.mem_append_left _ (List.mem_map_of_mem (hfields f hm)))
  | constructor m => exact hmethod m (.inl hm) type htype
  | method m => exact hmethod m (.inr hm) type htype
  | nested e =>
    obtain ⟨c, hc, htype⟩ := List.mem_flatMap.1 htype
    refine h c ?_ type htype
    rw [withNested_eq]
    exact List.mem_cons_of_mem d (mem_allNested_of_mem (hnested e hm) hc)

/-- By induction on the length of what the masked text has from the start of the body on. -/
theorem related_typeIn (header body : Span) :
    Related (fun x y => (∀ d ∈ x, d.Led) → Both (TypeDeclaration.Alike SameType SameValue) x y)
      ((ofSource text).typeIn header body) ((uncommented text).typeIn header body) := by
  induction hn : (octetViews (mask text)).length - body.start using Nat.strong_induction_on
    generalizing header body with
  | _ n ih =>
    rw [Texts.typeIn, Texts.typeIn]
    split
    · rename_i hbody
      refine related_lead.bind fun lead lead' hleads => ?_
      obtain ⟨rfl, -⟩ := hleads
      refine Related.step fun shown _ => ?_
      split
      · exact .pure fun _ => .none
      · rename_i heading _
        refine Related.step fun after _ => ?_
        refine Related.step fun record _ => ?_
        refine (related_recordConstructors heading.name header record).bind fun constructor _ hconstructor => ?_
        refine Related.step fun tail _ => ?_
        refine Related.step fun superclasses _ => ?_
        refine Related.step fun interfaces _ => ?_
        refine (related_bodyRanges heading.kind body hbody).bind fun constants constants' hconstants => ?_
        obtain ⟨constants, ⟨range, hrange⟩⟩ := constants
        obtain ⟨constants', range'⟩ := constants'
        obtain ⟨hconstants, hranges⟩ := hconstants
        subst hranges
        refine (related_attached (related_segmentRanges range)).bind fun ranges ranges' hranges => ?_
        obtain ⟨ranges, hread⟩ := ranges
        obtain ⟨ranges', hread'⟩ := ranges'
        dsimp only at hranges
        subst hranges
        refine (Related.mapM (S := AlikeIfLed) fun r _ => ?_).bind fun ms ns hmn => .pure fun hled => ?_
        · obtain ⟨r, hr⟩ := r
          cases r with
          | statement s => exact related_statementMembers heading.name s
          | block inner block =>
            have hstart := (ofSource text).body_of_segmentRanges hread hr
            rw [ofSource_masked] at hstart
            exact related_block heading.name inner block (ih _ (by omega) inner block rfl)
        · have hd := hled _ rfl
          have hmembers : ∀ m ∈ ms.flatten, ∀ type ∈ m.typeTexts, Led type := by
            refine hd.members (fun f hf => ?_) (fun m hm => ?_) fun e he => ?_
            · exact List.mem_filterMap.2 ⟨_, hf, rfl⟩
            · rcases hm with hm | hm
              · exact List.mem_append_left _ (List.mem_append_right _ (List.mem_filterMap.2 ⟨_, hm, rfl⟩))
              · exact List.mem_append_right _ (List.mem_filterMap.2 ⟨_, hm, rfl⟩)
            · exact List.mem_filterMap.2 ⟨_, he, rfl⟩
          have hconstructors := hconstructor fun m hm type htype =>
            hd _ (TypeDeclaration.mem_withNested_self _) type (List.mem_append_right _ (List.mem_flatMap.2
              ⟨m, List.mem_append_left _ (List.mem_append_left _ (by simpa using hm)), htype⟩))
          have halike : List.Forall₂ Member.Alike ms.flatten ns.flatten :=
            List.rel_flatten (Forall₂.imp_mem hmn fun xs hxs ys hxy => hxy fun m hm =>
              hmembers m (List.mem_flatten_of_mem hxs hm))
          refine .some (.mk ⟨rfl, rfl, rfl, rfl, rfl, ?_, ?_, ?_, hconstants⟩ ?_)
          · exact List.rel_filterMap (R := Member.Alike) (fun _ _ h => (Both.of_alike h).1) halike
          · exact List.rel_append hconstructors.toList
              (List.rel_filterMap (R := Member.Alike) (fun _ _ h => (Both.of_alike h).2.1) halike)
          · exact List.rel_filterMap (R := Member.Alike) (fun _ _ h => (Both.of_alike h).2.2.1) halike
          · exact List.rel_filterMap (R := Member.Alike) (fun _ _ h => (Both.of_alike h).2.2.2) halike
    · intro a b ha
      cases ha

theorem related_topLevelTypes :
    Related (fun ds es => (∀ d ∈ ds, d.Led) → List.Forall₂ (TypeDeclaration.Alike SameType SameValue) ds es)
      (ofSource text).topLevelTypes (uncommented text).topLevelTypes := by
  have hlength : (octetViews (uncommented text).source).length = (octetViews (ofSource text).source).length := by
    rw [← length_mask (uncommented text).source, ← length_mask (ofSource text).source]
    exact congrArg (fun masked => (octetViews masked).length) (mask_withoutComments text)
  rw [Texts.topLevelTypes, Texts.topLevelTypes, hlength]
  refine (related_segmentRanges _).bind fun ranges ranges' hranges => ?_
  subst hranges
  refine (Related.mapM fun r _ => ?_).bind fun xs ys hxy => .pure fun hled => forall₂_reduceOption hxy hled
  cases r with
  | statement s => exact .pure fun _ => .none
  | block header body => exact related_typeIn header body

/-! Files. -/

theorem balanced_of_parse {path text : String} {file : SourceFile} (h : SourceFile.parse path text = .ok file) :
    text.toList.all isSpace = false ∧ isBalanced (octetViews (mask text.toList)) = true := by
  rw [SourceFile.parse] at h
  dsimp only at h
  split at h
  · cases h
  · rename_i hblank
    split at h
    · cases h
    · rename_i hbalanced
      refine ⟨by simpa using hblank, ?_⟩
      rw [show mask text.toList = maskedText (cells text.toList) from rfl, isBalanced_maskedText]
      simpa using hbalanced

namespace TypeDeclaration

/-- No comment stands in what the declaration keeps, the texts and bodies of its methods aside. -/
def Uncommented (d : TypeDeclaration) : Prop :=
  (∀ type ∈ d.typeTexts, hasMark type.toList = false) ∧
    ∀ value ∈ d.valueTexts, withoutComments value.toList = value.toList

instance (d : TypeDeclaration) : Decidable d.Uncommented := inferInstanceAs (Decidable (_ ∧ _))

theorem Uncommented.led {d : TypeDeclaration} (h : d.Uncommented) :
    ∀ type ∈ d.typeTexts, opensComment type.toList = false := by
  intro type htype
  by_contra hopen
  have hmark : hasMark type.toList = true := hasMark_iff.2 ⟨[], type.toList, rfl, by simpa using hopen⟩
  rw [h.1 type htype] at hmark
  cases hmark

theorem Uncommented.resembles {d e : TypeDeclaration} (hd : d.Uncommented) (h : d.Resembles SameType SameValue e) :
    d.Resembles Eq Eq e :=
  h.imp (fun type htype _ hsame => hsame (hd.1 type htype)) fun value hvalue _ hsame => hsame (hd.2 value hvalue)

end TypeDeclaration

open FieldList in
/-- What is read of two types is the same; the fields of a message are, if the methods report the same limits. -/
structure ReadAlike (d e : TypeDeclaration) : Prop where
  resembles : d.Resembles Eq Eq e
  constructor : Both (Method.Alike Eq) (selectConstructor d) (selectConstructor e)
  constants : layoutConstants d = layoutConstants e
  variants : enumVariants d.constants = enumVariants e.constants
  fields : lengthBounds d = lengthBounds e → messageFields d = messageFields e

theorem TypeDeclaration.Resembles.readAlike {d e : TypeDeclaration} (h : d.Resembles Eq Eq e) : ReadAlike d e where
  resembles := h
  constructor := FieldList.selectConstructor_alike h
  constants := FieldList.layoutConstants_alike h
  variants := FieldList.enumVariants_alike h
  fields := FieldList.messageFields_alike h

/-- A source that is read is read with its comments blanked too, unless nothing else is in it: with the same package and
imports, and, if no type in it begins with a comment, with types that are the same up to the types, initialisers and
arguments in which a comment stands. What is read of a declaration that keeps no comment is all the same. -/
theorem parse_withoutComments {path text : String} {file : SourceFile} (h : SourceFile.parse path text = .ok file) :
    (withoutComments text.toList).all isSpace = true ∨
      ∃ file', SourceFile.parse path (String.ofList (withoutComments text.toList)) = .ok file' ∧
        file'.package = file.package ∧ file'.imports = file.imports ∧
        ((∀ d ∈ file.allTypes, ∀ type ∈ d.typeTexts, opensComment type.toList = false) →
          List.Forall₂ (TypeDeclaration.Alike SameType SameValue) file.types file'.types ∧
            List.Forall₂ (fun d e => d.Uncommented → ReadAlike d e) file.allTypes file'.allTypes) := by
  rw [or_iff_not_imp_left]
  intro hblank'
  obtain ⟨hblank, hbalanced⟩ := balanced_of_parse h
  have hmask : mask (String.ofList (withoutComments text.toList)).toList = mask text.toList := by
    rw [String.toList_ofList, mask_withoutComments]
  have hblank'' : (String.ofList (withoutComments text.toList)).toList.all isSpace = false := by
    rw [String.toList_ofList]
    exact Bool.eq_false_iff.2 hblank'
  obtain ⟨types, htypes, hfile⟩ := parse_of_balanced path hblank hbalanced
  have hbalanced' : isBalanced (octetViews (mask (String.ofList (withoutComments text.toList)).toList)) = true := by
    rw [hmask]
    exact hbalanced
  obtain ⟨types', htypes', hfile'⟩ := parse_of_balanced path hblank'' hbalanced'
  obtain rfl := Except.ok.inj (h.symm.trans hfile)
  rw [hmask, String.toList_ofList] at htypes'
  rw [hmask] at hfile'
  refine ⟨_, hfile', rfl, rfl, fun hled => ?_⟩
  have halike : List.Forall₂ (TypeDeclaration.Alike SameType SameValue) types types' :=
    related_topLevelTypes types types' htypes htypes' fun d hd c hc =>
      hled c (TypeDeclaration.mem_allNested_of_mem hd hc)
  refine ⟨halike, (TypeDeclaration.resembles_allNested types halike).imp fun d e h hd => ?_⟩
  exact (hd.resembles h).readAlike

/-- Comments between members, in bodies and around names are in the way of nothing that is read. -/
theorem parse_withoutComments_between :
    let text := "package a;\nclass P \x7b // of a\n  /* one */ int x /* two */ = 1;\n  P(int x) \x7b /* three */ \x7d\n\x7d"
    ∃ file file', SourceFile.parse "P.java" text = .ok file ∧
      SourceFile.parse "P.java" (String.ofList (withoutComments text.toList)) = .ok file' ∧
      file.allTypes.map TypeDeclaration.name = ["P"] ∧ List.Forall₂ ReadAlike file.allTypes file'.allTypes := by
  intro text
  have hread : (SourceFile.parse "P.java" text).map (fun file =>
      (file.allTypes.map TypeDeclaration.name, file.allTypes.all fun d => decide d.Uncommented)) =
        .ok (["P"], true) := by
    decide +kernel
  obtain ⟨file, hfile, hread⟩ := Except.map_eq_ok_iff.1 hread
  obtain ⟨hnames, huncommented⟩ := Prod.mk.inj hread
  have hclean : ∀ d ∈ file.allTypes, d.Uncommented := by simpa using huncommented
  rcases parse_withoutComments hfile with hblank | ⟨file', hfile', -, -, hsame⟩
  · exact absurd hblank (by decide +kernel)
  · refine ⟨file, file', hfile, hfile', hnames, ?_⟩
    exact Forall₂.imp_mem (hsame fun d hd => (hclean d hd).led).2 fun d hd e h => h (hclean d hd)

/-- A comment within a type, an initialiser or a body is read with it: a copy constructor is taken for the constructor
that gives the fields, a constant is lost, and a call within a comment limits a field. -/
theorem comments_read :
    (let text := "class P \x7b int x; P(P /* other */ p) \x7b\x7d \x7d"
      let fields := fun text => (SourceFile.parse "P.java" text).map fun file =>
        file.allTypes.map fun d => (FieldList.messageFields d).map fun f => (f.name, f.type)
      fields text = .ok [[("p", "P /* other */")]] ∧
        fields (String.ofList (withoutComments text.toList)) = .ok [[("x", "int")]]) ∧
    (let text := "class P \x7b static final int PACKET_ID = /* id */ 7; \x7d"
      let ids := fun text => (SourceFile.parse "P.java" text).map fun file =>
        file.allTypes.map fun d => (FieldList.layoutConstants d).packetId
      ids text = .ok [0] ∧ ids (String.ofList (withoutComments text.toList)) = .ok [7]) ∧
    (let text := "class P \x7b String x; P(String x) \x7b /* stringTooLong(\"x\", n, 5) */ \x7d \x7d"
      let limits := fun text => (SourceFile.parse "P.java" text).map fun file =>
        file.allTypes.map fun d => (FieldList.messageFields d).map fun f => f.maxLength
      limits text = .ok [[some 5]] ∧ limits (String.ofList (withoutComments text.toList)) = .ok [[none]]) := by
  refine ⟨⟨?_, ?_⟩, ⟨?_, ?_⟩, ?_, ?_⟩
  all_goals decide +kernel

end WireLayout.Java
