import Mathlib.Data.List.Forall2
import WireLayout.FieldList
import WireLayout.Proofs.Java.TypeReader

/-! Declarations that are alike: kinds, names, modifiers and supertypes are the same, and the texts that are kept from
the source, types on the one hand and initialisers and arguments on the other, are related. The verbatim texts of
members and their bodies are left out. Where the kept texts are the same, so is what is extracted from the types. -/

namespace WireLayout.Java

/-- The relation holds of what two partial results give, and neither or both give something. -/
abbrev Both {α β : Type} (R : α → β → Prop) : Option α → Option β → Prop := Option.Rel R

section

variable (T E : String → String → Prop)

structure Parameter.Alike (p q : Parameter) : Prop where
  annotations : p.annotations = q.annotations
  type : T p.type q.type
  name : p.name = q.name

structure Method.Alike (m n : Method) : Prop where
  annotations : m.annotations = n.annotations
  modifiers : m.modifiers = n.modifiers
  returnType : Both T m.returnType n.returnType
  name : m.name = n.name
  parameters : List.Forall₂ (Parameter.Alike T) m.parameters n.parameters

structure FieldDeclaration.Alike (f g : FieldDeclaration) : Prop where
  annotations : f.annotations = g.annotations
  modifiers : f.modifiers = g.modifiers
  type : T f.type g.type
  name : f.name = g.name
  initializer : Both E f.initializer g.initializer

structure EnumConstant.Alike (c d : EnumConstant) : Prop where
  name : c.name = d.name
  arguments : List.Forall₂ E c.arguments d.arguments

namespace TypeDeclaration

/-- Types alike in all but the types nested in them. -/
structure Resembles (d e : TypeDeclaration) : Prop where
  kind : d.kind = e.kind
  name : d.name = e.name
  modifiers : d.modifiers = e.modifiers
  superclasses : d.superclasses = e.superclasses
  interfaces : d.interfaces = e.interfaces
  fields : List.Forall₂ (FieldDeclaration.Alike T E) d.fields e.fields
  constructors : List.Forall₂ (Method.Alike T) d.constructors e.constructors
  methods : List.Forall₂ (Method.Alike T) d.methods e.methods
  constants : List.Forall₂ (EnumConstant.Alike E) d.constants e.constants

inductive Alike : TypeDeclaration → TypeDeclaration → Prop where
  | mk {d e : TypeDeclaration} (resembles : d.Resembles T E e) (nested : List.Forall₂ Alike d.nested e.nested) :
    Alike d e

end TypeDeclaration

end

/-! The texts that are kept. -/

def Method.types (m : Method) : List String := m.returnType.toList ++ m.parameters.map Parameter.type

namespace TypeDeclaration

/-- The types that a type declares its fields, parameters and results with, those of nested types aside. -/
def typeTexts (d : TypeDeclaration) : List String :=
  d.fields.map FieldDeclaration.type ++ (d.constructors ++ d.methods).flatMap Method.types

/-- The initialisers and the arguments of constants in a type, those of nested types aside. -/
def valueTexts (d : TypeDeclaration) : List String :=
  d.fields.flatMap (fun f => f.initializer.toList) ++ d.constants.flatMap EnumConstant.arguments

end TypeDeclaration

variable {T E T' E' : String → String → Prop}

theorem Forall₂.imp_mem {α β : Type} {R S : α → β → Prop} {xs : List α} {ys : List β} (h : List.Forall₂ R xs ys)
    (himp : ∀ x ∈ xs, ∀ y, R x y → S x y) : List.Forall₂ S xs ys := by
  induction h with
  | nil => exact .nil
  | cons hxy _ ih =>
    exact .cons (himp _ List.mem_cons_self _ hxy) (ih fun x hx => himp x (List.mem_cons_of_mem _ hx))

theorem Both.imp_mem {α β : Type} {R S : α → β → Prop} {x : Option α} {y : Option β} (h : Both R x y)
    (himp : ∀ a ∈ x.toList, ∀ b, R a b → S a b) : Both S x y := by
  cases h with
  | none => exact .none
  | some h => exact .some (himp _ (by simp) _ h)

theorem Both.isNone_eq {α β : Type} {R : α → β → Prop} {x : Option α} {y : Option β} (h : Both R x y) :
    x.isNone = y.isNone := by
  cases h <;> rfl

theorem Both.map {α β γ δ : Type} {R : α → β → Prop} {S : γ → δ → Prop} {x : Option α} {y : Option β} {f : α → γ}
    {g : β → δ} (h : Both R x y) (hf : ∀ a b, R a b → S (f a) (g b)) : Both S (x.map f) (y.map g) := by
  cases h with
  | none => exact .none
  | some h => exact .some (hf _ _ h)

theorem Both.toList {α β : Type} {R : α → β → Prop} {x : Option α} {y : Option β} (h : Both R x y) :
    List.Forall₂ R x.toList y.toList := by
  cases h with
  | none => exact .nil
  | some h => exact .cons h .nil

/-- Of related results with some and none, those that are some are related. -/
theorem forall₂_reduceOption {α β : Type} {p : α → Prop} {R : α → β → Prop} {xs : List (Option α)} {ys : List (Option β)}
    (h : List.Forall₂ (fun x y => (∀ a ∈ x, p a) → Both R x y) xs ys) (hp : ∀ a ∈ xs.reduceOption, p a) :
    List.Forall₂ R xs.reduceOption ys.reduceOption := by
  induction h with
  | nil => exact .nil
  | @cons x y xs ys hxy _ ih =>
    cases x with
    | none =>
      cases hxy nofun
      exact ih hp
    | some a =>
      rw [List.reduceOption_cons_of_some] at hp
      have hboth := hxy (by rintro a ⟨rfl⟩; exact hp a List.mem_cons_self)
      cases hboth with
      | some hab => exact .cons hab (ih fun b hb => hp b (List.mem_cons_of_mem a hb))

theorem Method.Alike.imp {m n : Method} (h : m.Alike T n) (hT : ∀ a ∈ m.types, ∀ b, T a b → T' a b) : m.Alike T' n where
  annotations := h.annotations
  modifiers := h.modifiers
  returnType := h.returnType.imp_mem fun a ha => hT a (List.mem_append_left _ ha)
  name := h.name
  parameters := Forall₂.imp_mem h.parameters fun _ hp _ hpq =>
    { annotations := hpq.annotations
      type := hT _ (List.mem_append_right _ (List.mem_map_of_mem hp)) _ hpq.type
      name := hpq.name }

namespace TypeDeclaration

/-- Other relations may be taken, if the kept texts that are related by the one are related by the other. -/
theorem Resembles.imp {d e : TypeDeclaration} (h : d.Resembles T E e) (hT : ∀ a ∈ d.typeTexts, ∀ b, T a b → T' a b)
    (hE : ∀ a ∈ d.valueTexts, ∀ b, E a b → E' a b) : d.Resembles T' E' e := by
  have hinitializer : ∀ f ∈ d.fields, ∀ a ∈ f.initializer.toList, a ∈ d.valueTexts := fun f hf a ha =>
    List.mem_append_left _ (List.mem_flatMap.2 ⟨f, hf, ha⟩)
  have hmethod : ∀ m ∈ d.constructors ++ d.methods, ∀ a ∈ m.types, a ∈ d.typeTexts := fun m hm a ha =>
    List.mem_append_right _ (List.mem_flatMap.2 ⟨m, hm, ha⟩)
  have hconstant : ∀ c ∈ d.constants, ∀ a ∈ c.arguments, a ∈ d.valueTexts := fun c hc a ha =>
    List.mem_append_right _ (List.mem_flatMap.2 ⟨c, hc, ha⟩)
  refine ⟨h.kind, h.name, h.modifiers, h.superclasses, h.interfaces, ?_, ?_, ?_, ?_⟩
  · exact Forall₂.imp_mem h.fields fun f hf g hfg =>
      { annotations := hfg.annotations
        modifiers := hfg.modifiers
        type := hT _ (List.mem_append_left _ (List.mem_map_of_mem hf)) _ hfg.type
        name := hfg.name
        initializer := hfg.initializer.imp_mem fun a ha => hE a (hinitializer f hf a ha) }
  · exact Forall₂.imp_mem h.constructors fun m hm n hmn =>
      hmn.imp fun a ha => hT a (hmethod m (List.mem_append_left _ hm) a ha)
  · exact Forall₂.imp_mem h.methods fun m hm n hmn =>
      hmn.imp fun a ha => hT a (hmethod m (List.mem_append_right _ hm) a ha)
  · exact Forall₂.imp_mem h.constants fun c hc k hck =>
      { name := hck.name
        arguments := Forall₂.imp_mem hck.arguments fun a ha => hE a (hconstant c hc a ha) }

/-! Types alike contain types alike. -/

mutual

theorem resembles_withNested : ∀ (d : TypeDeclaration) {e : TypeDeclaration}, d.Alike T E e →
    List.Forall₂ (Resembles T E) (withNested d) (withNested e)
  | ⟨kind, name, modifiers, superclasses, interfaces, fields, constructors, methods, constants, nested⟩, e, h => by
    obtain ⟨hresembles, hnested⟩ := h
    rw [withNested, withNested_eq]
    exact .cons hresembles (resembles_allNested nested hnested)

theorem resembles_allNested : ∀ (ds : List TypeDeclaration) {es : List TypeDeclaration}, List.Forall₂ (Alike T E) ds es →
    List.Forall₂ (Resembles T E) (allNested ds) (allNested es)
  | [], _, h => by
    cases h
    exact .nil
  | d :: ds, _, h => by
    cases h with
    | cons hd hds => exact List.rel_append (resembles_withNested d hd) (resembles_allNested ds hds)

end

end TypeDeclaration

/-! What is extracted from types that keep the same texts. -/

theorem Both.eq {α : Type} {x y : Option α} (h : Both Eq x y) : x = y := by
  cases h with
  | none => rfl
  | some h => rw [h]

theorem Parameter.Alike.eq {p q : Parameter} (h : p.Alike Eq q) : p = q := by
  cases p
  cases q
  obtain ⟨rfl, rfl, rfl⟩ := h
  rfl

theorem Method.Alike.parameters_eq {m n : Method} (h : m.Alike Eq n) : m.parameters = n.parameters :=
  List.forall₂_eq_eq_eq ▸ h.parameters.imp fun _ _ => Parameter.Alike.eq

theorem EnumConstant.Alike.eq {c d : EnumConstant} (h : c.Alike Eq d) : c = d := by
  cases c
  cases d
  obtain ⟨rfl, harguments⟩ := h
  rw [List.forall₂_eq_eq_eq] at harguments
  exact congrArg (EnumConstant.mk _) harguments

theorem find?_alike {α β : Type} {R : α → β → Prop} {xs : List α} {ys : List β} {p : α → Bool} {q : β → Bool}
    (h : List.Forall₂ R xs ys) (hpq : ∀ x y, R x y → p x = q y) : Both R (xs.find? p) (ys.find? q) := by
  induction h with
  | nil => exact .none
  | @cons x y _ _ hxy _ ih =>
    rw [List.find?_cons, List.find?_cons, hpq x y hxy]
    cases q y with
    | true => exact .some hxy
    | false => exact ih

end WireLayout.Java

namespace WireLayout.FieldList

open WireLayout.Java

variable {d e : TypeDeclaration}

/-- The same constructor is selected, if the types keep the same texts. -/
theorem selectConstructor_alike (h : d.Resembles Eq Eq e) :
    Both (Method.Alike Eq) (selectConstructor d) (selectConstructor e) := by
  have hcandidate : ∀ m n : Method, m.Alike Eq n →
      (!m.parameters.isEmpty && !isCopyConstructor m d.name) = (!n.parameters.isEmpty && !isCopyConstructor n e.name) := by
    intro m n hmn
    rw [isCopyConstructor, isCopyConstructor, hmn.parameters_eq, h.name]
  have hfuller : ∀ (b c : Option Method), Both (Method.Alike Eq) b c → ∀ m n : Method, m.Alike Eq n →
      Both (Method.Alike Eq) (fuller b m) (fuller c n) := by
    intro b c hbc m n hmn
    cases hbc with
    | none => exact .some hmn
    | some hbc =>
      rw [fuller, fuller, hbc.parameters_eq, hmn.parameters_eq]
      split
      · exact .some hbc
      · exact .some hmn
  have hfilter := List.rel_filter (fun m n hmn => Bool.eq_iff_iff.1 (hcandidate m n hmn)) h.constructors
  exact List.rel_foldl (fun b c hbc m n hmn => hfuller b c hbc m n hmn) .none hfilter

theorem layoutConstants_alike (h : d.Resembles Eq Eq e) : layoutConstants d = layoutConstants e := by
  refine List.rel_foldl (P := Eq) (fun c c' hc f g hfg => ?_) rfl h.fields
  obtain rfl : c = c' := hc
  rw [applyConstant, applyConstant, FieldDeclaration.isStatic, FieldDeclaration.isFinal, FieldDeclaration.isStatic,
    FieldDeclaration.isFinal, hfg.modifiers, hfg.name, hfg.initializer.eq]

theorem enumVariants_alike (h : d.Resembles Eq Eq e) : enumVariants d.constants = enumVariants e.constants := by
  have hconstants := h.constants.imp fun _ _ => EnumConstant.Alike.eq
  rw [List.forall₂_eq_eq_eq] at hconstants
  rw [show d.constants = e.constants from hconstants]

theorem ofDeclaration_alike {f g : FieldDeclaration} (h : f.Alike Eq Eq g) : ofDeclaration f = ofDeclaration g := by
  rw [ofDeclaration, ofDeclaration, FieldDeclaration.isNullable, FieldDeclaration.isNullable, h.annotations, h.name,
    h.type, h.initializer.eq]

theorem ofParameter_alike (h : d.Resembles Eq Eq e) (p : Parameter) : ofParameter d p = ofParameter e p := by
  have hdeclared : Both (FieldDeclaration.Alike Eq Eq) (declaration? d p.name) (declaration? e p.name) :=
    find?_alike (List.rel_reverse h.fields) fun f g hfg => by
      rw [FieldDeclaration.isStatic, FieldDeclaration.isStatic, hfg.modifiers, hfg.name]
  rw [ofParameter, ofParameter]
  generalize declaration? d p.name = f, declaration? e p.name = g at hdeclared
  cases hdeclared with
  | none => rfl
  | some hfg =>
    dsimp only [Option.any_some, Option.bind_some, FieldDeclaration.isNullable]
    rw [hfg.annotations, hfg.initializer.eq]

/-- The same fields are read, if the types keep the same texts and their methods report the same limits. -/
theorem messageFields_alike (h : d.Resembles Eq Eq e) (hbounds : lengthBounds d = lengthBounds e) :
    messageFields d = messageFields e := by
  have hdeclared : declaredFields d = declaredFields e := by
    have hvisible : ∀ f g : FieldDeclaration, f.Alike Eq Eq g →
        (!f.isStatic && !ignoredNames.contains f.name) = (!g.isStatic && !ignoredNames.contains g.name) := by
      intro f g hfg
      rw [FieldDeclaration.isStatic, FieldDeclaration.isStatic, hfg.modifiers, hfg.name]
    have hfilter := List.rel_filter (fun f g hfg => Bool.eq_iff_iff.1 (hvisible f g hfg)) h.fields
    have hmap := List.rel_map (P := Eq) (fun f g hfg => ofDeclaration_alike hfg) hfilter
    rwa [List.forall₂_eq_eq_eq] at hmap
  have hselected := selectConstructor_alike h
  rw [messageFields, messageFields, withBounds, withBounds, hbounds, hdeclared]
  generalize selectConstructor d = m, selectConstructor e = n at hselected
  cases hselected with
  | none => rfl
  | some hmn =>
    dsimp only
    rw [hmn.parameters_eq, funext (ofParameter_alike h)]

end WireLayout.FieldList
