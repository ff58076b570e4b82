import WireLayout.Proofs.Java.Alike
import WireLayout.Proofs.Java.Ranges.States

/-! Members read from a text and from the same text with its comments blanked. Both readings see the same masked text, so
they take the same steps to the same ranges; what they cut from the two sources at a range is the same, unless a comment
stands in it. -/

namespace WireLayout.Java

open WireLayout.Text

/-! Two readings. -/

section

variable {α β γ δ : Type} {R : α → β → Prop} {S : γ → δ → Prop}

/-- What two readings give is related, where both give something. -/
def Related (R : α → β → Prop) (x : Checked α) (y : Checked β) : Prop := ∀ a b, x = .ok a → y = .ok b → R a b

theorem Related.pure {a : α} {b : β} (h : R a b) : Related R (pure a) (pure b) := by
  intro a' b' ha hb
  cases ha
  cases hb
  exact h

theorem Related.bind {x : Checked α} {y : Checked β} {f : α → Checked γ} {g : β → Checked δ} (h : Related R x y)
    (hf : ∀ a b, R a b → Related S (f a) (g b)) : Related S (x >>= f) (y >>= g) := by
  intro c d hc hd
  obtain ⟨a, ha, hc⟩ := Except.bind_eq_ok_iff.1 hc
  obtain ⟨b, hb, hd⟩ := Except.bind_eq_ok_iff.1 hd
  exact hf a b (h a b ha hb) c d hc hd

theorem Related.step {x : Checked α} {f : α → Checked γ} {g : α → Checked δ}
    (h : ∀ a, x = .ok a → Related S (f a) (g a)) : Related S (x >>= f) (x >>= g) := by
  intro c d hc hd
  obtain ⟨a, ha, hc⟩ := Except.bind_eq_ok_iff.1 hc
  obtain ⟨b, hb, hd⟩ := Except.bind_eq_ok_iff.1 hd
  obtain rfl : a = b := Except.ok.inj (ha.symm.trans hb)
  exact h a ha c d hc hd

theorem Related.mapM {xs : List α} {f : α → Checked γ} {g : α → Checked δ} (h : ∀ x ∈ xs, Related S (f x) (g x)) :
    Related (List.Forall₂ S) (xs.mapM f) (xs.mapM g) := by
  induction xs with
  | nil => exact .pure .nil
  | cons x xs ih =>
    rw [List.mapM_cons, List.mapM_cons]
    refine (h x List.mem_cons_self).bind fun c d hcd => ?_
    refine (ih fun y hy => h y (List.mem_cons_of_mem x hy)).bind fun cs ds hcds => ?_
    exact .pure (.cons hcd hcds)

end

/-- A kept type is the same, unless a mark of a comment stands in it. -/
def SameType (a b : String) : Prop := hasMark a.toList = false → a = b

/-- A kept value is the same, unless it has a comment when it is read on its own. -/
def SameValue (a b : String) : Prop := withoutComments a.toList = a.toList → a = b

/-- The type does not begin with a comment. -/
def Led (type : String) : Prop := opensComment type.toList = false

def Texts.ofSource (text : List Char) : Texts := ⟨mask text, text⟩

def Texts.uncommented (text : List Char) : Texts := ⟨mask text, withoutComments text⟩

variable {text : List Char} {s : Span}

namespace Texts

theorem ofSource_masked : (ofSource text).masked = mask text := rfl

theorem uncommented_masked : (uncommented text).masked = mask text := rfl

end Texts

open Texts

theorem related_demand : Related (fun _ _ => True) ((ofSource text).demand s) ((uncommented text).demand s) :=
  fun _ _ _ _ => trivial

theorem related_source (s : Span) :
    Related (fun _ _ => True) (textIn (ofSource text).source s) (textIn (uncommented text).source s) :=
  fun _ _ _ _ => trivial

theorem related_lead : Related (fun lead lead' => lead = lead' ∧
    (lead.rest.start < lead.rest.stop → ShowsAt (mask text) visible lead.rest.start))
      ((ofSource text).lead s) ((uncommented text).lead s) := by
  refine related_demand.bind fun _ _ _ => ?_
  intro a b ha hb
  exact ⟨Except.ok.inj (ha.symm.trans hb), leadFrom_spec ha⟩

theorem not_hasMark_of_append {as bs : List Char} (h : hasMark (as ++ bs) = false) : hasMark as = false := by
  by_contra hmark
  rw [hasMark_of_part (List.prefix_append as bs).isInfix (by simpa using hmark)] at h
  cases h

theorem not_opensComment_of_append {as bs : List Char} (h : opensComment (as ++ bs) = false) :
    opensComment as = false := by
  by_contra hopen
  rw [opensComment_append (by simpa using hopen)] at h
  cases h

theorem related_typedName (s : Span) :
    Related (fun x y => (∀ p ∈ x, Led p.1) → Both (fun p q => SameType p.1 q.1 ∧ p.2 = q.2) x y)
      ((ofSource text).typedName s) ((uncommented text).typedName s) := by
  refine related_demand.bind fun _ _ _ => ?_
  refine Related.step fun ⟨r, _⟩ hr => ?_
  refine Related.step fun ⟨dims, ⟨stop, hstop⟩⟩ _ => ?_
  refine Related.step fun ⟨nameStart, hname⟩ hbefore => ?_
  refine Related.step fun name hshown => ?_
  intro x y hx hy hled
  obtain ⟨part, hpart, hx⟩ := Except.bind_eq_ok_iff.1 hx
  obtain ⟨part', hpart', hy⟩ := Except.bind_eq_ok_iff.1 hy
  by_cases hnone : (name.isEmpty || name.head?.any isAsciiDigit) = true
  · rw [Bool.or_eq_true] at hnone
    rw [if_pos (by rcases hnone with h | h <;> simp [h])] at hx hy
    cases hx
    cases hy
    exact .none
  · have hname' : name ≠ [] := by rintro rfl; simp at hnone
    have hident : ShowsAt (mask text) isIdent nameStart := (backWhile_spec hbefore).2 (lt_of_textIn hshown hname')
    have hvisible : r.start < nameStart → ShowsAt (mask text) visible r.start := fun hlt =>
      ((trimRange_spec hr).2.2 (Nat.lt_of_lt_of_le hlt (Nat.le_trans hname hstop))).1
    obtain ⟨hsame, hempty⟩ := type_blanked hpart hpart' hvisible hident
    have hread : ∀ part : List Char, (name.isEmpty || (squeeze part).isEmpty || name.head?.any isAsciiDigit) = true ↔
        squeeze part = [] := fun part => by
      simp only [Bool.not_eq_true, Bool.or_eq_false_iff] at hnone
      simp [hnone.1, hnone.2]
    by_cases hnil : squeeze part = []
    · rw [if_pos ((hread part).2 hnil)] at hx
      rw [if_pos ((hread part').2 ((hempty (by rw [hnil]; rfl)).2 hnil))] at hy
      cases hx
      cases hy
      exact .none
    · rw [if_neg (mt (hread part).1 hnil)] at hx
      cases hx
      have hopen : opensComment (squeeze part) = false := by
        have hled := hled _ rfl
        rw [Led, String.toList_ofList] at hled
        exact not_opensComment_of_append hled
      rw [if_neg (mt (hread part').1 (mt (hempty hopen).1 hnil))] at hy
      cases hy
      refine .some ⟨fun hmark => ?_, rfl⟩
      rw [String.toList_ofList] at hmark
      rw [hsame (not_hasMark_of_append hmark)]

theorem related_parameter (piece : Span) :
    Related (fun x y => (∀ p ∈ x, Led p.type) → Both (Parameter.Alike SameType) x y)
      ((ofSource text).parameter piece) ((uncommented text).parameter piece) := by
  refine related_lead.bind fun lead lead' ⟨hlead, hvisible⟩ => ?_
  subst hlead
  refine (related_typedName lead.rest).bind fun x y hxy => .pure fun hled => ?_
  have hboth := hxy fun p hp => hled _ (Option.mem_map_of_mem _ hp)
  exact hboth.map fun p q hpq => ⟨rfl, hpq.1, hpq.2⟩

theorem related_parameters (s : Span) :
    Related (fun ps qs => (∀ p ∈ ps, Led p.type) → List.Forall₂ (Parameter.Alike SameType) ps qs)
      ((ofSource text).parameters s) ((uncommented text).parameters s) := by
  refine related_demand.bind fun _ _ _ => ?_
  refine Related.step fun pieces _ => ?_
  refine (Related.mapM fun piece _ => related_parameter piece).bind fun xs ys hxys => .pure fun hled => ?_
  exact forall₂_reduceOption hxys hled

/-! Fields. -/

theorem related_declarator {first : Nat} {piece : Span} (h : PieceOf (mask text) ',' first piece) :
    Related (fun x y => x.1 = y.1 ∧ Both SameValue x.2 y.2) ((ofSource text).declarator piece)
      ((uncommented text).declarator piece) := by
  refine Related.step fun shown hshown => ?_
  cases hindex : assignmentIndex shown with
  | none =>
    refine Related.step fun ⟨before, _⟩ _ => ?_
    exact .pure ⟨rfl, .none⟩
  | some k =>
    refine Related.step fun ⟨before, _⟩ _ => ?_
    intro x y hx hy
    obtain ⟨part, hpart, hx⟩ := Except.bind_eq_ok_iff.1 hx
    obtain ⟨part', hpart', hy⟩ := Except.bind_eq_ok_iff.1 hy
    cases hx
    cases hy
    refine ⟨rfl, .some fun halone => ?_⟩
    rw [String.toList_ofList] at halone
    have hsign : octetAt (mask text) (piece.start + k) = .ok '=' :=
      octetAt_of_textIn hshown (assignmentIndex_spec hindex)
    have hcode : ∀ before rest, text = before ++ rest → piece.start + k + 1 = (octetViews before).length →
        stateAt before rest = .inside .code := by
      rintro before rest rfl hlength
      exact code_of_sign hsign (not_neutral (by decide) (by decide)) (by decide) hlength
    rw [value_blanked hpart hpart' hcode (fun _ => (h.trimmed h.lt).2) halone]

theorem related_laterFields {first : Nat} {f g : FieldDeclaration} (hfg : f.Alike SameType SameValue g)
    {pieces : List Span} (h : ∀ piece ∈ pieces, PieceOf (mask text) ',' first piece) :
    Related (List.Forall₂ (FieldDeclaration.Alike SameType SameValue)) ((ofSource text).laterFields f pieces)
      ((uncommented text).laterFields g pieces) := by
  induction pieces with
  | nil => exact .pure .nil
  | cons piece pieces ih =>
    refine (related_declarator (h piece List.mem_cons_self)).bind fun x y hxy => ?_
    obtain ⟨before, initializer⟩ := x
    obtain ⟨before', initializer'⟩ := y
    obtain ⟨rfl, hinitializer⟩ := hxy
    refine Related.step fun shown _ => ?_
    dsimp only
    split
    · exact .pure .nil
    · have hlater := ih fun other hother => h other (List.mem_cons_of_mem piece hother)
      refine hlater.bind fun fs gs hmore => .pure (.cons ?_ hmore)
      exact ⟨hfg.annotations, hfg.modifiers, hfg.type, rfl, hinitializer⟩

theorem related_fields (s : Span) :
    Related (fun fs gs => (∀ f ∈ fs, Led f.type) → List.Forall₂ (FieldDeclaration.Alike SameType SameValue) fs gs)
      ((ofSource text).fields s) ((uncommented text).fields s) := by
  refine related_lead.bind fun lead lead' ⟨hlead, hvisible⟩ => ?_
  subst hlead
  refine (related_source s).bind fun _ _ _ => ?_
  refine Related.step fun pieces hpieces => ?_
  cases pieces with
  | nil => exact .pure fun _ => .nil
  | cons first rest =>
    have hspec : ∀ piece ∈ first :: rest, PieceOf (mask text) ',' lead.rest.start piece := pieceRanges_spec hpieces
    refine (related_declarator (hspec first List.mem_cons_self)).bind fun x y hxy => ?_
    obtain ⟨before, initializer⟩ := x
    obtain ⟨before', initializer'⟩ := y
    obtain ⟨rfl, hinitializer⟩ := hxy
    refine (related_typedName before).bind fun x y hxy => ?_
    -- the type of the first declarator is the type of all of them
    intro fs gs hfs hgs hled
    cases x with
    | none =>
      cases hxy nofun
      cases hfs
      cases hgs
      exact .nil
    | some typed =>
      obtain ⟨more, hmore, hfs⟩ := Except.bind_eq_ok_iff.1 hfs
      cases hfs
      have hboth := hxy (by rintro p ⟨rfl⟩; exact hled _ List.mem_cons_self)
      cases hboth with
      | some hpq =>
        obtain ⟨more', hmore', hgs⟩ := Except.bind_eq_ok_iff.1 hgs
        cases hgs
        have hrest : ∀ piece ∈ rest, PieceOf (mask text) ',' lead.rest.start piece := fun piece hpiece =>
          hspec piece (List.mem_cons_of_mem first hpiece)
        refine .cons ⟨rfl, rfl, hpq.1, hpq.2, hinitializer⟩ (related_laterFields ?_ hrest more more' hmore hmore')
        exact ⟨rfl, rfl, hpq.1, hpq.2, hinitializer⟩

/-! Methods. -/

theorem related_method (owner : String) (header : Span) (body : Option Span) :
    Related (fun m n => (∀ a ∈ m, ∀ type ∈ a.types, Led type) → Both (Method.Alike SameType) m n)
      ((ofSource text).method owner header body) ((uncommented text).method owner header body) := by
  refine related_lead.bind fun lead lead' hleads => ?_
  obtain ⟨rfl, hvisible⟩ := hleads
  refine Related.step fun r hr => ?_
  cases r with
  | none => exact .pure fun _ => .none
  | some open_ =>
    dsimp only [ofSource_masked, uncommented_masked]
    split
    · exact .pure fun _ => .none
    · rename_i close _ _
      refine Related.step fun before hb => ?_
      obtain ⟨before, hbefore⟩ := before
      refine Related.step fun nameStart hstart => ?_
      obtain ⟨nameStart, hnameStart⟩ := nameStart
      refine Related.step fun name hshown => ?_
      dsimp only
      split
      · exact .pure fun _ => .none
      · rename_i hname
        intro x y hx hy hled
        obtain ⟨part, hpart, hx⟩ := Except.bind_eq_ok_iff.1 hx
        obtain ⟨part', hpart', hy⟩ := Except.bind_eq_ok_iff.1 hy
        have hident : ShowsAt (mask text) isIdent nameStart :=
          (backWhile_spec hstart).2 (lt_of_textIn hshown (by rintro rfl; exact hname rfl))
        obtain ⟨hsame, hempty⟩ := type_blanked hpart hpart' (fun _ => hvisible (lt_of_parenthesisAt hr)) hident
        have hsameEmpty : opensComment (squeeze part) = false →
            (squeeze part').isEmpty = (squeeze part).isEmpty := fun hopen => by
          rw [Bool.eq_iff_iff, List.isEmpty_iff, List.isEmpty_iff]
          exact hempty hopen
        split at hx
        · rename_i hnone
          have hnil : squeeze part = [] := List.isEmpty_iff.1 (Bool.and_eq_true_iff.1 hnone).1
          rw [hsameEmpty (by rw [hnil]; rfl), if_pos hnone] at hy
          cases hx
          cases hy
          exact .none
        · rename_i hsome
          obtain ⟨ps, hps, hx⟩ := Except.bind_eq_ok_iff.1 hx
          obtain ⟨code, _, hx⟩ := Except.bind_eq_ok_iff.1 hx
          obtain ⟨inner, _, hx⟩ := Except.bind_eq_ok_iff.1 hx
          cases hx
          have hled := hled _ rfl
          have hopen : opensComment (squeeze part) = false := by
            by_cases hnil : squeeze part = []
            · rw [hnil]
              rfl
            · have hled := hled (String.ofList (squeeze part)) (by simp [Method.types, hnil])
              rwa [Led, String.toList_ofList] at hled
          rw [hsameEmpty hopen, if_neg hsome] at hy
          obtain ⟨qs, hqs, hy⟩ := Except.bind_eq_ok_iff.1 hy
          obtain ⟨code', _, hy⟩ := Except.bind_eq_ok_iff.1 hy
          obtain ⟨inner', _, hy⟩ := Except.bind_eq_ok_iff.1 hy
          cases hy
          refine .some ⟨rfl, rfl, ?_, rfl, ?_⟩
          · dsimp only
            split
            · exact .none
            · refine .some fun hmark => ?_
              rw [String.toList_ofList] at hmark
              rw [hsame hmark]
          · refine related_parameters _ ps qs hps hqs fun p hp => hled p.type ?_
            exact List.mem_append_right _ (List.mem_map_of_mem hp)

/-! Constants. -/

theorem related_argument {open_ : Nat} {piece : Span} (hopen : octetAt (mask text) open_ = .ok '(')
    (h : PieceOf (mask text) ',' (open_ + 1) piece) : Related SameValue
      ((String.ofList ∘ trim isSpace) <$> textIn (ofSource text).source piece)
      ((String.ofList ∘ trim isSpace) <$> textIn (uncommented text).source piece) := by
  intro a b ha hb halone
  obtain ⟨part, hpart, rfl⟩ := Except.map_eq_ok_iff.1 ha
  obtain ⟨part', hpart', rfl⟩ := Except.map_eq_ok_iff.1 hb
  rw [Function.comp_apply, String.toList_ofList] at halone
  have hcode : ∀ before rest, text = before ++ rest → piece.start = (octetViews before).length →
      stateAt before rest = .inside .code := by
    rintro before rest rfl hlength
    exact code_of_piece h hopen hlength
  have hsame := value_blanked hpart hpart' hcode (fun hlt => (h.trimmed hlt).2) halone
  rw [Function.comp_apply, Function.comp_apply, hsame]

theorem related_enumConstant (piece : Span) : Related (Both (EnumConstant.Alike SameValue))
    ((ofSource text).enumConstant piece) ((uncommented text).enumConstant piece) := by
  refine related_lead.bind fun lead lead' ⟨hlead, _⟩ => ?_
  subst hlead
  refine Related.step fun ⟨nameEnd, _⟩ _ => ?_
  dsimp only [ofSource_masked, uncommented_masked]
  split
  · exact .pure .none
  · refine Related.step fun name _ => ?_
    refine Related.step fun ⟨open_, _⟩ _ => ?_
    dsimp only
    split
    · refine Related.step fun x hx => ?_
      split
      · rename_i hparen
        split
        · exact .pure .none
        · refine Related.step fun arguments harguments => ?_
          have hopen : octetAt (mask text) open_ = .ok '(' := hparen ▸ hx
          refine (Related.mapM fun a ha => ?_).bind fun as bs hab => .pure (.some ⟨rfl, hab⟩)
          exact related_argument hopen (pieceRanges_spec harguments a ha)
      · exact .pure (.some ⟨rfl, .nil⟩)
    · exact .pure (.some ⟨rfl, .nil⟩)

theorem related_enumConstants (s : Span) : Related (List.Forall₂ (EnumConstant.Alike SameValue))
    ((ofSource text).enumConstants s) ((uncommented text).enumConstants s) := by
  refine related_demand.bind fun _ _ _ => ?_
  refine Related.step fun pieces _ => ?_
  refine (Related.mapM fun piece _ => related_enumConstant piece).bind fun xs ys hxys => .pure ?_
  exact forall₂_reduceOption (p := fun _ => True) (hxys.imp fun x y h (_ : ∀ a ∈ x, True) => h) fun _ _ => trivial

theorem related_bodyRanges (kind : TypeKind) (body : Span) (h : body.start ≤ body.stop) :
    Related (fun x y => List.Forall₂ (EnumConstant.Alike SameValue) x.1 y.1 ∧ x.2 = y.2)
      ((ofSource text).bodyRanges kind body h) ((uncommented text).bodyRanges kind body h) := by
  rw [Texts.bodyRanges, Texts.bodyRanges]
  split
  · refine related_demand.bind fun _ _ _ => ?_
    refine Related.step fun ⟨constantsEnd, _⟩ _ => ?_
    exact (related_enumConstants _).bind fun cs ds hcds => .pure ⟨hcds, rfl⟩
  · exact .pure ⟨.nil, rfl⟩

/-! Members. -/

namespace Member

/-- The types that a member keeps, those of nested types included. -/
def typeTexts : Member → List String
  | .field f => [f.type]
  | .constructor m | .method m => m.types
  | .nested t => t.withNested.flatMap TypeDeclaration.typeTexts

inductive Alike : Member → Member → Prop where
  | field {f g : FieldDeclaration} (h : f.Alike SameType SameValue g) : Alike (.field f) (.field g)
  | constructor {m n : Method} (h : m.Alike SameType n) : Alike (.constructor m) (.constructor n)
  | method {m n : Method} (h : m.Alike SameType n) : Alike (.method m) (.method n)
  | nested {d e : TypeDeclaration} (h : d.Alike SameType SameValue e) : Alike (.nested d) (.nested e)

end Member

/-- Members are alike if no type of the first ones begins with a comment. -/
def AlikeIfLed (ms ns : List Member) : Prop :=
  (∀ m ∈ ms, ∀ type ∈ m.typeTexts, Led type) → List.Forall₂ Member.Alike ms ns

theorem related_statementMembers (owner : String) (s : Span) : Related AlikeIfLed
    ((ofSource text).statementMembers owner s) ((uncommented text).statementMembers owner s) := by
  refine Related.step fun ⟨statement, _⟩ _ => ?_
  dsimp only [ofSource_masked, uncommented_masked]
  split
  · exact .pure fun _ => .nil
  · refine Related.step fun shown _ => ?_
    split
    · refine (related_method owner statement none).bind fun m n hmn => .pure fun hled => ?_
      have hboth := hmn fun a ha type htype => hled (.method a) (by simpa using ha) type htype
      cases hboth with
      | none => exact .nil
      | some h => exact .cons (.method h) .nil
    · refine (related_fields statement).bind fun fs gs hfgs => .pure fun hled => ?_
      have hall := hfgs fun f hf => hled (.field f) (List.mem_map_of_mem hf) f.type List.mem_cons_self
      rw [List.forall₂_map_left_iff, List.forall₂_map_right_iff]
      exact hall.imp fun f g h => .field h

theorem related_blockMembers (owner : String) (header body : Span) : Related AlikeIfLed
    ((ofSource text).blockMembers owner header body) ((uncommented text).blockMembers owner header body) := by
  refine Related.step fun ⟨header, _⟩ _ => ?_
  refine (related_method owner header (some body)).bind fun m n hmn => ?_
  intro x y hx hy hled
  cases m with
  | none =>
    cases hmn nofun
    cases hx
    cases hy
    exact .nil
  | some m =>
    cases hx
    have htypes : ∀ type ∈ m.types, Led type := by
      split at hled
      · exact hled _ (List.mem_singleton.2 rfl)
      · exact hled _ (List.mem_singleton.2 rfl)
    have hboth := hmn (by rintro a ⟨rfl⟩; exact htypes)
    cases hboth with
    | some h =>
      cases hy
      rw [h.returnType.isNone_eq]
      split
      · exact .cons (.constructor h) .nil
      · exact .cons (.method h) .nil

end WireLayout.Java
