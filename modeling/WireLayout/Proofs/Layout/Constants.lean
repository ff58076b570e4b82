import Mathlib.Data.List.Induction
import WireLayout.FieldList
import WireLayout.Proofs.Layout.Numerals

/-! Where the layout constants of a message come from. Each of the seven is what the last usable declaration of its name
says, and nothing else that a type declares has a part in it: an initialiser that cannot be used is passed over wherever
it stands, and a declaration of one constant leaves the other six alone. The reader takes some texts for numbers that are
no integer literals; this is so where no numeric constant is declared by one of them. -/

namespace WireLayout

open WireLayout.Java WireLayout.Text WireLayout.IntLiteral

variable {α : Type} {name literal : String} {f : FieldDeclaration} {n : Nat}

/-! What a declaration states. -/

/-- A literal of the language for a number that is no less than zero. -/
def Denotes (literal : String) (n : Nat) : Prop :=
  ∃ (t : IntegerText) (m : Nat), literal.toList = t.text ∧ t.Spells m ∧ m ≤ maxLong ∧ t.value m = n

/-- A literal for a truth value. -/
def DenotesTruth (literal : String) (b : Bool) : Prop := trimSpaces literal = if b then "true" else "false"

def IsConstant (f : FieldDeclaration) : Prop := "static" ∈ f.modifiers ∧ "final" ∈ f.modifiers

/-- The declaration of a constant by a literal. -/
def States (denotes : String → α → Prop) (name : String) (f : FieldDeclaration) (a : α) : Prop :=
  IsConstant f ∧ f.name = name ∧ ∃ literal, f.initializer = some literal ∧ denotes literal a

/-- What the last of the declarations states that state something. -/
def IsLast (states : FieldDeclaration → α → Prop) (fields : List FieldDeclaration) : Option α → Prop
  | some a => ∃ before f after, fields = before ++ f :: after ∧ states f a ∧ ∀ g ∈ after, ∀ b, ¬states g b
  | none => ∀ f ∈ fields, ∀ a, ¬states f a

def SetsConstant (f : FieldDeclaration) : Prop :=
  (∃ b, States DenotesTruth "IS_COMPRESSED" f b) ∨
    ∃ name ∈ Constants.names, name ≠ "IS_COMPRESSED" ∧ ∃ n, States Denotes name f n

namespace Constants

/-- The constants with what is said about some of them. All numbers but the size limit are cut off at the largest one
of 32 bits. -/
def restated (count : String → Option Nat) (truth : String → Option Bool) (constants : Constants) : Constants where
  packetId := ((count "PACKET_ID").map (min · maxWord)).getD constants.packetId
  isCompressed := (truth "IS_COMPRESSED").getD constants.isCompressed
  nullableBitFieldSize := ((count "NULLABLE_BIT_FIELD_SIZE").map (min · maxWord)).getD constants.nullableBitFieldSize
  fixedBlockSize := ((count "FIXED_BLOCK_SIZE").map (min · maxWord)).getD constants.fixedBlockSize
  variableFieldCount := ((count "VARIABLE_FIELD_COUNT").map (min · maxWord)).getD constants.variableFieldCount
  variableBlockStart := ((count "VARIABLE_BLOCK_START").map (min · maxWord)).getD constants.variableBlockStart
  maxSize := (count "MAX_SIZE").getD constants.maxSize

end Constants

/-! What the reader takes for the value of a literal. -/

/-- The number that is read from an initialiser; one below zero is of no use. -/
def count? (literal : String) : Option Nat :=
  match intLiteral? literal with
  | some (.ofNat n) => some n
  | _ => none

def truth? (literal : String) : Option Bool :=
  if trimSpaces literal = "true" then some true
  else if trimSpaces literal = "false" then some false
  else none

theorem count?_eq_some_iff : count? literal = some n ↔ intLiteral? literal = some (n : Int) := by
  rw [count?]
  cases intLiteral? literal with
  | none => simp
  | some value => cases value <;> simp

theorem truth?_eq_some_iff {b : Bool} : truth? literal = some b ↔ DenotesTruth literal b := by
  rw [truth?, DenotesTruth]
  split
  · rename_i htrue
    cases b <;> simp [htrue]
  · rename_i htrue
    split
    · rename_i hfalse
      cases b <;> simp [hfalse]
    · rename_i hfalse
      cases b <;> simp [htrue, hfalse]

theorem Denotes.count? (h : Denotes literal n) : count? literal = some n := by
  obtain ⟨t, m, htext, hspells, hm, hvalue⟩ := h
  rw [count?_eq_some_iff, intLiteral?, htext, IntegerText.read?_text hspells hm, hvalue]

/-- What is read from the text as a number that is no less than zero is an integer literal: it has one sign at most, no
underscore at either end of its digits, and no second letter behind them. -/
def IsPlainNumber (literal : String) : Prop :=
  ∀ (t : Numeral) (n : Nat), trim isSpace literal.toList = t.text → t.Spells n → 0 ≤ t.value n →
    ∃ (u : IntegerText) (m : Nat), literal.toList = u.text ∧ u.Spells m ∧ m ≤ maxLong

theorem isPlainNumber_of_spells {u : IntegerText} (h : u.Spells n) (hn : n ≤ maxLong) :
    IsPlainNumber (String.ofList u.text) :=
  fun _ _ _ _ _ => ⟨u, n, String.toList_ofList, h, hn⟩

theorem isPlainNumber_of_unread (h : intLiteral? literal = none) : IsPlainNumber literal := by
  intro t n htext hspells
  have hread := (Numeral.read?_of_spells hspells htext).1
  rw [intLiteral?] at h
  rw [h] at hread
  cases hread

theorem overflows_iff_exists : IntLiteral.overflows literal.toList = true ↔
    ∃ (t : Numeral) (n : Nat), trim isSpace literal.toList = t.text ∧ t.Spells n ∧ ¬ IsLong (t.value n) := by
  rw [← checkedLiteral_eq_overflow_iff, checkedLiteral]
  split <;> simp_all

theorem IsPlainNumber.overflows_eq_false (h : IsPlainNumber literal) : IntLiteral.overflows literal.toList = false := by
  by_contra hover
  obtain ⟨t, n, htext, hspells, hlong⟩ := overflows_iff_exists.1 (Bool.eq_true_of_not_eq_false hover)
  rw [Numeral.isLong_value_iff hspells, not_not] at hlong
  have hvalue : 0 ≤ t.value n := by
    rw [Numeral.value, signedValue, if_pos hlong.1, hlong.2]
    decide
  obtain ⟨u, m, hu, hm, hle⟩ := h t n htext hspells hvalue
  refine hover (IntLiteral.overflows_eq_false fun hmin => ?_)
  rw [hu, IntegerText.read?_text hm hle, Option.some.injEq, IntegerText.value, minLong] at hmin
  unfold maxLong at hle
  split at hmin <;> omega

theorem IsPlainNumber.count?_eq_some_iff (h : IsPlainNumber literal) : count? literal = some n ↔ Denotes literal n := by
  refine ⟨fun hread => ?_, Denotes.count?⟩
  rw [WireLayout.count?_eq_some_iff] at hread
  obtain ⟨t, k, htext, hspells, hvalue⟩ := intLiteral?_eq_some_iff.1 hread
  have hnonneg : 0 ≤ t.value k := by
    split at hvalue
    · rw [← hvalue]
      exact Int.natCast_nonneg n
    · unfold minLong at hvalue
      omega
  obtain ⟨u, m, hu, hm, hle⟩ := h t k htext hspells hnonneg
  rw [intLiteral?, hu, IntegerText.read?_text hm hle] at hread
  exact ⟨u, m, hu, hm, hle, Option.some.inj hread⟩

/-- The condition is exact: what is read from a text is what it denotes as a literal, and without overflow, just then. -/
theorem isPlainNumber_iff : IsPlainNumber literal ↔
    IntLiteral.overflows literal.toList = false ∧ ∀ n, count? literal = some n ↔ Denotes literal n := by
  refine ⟨fun h => ⟨h.overflows_eq_false, fun n => h.count?_eq_some_iff⟩, fun ⟨hover, hread⟩ t k htext hspells hnonneg => ?_⟩
  have hlong : IsLong (t.value k) := by
    by_contra hlong
    rw [overflows_iff_exists.2 ⟨t, k, htext, hspells, hlong⟩] at hover
    cases hover
  have hcount : count? literal = some (t.value k).toNat := by
    refine count?_eq_some_iff.2 (intLiteral?_eq_some_iff.2 ⟨t, k, htext, hspells, ?_⟩)
    rw [if_pos hlong, Int.toNat_of_nonneg hnonneg]
  obtain ⟨u, m, hu, hm, hle, -⟩ := (hread _).1 hcount
  exact ⟨u, m, hu, hm, hle⟩

/-- No numeric constant is declared by a text that is read as a number and is no literal. -/
def DeclaresPlainly (fields : List FieldDeclaration) : Prop :=
  ∀ f ∈ fields, IsConstant f → f.name ∈ Constants.names → f.name ≠ "IS_COMPRESSED" →
    ∀ literal, f.initializer = some literal → IsPlainNumber literal

def stated? (read : String → Option α) (f : FieldDeclaration) (name : String) : Option α :=
  if f.isStatic && f.isFinal && f.name = name then f.initializer.bind read else none

/-- What is read from the last declaration of a constant from which something can be read. -/
def lastStated? (read : String → Option α) (fields : List FieldDeclaration) (name : String) : Option α :=
  (fields.filterMap fun f => stated? read f name).getLast?

theorem isConstant_iff : (f.isStatic && f.isFinal) = true ↔ IsConstant f := by
  rw [Bool.and_eq_true, FieldDeclaration.isStatic, FieldDeclaration.isFinal, List.contains_iff_mem, List.contains_iff_mem,
    IsConstant]

theorem stated?_eq_some_iff {read : String → Option α} {denotes : String → α → Prop} {a : α}
    (h : IsConstant f → f.name = name → ∀ literal, f.initializer = some literal → (read literal = some a ↔ denotes literal a)) :
    stated? read f name = some a ↔ States denotes name f a := by
  rw [stated?, Option.ite_none_right_eq_some, Bool.and_eq_true, isConstant_iff, decide_eq_true_iff, and_assoc, States]
  refine and_congr_right fun hconstant => and_congr_right fun hname => ?_
  rw [Option.bind_eq_some_iff]
  exact exists_congr fun literal => and_congr_right fun hinit => h hconstant hname literal hinit

theorem stated?_truth {b : Bool} : stated? truth? f name = some b ↔ States DenotesTruth name f b :=
  stated?_eq_some_iff fun _ _ _ _ => truth?_eq_some_iff

theorem DeclaresPlainly.stated?_count {fields : List FieldDeclaration} (h : DeclaresPlainly fields) (hf : f ∈ fields)
    (hname : name ∈ Constants.names) (hnumeric : name ≠ "IS_COMPRESSED") :
    stated? count? f name = some n ↔ States Denotes name f n :=
  stated?_eq_some_iff fun hconstant heq literal hinit =>
    (isPlainNumber_iff.1 (h f hf hconstant (heq ▸ hname) (heq ▸ hnumeric) literal hinit)).2 n

/-- The last value that is read is the one that is stated last, by induction on the declarations. -/
theorem isLast_getLast? {states : FieldDeclaration → α → Prop} {read : FieldDeclaration → Option α}
    {fields : List FieldDeclaration} (h : ∀ f ∈ fields, ∀ a, read f = some a ↔ states f a) :
    IsLast states fields (fields.filterMap read).getLast? := by
  induction fields using List.reverseRecOn with
  | nil => exact nofun
  | append_singleton fields f ih =>
    have hf := h f (List.mem_append_right _ List.mem_cons_self)
    have hlast := ih fun g hg => h g (List.mem_append_left _ hg)
    rw [List.filterMap_append]
    cases hread : read f with
    | some a =>
      have hnow : ([f].filterMap read) = [a] := by simp [hread]
      rw [hnow, List.getLast?_concat]
      exact ⟨fields, f, [], rfl, (hf a).1 hread, nofun⟩
    | none =>
      have hnow : ([f].filterMap read) = [] := by simp [hread]
      have hsilent : ∀ b, ¬states f b := fun b hb => by
        rw [(hf b).2 hb] at hread
        cases hread
      rw [hnow, List.append_nil]
      cases hprevious : (fields.filterMap read).getLast? with
      | none =>
        rw [hprevious] at hlast
        refine List.forall_mem_append.2 ⟨hlast, List.forall_mem_singleton.2 hsilent⟩
      | some a =>
        rw [hprevious] at hlast
        obtain ⟨before, g, after, hsplit, hg, hafter⟩ := hlast
        refine ⟨before, g, after ++ [f], by rw [hsplit, List.append_assoc, List.cons_append], hg, ?_⟩
        exact List.forall_mem_append.2 ⟨hafter, List.forall_mem_singleton.2 hsilent⟩

/-! One declaration. -/

theorem stated?_of_not_constant (h : (f.isStatic && f.isFinal) = false) (read : String → Option α) :
    stated? read f name = none := by
  simp [stated?, h]

theorem stated?_of_constant (h : (f.isStatic && f.isFinal) = true) (read : String → Option α) :
    stated? read f name = if f.name = name then f.initializer.bind read else none := by
  simp [stated?, h]

namespace Constants

variable {constants : Constants}

theorem declare?_truth : constants.declare? "IS_COMPRESSED" literal =
    (truth? literal).map fun b => { constants with isCompressed := b } := by
  rw [declare?, if_pos rfl, truth?]
  split
  · rename_i h
    rw [if_pos h]
    rfl
  · rename_i h
    rw [h, if_neg (by decide), if_pos rfl]
    rfl
  · rename_i htrue hfalse
    rw [if_neg htrue, if_neg hfalse]
    rfl

theorem declare?_count (hname : name ≠ "IS_COMPRESSED") :
    constants.declare? name literal = (count? literal).bind (constants.setNumber? name) := by
  rw [declare?, if_neg hname, count?]
  cases intLiteral? literal with
  | none => rfl
  | some value => cases value <;> rfl

theorem applyConstant_eq (constants : Constants) (f : FieldDeclaration) :
    FieldList.applyConstant constants f = constants.restated (stated? count? f) (stated? truth? f) := by
  unfold FieldList.applyConstant restated
  cases hconstant : f.isStatic && f.isFinal with
  | false => simp [stated?_of_not_constant hconstant]
  | true =>
    simp only [stated?_of_constant hconstant, if_true]
    cases f.initializer with
    | none => simp
    | some literal =>
      simp only [Option.bind_some]
      by_cases htruth : f.name = "IS_COMPRESSED"
      · rw [htruth, declare?_truth]
        cases truth? literal <;> simp
      · rw [declare?_count htruth]
        cases count? literal with
        | none => simp [htruth]
        | some n =>
          rw [Option.bind_some]
          unfold setNumber?
          split <;> simp_all

/-! All declarations. -/

theorem restated_restated (count count' : String → Option Nat) (truth truth' : String → Option Bool) :
    (constants.restated count truth).restated count' truth' =
      constants.restated (fun name => count' name <|> count name) fun name => truth' name <|> truth name := by
  simp [restated, Option.getD_or, Option.map_or]

theorem restated_congr {count count' : String → Option Nat} {truth truth' : String → Option Bool}
    (htruth : truth "IS_COMPRESSED" = truth' "IS_COMPRESSED")
    (hcount : ∀ name ∈ names, name ≠ "IS_COMPRESSED" → count name = count' name) :
    constants.restated count truth = constants.restated count' truth' := by
  unfold restated
  rw [htruth, hcount "PACKET_ID" (by decide) (by decide), hcount "NULLABLE_BIT_FIELD_SIZE" (by decide) (by decide),
    hcount "FIXED_BLOCK_SIZE" (by decide) (by decide), hcount "VARIABLE_FIELD_COUNT" (by decide) (by decide),
    hcount "VARIABLE_BLOCK_START" (by decide) (by decide), hcount "MAX_SIZE" (by decide) (by decide)]

end Constants

theorem lastStated?_concat (read : String → Option α) (fields : List FieldDeclaration) (f : FieldDeclaration) :
    lastStated? read (fields ++ [f]) = fun name => stated? read f name <|> lastStated? read fields name := by
  funext name
  rw [lastStated?, List.filterMap_append]
  cases h : stated? read f name <;> simp [lastStated?, h]

theorem foldl_applyConstant (fields : List FieldDeclaration) :
    fields.foldl FieldList.applyConstant {} =
      ({} : Constants).restated (lastStated? count? fields) (lastStated? truth? fields) := by
  induction fields using List.reverseRecOn with
  | nil => rfl
  | append_singleton fields f ih =>
    rw [List.foldl_append, List.foldl_cons, List.foldl_nil, ih, Constants.applyConstant_eq,
      Constants.restated_restated, lastStated?_concat, lastStated?_concat]

/-- A declaration that says nothing about a constant might as well not be there. -/
theorem lastStated?_insert {read : String → Option α} (h : stated? read f name = none) (before after : List FieldDeclaration) :
    lastStated? read (before ++ f :: after) name = lastStated? read (before ++ after) name := by
  simp [lastStated?, h]

/-- No number of a constant overflows where numeric constants are declared by literals. -/
theorem DeclaresPlainly.constantsOverflow_eq_false {decl : TypeDeclaration} (h : DeclaresPlainly decl.fields) :
    FieldList.constantsOverflow decl = false := by
  rw [FieldList.constantsOverflow, List.any_eq_false]
  intro f hf hover
  rw [Bool.and_eq_true, Bool.and_eq_true, isConstant_iff, Constants.isRecognized, List.contains_iff_mem,
    Option.any_eq_true] at hover
  obtain ⟨⟨hconstant, hname⟩, literal, hinit, hover⟩ := hover
  rw [Constants.overflows, Bool.and_eq_true, decide_eq_true_iff] at hover
  rw [(isPlainNumber_iff.1 (h f hf hconstant hname hover.1 literal hinit)).1] at hover
  cases hover.2

/-- Each constant is what the last usable declaration of its name says, and zero or false where there is none. A
declaration that sets no constant can be left out, wherever it stands. -/
theorem layoutConstants_of_last {decl : TypeDeclaration} (h : DeclaresPlainly decl.fields) :
    (∃ (count : String → Option Nat) (truth : Option Bool),
      (∀ name ∈ Constants.names, name ≠ "IS_COMPRESSED" → IsLast (States Denotes name) decl.fields (count name)) ∧
        IsLast (States DenotesTruth "IS_COMPRESSED") decl.fields truth ∧
        FieldList.layoutConstants decl = ({} : Constants).restated count fun _ => truth) ∧
      (∀ before f after, decl.fields = before ++ f :: after → ¬ SetsConstant f →
        FieldList.layoutConstants decl = FieldList.layoutConstants { decl with fields := before ++ after }) ∧
      FieldList.constantsOverflow decl = false := by
  refine ⟨⟨lastStated? count? decl.fields, lastStated? truth? decl.fields "IS_COMPRESSED", ?_, ?_, ?_⟩, ?_,
    h.constantsOverflow_eq_false⟩
  · exact fun name hname hnumeric => isLast_getLast? fun f hf n => h.stated?_count hf hname hnumeric
  · exact isLast_getLast? fun f _ b => stated?_truth
  · exact (foldl_applyConstant decl.fields).trans (Constants.restated_congr rfl fun _ _ _ => rfl)
  · intro before f after hfields hsets
    obtain ⟨htruth, hcount⟩ := not_or.1 hsets
    have hf : f ∈ decl.fields := by
      rw [hfields]
      exact List.mem_append_right _ List.mem_cons_self
    have hsilent : stated? truth? f "IS_COMPRESSED" = none :=
      Option.eq_none_iff_forall_ne_some.2 fun b hb => htruth ⟨b, stated?_truth.1 hb⟩
    have hnone : ∀ name ∈ Constants.names, name ≠ "IS_COMPRESSED" → stated? count? f name = none := fun name hname hne =>
      Option.eq_none_iff_forall_ne_some.2 fun n hn => hcount ⟨name, hname, hne, n, (h.stated?_count hf hname hne).1 hn⟩
    unfold FieldList.layoutConstants
    rw [foldl_applyConstant, foldl_applyConstant, hfields]
    exact Constants.restated_congr (lastStated?_insert hsilent before after)
      fun name hname hne => lastStated?_insert (hnone name hname hne) before after

namespace Overridden

def constant (name literal : String) : FieldDeclaration where
  annotations := []
  modifiers := ["public", "static", "final"]
  type := "int"
  name
  initializer := some literal
  text := ""

def message (fields : List FieldDeclaration) : TypeDeclaration where
  kind := .classType
  name := "Chat"
  modifiers := []
  superclasses := []
  interfaces := []
  fields
  constructors := []
  methods := []
  constants := []
  nested := []

def sixteen : IntegerText := ⟨[], none, ['0', 'x', '1', '0'], none, []⟩

def seventeen : IntegerText := ⟨[' '], none, ['1', '7'], none, []⟩

def large : IntegerText := ⟨[], none, "5_000_000_000".toList, some 'L', []⟩

def negative : IntegerText := ⟨[], some '-', ['1'], none, []⟩

theorem spells_decimal {t : IntegerText} (hbefore : t.before.all isSpace = true) (hsign : ∀ c ∈ t.sign, c = '-' ∨ c = '+')
    (hdigits : (t.digits.filter (· ≠ '_')).map asciiLower = Nat.toDigits 10 n)
    (hhead : t.digits.head? ≠ some '_') (hlast : t.digits.getLast? ≠ some '_') (hsuffix : ∀ c ∈ t.suffix, isSuffix c = true)
    (hafter : t.after = []) : t.Spells n := by
  refine ⟨List.all_eq_true.1 hbefore, hsign, .decimal ⟨hdigits, ?_, ?_⟩, hsuffix, by simp [hafter]⟩
  · rintro c hc rfl
    exact hhead hc
  · rintro c hc rfl
    exact hlast hc

theorem spells_sixteen : sixteen.Spells 16 := by
  have hdigits : Digits 16 0 16 ['1', '0'] := ⟨by decide, by simp, by simp⟩
  exact ⟨by simp [sixteen], by simp [sixteen], .marked (by decide) hdigits, by simp [sixteen], by simp [sixteen]⟩

theorem spells_seventeen : seventeen.Spells 17 :=
  spells_decimal (by decide) (by simp [seventeen]) (by decide) (by decide) (by decide) (by simp [seventeen]) rfl

theorem spells_large : large.Spells 5000000000 :=
  spells_decimal rfl (by simp [large]) (by decide +kernel) (by decide) (by decide) (by simp [large, isSuffix]) rfl

theorem spells_negative : negative.Spells 1 :=
  spells_decimal rfl (by simp [negative]) (by decide) (by decide) (by decide) (by simp [negative]) rfl

/-- A reference to another constant is no literal. -/
def borrowed : FieldDeclaration := constant "PACKET_ID" "Other.PACKET_ID"

/-- Declared more than once, and beyond 32 bits. -/
def earlier : List FieldDeclaration :=
  [constant "PACKET_ID" (String.ofList sixteen.text), constant "PACKET_ID" (String.ofList seventeen.text),
    constant "FIXED_BLOCK_SIZE" (String.ofList large.text), constant "MAX_SIZE" (String.ofList large.text)]

def later : List FieldDeclaration := [constant "IS_COMPRESSED" " true", constant "MAX_SIZE" (String.ofList negative.text)]

theorem declaresPlainly : DeclaresPlainly (earlier ++ borrowed :: later) := by
  have hall : ∀ f ∈ earlier ++ borrowed :: later, ∀ literal, f.initializer = some literal → IsPlainNumber literal := by
    have hlarge := isPlainNumber_of_spells spells_large (by decide)
    simp only [earlier, later, List.cons_append, List.nil_append, List.forall_mem_cons, List.not_mem_nil, false_implies,
      implies_true, and_true]
    refine ⟨?_, ?_, ?_, ?_, ?_, ?_, ?_⟩ <;> rintro _ ⟨⟩
    · exact isPlainNumber_of_spells spells_sixteen (by decide)
    · exact isPlainNumber_of_spells spells_seventeen (by decide)
    · exact hlarge
    · exact hlarge
    · exact isPlainNumber_of_unread (by decide +kernel)
    · exact isPlainNumber_of_unread (by decide +kernel)
    · exact isPlainNumber_of_spells spells_negative (by decide)
  exact fun f hf _ _ _ => hall f hf

theorem not_setsConstant_borrowed : ¬SetsConstant borrowed := by
  rintro (⟨b, -, hname, -⟩ | ⟨name, -, -, n, -, -, literal, hinit, hdenotes⟩)
  · exact absurd hname (by decide)
  · obtain rfl := Option.some.inj hinit
    have hnone : count? "Other.PACKET_ID" = none := by decide +kernel
    rw [hdenotes.count?] at hnone
    cases hnone

end Overridden

open Overridden in
theorem layoutConstants_of_last_overridden :
    DeclaresPlainly (message (earlier ++ borrowed :: later)).fields ∧ ¬SetsConstant borrowed ∧
      FieldList.layoutConstants (message (earlier ++ borrowed :: later)) =
        { packetId := 17, isCompressed := true, fixedBlockSize := 4294967295, maxSize := 5000000000 } ∧
      FieldList.layoutConstants (message (earlier ++ borrowed :: later)) = FieldList.layoutConstants (message (earlier ++ later)) := by
  have hplain : DeclaresPlainly (message (earlier ++ borrowed :: later)).fields := declaresPlainly
  obtain ⟨-, hframe, -⟩ := layoutConstants_of_last hplain
  exact ⟨declaresPlainly, not_setsConstant_borrowed, by decide +kernel,
    hframe earlier borrowed later rfl not_setsConstant_borrowed⟩

open Overridden in
/-- An underscore in front of the digits makes no literal, and still the last declaration is used; and a number behind two
signs overflows. -/
theorem layoutConstants_of_underscore :
    (Denotes "7" 7 ∧ (∀ n, ¬Denotes "_5" n) ∧
      FieldList.layoutConstants (message [constant "PACKET_ID" "7", constant "PACKET_ID" "_5"]) = { packetId := 5 }) ∧
      FieldList.constantsOverflow (message [constant "MAX_SIZE" "--9223372036854775808"]) = true := by
  refine ⟨⟨?_, ?_, by decide +kernel⟩, by decide +kernel⟩
  · refine ⟨⟨[], none, ['7'], none, []⟩, 7, rfl, ?_, by decide, rfl⟩
    exact spells_decimal rfl (by simp) (by decide) (by decide) (by decide) (by simp) rfl
  · rintro n ⟨t, m, htext, hspells, -, -⟩
    have hcore : t.core = ['_', '5'] := by
      rw [← IntegerText.trim_text hspells, ← htext]
      decide +kernel
    exact IntegerText.head_ne hspells '_' (by rw [hcore]; rfl) rfl

end WireLayout
