import WireLayout.Proofs.Java.Declarators
import WireLayout.Proofs.Java.Header

/-! Types as they are written: dotted names with type arguments and dimensions. Such a text has its commas in angle
brackets and its brackets matched, and none of its words begins a type or modifies a declaration, so that it can
stand before a name and before a parenthesis without being taken for something else. -/

namespace WireLayout.Java

open WireLayout.Text

variable {as bs cs ds t u w rest : List Char} {c : Char}

/-- The words that begin a type and those that modify a declaration. -/
def reservedWords : List (List Char) := typeKeywords.map (·.1) ++ modifierWords.map String.toList

/-- A name of ASCII that is not reserved. -/
structure Identifier (w : List Char) : Prop where
  nonempty : w ≠ []
  ident : ∀ c ∈ w, isIdent c = true
  head : ∀ c ∈ w.head?, isAsciiDigit c = false
  free : w ∉ reservedWords

inductive TypeForm where
  | type | arguments

/-- The spellings of types, with spaces between their parts. -/
inductive Spells : TypeForm → List Char → Prop where
  | name {w : List Char} (hw : Identifier w) : Spells .type w
  | member {t u : List Char} (ht : Spells .type t) (hu : Spells .type u) : Spells .type (t ++ '.' :: u)
  | generic {t as : List Char} (ht : Spells .type t) (has : Spells .arguments as) :
      Spells .type (t ++ '<' :: (as ++ ['>']))
  | array {t : List Char} (ht : Spells .type t) : Spells .type (t ++ ['[', ']'])
  | indented {form : TypeForm} {t : List Char} (ht : Spells form t) : Spells form (' ' :: t)
  | spaced {form : TypeForm} {t : List Char} (ht : Spells form t) : Spells form (t ++ [' '])
  | argument {t : List Char} (ht : Spells .type t) : Spells .arguments t
  | wildcard : Spells .arguments ['?']
  | bounded {bound t : List Char} (hbound : bound = "extends".toList ∨ bound = "super".toList) (ht : Spells .type t) :
      Spells .arguments ('?' :: ' ' :: (bound ++ ' ' :: t))
  | more {as bs : List Char} (has : Spells .arguments as) (hbs : Spells .arguments bs) :
      Spells .arguments (as ++ ',' :: bs)

/-- A type in normal spacing. -/
structure IsTypeText (t : List Char) : Prop where
  spells : Spells .type t
  normal : squeeze t = t

def codes (cs : List Char) : List Cell := cs.map Cell.code

@[simp] theorem codes_nil : codes [] = [] := rfl

@[simp] theorem codes_cons : codes (c :: cs) = Cell.code c :: codes cs := rfl

@[simp] theorem codes_append : codes (as ++ bs) = codes as ++ codes bs := List.map_append

@[simp] theorem codes_eq_nil : codes cs = [] ↔ cs = [] := List.map_eq_nil_iff

@[simp] theorem views_codes : views (codes cs) = cs := by
  simp [views, codes, Function.comp_def]

@[simp] theorem verbatim_codes : verbatim (codes cs) = cs := by
  simp [verbatim, codes, Cell.code, Function.comp_def]

@[simp] theorem shownText_codes : shownText (codes cs) = String.ofList cs := by rw [shownText, views_codes]

theorem forall_codes {p : Cell → Prop} : (∀ x ∈ codes cs, p x) ↔ ∀ c ∈ cs, p (Cell.code c) := List.forall_mem_map

theorem head?_codes : (codes cs).head? = cs.head?.map Cell.code := List.head?_map

/-! Names and the marks between them. -/

/-- The characters between the words of a type, its dimensions aside. -/
def typeMarks : List Char := [' ', '.', '<', '>', ',', '?']

/-- A text of names, each set off by marks, and of dimensions. -/
inductive Tokens : List Char → Prop where
  | nil : Tokens []
  | mark {c : Char} {cs : List Char} (hc : c ∈ typeMarks) (h : Tokens cs) : Tokens (c :: cs)
  | dimension {cs : List Char} (h : Tokens cs) : Tokens ('[' :: ']' :: cs)
  | word {w cs : List Char} (hw : Identifier w) (hstop : ∀ c ∈ cs.head?, isWordOrDollar c = false) (h : Tokens cs) :
      Tokens (w ++ cs)

theorem isIdent_bracket : isIdent '[' = false ∧ isIdent ']' = false := by decide

theorem ascii_typeMark (h : c ∈ typeMarks) : c.toNat < 128 ∧ isIdent c = false := by
  have hall : typeMarks.all (fun m => decide (m.toNat < 128) && !isIdent m) = true := by decide
  simpa using List.all_eq_true.1 hall c h

theorem isWordOrDollar_typeMark (h : c ∈ typeMarks) : isWordOrDollar c = false :=
  isWordOrDollar_of_ascii (ascii_typeMark h).1 (ascii_typeMark h).2

theorem Identifier.tokens (h : Identifier w) : Tokens w := by
  have hword : Tokens (w ++ []) := .word h (by simp) .nil
  rwa [List.append_nil] at hword

theorem Identifier.of_all (hne : w ≠ []) (hident : w.all isIdent = true) (hhead : (w.head?.any isAsciiDigit) = false)
    (hfree : w ∉ reservedWords) : Identifier w :=
  ⟨hne, List.all_eq_true.1 hident, by cases w <;> simp_all, hfree⟩

theorem identifier_bound (h : w = "extends".toList ∨ w = "super".toList) : Identifier w := by
  rcases h with rfl | rfl <;> exact .of_all (by decide) (by decide) (by decide) (by decide)

namespace Tokens

theorem append (ha : Tokens as) (hb : Tokens bs) (hstop : ∀ c ∈ bs.head?, isWordOrDollar c = false) :
    Tokens (as ++ bs) := by
  induction ha with
  | nil => exact hb
  | mark hm _ ih => exact .mark hm ih
  | dimension _ ih => exact .dimension ih
  | @word w cs hw hstop' _ ih =>
    rw [List.append_assoc]
    refine .word hw ?_ ih
    cases cs with
    | nil => exact hstop
    | cons d cs => exact hstop'

theorem append_mark (ha : Tokens as) (hc : c ∈ typeMarks) (hb : Tokens bs) : Tokens (as ++ c :: bs) :=
  ha.append (.mark hc hb) (by simpa using isWordOrDollar_typeMark hc)

/-- No character of such a text has a meaning elsewhere. -/
theorem chars (h : Tokens cs) : ∀ c ∈ cs, isIdent c = true ∨ c ∈ '[' :: ']' :: typeMarks := by
  induction h with
  | nil => simp
  | mark hc _ ih =>
    intro d hd
    rcases List.mem_cons.1 hd with rfl | hd
    · exact .inr (by simp [hc])
    · exact ih d hd
  | dimension _ ih =>
    intro d hd
    rcases List.mem_cons.1 hd with rfl | hd
    · exact .inr (by simp)
    · rcases List.mem_cons.1 hd with rfl | hd
      · exact .inr (by simp)
      · exact ih d hd
  | word hw _ _ ih => exact fun d hd => (List.mem_append.1 hd).elim (fun hd => .inl (hw.ident d hd)) (ih d)

theorem balanced (h : Tokens cs) : Balanced Cell.view (codes cs) := by
  induction h with
  | nil => exact .nil
  | @mark c cs hc _ ih =>
    have hall : typeMarks.all (fun m => closer? m = none && !isCloser m) = true := by decide
    have hplain : closer? c = none ∧ isCloser c = false := by simpa using List.all_eq_true.1 hall c hc
    exact .plain hplain.1 hplain.2 ih
  | dimension _ ih => exact .group (o := Cell.code '[') (c := Cell.code ']') rfl .nil ih
  | word hw _ _ ih =>
    rw [codes_append]
    exact (unmarked_of_isIdent (forall_codes.2 hw.ident)).balanced.append ih

end Tokens

/-! Such a text holds no heading of a type. -/

theorem Identifier.isWordOrDollar (h : Identifier w) : ∀ c ∈ w, isWordOrDollar c = true :=
  fun c hc => isWordOrDollar_of_isIdent (h.ident c hc)

theorem keywords_ident : ∀ k ∈ typeKeywords, k.1 ≠ [] ∧ k.1.all isIdent = true := by decide

/-- A keyword that begins a text is all of the word there. -/
theorem eq_keyword {word : List Char} (hword : word.all isIdent = true) (hw : ∀ c ∈ w, isIdent c = true)
    (hstop : ∀ c ∈ rest.head?, isIdent c = false) {p : List Char × List Char}
    (h : keywordName? word (w ++ rest) = some p) : w = word := by
  obtain ⟨r, hr, h⟩ := Option.bind_eq_some_iff.1 h
  obtain ⟨s, hs, -⟩ := Option.bind_eq_some_iff.1 h
  obtain ⟨-, x, hx, hspace⟩ := spaces?_eq_some hs
  have hnext : Stops isIdent r := by
    intro c hc
    obtain rfl := Option.mem_unique hc hx
    by_contra hc
    rw [isSpace_of_isIdent (by simpa using hc)] at hspace
    cases hspace
  rw [← takeWhile_append_of_stops hw hstop, literal?_eq_some_iff.1 hr,
    takeWhile_append_of_stops (List.all_eq_true.1 hword) hnext]

theorem typeKeyword?_eq_none (h : ∀ k ∈ typeKeywords, keywordName? k.1 cs = none) : typeKeyword? cs = none := by
  rw [typeKeyword?_eq, List.findSome?_eq_none_iff]
  intro k hk
  rw [h k hk, Option.map_none]

theorem typeKeyword?_word (hw : Identifier w) (hstop : ∀ c ∈ rest.head?, isIdent c = false) :
    typeKeyword? (w ++ rest) = none := by
  refine typeKeyword?_eq_none fun k hk => ?_
  by_contra hsome
  obtain ⟨p, hp⟩ := Option.ne_none_iff_exists'.1 hsome
  have heq := eq_keyword (keywords_ident k hk).2 hw.ident hstop hp
  exact hw.free (List.mem_append_left _ (heq ▸ List.mem_map_of_mem hk))

theorem typeKeyword?_mark (h : isIdent c = false) : typeKeyword? (c :: cs) = none := by
  refine typeKeyword?_eq_none fun k hk => ?_
  obtain ⟨hne, hident⟩ := keywords_ident k hk
  obtain ⟨x, word, hx⟩ := List.exists_cons_of_ne_nil hne
  have hliteral : literal? k.1 (c :: cs) = none := by
    rw [hx, literal?, if_neg]
    rintro rfl
    rw [hx, List.all_cons, h] at hident
    cases hident
  rw [keywordName?, hliteral]
  rfl

theorem headingFrom_codes_cons (before : Option Char) (h : typeKeyword? (c :: cs) = none) :
    headingFrom before (codes (c :: cs)) =
      (headingFrom (some c) (codes cs)).map fun h => { h with before := Cell.code c :: h.before } := by
  have hviews : views (Cell.code c :: codes cs) = c :: cs := by rw [← codes_cons, views_codes]
  rw [codes_cons, headingFrom, hviews, h]
  cases mayPrecedeKeyword before <;> rfl

theorem headingFrom_word {before : Char} (hbefore : isWordOrDollar before = true)
    (hw : ∀ c ∈ w, isWordOrDollar c = true) (h : ∀ before, headingFrom before (codes rest) = none) :
    headingFrom (some before) (codes (w ++ rest)) = none := by
  induction w generalizing before with
  | nil => exact h (some before)
  | cons c w ih =>
    have hmay : mayPrecedeKeyword (some before) = false := by simp [mayPrecedeKeyword, hbefore]
    rw [List.cons_append, codes_cons, headingFrom, hmay]
    simp only [Bool.false_eq_true, if_false]
    have hword := ih (hw c List.mem_cons_self) fun d hd => hw d (List.mem_cons_of_mem c hd)
    rw [Cell.view_code, hword, Option.map_none]

theorem Tokens.headingFrom (h : Tokens cs) (hstop : ∀ c ∈ rest.head?, Text.isWordOrDollar c = false)
    (hrest : ∀ before, headingFrom before (codes rest) = none) (before : Option Char) :
    Java.headingFrom before (codes (cs ++ rest)) = none := by
  induction h generalizing before with
  | nil => exact hrest before
  | mark hc _ ih =>
    rw [List.cons_append, headingFrom_codes_cons before (typeKeyword?_mark (ascii_typeMark hc).2), ih, Option.map_none]
  | dimension _ ih =>
    rw [List.cons_append, List.cons_append, headingFrom_codes_cons before (typeKeyword?_mark isIdent_bracket.1),
      headingFrom_codes_cons _ (typeKeyword?_mark isIdent_bracket.2), ih, Option.map_none, Option.map_none]
  | @word w cs hw hstop' _ ih =>
    obtain ⟨x, w, rfl⟩ := List.exists_cons_of_ne_nil hw.nonempty
    have hend : ∀ c ∈ (cs ++ rest).head?, isIdent c = false := by
      intro c hc
      by_contra hident
      have hword : Text.isWordOrDollar c = true := isWordOrDollar_of_isIdent (by simpa using hident)
      have hnot : Text.isWordOrDollar c = false := by
        cases cs with
        | nil => exact hstop c hc
        | cons d cs => exact hstop' c hc
      rw [hword] at hnot
      cases hnot
    have hkeyword : typeKeyword? (x :: (w ++ (cs ++ rest))) = none := typeKeyword?_word hw hend
    have hx := hw.isWordOrDollar
    rw [List.append_assoc, List.cons_append, headingFrom_codes_cons before hkeyword,
      headingFrom_word (hx x List.mem_cons_self) (fun d hd => hx d (List.mem_cons_of_mem x hd)) ih, Option.map_none]

/-! The spelling of a type. -/

theorem Spells.tokens {form : TypeForm} (h : Spells form cs) : Tokens cs := by
  induction h with
  | name hw => exact hw.tokens
  | member _ _ iht ihu => exact iht.append_mark (by decide) ihu
  | generic _ _ iht ihas => exact iht.append_mark (by decide) (ihas.append_mark (by decide) .nil)
  | array _ ih =>
    exact ih.append (.dimension .nil) (by simpa using isWordOrDollar_bracket)
  | indented _ ih => exact .mark (by decide) ih
  | spaced _ ih => exact ih.append_mark (by decide) .nil
  | argument _ ih => exact ih
  | wildcard => exact .mark (by decide) .nil
  | bounded hbound _ ih =>
    exact .mark (by decide) (.mark (by decide) ((identifier_bound hbound).tokens.append_mark (by decide) ih))
  | more _ _ ihas ihbs => exact ihas.append_mark (by decide) ihbs

/-- The least depth at which the commas of a text separate nothing. -/
def TypeForm.depth : TypeForm → Int
  | .type => 0
  | .arguments => 1

theorem walk_codes_cons {depth : Int} (hchange : depthChange true c = none) (hc : c ≠ ',') :
    walk Cell.view true ',' depth (codes (c :: cs)) = walk Cell.view true ',' depth (codes cs) := by
  rw [codes_cons, walk, Cell.view_code, hchange]
  simp [hc]

theorem walk_ident {depth : Int} (h : ∀ c ∈ w, isIdent c = true) :
    walk Cell.view true ',' depth (codes w) = some depth :=
  walk_unmarked (unmarked_of_isIdent (forall_codes.2 h)) depth

/-- The arguments of a type are nested in it, so that none of its commas stands outside. -/
theorem Spells.walk {form : TypeForm} (h : Spells form cs) {depth : Int} (hdepth : form.depth ≤ depth) :
    Java.walk Cell.view true ',' depth (codes cs) = some depth := by
  have hone : ∀ {d : Int}, TypeForm.type.depth ≤ d → TypeForm.arguments.depth ≤ d + 1 := by
    intro d hd
    simp only [TypeForm.depth] at hd ⊢
    omega
  have htype : ∀ {d : Int}, TypeForm.arguments.depth ≤ d → TypeForm.type.depth ≤ d := by
    intro d hd
    simp only [TypeForm.depth] at hd ⊢
    omega
  induction h generalizing depth with
  | name hw => exact walk_ident hw.ident
  | member _ _ iht ihu =>
    rw [codes_append, walk_append, iht hdepth, Option.bind_some, walk_codes_cons rfl (by decide), ihu hdepth]
  | @generic t as _ _ iht ihas =>
    have hopen : Java.walk Cell.view true ',' depth (codes ('<' :: (as ++ ['>']))) =
        Java.walk Cell.view true ',' (depth + 1) (codes (as ++ ['>'])) := rfl
    have hclose : Java.walk Cell.view true ',' (depth + 1) (codes ['>']) = some (depth + 1 + -1) := rfl
    rw [codes_append, walk_append, iht hdepth, Option.bind_some, hopen, codes_append, walk_append, ihas (hone hdepth),
      Option.bind_some, hclose, Int.add_neg_cancel_right]
  | array _ ih =>
    have hpair : Java.walk Cell.view true ',' depth (codes ['[', ']']) = some (depth + 1 + -1) := rfl
    rw [codes_append, walk_append, ih hdepth, Option.bind_some, hpair, Int.add_neg_cancel_right]
  | indented _ ih => rw [walk_codes_cons rfl (by decide), ih hdepth]
  | spaced _ ih =>
    rw [codes_append, walk_append, ih hdepth, Option.bind_some, walk_codes_cons rfl (by decide)]
    rfl
  | argument _ ih => exact ih (htype hdepth)
  | wildcard =>
    rw [walk_codes_cons rfl (by decide)]
    rfl
  | bounded hbound _ ih =>
    rw [walk_codes_cons rfl (by decide), walk_codes_cons rfl (by decide), codes_append, walk_append,
      walk_ident (identifier_bound hbound).ident, Option.bind_some, walk_codes_cons rfl (by decide), ih (htype hdepth)]
  | more _ _ ihas ihbs =>
    have hzero : ¬ depth = 0 := by
      simp only [TypeForm.depth] at hdepth
      omega
    rw [codes_append, walk_append, ihas hdepth, Option.bind_some, codes_cons, Java.walk, Cell.view_code]
    simp only [show depthChange true ',' = none by rfl, hzero, decide_false, Bool.and_false, Bool.false_eq_true, if_false]
    exact ihbs hdepth

theorem Spells.angles {form : TypeForm} (h : Spells form cs) : cs.count '<' = cs.count '>' := by
  have hident : ∀ {w : List Char}, (∀ c ∈ w, isIdent c = true) → w.count '<' = 0 ∧ w.count '>' = 0 := by
    intro w hw
    refine ⟨List.count_eq_zero.2 fun hmem => ?_, List.count_eq_zero.2 fun hmem => ?_⟩ <;>
      exact absurd (hw _ hmem) (by decide)
  induction h with
  | name hw => rw [(hident hw.ident).1, (hident hw.ident).2]
  | member _ _ iht ihu => simp [iht, ihu]
  | generic _ _ iht ihas => simp [iht, ihas]
  | array _ ih => simp [ih]
  | indented _ ih => simp [ih]
  | spaced _ ih => simp [ih]
  | argument _ ih => exact ih
  | wildcard => rfl
  | bounded hbound _ ih =>
    obtain ⟨hopen, hclose⟩ := hident (identifier_bound hbound).ident
    simp [ih, hopen, hclose]
  | more _ _ ihas ihbs => simp [ihas, ihbs]

/-- A text without parentheses is passed over on the way to one. -/
theorem splitAtParen_codes {depth : Int} (h : '(' ∉ cs) (rest : List Cell) :
    splitAtParen depth (codes cs ++ rest) =
      (splitAtParen (depth + cs.count '<' - cs.count '>') rest).map fun p => (codes cs ++ p.1, p.2) := by
  induction cs generalizing depth with
  | nil => simp
  | cons c cs ih =>
    obtain ⟨hc, hcs⟩ := not_or.1 (List.mem_cons.not.1 h)
    have hdepth : (if c = '<' then depth + 1 else if c = '>' then depth - 1 else depth) + cs.count '<' - cs.count '>' =
        depth + (c :: cs).count '<' - (c :: cs).count '>' := by
      rw [List.count_cons, List.count_cons]
      by_cases hopen : c = '<'
      · subst hopen
        simp
        omega
      · by_cases hclose : c = '>'
        · subst hclose
          simp
          omega
        · simp [hopen, hclose]
    rw [codes_cons, List.cons_append, splitAtParen, Cell.view_code]
    simp only [Ne.symm hc, decide_false, Bool.false_and, Bool.false_eq_true, if_false]
    rw [ih hcs, hdepth, Option.map_map]
    rfl

/-! Spacing. -/

theorem Identifier.squeeze (h : Identifier w) : Text.squeeze w = w :=
  squeeze_unspaced (fun c hc => isSpace_of_isIdent (h.ident c hc)) h.nonempty

/-! What a type begins with. -/

theorem Identifier.plain (hw : Identifier w) (hstop : ∀ c ∈ rest.head?, isModifierCell (Cell.code c) = false) :
    Plain (codes (w ++ rest)) := by
  have hcells : ∀ c ∈ codes w, isModifierCell c = true := by
    refine forall_codes.2 fun c hc => ?_
    rw [isModifierCell, Cell.isIdent, Cell.view_code, hw.ident c hc]
    rfl
  have hnext : ∀ c ∈ (codes rest).head?, isModifierCell c = false := by
    intro c hc
    rw [head?_codes] at hc
    obtain ⟨d, hd, rfl⟩ := Option.map_eq_some_iff.1 hc
    exact hstop d hd
  obtain ⟨x, v, hv, hshows⟩ := isModifierCell_head hcells (by simpa using hw.nonempty)
  refine ⟨?_, ?_⟩
  · rw [codes_append, hv]
    intro c hc
    rw [← Option.some.inj hc]
    exact hshows
  · rw [codes_append, (span_append hcells hnext).1, shownText_codes, ← Bool.not_eq_true]
    intro hmem
    exact hw.free (List.mem_append_right _ (List.mem_map.2 ⟨_, List.contains_iff_mem.1 hmem, String.toList_ofList⟩))

theorem Spells.exists_name {form : TypeForm} (h : Spells form cs) (hform : form = .type) :
    ∃ gap w rest, cs = gap ++ (w ++ rest) ∧ (∀ c ∈ gap, c = ' ') ∧ Identifier w ∧
      ∀ c ∈ rest.head?, c ∈ '[' :: ']' :: typeMarks := by
  have hextend : ∀ {t tail : List Char}, (∀ c ∈ tail.head?, c ∈ '[' :: ']' :: typeMarks) →
      (∃ gap w rest, t = gap ++ (w ++ rest) ∧ (∀ c ∈ gap, c = ' ') ∧ Identifier w ∧
        ∀ c ∈ rest.head?, c ∈ '[' :: ']' :: typeMarks) →
      ∃ gap w rest, t ++ tail = gap ++ (w ++ rest) ∧ (∀ c ∈ gap, c = ' ') ∧ Identifier w ∧
        ∀ c ∈ rest.head?, c ∈ '[' :: ']' :: typeMarks := by
    rintro _ tail htail ⟨gap, w, rest, rfl, hgap, hw, hrest⟩
    refine ⟨gap, w, rest ++ tail, by simp, hgap, hw, ?_⟩
    cases rest with
    | nil => exact htail
    | cons c rest => exact hrest
  induction h with
  | @name w hw => exact ⟨[], w, [], by simp, by simp, hw, by simp⟩
  | member _ _ iht _ => exact hextend (by simp [typeMarks]) (iht rfl)
  | generic _ _ iht _ => exact hextend (by simp [typeMarks]) (iht rfl)
  | array _ ih => exact hextend (by simp) (ih rfl)
  | indented _ ih =>
    obtain ⟨gap, w, rest, rfl, hgap, hw, hrest⟩ := ih hform
    exact ⟨' ' :: gap, w, rest, rfl, by simpa using hgap, hw, hrest⟩
  | spaced _ ih => exact hextend (by simp [typeMarks]) (ih hform)
  | argument => cases hform
  | wildcard => cases hform
  | bounded => cases hform
  | more => cases hform

namespace IsTypeText

theorem exists_name (h : IsTypeText t) :
    ∃ w rest, t = w ++ rest ∧ Identifier w ∧ ∀ c ∈ rest.head?, c ∈ '[' :: ']' :: typeMarks := by
  obtain ⟨gap, w, rest, heq, hgap, hw, hrest⟩ := h.spells.exists_name rfl
  cases gap with
  | nil => exact ⟨w, rest, heq, hw, hrest⟩
  | cons c gap =>
    have hfirst := head?_squeeze c (show c ∈ (squeeze t).head? by rw [h.normal, heq]; rfl)
    rw [hgap c List.mem_cons_self] at hfirst
    exact absurd hfirst (by decide)

theorem ne_nil (h : IsTypeText t) : t ≠ [] := by
  obtain ⟨w, rest, rfl, hw, -⟩ := h.exists_name
  simp [hw.nonempty]

theorem plain (h : IsTypeText t) (rest : List Char) : Plain (codes (t ++ ' ' :: rest)) := by
  obtain ⟨w, more, rfl, hw, hmore⟩ := h.exists_name
  have hall : ('[' :: ']' :: typeMarks).all (fun m => !isModifierCell (Cell.code m)) = true := by decide
  have hmarks : ∀ m ∈ '[' :: ']' :: typeMarks, isModifierCell (Cell.code m) = false := by
    intro m hm
    simpa using List.all_eq_true.1 hall m hm
  rw [List.append_assoc]
  refine hw.plain ?_
  cases more with
  | nil => simpa using hmarks ' ' (by decide)
  | cons c more => exact fun d hd => hmarks d (hmore d hd)

/-- A type and the space behind it stand before a name. -/
theorem isType (h : IsTypeText t) : IsType (codes (t ++ [' '])) := by
  have htokens : Tokens (t ++ [' ']) := h.spells.spaced.tokens
  have hplain := h.plain []
  refine ⟨isBalanced_map.2 htokens.balanced, forall_codes.2 fun c hc => ?_, ?_, ?_, ?_, ?_⟩
  · rcases htokens.chars c hc with hident | hmark
    · have hsub : ['=', '(', '{', ';'] ⊆ marks := by simp [marks]
      exact fun hmem => notMem_marks_of_isIdent hident (hsub hmem)
    · have hall : ('[' :: ']' :: typeMarks).all (fun m => decide (m ∉ ['=', '(', '{', ';'])) = true := by decide
      exact of_decide_eq_true (List.all_eq_true.1 hall c hmark)
  · exact h.spells.spaced.walk le_rfl
  · obtain ⟨w, more, rfl, hw, -⟩ := h.exists_name
    obtain ⟨x, v, rfl⟩ := List.exists_cons_of_ne_nil hw.nonempty
    exact ⟨Cell.code x, rfl, isSpace_of_isIdent (hw.ident x List.mem_cons_self), (hplain.shows _ rfl).2⟩
  · simpa using hplain.word
  · intro c hc
    rw [codes_append, codes_cons, codes_nil, List.getLast?_concat] at hc
    rw [← Option.some.inj hc]
    decide

end IsTypeText

end WireLayout.Java
