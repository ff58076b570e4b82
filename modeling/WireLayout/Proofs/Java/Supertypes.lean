import WireLayout.Catalog.Merge
import WireLayout.Proofs.Java.SimpleNames
import WireLayout.Proofs.Java.TypeHeader

/-! The supertypes that a header names. Behind the name, the type parameters and the components of a record stand the
clauses, in any spacing. The clauses are found by their keywords among the words of the text, so that they are read as
they are written unless the bound of a wildcard is the first `extends`. A type is known by its simple name where its
type arguments come last. -/

namespace WireLayout.Java

open WireLayout.Text

variable {cs rest : List Cell} {t w : List Char} {types : List (List Char)}

/-! Types in a list. -/

/-- A type that a clause lists: its commas lie within brackets, it shows something, and none of its words ends the
list. -/
structure ListedType (t : List Char) : Prop where
  nested : walk id true ',' 0 t = some 0
  shows : words t ≠ []
  free : ∀ w ∈ words t, w ≠ "implements".toList ∧ w ≠ "permits".toList

theorem walk_codes (depth : Int) (t : List Char) : walk Cell.view true ',' depth (codes t) = walk id true ',' depth t := by
  induction t generalizing depth with
  | nil => rfl
  | cons c t ih =>
    rw [codes_cons, walk, walk, Cell.view_code, id]
    split <;> simp only [ih]

/-- Types with type arguments, wildcards among them, are listed, if none of their words ends the list. -/
theorem Spells.listedType (h : Spells .type t) (hfree : ∀ w ∈ words t, w ≠ "implements".toList ∧ w ≠ "permits".toList) :
    ListedType t where
  nested := by rw [← walk_codes]; exact h.walk le_rfl
  shows := by
    obtain ⟨gap, w, rest, rfl, -, hw, -⟩ := h.exists_name rfl
    obtain ⟨c, w, rfl⟩ := List.exists_cons_of_ne_nil hw.nonempty
    refine squeeze_ne_nil_iff.1 fun hnil => ?_
    have hspace := squeeze_eq_nil.1 hnil c (by simp)
    rw [isSpace_of_isIdent (hw.ident c List.mem_cons_self)] at hspace
    cases hspace
  free := hfree

theorem walk_filter (depth : Int) (t : List Char) :
    walk id true ',' depth (t.filter fun c => !isSpace c) = walk id true ',' depth t := by
  induction t generalizing depth with
  | nil => rfl
  | cons c t ih =>
    cases hc : isSpace c with
    | true =>
      have hchange : depthChange true c = none := by
        by_contra hsome
        have hmark : c ∈ marks := by
          by_contra hnot
          exact hsome (depthChange_of_notMem_marks hnot)
        have hnot := List.all_eq_true.1 (show marks.all (fun m => !isSpace m) = true by decide) c hmark
        rw [hc] at hnot
        cases hnot
      have hcomma : c ≠ ',' := by
        rintro rfl
        exact absurd hc (by decide)
      rw [List.filter_cons_of_neg (by simp [hc]), ih, walk, id, hchange]
      simp [hcomma]
    | false =>
      rw [List.filter_cons_of_pos (by simp [hc]), walk, walk, id]
      split <;> simp only [ih]

theorem walk_squeeze (depth : Int) (t : List Char) : walk id true ',' depth (squeeze t) = walk id true ',' depth t := by
  rw [← walk_filter, filter_squeeze, walk_filter]

/-- A type in normal spacing is a part of a list, and no space stands around it. -/
theorem ListedType.isPart (h : ListedType t) :
    IsPart id true (squeeze t) ∧ trimBlank id (squeeze t) = squeeze t := by
  have htrim : trimBlank id (squeeze t) = squeeze t := by
    refine trim_eq_self (fun c hc => ?_) fun c hc => ?_
    · exact isAsciiSpace_of_isSpace (head?_squeeze c hc)
    · exact isAsciiSpace_of_isSpace (getLast?_squeeze c hc)
  refine ⟨⟨by rw [walk_squeeze, h.nested], ?_⟩, htrim⟩
  rw [htrim]
  exact squeeze_ne_nil_iff.2 h.shows

/-- Squeezed, a list is that of its types in normal spacing, but for spaces around them; by induction on the types. -/
theorem squeeze_commas (h : ∀ t ∈ types, ListedType t) : ∃ parts,
    squeeze ([','].intercalate types) = [','].intercalate parts ∧ (∀ p ∈ parts, IsPart id true p) ∧
      parts.map (trimBlank id) = types.map squeeze := by
  have hspaces : ∀ {gap : List Char}, (∀ c ∈ gap, c = ' ') → ∀ c ∈ gap, isAsciiSpace (id c) = true := by
    intro gap hgap c hc
    rw [hgap c hc]
    decide
  induction types with
  | nil => exact ⟨[], rfl, by simp, rfl⟩
  | cons t types ih =>
    obtain ⟨hpart, htrim⟩ := (h t List.mem_cons_self).isPart
    obtain ⟨parts, hlist, hparts, htexts⟩ := ih fun u hu => h u (List.mem_cons_of_mem t hu)
    cases types with
    | nil => exact ⟨[squeeze t], by simp, by simpa using hpart, by simp [htrim]⟩
    | cons u types =>
      obtain ⟨p, parts, rfl⟩ : ∃ p ps, parts = p :: ps := List.exists_cons_of_ne_nil (by rintro rfl; cases htexts)
      obtain ⟨l, r, hl, hr, heq⟩ := squeeze_mark (show isSpace ',' = false by decide) t ([','].intercalate (u :: types))
      have hfirst := hpart.pad (l := []) (by simp) (hspaces hl)
      have hsecond := (hparts p List.mem_cons_self).pad (r := []) (hspaces hr) (by simp)
      rw [List.append_nil] at hsecond
      refine ⟨(squeeze t ++ l) :: (r ++ p) :: parts, ?_, ?_, ?_⟩
      · rw [List.intercalate_cons_cons, List.append_assoc, List.singleton_append, heq, hlist, List.intercalate_cons_cons]
        cases parts <;> simp [List.intercalate_cons_cons]
      · refine List.forall_mem_cons.2 ⟨hfirst.1, List.forall_mem_cons.2 ⟨hsecond.1, ?_⟩⟩
        exact fun q hq => hparts q (List.mem_cons_of_mem p hq)
      · rw [List.map_cons, List.map_cons, hsecond.2, ← List.map_cons, htexts, List.map_cons]
        exact congrArg (· :: _) (hfirst.2.trans htrim)

/-- A list in any spacing is cut into its types in normal spacing. -/
theorem pieces_squeeze (h : ∀ t ∈ types, ListedType t) :
    pieces id true ',' (squeeze ([','].intercalate types)) = types.map squeeze := by
  obtain ⟨parts, hlist, hparts, htexts⟩ := squeeze_commas h
  have hcomma : id ',' = ',' := rfl
  have hcut : pieces id true ',' ([','].intercalate parts ++ []) = _ := pieces_commas hcomma hparts (.inl (by simp))
  rw [hlist, ← htexts, ← hcut, List.append_nil]

/-! Clauses. -/

section

variable {keyword : String} {stops : List String} {front listed back : List (List Char)}

/-- The types of a clause stand between its keyword and the next one. -/
theorem clause_between (hfront : keyword.toList ∉ front) (hlisted : ∀ w ∈ listed, String.ofList w ∉ stops)
    (hback : ∀ w ∈ back.head?, String.ofList w ∈ stops) :
    clause (front ++ keyword.toList :: (listed ++ back)) keyword stops =
      (pieces id true ',' ([' '].intercalate listed)).map String.ofList := by
  have hskip : ∀ w ∈ front, decide (w ≠ keyword.toList) = true := by
    intro w hw
    rw [decide_eq_true_iff]
    rintro rfl
    exact hfront hw
  have hdrop : (front ++ keyword.toList :: (listed ++ back)).dropWhile (· ≠ keyword.toList) =
      keyword.toList :: (listed ++ back) := by
    rw [List.dropWhile_append_of_pos hskip, List.dropWhile_cons_of_neg (by simp)]
  have htake : (listed ++ back).takeWhile (fun w => !stops.contains (String.ofList w)) = listed := by
    rw [List.takeWhile_append_of_pos fun w hw => by simpa using hlisted w hw]
    cases back with
    | nil => exact List.append_nil _
    | cons b back =>
      have hstop := hback b rfl
      rw [List.takeWhile_cons_of_neg (by simpa using hstop), List.append_nil]
  rw [clause, hdrop]
  simp only [htake]

theorem clause_eq_nil (h : keyword.toList ∉ front) : clause front keyword stops = [] := by
  have hdrop : front.dropWhile (· ≠ keyword.toList) = [] := by
    rw [List.dropWhile_eq_nil_iff]
    intro w hw
    rw [decide_eq_true_iff]
    rintro rfl
    exact h hw
  rw [clause, hdrop]

end

/-- The clauses of a header. -/
structure Supertypes where
  superclasses : List (List Char)
  interfaces : List (List Char)
  permitted : List (List Char)

namespace Supertypes

/-- The words of a clause; a clause without types is left out. -/
def clauseWords (keyword : String) (types : List (List Char)) : List (List Char) :=
  if types = [] then [] else keyword.toList :: Text.words ([','].intercalate types)

def words (s : Supertypes) : List (List Char) :=
  clauseWords "extends" s.superclasses ++ (clauseWords "implements" s.interfaces ++ clauseWords "permits" s.permitted)

structure WellFormed (s : Supertypes) : Prop where
  superclasses : ∀ t ∈ s.superclasses, ListedType t
  interfaces : ∀ t ∈ s.interfaces, ListedType t
  permitted : ∀ t ∈ s.permitted, ListedType t

variable {s : Supertypes}

/-- Among the words of a list no word begins a clause that may follow. -/
theorem free_list (h : ∀ t ∈ types, ListedType t) :
    ∀ w ∈ Text.words ([','].intercalate types), w ≠ "implements".toList ∧ w ≠ "permits".toList := by
  induction types with
  | nil => simp [Text.words, wordsFrom]
  | cons t types ih =>
    have ht := h t List.mem_cons_self
    have hrest := ih fun u hu => h u (List.mem_cons_of_mem t hu)
    cases types with
    | nil => simpa using ht.free
    | cons u types =>
      intro w hw
      rw [List.intercalate_cons_cons, List.append_assoc, List.singleton_append] at hw
      by_cases hcomma : ',' ∈ w
      · constructor <;>
        · rintro rfl
          exact absurd hcomma (by decide)
      · exact (mem_words_mark (by decide) hw hcomma).elim (ht.free w) (hrest w)

theorem notMem_clauseWords (h : ∀ t ∈ types, ListedType t) {keyword word : String} (hne : keyword ≠ word)
    (hword : word = "implements" ∨ word = "permits") : word.toList ∉ clauseWords keyword types := by
  rw [clauseWords]
  split
  · exact List.not_mem_nil
  · rw [List.mem_cons, not_or]
    refine ⟨fun heq => hne (String.toList_inj.1 heq).symm, fun hmem => ?_⟩
    obtain ⟨himplements, hpermits⟩ := free_list h _ hmem
    rcases hword with rfl | rfl
    · exact himplements rfl
    · exact hpermits rfl

theorem head?_clauseWords {keyword : String} : ∀ w ∈ (clauseWords keyword types).head?, w = keyword.toList := by
  intro w hw
  rw [clauseWords] at hw
  split at hw
  · cases hw
  · exact (Option.some.inj hw).symm

theorem head?_words : ∀ w ∈ s.words.head?, ∃ c cs, w = c :: cs ∧ c ≠ '<' := by
  have hclause : ∀ {keyword : String} {types : List (List Char)}, (∃ c cs, keyword.toList = c :: cs ∧ c ≠ '<') →
      ∀ w ∈ (clauseWords keyword types).head?, ∃ c cs, w = c :: cs ∧ c ≠ '<' := by
    intro keyword types h w hw
    rw [head?_clauseWords w hw]
    exact h
  intro w hw
  rw [words, List.head?_append, List.head?_append, Option.mem_def, Option.or_eq_some_iff, Option.or_eq_some_iff] at hw
  rcases hw with hw | ⟨-, hw | ⟨-, hw⟩⟩
  · exact hclause ⟨_, _, rfl, by decide⟩ w hw
  · exact hclause ⟨_, _, rfl, by decide⟩ w hw
  · exact hclause ⟨_, _, rfl, by decide⟩ w hw

/-- The list behind a keyword is read type by type, if the keyword does not stand before and another clause follows or
none. -/
theorem clause_clauseWords {keyword : String} {stops : List String} {front back : List (List Char)}
    (h : ∀ t ∈ types, ListedType t) (hfront : keyword.toList ∉ front)
    (hstops : ∀ word ∈ stops, word = "implements" ∨ word = "permits") (hback : ∀ w ∈ back.head?, String.ofList w ∈ stops)
    (hnone : types = [] → keyword.toList ∉ back) :
    clause (front ++ (clauseWords keyword types ++ back)) keyword stops =
      types.map fun t => String.ofList (squeeze t) := by
  by_cases hne : types = []
  · rw [clauseWords, if_pos hne, List.nil_append, clause_eq_nil, hne, List.map_nil]
    exact fun hmem => (List.mem_append.1 hmem).elim hfront (hnone hne)
  · have hlisted : ∀ w ∈ Text.words ([','].intercalate types), String.ofList w ∉ stops := by
      intro w hw hstop
      obtain ⟨himplements, hpermits⟩ := free_list h w hw
      rcases hstops _ hstop with heq | heq
      · exact himplements (by rw [← heq, String.toList_ofList])
      · exact hpermits (by rw [← heq, String.toList_ofList])
    rw [clauseWords, if_neg hne, List.cons_append, clause_between hfront hlisted hback, ← squeeze, pieces_squeeze h,
      List.map_map]
    rfl

theorem clause_implements (h : s.WellFormed) :
    clause s.words "implements" ["permits"] = s.interfaces.map fun t => String.ofList (squeeze t) := by
  refine clause_clauseWords h.interfaces ?_ (by simp) ?_ fun _ => ?_
  · exact notMem_clauseWords h.superclasses (by decide) (.inl rfl)
  · intro w hw
    rw [head?_clauseWords w hw]
    simp
  · exact notMem_clauseWords h.permitted (by decide) (.inl rfl)

/-- With a clause of its own, or without any `extends`, the superclasses are read. -/
theorem clause_extends (h : s.WellFormed) (hextends : s.superclasses ≠ [] ∨ "extends".toList ∉ s.words) :
    clause s.words "extends" ["implements", "permits"] = s.superclasses.map fun t => String.ofList (squeeze t) := by
  have hread : clause ([] ++ s.words) "extends" ["implements", "permits"] = _ :=
    clause_clauseWords h.superclasses List.not_mem_nil (by simp) (fun w hw => ?_) fun hnil => ?_
  · rwa [List.nil_append] at hread
  · rw [List.head?_append, Option.mem_def, Option.or_eq_some_iff] at hw
    rcases hw with hw | ⟨-, hw⟩
    · rw [head?_clauseWords w hw]
      simp
    · rw [head?_clauseWords w hw]
      simp
  · have hnot := hextends.resolve_left (by simpa using hnil)
    rw [words, List.mem_append, not_or] at hnot
    exact hnot.2

end Supertypes

/-! Where the clauses are found. -/

/-- A text in which angle brackets match. -/
inductive Angled : List Cell → Prop where
  | nil : Angled []
  | plain {c : Cell} {cs : List Cell} (hopen : c.view ≠ '<') (hclose : c.view ≠ '>') (h : Angled cs) : Angled (c :: cs)
  | bracketed {inside cs : List Cell} (hinside : Angled inside) (h : Angled cs) :
      Angled (Cell.code '<' :: (inside ++ Cell.code '>' :: cs))

/-- Matched brackets are passed over, by induction on their nesting. -/
theorem skipAngles_angled (h : Angled cs) (depth : Nat) (rest : List Cell) :
    skipAngles (depth + 1) (cs ++ rest) = skipAngles (depth + 1) rest := by
  induction h generalizing depth rest with
  | nil => rfl
  | plain hopen hclose _ ih => rw [List.cons_append, skipAngles, if_neg hopen, if_neg hclose, ih]
  | bracketed _ _ ihinside ih =>
    have hopen : (Cell.code '<').view = '<' := rfl
    have hclose : (Cell.code '>').view = '>' := rfl
    have hnot : ¬(Cell.code '>').view = '<' := by decide
    rw [List.cons_append, skipAngles, if_pos hopen, List.append_assoc, List.cons_append, ihinside, skipAngles,
      if_neg hnot, if_pos hclose, if_neg (by omega), Nat.add_sub_cancel, ih]

/-- What follows the name in a header: blanks, type parameters, blanks, the components of a record and the clauses. -/
structure HeaderTail where
  gap : List Cell
  parameters : Option (List Cell)
  space : List Cell
  components : Option (List Cell)
  clauses : List Cell

namespace HeaderTail

def angles : Option (List Cell) → List Cell
  | none => []
  | some inside => Cell.code '<' :: (inside ++ [Cell.code '>'])

def parentheses : Option (List Cell) → List Cell
  | none => []
  | some inside => Cell.code '(' :: (inside ++ [Cell.code ')'])

def back (t : HeaderTail) : List Cell := parentheses t.components ++ t.clauses

def cells (t : HeaderTail) : List Cell := t.gap ++ (angles t.parameters ++ (t.space ++ t.back))

structure WellFormed (t : HeaderTail) (kind : TypeKind) : Prop where
  gap : Blank t.gap
  parameters : ∀ p ∈ t.parameters, Angled p
  space : Blank t.space
  components : ∀ p ∈ t.components, isBalanced (views p) = true
  record : t.components.isSome = true ↔ kind = .recordType

variable {t : HeaderTail} {kind : TypeKind} {s : Supertypes}

theorem words_dropBlank (cs : List Cell) : words (views (dropBlank cs)) = words (views cs) := by
  obtain ⟨gap, hgap, heq⟩ := exists_dropBlank cs
  conv_rhs => rw [heq, views_append, words_append_of_space (isSpace_of_blank hgap)]

theorem head?_clauses (hs : words (views cs) = s.words) : ∀ c ∈ (dropBlank cs).head?, c.view ≠ '<' := by
  intro c hc hview
  cases hd : dropBlank cs with
  | nil =>
    rw [hd] at hc
    cases hc
  | cons d rest =>
    rw [hd] at hc
    obtain rfl := Option.some.inj hc
    obtain ⟨w, ws, hwords⟩ := exists_words (show isSpace '<' = false by decide) (views rest)
    have hcons : views (d :: rest) = '<' :: views rest := by rw [← hview]; rfl
    have hhead : '<' :: w ∈ s.words.head? := by rw [← hs, ← words_dropBlank, hd, hcons, hwords]; rfl
    obtain ⟨x, v, hword, hx⟩ := Supertypes.head?_words _ hhead
    exact hx (List.cons.inj hword).1.symm

theorem afterTypeParameters_cells (h : t.WellFormed kind) (hs : words (views t.clauses) = s.words) :
    afterTypeParameters t.cells = dropBlank t.back := by
  have hback : ∀ c ∈ (dropBlank t.back).head?, c.view ≠ '<' := by
    rw [back]
    cases t.components with
    | none => exact head?_clauses hs
    | some inside =>
      have hopen : (Cell.code '(').isBlank = false := rfl
      intro c hc
      rw [parentheses, List.cons_append, dropBlank_cons hopen] at hc
      rw [← Option.some.inj hc]
      decide
  rw [cells, afterTypeParameters, dropBlank_append h.gap]
  cases hp : t.parameters with
  | none =>
    rw [angles, List.nil_append, dropBlank_append h.space]
    cases hd : dropBlank t.back with
    | nil => rfl
    | cons c rest =>
      rw [hd] at hback
      simp only [if_neg (hback c rfl)]
      rw [← hd, dropBlank_dropBlank]
  | some inside =>
    have hopen : (Cell.code '<').isBlank = false := rfl
    have hskip : skipAngles 1 (inside ++ Cell.code '>' :: (t.space ++ t.back)) = t.space ++ t.back := by
      rw [skipAngles_angled (h.parameters inside hp) 0]
      rfl
    rw [angles, List.cons_append, List.append_assoc, List.singleton_append, dropBlank_cons hopen]
    simp only [Cell.view_code, if_true, hskip]
    exact dropBlank_append h.space

/-- The clauses are found behind the type parameters and the components. -/
theorem words_tail {heading : Heading} (hafter : heading.after = t.cells) (h : t.WellFormed heading.kind)
    (hs : words (views t.clauses) = s.words) : words (views heading.tail) = s.words := by
  have hread := afterTypeParameters_cells h hs
  rw [← hs, Heading.tail, Heading.components?, hafter, hread, back]
  cases hc : t.components with
  | none =>
    have hkind : ¬heading.kind = .recordType := by simp [← h.record, hc]
    rw [if_neg hkind]
    exact words_dropBlank t.clauses
  | some inside =>
    have hkind : heading.kind = .recordType := by simp [← h.record, hc]
    have hopen : (Cell.code '(').isBlank = false := rfl
    have hclosing : closing Cell.view '(' ')' 1 (inside ++ Cell.code ')' :: t.clauses) = some (inside, t.clauses) :=
      closing_balanced (c := Cell.code ')') (isBalanced_map.1 (h.components inside hc)) rfl
    rw [if_pos hkind, parentheses, List.cons_append, List.append_assoc, List.singleton_append, dropBlank_cons hopen,
      components?]
    simp only [Cell.view_code, if_true, hclosing]
    rfl

end HeaderTail

/-! Simple names. -/

/-- A type in normal spacing whose type arguments come last: a qualifier, which ends in a point, the name, a space or
none, and the arguments. -/
structure NamedType where
  qualifier : List Char
  name : List Char
  gap : List Char
  arguments : List Char

namespace NamedType

def text (q : NamedType) : List Char := q.qualifier ++ (q.name ++ (q.gap ++ q.arguments))

structure WellFormed (q : NamedType) : Prop where
  qualifier : '<' ∉ q.qualifier ∧ (∀ c ∈ q.qualifier.head?, isSpace c = false) ∧ ∀ c ∈ q.qualifier.getLast?, c = '.'
  name : WholeName q.name
  gap : ∀ c ∈ q.gap, c = ' '
  arguments : ∀ c ∈ q.arguments.head?, c = '<'

variable {q : NamedType}

/-- The name is what is left without the qualifier and the arguments. -/
theorem simpleTypeName_text (h : q.WellFormed) : simpleTypeName (String.ofList q.text) = String.ofList q.name := by
  obtain ⟨hangle, hhead, hpoint⟩ := h.qualifier
  have hgap : ∀ c ∈ q.gap, isSpace c = true := by
    intro c hc
    rw [h.gap c hc]
    decide
  exact PlainSpelling.simpleTypeName
    ⟨⟨h.name.ne_nil, h.name.chars⟩, q.qualifier, q.gap, 0, q.arguments, rfl, hangle, hhead, hpoint, hgap, h.arguments⟩

end NamedType

/-- A type, in any spacing, has a simple name if its type arguments come last and no space follows a point. -/
def Named (t : List Char) (name : String) : Prop :=
  ∃ q : NamedType, q.WellFormed ∧ squeeze t = q.text ∧ name = String.ofList q.name

theorem simpleTypeName_of_named {name : String} (h : Named t name) :
    simpleTypeName (String.ofList (squeeze t)) = name := by
  obtain ⟨q, hq, htext, rfl⟩ := h
  rw [htext, q.simpleTypeName_text hq]

theorem any_simpleTypeName (h : ∀ t ∈ types, ∃ n, Named t n) (name : String) :
    ((types.map fun t => String.ofList (squeeze t)).any fun type => simpleTypeName type = name) = true ↔
      ∃ t ∈ types, Named t name := by
  rw [List.any_map, List.any_eq_true]
  refine exists_congr fun t => and_congr_right fun ht => ?_
  obtain ⟨n, hn⟩ := h t ht
  have hread := simpleTypeName_of_named hn
  simp only [Function.comp_apply, decide_eq_true_eq, hread]
  constructor
  · rintro rfl
    exact hn
  · intro hname
    rw [← hread, simpleTypeName_of_named hname]

/-- A type of a file is read with the supertypes that its header names, those of an `extends` if it has one or the word
does not occur. If each has a simple name, these are the names that the type implements, and it is a message by them or
by its number. -/
theorem supertypes_of_header {path text : String} {file : SourceFile} (hfile : SourceFile.parse path text = .ok file)
    {t : TypeHeader} {tail : HeaderTail} {s : Supertypes} {body : List Cell} (ht : t.WellFormed)
    (hafter : t.after = tail.cells) (htail : tail.WellFormed t.kind) (hs : s.WellFormed) (hwords : words (views tail.clauses) = s.words)
    (hin : TypeIn (segments (cells text.toList)) t.cells body) :
    ∃ decl ∈ file.allTypes, typeDeclaration? t.cells body = some decl ∧ decl.kind = t.kind ∧
      decl.name = String.ofList t.name ∧ decl.interfaces = s.interfaces.map (fun u => String.ofList (squeeze u)) ∧
      (s.superclasses ≠ [] ∨ "extends".toList ∉ s.words →
        decl.superclasses = s.superclasses.map (fun u => String.ofList (squeeze u)) ∧
        ((∀ u ∈ s.interfaces ++ s.superclasses, ∃ n, Named u n) →
          (∀ n, decl.implementsNamed n = true ↔ ∃ u ∈ s.interfaces ++ s.superclasses, Named u n) ∧
          (Catalog.isMessage decl = true ↔ (∃ u ∈ s.interfaces ++ s.superclasses, Named u Catalog.messageName) ∨
            ∃ f ∈ decl.fields, f.isStatic = true ∧ f.name = Constants.idName))) := by
  have hread : typeDeclaration? t.cells body = some (t.heading.declare t.cells (bodyConstants t.heading body)
      (bodyMembers t.heading body)) := by
    rw [typeDeclaration?_eq, TypeHeader.heading?_cells ht, Option.map_some]
  have htailWords : words (views t.heading.tail) = s.words := HeaderTail.words_tail hafter htail hwords
  have hinterfaces : clause (words (views t.heading.tail)) "implements" ["permits"] = _ :=
    htailWords ▸ Supertypes.clause_implements hs
  refine ⟨_, typeIn_allTypes hfile hin hread, hread, rfl, rfl, hinterfaces, fun hextends => ?_⟩
  have hsuperclasses : clause (words (views t.heading.tail)) "extends" ["implements", "permits"] = _ :=
    htailWords ▸ Supertypes.clause_extends hs hextends
  refine ⟨hsuperclasses, fun hnamed => ?_⟩
  have himplements : ∀ n, (t.heading.declare t.cells (bodyConstants t.heading body)
      (bodyMembers t.heading body)).implementsNamed n = true ↔ ∃ u ∈ s.interfaces ++ s.superclasses, Named u n := by
    intro n
    rw [← any_simpleTypeName hnamed, List.map_append, ← hinterfaces, ← hsuperclasses]
    rfl
  refine ⟨himplements, ?_⟩
  rw [Catalog.isMessage, Bool.or_eq_true, himplements, List.any_eq_true]
  simp only [Bool.and_eq_true, decide_eq_true_eq]

namespace Bounded

def text : String := "class P<T> extends a.S<? extends Packet> implements Map<? extends Packet, T>, I permits Q \x7b \x7d"

def tail : HeaderTail where
  gap := []
  parameters := some (cells "T".toList)
  space := cells " ".toList
  components := none
  clauses := cells "extends a.S<? extends Packet> implements Map<? extends Packet, T>, I permits Q ".toList

def header : TypeHeader := ⟨[], [], .classType, cells " ".toList, "P".toList, tail.cells⟩

def superclass : List Char := "a.S<? extends Packet>".toList

def interface : List Char := "Map<? extends Packet, T>".toList

def supertypes : Supertypes := ⟨[superclass], [interface, " I".toList], ["Q".toList]⟩

theorem wellFormed_header : header.WellFormed where
  gap := by simp [header, Blank]
  marks := trivial
  space := by decide
  name := ⟨⟨'P', rfl, by decide⟩, List.all_eq_true.1 (by decide)⟩
  after c hc := by
    rw [← Option.some.inj hc]
    decide

theorem wellFormed_tail : tail.WellFormed .classType where
  gap := by simp [tail, Blank]
  parameters p hp := by
    rw [← Option.some.inj hp]
    exact .plain (by decide) (by decide) .nil
  space := by decide
  components := by simp [tail]
  record := by decide

theorem spells_name (w : String) (h : w.toList ≠ [] ∧ w.toList.all isIdent = true ∧
    (w.toList.head?.any isAsciiDigit) = false ∧ w.toList ∉ reservedWords) : Spells .type w.toList :=
  .name (.of_all h.1 h.2.1 h.2.2.1 h.2.2.2)

theorem spells_bounded : Spells .arguments "? extends Packet".toList :=
  .bounded (.inl rfl) (spells_name "Packet" (by decide))

theorem listed_superclass : ListedType superclass := by
  have hname : Spells .type "a.S".toList := .member (spells_name "a" (by decide)) (spells_name "S" (by decide))
  exact (Spells.generic hname spells_bounded).listedType (by decide)

theorem listed_interface : ListedType interface := by
  have hlast : Spells .arguments " T".toList := .indented (.argument (spells_name "T" (by decide)))
  exact (Spells.generic (spells_name "Map" (by decide)) (.more spells_bounded hlast)).listedType (by decide)

theorem wellFormed_supertypes : supertypes.WellFormed where
  superclasses t ht := by
    rw [List.mem_singleton.1 ht]
    exact listed_superclass
  interfaces t ht := by
    rcases List.mem_pair.1 ht with rfl | rfl
    · exact listed_interface
    · exact (Spells.indented (spells_name "I" (by decide))).listedType (by decide)
  permitted t ht := by
    rw [List.mem_singleton.1 ht]
    exact (spells_name "Q" (by decide)).listedType (by decide)

theorem named_superclass : Named superclass "S" := by
  refine ⟨⟨"a.".toList, "S".toList, [], "<? extends Packet>".toList⟩, ⟨⟨by decide, ?_, ?_⟩, ?_, by simp, ?_⟩,
    by decide, rfl⟩
  · exact fun c hc => by rw [← Option.some.inj hc]; decide
  · exact fun c hc => (Option.some.inj hc).symm
  · exact ⟨⟨'S', rfl, by decide⟩, List.all_eq_true.1 (by decide)⟩
  · exact fun c hc => (Option.some.inj hc).symm

theorem named_interface : Named interface "Map" := by
  refine ⟨⟨[], "Map".toList, [], "<? extends Packet, T>".toList⟩, ⟨⟨by simp, by simp, by simp⟩, ?_, by simp, ?_⟩,
    by decide, rfl⟩
  · exact ⟨⟨'M', rfl, by decide⟩, List.all_eq_true.1 (by decide)⟩
  · exact fun c hc => (Option.some.inj hc).symm

theorem named_last : Named " I".toList "I" := by
  refine ⟨⟨[], "I".toList, [], []⟩, ⟨⟨by simp, by simp, by simp⟩, ?_, by simp, by simp⟩, by decide, rfl⟩
  exact ⟨⟨'I', rfl, by decide⟩, List.all_eq_true.1 (by decide)⟩

theorem named : ∀ u ∈ supertypes.interfaces ++ supertypes.superclasses, ∃ n, Named u n := by
  intro u hu
  have hmem : u = interface ∨ u = " I".toList ∨ u = superclass := by
    simpa only [supertypes, List.cons_append, List.nil_append, List.mem_cons, List.not_mem_nil, or_false] using hu
  rcases hmem with rfl | rfl | rfl
  exacts [⟨_, named_interface⟩, ⟨_, named_last⟩, ⟨_, named_superclass⟩]

theorem typeIn : TypeIn (segments (cells text.toList)) header.cells (cells " ".toList) := by
  have hsegments : segments (cells text.toList) = [.block header.cells (cells " ".toList)] := by decide +kernel
  exact .top (by rw [hsegments]; exact List.mem_singleton_self _)

end Bounded

theorem supertypes_of_header_bounded :
    ∃ file, SourceFile.parse "P.java" Bounded.text = .ok file ∧ ∃ decl ∈ file.allTypes, decl.name = "P" ∧
      decl.interfaces = ["Map<? extends Packet, T>", "I"] ∧ decl.superclasses = ["a.S<? extends Packet>"] ∧
      decl.implementsNamed "S" = true ∧ decl.implementsNamed "Packet" = false := by
  have hfile : SourceFile.parse "P.java" Bounded.text = .ok (SourceFile.ofText Bounded.text) :=
    SourceFile.parse_eq_ok_iff.2 ⟨by decide +kernel, by decide +kernel, rfl⟩
  obtain ⟨decl, hdecl, -, -, hname, hinterfaces, hextends⟩ := supertypes_of_header hfile Bounded.wellFormed_header rfl
    Bounded.wellFormed_tail Bounded.wellFormed_supertypes (by decide) Bounded.typeIn
  obtain ⟨hsuperclasses, hnamed⟩ := hextends (.inl (by decide))
  obtain ⟨himplements, -⟩ := hnamed Bounded.named
  refine ⟨_, hfile, decl, hdecl, hname, hinterfaces, hsuperclasses, ?_, ?_⟩
  · exact (himplements "S").2 ⟨Bounded.superclass, by decide, Bounded.named_superclass⟩
  · rw [← Bool.not_eq_true, himplements]
    rintro ⟨u, hu, hpacket⟩
    have hsimple : ∀ u ∈ Bounded.supertypes.interfaces ++ Bounded.supertypes.superclasses,
        simpleTypeName (String.ofList (squeeze u)) ≠ "Packet" := by decide
    exact hsimple u hu (simpleTypeName_of_named hpacket)

/-- The bound of a wildcard is taken for a superclass, so that a type becomes a message by its type argument. A keyword
without a space before it is no clause; and a name behind type arguments, or behind a point and a space, is not the
simple name. -/
theorem supertypes_misread :
    let read := fun text => (SourceFile.parse "P.java" text).map fun file =>
      file.allTypes.map fun d => (d.superclasses, d.interfaces, d.implementsNamed "Packet", Catalog.isMessage d)
    read "class P implements Map<? extends Packet, X> \x7b\x7d" =
        .ok [(["Packet", "X>"], ["Map<? extends Packet, X>"], true, true)] ∧
      read "class P extends S<X>implements I \x7b\x7d" = .ok [(["S<X>implements I"], [], false, false)] ∧
      read "class P implements Packet<X>.Inner \x7b\x7d" = .ok [([], ["Packet<X>.Inner"], true, true)] ∧
      read "class P implements a. Packet \x7b\x7d" = .ok [([], ["a. Packet"], false, false)] := by
  refine ⟨?_, ?_, ?_, ?_⟩
  all_goals decide +kernel

end WireLayout.Java
