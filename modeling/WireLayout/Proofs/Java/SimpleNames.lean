import WireLayout.Java.Member
import WireLayout.Proofs.Text.WordMatches

/-! Simple names. The simple name of a type is the last of its dotted names, whatever type arguments stand behind it or
behind the names before it; that of an annotation is what follows its last point. The reader cuts a type at its first
angle bracket, so it finds the simple name where the type arguments come last. -/

namespace WireLayout.Java

open WireLayout.Text

variable {as t u v w rest : List Char}

structure TypeWord (w : List Char) : Prop where
  nonempty : w ≠ []
  chars : ∀ c ∈ w, isWordOrDollar c = true

theorem TypeWord.notMem (h : TypeWord w) {c : Char} (hc : isWordOrDollar c = false) : c ∉ w := by
  intro hmem
  rw [h.chars c hmem] at hc
  cases hc

/-- Type arguments: angle brackets match in them. -/
inductive Matched : List Char → Prop where
  | nil : Matched []
  | plain {c : Char} {cs : List Char} (hopen : c ≠ '<') (hclose : c ≠ '>') (h : Matched cs) : Matched (c :: cs)
  | angles {inside cs : List Char} (hinside : Matched inside) (h : Matched cs) : Matched ('<' :: (inside ++ '>' :: cs))

/-- A type and its simple name. -/
inductive SimpleName : List Char → List Char → Prop where
  | name {w : List Char} (hw : TypeWord w) : SimpleName w w
  | member {t u v w : List Char} (ht : SimpleName t v) (hu : SimpleName u w) : SimpleName (t ++ '.' :: u) w
  | generic {t w as : List Char} (ht : SimpleName t w) (has : Matched as) : SimpleName (t ++ '<' :: (as ++ ['>'])) w
  | array {t w : List Char} (ht : SimpleName t w) : SimpleName (t ++ ['[', ']']) w
  | indented {c : Char} {t w : List Char} (hc : isSpace c = true) (ht : SimpleName t w) : SimpleName (c :: t) w
  | spaced {c : Char} {t w : List Char} (hc : isSpace c = true) (ht : SimpleName t w) : SimpleName (t ++ [c]) w

theorem SimpleName.typeWord (h : SimpleName t w) : TypeWord w := by
  induction h with
  | name hw => exact hw
  | member _ _ _ ih => exact ih
  | generic _ _ ih => exact ih
  | array _ ih => exact ih
  | indented _ _ ih => exact ih
  | spaced _ _ ih => exact ih

/-! A type has one simple name: it ends what is left of the type without its type arguments. -/

/-- The names and points of a type, type arguments left out. -/
def dotted : Nat → List Char → List Char
  | _, [] => []
  | depth, c :: cs =>
    if c = '<' then dotted (depth + 1) cs
    else if c = '>' then dotted (depth - 1) cs
    else if depth = 0 ∧ (c = '.' ∨ isWordOrDollar c = true) then c :: dotted depth cs
    else dotted depth cs

/-- Type arguments are left out, by induction on their nesting. -/
theorem dotted_matched (h : Matched as) (depth : Nat) (rest : List Char) :
    dotted (depth + 1) (as ++ rest) = dotted (depth + 1) rest := by
  induction h generalizing depth rest with
  | nil => rfl
  | plain hopen hclose _ ih => rw [List.cons_append, dotted, if_neg hopen, if_neg hclose, if_neg (by simp), ih]
  | angles _ _ ihinside ih =>
    rw [List.cons_append, List.append_assoc, dotted, if_pos rfl, ihinside, List.cons_append, dotted, if_neg (by decide),
      if_pos rfl, Nat.add_sub_cancel, ih]

theorem dotted_word (hw : ∀ c ∈ w, isWordOrDollar c = true) (rest : List Char) : dotted 0 (w ++ rest) = w ++ dotted 0 rest := by
  induction w with
  | nil => rfl
  | cons c w ih =>
    obtain ⟨hc, hw⟩ := List.forall_mem_cons.1 hw
    have hne : ∀ {m : Char}, isWordOrDollar m = false → c ≠ m := by
      rintro m hm rfl
      rw [hc] at hm
      cases hm
    rw [List.cons_append, dotted, if_neg (hne (isWordOrDollar_of_ascii (by decide) (by decide))),
      if_neg (hne (isWordOrDollar_of_ascii (by decide) (by decide))), if_pos ⟨rfl, .inr hc⟩, ih hw, List.cons_append]

theorem dotted_point (rest : List Char) : dotted 0 ('.' :: rest) = '.' :: dotted 0 rest := by
  rw [dotted, if_neg (by decide), if_neg (by decide), if_pos ⟨rfl, .inl rfl⟩]

theorem dotted_other {c : Char} (hc : c ≠ '<' ∧ c ≠ '>' ∧ c ≠ '.') (hword : isWordOrDollar c = false) (rest : List Char) :
    dotted 0 (c :: rest) = dotted 0 rest := by
  rw [dotted, if_neg hc.1, if_neg hc.2.1, if_neg (by simp [hc.2.2, hword])]

theorem dotted_space {c : Char} (hc : isSpace c = true) (rest : List Char) : dotted 0 (c :: rest) = dotted 0 rest := by
  refine dotted_other ⟨?_, ?_, ?_⟩ ?_ rest
  · rintro rfl; exact absurd hc (by decide)
  · rintro rfl; exact absurd hc (by decide)
  · rintro rfl; exact absurd hc (by decide)
  · rw [Bool.eq_false_iff]
    intro hword
    rw [isSpace_of_isWordOrDollar hword] at hc
    cases hc

theorem SimpleName.dotted (h : SimpleName t w) : ∃ front, (∀ c ∈ front.getLast?, c = '.') ∧
    ∀ rest, Java.dotted 0 (t ++ rest) = front ++ (w ++ Java.dotted 0 rest) := by
  induction h with
  | name hw => exact ⟨[], by simp, fun rest => dotted_word hw.chars rest⟩
  | @member t u v w _ _ iht ihu =>
    obtain ⟨front, -, ht⟩ := iht
    obtain ⟨front', hlast, hu⟩ := ihu
    refine ⟨front ++ (v ++ '.' :: front'), fun c hc => ?_, fun rest => ?_⟩
    · cases front' with
      | nil => exact (by simpa using hc : '.' = c).symm
      | cons d front' =>
        rw [← List.append_assoc, List.getLast?_append_of_ne_nil _ (by simp), List.getLast?_cons_cons] at hc
        exact hlast c hc
    · rw [List.append_assoc, ht, List.cons_append, dotted_point, hu]
      simp only [List.append_assoc, List.cons_append]
  | generic _ has ih =>
    obtain ⟨front, hlast, ht⟩ := ih
    refine ⟨front, hlast, fun rest => ?_⟩
    rw [List.append_assoc, ht, List.cons_append, List.append_assoc, Java.dotted, if_pos rfl, dotted_matched has,
      List.singleton_append, Java.dotted, if_neg (by decide), if_pos rfl]
  | array _ ih =>
    obtain ⟨front, hlast, ht⟩ := ih
    refine ⟨front, hlast, fun rest => ?_⟩
    rw [List.append_assoc, ht, List.cons_append, List.singleton_append,
      dotted_other (by decide) (isWordOrDollar_of_ascii (by decide) (by decide)),
      dotted_other (by decide) (isWordOrDollar_of_ascii (by decide) (by decide))]
  | indented hc _ ih =>
    obtain ⟨front, hlast, ht⟩ := ih
    exact ⟨front, hlast, fun rest => by rw [List.cons_append, dotted_space hc, ht]⟩
  | spaced hc _ ih =>
    obtain ⟨front, hlast, ht⟩ := ih
    exact ⟨front, hlast, fun rest => by rw [List.append_assoc, ht, List.singleton_append, dotted_space hc]⟩

theorem lastPart_append {front name : List Char} (hname : '.' ∉ name) (hfront : ∀ c ∈ front.getLast?, c = '.') :
    lastPart (front ++ name) = name := by
  have hall : ∀ c ∈ name.reverse, decide (c ≠ '.') = true := by
    intro c hc
    rw [decide_eq_true_iff]
    rintro rfl
    exact hname (List.mem_reverse.1 hc)
  have hstop : Stops (fun c => decide (c ≠ '.')) front.reverse := by
    intro c hc
    rw [List.head?_reverse] at hc
    simp [hfront c hc]
  rw [lastPart, List.reverse_append, takeWhile_append_of_stops hall hstop, List.reverse_reverse]

theorem SimpleName.unique (h : SimpleName t v) (h' : SimpleName t w) : v = w := by
  have hlast : ∀ {w : List Char}, SimpleName t w → lastPart (Java.dotted 0 t) = w := by
    intro w h
    obtain ⟨front, hfront, ht⟩ := h.dotted
    have hdotted := ht []
    rw [Java.dotted, List.append_nil, List.append_nil] at hdotted
    rw [hdotted, lastPart_append (h.typeWord.notMem (isWordOrDollar_of_ascii (by decide) (by decide))) hfront]
  rw [← hlast h, hlast h']

/-! What the reader takes for the simple name. -/

theorem dropDimensions_of_head? {cs : List Char} (h : ∀ c ∈ cs.head?, c ≠ ']') : dropDimensions cs = cs := by
  unfold dropDimensions
  split
  · exact absurd rfl (h ']' rfl)
  · rfl

theorem dropDimensions_dimensions (n : Nat) (cs : List Char) :
    dropDimensions ((dimensions n).reverse ++ cs) = dropDimensions cs := by
  induction n with
  | zero => rfl
  | succ n ih =>
    have hmore : dimensions (n + 1) = dimensions n ++ ['[', ']'] := by
      simp [dimensions, List.replicate_succ', List.flatten_append]
    rw [hmore, List.reverse_append]
    exact ih

theorem mem_dimensions {n : Nat} {c : Char} (hc : c ∈ dimensions n) : c = '[' ∨ c = ']' := by
  obtain ⟨pair, hpair, hc⟩ := List.mem_flatten.1 hc
  rw [(List.mem_replicate.1 hpair).2] at hc
  simpa using hc

theorem trim_dropDimensions {front gap : List Char} (hne : front ≠ []) (hhead : ∀ c ∈ front.head?, isSpace c = false)
    (hlast : ∀ c ∈ front.getLast?, isWordOrDollar c = true) (hgap : ∀ c ∈ gap, isSpace c = true) (n : Nat) :
    trim isSpace (dropDimensions (trim isSpace (front ++ gap ++ dimensions n)).reverse).reverse = front := by
  have hfront : trim isSpace front = front := trim_eq_self hhead fun c hc => isSpace_of_isWordOrDollar (hlast c hc)
  have hbracket : ∀ {gap : List Char}, (∀ c ∈ gap, isSpace c = true) →
      dropDimensions (front ++ gap).reverse = (front ++ gap).reverse := by
    intro gap hgap
    refine dropDimensions_of_head? fun c hc => ?_
    rw [List.head?_reverse] at hc
    rintro rfl
    cases gap with
    | nil =>
      have hword : isWordOrDollar ']' = true := hlast _ (by rwa [List.append_nil] at hc)
      rw [isWordOrDollar_of_ascii (by decide) (by decide)] at hword
      cases hword
    | cons d gap =>
      rw [List.getLast?_append_of_ne_nil _ (by simp)] at hc
      exact absurd (hgap _ (List.mem_of_getLast? hc)) (by decide)
  cases n with
  | zero =>
    have hnone : dropDimensions (front ++ []).reverse = (front ++ []).reverse := hbracket (by simp)
    rw [List.append_nil] at hnone
    rw [dimensions, List.replicate_zero, List.flatten_nil, List.append_nil, trim_append_right hgap, hfront, hnone,
      List.reverse_reverse, hfront]
  | succ n =>
    have hkept : trim isSpace (front ++ gap ++ dimensions (n + 1)) = front ++ gap ++ dimensions (n + 1) := by
      refine trim_eq_self (fun c hc => hhead c ?_) fun c hc => ?_
      · rwa [List.append_assoc, List.head?_append_of_ne_nil _ hne] at hc
      · rw [List.getLast?_append_of_ne_nil _ (by simp [dimensions, List.replicate_succ])] at hc
        rcases mem_dimensions (List.mem_of_getLast? hc) with rfl | rfl <;> decide
    rw [hkept, List.reverse_append, dropDimensions_dimensions, hbracket hgap, List.reverse_reverse, trim_append_right hgap,
      hfront]

/-- How a type is spelled where the reader finds its simple name: a qualifier without type arguments, the name right
behind its last point, spaces, dimensions, and type arguments or nothing. -/
structure PlainSpelling (t w : List Char) : Prop where
  word : TypeWord w
  parts : ∃ (qualifier gap : List Char) (n : Nat) (more : List Char), t = qualifier ++ (w ++ (gap ++ (dimensions n ++ more))) ∧
    '<' ∉ qualifier ∧ (∀ c ∈ qualifier.head?, isSpace c = false) ∧ (∀ c ∈ qualifier.getLast?, c = '.') ∧
    (∀ c ∈ gap, isSpace c = true) ∧ ∀ c ∈ more.head?, c = '<'

theorem PlainSpelling.simpleTypeName (h : PlainSpelling t w) : simpleTypeName (String.ofList t) = String.ofList w := by
  obtain ⟨hw, qualifier, gap, n, more, rfl, hangle, hhead, hpoint, hgap, hmore⟩ := h
  have hbase : (qualifier ++ (w ++ (gap ++ (dimensions n ++ more)))).takeWhile (· ≠ '<') =
      qualifier ++ w ++ gap ++ dimensions n := by
    have hall : ∀ c ∈ qualifier ++ w ++ gap ++ dimensions n, decide (c ≠ '<') = true := by
      intro c hc
      rw [decide_eq_true_iff]
      rintro rfl
      rw [List.mem_append, List.mem_append, List.mem_append] at hc
      rcases hc with ((hc | hc) | hc) | hc
      · exact hangle hc
      · exact hw.notMem (isWordOrDollar_of_ascii (by decide) (by decide)) hc
      · exact absurd (hgap _ hc) (by decide)
      · exact absurd (mem_dimensions hc) (by decide)
    have hstop : Stops (fun c => decide (c ≠ '<')) more := fun c hc => by simp [hmore c hc]
    rw [← takeWhile_append_of_stops hall hstop]
    simp only [List.append_assoc]
  have hstart : ∀ c ∈ (qualifier ++ w).head?, isSpace c = false := by
    intro c hc
    cases hq : qualifier with
    | nil =>
      rw [hq, List.nil_append] at hc
      exact isSpace_of_isWordOrDollar (hw.chars c (List.mem_of_mem_head? hc))
    | cons d ds =>
      rw [hq] at hc hhead
      exact hhead c hc
  have hlast : ∀ c ∈ (qualifier ++ w).getLast?, isWordOrDollar c = true := by
    intro c hc
    rw [List.getLast?_append_of_ne_nil _ hw.nonempty] at hc
    exact hw.chars c (List.mem_of_getLast? hc)
  have hne : qualifier ++ w ≠ [] := List.append_ne_nil_of_right_ne_nil qualifier hw.nonempty
  rw [Java.simpleTypeName, String.toList_ofList]
  simp only [hbase, trim_dropDimensions hne hstart hlast hgap n]
  rw [lastPart_append (hw.notMem (isWordOrDollar_of_ascii (by decide) (by decide))) hpoint]

/-- Where the simple name of a type is found in its spelling, the reader finds it. -/
theorem simpleTypeName_eq_iff {type name : String} (h : SimpleName type.toList w) (hplain : PlainSpelling type.toList w) :
    simpleTypeName type = name ↔ SimpleName type.toList name.toList := by
  have hread : simpleTypeName type = String.ofList w := by rw [← hplain.simpleTypeName, String.ofList_toList]
  rw [hread]
  constructor
  · rintro rfl
    rwa [String.toList_ofList]
  · intro hname
    rw [h.unique hname, String.ofList_toList]

/-- The type of a parameter that takes any number of arguments; it is that of no single value. -/
def IsVariadic (type : String) : Prop := ∃ element, type.toList = element ++ "...".toList ∧ '<' ∉ element

theorem SimpleName.getLast?_ne (h : SimpleName t w) : ∃ c, t.getLast? = some c ∧ c ≠ '.' := by
  induction h with
  | name hw =>
    refine ⟨_, List.getLast?_eq_getLast_of_ne_nil hw.nonempty, fun heq => ?_⟩
    exact hw.notMem (isWordOrDollar_of_ascii (by decide) (by decide)) (heq ▸ List.getLast_mem hw.nonempty)
  | @member t u v w _ _ _ ih =>
    obtain ⟨c, hc, hne⟩ := ih
    have hu : u ≠ [] := by
      rintro rfl
      cases hc
    obtain ⟨d, u, rfl⟩ := List.exists_cons_of_ne_nil hu
    exact ⟨c, by rw [List.getLast?_append_of_ne_nil _ (by simp), List.getLast?_cons_cons, hc], hne⟩
  | generic _ _ _ => exact ⟨'>', by rw [List.getLast?_append_of_ne_nil _ (by simp), ← List.cons_append, List.getLast?_concat], by decide⟩
  | array _ _ => exact ⟨']', by simp, by decide⟩
  | indented _ _ ih =>
    obtain ⟨c, hc, hne⟩ := ih
    exact ⟨c, by rw [List.getLast?_cons, hc]; rfl, hne⟩
  | @spaced c _ _ hc _ _ =>
    refine ⟨c, by simp, ?_⟩
    rintro rfl
    exact absurd hc (by decide)

theorem IsVariadic.not_simpleName {type : String} (h : IsVariadic type) : ¬SimpleName type.toList w := by
  obtain ⟨element, htype, -⟩ := h
  intro hname
  obtain ⟨c, hc, hne⟩ := hname.getLast?_ne
  rw [htype, List.getLast?_append_of_ne_nil _ (by decide)] at hc
  exact hne (Option.some.inj hc).symm

theorem trim_point (cs : List Char) : trim isSpace (cs ++ ['.']) = cs.dropWhile isSpace ++ ['.'] := by
  have hdrop : (cs ++ ['.']).dropWhile isSpace = cs.dropWhile isSpace ++ ['.'] := by
    rw [List.dropWhile_append]
    split
    · rename_i hempty
      rw [List.isEmpty_iff.1 hempty]
      rfl
    · rfl
  rw [trim, hdrop, dropEnd_eq_self]
  simp only [List.getLast?_concat, Option.mem_def, Option.some.injEq, forall_eq']
  decide

/-- The reader finds no name where any number of arguments is taken. -/
theorem IsVariadic.simpleTypeName {type : String} (h : IsVariadic type) : simpleTypeName type = "" := by
  obtain ⟨element, htype, hangle⟩ := h
  have htake : type.toList.takeWhile (· ≠ '<') = element ++ ['.', '.'] ++ ['.'] := by
    rw [htype, List.append_assoc]
    refine List.takeWhile_eq_self_iff.2 fun c hc => decide_eq_true ?_
    rintro rfl
    exact (List.mem_append.1 hc).elim hangle (by decide)
  have hdims : ∀ front : List Char, dropDimensions (front ++ ['.']).reverse = (front ++ ['.']).reverse := by
    intro front
    refine dropDimensions_of_head? fun c hc => ?_
    rw [List.head?_reverse, List.getLast?_concat] at hc
    rw [← Option.some.inj hc]
    decide
  have hlast : ∀ front : List Char, lastPart (front ++ ['.']) = [] := fun front => by rw [lastPart, List.reverse_append]; rfl
  rw [Java.simpleTypeName]
  simp only [htake, trim_point, hdims, List.reverse_reverse, hlast, String.ofList_nil]

/-- The name of an annotation, dotted or not, as it is read behind the at-sign. -/
def IsDotted (path : String) : Prop := ∀ c ∈ path.toList, isIdent c = true ∨ c = '.'

instance (path : String) : Decidable (IsDotted path) :=
  List.decidableBAll (fun c => isIdent c = true ∨ c = '.') path.toList

/-- Some path has the simple name. -/
def Annotated (annotations : List String) (name : String) : Prop :=
  ∃ a ∈ annotations, ∃ qualifier, a.toList = qualifier ++ name.toList ∧ ∀ c ∈ qualifier.getLast?, c = '.'

theorem exists_lastPart (cs : List Char) : ∃ front, cs = front ++ lastPart cs ∧ ∀ c ∈ front.getLast?, c = '.' := by
  refine ⟨(cs.reverse.dropWhile (· ≠ '.')).reverse, ?_, fun c hc => ?_⟩
  · rw [lastPart, ← List.reverse_append, List.takeWhile_append_dropWhile, List.reverse_reverse]
  · rw [List.getLast?_reverse] at hc
    have hstop := List.head?_dropWhile_not (· ≠ '.') cs.reverse
    rw [Option.mem_def.1 hc] at hstop
    simpa using hstop

theorem simpleTypeName_of_isDotted {path : String} (h : IsDotted path) :
    simpleTypeName path = String.ofList (lastPart path.toList) := by
  have hne : ∀ c ∈ path.toList, c ≠ '<' ∧ c ≠ ']' ∧ isSpace c = false := by
    intro c hc
    rcases h c hc with hident | rfl
    · refine ⟨?_, ?_, isSpace_of_isIdent hident⟩
      · rintro rfl; exact absurd hident (by decide)
      · rintro rfl; exact absurd hident (by decide)
    · decide
  have htrim : trim isSpace path.toList = path.toList :=
    trim_eq_self (fun c hc => (hne c (List.mem_of_mem_head? hc)).2.2) fun c hc => (hne c (List.mem_of_getLast? hc)).2.2
  have htake : path.toList.takeWhile (· ≠ '<') = path.toList :=
    List.takeWhile_eq_self_iff.2 fun c hc => decide_eq_true (hne c hc).1
  have hdims : dropDimensions path.toList.reverse = path.toList.reverse :=
    dropDimensions_of_head? fun c hc => (hne c (List.mem_reverse.1 (List.mem_of_mem_head? hc))).2.1
  rw [simpleTypeName]
  simp only [htake, htrim, hdims, List.reverse_reverse]

theorem hasNullable_iff {annotations : List String} (h : ∀ a ∈ annotations, IsDotted a) :
    hasNullable annotations = true ↔ Annotated annotations "Nullable" := by
  rw [hasNullable, List.any_eq_true, Annotated]
  refine exists_congr fun a => and_congr_right fun ha => ?_
  rw [decide_eq_true_iff, simpleTypeName_of_isDotted (h a ha)]
  constructor
  · intro hlast
    obtain ⟨front, hfront, hpoint⟩ := exists_lastPart a.toList
    exact ⟨front, by rw [← hlast, String.toList_ofList, ← hfront], hpoint⟩
  · rintro ⟨qualifier, ha, hpoint⟩
    rw [ha, lastPart_append (by decide) hpoint, String.ofList_toList]

end WireLayout.Java
