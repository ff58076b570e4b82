import WireLayout.Proofs.Layout.IntegerText

/-! Which texts are read as numbers, and as which. Besides the literals of the language these are texts with a second
sign, which the digits of each base may have, with underscores around the mark of the base, and with more than one
letter behind the digits. Only a second minus sign leads out of the 64 bits of a number: the smallest of them has no
negation. -/

namespace WireLayout

open WireLayout.Text

variable {base n : Nat} {m : Int} {c : Char} {cs : List Char}

namespace IntLiteral

def marks : List (Nat × List Char) :=
  [(10, []), (8, ['0'])] ++ baseMarks.map fun m => (m.1, ['0', m.2])

def isSign (c : Char) : Bool := c = '-' || c = '+'

/-- A number behind a sign. -/
def signedValue (sign : Option Char) (m : Int) : Int := if sign = some '-' then -m else m

def limit (sign : Option Char) : Nat := if sign = some '-' then maxLong + 1 else maxLong

/-- A text without its underscores. -/
def joined (cs : List Char) : List Char := cs.filter (· ≠ '_')

theorem joined_append (as bs : List Char) : joined (as ++ bs) = joined as ++ joined bs := List.filter_append ..

/-! Digits with a sign of their own. -/

theorem ne_nil_of_digits? (h : digits? base cs = some n) : cs ≠ [] := by
  rintro rfl
  cases h

theorem digitsFrom_of_digits? (h : digits? base cs = some n) : digitsFrom base 0 cs = some n := by
  rwa [digits?, if_neg (by simpa using ne_nil_of_digits? h)] at h

theorem isIdent_of_digits? (h : digits? base cs = some n) : ∀ c ∈ cs, isIdent c = true :=
  fun c hc => isIdent_of_digit? (isSome_digit?_of_digitsFrom (digitsFrom_of_digits? h) c hc)

theorem isIdent_of_isSign (h : isSign c = true) : isIdent c = false := by
  simp only [isSign, Bool.or_eq_true, decide_eq_true_eq] at h
  rcases h with rfl | rfl <;> decide

theorem signed?_minus (base : Nat) (cs : List Char) :
    signed? base ('-' :: cs) = ((digits? base cs).filter (· ≤ maxLong + 1)).map fun n : Nat => -(n : Int) := by
  rw [signed?]
  cases (digits? base cs).filter (· ≤ maxLong + 1) <;> rfl

theorem signed?_eq_some_iff : signed? base cs = some m ↔ ∃ sign digits n, cs = sign.toList ++ digits ∧
    (∀ c ∈ sign, isSign c = true) ∧ digits? base digits = some n ∧ n ≤ limit sign ∧ m = signedValue sign n := by
  constructor
  · intro h
    unfold signed? at h
    split at h
    · rename_i ds
      rw [← signed?, signed?_minus] at h
      obtain ⟨n, hn, rfl⟩ := Option.map_eq_some_iff.1 h
      obtain ⟨hdigits, hle⟩ := Option.filter_eq_some_iff.1 hn
      exact ⟨some '-', ds, n, rfl, by simp [isSign], hdigits, of_decide_eq_true hle, rfl⟩
    · rename_i ds
      obtain ⟨n, hn, rfl⟩ := Option.map_eq_some_iff.1 h
      obtain ⟨hdigits, hle⟩ := Option.filter_eq_some_iff.1 hn
      exact ⟨some '+', ds, n, rfl, by simp [isSign], hdigits, of_decide_eq_true hle, rfl⟩
    · obtain ⟨n, hn, rfl⟩ := Option.map_eq_some_iff.1 h
      obtain ⟨hdigits, hle⟩ := Option.filter_eq_some_iff.1 hn
      exact ⟨none, cs, n, rfl, by simp, hdigits, of_decide_eq_true hle, rfl⟩
  · rintro ⟨sign, digits, n, rfl, hsign, hdigits, hle, rfl⟩
    have hfilter : (digits? base digits).filter (· ≤ limit sign) = some n :=
      Option.filter_eq_some_iff.2 ⟨hdigits, decide_eq_true hle⟩
    cases sign with
    | none => exact signed?_of_digitsFrom (ne_nil_of_digits? hdigits) (digitsFrom_of_digits? hdigits) hle
    | some c =>
      have hc := hsign c rfl
      simp only [isSign, Bool.or_eq_true, decide_eq_true_eq] at hc
      rcases hc with rfl | rfl
      · rw [Option.toList_some, List.singleton_append, signed?_minus]
        exact Option.map_eq_some_iff.2 ⟨n, hfilter, rfl⟩
      · exact Option.map_eq_some_iff.2 ⟨n, hfilter, rfl⟩

theorem exists_of_signed? (h : signed? base cs = some m) :
    ∃ c rest, cs = c :: rest ∧ (isSign c = true ∨ (digit? base c).isSome) := by
  obtain ⟨sign, digits, n, rfl, hsign, hdigits, -, -⟩ := signed?_eq_some_iff.1 h
  cases sign with
  | none =>
    obtain ⟨c, rest, rfl⟩ := List.exists_cons_of_ne_nil (ne_nil_of_digits? hdigits)
    exact ⟨c, rest, rfl, .inr (isSome_digit?_of_digitsFrom (digitsFrom_of_digits? hdigits) c List.mem_cons_self)⟩
  | some c => exact ⟨c, digits, rfl, .inl (hsign c rfl)⟩

/-! Signed digits behind the mark of their base. -/

/-- A decimal number has no zero in front, which would be the mark of another base. -/
def Unmarked (cs : List Char) : Prop := (∀ c ∈ cs.head?, c ≠ '0') ∨ cs = ['0']

theorem mem_marks {mark : List Char} (h : (base, mark) ∈ marks) :
    base = 10 ∧ mark = [] ∨ base = 8 ∧ mark = ['0'] ∨ ∃ letter, (base, letter) ∈ baseMarks ∧ mark = ['0', letter] := by
  simpa [marks, and_comm, eq_comm] using h

theorem isIdent_of_mem_mark {mark : List Char} (h : (base, mark) ∈ marks) : ∀ c ∈ mark, isIdent c = true := by
  intro c hc
  rcases mem_marks h with ⟨-, rfl⟩ | ⟨-, rfl⟩ | ⟨letter, hletter, rfl⟩
  · cases hc
  · rw [List.mem_singleton.1 hc]
    decide
  · rcases List.mem_pair.1 hc with rfl | rfl
    · decide
    · exact (of_mem_baseMarks hletter).2.2.1

theorem magnitude?_eq_some_iff : magnitude? cs = some m ↔ ∃ base mark rest, (base, mark) ∈ marks ∧
    cs = mark ++ rest ∧ (base = 10 → Unmarked rest) ∧ signed? base rest = some m := by
  constructor
  · intro h
    unfold magnitude? at h
    split at h
    · cases h
    · exact ⟨16, ['0', 'x'], _, by decide, rfl, by simp, h⟩
    · exact ⟨16, ['0', 'X'], _, by decide, rfl, by simp, h⟩
    · exact ⟨2, ['0', 'b'], _, by decide, rfl, by simp, h⟩
    · exact ⟨2, ['0', 'B'], _, by decide, rfl, by simp, h⟩
    · exact ⟨8, ['0'], _, by decide, rfl, by simp, h⟩
    · rename_i hzero
      refine ⟨10, [], cs, by decide, rfl, fun _ => ?_, h⟩
      rw [Unmarked, or_iff_not_imp_left]
      intro hhead
      cases cs with
      | nil => simp at hhead
      | cons c rest =>
        obtain rfl : c = '0' := by simpa using hhead
        cases rest with
        | nil => rfl
        | cons d rest => exact (hzero d rest rfl).elim
  · rintro ⟨base, mark, rest, hmark, rfl, hdecimal, h⟩
    obtain ⟨c, rest, rfl, hc⟩ := exists_of_signed? h
    rcases mem_marks hmark with ⟨rfl, rfl⟩ | ⟨rfl, rfl⟩ | ⟨letter, hletter, rfl⟩
    · exact (magnitude?_of_head (List.cons_ne_nil c rest) (hdecimal rfl)).trans h
    · -- no letter of a mark is a digit of base eight
      have hletters : ∀ p ∈ baseMarks, isSign p.2 = false ∧ digit? 8 p.2 = none := by decide
      refine (magnitude?_zero fun p hp heq => ?_).trans h
      rw [heq, (hletters p hp).1, (hletters p hp).2] at hc
      simp at hc
    · exact (magnitude?_mark hletter).trans h

end IntLiteral

open IntLiteral

/-- The parts of a text of digits: the mark of their base, a second sign, the digits and the letters behind them. Mark
and digits may hold underscores. -/
structure Magnitude where
  base : Nat
  mark : List Char
  second : Option Char
  digits : List Char
  letters : List Char

namespace Magnitude

def text (t : Magnitude) : List Char := t.mark ++ (t.second.toList ++ (t.digits ++ t.letters))

def value (t : Magnitude) (n : Nat) : Int := signedValue t.second n

structure Spells (t : Magnitude) (n : Nat) : Prop where
  mark : (t.base, joined t.mark) ∈ marks
  second : ∀ c ∈ t.second, isSign c = true
  digits : digits? t.base (joined t.digits) = some n
  decimal : t.base = 10 → t.second = none → Unmarked (joined t.digits)
  letters : ∀ c ∈ t.letters, isSuffix c = true
  bound : n ≤ limit t.second

variable {t : Magnitude}

theorem base_le (h : (base, cs) ∈ marks) : base ≤ 16 := by
  have hall : ∀ m ∈ marks, m.1 ≤ 16 := by decide
  exact hall _ h

theorem mem_joined (hc : c ∈ cs) : c = '_' ∨ c ∈ joined cs := by
  by_cases h : c = '_'
  · exact .inl h
  · exact .inr (List.mem_filter.2 ⟨hc, by simpa using h⟩)

theorem last_digits (h : t.Spells n) : ∀ c ∈ t.digits.getLast?, isSuffix c = false := by
  intro c hc
  rcases mem_joined (List.mem_of_getLast? hc) with rfl | hmem
  · decide
  · have hletters : ∀ base ≤ 16, digit? base 'L' = none ∧ digit? base 'l' = none := by decide
    obtain ⟨hL, hl⟩ := hletters t.base (base_le h.mark)
    have hdigits := digitsFrom_of_digits? h.digits
    simp [isSuffix, ne_of_mem_digits hdigits hmem hL, ne_of_mem_digits hdigits hmem hl]

theorem joined_second (h : ∀ c ∈ t.second, isSign c = true) : joined t.second.toList = t.second.toList := by
  refine List.filter_eq_self.2 fun c hc => ?_
  have hsign := h c (Option.mem_toList.1 hc)
  simp only [isSign, Bool.or_eq_true, decide_eq_true_eq] at hsign
  rcases hsign with rfl | rfl <;> decide

theorem body_text (h : t.Spells n) : body t.text = joined t.mark ++ (t.second.toList ++ joined t.digits) := by
  have hdigits : t.digits ≠ [] := by
    intro hnil
    exact ne_nil_of_digits? h.digits (by rw [hnil]; rfl)
  have hlast : ∀ c ∈ (t.mark ++ (t.second.toList ++ t.digits)).getLast?, isSuffix c = false := by
    rw [List.getLast?_append_of_ne_nil _ (by simp [hdigits]), List.getLast?_append_of_ne_nil _ hdigits]
    exact last_digits h
  have htext : t.text = (t.mark ++ (t.second.toList ++ t.digits)) ++ t.letters := by simp [text]
  rw [htext, body, dropEnd_append_right h.letters, dropEnd_eq_self hlast, ← joined, joined_append, joined_append,
    joined_second h.second]

/-- A second sign and the digits behind it, in a text with underscores. -/
theorem exists_second {second : Option Char} {digits : List Char} (hsecond : ∀ c ∈ second, isSign c = true)
    (h : joined cs = second.toList ++ digits) :
    ∃ gap digits', cs = gap ++ (second.toList ++ digits') ∧ joined gap = [] ∧ joined digits' = digits := by
  cases second with
  | none => exact ⟨[], cs, rfl, rfl, h⟩
  | some c =>
    obtain ⟨gap, digits', rfl, hgap, -, hdigits⟩ := List.filter_eq_cons_iff.1 h
    exact ⟨gap, digits', rfl, List.filter_eq_nil_iff.2 hgap, hdigits⟩

theorem magnitude?_body_iff : magnitude? (body cs) = some m ↔
    ∃ (t : Magnitude) (n : Nat), cs = t.text ∧ t.Spells n ∧ m = t.value n := by
  constructor
  · intro h
    obtain ⟨base, mark, rest, hmark, hbody, hdecimal, hrest⟩ := magnitude?_eq_some_iff.1 h
    obtain ⟨second, digits, n, rfl, hsecond, hdigits, hbound, rfl⟩ := signed?_eq_some_iff.1 hrest
    obtain ⟨mark', rest', hsplit, hmark', hrest'⟩ := List.filter_eq_append_iff.1 hbody
    obtain ⟨gap, digits', rfl, hgap, rfl⟩ := exists_second hsecond hrest'
    obtain ⟨letters, hletters, hcs⟩ : ∃ letters, (∀ c ∈ letters, isSuffix c = true) ∧
        dropEnd isSuffix cs ++ letters = cs := by
      refine ⟨(cs.reverse.takeWhile isSuffix).reverse, ?_, ?_⟩
      · exact fun c hc => List.mem_takeWhile_imp (List.mem_reverse.1 hc)
      · rw [dropEnd, ← List.reverse_append, List.takeWhile_append_dropWhile, List.reverse_reverse]
    rw [hsplit] at hcs
    refine ⟨⟨base, mark' ++ gap, second, digits', letters⟩, n, ?_, ?_, rfl⟩
    · rw [← hcs]
      simp [text]
    · have hjoined : joined (mark' ++ gap) = mark := by
        rw [joined_append, hgap, List.append_nil]
        exact hmark'
      refine ⟨by rw [hjoined]; exact hmark, hsecond, hdigits, fun hbase hnone => ?_, hletters, hbound⟩
      have hunmarked := hdecimal hbase
      rwa [show second = none from hnone] at hunmarked
  · rintro ⟨t, n, rfl, h, rfl⟩
    rw [body_text h]
    refine magnitude?_eq_some_iff.2 ⟨t.base, joined t.mark, _, h.mark, rfl, fun hbase => ?_,
      signed?_eq_some_iff.2 ⟨t.second, joined t.digits, n, rfl, h.second, h.digits, h.bound, rfl⟩⟩
    cases hsecond : t.second with
    | none => exact h.decimal hbase hsecond
    | some c =>
      -- a sign in front is no mark
      left
      rintro d hd rfl
      obtain rfl : c = '0' := Option.some.inj hd
      exact absurd (h.second '0' hsecond) (by decide)

theorem isSpace_of_mem_text (h : t.Spells n) : ∀ c ∈ t.text, isSpace c = false := by
  have hunder : isSpace '_' = false := by decide
  have hsign : ∀ c, isSign c = true → isSpace c = false := by
    intro c hc
    simp only [isSign, Bool.or_eq_true, decide_eq_true_eq] at hc
    rcases hc with rfl | rfl <;> decide
  have hletter : ∀ c, isSuffix c = true → isSpace c = false := by
    intro c hc
    simp only [isSuffix, Bool.or_eq_true, decide_eq_true_eq] at hc
    rcases hc with rfl | rfl <;> decide
  intro c hc
  rw [text, List.mem_append, List.mem_append, List.mem_append] at hc
  rcases hc with hc | hc | hc | hc
  · rcases mem_joined hc with rfl | hc
    · exact hunder
    · exact isSpace_of_isIdent (isIdent_of_mem_mark h.mark c hc)
  · exact hsign c (h.second c (Option.mem_toList.1 hc))
  · rcases mem_joined hc with rfl | hc
    · exact hunder
    · exact isSpace_of_isIdent (isIdent_of_digits? h.digits c hc)
  · exact hletter c (h.letters c hc)

theorem isSign_of_mem_text (h : t.Spells n) (hsecond : t.second = none) : ∀ c ∈ t.text, isSign c = false := by
  have hident : ∀ c, isIdent c = true → isSign c = false := fun c hc => by
    by_contra hsign
    rw [isIdent_of_isSign (by simpa using hsign)] at hc
    cases hc
  intro c hc
  rw [text, hsecond, Option.toList_none, List.nil_append, List.mem_append, List.mem_append] at hc
  rcases hc with hc | hc | hc
  · rcases mem_joined hc with rfl | hc
    · decide
    · exact hident c (isIdent_of_mem_mark h.mark c hc)
  · rcases mem_joined hc with rfl | hc
    · decide
    · exact hident c (isIdent_of_digits? h.digits c hc)
  · have hletter := h.letters c hc
    simp only [isSuffix, Bool.or_eq_true, decide_eq_true_eq] at hletter
    rcases hletter with rfl | rfl <;> decide

theorem value_bounds (h : t.Spells n) : -(maxLong + 1 : Int) ≤ t.value n ∧ t.value n ≤ maxLong := by
  have hbound := h.bound
  unfold value signedValue
  unfold limit at hbound
  split at hbound
  · rename_i hminus
    rw [if_pos hminus]
    omega
  · rename_i hminus
    rw [if_neg hminus]
    omega

end Magnitude

/-- A text that is read as a number, without the space around it. Behind a minus sign may stand space. -/
structure Numeral where
  sign : Option Char
  gap : List Char
  magnitude : Magnitude

namespace Numeral

def text (t : Numeral) : List Char := t.sign.toList ++ (t.gap ++ t.magnitude.text)

def value (t : Numeral) (n : Nat) : Int := signedValue t.sign (t.magnitude.value n)

structure Spells (t : Numeral) (n : Nat) : Prop where
  sign : ∀ c ∈ t.sign, isSign c = true
  gap : ∀ c ∈ t.gap, isSpace c = true
  minus : t.gap ≠ [] → t.sign = some '-'
  magnitude : t.magnitude.Spells n
  /-- A sign at the beginning is the first one. -/
  first : t.sign = none → ∀ c ∈ t.magnitude.text.head?, isSign c = false

/-- One sign, one mark of a base, digits with underscores, and one letter behind them at most. -/
structure IsLiteral (t : Numeral) : Prop where
  second : t.magnitude.second = none
  mark : '_' ∉ t.magnitude.mark
  letters : t.magnitude.letters.length ≤ 1

/-- What a sign makes of the number behind it, within 64 bits. -/
def result (t : Numeral) (n : Nat) : Int :=
  if t.sign = some '-' then negate (t.magnitude.value n) else t.magnitude.value n

def Overflows (t : Numeral) (n : Nat) : Prop := t.sign = some '-' ∧ t.magnitude.value n = minLong

theorem exists_of_read? {v : Int} (h : read? cs = some v) : ∃ (t : Numeral) (n : Nat),
    trim isSpace cs = t.text ∧ t.Spells n ∧ v = t.result n ∧ (overflows cs = true ↔ t.Overflows n) := by
  unfold read? at h
  split at h
  · rename_i rest heq
    obtain ⟨m, hm, rfl⟩ := Option.map_eq_some_iff.1 h
    obtain ⟨t, n, htext, hspells, rfl⟩ := Magnitude.magnitude?_body_iff.1 hm
    refine ⟨⟨some '-', rest.takeWhile isSpace, t⟩, n, ?_, ?_, rfl, ?_⟩
    · rw [heq, text, ← htext, List.takeWhile_append_dropWhile]
      rfl
    · exact ⟨by simp [isSign], fun c hc => List.mem_takeWhile_imp hc, fun _ => rfl, hspells, by simp⟩
    · simp [overflows, heq, hm, Overflows]
  · rename_i rest heq
    obtain ⟨t, n, htext, hspells, rfl⟩ := Magnitude.magnitude?_body_iff.1 h
    refine ⟨⟨some '+', [], t⟩, n, by rw [heq, htext]; rfl, ?_, rfl, by simp [overflows, heq, Overflows]⟩
    exact ⟨by simp [isSign], by simp, by simp, hspells, by simp⟩
  · rename_i hminus hplus
    obtain ⟨t, n, htext, hspells, rfl⟩ := Magnitude.magnitude?_body_iff.1 h
    refine ⟨⟨none, [], t⟩, n, by rw [htext]; rfl, ?_, rfl, ?_⟩
    · refine ⟨by simp, by simp, by simp, hspells, fun _ c hc => ?_⟩
      obtain ⟨rest, hrest⟩ := List.head?_eq_some_iff.1 hc
      rw [hrest] at htext
      rw [isSign, Bool.or_eq_false_iff, decide_eq_false_iff_not, decide_eq_false_iff_not]
      exact ⟨fun heq => hminus rest (heq ▸ htext), fun heq => hplus rest (heq ▸ htext)⟩
    · unfold overflows
      split
      · rename_i rest heq
        exact (hminus rest heq).elim
      · simp [Overflows]

theorem Spells.gap_eq_nil {t : Numeral} (h : t.Spells n) (hsign : t.sign ≠ some '-') : t.gap = [] := by
  by_contra hgap
  exact hsign (h.minus hgap)

/-- The space behind a minus sign is passed over, and none stands among the parts. -/
theorem Spells.dropWhile_gap {t : Numeral} (h : t.Spells n) :
    (t.gap ++ t.magnitude.text).dropWhile isSpace = t.magnitude.text := by
  rw [List.dropWhile_append_of_pos h.gap]
  exact skipSpaces_of_stops fun c hc =>
    Magnitude.isSpace_of_mem_text h.magnitude c (List.mem_of_mem_head? hc)

theorem read?_of_spells {t : Numeral} (h : t.Spells n) (htext : trim isSpace cs = t.text) :
    read? cs = some (t.result n) ∧ (overflows cs = true ↔ t.Overflows n) := by
  have hread : magnitude? (body t.magnitude.text) = some (t.magnitude.value n) :=
    Magnitude.magnitude?_body_iff.2 ⟨t.magnitude, n, rfl, h.magnitude, rfl⟩
  have hdrop := h.dropWhile_gap
  have hgap := h.gap_eq_nil
  obtain ⟨sign, gap, m⟩ := t
  unfold read? overflows
  rw [htext]
  cases sign with
  | none =>
    obtain rfl := hgap (by simp)
    have hfirst := h.first rfl
    have hhead : ∀ c rest, text ⟨none, [], m⟩ = c :: rest → isSign c = false := fun c rest heq =>
      hfirst c (by rw [show m.text = c :: rest from heq]; rfl)
    split
    · rename_i rest heq
      exact absurd (hhead '-' rest heq) (by decide)
    · rename_i rest heq
      exact absurd (hhead '+' rest heq) (by decide)
    · rename_i hminus _
      refine ⟨hread, ?_⟩
      split
      · rename_i rest heq
        exact (hminus rest heq).elim
      · simp [Overflows]
  | some c =>
    have hc := h.sign c rfl
    simp only [isSign, Bool.or_eq_true, decide_eq_true_eq] at hc
    rcases hc with rfl | rfl
    · simp only [text, Option.toList_some, List.singleton_append, hdrop, hread, Option.map_some]
      exact ⟨rfl, by simp [Overflows]⟩
    · obtain rfl := hgap (by simp)
      exact ⟨hread, by simp [text, Overflows]⟩

/-- Which texts are read, as what, and where that overflows. -/
theorem read?_eq_some_iff {v : Int} {o : Bool} : (read? cs = some v ∧ overflows cs = o) ↔
    ∃ (t : Numeral) (n : Nat), trim isSpace cs = t.text ∧ t.Spells n ∧ v = t.result n ∧
      (o = true ↔ t.Overflows n) := by
  constructor
  · rintro ⟨h, rfl⟩
    exact exists_of_read? h
  · rintro ⟨t, n, htext, h, rfl, ho⟩
    obtain ⟨hread, hoverflows⟩ := read?_of_spells h htext
    exact ⟨hread, Bool.eq_iff_iff.2 (hoverflows.trans ho.symm)⟩

end Numeral

def IsLong (m : Int) : Prop := minLong ≤ m ∧ m ≤ maxLong

instance (m : Int) : Decidable (IsLong m) := inferInstanceAs (Decidable (_ ∧ _))

namespace Numeral

variable {t : Numeral}

/-- Of the numbers behind a minus sign only the least has a negative of more than 64 bits. -/
theorem isLong_value_iff (h : t.Spells n) : IsLong (t.value n) ↔ ¬ t.Overflows n := by
  obtain ⟨hlow, hhigh⟩ := Magnitude.value_bounds h.magnitude
  rw [value, signedValue, IsLong, Overflows, minLong]
  unfold maxLong at hlow hhigh ⊢
  split
  · rename_i hminus
    simp only [hminus, true_and]
    omega
  · rename_i hplus
    simp only [hplus, false_and, not_false_iff, iff_true]
    omega

theorem result_eq (h : t.Spells n) : t.result n = if IsLong (t.value n) then t.value n else minLong := by
  by_cases hover : t.Overflows n
  · rw [if_neg fun hlong => (isLong_value_iff h).1 hlong hover, result, if_pos hover.1, hover.2]
    rfl
  · rw [if_pos ((isLong_value_iff h).2 hover), result, value, signedValue]
    split
    · rename_i hminus
      exact if_neg fun hmin => hover ⟨hminus, hmin⟩
    · rfl

/-- The number behind the sign is the least one only behind a second minus sign. -/
theorem overflows_iff :
    t.Overflows n ↔ t.sign = some '-' ∧ t.magnitude.second = some '-' ∧ n = maxLong + 1 := by
  refine and_congr_right fun _ => ?_
  rw [Magnitude.value, signedValue, minLong, maxLong]
  split
  · rename_i hminus
    simp only [hminus, true_and]
    omega
  · rename_i hplus
    simp only [hplus, false_and, iff_false]
    omega

end Numeral

theorem checkedLiteral_eq_ok_iff {text : String} {v : Int} : checkedLiteral text = .ok (some v) ↔
    ∃ (t : Numeral) (n : Nat), trim isSpace text.toList = t.text ∧ t.Spells n ∧ v = t.value n ∧ IsLong v := by
  have hsplit : checkedLiteral text = .ok (some v) ↔ read? text.toList = some v ∧ overflows text.toList = false := by
    rw [checkedLiteral, intLiteral?]
    split <;> simp_all
  rw [hsplit, Numeral.read?_eq_some_iff]
  refine exists_congr fun t => exists_congr fun n => and_congr_right fun _ => and_congr_right fun h => ?_
  rw [Numeral.result_eq h, Bool.false_eq_true, false_iff, ← Numeral.isLong_value_iff h]
  constructor
  · rintro ⟨hv, hlong⟩
    rw [if_pos hlong] at hv
    exact ⟨hv, hv ▸ hlong⟩
  · rintro ⟨rfl, hlong⟩
    exact ⟨(if_pos hlong).symm, hlong⟩

theorem checkedLiteral_eq_overflow_iff {text : String} : checkedLiteral text = .error .overflow ↔
    ∃ (t : Numeral) (n : Nat), trim isSpace text.toList = t.text ∧ t.Spells n ∧ ¬ IsLong (t.value n) := by
  have hsplit : checkedLiteral text = .error .overflow ↔ overflows text.toList = true := by
    rw [checkedLiteral]
    split <;> simp_all
  rw [hsplit]
  constructor
  · intro ho
    obtain ⟨v, hread⟩ : ∃ v, read? text.toList = some v := by
      by_contra hnone
      rw [overflows_eq_false fun hmin => hnone ⟨_, hmin⟩] at ho
      cases ho
    obtain ⟨t, n, htext, h, -, hiff⟩ := Numeral.exists_of_read? hread
    exact ⟨t, n, htext, h, fun hlong => (Numeral.isLong_value_iff h).1 hlong (hiff.1 ho)⟩
  · rintro ⟨t, n, htext, h, hlong⟩
    rw [Numeral.isLong_value_iff h, not_not] at hlong
    exact (Numeral.read?_of_spells h htext).2.2 hlong

theorem intLiteral?_eq_some_iff {text : String} {v : Int} : intLiteral? text = some v ↔
    ∃ (t : Numeral) (n : Nat), trim isSpace text.toList = t.text ∧ t.Spells n ∧
      v = if IsLong (t.value n) then t.value n else minLong := by
  constructor
  · intro hread
    obtain ⟨t, n, htext, h, rfl, -⟩ := Numeral.exists_of_read? hread
    exact ⟨t, n, htext, h, Numeral.result_eq h⟩
  · rintro ⟨t, n, htext, h, rfl⟩
    rw [← Numeral.result_eq h]
    exact (Numeral.read?_of_spells h htext).1

/-- A text is read as a number exactly when it is a numeral without the space around it, and its reading breaks off
exactly when the value of the numeral is none of 64 bits. Without a second sign the number behind the sign is one of
the numbers up to the largest of 64 bits, so that its negation is one of 64 bits as well. With a second sign the
number is of 64 bits still, and its negation fails to be in one case only; unchecked it is the least number. -/
theorem checkedLiteral_iff_numeral (text : String) :
    (∀ v, checkedLiteral text = .ok (some v) ↔ ∃ (t : Numeral) (n : Nat),
        trim isSpace text.toList = t.text ∧ t.Spells n ∧ v = t.value n ∧ IsLong v) ∧
      (checkedLiteral text = .error .overflow ↔ ∃ (t : Numeral) (n : Nat),
        trim isSpace text.toList = t.text ∧ t.Spells n ∧ ¬ IsLong (t.value n)) ∧
      (∀ v, intLiteral? text = some v ↔ ∃ (t : Numeral) (n : Nat),
        trim isSpace text.toList = t.text ∧ t.Spells n ∧
          v = if IsLong (t.value n) then t.value n else minLong) ∧
      ∀ (t : Numeral) (n : Nat), t.Spells n →
        (t.magnitude.second = none → t.magnitude.value n = n ∧ n ≤ maxLong) ∧ IsLong (t.magnitude.value n) ∧
          (IsLong (t.value n) ↔ ¬ (t.sign = some '-' ∧ t.magnitude.second = some '-' ∧ n = maxLong + 1)) := by
  refine ⟨fun _ => checkedLiteral_eq_ok_iff, checkedLiteral_eq_overflow_iff, fun _ => intLiteral?_eq_some_iff,
    fun t n h => ⟨fun hsecond => ?_, ?_, ?_⟩⟩
  · have hbound := h.magnitude.bound
    rw [hsecond] at hbound
    exact ⟨by simp [Magnitude.value, signedValue, hsecond], hbound⟩
  · have hbounds := Magnitude.value_bounds h.magnitude
    unfold IsLong minLong
    unfold maxLong at hbounds ⊢
    omega
  · rw [Numeral.isLong_value_iff h, Numeral.overflows_iff]

/-- Two signs are read as one number, and the negation of the smallest number leaves the 64 bits. -/
theorem not_literal_twoSigns :
    checkedLiteral "--5" = .ok (some 5) ∧
      (¬ ∃ (t : Numeral) (n : Nat), trim isSpace "--5".toList = t.text ∧ t.Spells n ∧ t.IsLiteral) ∧
      checkedLiteral "--9223372036854775808" = .error .overflow := by
  refine ⟨by decide +kernel, ?_, by decide +kernel⟩
  rintro ⟨⟨sign, gap, t⟩, n, htext, h, hliteral⟩
  have htrim : trim isSpace "--5".toList = ['-', '-', '5'] := by decide +kernel
  rw [htrim, Numeral.text] at htext
  have hnone := Magnitude.isSign_of_mem_text h.magnitude hliteral.second
  have hminus : ∀ rest, '-' :: rest ≠ gap ++ t.text := by
    intro rest heq
    have hmem : '-' ∈ gap ++ t.text := by rw [← heq]; exact List.mem_cons_self
    rcases List.mem_append.1 hmem with hgap | hmagnitude
    · exact absurd (h.gap '-' hgap) (by decide)
    · exact absurd (hnone '-' hmagnitude) (by decide)
  cases sign with
  | none => exact hminus _ htext
  | some c => exact hminus _ (List.cons.inj htext).2

end WireLayout
