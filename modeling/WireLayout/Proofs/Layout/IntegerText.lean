import WireLayout.Proofs.Layout.Literals

/-! The texts of integer literals and what is read from them. The digits are of one of four bases, which the mark in
front of them names, and may have underscores between them; around them stand a sign, a suffix and space. Every
spelling of a number that fits into 64 bits is read with its value. -/

namespace WireLayout

open WireLayout.Text

variable {n base zeros : Nat} {c : Char} {cs : List Char}

namespace IntLiteral

/-- The digits of a number behind some zeros, of either case, with underscores between them. -/
structure Digits (base zeros n : Nat) (cs : List Char) : Prop where
  digits : (cs.filter (· ≠ '_')).map asciiLower = List.replicate zeros '0' ++ Nat.toDigits base n
  head : ∀ c ∈ cs.head?, c ≠ '_'
  last : ∀ c ∈ cs.getLast?, c ≠ '_'

def baseMarks : List (Nat × Char) := [(2, 'b'), (2, 'B'), (16, 'x'), (16, 'X')]

/-- The ways to write a number without a sign. A decimal has no zero in front, and the zero that marks an octal number
is one of its digits. -/
inductive Spelling (n : Nat) : List Char → Prop
  | decimal {cs : List Char} (h : Digits 10 0 n cs) : Spelling n cs
  | octal {zeros : Nat} {cs : List Char} (h : Digits 8 (zeros + 1) n cs) : Spelling n cs
  | marked {base zeros : Nat} {mark : Char} {cs : List Char} (hmark : (base, mark) ∈ baseMarks)
      (h : Digits base zeros n cs) : Spelling n ('0' :: mark :: cs)

theorem of_mem_baseMarks {mark : Char} (h : (base, mark) ∈ baseMarks) :
    1 < base ∧ base ≤ 16 ∧ isIdent mark = true ∧ mark ≠ '_' := by
  have hall : ∀ m ∈ baseMarks, 1 < m.1 ∧ m.1 ≤ 16 ∧ isIdent m.2 = true ∧ m.2 ≠ '_' := by decide
  exact hall _ h

/-! Digits. -/

namespace Digits

theorem value (h : Digits base zeros n cs) (hbase : 1 < base) (h16 : base ≤ 16) :
    digitsFrom base 0 (cs.filter (· ≠ '_')) = some n := by
  rw [← digitsFrom_map_asciiLower, h.digits, digitsFrom_zeros (by omega), digitsFrom_toDigits hbase h16]

theorem filter_ne_nil (h : Digits base zeros n cs) : cs.filter (· ≠ '_') ≠ [] := by
  intro hnil
  have hdigits := h.digits
  rw [hnil, List.map_nil, eq_comm, List.append_eq_nil_iff] at hdigits
  exact Nat.toDigits_ne_nil hdigits.2

theorem ne_nil (h : Digits base zeros n cs) : cs ≠ [] := by
  rintro rfl
  exact h.filter_ne_nil rfl

theorem isIdent (h : Digits base zeros n cs) (hbase : 1 < base) (h16 : base ≤ 16) : ∀ c ∈ cs, isIdent c = true := by
  intro c hc
  by_cases hunder : c = '_'
  · subst hunder
    decide
  · have hmem : c ∈ cs.filter (· ≠ '_') := List.mem_filter.2 ⟨hc, by simpa using hunder⟩
    exact isIdent_of_digit? (isSome_digit?_of_digitsFrom (h.value hbase h16) c hmem)

theorem last_isSuffix (h : Digits base zeros n cs) (hbase : 1 < base) (h16 : base ≤ 16) :
    ∀ c ∈ cs.getLast?, isSuffix c = false := by
  intro c hc
  have hletters : ∀ base ≤ 16, digit? base 'L' = none ∧ digit? base 'l' = none := by decide
  have hmem : c ∈ cs.filter (· ≠ '_') :=
    List.mem_filter.2 ⟨List.mem_of_getLast? hc, by simpa using h.last c hc⟩
  have hL := ne_of_mem_digits (h.value hbase h16) hmem (hletters base h16).1
  have hl := ne_of_mem_digits (h.value hbase h16) hmem (hletters base h16).2
  simp [isSuffix, hL, hl]

theorem signed? (h : Digits base zeros n cs) (hbase : 1 < base) (h16 : base ≤ 16) (hn : n ≤ maxLong) :
    signed? base (cs.filter (· ≠ '_')) = some (n : Int) :=
  signed?_of_digitsFrom h.filter_ne_nil (h.value hbase h16) hn

theorem decimal_head (h : Digits 10 0 n cs) :
    (∀ c ∈ (cs.filter (· ≠ '_')).head?, c ≠ '0') ∨ cs.filter (· ≠ '_') = ['0'] := by
  have hdigits := h.digits
  generalize cs.filter (· ≠ '_') = ds at hdigits ⊢
  rw [List.replicate_zero, List.nil_append] at hdigits
  rcases Nat.eq_zero_or_pos n with rfl | hpos
  · obtain ⟨c, rfl, hc⟩ := List.map_eq_singleton_iff.1 hdigits
    by_cases hzero : c = '0'
    · exact .inr (by rw [hzero])
    · exact .inl (by simpa using hzero)
  · left
    rintro c hc rfl
    have hhead := head?_decimal hpos
    unfold decimal at hhead
    rw [← hdigits, List.head?_map, Option.mem_def.1 hc] at hhead
    exact absurd rfl (hhead '0' rfl)

/-- A further digit stands behind the zero of an octal number. -/
theorem octal_cons (h : Digits 8 (zeros + 1) n cs) : ∃ d ds, cs.filter (· ≠ '_') = '0' :: d :: ds := by
  have hdigits := h.digits
  rw [List.replicate_succ, List.cons_append] at hdigits
  obtain ⟨z, ds, hcs, hz, hds⟩ := List.map_eq_cons_iff.1 hdigits
  have hne : ds ≠ [] := by
    rintro rfl
    rw [List.map_nil, eq_comm, List.append_eq_nil_iff] at hds
    exact Nat.toDigits_ne_nil hds.2
  obtain ⟨d, ds, rfl⟩ := List.exists_cons_of_ne_nil hne
  have hzero : z = '0' := by
    by_cases hup : isAsciiUpper z = true
    · obtain ⟨k, hk, rfl⟩ := exists_of_isAsciiUpper hup
      have hlower : ∀ k < 26, asciiLower (Char.ofNat (65 + k)) ≠ '0' := by decide
      exact absurd hz (hlower k hk)
    · rwa [asciiLower, if_neg hup] at hz
  exact ⟨d, ds, by rw [hcs, hzero]⟩

end Digits

/-! Each spelling reaches the reader of its base. -/

theorem magnitude?_of_head (hne : cs ≠ []) (h : (∀ c ∈ cs.head?, c ≠ '0') ∨ cs = ['0']) :
    magnitude? cs = signed? 10 cs := by
  rcases h with h | rfl
  · unfold magnitude?
    split
    · exact absurd rfl hne
    all_goals first
      | exact absurd rfl (h '0' rfl)
      | rfl
  · rfl

theorem magnitude?_zero {d : Char} (h : ∀ m ∈ baseMarks, d ≠ m.2) :
    magnitude? ('0' :: d :: cs) = signed? 8 (d :: cs) := by
  simp only [baseMarks, List.forall_mem_cons] at h
  simp [magnitude?, h]

theorem magnitude?_mark {mark : Char} (h : (base, mark) ∈ baseMarks) :
    magnitude? ('0' :: mark :: cs) = signed? base cs := by
  simp only [baseMarks, List.mem_cons, List.not_mem_nil, Prod.mk.injEq, or_false] at h
  rcases h with ⟨rfl, rfl⟩ | ⟨rfl, rfl⟩ | ⟨rfl, rfl⟩ | ⟨rfl, rfl⟩ <;> rfl

namespace Spelling

theorem magnitude? (h : Spelling n cs) (hn : n ≤ maxLong) :
    magnitude? (cs.filter (· ≠ '_')) = some (n : Int) := by
  cases h with
  | decimal h =>
    rw [magnitude?_of_head h.filter_ne_nil h.decimal_head]
    exact h.signed? (by decide) (by decide) hn
  | octal h =>
    obtain ⟨d, ds, hds⟩ := h.octal_cons
    have hvalue := h.value (by decide) (by decide)
    have hmem : d ∈ cs.filter (· ≠ '_') := by rw [hds]; simp
    have hnone : ∀ m ∈ baseMarks, digit? 8 m.2 = none := by decide
    have hletters : ∀ m ∈ baseMarks, d ≠ m.2 := fun m hm => ne_of_mem_digits hvalue hmem (hnone m hm)
    -- the zero in front adds nothing to the digits that are read behind it
    have hrest : digitsFrom 8 0 (d :: ds) = some n := by
      rw [hds] at hvalue
      exact (digitsFrom_zeros (by decide) 1).symm.trans hvalue
    rw [hds, magnitude?_zero hletters]
    exact signed?_of_digitsFrom (by simp) hrest hn
  | marked hmark h =>
    obtain ⟨hbase, h16, -, hunder⟩ := of_mem_baseMarks hmark
    rw [List.filter_cons_of_pos (by decide), List.filter_cons_of_pos (by simpa using hunder), magnitude?_mark hmark]
    exact h.signed? hbase h16 hn

theorem ne_nil (h : Spelling n cs) : cs ≠ [] := by
  cases h with
  | decimal h => exact h.ne_nil
  | octal h => exact h.ne_nil
  | marked => simp

theorem head_ne (h : Spelling n cs) : ∀ c ∈ cs.head?, c ≠ '_' := by
  cases h with
  | decimal h => exact h.head
  | octal h => exact h.head
  | marked => simp

theorem isIdent (h : Spelling n cs) : ∀ c ∈ cs, isIdent c = true := by
  cases h with
  | decimal h => exact h.isIdent (by decide) (by decide)
  | octal h => exact h.isIdent (by decide) (by decide)
  | marked hmark h =>
    obtain ⟨hbase, h16, hident, -⟩ := of_mem_baseMarks hmark
    exact List.forall_mem_cons.2 ⟨by decide, List.forall_mem_cons.2 ⟨hident, h.isIdent hbase h16⟩⟩

theorem last_isSuffix (h : Spelling n cs) : ∀ c ∈ cs.getLast?, isSuffix c = false := by
  cases h with
  | decimal h => exact h.last_isSuffix (by decide) (by decide)
  | octal h => exact h.last_isSuffix (by decide) (by decide)
  | marked hmark h =>
    obtain ⟨hbase, h16, -, -⟩ := of_mem_baseMarks hmark
    intro c hc
    rw [List.getLast?_cons_cons, List.getLast?_cons_of_ne_nil h.ne_nil] at hc
    exact h.last_isSuffix hbase h16 c hc

theorem body (h : Spelling n cs) {suffix : List Char} (hs : ∀ c ∈ suffix, isSuffix c = true) :
    body (cs ++ suffix) = cs.filter (· ≠ '_') := by
  rw [IntLiteral.body, dropEnd_append_right hs, dropEnd_eq_self h.last_isSuffix]

end Spelling

end IntLiteral

open IntLiteral

structure IntegerText where
  before : List Char
  sign : Option Char
  digits : List Char
  suffix : Option Char
  after : List Char

namespace IntegerText

def core (t : IntegerText) : List Char := t.sign.toList ++ (t.digits ++ t.suffix.toList)

def text (t : IntegerText) : List Char := t.before ++ (t.core ++ t.after)

def value (t : IntegerText) (n : Nat) : Int := if t.sign = some '-' then -n else n

structure Spells (t : IntegerText) (n : Nat) : Prop where
  before : ∀ c ∈ t.before, isSpace c = true
  sign : ∀ c ∈ t.sign, c = '-' ∨ c = '+'
  digits : Spelling n t.digits
  suffix : ∀ c ∈ t.suffix, isSuffix c = true
  after : ∀ c ∈ t.after, isSpace c = true

variable {t : IntegerText}

theorem isSpace_of_mem_core (h : t.Spells n) : ∀ c ∈ t.core, isSpace c = false := by
  intro c hc
  rw [core, List.mem_append, List.mem_append] at hc
  rcases hc with hsign | hdigit | hsuffix
  · rcases h.sign c (Option.mem_toList.1 hsign) with rfl | rfl <;> decide
  · exact isSpace_of_isIdent (h.digits.isIdent c hdigit)
  · have hletter := h.suffix c (Option.mem_toList.1 hsuffix)
    simp only [isSuffix, Bool.or_eq_true, decide_eq_true_iff] at hletter
    rcases hletter with rfl | rfl <;> decide

theorem trim_text (h : t.Spells n) : trim isSpace t.text = t.core :=
  trim_between h.before h.after (fun c hc => isSpace_of_mem_core h c (List.mem_of_mem_head? hc))
    fun c hc => isSpace_of_mem_core h c (List.mem_of_getLast? hc)

theorem magnitude?_body (h : t.Spells n) (hn : n ≤ maxLong) :
    magnitude? (body (t.digits ++ t.suffix.toList)) = some (n : Int) := by
  rw [h.digits.body fun c hc => h.suffix c (Option.mem_toList.1 hc), h.digits.magnitude? hn]

theorem read?_text (h : t.Spells n) (hn : n ≤ maxLong) : read? t.text = some (t.value n) := by
  obtain ⟨d, ds, hds⟩ := List.exists_cons_of_ne_nil h.digits.ne_nil
  have hd : isIdent d = true := h.digits.isIdent d (by rw [hds]; exact List.mem_cons_self)
  have hread := magnitude?_body h hn
  rw [hds, List.cons_append] at hread
  rw [read?, trim_text h, core, hds, List.cons_append, value]
  cases hsign : t.sign with
  | none =>
    simp only [Option.toList_none, List.nil_append]
    split
    · rename_i heq
      rw [(List.cons.inj heq).1] at hd
      exact absurd hd (by decide)
    · rename_i heq
      rw [(List.cons.inj heq).1] at hd
      exact absurd hd (by decide)
    · rw [hread, if_neg (by simp)]
  | some c =>
    simp only [Option.toList_some, List.cons_append, List.nil_append]
    rcases h.sign c hsign with rfl | rfl
    · have hgap : (d :: (ds ++ t.suffix.toList)).dropWhile isSpace = d :: (ds ++ t.suffix.toList) :=
        List.dropWhile_cons_of_neg (by simp [isSpace_of_isIdent hd])
      simp only [hgap, hread, Option.map_some, negate_natCast, if_pos]
    · simp only [hread, Option.some.injEq, show ¬('+' = '-') by decide, if_false]

theorem head_ne (h : t.Spells n) : ∀ c ∈ t.core.head?, c ≠ '_' := by
  intro c hc
  rw [core] at hc
  cases hsign : t.sign with
  | none =>
    rw [hsign, Option.toList_none, List.nil_append, List.head?_append_of_ne_nil _ h.digits.ne_nil] at hc
    exact h.digits.head_ne c hc
  | some d =>
    rw [hsign] at hc
    obtain rfl := Option.some.inj hc
    rcases h.sign d hsign with rfl | rfl <;> decide

/-- The value of a literal has a negative within 64 bits. -/
theorem overflows_text (h : t.Spells n) (hn : n ≤ maxLong) : overflows t.text = false := by
  refine overflows_eq_false fun hmin => ?_
  have hvalue := Option.some.inj ((read?_text h hn).symm.trans hmin)
  unfold value minLong at hvalue
  unfold maxLong at hn
  split at hvalue <;> omega

/-- A literal of any spelling is read with its value. -/
theorem intLiteral?_text (h : t.Spells n) (hn : n ≤ maxLong) :
    intLiteral? (String.ofList t.text) = some (t.value n) ∧
      checkedLiteral (String.ofList t.text) = .ok (some (t.value n)) := by
  have hread : intLiteral? (String.ofList t.text) = some (t.value n) := by
    rw [intLiteral?, String.toList_ofList, read?_text h hn]
  exact ⟨hread, by rw [checkedLiteral, String.toList_ofList, overflows_text h hn, if_neg Bool.false_ne_true, hread]⟩

/-- The largest number in either case, ` -0x7fffffff_FFFFFFFFL`. -/
def largest : IntegerText where
  before := [' ']
  sign := some '-'
  digits := '0' :: 'x' :: '7' :: (List.replicate 7 'f' ++ '_' :: List.replicate 8 'F')
  suffix := some 'L'
  after := ['\n']

theorem intLiteral?_largest :
    largest.Spells maxLong ∧ maxLong ≤ maxLong ∧
      checkedLiteral (String.ofList largest.text) = .ok (some (-9223372036854775807)) := by
  have hspells : largest.Spells maxLong := by
    have hdigits : Digits 16 0 maxLong ('7' :: (List.replicate 7 'f' ++ '_' :: List.replicate 8 'F')) :=
      ⟨by decide +kernel, by simp, by simp⟩
    exact ⟨by simp [largest, isSpace], by simp [largest], .marked (by decide) hdigits, by simp [largest, isSuffix],
      by simp [largest, isSpace]⟩
  exact ⟨hspells, le_rfl, (intLiteral?_text hspells le_rfl).2⟩

end IntegerText

end WireLayout
