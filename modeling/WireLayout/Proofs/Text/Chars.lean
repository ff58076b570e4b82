import Mathlib
import WireLayout.Text.Chars

/-! How the classes of characters lie to each other: space is apart from words, and the characters of an
identifier are ASCII and belong to words. -/

namespace WireLayout.Text

variable {c : Char}

/-- Everything that counts as space, by its code. -/
def spaceCodes : List Nat :=
  [9, 10, 11, 12, 13, 0x20, 0x85, 0xA0, 0x1680, 0x2000, 0x2001, 0x2002, 0x2003, 0x2004, 0x2005, 0x2006,
    0x2007, 0x2008, 0x2009, 0x200A, 0x2028, 0x2029, 0x202F, 0x205F, 0x3000]

theorem mem_spaceCodes (h : isSpace c = true) : c.toNat ∈ spaceCodes := by
  simp only [isSpace, Bool.or_eq_true, Bool.and_eq_true, decide_eq_true_iff] at h
  simp only [spaceCodes, List.mem_cons, List.not_mem_nil, or_false]
  omega

theorem isWordOrDollar_ofNat_of_mem_spaceCodes :
    ∀ n ∈ spaceCodes, isWordOrDollar (Char.ofNat n) = false := by decide +kernel

theorem isSpace_of_isWordOrDollar (h : isWordOrDollar c = true) : isSpace c = false := by
  by_contra hs
  have hcode := isWordOrDollar_ofNat_of_mem_spaceCodes _ (mem_spaceCodes (by simpa using hs))
  rw [Char.ofNat_toNat, h] at hcode
  cases hcode

theorem toNat_lt_of_isIdent (h : isIdent c = true) : c.toNat < 128 := by
  simp only [isIdent, isAsciiLetter, isAsciiUpper, isAsciiLower, isAsciiDigit, Bool.or_eq_true,
    Bool.and_eq_true, decide_eq_true_iff, Char.le_def, UInt32.le_iff_toNat_le] at h
  change c.val.toNat < 128
  rcases h with (((⟨-, h⟩ | ⟨-, h⟩) | ⟨-, h⟩) | rfl) | rfl
  · exact h.trans_lt (by decide)
  · exact h.trans_lt (by decide)
  · exact h.trans_lt (by decide)
  · decide
  · decide

theorem isWordOrDollar_of_isIdent (h : isIdent c = true) : isWordOrDollar c = true := by
  have hlt := toNat_lt_of_isIdent h
  simp only [isIdent, Bool.or_eq_true, decide_eq_true_iff] at h
  simp only [isWordOrDollar, isWord, if_pos hlt, Bool.or_eq_true, decide_eq_true_iff]
  tauto

theorem isSpace_of_isIdent (h : isIdent c = true) : isSpace c = false :=
  isSpace_of_isWordOrDollar (isWordOrDollar_of_isIdent h)

theorem isAsciiSpace_of_isSpace (h : isSpace c = false) : isAsciiSpace c = false := by
  by_contra hs
  simp only [isAsciiSpace, Bool.not_eq_false, Bool.or_eq_true, decide_eq_true_iff] at hs
  rcases hs with (((rfl | rfl) | rfl) | rfl) | rfl <;> simp [isSpace] at h

theorem isAsciiSpace_of_isIdent (h : isIdent c = true) : isAsciiSpace c = false :=
  isAsciiSpace_of_isSpace (isSpace_of_isIdent h)

theorem isWordOrDollar_of_ascii (h : c.toNat < 128) (hi : isIdent c = false) : isWordOrDollar c = false := by
  simp only [isIdent, Bool.or_eq_false_iff, decide_eq_false_iff_not] at hi
  simp [isWordOrDollar, isWord, h, hi]

theorem isWord_of_isWordOrDollar (h : isWordOrDollar c = false) : isWord c = false := by
  rw [isWordOrDollar, Bool.or_eq_false_iff] at h
  exact h.1

theorem isWord_of_isIdent (h : isIdent c = true) (hd : c ≠ '$') : isWord c = true := by
  simpa [isWordOrDollar, hd] using isWordOrDollar_of_isIdent h

theorem words_of_all {w : List Char} (h : w.all isIdent = true) : ∀ c ∈ w, isWordOrDollar c = true :=
  fun c hc => isWordOrDollar_of_isIdent (List.all_eq_true.1 h c hc)

/-! Marks that end words. -/

theorem isWordOrDollar_space : isWordOrDollar ' ' = false := isWordOrDollar_of_ascii (by decide) (by decide)

theorem isWordOrDollar_point : isWordOrDollar '.' = false := isWordOrDollar_of_ascii (by decide) (by decide)

theorem isWordOrDollar_open : isWordOrDollar '(' = false := isWordOrDollar_of_ascii (by decide) (by decide)

theorem isWordOrDollar_close : isWordOrDollar ')' = false := isWordOrDollar_of_ascii (by decide) (by decide)

theorem isWordOrDollar_comma : isWordOrDollar ',' = false := isWordOrDollar_of_ascii (by decide) (by decide)

theorem isWordOrDollar_equal : isWordOrDollar '=' = false := isWordOrDollar_of_ascii (by decide) (by decide)

theorem isWordOrDollar_plus : isWordOrDollar '+' = false := isWordOrDollar_of_ascii (by decide) (by decide)

theorem isWordOrDollar_bracket : isWordOrDollar '[' = false := isWordOrDollar_of_ascii (by decide) (by decide)

end WireLayout.Text
