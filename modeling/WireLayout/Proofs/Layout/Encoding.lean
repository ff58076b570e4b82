import WireLayout.Layout.Encoding
import WireLayout.Proofs.Layout.Literals

/-! The tag of an encoding names it. -/

namespace WireLayout.Encoding

open WireLayout.Text

def number? : Encoding → Option Nat
  | fixedAscii length => some length
  | _ => none

theorem words_of_number?_eq_none {e : Encoding} (h : e.number? = none) : ∀ n ∈ e.number?, n ≤ maxWord := by
  rw [h]
  nofun

variable {n : Nat}

theorem toList_tag_fixedAscii (n : Nat) :
    (fixedAscii n).tag.toList = ['a', 's', 'c', 'i', 'i', '['] ++ (decimal n ++ [']']) := by
  simp [tag, decimal, toString, Nat.repr]

theorem canonicalTag_tag_fixedAscii (n : Nat) :
    canonicalTag (fixedAscii n).tag.toList = ['a', 's', 'c', 'i', 'i', '['] ++ (decimal n ++ [']']) := by
  have hdigits : (decimal n).map (fun c => if c = '_' then '-' else asciiLower c) = decimal n := by
    rw [List.map_eq_iff]
    intro i
    cases hi : (decimal n)[i]? with
    | none => rfl
    | some c =>
      have hc := isAsciiDigit_of_mem_decimal (List.mem_of_getElem? hi)
      have hunder : c ≠ '_' := ne_of_mem_decimal (List.mem_of_getElem? hi) (by decide)
      have hupper : isAsciiUpper c = false := by
        by_contra hu
        obtain ⟨k, hk, rfl⟩ := IntLiteral.exists_of_isAsciiUpper (by simpa using hu)
        have hletters : ∀ k < 26, isAsciiDigit (Char.ofNat (65 + k)) = false := by decide
        rw [hletters k hk] at hc
        cases hc
      simp [hunder, asciiLower, hupper]
  have htrim : trim isSpace (fixedAscii n).tag.toList = (fixedAscii n).tag.toList := by
    rw [toList_tag_fixedAscii]
    refine trim_eq_self (fun c hc => ?_) fun c hc => ?_
    · obtain rfl := Option.some.inj hc
      decide
    · rw [← List.append_assoc, List.getLast?_concat] at hc
      obtain rfl := Option.some.inj hc
      decide
  rw [canonicalTag, htrim, toList_tag_fixedAscii, List.map_append, List.map_append, hdigits]
  rfl

theorem decimalWord?_decimal (h : n ≤ maxWord) : decimalWord? (decimal n) = some n := by
  unfold decimalWord? decimalUpTo?
  split
  · exact absurd rfl (ne_of_mem_decimal (c := '+') (by rw [‹decimal n = _›]; simp) (by decide))
  · simp [IntLiteral.digits?_decimal, Option.filter, h]

/-- Reading the tag of an encoding gives it back, if its number has 32 bits. -/
theorem ofTag_tag {e : Encoding} (h : ∀ n ∈ e.number?, n ≤ maxWord) : ofTag e.tag = .ok e := by
  cases e with
  | fixedAscii n =>
    have hlength : lengthText? (['a', 's', 'c', 'i', 'i', '['] ++ (decimal n ++ [']'])) = some (decimal n) := by
      simp [lengthText?]
    unfold ofTag
    simp only [canonicalTag_tag_fixedAscii, hlength, IntLiteral.trim_decimal, decimalWord?_decimal (h n rfl)]
  | _ => decide +kernel

end WireLayout.Encoding
