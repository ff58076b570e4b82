import WireLayout.Layout.IntLiteral
import WireLayout.Proofs.Text.Chars
import WireLayout.Proofs.Text.Search

/-! Numbers written in decimal, or in hexadecimal behind `0x`, are read back as long as they fit into the 64
bits of a literal. A decimal may have space in front; hexadecimal digits may be of either case and have
zeros in front. -/

namespace WireLayout

open WireLayout.Text

@[irreducible] def decimal (n : Nat) : List Char := Nat.toDigits 10 n

variable {n : Nat} {c : Char} {cs : List Char}

theorem decimal_ne_nil : decimal n ≠ [] := by
  unfold decimal
  exact Nat.toDigits_ne_nil

theorem isAsciiDigit_of_mem_decimal (h : c ∈ decimal n) : isAsciiDigit c = true := by
  unfold decimal at h
  have hdigit := Nat.isDigit_of_mem_toDigits (by decide) (by decide) h
  simpa [isAsciiDigit, Char.isDigit, Char.le_def] using hdigit

theorem isIdent_of_mem_decimal (h : c ∈ decimal n) : isIdent c = true := by
  simp [isIdent, isAsciiDigit_of_mem_decimal h]

theorem ne_of_mem_decimal (h : c ∈ decimal n) {d : Char} (hd : isAsciiDigit d = false) : c ≠ d := by
  rintro rfl
  rw [isAsciiDigit_of_mem_decimal h] at hd
  cases hd

theorem isDigit_of_mem_decimal (h : c ∈ decimal n) : isDigit c = true := by
  rw [isDigit, if_pos (toNat_lt_of_isIdent (isIdent_of_mem_decimal h)), isAsciiDigit_of_mem_decimal h]

theorem isSpace_of_mem_decimal (h : c ∈ decimal n) : isSpace c = false :=
  isSpace_of_isWordOrDollar (isWordOrDollar_of_isIdent (isIdent_of_mem_decimal h))

theorem head?_decimal (h : 0 < n) : ∀ c ∈ (decimal n).head?, c ≠ '0' := by
  induction n using Nat.strongRecOn with
  | ind n ih =>
    intro c hc
    unfold decimal at hc
    rw [Nat.toDigits_eq_if (by decide)] at hc
    split at hc
    · obtain rfl : n.digitChar = c := Option.some.inj hc
      have hcases : ∀ m < 10, 0 < m → m.digitChar ≠ '0' := by decide
      exact hcases n (by assumption) h
    · have hdiv : 0 < n / 10 := by omega
      rw [List.head?_append_of_ne_nil _ Nat.toDigits_ne_nil] at hc
      have hrest := ih (n / 10) (by omega) hdiv
      unfold decimal at hrest
      exact hrest c hc

namespace IntLiteral

@[simp] theorem negate_natCast (n : Nat) : negate (n : Int) = -(n : Int) := by
  rw [negate, if_neg (by unfold minLong; omega)]

/-- Only the least number of 64 bits has no negative among them. -/
theorem overflows_eq_false (h : read? cs ≠ some minLong) : overflows cs = false := by
  unfold overflows
  split
  · rename_i rest heq
    refine decide_eq_false fun hmin => h ?_
    rw [read?, heq]
    simp only [hmin, Option.map_some]
    rfl
  · rfl

theorem digit?_of_isAsciiDigit (h : isAsciiDigit c = true) : digit? 10 c = some (c.toNat - 48) := by
  have hlt : c.toNat - 48 < 10 := by
    simp only [isAsciiDigit, Bool.and_eq_true, decide_eq_true_iff, Char.le_def, UInt32.le_iff_toNat_le] at h
    have h9 : c.toNat ≤ 57 := h.2
    omega
  simp [digit?, h, hlt]

theorem digitsFrom_of_digits {m : Nat} (h : ∀ c ∈ cs, isAsciiDigit c = true) :
    digitsFrom 10 m cs = some (Nat.ofDigitChars 10 cs m) := by
  induction cs generalizing m with
  | nil => simp [digitsFrom]
  | cons c cs ih =>
    have hc := digit?_of_isAsciiDigit (h c List.mem_cons_self)
    rw [digitsFrom, hc, Option.bind_some, ih fun d hd => h d (List.mem_cons_of_mem c hd), Nat.ofDigitChars_cons,
      Nat.mul_comm]
    rfl

theorem digits?_decimal : digits? 10 (decimal n) = some n := by
  rw [digits?, if_neg (by simpa using decimal_ne_nil),
    digitsFrom_of_digits fun c hc => isAsciiDigit_of_mem_decimal hc]
  unfold decimal
  exact congrArg some Nat.ofDigitChars_ten_toDigits

theorem signed?_decimal (h : n ≤ maxLong) : signed? 10 (decimal n) = some (n : Int) := by
  unfold signed?
  split
  · rename_i cs heq
    exact absurd rfl (ne_of_mem_decimal (c := '-') (by rw [heq]; simp) (by decide))
  · rename_i cs heq
    exact absurd rfl (ne_of_mem_decimal (c := '+') (by rw [heq]; simp) (by decide))
  · simp [digits?_decimal, Option.filter, h]

/-- Decimal digits name no other base: one that begins with a zero has nothing after it. -/
theorem magnitude?_decimal (h : n ≤ maxLong) : magnitude? (decimal n) = some (n : Int) := by
  rcases Nat.eq_zero_or_pos n with rfl | hpos
  · decide +kernel
  · have hhead := head?_decimal hpos
    have hdecimal := signed?_decimal h
    unfold magnitude?
    split <;> rename_i heq
    · exact absurd heq decimal_ne_nil
    all_goals first
      | exact absurd rfl (hhead '0' (by rw [heq]; rfl))
      | exact hdecimal

theorem body_decimal : body (decimal n) = decimal n := by
  have hsuffix : dropEnd isSuffix (decimal n) = decimal n := by
    apply dropEnd_eq_self
    intro c hc
    have hmem := List.mem_of_getLast? hc
    have hL : c ≠ 'L' := ne_of_mem_decimal hmem (by decide)
    have hl : c ≠ 'l' := ne_of_mem_decimal hmem (by decide)
    simp [isSuffix, hL, hl]
  rw [body, hsuffix, List.filter_eq_self]
  intro c hc
  simpa using ne_of_mem_decimal hc (by decide : isAsciiDigit '_' = false)

theorem trim_decimal : trim isSpace (decimal n) = decimal n :=
  trim_eq_self (fun _ hc => isSpace_of_mem_decimal (List.mem_of_mem_head? hc))
    fun _ hc => isSpace_of_mem_decimal (List.mem_of_getLast? hc)

/-- A number that is written in decimal, perhaps behind space, is read back. -/
theorem read?_decimal (spaces : List Char) (hs : ∀ c ∈ spaces, isSpace c = true) (h : n ≤ maxLong) :
    read? (spaces ++ decimal n) = some (n : Int) := by
  unfold read?
  rw [trim_append_left hs, trim_decimal]
  split
  · rename_i cs heq
    exact absurd rfl (ne_of_mem_decimal (c := '-') (by rw [heq]; simp) (by decide))
  · rename_i cs heq
    exact absurd rfl (ne_of_mem_decimal (c := '+') (by rw [heq]; simp) (by decide))
  · rw [body_decimal, magnitude?_decimal h]

/-! Hexadecimal digits. -/

theorem digitsFrom_append {base m : Nat} {ds : List Char} :
    digitsFrom base m (cs ++ ds) = (digitsFrom base m cs).bind fun k => digitsFrom base k ds := by
  induction cs generalizing m with
  | nil => rfl
  | cons c cs ih =>
    rw [List.cons_append, digitsFrom, digitsFrom]
    cases digit? base c with
    | none => rfl
    | some d => exact ih

theorem digit?_digitChar : ∀ base ≤ 16, ∀ d < base, digit? base (Nat.digitChar d) = some d := by decide

theorem digitsFrom_toDigits {base : Nat} (hbase : 1 < base) (h16 : base ≤ 16) (n : Nat) :
    digitsFrom base 0 (Nat.toDigits base n) = some n := by
  induction n using Nat.strongRecOn with
  | ind n ih =>
    rw [Nat.toDigits_eq_if hbase]
    split
    · rename_i hlt
      simp [digitsFrom, digit?_digitChar base h16 n hlt]
    · have hdiv : n / base < n := Nat.div_lt_self (by omega) hbase
      have hlast := digit?_digitChar base h16 (n % base) (Nat.mod_lt n (by omega))
      rw [digitsFrom_append, ih _ hdiv, Option.bind_some, digitsFrom, hlast, Option.bind_some, digitsFrom,
        Nat.div_add_mod']

theorem digitsFrom_zeros {base : Nat} (hbase : 0 < base) (zeros : Nat) :
    digitsFrom base 0 (List.replicate zeros '0' ++ cs) = digitsFrom base 0 cs := by
  have hzero : digit? base '0' = some 0 := by simp [digit?, show isAsciiDigit '0' = true by decide, hbase]
  induction zeros with
  | zero => rfl
  | succ zeros ih =>
    rw [List.replicate_succ, List.cons_append, digitsFrom, hzero, Option.bind_some, Nat.zero_mul, ih]

theorem exists_of_isAsciiUpper (h : isAsciiUpper c = true) : ∃ k < 26, c = Char.ofNat (65 + k) := by
  simp only [isAsciiUpper, Bool.and_eq_true, decide_eq_true_iff, Char.le_def, UInt32.le_iff_toNat_le] at h
  have h65 : 65 ≤ c.toNat := h.1
  have h90 : c.toNat ≤ 90 := h.2
  refine ⟨c.toNat - 65, by omega, ?_⟩
  rw [Nat.add_sub_cancel' h65, Char.ofNat_toNat]

theorem digit?_asciiLower (base : Nat) (c : Char) : digit? base (asciiLower c) = digit? base c := by
  by_cases hupper : isAsciiUpper c = true
  · obtain ⟨k, hk, rfl⟩ := exists_of_isAsciiUpper hupper
    have hclasses : ∀ k < 26, isAsciiDigit (Char.ofNat (65 + k)) = false ∧
        isAsciiLower (Char.ofNat (65 + k)) = false ∧ isAsciiUpper (Char.ofNat (65 + k)) = true ∧
        isAsciiDigit (Char.ofNat (97 + k)) = false ∧ isAsciiLower (Char.ofNat (97 + k)) = true ∧
        asciiLower (Char.ofNat (65 + k)) = Char.ofNat (97 + k) ∧
        (Char.ofNat (97 + k)).toNat - 87 = (Char.ofNat (65 + k)).toNat - 55 := by decide
    obtain ⟨hdigit, hlower, hup, hdigit', hlower', heq, hvalue⟩ := hclasses k hk
    simp [digit?, heq, hdigit, hlower, hup, hdigit', hlower', hvalue]
  · rw [asciiLower, if_neg hupper]

theorem digitsFrom_map_asciiLower (base m : Nat) :
    digitsFrom base m (cs.map asciiLower) = digitsFrom base m cs := by
  induction cs generalizing m with
  | nil => rfl
  | cons c cs ih =>
    rw [List.map_cons, digitsFrom, digitsFrom, digit?_asciiLower]
    congr 1
    funext d
    exact ih _

theorem isSome_digit?_of_digitsFrom {base m : Nat} (h : digitsFrom base m cs = some n) :
    ∀ c ∈ cs, (digit? base c).isSome = true := by
  induction cs generalizing m with
  | nil => simp
  | cons c cs ih =>
    rw [digitsFrom] at h
    obtain ⟨d, hd, hrest⟩ := Option.bind_eq_some_iff.1 h
    rw [List.forall_mem_cons]
    exact ⟨by rw [hd]; rfl, ih hrest⟩

theorem isIdent_of_digit? {base : Nat} (h : (digit? base c).isSome = true) : isIdent c = true := by
  by_contra hc
  simp only [isIdent, isAsciiLetter, Bool.or_eq_true, not_or, Bool.not_eq_true] at hc
  obtain ⟨⟨⟨⟨hupper, hlower⟩, hdigit⟩, -⟩, -⟩ := hc
  simp [digit?, hupper, hlower, hdigit] at h

/-- Digits of base sixteen, in either case and perhaps behind zeros. -/
def IsHexadecimal (n : Nat) (cs : List Char) : Prop :=
  ∃ zeros, cs.map asciiLower = List.replicate zeros '0' ++ Nat.toDigits 16 n

theorem digitsFrom_hexadecimal (h : IsHexadecimal n cs) : digitsFrom 16 0 cs = some n := by
  obtain ⟨zeros, heq⟩ := h
  rw [← digitsFrom_map_asciiLower, heq, digitsFrom_zeros (by decide), digitsFrom_toDigits (by decide) (by decide)]

theorem ne_of_mem_digits {base : Nat} (h : digitsFrom base 0 cs = some n) (hc : c ∈ cs) {d : Char}
    (hd : digit? base d = none) : c ≠ d := by
  rintro rfl
  have hdigit := isSome_digit?_of_digitsFrom h c hc
  rw [hd] at hdigit
  cases hdigit

theorem digit?_eq_none {base : Nat} (h : isIdent c = false) : digit? base c = none := by
  by_contra hsome
  rw [isIdent_of_digit? (Option.isSome_iff_ne_none.2 hsome)] at h
  cases h

theorem signed?_of_digitsFrom {base : Nat} (hne : cs ≠ []) (h : digitsFrom base 0 cs = some n) (hn : n ≤ maxLong) :
    signed? base cs = some (n : Int) := by
  have hdigits : digits? base cs = some n := by rw [digits?, if_neg (by simpa using hne), h]
  unfold signed?
  split
  · exact absurd rfl (ne_of_mem_digits h (d := '-') List.mem_cons_self (digit?_eq_none (by decide)))
  · exact absurd rfl (ne_of_mem_digits h (d := '+') List.mem_cons_self (digit?_eq_none (by decide)))
  · simp [hdigits, Option.filter, hn]

theorem IsHexadecimal.ne_nil (h : IsHexadecimal n cs) : cs ≠ [] := by
  rintro rfl
  obtain ⟨zeros, heq⟩ := h
  exact absurd (List.append_eq_nil_iff.1 heq.symm).2 Nat.toDigits_ne_nil

/-- A number that is written in hexadecimal is read back. -/
theorem read?_hexadecimal (h : IsHexadecimal n cs) (hn : n ≤ maxLong) :
    read? ('0' :: 'x' :: cs) = some (n : Int) := by
  have hdigits := digitsFrom_hexadecimal h
  have hmem : ∀ p : Char → Bool, p '0' = false → p 'x' = false → (∀ c ∈ cs, p c = false) →
      ∀ c ∈ '0' :: 'x' :: cs, p c = false := fun p h0 hx hcs =>
    List.forall_mem_cons.2 ⟨h0, List.forall_mem_cons.2 ⟨hx, hcs⟩⟩
  have hspace := hmem isSpace (by decide) (by decide) fun c hc =>
    isSpace_of_isIdent (isIdent_of_digit? (isSome_digit?_of_digitsFrom hdigits c hc))
  have hsuffix := hmem isSuffix (by decide) (by decide) fun c hc => by
    have hL := ne_of_mem_digits hdigits hc (d := 'L') (by decide)
    have hl := ne_of_mem_digits hdigits hc (d := 'l') (by decide)
    simp [isSuffix, hL, hl]
  have hunder := hmem (· = '_') (by decide) (by decide) fun c hc => by
    simpa using ne_of_mem_digits hdigits hc (d := '_') (by decide)
  have htrim : trim isSpace ('0' :: 'x' :: cs) = '0' :: 'x' :: cs :=
    trim_eq_self (fun c hc => hspace c (List.mem_of_mem_head? hc))
      fun c hc => hspace c (List.mem_of_getLast? hc)
  have hbody : body ('0' :: 'x' :: cs) = '0' :: 'x' :: cs := by
    rw [body, dropEnd_eq_self fun c hc => hsuffix c (List.mem_of_getLast? hc), List.filter_eq_self]
    intro c hc
    simpa using hunder c hc
  unfold read?
  rw [htrim]
  split
  · rename_i heq
    exact absurd (List.cons.inj heq).1 (by decide)
  · rename_i heq
    exact absurd (List.cons.inj heq).1 (by decide)
  · rw [hbody]
    exact signed?_of_digitsFrom h.ne_nil hdigits hn

end IntLiteral

theorem word?_eq_some_iff {k : Int} : word? k = some n ↔ k = n ∧ n ≤ maxWord := by
  unfold word?
  split
  · rename_i h
    rw [Bool.and_eq_true, decide_eq_true_iff, decide_eq_true_iff] at h
    rw [Option.some.injEq]
    omega
  · rename_i h
    rw [Bool.and_eq_true, decide_eq_true_iff, decide_eq_true_iff] at h
    simp only [reduceCtorEq, false_iff]
    omega

theorem word?_natCast (h : n ≤ maxWord) : word? (n : Int) = some n := word?_eq_some_iff.2 ⟨rfl, h⟩

theorem word?_read?_decimal (spaces : List Char) (hs : ∀ c ∈ spaces, isSpace c = true) (h : n ≤ maxWord) :
    (IntLiteral.read? (spaces ++ decimal n)).bind word? = some n := by
  have hlong : n ≤ maxLong := h.trans (by decide)
  rw [IntLiteral.read?_decimal spaces hs hlong, Option.bind_some, word?_natCast h]

end WireLayout
