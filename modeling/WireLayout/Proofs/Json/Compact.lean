import WireLayout.Json.Parser
import WireLayout.Json.Printer
import WireLayout.Proofs.Layout.Literals

/-! The compact text of a value can be read in one way only. A string is read back up to its closing quote, a number
goes on to the last of its digits, and inside brackets the character after a part tells whether another one
follows. Doubles are left out, since their text is that of the shortest decimal. -/

namespace WireLayout.Json

open WireLayout.Text

/-! Strings. -/

theorem hexValue?_hexDigit : ∀ n < 16, hexValue? (hexDigit n) = some n := by decide

theorem stringChars_of_escape {c : Char} {cs rest : List Char} (fuel : Nat) (h : escape? cs = some (c, rest)) :
    stringChars (fuel + 1) ('\\' :: cs) = (stringChars fuel rest).map fun p => (c :: p.1, p.2) := by
  rw [stringChars, if_neg (by decide), if_pos rfl, h]
  simp only [Option.bind_eq_bind, Option.bind_some]
  cases stringChars fuel rest <;> rfl

theorem escape?_code {c : Char} (h : c.toNat < 32) (cs : List Char) :
    escape? ('u' :: '0' :: '0' :: hexDigit (c.toNat / 16) :: hexDigit (c.toNat % 16) :: cs) = some (c, cs) := by
  have hhigh := hexValue?_hexDigit (c.toNat / 16) (by omega)
  have hlow := hexValue?_hexDigit (c.toNat % 16) (Nat.mod_lt _ (by decide))
  have hunit : unit? ('0' :: '0' :: hexDigit (c.toNat / 16) :: hexDigit (c.toNat % 16) :: cs) =
      some (c.toNat, cs) := by
    simp only [unit?, hhigh, hlow, show hexValue? '0' = some 0 by decide, Option.bind_eq_bind,
      Option.bind_some, Option.some.injEq, Prod.mk.injEq, and_true]
    omega
  have hsurrogate : ¬ 0xD800 ≤ c.toNat ∧ ¬ 0xDC00 ≤ c.toNat := by omega
  simp [escape?, unicodeEscape?, hunit, hsurrogate.1, hsurrogate.2, Char.ofNat_toNat]

/-- The reader takes an escaped character for the character. -/
theorem stringChars_escapeChar (fuel : Nat) (c : Char) (cs : List Char) :
    stringChars (fuel + 1) (escapeChar c ++ cs) = (stringChars fuel cs).map fun p => (c :: p.1, p.2) := by
  have hcode : ∀ n, c.toNat = n → Char.ofNat n = c := by
    rintro n rfl
    exact Char.ofNat_toNat c
  unfold escapeChar
  split
  · rename_i h; subst h; exact stringChars_of_escape fuel rfl
  split
  · rename_i h; subst h; exact stringChars_of_escape fuel rfl
  split
  · rename_i h; subst h; exact stringChars_of_escape fuel rfl
  split
  · rename_i h; subst h; exact stringChars_of_escape fuel rfl
  split
  · rename_i h; subst h; exact stringChars_of_escape fuel rfl
  split
  · rename_i h; exact stringChars_of_escape fuel (congrArg (fun e => some (e, cs)) (hcode 8 h))
  split
  · rename_i h; exact stringChars_of_escape fuel (congrArg (fun e => some (e, cs)) (hcode 12 h))
  split
  · rename_i h; exact stringChars_of_escape fuel (escape?_code h cs)
  · -- the character stands for itself
    rename_i hquote hslash _ _ _ _ _ hlow
    rw [List.singleton_append, stringChars, if_neg hquote, if_neg hslash, if_neg hlow]
    cases stringChars fuel cs <;> rfl

theorem stringChars_escaped {fuel : Nat} {text : List Char} (h : text.length < fuel) (rest : List Char) :
    stringChars fuel (text.flatMap escapeChar ++ '"' :: rest) = some (text, rest) := by
  induction text generalizing fuel with
  | nil =>
    cases fuel with
    | zero => cases h
    | succ fuel => rw [List.flatMap_nil, List.nil_append, stringChars, if_pos rfl]
  | cons c text ih =>
    cases fuel with
    | zero => cases h
    | succ fuel =>
      rw [List.flatMap_cons, List.append_assoc, stringChars_escapeChar, ih (Nat.lt_of_succ_lt_succ h)]
      rfl

theorem escapeChar_ne_nil (c : Char) : escapeChar c ≠ [] := by
  unfold escapeChar
  repeat' split
  all_goals exact List.cons_ne_nil _ _

/-- A string is read back, whatever follows it. -/
theorem string?_quoted (text : String) (rest : List Char) : string? (quoted text ++ rest) = some (text, rest) := by
  have hlength : ∀ cs : List Char, cs.length ≤ (cs.flatMap escapeChar).length := by
    intro cs
    induction cs with
    | nil => exact Nat.le_refl _
    | cons c cs ih =>
      have hpos := List.length_pos_iff.2 (escapeChar_ne_nil c)
      rw [List.flatMap_cons, List.length_append, List.length_cons]
      omega
  have htext := hlength text.toList
  have henough : text.toList.length < (text.toList.flatMap escapeChar ++ '"' :: rest).length + 1 := by
    rw [List.length_append]
    omega
  have hread := stringChars_escaped henough rest
  rw [quoted, List.cons_append, List.cons_append, List.append_assoc, List.singleton_append, string?, hread]
  exact congrArg (fun t => some (t, rest)) String.ofList_toList

theorem quoted_append_inj {a b : String} {r s : List Char} (h : quoted a ++ r = quoted b ++ s) :
    a = b ∧ r = s := by
  have hread := congrArg string? h
  rw [string?_quoted, string?_quoted] at hread
  exact Prod.mk.inj (Option.some.inj hread)

/-! Numbers. -/

theorem decimal_append_inj {m n : Nat} {r s : List Char} (hr : Stops isAsciiDigit r) (hs : Stops isAsciiDigit s)
    (h : decimal m ++ r = decimal n ++ s) : m = n ∧ r = s := by
  have hm : ∀ c ∈ decimal m, isAsciiDigit c = true := fun c hc => isAsciiDigit_of_mem_decimal hc
  have hn : ∀ c ∈ decimal n, isAsciiDigit c = true := fun c hc => isAsciiDigit_of_mem_decimal hc
  have hdigits := congrArg (List.takeWhile isAsciiDigit) h
  have hrest := congrArg (List.dropWhile isAsciiDigit) h
  rw [takeWhile_append_of_stops hm hr, takeWhile_append_of_stops hn hs] at hdigits
  rw [dropWhile_append_of_stops hm hr, dropWhile_append_of_stops hn hs] at hrest
  have hvalue := congrArg (IntLiteral.digits? 10) hdigits
  rw [IntLiteral.digits?_decimal, IntLiteral.digits?_decimal] at hvalue
  exact ⟨Option.some.inj hvalue, hrest⟩

theorem intText_eq (n : Int) : intText n = (if n < 0 then ['-'] else []) ++ decimal n.natAbs := by
  unfold intText decimal
  split <;> rfl

theorem head?_intText (n : Int) : (intText n).head? = some '-' ↔ n < 0 := by
  rw [intText_eq]
  by_cases hn : n < 0
  · simp [hn]
  · simp only [hn, if_false, List.nil_append, iff_false]
    intro hhead
    exact absurd rfl (ne_of_mem_decimal (List.mem_of_mem_head? hhead) (by decide))

theorem intText_append_inj {m n : Int} {r s : List Char} (hr : Stops isAsciiDigit r) (hs : Stops isAsciiDigit s)
    (h : intText m ++ r = intText n ++ s) : m = n ∧ r = s := by
  have hne : ∀ k : Int, intText k ≠ [] := by
    intro k
    rw [intText_eq]
    exact List.append_ne_nil_of_right_ne_nil _ decimal_ne_nil
  have hsign : m < 0 ↔ n < 0 := by
    rw [← head?_intText, ← head?_intText, ← List.head?_append_of_ne_nil _ (hne m), h,
      List.head?_append_of_ne_nil _ (hne n)]
  rw [intText_eq, intText_eq, List.append_assoc, List.append_assoc] at h
  have hdigits : decimal m.natAbs ++ r = decimal n.natAbs ++ s := by
    by_cases hm : m < 0
    · rw [if_pos hm, if_pos (hsign.1 hm)] at h
      exact (List.cons.inj h).2
    · rw [if_neg hm, if_neg fun hn => hm (hsign.2 hn)] at h
      exact h
  obtain ⟨habs, hrest⟩ := decimal_append_inj hr hs hdigits
  exact ⟨by omega, hrest⟩

/-! Parts with commas between them. -/

section

variable {α : Type} {text : α → List Char}

/-- Two texts that agree, whatever follows them, are of one item. A number in front of a digit is left out. -/
def Apart (text : α → List Char) (x y : α) : Prop :=
  ∀ r s, Stops isAsciiDigit r → Stops isAsciiDigit s → text x ++ r = text y ++ s → x = y ∧ r = s

def following (text : α → List Char) (xs : List α) : List Char := xs.flatMap fun x => ',' :: text x

def listed (text : α → List Char) : List α → List Char
  | [] => []
  | x :: xs => text x ++ following text xs

theorem stops_following {close : Char} (hclose : isAsciiDigit close = false) (xs : List α) (r : List Char) :
    Stops isAsciiDigit (following text xs ++ close :: r) := by
  cases xs with
  | nil => exact stops_cons.2 hclose
  | cons x xs => exact stops_cons.2 (by decide)

theorem following_append_inj {close : Char} (hclose : isAsciiDigit close = false) (hcomma : close ≠ ',')
    {xs ys : List α} {r s : List Char} (happart : ∀ x ∈ xs, ∀ y ∈ ys, Apart text x y)
    (h : following text xs ++ close :: r = following text ys ++ close :: s) : xs = ys ∧ r = s := by
  induction xs generalizing ys with
  | nil =>
    cases ys with
    | nil => exact ⟨rfl, (List.cons.inj h).2⟩
    | cons y ys => exact absurd (List.cons.inj h).1 hcomma
  | cons x xs ih =>
    cases ys with
    | nil => exact absurd (List.cons.inj h).1.symm hcomma
    | cons y ys =>
      simp only [following, List.flatMap_cons, List.cons_append, List.append_assoc] at h
      have htail := (List.cons.inj h).2
      obtain ⟨rfl, hrest⟩ := happart x List.mem_cons_self y List.mem_cons_self _ _
        (stops_following hclose xs r) (stops_following hclose ys s) htail
      obtain ⟨rfl, hend⟩ :=
        ih (fun x hx y hy => happart x (List.mem_cons_of_mem _ hx) y (List.mem_cons_of_mem _ hy)) hrest
      exact ⟨rfl, hend⟩

/-- Between brackets the parts can be told apart when none begins like the closing bracket. -/
theorem bracketed_append_inj {opener close : Char} (hclose : isAsciiDigit close = false) (hcomma : close ≠ ',')
    {xs ys : List α} {r s : List Char} (happart : ∀ x ∈ xs, ∀ y ∈ ys, Apart text x y)
    (hxs : ∀ x ∈ xs, ∃ c cs, text x = c :: cs ∧ c ≠ close)
    (hys : ∀ y ∈ ys, ∃ c cs, text y = c :: cs ∧ c ≠ close)
    (h : (opener :: listed text xs ++ [close]) ++ r = (opener :: listed text ys ++ [close]) ++ s) :
    xs = ys ∧ r = s := by
  simp only [List.cons_append, List.append_assoc, List.nil_append] at h
  have hinside := (List.cons.inj h).2
  cases xs with
  | nil =>
    cases ys with
    | nil => exact ⟨rfl, (List.cons.inj hinside).2⟩
    | cons y ys =>
      obtain ⟨c, cs, hy, hne⟩ := hys y List.mem_cons_self
      rw [listed, listed, hy] at hinside
      exact absurd (List.cons.inj hinside).1.symm hne
  | cons x xs =>
    cases ys with
    | nil =>
      obtain ⟨c, cs, hx, hne⟩ := hxs x List.mem_cons_self
      rw [listed, listed, hx] at hinside
      exact absurd (List.cons.inj hinside).1 hne
    | cons y ys =>
      rw [listed, listed, List.append_assoc, List.append_assoc] at hinside
      obtain ⟨rfl, hrest⟩ := happart x List.mem_cons_self y List.mem_cons_self _ _
        (stops_following hclose xs r) (stops_following hclose ys s) hinside
      obtain ⟨rfl, hend⟩ := following_append_inj hclose hcomma
        (fun x hx y hy => happart x (List.mem_cons_of_mem _ hx) y (List.mem_cons_of_mem _ hy)) hrest
      exact ⟨rfl, hend⟩

end

theorem itemChars_eq (items : List Json) : itemChars items = listed chars items := by
  induction items with
  | nil => rfl
  | cons item rest ih =>
    cases rest with
    | nil => simp [itemChars, listed, following]
    | cons next rest => simp [itemChars, ih, listed, following]

def memberText (m : String × Json) : List Char := quoted m.1 ++ ':' :: chars m.2

theorem memberChars_eq (members : List (String × Json)) : memberChars members = listed memberText members := by
  induction members with
  | nil => rfl
  | cons m rest ih =>
    obtain ⟨key, value⟩ := m
    cases rest with
    | nil => simp [memberChars, listed, following, memberText]
    | cons next rest => simp [memberChars, ih, listed, following, memberText]

/-! Values. -/

/-- A value without doubles. -/
inductive Exact : Json → Prop
  | null : Exact null
  | bool (value : Bool) : Exact (bool value)
  | int (value : Int) : Exact (int value)
  | str (text : String) : Exact (str text)
  | arr {items : List Json} (h : ∀ item ∈ items, Exact item) : Exact (arr items)
  | obj {members : List (String × Json)} (h : ∀ m ∈ members, Exact m.2) : Exact (obj members)

/-- What the first character of a text tells. -/
inductive Kind where
  | null
  | truth (value : Bool)
  | number | text | list | record
  deriving DecidableEq

def kind : Json → Kind
  | null => .null
  | bool value => .truth value
  | int _ => .number
  | double _ => .number
  | str _ => .text
  | arr _ => .list
  | obj _ => .record

def Kind.ofFirst? (c : Char) : Option Kind :=
  if c = 'n' then some .null
  else if c = 't' then some (.truth true)
  else if c = 'f' then some (.truth false)
  else if c = '"' then some .text
  else if c = '[' then some .list
  else if c = '{' then some .record
  else if c = '-' || isAsciiDigit c then some .number
  else none

theorem Exact.exists_first {a : Json} (h : Exact a) :
    ∃ c cs, a.chars = c :: cs ∧ Kind.ofFirst? c = some a.kind := by
  cases h with
  | null => exact ⟨_, _, rfl, rfl⟩
  | bool value => cases value <;> exact ⟨_, _, rfl, rfl⟩
  | str text => exact ⟨_, _, rfl, rfl⟩
  | arr h => exact ⟨_, _, rfl, rfl⟩
  | obj h => exact ⟨_, _, rfl, rfl⟩
  | int value =>
    rw [chars, intText_eq]
    by_cases hn : value < 0
    · exact ⟨'-', decimal value.natAbs, by rw [if_pos hn]; rfl, rfl⟩
    · obtain ⟨c, cs, heq⟩ := List.exists_cons_of_ne_nil (decimal_ne_nil (n := value.natAbs))
      have hmem : c ∈ decimal value.natAbs := by rw [heq]; exact List.mem_cons_self
      have hdigit := isAsciiDigit_of_mem_decimal hmem
      have hne : ∀ d, isAsciiDigit d = false → c ≠ d := fun d hd => ne_of_mem_decimal hmem hd
      refine ⟨c, cs, by rw [if_neg hn, heq]; rfl, ?_⟩
      rw [Kind.ofFirst?, if_neg (hne 'n' rfl), if_neg (hne 't' rfl), if_neg (hne 'f' rfl), if_neg (hne '"' rfl),
        if_neg (hne '[' rfl), if_neg (hne '{' rfl), hdigit, Bool.or_true]
      rfl

theorem Exact.exists_cons_ne {a : Json} (h : Exact a) {close : Char} (hclose : Kind.ofFirst? close = none) :
    ∃ c cs, a.chars = c :: cs ∧ c ≠ close := by
  obtain ⟨c, cs, hchars, hkind⟩ := h.exists_first
  refine ⟨c, cs, hchars, ?_⟩
  rintro rfl
  rw [hclose] at hkind
  cases hkind

theorem kind_eq_of_chars {a b : Json} (ha : Exact a) (hb : Exact b) {r s : List Char}
    (h : a.chars ++ r = b.chars ++ s) : a.kind = b.kind := by
  obtain ⟨c, cs, hchars, hkind⟩ := ha.exists_first
  obtain ⟨d, ds, hchars', hkind'⟩ := hb.exists_first
  rw [hchars, hchars'] at h
  rw [(List.cons.inj h).1] at hkind
  exact Option.some.inj (hkind.symm.trans hkind')

theorem memberText_apart {m n : String × Json} (h : Apart chars m.2 n.2) : Apart memberText m n := by
  intro r s hr hs heq
  rw [memberText, memberText, List.append_assoc, List.append_assoc] at heq
  obtain ⟨hkey, hvalue⟩ := quoted_append_inj heq
  obtain ⟨hvalue, hrest⟩ := h r s hr hs (List.cons.inj hvalue).2
  exact ⟨Prod.ext hkey hvalue, hrest⟩

/-- Texts of exact values, each with something behind it that does not go on with a digit, agree only when the values
and what is behind them do. -/
theorem Exact.apart {a : Json} (ha : Exact a) : ∀ {b : Json}, Exact b → Apart chars a b := by
  -- in each case the other value is of the same kind, since the two texts begin alike
  induction ha with
  | null =>
    intro b hb r s _ _ h
    have hkind := kind_eq_of_chars .null hb h
    cases hb <;> cases hkind
    exact ⟨rfl, List.append_cancel_left h⟩
  | bool value =>
    intro b hb r s _ _ h
    have hkind := kind_eq_of_chars (.bool value) hb h
    cases hb <;> cases hkind
    exact ⟨rfl, List.append_cancel_left h⟩
  | int value =>
    intro b hb r s hr hs h
    have hkind := kind_eq_of_chars (.int value) hb h
    cases hb <;> cases hkind
    obtain ⟨rfl, hrest⟩ := intText_append_inj hr hs h
    exact ⟨rfl, hrest⟩
  | str text =>
    intro b hb r s _ _ h
    have hkind := kind_eq_of_chars (.str text) hb h
    cases hb <;> cases hkind
    obtain ⟨rfl, hrest⟩ := quoted_append_inj h
    exact ⟨rfl, hrest⟩
  | arr hitems ih =>
    intro b hb r s _ _ h
    have hkind := kind_eq_of_chars (.arr hitems) hb h
    cases hb <;> cases hkind
    rename_i hitems'
    rw [chars, chars, itemChars_eq, itemChars_eq] at h
    obtain ⟨rfl, hrest⟩ := bracketed_append_inj rfl (by decide) (fun x hx y hy => ih x hx (hitems' y hy))
      (fun x hx => (hitems x hx).exists_cons_ne rfl) (fun y hy => (hitems' y hy).exists_cons_ne rfl) h
    exact ⟨rfl, hrest⟩
  | obj hmembers ih =>
    intro b hb r s _ _ h
    have hkind := kind_eq_of_chars (.obj hmembers) hb h
    cases hb <;> cases hkind
    rename_i hmembers'
    rw [chars, chars, memberChars_eq, memberChars_eq] at h
    have hquote : ∀ m : String × Json, ∃ c cs, memberText m = c :: cs ∧ c ≠ '}' :=
      fun m => ⟨'"', _, rfl, by decide⟩
    obtain ⟨rfl, hrest⟩ := bracketed_append_inj rfl (by decide)
      (fun x hx y hy => memberText_apart (ih x hx (hmembers' y hy))) (fun x _ => hquote x) (fun y _ => hquote y) h
    exact ⟨rfl, hrest⟩

/-- Exact values with one text are the same. -/
theorem compact_injective {a b : Json} (ha : Exact a) (hb : Exact b) (h : a.compact = b.compact) : a = b := by
  have hchars : a.chars ++ [] = b.chars ++ [] := congrArg (· ++ []) (String.ofList_injective h)
  exact (ha.apart hb [] [] stops_nil stops_nil hchars).1

end WireLayout.Json
