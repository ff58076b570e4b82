import Mathlib
import WireLayout.Text.Blank
import WireLayout.Text.Search

/-! What the recognising steps make of a text that is put together from parts. A run takes a part of its
class up to a character that is not of it, a literal takes itself, and trimming leaves a text alone that
neither begins nor ends with space. -/

namespace WireLayout.Text

variable {p : Char → Bool} {cs w rest : List Char} {c : Char}

/-- A text goes on with no character of a class. -/
def Stops (p : Char → Bool) (rest : List Char) : Prop := ∀ c ∈ rest.head?, p c = false

@[simp] theorem stops_nil : Stops p [] := by simp [Stops]

@[simp] theorem stops_cons : Stops p (c :: rest) ↔ p c = false := by simp [Stops]

theorem takeWhile_append_of_stops (hw : ∀ c ∈ w, p c = true) (hr : Stops p rest) :
    (w ++ rest).takeWhile p = w := by
  rw [List.takeWhile_append_of_pos hw]
  cases rest with
  | nil => simp
  | cons c rest => simp [stops_cons.1 hr]

theorem dropWhile_append_of_stops (hw : ∀ c ∈ w, p c = true) (hr : Stops p rest) :
    (w ++ rest).dropWhile p = rest := by
  rw [List.dropWhile_append_of_pos hw]
  cases rest with
  | nil => simp
  | cons c rest => simp [stops_cons.1 hr]

theorem run?_append (hne : w ≠ []) (hw : ∀ c ∈ w, p c = true) (hr : Stops p rest) :
    run? p (w ++ rest) = some (w, rest) := by
  rw [run?, takeWhile_append_of_stops hw hr, dropWhile_append_of_stops hw hr, if_neg (by simpa using hne)]

theorem run?_of_stops (hr : Stops p cs) : run? p cs = none := by
  cases cs with
  | nil => rfl
  | cons c cs => simp [run?, stops_cons.1 hr]

theorem run?_eq_some (h : run? p cs = some (w, rest)) :
    cs = w ++ rest ∧ w ≠ [] ∧ (∀ c ∈ w, p c = true) ∧ Stops p rest := by
  unfold run? at h
  split at h
  · cases h
  · rename_i hne
    obtain ⟨rfl, rfl⟩ := Prod.mk.inj (Option.some.inj h)
    refine ⟨(List.takeWhile_append_dropWhile).symm, by simpa using hne, fun c hc => List.mem_takeWhile_imp hc, ?_⟩
    intro c hc
    have hnot := List.head?_dropWhile_not p cs
    rw [Option.mem_def.1 hc] at hnot
    simpa using hnot

theorem literal?_eq_some_iff {l : List Char} : literal? l cs = some rest ↔ cs = l ++ rest := by
  induction l generalizing cs with
  | nil => simp [literal?, eq_comm]
  | cons x l ih =>
    cases cs with
    | nil => simp [literal?]
    | cons c cs =>
      rw [literal?, Option.ite_none_right_eq_some, ih, List.cons_append, List.cons.injEq, eq_comm (a := x)]

@[simp] theorem literal?_append (l rest : List Char) : literal? l (l ++ rest) = some rest :=
  literal?_eq_some_iff.2 rfl

theorem token?_eq_some_iff {l : String} : token? l cs = some rest ↔ skipSpaces cs = l.toList ++ rest :=
  literal?_eq_some_iff

theorem skipSpaces_of_stops (h : Stops isSpace cs) : skipSpaces cs = cs := by
  cases cs with
  | nil => rfl
  | cons c cs => simp [skipSpaces, stops_cons.1 h]

theorem skipSpaces_cons_of_space (h : isSpace c = true) : skipSpaces (c :: cs) = skipSpaces cs := by
  simp [skipSpaces, h]

theorem spaces?_eq_some (h : spaces? cs = some rest) :
    rest = skipSpaces cs ∧ ∃ s, s ∈ cs.head? ∧ isSpace s = true := by
  obtain ⟨⟨w, after⟩, hp, rfl⟩ := Option.map_eq_some_iff.1 h
  obtain ⟨happ, hne, hspace, hstop⟩ := run?_eq_some hp
  obtain ⟨s, ss, rfl⟩ := List.exists_cons_of_ne_nil hne
  refine ⟨?_, s, by rw [happ]; rfl, hspace s List.mem_cons_self⟩
  rw [happ, skipSpaces, dropWhile_append_of_stops hspace hstop]

theorem literal?_suffix {l : List Char} (h : literal? l cs = some rest) : rest <:+ cs :=
  ⟨l, (literal?_eq_some_iff.1 h).symm⟩

theorem run?_suffix (h : run? p cs = some (w, rest)) : rest <:+ cs := ⟨w, (run?_eq_some h).1.symm⟩

theorem spaces?_suffix (h : spaces? cs = some rest) : rest <:+ cs := by
  rw [(spaces?_eq_some h).1]
  exact List.dropWhile_suffix isSpace

theorem token?_suffix {l : String} (h : token? l cs = some rest) : rest <:+ cs :=
  (literal?_suffix h).trans (List.dropWhile_suffix isSpace)

theorem mem_of_mem_skipSpaces (h : c ∈ skipSpaces cs) : c ∈ cs :=
  (List.dropWhile_suffix isSpace).subset h

theorem mem_of_token? {l : String} (h : token? l cs = some rest) : ∀ c ∈ l.toList, c ∈ cs := by
  intro c hc
  apply mem_of_mem_skipSpaces
  rw [token?_eq_some_iff.1 h]
  exact List.mem_append_left _ hc

theorem mem_of_mem_rest (h : run? p cs = some (w, rest)) (hc : c ∈ rest) : c ∈ cs := by
  rw [(run?_eq_some h).1]
  exact List.mem_append_right _ hc

theorem token?_eq_none_of_notMem {l : String} (hc : c ∈ l.toList) (h : c ∉ cs) : token? l cs = none := by
  cases ht : token? l cs with
  | none => rfl
  | some rest => exact absurd (mem_of_token? ht c hc) h

theorem token?_eq_none_of_head? {l : String} (hl : l.toList.head? = some c) (h : (skipSpaces cs).head? ≠ some c) :
    token? l cs = none := by
  cases ht : token? l cs with
  | none => rfl
  | some rest => exact absurd (by rw [token?_eq_some_iff.1 ht, List.head?_append, hl]; rfl) h

/-! Trimming. -/

section

variable {α : Type} {q : α → Bool} {xs ys zs : List α}

theorem prefix_dropEnd : dropEnd q xs <+: xs := by
  rw [dropEnd, ← List.reverse_suffix, List.reverse_reverse]
  exact List.dropWhile_suffix q

theorem dropEnd_eq_self (h : ∀ x ∈ xs.getLast?, q x = false) : dropEnd q xs = xs := by
  rw [dropEnd, ← List.head?_reverse] at *
  cases hr : xs.reverse with
  | nil => simpa using hr
  | cons x rest =>
    have hx : q x = false := h x (by rw [hr]; rfl)
    rw [List.dropWhile_cons_of_neg (by simp [hx]), ← hr, List.reverse_reverse]

theorem trim_eq_self (hh : ∀ x ∈ xs.head?, q x = false) (hl : ∀ x ∈ xs.getLast?, q x = false) :
    trim q xs = xs := by
  have hd : xs.dropWhile q = xs := by
    cases xs with
    | nil => rfl
    | cons x xs => rw [List.dropWhile_cons_of_neg (by simp [hh x rfl])]
  rw [trim, hd, dropEnd_eq_self hl]

theorem trim_subset : trim q xs ⊆ xs := by
  intro x hx
  have hdrop : x ∈ xs.dropWhile q :=
    List.mem_reverse.1 ((List.dropWhile_suffix q).subset (List.mem_reverse.1 hx))
  exact (List.dropWhile_suffix q).subset hdrop

theorem head?_trim : ∀ x ∈ (trim q xs).head?, q x = false := by
  intro x hx
  have hprefix : trim q xs <+: xs.dropWhile q := prefix_dropEnd
  obtain ⟨rest, hrest⟩ := hprefix
  have hhead : (xs.dropWhile q).head? = some x := by
    rw [← hrest, List.head?_append, hx]
    rfl
  simpa [hhead] using List.head?_dropWhile_not q xs

theorem getLast?_trim : ∀ x ∈ (trim q xs).getLast?, q x = false := by
  intro x hx
  rw [trim, dropEnd, List.getLast?_reverse] at hx
  have hnot := List.head?_dropWhile_not q (xs.dropWhile q).reverse
  rw [Option.mem_def.1 hx] at hnot
  simpa using hnot

theorem trim_trim : trim q (trim q xs) = trim q xs := trim_eq_self head?_trim getLast?_trim

theorem exists_trim (q : α → Bool) (xs : List α) :
    ∃ before after, xs = before ++ (trim q xs ++ after) ∧ (∀ x ∈ before, q x = true) ∧ ∀ x ∈ after, q x = true := by
  refine ⟨xs.takeWhile q, ((xs.dropWhile q).reverse.takeWhile q).reverse, ?_, fun x hx => List.mem_takeWhile_imp hx,
    fun x hx => List.mem_takeWhile_imp (List.mem_reverse.1 hx)⟩
  rw [trim, dropEnd, ← List.reverse_append, List.takeWhile_append_dropWhile, List.reverse_reverse,
    List.takeWhile_append_dropWhile]

theorem trim_append_left (h : ∀ x ∈ ys, q x = true) : trim q (ys ++ xs) = trim q xs := by
  rw [trim, List.dropWhile_append_of_pos h, trim]

theorem dropEnd_append_right (h : ∀ x ∈ ys, q x = true) : dropEnd q (xs ++ ys) = dropEnd q xs := by
  rw [dropEnd, List.reverse_append, List.dropWhile_append_of_pos (by simpa using h), dropEnd]

theorem trim_append_right (h : ∀ x ∈ ys, q x = true) : trim q (xs ++ ys) = trim q xs := by
  rw [trim, trim, List.dropWhile_append]
  split
  · rename_i hempty
    rw [List.isEmpty_iff.1 hempty, List.dropWhile_eq_nil_iff.2 h]
  · exact dropEnd_append_right h

theorem trim_between (hb : ∀ x ∈ ys, q x = true) (ha : ∀ x ∈ zs, q x = true) (hh : ∀ x ∈ xs.head?, q x = false)
    (hl : ∀ x ∈ xs.getLast?, q x = false) : trim q (ys ++ (xs ++ zs)) = xs := by
  rw [trim_append_left hb, trim_append_right ha, trim_eq_self hh hl]

/-- What stands before an element that stays is not dropped. -/
theorem dropEnd_append_cons {y : α} (h : q y = false) : dropEnd q (xs ++ y :: ys) = xs ++ y :: dropEnd q ys := by
  have hreverse : (xs ++ y :: ys).reverse = ys.reverse ++ (y :: xs.reverse) := by simp
  rw [dropEnd, hreverse, List.dropWhile_append]
  split
  · rename_i hempty
    rw [dropEnd, List.isEmpty_iff.1 hempty, List.dropWhile_cons_of_neg (by simp [h])]
    simp
  · rw [dropEnd]
    simp

theorem dropWhile_dropEnd : (dropEnd q xs).dropWhile q = trim q xs := by
  obtain ⟨before, after, hxs, hbefore, hafter⟩ := exists_trim q xs
  have hdrop : dropEnd q xs = dropEnd q (before ++ trim q xs) := by
    conv_lhs => rw [hxs, ← List.append_assoc, dropEnd_append_right hafter]
  cases ht : trim q xs with
  | nil =>
    have hnil : dropEnd q ([] ++ before) = [] := dropEnd_append_right hbefore
    rw [hdrop, ht, List.append_nil, ← List.nil_append before, hnil]
    rfl
  | cons x rest =>
    have hx : q x = false := head?_trim x (by rw [ht]; rfl)
    have hlast : ∀ y ∈ (before ++ trim q xs).getLast?, q y = false := by
      intro y hy
      have hend : y ∈ (trim q xs).getLast? := by
        rwa [List.getLast?_append_of_ne_nil _ (by simp [ht])] at hy
      exact getLast?_trim y hend
    rw [hdrop, dropEnd_eq_self hlast, List.dropWhile_append_of_pos hbefore, ht,
      List.dropWhile_cons_of_neg (by simp [hx])]

theorem countP_dropWhile {p : α → Bool} (h : ∀ x, p x = true → q x = false) :
    (xs.dropWhile q).countP p = xs.countP p := by
  have hzero : (xs.takeWhile q).countP p = 0 := by
    rw [List.countP_eq_zero]
    intro x hx hp
    have hq := List.mem_takeWhile_imp hx
    rw [h x hp] at hq
    cases hq
  conv_rhs => rw [← List.takeWhile_append_dropWhile (p := q) (l := xs), List.countP_append, hzero, Nat.zero_add]

theorem countP_trim {p : α → Bool} (h : ∀ x, p x = true → q x = false) :
    (trim q xs).countP p = xs.countP p := by
  rw [trim, dropEnd, List.countP_reverse, countP_dropWhile h, List.countP_reverse, countP_dropWhile h]

end

end WireLayout.Text
