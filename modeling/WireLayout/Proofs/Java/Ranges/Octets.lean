import WireLayout.Proofs.Java.Ranges.Scan

/-! The octets of a text and of its masked copy, cell by cell. A cell is as long in both, and in the masked text it is
one octet of ASCII, or else a run of octets of which none means anything to a reader: spaces, or parts of a character
above ASCII. So the ends of contiguous cells are places where both texts can be cut. -/

namespace WireLayout.Java

open WireLayout.Text

variable {text as bs cs : List Char} {c x : Char}

/-! The octets of a text. -/

@[simp] theorem octetViews_nil : octetViews [] = [] := rfl

@[simp] theorem octetViews_append : octetViews (as ++ bs) = octetViews as ++ octetViews bs := by
  simp [octetViews, utf8]

theorem octetViews_cons : octetViews (c :: cs) = octetViews [c] ++ octetViews cs :=
  show octetViews ([c] ++ cs) = _ from octetViews_append

theorem length_octetViews_singleton (c : Char) : (octetViews [c]).length = c.utf8Size := by
  simp [octetViews, utf8, String.length_utf8EncodeChar]

theorem toNat_octet (b : UInt8) : (Char.ofNat b.toNat).toNat = b.toNat := by
  have hb : b.toNat < 256 := UInt8.toNat_lt b
  rw [Char.toNat_ofNat, if_pos]
  exact .inl (by omega)

theorem octetViews_ascii (h : c.toNat < 128) : octetViews [c] = [c] := by
  have hencode : String.utf8EncodeChar c = [UInt8.ofNat c.toNat] := if_pos (Nat.le_of_lt_succ h)
  have hmod : c.toNat % 256 = c.toNat := Nat.mod_eq_of_lt (by omega)
  simp [octetViews, utf8, hencode, hmod]

theorem octetViews_other (h : 128 ≤ c.toNat) : ∀ x ∈ octetViews [c], 128 ≤ x.toNat := by
  have hv : ¬ c.val.toNat ≤ 127 := by
    have : 128 ≤ c.val.toNat := h
    omega
  intro x hx
  simp only [octetViews, utf8, List.flatMap_cons, List.flatMap_nil, List.append_nil, List.mem_map] at hx
  obtain ⟨b, hb, rfl⟩ := hx
  rw [toNat_octet]
  simp only [String.utf8EncodeChar, if_neg hv] at hb
  split at hb
  · simp only [List.mem_cons, List.not_mem_nil, or_false] at hb
    rcases hb with rfl | rfl <;> simp only [UInt8.toNat_ofNat'] <;> omega
  · split at hb
    · simp only [List.mem_cons, List.not_mem_nil, or_false] at hb
      rcases hb with rfl | rfl | rfl <;> simp only [UInt8.toNat_ofNat'] <;> omega
    · simp only [List.mem_cons, List.not_mem_nil, or_false] at hb
      rcases hb with rfl | rfl | rfl | rfl <;> simp only [UInt8.toNat_ofNat'] <;> omega

theorem splitOctets?_append (as bs : List Char) : splitOctets? (octetViews as).length (as ++ bs) = some (as, bs) := by
  induction as with
  | nil => cases bs <;> rfl
  | cons c as ih =>
    have hlength : (octetViews (c :: as)).length = (octetViews as).length + (c.utf8Size - 1) + 1 := by
      have := c.utf8Size_pos
      rw [octetViews_cons, List.length_append, length_octetViews_singleton]
      omega
    have hrest : (octetViews as).length + (c.utf8Size - 1) + 1 - c.utf8Size = (octetViews as).length := by
      have := c.utf8Size_pos
      omega
    have hfits : c.utf8Size ≤ (octetViews as).length + (c.utf8Size - 1) + 1 := by omega
    rw [hlength, List.cons_append, splitOctets?, if_pos hfits, hrest, ih]
    rfl

theorem part?_eq (as bs cs : List Char) :
    part? (as ++ (bs ++ cs)) ⟨(octetViews as).length, (octetViews as).length + (octetViews bs).length⟩ = some bs := by
  simp [part?, splitOctets?_append, guard]

theorem textIn_eq (as bs cs : List Char) :
    textIn (as ++ (bs ++ cs)) ⟨(octetViews as).length, (octetViews as).length + (octetViews bs).length⟩ = .ok bs := by
  rw [textIn, part?_eq]

/-! The octets of a cell. -/

/-- No bracket, separator, sign or part of a name. -/
def Neutral (c : Char) : Prop := c = ' ' ∨ 128 ≤ c.toNat

def Cell.octets (c : Cell) : List Char := octetViews c.masked

def maskedText (cs : List Cell) : List Char := cs.flatMap Cell.masked

@[simp] theorem maskedText_append (cs ds : List Cell) : maskedText (cs ++ ds) = maskedText cs ++ maskedText ds :=
  List.flatMap_append

@[simp] theorem verbatim_append (cs ds : List Cell) : verbatim (cs ++ ds) = verbatim cs ++ verbatim ds :=
  List.map_append

theorem octetViews_maskedText (cs : List Cell) : octetViews (maskedText cs) = cs.flatMap Cell.octets := by
  induction cs with
  | nil => rfl
  | cons c cs ih => rw [maskedText, List.flatMap_cons, octetViews_append, ← maskedText, ih]; rfl

theorem octetViews_blanks (n : Nat) : octetViews (List.replicate n ' ') = List.replicate n ' ' := by
  induction n with
  | zero => rfl
  | succ n ih => rw [List.replicate_succ, octetViews_cons, ih]; rfl

theorem Cell.length_octets (c : Cell) : c.octets.length = c.char.utf8Size := by
  rw [Cell.octets, Cell.masked]
  split
  · exact length_octetViews_singleton c.char
  · rw [octetViews_blanks, List.length_replicate]

/-- The octets of a cell are all what the cell shows, or all above ASCII with it. -/
theorem Cell.octet_eq (c : Cell) : ∀ x ∈ c.octets, x = c.view ∨ 128 ≤ x.toNat ∧ 128 ≤ c.view.toNat := by
  intro x hx
  rw [Cell.octets, Cell.masked] at hx
  rw [Cell.view]
  split at hx
  · rename_i hshown
    rw [if_pos hshown]
    by_cases hascii : c.char.toNat < 128
    · rw [octetViews_ascii hascii] at hx
      exact .inl (List.mem_singleton.1 hx)
    · exact .inr ⟨octetViews_other (by omega) x hx, by omega⟩
  · rename_i hshown
    rw [if_neg hshown]
    rw [octetViews_blanks] at hx
    exact .inl (List.eq_of_mem_replicate hx)

theorem Cell.octets_eq (c : Cell) : c.octets = [c.view] ∨ Neutral c.view ∧ ∀ x ∈ c.octets, Neutral x := by
  by_cases hneutral : Neutral c.view
  · refine .inr ⟨hneutral, fun x hx => ?_⟩
    rcases c.octet_eq x hx with rfl | ⟨hx, -⟩
    · exact hneutral
    · exact .inr hx
  · rw [Neutral, not_or] at hneutral
    have hshown : c.shown = true := by
      by_contra h
      exact hneutral.1 (by rw [Cell.view, if_neg h])
    rw [Cell.view, if_pos hshown] at hneutral ⊢
    rw [Cell.octets, Cell.masked, if_pos hshown]
    exact .inl (octetViews_ascii (by omega))

/-- The octets that cells take, in the source and in the masked text. -/
def width (cs : List Cell) : Nat := (octetViews (verbatim cs)).length

theorem width_eq (cs : List Cell) : width cs = (octetViews (maskedText cs)).length := by
  induction cs with
  | nil => rfl
  | cons c cs ih =>
    have hc : (octetViews [c.char]).length = (octetViews c.masked).length :=
      (length_octetViews_singleton c.char).trans c.length_octets.symm
    rw [width] at ih ⊢
    rw [verbatim, List.map_cons, octetViews_cons, ← verbatim, maskedText, List.flatMap_cons, octetViews_append,
      ← maskedText, List.length_append, List.length_append, ih, hc]

@[simp] theorem width_nil : width [] = 0 := rfl

@[simp] theorem width_append (cs ds : List Cell) : width (cs ++ ds) = width cs + width ds := by
  simp [width]

theorem width_cons (c : Cell) (cs : List Cell) : width (c :: cs) = c.octets.length + width cs := by
  rw [width_eq, width_eq, octetViews_maskedText, octetViews_maskedText, List.flatMap_cons, List.length_append]

theorem Cell.octets_ne_nil (c : Cell) : c.octets ≠ [] := by
  rw [← List.length_pos_iff, c.length_octets]
  exact c.char.utf8Size_pos

theorem width_eq_zero {cs : List Cell} : width cs = 0 ↔ cs = [] := by
  cases cs with
  | nil => simp
  | cons c cs =>
    have := List.length_pos_iff.2 c.octets_ne_nil
    simp only [width_cons, List.cons_ne_nil, iff_false]
    omega

/-! Ranges that contiguous cells cover. -/

section

variable {all before xs ys : List Cell} {a : Cell} {i j k : Nat}

/-- The range of the octets of contiguous cells. -/
def Covers (all : List Cell) (s : Span) (xs : List Cell) : Prop :=
  ∃ before after, all = before ++ (xs ++ after) ∧ s = ⟨width before, width before + width xs⟩

theorem prefix_unique {xs ys as bs : List Cell} (h : xs ++ as = ys ++ bs) (hwidth : width xs = width ys) :
    xs = ys ∧ as = bs := by
  induction xs generalizing ys with
  | nil =>
    obtain rfl := width_eq_zero.1 hwidth.symm
    exact ⟨rfl, h⟩
  | cons x xs ih =>
    cases ys with
    | nil => exact absurd (width_eq_zero.1 hwidth) (List.cons_ne_nil x xs)
    | cons y ys =>
      rw [List.cons_append, List.cons_append, List.cons.injEq] at h
      obtain ⟨rfl, h⟩ := h
      rw [width_cons, width_cons] at hwidth
      obtain ⟨rfl, rfl⟩ := ih h (by omega)
      exact ⟨rfl, rfl⟩

namespace Covers

theorem whole (all : List Cell) : Covers all ⟨0, width all⟩ all := ⟨[], [], by simp, by simp⟩

theorem append (h : Covers all ⟨i, k⟩ (xs ++ ys)) : ∃ j, Covers all ⟨i, j⟩ xs ∧ Covers all ⟨j, k⟩ ys := by
  obtain ⟨before, after, rfl, hs⟩ := h
  simp only [Span.mk.injEq] at hs
  obtain ⟨rfl, rfl⟩ := hs
  refine ⟨width (before ++ xs), ⟨before, ys ++ after, by simp, by simp⟩, before ++ xs, after, by simp, ?_⟩
  simp [Nat.add_assoc]

theorem join (hx : Covers all ⟨i, j⟩ xs) (hy : Covers all ⟨j, k⟩ ys) : Covers all ⟨i, k⟩ (xs ++ ys) := by
  obtain ⟨before, after, hall, hs⟩ := hx
  obtain ⟨before', after', hall', hs'⟩ := hy
  simp only [Span.mk.injEq] at hs hs'
  obtain ⟨rfl, rfl⟩ := hs
  obtain ⟨hj, rfl⟩ := hs'
  have heq : (before ++ xs) ++ after = before' ++ (ys ++ after') := by rw [List.append_assoc, ← hall, hall']
  obtain ⟨rfl, rfl⟩ := prefix_unique heq (by simpa using hj)
  refine ⟨before, after', by simp [hall], ?_⟩
  simp [Nat.add_assoc]

theorem start (h : Covers all ⟨i, k⟩ xs) : Covers all ⟨i, i⟩ [] := by
  obtain ⟨before, after, rfl, hs⟩ := h
  simp only [Span.mk.injEq] at hs
  exact ⟨before, xs ++ after, rfl, by simp [hs.1]⟩

theorem finish (h : Covers all ⟨i, k⟩ xs) : Covers all ⟨k, k⟩ [] := by
  rw [← List.append_nil xs] at h
  obtain ⟨j, -, hj⟩ := h.append
  obtain ⟨before, after, hall, hs⟩ := id hj
  simp only [Span.mk.injEq, width_nil, Nat.add_zero] at hs
  rw [hs.1, ← hs.2] at hj
  exact hj

/-- Contiguous cells are followed by others up to the end of all. -/
theorem exists_after (h : Covers all ⟨i, k⟩ xs) : ∃ front after, all = front ++ (xs ++ after) ∧
    Covers all ⟨i, width all⟩ (xs ++ after) := by
  obtain ⟨front, after, rfl, hs⟩ := h
  simp only [Span.mk.injEq] at hs
  exact ⟨front, after, rfl, front, [], by simp, by simp [hs.1]⟩

theorem le (h : Covers all ⟨i, k⟩ xs) : i ≤ k := by
  obtain ⟨before, after, -, hs⟩ := h
  simp only [Span.mk.injEq] at hs
  omega

theorem lt_iff (h : Covers all ⟨i, k⟩ xs) : i < k ↔ xs ≠ [] := by
  obtain ⟨before, after, -, hs⟩ := h
  simp only [Span.mk.injEq] at hs
  rw [ne_eq, ← width_eq_zero]
  omega

theorem textIn_masked {s : Span} (h : Covers all s xs) : textIn (maskedText all) s = .ok (maskedText xs) := by
  obtain ⟨before, after, rfl, rfl⟩ := h
  rw [maskedText_append, maskedText_append, width_eq, width_eq]
  exact textIn_eq _ _ _

theorem textIn_source {s : Span} (h : Covers all s xs) : textIn (verbatim all) s = .ok (verbatim xs) := by
  obtain ⟨before, after, rfl, rfl⟩ := h
  rw [verbatim_append, verbatim_append]
  exact textIn_eq _ _ _

/-- The octets at a cell begin as the masked text of the cell does. -/
theorem octets_at (h : Covers all ⟨i, k⟩ xs) :
    ∃ front back, octetViews (maskedText all) = front ++ (xs.flatMap Cell.octets ++ back) ∧ i = front.length ∧
      k = front.length + (xs.flatMap Cell.octets).length := by
  obtain ⟨before, after, rfl, hs⟩ := h
  simp only [Span.mk.injEq] at hs
  refine ⟨before.flatMap Cell.octets, after.flatMap Cell.octets, ?_, ?_, ?_⟩
  · rw [octetViews_maskedText, List.flatMap_append, List.flatMap_append]
  · rw [hs.1, width_eq, octetViews_maskedText]
  · rw [hs.2, width_eq, width_eq, octetViews_maskedText, octetViews_maskedText]

end Covers

end

end WireLayout.Java
