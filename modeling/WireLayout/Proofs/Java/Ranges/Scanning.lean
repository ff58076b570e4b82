import WireLayout.Proofs.Java.Header
import WireLayout.Proofs.Java.Ranges.Octets

/-! What scanning finds in the masked text of cells. A scan that begins at one end of contiguous cells and ends at the
other stops between cells, and it stops where the reading of the cells themselves stops: no position or range on its
way is a fault. The argument is the same each time: an octet that stands alone is a step of both, and a run of neutral
octets is passed over by both. -/

namespace WireLayout.Java

open WireLayout.Text

variable {text : List Char} {all cs xs : List Cell} {c : Cell} {i k stop : Nat} {p : Char → Bool}

/-! One octet. -/

theorem octetAt_eq {front back : List Char} {x : Char} (h : octetViews text = front ++ x :: back) :
    octetAt text front.length = .ok x := by
  simp [octetAt, h]

/-- A character that an octet stands for shows what the cell does, or both are above ASCII. -/
def Reads (x : Char) (c : Cell) : Prop := x = c.view ∨ 128 ≤ x.toNat ∧ 128 ≤ c.view.toNat

theorem Reads.eq_iff {x v : Char} (h : Reads x c) (hv : v.toNat < 128) : x = v ↔ c.view = v := by
  rcases h with rfl | ⟨hx, hc⟩
  · rfl
  · exact iff_of_false (fun heq => by rw [heq] at hx; omega) (fun heq => by rw [heq] at hc; omega)

/-- A class of characters of ASCII. -/
def AsciiClass (p : Char → Bool) : Prop := ∀ c, p c = true → c.toNat < 128

theorem Reads.class_eq {x : Char} (h : Reads x c) (hp : AsciiClass p) : p x = p c.view := by
  rcases h with rfl | ⟨hx, hc⟩
  · rfl
  · have hnot : ∀ y : Char, 128 ≤ y.toNat → p y = false := fun y hy => by
      by_contra hpy
      have := hp y (by simpa using hpy)
      omega
    rw [hnot x hx, hnot c.view hc]

theorem asciiClass_isAsciiSpace : AsciiClass isAsciiSpace := by
  intro c hc
  simp only [isAsciiSpace, Bool.or_eq_true, decide_eq_true_iff] at hc
  rcases hc with (((rfl | rfl) | rfl) | rfl) | rfl <;> decide

theorem asciiClass_isIdent : AsciiClass isIdent := fun _ hc => toNat_lt_of_isIdent hc

theorem asciiClass_isIdent_or {v : Char} (hv : v.toNat < 128) : AsciiClass fun c => isIdent c || c = v := by
  intro c hc
  rw [Bool.or_eq_true, decide_eq_true_eq] at hc
  rcases hc with hc | rfl
  · exact toNat_lt_of_isIdent hc
  · exact hv

namespace Covers

theorem octetAt_ok (h : Covers all ⟨i, k⟩ (c :: cs)) : ∃ x, octetAt (maskedText all) i = .ok x ∧ Reads x c := by
  obtain ⟨front, back, htext, rfl, -⟩ := h.octets_at
  obtain ⟨x, os, hc⟩ := List.exists_cons_of_ne_nil c.octets_ne_nil
  rw [List.flatMap_cons, hc] at htext
  exact ⟨x, octetAt_eq htext, c.octet_eq x (by rw [hc]; exact List.mem_cons_self)⟩

theorem stop_eq (h : Covers all ⟨i, k⟩ xs) : k = i + (xs.flatMap Cell.octets).length := by
  obtain ⟨front, back, -, rfl, rfl⟩ := h.octets_at
  rfl

theorem cons (h : Covers all ⟨i, k⟩ (c :: cs)) :
    ∃ j, Covers all ⟨i, j⟩ [c] ∧ Covers all ⟨j, k⟩ cs :=
  append (show Covers all ⟨i, k⟩ ([c] ++ cs) from h)

/-- A cell that is not neutral takes one octet, which is what it shows. -/
theorem single (h : Covers all ⟨i, k⟩ (c :: cs)) (hc : ¬ Neutral c.view) :
    octetAt (maskedText all) i = .ok c.view ∧ Covers all ⟨i, i + 1⟩ [c] ∧ Covers all ⟨i + 1, k⟩ cs := by
  have hoctets : c.octets = [c.view] := c.octets_eq.resolve_right fun hneutral => hc hneutral.1
  obtain ⟨j, hhead, htail⟩ := h.cons
  have hj : j = i + 1 := by
    rw [hhead.stop_eq, List.flatMap_cons, List.flatMap_nil, List.append_nil, hoctets, List.length_singleton]
  subst hj
  obtain ⟨front, back, htext, rfl, -⟩ := h.octets_at
  rw [List.flatMap_cons, hoctets] at htext
  exact ⟨octetAt_eq htext, hhead, htail⟩

/-- A function of the position that passes over neutral octets passes over a neutral cell. -/
theorem pass {β : Type} {F : Nat → β} (h : Covers all ⟨i, stop⟩ (c :: cs)) (hc : Neutral c.view)
    (hstep : ∀ i x, i < stop → octetAt (maskedText all) i = .ok x → Neutral x → F i = F (i + 1)) :
    ∃ j, Covers all ⟨i, j⟩ [c] ∧ Covers all ⟨j, stop⟩ cs ∧ F i = F j := by
  have hoctets : ∀ x ∈ c.octets, Neutral x := by
    intro x hx
    rcases c.octet_eq x hx with rfl | ⟨hx, -⟩
    · exact hc
    · exact .inr hx
  obtain ⟨j, hhead, htail⟩ := h.cons
  refine ⟨j, hhead, htail, ?_⟩
  have hj : j = i + c.octets.length := by simpa using hhead.stop_eq
  have hstop := htail.le
  obtain ⟨front, back, htext, rfl, -⟩ := h.octets_at
  rw [List.flatMap_cons, List.append_assoc] at htext
  generalize hback : cs.flatMap Cell.octets ++ back = back' at htext
  clear hhead htail h hback
  -- octet by octet
  have hrun : ∀ (os front : List Char), octetViews (maskedText all) = front ++ (os ++ back') →
      (∀ x ∈ os, Neutral x) → front.length + os.length ≤ stop → F front.length = F (front.length + os.length) := by
    intro os
    induction os with
    | nil => intro front _ _ _; rfl
    | cons x os ih =>
      intro front htext hos hlength
      rw [List.length_cons] at hlength
      have hhere := hstep front.length x (by omega) (octetAt_eq htext) (hos x List.mem_cons_self)
      have hnext := ih (front ++ [x]) (by simpa using htext) (fun y hy => hos y (List.mem_cons_of_mem x hy))
        (by simp; omega)
      rw [hhere, List.length_cons]
      simpa [Nat.add_assoc, Nat.add_comm 1] using hnext
  rw [hj]
  exact hrun c.octets front htext hoctets (by omega)

end Covers

/-! Runs of a class. -/

theorem span_flatMap {α β : Type} {g : α → List β} {p : β → Bool} {q : α → Bool} (hne : ∀ x, g x ≠ [])
    (h : ∀ x, ∀ y ∈ g x, p y = q x) (xs : List α) :
    (xs.flatMap g).takeWhile p = (xs.takeWhile q).flatMap g ∧ (xs.flatMap g).dropWhile p = (xs.dropWhile q).flatMap g := by
  induction xs with
  | nil => exact ⟨rfl, rfl⟩
  | cons x xs ih =>
    rw [List.flatMap_cons]
    cases hq : q x with
    | true =>
      have hall : ∀ y ∈ g x, p y = true := fun y hy => (h x y hy).trans hq
      rw [List.takeWhile_append_of_pos hall, List.dropWhile_append_of_pos hall, ih.1, ih.2,
        List.takeWhile_cons_of_pos hq, List.dropWhile_cons_of_pos hq]
      exact ⟨rfl, rfl⟩
    | false =>
      obtain ⟨y, ys, hy⟩ := List.exists_cons_of_ne_nil (hne x)
      have hnot : ¬ p y = true := by
        rw [h x y (by rw [hy]; exact List.mem_cons_self), hq]
        exact Bool.false_ne_true
      have hq' : ¬ q x = true := by simp [hq]
      rw [hy, List.cons_append, List.takeWhile_cons_of_neg hnot, List.dropWhile_cons_of_neg hnot,
        List.takeWhile_cons_of_neg hq', List.dropWhile_cons_of_neg hq', List.flatMap_cons, hy]
      exact ⟨rfl, rfl⟩

theorem dropEnd_flatMap {α β : Type} {g : α → List β} {p : β → Bool} {q : α → Bool} (hne : ∀ x, g x ≠ [])
    (h : ∀ x, ∀ y ∈ g x, p y = q x) (xs : List α) : dropEnd p (xs.flatMap g) = (dropEnd q xs).flatMap g := by
  have hspan := span_flatMap (g := List.reverse ∘ g) (p := p) (q := q) (by simpa using hne) (by simpa using h) xs.reverse
  rw [dropEnd, List.reverse_flatMap, hspan.2, dropEnd, List.reverse_flatMap]
  congr 1
  funext x
  simp

theorem passWhile_octets {os front back : List Char} (h : octetViews text = front ++ (os ++ back))
    (hi : i = front.length) (hk : k = i + os.length) :
    ∃ j, passWhile text p i k = .ok j ∧ j.1 = i + (os.takeWhile p).length := by
  induction os generalizing front i with
  | nil =>
    rw [passWhile, if_neg (by simp [hk])]
    exact ⟨_, rfl, rfl⟩
  | cons x os ih =>
    rw [List.length_cons] at hk
    have hoctet : octetAt text i = .ok x := hi ▸ octetAt_eq h
    rw [passWhile, if_pos (by omega), hoctet, Except.ok_bind]
    cases hx : p x with
    | true =>
      have hnext : octetViews text = (front ++ [x]) ++ (os ++ back) := by simpa using h
      obtain ⟨j, hj, hval⟩ := ih (i := i + 1) hnext (by simp [hi]) (by omega)
      rw [if_pos rfl, hj, Except.ok_bind, List.takeWhile_cons_of_pos hx, List.length_cons]
      exact ⟨_, rfl, by rw [hval]; omega⟩
    | false =>
      rw [if_neg Bool.false_ne_true]
      exact ⟨_, rfl, by simp [hx]⟩

theorem backWhile_octets {os : List Char} {front back : List Char} (h : octetViews text = front ++ (os ++ back)) :
    ∃ j, backWhile text p front.length (front.length + os.length) = .ok j ∧
      j.1 = front.length + (dropEnd p os).length := by
  induction os using List.reverseRecOn generalizing back with
  | nil =>
    rw [List.length_nil, Nat.add_zero]
    cases front.length with
    | zero => exact ⟨_, rfl, rfl⟩
    | succ n =>
      rw [backWhile, if_neg (by omega)]
      exact ⟨_, rfl, rfl⟩
  | append_singleton os x ih =>
    have hlast : octetViews text = (front ++ os) ++ x :: back := by simpa using h
    have hoctet : octetAt text (front.length + os.length) = .ok x := by simpa using octetAt_eq hlast
    rw [List.length_append, List.length_singleton, ← Nat.add_assoc, backWhile, if_pos (by omega), hoctet,
      Except.ok_bind]
    cases hx : p x with
    | true =>
      have hfront : octetViews text = front ++ (os ++ x :: back) := by simpa using h
      obtain ⟨j, hj, hval⟩ := ih hfront
      have hdrop : dropEnd p (os ++ [x]) = dropEnd p os := dropEnd_append_right (by simpa using hx)
      rw [if_pos rfl, hj, Except.ok_bind, hdrop]
      exact ⟨_, rfl, hval⟩
    | false =>
      have hdrop : dropEnd p (os ++ [x]) = os ++ [x] := dropEnd_eq_self (by simpa using hx)
      rw [if_neg Bool.false_ne_true, hdrop]
      exact ⟨_, rfl, by simp [Nat.add_assoc]⟩

theorem octets_class (hp : AsciiClass p) (c : Cell) : ∀ x ∈ c.octets, p x = p c.view :=
  fun x hx => (show Reads x c from c.octet_eq x hx).class_eq hp

theorem Covers.passWhile (h : Covers all ⟨i, k⟩ cs) (hp : AsciiClass p) :
    ∃ j, passWhile (maskedText all) p i k = .ok j ∧ Covers all ⟨i, j⟩ (cs.takeWhile fun c => p c.view) ∧
      Covers all ⟨j, k⟩ (cs.dropWhile fun c => p c.view) := by
  have hparts := h
  rw [← List.takeWhile_append_dropWhile (p := fun c : Cell => p c.view) (l := cs)] at hparts
  obtain ⟨m, htake, hdrop⟩ := hparts.append
  obtain ⟨front, back, htext, rfl, rfl⟩ := h.octets_at
  obtain ⟨j, hj, hval⟩ := passWhile_octets (p := p) htext rfl rfl
  have hspan := (span_flatMap Cell.octets_ne_nil (octets_class hp) cs).1
  have hm : m = j := by rw [hval, hspan, htake.stop_eq]
  exact ⟨j, hj, hm ▸ htake, hm ▸ hdrop⟩

theorem Covers.backWhile (h : Covers all ⟨i, k⟩ cs) (hp : AsciiClass p) :
    ∃ j, backWhile (maskedText all) p i k = .ok j ∧ Covers all ⟨i, j⟩ (dropEnd (fun c => p c.view) cs) ∧
      Covers all ⟨j, k⟩ (cs.reverse.takeWhile fun c => p c.view).reverse := by
  have hparts : dropEnd (fun c => p c.view) cs ++ (cs.reverse.takeWhile fun c => p c.view).reverse = cs := by
    rw [dropEnd, ← List.reverse_append, List.takeWhile_append_dropWhile, List.reverse_reverse]
  obtain ⟨m, hfront, hend⟩ := (hparts ▸ h).append
  obtain ⟨front, back, htext, rfl, rfl⟩ := h.octets_at
  obtain ⟨j, hj, hval⟩ := backWhile_octets (p := p) htext
  have hm : m = j := by
    rw [hval, dropEnd_flatMap Cell.octets_ne_nil (octets_class hp) cs, hfront.stop_eq]
  exact ⟨j, hj, hm ▸ hfront, hm ▸ hend⟩

/-- A trimmed range covers the trimmed cells, and what follows its start is what follows the blanks in front. -/
theorem Covers.trimRange {s : Span} (h : Covers all s cs) :
    ∃ r, trimRange (maskedText all) s = .ok r ∧ Covers all r (trimCells cs) ∧
      Covers all ⟨r.1.start, s.stop⟩ (dropBlank cs) := by
  obtain ⟨start, hstart, -, hdrop⟩ := h.passWhile asciiClass_isAsciiSpace
  obtain ⟨stop, hstop, htrim, -⟩ := hdrop.backWhile asciiClass_isAsciiSpace
  rw [Java.trimRange, h.textIn_masked, Except.ok_bind, hstart, Except.ok_bind, hstop, Except.ok_bind]
  exact ⟨_, rfl, htrim, hdrop⟩

/-! Angle brackets and parentheses. -/

theorem Neutral.ne {x v : Char} (h : Neutral x) (hv : v.toNat < 128) (hspace : v ≠ ' ') : x ≠ v := by
  rintro rfl
  rcases h with h | h
  · exact hspace h
  · omega

theorem not_neutral {v : Char} (hv : v.toNat < 128) (hspace : v ≠ ' ') : ¬ Neutral v := fun h => h.ne hv hspace rfl

theorem not_neutral_of_view {v : Char} (h : c.view = v) (hv : v.toNat < 128) (hspace : v ≠ ' ') : ¬ Neutral c.view :=
  h ▸ not_neutral hv hspace

theorem not_neutral_comma : ¬ Neutral ',' := not_neutral (by decide) (by decide)

theorem Covers.nil_stop (h : Covers all ⟨i, k⟩ []) : k = i := by simpa using h.stop_eq

theorem exists_of_map_val {q : Nat → Prop} {r : Checked {j // q j}} {n : Nat} (h : Subtype.val <$> r = .ok n) :
    ∃ j, r = .ok j ∧ j.1 = n := by
  obtain ⟨j, hj, hn⟩ := Except.map_eq_ok_iff.1 h
  exact ⟨j, hj, hn⟩

theorem anglesEnd_step {depth : Int} {x : Char} (hi : i < stop) (hx : octetAt text i = .ok x)
    (hclose : ¬ (x = '>' && decide (depth - 1 = 0)) = true) :
    Subtype.val <$> anglesEnd text depth i stop =
      Subtype.val <$> anglesEnd text (if x = '<' then depth + 1 else if x = '>' then depth - 1 else depth) (i + 1) stop := by
  rw [anglesEnd, if_pos hi, hx, Except.ok_bind, if_neg hclose]
  dsimp only
  cases anglesEnd text (if x = '<' then depth + 1 else if x = '>' then depth - 1 else depth) (i + 1) stop <;> rfl

theorem Covers.anglesEnd {depth : Nat} (hdepth : 1 ≤ depth) (h : Covers all ⟨i, stop⟩ cs) :
    ∃ j, anglesEnd (maskedText all) depth i stop = .ok j ∧ Covers all ⟨j, stop⟩ (skipAngles depth cs) := by
  suffices hmap : ∃ n, Subtype.val <$> Java.anglesEnd (maskedText all) depth i stop = .ok n ∧
      Covers all ⟨n, stop⟩ (skipAngles depth cs) by
    obtain ⟨n, hn, hcovers⟩ := hmap
    obtain ⟨j, hj, rfl⟩ := exists_of_map_val hn
    exact ⟨j, hj, hcovers⟩
  induction cs generalizing i depth with
  | nil =>
    obtain rfl := h.nil_stop
    rw [Java.anglesEnd, if_neg (lt_irrefl _)]
    exact ⟨_, rfl, h⟩
  | cons c cs ih =>
    have hi := h.lt_iff.2 (List.cons_ne_nil c cs)
    by_cases hneutral : Neutral c.view
    · obtain ⟨j, -, htail, hpass⟩ := h.pass hneutral
        (F := fun i => Subtype.val <$> Java.anglesEnd (maskedText all) depth i stop) fun i x hi hx hneutral => by
          have hlt : x ≠ '<' := hneutral.ne (by decide) (by decide)
          have hgt : x ≠ '>' := hneutral.ne (by decide) (by decide)
          rw [anglesEnd_step hi hx (by simp [hgt]), if_neg hlt, if_neg hgt]
      rw [hpass, skipAngles, if_neg (hneutral.ne (by decide) (by decide)), if_neg (hneutral.ne (by decide) (by decide))]
      exact ih hdepth htail
    · obtain ⟨hoctet, -, htail⟩ := h.single hneutral
      rw [skipAngles]
      by_cases hlt : c.view = '<'
      · rw [anglesEnd_step hi hoctet (by simp [hlt]), if_pos hlt, if_pos hlt]
        exact ih (Nat.le_succ_of_le hdepth) htail
      · rw [if_neg hlt]
        by_cases hgt : c.view = '>'
        · rw [if_pos hgt]
          by_cases hone : depth ≤ 1
          · rw [if_pos hone, Java.anglesEnd, if_pos hi, hoctet, Except.ok_bind, if_pos]
            · exact ⟨_, rfl, htail⟩
            · simp only [hgt, decide_true, Bool.true_and, decide_eq_true_eq]
              omega
          · have hdeep : ((depth : Int) - 1 = 0) = False := by simp only [eq_iff_iff, iff_false]; omega
            have hcast : (depth : Int) - 1 = (depth - 1 : Nat) := by omega
            rw [if_neg hone, anglesEnd_step hi hoctet (by simp [hdeep]), if_neg hlt, if_pos hgt, hcast]
            exact ih (by omega) htail
        · rw [anglesEnd_step hi hoctet (by simp [hgt]), if_neg hlt, if_neg hgt, if_neg hgt]
          exact ih hdepth htail

theorem parenthesisAt_step {depth : Int} {x : Char} (hi : i < stop) (hx : octetAt text i = .ok x)
    (hopen : ¬ (x = '(' && decide (depth = 0)) = true) :
    parenthesisAt text depth i stop =
      parenthesisAt text (if x = '<' then depth + 1 else if x = '>' then depth - 1 else depth) (i + 1) stop := by
  rw [parenthesisAt, if_pos hi, hx, Except.ok_bind, if_neg hopen]

/-- A parenthesis that is found lies where the cells are parted. -/
def PartedAt (all : List Cell) (i stop : Nat) (cs : List Cell) : Option Nat → Option (List Cell × List Cell) → Prop
  | some j, some (before, rest) =>
    Covers all ⟨i, j⟩ before ∧ ∃ o, o.view = '(' ∧ cs = before ++ o :: rest ∧ Covers all ⟨j, stop⟩ (o :: rest)
  | none, none => True
  | _, _ => False

theorem PartedAt.cons {j : Nat} {r : Option Nat} {o : Option (List Cell × List Cell)} (hc : Covers all ⟨i, j⟩ [c])
    (h : PartedAt all j stop cs r o) : PartedAt all i stop (c :: cs) r (o.map fun p => (c :: p.1, p.2)) := by
  cases r with
  | none =>
    cases o with
    | none => trivial
    | some p => exact h.elim
  | some n =>
    cases o with
    | none => exact h.elim
    | some p =>
      obtain ⟨hbefore, paren, hparen, heq, hrest⟩ := h
      exact ⟨hc.join hbefore, paren, hparen, congrArg (c :: ·) heq, hrest⟩

theorem Covers.parenthesisAt (depth : Int) (h : Covers all ⟨i, stop⟩ cs) :
    ∃ r, parenthesisAt (maskedText all) depth i stop = .ok r ∧
      PartedAt all i stop cs r (splitAtParen depth cs) := by
  induction cs generalizing i depth with
  | nil =>
    obtain rfl := h.nil_stop
    rw [Java.parenthesisAt, if_neg (lt_irrefl _)]
    exact ⟨none, rfl, trivial⟩
  | cons c cs ih =>
    have hi := h.lt_iff.2 (List.cons_ne_nil c cs)
    rw [splitAtParen]
    by_cases hneutral : Neutral c.view
    · have hne : ∀ {x : Char}, Neutral x → x ≠ '(' ∧ x ≠ '<' ∧ x ≠ '>' := fun hx =>
        ⟨hx.ne (by decide) (by decide), hx.ne (by decide) (by decide), hx.ne (by decide) (by decide)⟩
      obtain ⟨j, hhead, htail, hpass⟩ := h.pass hneutral
        (F := fun i => Java.parenthesisAt (maskedText all) depth i stop) fun i x hi hx hneutral => by
          obtain ⟨hopen, hlt, hgt⟩ := hne hneutral
          rw [parenthesisAt_step hi hx (by simp [hopen]), if_neg hlt, if_neg hgt]
      obtain ⟨hopen, hlt, hgt⟩ := hne hneutral
      obtain ⟨r, hr, hparted⟩ := ih depth htail
      rw [if_neg (by simp [hopen]), if_neg hlt, if_neg hgt, hpass]
      exact ⟨r, hr, hparted.cons hhead⟩
    · obtain ⟨hoctet, hhead, htail⟩ := h.single hneutral
      by_cases hopen : (c.view = '(' && decide (depth = 0)) = true
      · rw [if_pos hopen, Java.parenthesisAt, if_pos hi, hoctet, Except.ok_bind, if_pos hopen]
        rw [Bool.and_eq_true, decide_eq_true_eq] at hopen
        exact ⟨some i, rfl, h.start, c, hopen.1, rfl, h⟩
      · rw [if_neg hopen, parenthesisAt_step hi hoctet hopen]
        obtain ⟨r, hr, hparted⟩ := ih
          (if c.view = '<' then depth + 1 else if c.view = '>' then depth - 1 else depth) htail
        exact ⟨r, hr, hparted.cons hhead⟩

/-! Partners. -/

theorem not_neutral_opener {o c : Char} (h : closer? o = some c) : ¬ Neutral o ∧ ¬ Neutral c := by
  rcases closer?_eq_some h with ⟨rfl, rfl⟩ | ⟨rfl, rfl⟩ | ⟨rfl, rfl⟩ <;>
    exact ⟨not_neutral (by decide) (by decide), not_neutral (by decide) (by decide)⟩

theorem Neutral.plain {x : Char} (h : Neutral x) : closer? x = none ∧ isCloser x = false := by
  have hparen : x ≠ '(' := h.ne (by decide) (by decide)
  have hbracket : x ≠ '[' := h.ne (by decide) (by decide)
  have hbrace : x ≠ '{' := h.ne (by decide) (by decide)
  have hparen' : x ≠ ')' := h.ne (by decide) (by decide)
  have hbracket' : x ≠ ']' := h.ne (by decide) (by decide)
  have hbrace' : x ≠ '}' := h.ne (by decide) (by decide)
  simp [closer?, isCloser, *]

theorem Cell.octets_of_not_neutral (h : ¬ Neutral c.view) : c.octets = [c.view] :=
  c.octets_eq.resolve_right fun hneutral => h hneutral.1

/-! Partners of brackets, balanced or not. -/

section

variable {opener closer : Char}

theorem closing_skip {os : List Char} (ho : opener ∉ os) (hc : closer ∉ os) (depth : Nat) (rest : List Char) :
    closing id opener closer depth (os ++ rest) =
      (closing id opener closer depth rest).map fun p => (os ++ p.1, p.2) := by
  induction os with
  | nil => simp
  | cons x os ih =>
    rw [List.mem_cons, not_or] at ho hc
    rw [List.cons_append, closing, id, if_neg (Ne.symm ho.1), if_neg (Ne.symm hc.1), ih ho.2 hc.2, Option.map_map]
    rfl

/-- The partner of a bracket among the octets is the partner among the cells. -/
theorem closing_octets (ho : ¬ Neutral opener) (hc : ¬ Neutral closer) (depth : Nat) (cs : List Cell) :
    closing id opener closer depth (cs.flatMap Cell.octets) =
      (closing Cell.view opener closer depth cs).map fun p => (p.1.flatMap Cell.octets, p.2.flatMap Cell.octets) := by
  induction cs generalizing depth with
  | nil => rfl
  | cons c cs ih =>
    rw [List.flatMap_cons, closing]
    by_cases hneutral : Neutral c.view
    · have hoctets : ∀ x ∈ c.octets, Neutral x := by
        intro x hx
        rcases c.octet_eq x hx with rfl | ⟨hx, -⟩
        · exact hneutral
        · exact .inr hx
      have hopener : c.view ≠ opener := fun heq => ho (heq ▸ hneutral)
      have hcloser : c.view ≠ closer := fun heq => hc (heq ▸ hneutral)
      rw [closing_skip (fun hmem => ho (hoctets _ hmem)) (fun hmem => hc (hoctets _ hmem)), ih, if_neg hopener,
        if_neg hcloser, Option.map_map, Option.map_map]
      simp [Function.comp_def]
    · rw [Cell.octets_of_not_neutral hneutral, List.singleton_append, closing, id, ih, ih, ih]
      split
      · simp [Option.map_map, Function.comp_def, Cell.octets_of_not_neutral hneutral]
      · split
        · split
          · rfl
          · simp [Option.map_map, Function.comp_def, Cell.octets_of_not_neutral hneutral]
        · simp [Option.map_map, Function.comp_def, Cell.octets_of_not_neutral hneutral]

/-- A bracket has its partner where the cells up to the end of the text have it. -/
theorem Covers.partner_eq (h : Covers all ⟨i, width all⟩ (c :: cs)) (ho : ¬ Neutral c.view) (hc : ¬ Neutral closer) :
    (closing Cell.view c.view closer 1 cs = none → partner? (maskedText all) i c.view closer = none) ∧
      ∀ inside after, closing Cell.view c.view closer 1 cs = some (inside, after) →
        ∃ j, partner? (maskedText all) i c.view closer = some j ∧ ∃ d, cs = inside ++ d :: after ∧ d.view = closer ∧
          Covers all ⟨i + 1, j⟩ inside ∧ Covers all ⟨j, j + 1⟩ [d] ∧ Covers all ⟨j + 1, width all⟩ after := by
  obtain ⟨-, -, htail⟩ := h.single ho
  obtain ⟨front, back, htext, rfl, hstop⟩ := h.octets_at
  have hback : back = [] := by
    rw [width_eq, htext, List.length_append, List.length_append] at hstop
    exact List.length_eq_zero_iff.1 (by omega)
  have hdrop : (octetViews (maskedText all)).drop front.length = c.view :: cs.flatMap Cell.octets := by
    rw [htext, List.drop_left, hback, List.append_nil, List.flatMap_cons, Cell.octets_of_not_neutral ho,
      List.singleton_append]
  have hpartner : partner? (maskedText all) front.length c.view closer =
      (closing Cell.view c.view closer 1 cs).map fun p => ⟨front.length + 1 + (p.1.flatMap Cell.octets).length,
        Nat.le_add_right (front.length + 1) (p.1.flatMap Cell.octets).length⟩ := by
    rw [partner?, hdrop]
    simp only [if_true]
    rw [closing_octets ho hc, Option.map_map]
    rfl
  refine ⟨fun hnone => by rw [hpartner, hnone]; rfl, fun inside after hsome => ?_⟩
  obtain ⟨d, hd, rfl⟩ := exists_of_closing hsome
  obtain ⟨m, hinside, hrest⟩ := htail.append
  obtain ⟨-, hd', hafter⟩ := hrest.single (hd ▸ hc)
  have hm : m = front.length + 1 + (inside.flatMap Cell.octets).length := hinside.stop_eq
  rw [hpartner, hsome, Option.map_some]
  exact ⟨_, rfl, d, rfl, hd, hm ▸ hinside, hm ▸ hd', hm ▸ hafter⟩

/-- A bracket at the beginning of a part: either its partner is not in the part, or the part up to the partner and what
follows are found. -/
theorem Covers.partner_within {closer : Char}
    (h : Covers all ⟨i, stop⟩ (c :: cs)) (ho : ¬ Neutral c.view) (hc : ¬ Neutral closer) :
    (closing Cell.view c.view closer 1 cs = none ∧ ∀ j ∈ partner? (maskedText all) i c.view closer, stop ≤ j.1) ∨
      ∃ inside d rest j, closing Cell.view c.view closer 1 cs = some (inside, rest) ∧ d.view = closer ∧
        cs = inside ++ d :: rest ∧ partner? (maskedText all) i c.view closer = some j ∧
          Covers all ⟨i + 1, j⟩ inside ∧ Covers all ⟨j, j + 1⟩ [d] ∧ Covers all ⟨j + 1, stop⟩ rest := by
  obtain ⟨-, -, htail⟩ := h.single ho
  obtain ⟨-, after, -, hwhole⟩ := h.exists_after
  obtain ⟨hnone, hsome⟩ := hwhole.partner_eq ho hc
  cases hclosing : closing Cell.view c.view closer 1 cs with
  | none =>
    refine .inl ⟨rfl, fun j hj => ?_⟩
    cases hfar : closing Cell.view c.view closer 1 (cs ++ after) with
    | none =>
      rw [hnone hfar] at hj
      cases hj
    | some parts =>
      obtain ⟨inside, rest⟩ := parts
      obtain ⟨j', hj', -, -, -, hinside, -⟩ := hsome inside rest hfar
      obtain rfl : j' = j := Option.some.inj (hj'.symm.trans hj)
      obtain ⟨back, rfl⟩ := prefix_of_closing hclosing hfar
      have hstop := htail.stop_eq
      have hlong := hinside.stop_eq
      rw [List.flatMap_append, List.length_append] at hlong
      omega
  | some parts =>
    obtain ⟨inside, rest⟩ := parts
    obtain ⟨j, hj, -, -, -, hinside, -⟩ := hsome inside (rest ++ after) (closing_local hclosing)
    obtain ⟨d, hd, rfl⟩ := exists_of_closing hclosing
    obtain ⟨m, hinside', hrest⟩ := htail.append
    obtain ⟨-, hlast, hrest⟩ := hrest.single (hd ▸ hc)
    have hm : m = j.1 := hinside'.stop_eq.trans hinside.stop_eq.symm
    subst hm
    exact .inr ⟨inside, d, rest, j, rfl, hd, rfl, hj, hinside, hlast, hrest⟩

end

/-! Groups. -/

theorem Covers.partner_group {o : Cell} {inside rest : List Cell} (h : Covers all ⟨i, k⟩ (o :: (inside ++ c :: rest)))
    (hinside : Balanced Cell.view inside) (hpair : closer? o.view = some c.view) :
    ∃ j, partner? (maskedText all) i o.view c.view = some j ∧ Covers all ⟨i + 1, j⟩ inside ∧
      Covers all ⟨j, j + 1⟩ [c] ∧ Covers all ⟨j + 1, k⟩ rest := by
  obtain ⟨ho, hc⟩ := not_neutral_opener hpair
  have hclosing : closing Cell.view o.view c.view 1 (inside ++ c :: rest) = some (inside, rest) :=
    closing_balanced hinside hpair
  rcases h.partner_within ho hc with ⟨hnone, -⟩ | ⟨inside', d, rest', j, hsome, -, hsplit, hj, hin, hlast, hrest⟩
  · rw [hnone] at hclosing
    cases hclosing
  · obtain ⟨rfl, rfl⟩ := Prod.mk.inj (Option.some.inj (hsome.symm.trans hclosing))
    obtain ⟨rfl, -⟩ := List.cons.inj (List.append_cancel_left hsplit)
    exact ⟨j, hj, hin, hlast, hrest⟩

/-- A bracket of a balanced text, seen from a part of it: either the part holds its partner, or the search for the
partner leaves the part. -/
theorem Covers.partner {o : Cell} {close : Char} (hall : Balanced Cell.view all) (h : Covers all ⟨i, k⟩ (o :: cs))
    (ho : closer? o.view = some close) :
    ∃ j, partner? (maskedText all) i o.view close = some j ∧
      ((∃ inside rest, closing Cell.view o.view close 1 cs = some (inside, rest) ∧ Covers all ⟨i + 1, j⟩ inside ∧
          Covers all ⟨j + 1, k⟩ rest) ∨
        closing Cell.view o.view close 1 cs = none ∧ k ≤ j) := by
  obtain ⟨hopener, hcloser⟩ := not_neutral_opener ho
  rcases h.partner_within hopener hcloser with ⟨hnone, hfar⟩ | ⟨inside, d, rest, j, hsome, -, -, hj, hin, -, hrest⟩
  · obtain ⟨front, after, hsplit, hend⟩ := h.exists_after
    rw [hsplit, List.cons_append] at hall
    obtain ⟨inside, c, after', hrest, hinside, rfl⟩ := hall.exists_partner ho
    rw [List.cons_append, hrest] at hend
    obtain ⟨j, hj, -⟩ := hend.partner_group hinside ho
    exact ⟨j, hj, .inr ⟨hnone, hfar j hj⟩⟩
  · exact ⟨j, hj, .inl ⟨inside, rest, hsome, hin, hrest⟩⟩

/-! Pieces. -/

theorem Neutral.depthChange {generics : Bool} {x : Char} (h : Neutral x) : depthChange generics x = none := by
  have hplain := h.plain
  have hlt : x ≠ '<' := h.ne (by decide) (by decide)
  have hgt : x ≠ '>' := h.ne (by decide) (by decide)
  simp only [closer?, isCloser] at hplain
  simp only [Java.depthChange]
  grind

theorem Covers.spanOf {s : Span} (h : Covers all s xs) : List.Forall₂ (Covers all) (spanOf s) (nonEmpty xs) := by
  rw [Java.spanOf, nonEmpty]
  by_cases hlt : s.start < s.stop
  · rw [if_pos hlt, if_neg (by simpa using h.lt_iff.1 hlt)]
    exact .cons h .nil
  · rw [if_neg hlt, if_pos (by simpa using h.lt_iff.not.1 hlt)]
    exact .nil

section

variable {sep : Char} {generics : Bool} {depth : Int} {read : List Cell} {start : Nat}

theorem pieceSpansFrom_neutral (hsep : ¬ Neutral sep) {x : Char} (hi : i < stop) (hx : octetAt text i = .ok x)
    (hneutral : Neutral x) :
    pieceSpansFrom text sep generics depth start i stop = pieceSpansFrom text sep generics depth start (i + 1) stop := by
  have hne : x ≠ sep := fun heq => hsep (heq ▸ hneutral)
  rw [pieceSpansFrom, if_pos hi, hx, Except.ok_bind, hneutral.depthChange]
  simp [hne]

theorem Covers.pieceSpansFrom (hsep : ¬ Neutral sep) (hread : Covers all ⟨start, i⟩ read.reverse)
    (h : Covers all ⟨i, stop⟩ cs) :
    ∃ ss, pieceSpansFrom (maskedText all) sep generics depth start i stop = .ok ss ∧
      List.Forall₂ (Covers all) ss (piecesFrom Cell.view generics sep depth read cs) := by
  induction cs generalizing i depth start read with
  | nil =>
    obtain rfl := h.nil_stop
    obtain ⟨r, hr, htrim, -⟩ := hread.trimRange
    rw [Java.pieceSpansFrom, if_neg (lt_irrefl _), hr, Except.ok_bind, piecesFrom]
    exact ⟨_, rfl, htrim.spanOf⟩
  | cons c cs ih =>
    have hi := h.lt_iff.2 (List.cons_ne_nil c cs)
    by_cases hneutral : Neutral c.view
    · obtain ⟨j, hhead, htail, hpass⟩ := h.pass hneutral
        (F := fun i => Java.pieceSpansFrom (maskedText all) sep generics depth start i stop)
        fun i x hi hx hneutral => pieceSpansFrom_neutral hsep hi hx hneutral
      have hne : c.view ≠ sep := fun heq => hsep (heq ▸ hneutral)
      rw [hpass, piecesFrom, hneutral.depthChange]
      simp only [hne, decide_false, Bool.false_and, Bool.false_eq_true, if_false]
      exact ih (by simpa using hread.join hhead) htail
    · obtain ⟨hoctet, hhead, htail⟩ := h.single hneutral
      rw [Java.pieceSpansFrom, if_pos hi, hoctet, Except.ok_bind, piecesFrom]
      have hread' : Covers all ⟨start, i + 1⟩ (c :: read).reverse := by simpa using hread.join hhead
      cases hchange : depthChange generics c.view with
      | some d => exact ih hread' htail
      | none =>
        by_cases hend : (c.view = sep && decide (depth = 0)) = true
        · simp only [if_pos hend]
          rw [Bool.and_eq_true, decide_eq_true_eq, decide_eq_true_eq] at hend
          obtain ⟨-, rfl⟩ := hend
          obtain ⟨r, hr, htrim, -⟩ := hread.trimRange
          have hlater : ∃ ss, Java.pieceSpansFrom (maskedText all) sep generics 0 (i + 1) (i + 1) stop = .ok ss ∧
              List.Forall₂ (Covers all) ss (piecesFrom Cell.view generics sep 0 [] cs) := ih htail.start htail
          obtain ⟨ss, hss, hpieces⟩ := hlater
          rw [hr, Except.ok_bind, hss, Except.ok_bind]
          exact ⟨_, rfl, List.rel_append htrim.spanOf hpieces⟩
        · simp only [if_neg hend]
          exact ih hread' htail

theorem Covers.pieceRanges {s : Span} (generics : Bool) (hsep : ¬ Neutral sep) (h : Covers all s cs) :
    ∃ ss, pieceRanges (maskedText all) sep generics s = .ok ss ∧
      List.Forall₂ (Covers all) ss (pieces Cell.view generics sep cs) := by
  rw [Java.pieceRanges, h.textIn_masked, Except.ok_bind]
  have hstart : Covers all ⟨s.start, s.start⟩ ([] : List Cell).reverse := h.start
  exact hstart.pieceSpansFrom hsep h

end

end WireLayout.Java
