import WireLayout.Proofs.Routine.Ranges.Statements
import WireLayout.Proofs.Routine.Statements

/-! The walk by positions. What has been read since the last statement and what is left of the body are at the positions
that the walk keeps, so that each statement and header it cuts out is the one that the walk over the items of the body
comes to. A body may have parentheses without partners in it; the search for a partner then leaves the body. -/

namespace WireLayout

namespace Java

variable {α : Type} {view : α → Char} {c : Char} {xs : List α}

theorem itemsFrom_unclosed {group? : Char → Option Char} {opener : α} {depth : Nat} {read : List α}
    (h : closing view (view opener) c depth xs = none) : itemsFrom view group? (.inside opener c depth read) xs = [] := by
  induction xs generalizing depth read with
  | nil => rfl
  | cons x xs ih =>
    rw [closing] at h
    rw [itemsFrom]
    split at h
    · rw [if_pos ‹_›]
      exact ih (Option.map_eq_none_iff.1 h)
    · rw [if_neg ‹_›]
      split at h
      · rw [if_pos ‹_›]
        split at h
        · cases h
        · rw [if_neg ‹_›]
          exact ih (Option.map_eq_none_iff.1 h)
      · rw [if_neg ‹_›]
        exact ih (Option.map_eq_none_iff.1 h)

end Java

namespace Routine

open WireLayout.Java WireLayout.Text

variable {all cs read : List Cell} {start i stop : Nat}

/-- A statement or header is cut out of the text between its blanks. -/
theorem exists_trimmed (h : Covers all ⟨start, i⟩ cs) : ∃ r ds, trimRange (maskedText all) ⟨start, i⟩ = .ok r ∧
    textIn (maskedText all) r.1 = .ok (maskedText ds) ∧ views ds = trimBlank id (views cs) ∧ ds <:+: all := by
  obtain ⟨r, hr, hcovers, -⟩ := h.trimRange
  obtain ⟨before, after, hall, -⟩ := id hcovers
  refine ⟨r, trimCells cs, hr, hcovers.textIn_masked, ?_, before, after, by rw [hall, List.append_assoc]⟩
  have hmap : trimBlank id (cs.map Cell.view) = (trimBlank Cell.view cs).map Cell.view := trimBlank_map cs
  exact hmap.symm

theorem covers_reverse {stop : Nat} (hread : Covers all ⟨start, i⟩ read.reverse) (h : Covers all ⟨i, stop⟩ cs) :
    Covers all ⟨start, stop⟩ (cs.reverse ++ read).reverse := by
  rw [List.reverse_append, List.reverse_reverse]
  exact hread.join h

/-! The items of a body. -/

theorem items_unclosed (h : closing Cell.view '(' ')' 1 cs = none) : items id parenthesis? ('(' :: views cs) = [] :=
  itemsFrom_unclosed (by rw [id, closing_views, h]; rfl)

theorem items_group {inside rest : List Cell} (h : closing Cell.view '(' ')' 1 cs = some (inside, rest)) :
    items id parenthesis? ('(' :: views cs) = .group '(' (views inside) ')' :: items id parenthesis? (views rest) :=
  itemsFrom_inside (by rw [closing_views, h]; rfl)

namespace Reader

variable {text : List Char} {r : Reader} {guards : List (Option Nat)}

theorem walkIn_of_le (h : stop ≤ i) : walkIn text r guards start i stop = .ok r := by
  rw [walkIn, if_neg (Nat.not_lt.2 h)]
  rfl

theorem walkIn_neutral {x : Char} (hi : i < stop) (hx : octetAt text i = .ok x) (h : Neutral x) :
    walkIn text r guards start i stop = walkIn text r guards start (i + 1) stop := by
  have hparen : x ≠ '(' := h.ne (by decide) (by decide)
  have hopen : x ≠ '{' := h.ne (by decide) (by decide)
  have hclose : x ≠ '}' := h.ne (by decide) (by decide)
  have hend : x ≠ ';' := h.ne (by decide) (by decide)
  rw [walkIn, if_pos hi, hx, Except.ok_bind, if_neg hparen, if_neg hopen, if_neg hclose, if_neg hend]

/-- The reader after the steps of what is left of a body, of which some characters have been read. -/
def resume (r : Reader) (guards : List (Option Nat)) (read cs : List Cell) : Reader :=
  ((Walker.mk r guards).run (stepsFrom (views read) (items id parenthesis? (views cs)))).reader

/-- The walk by positions goes from here as the run over the steps of the cells that are left. -/
def WalksAlike (all : List Cell) (r : Reader) (guards : List (Option Nat)) (start i stop : Nat) (read cs : List Cell) :
    Prop :=
  walkIn (maskedText all) r guards start i stop = .ok (r.resume guards read cs)

/-- A cell that is a letter or shows none of the marks is passed over, in one step or in several. -/
theorem walksAlike_neutral {c : Cell} (h : Covers all ⟨i, stop⟩ (c :: cs)) (hneutral : Neutral c.view)
    (hmore : ∀ j, Covers all ⟨i, j⟩ [c] → Covers all ⟨j, stop⟩ cs → WalksAlike all r guards start j stop (c :: read) cs) :
    WalksAlike all r guards start i stop read (c :: cs) := by
  have hparen : c.view ≠ '(' := hneutral.ne (by decide) (by decide)
  have hopen : c.view ≠ '{' := hneutral.ne (by decide) (by decide)
  have hclose : c.view ≠ '}' := hneutral.ne (by decide) (by decide)
  have hend : c.view ≠ ';' := hneutral.ne (by decide) (by decide)
  obtain ⟨j, hc, hrest, hpass⟩ := h.pass (F := fun i => walkIn (maskedText all) r guards start i stop) hneutral
    fun i x hi hx hneutral => walkIn_neutral hi hx hneutral
  rw [WalksAlike, resume, views_cons, items_single hparen, stepsFrom, if_neg hopen, if_neg hclose, if_neg hend]
  exact hpass.trans (hmore j hc hrest)

/-- A parenthesis takes the walk behind its partner; where the body does not have the partner, both walks are at their
end. -/
theorem walksAlike_parenthesis {c : Cell} (h : Covers all ⟨i, stop⟩ (c :: cs)) (hparen : c.view = '(')
    (hmore : ∀ (j : Nat) (inside : List Cell) (d : Cell) (rest : List Cell), rest.length < cs.length →
      Covers all ⟨i, j⟩ (c :: (inside ++ [d])) → Covers all ⟨j, stop⟩ rest →
        WalksAlike all r guards start j stop ((c :: (inside ++ [d])).reverse ++ read) rest) :
    WalksAlike all r guards start i stop read (c :: cs) := by
  have hneutral : ¬ Neutral c.view := not_neutral_of_view hparen (by decide) (by decide)
  obtain ⟨hoctet, hc, -⟩ := h.single hneutral
  have hgroup := h.partner_within hneutral (not_neutral_closing : ¬ Neutral ')')
  rw [hparen] at hgroup
  rw [WalksAlike, resume, views_cons, walkIn, if_pos (h.lt_iff.2 (List.cons_ne_nil c cs)), hoctet, Except.ok_bind,
    if_pos hparen, hparen]
  rcases hgroup with ⟨hnone, hfar⟩ | ⟨inside, d, rest, ⟨j, _⟩, hclosing, hd, rfl, hpartner, hinside, hlast, hrest⟩
  · rw [items_unclosed hnone, stepsFrom, Walker.run_nil]
    cases hpartner : partner? (maskedText all) i '(' ')' with
    | none => rfl
    | some j => exact walkIn_of_le ((hfar j hpartner).trans (Nat.le_succ _))
  · have hviews : views ((c :: (inside ++ [d])).reverse ++ read) =
        ')' :: ((views inside).reverse ++ '(' :: views read) := by simp [views, hd, hparen]
    have hless : rest.length < (inside ++ d :: rest).length := by
      rw [List.length_append, List.length_cons]
      omega
    rw [hpartner, items_group hclosing, stepsFrom, ← hviews]
    exact hmore (j + 1) inside d rest hless (hc.join (hinside.join hlast)) hrest

/-- At any other mark the statement or header that has been read is cut out, and the reader goes on with nothing read. -/
theorem walksAlike_mark {c : Cell} (hall : Tight all) (h : r.Spaceless) (hread : Covers all ⟨start, i⟩ read.reverse)
    (hcs : Covers all ⟨i, stop⟩ (c :: cs)) (hneutral : ¬ Neutral c.view) (hparen : c.view ≠ '(')
    (hnext : ∀ {r : Reader}, r.Spaceless → ∀ guards, WalksAlike all r guards (i + 1) (i + 1) stop [] cs)
    (hmore : WalksAlike all r guards start (i + 1) stop (c :: read) cs) :
    WalksAlike all r guards start i stop read (c :: cs) := by
  obtain ⟨hoctet, -, -⟩ := hcs.single hneutral
  obtain ⟨cut, ds, htrim, hcut, hshown, hds⟩ := exists_trimmed hread
  have htext : views ds = trimBlank id (views read).reverse := by rw [hshown, views, views, List.map_reverse]
  rw [WalksAlike, resume, views_cons, walkIn, if_pos (hcs.lt_iff.2 (List.cons_ne_nil c cs)), hoctet, Except.ok_bind,
    if_neg hparen, items_single hparen, stepsFrom]
  split
  · rw [htrim, Except.ok_bind, hcut, Except.ok_bind, r.guardIn_maskedText, Except.ok_bind, htext]
    exact hnext h _
  · split
    · exact hnext h _
    · split
      · rw [htrim, Except.ok_bind, hcut, Except.ok_bind, h.statementIn_maskedText (hall.part hds), Except.ok_bind, htext]
        exact hnext (h.statement _ _) _
      · exact hmore

/-- The walk by positions goes as the run over the steps of the body, by induction on the number of cells left. -/
theorem walkIn_maskedText (hall : Tight all) (h : r.Spaceless) (guards : List (Option Nat))
    (hread : Covers all ⟨start, i⟩ read.reverse) (hcs : Covers all ⟨i, stop⟩ cs) :
    walkIn (maskedText all) r guards start i stop = .ok (r.resume guards read cs) := by
  induction hn : cs.length using Nat.strong_induction_on generalizing cs read r guards start i with
  | _ n ih =>
  subst hn
  cases cs with
  | nil =>
    obtain rfl := hcs.nil_stop
    exact walkIn_of_le le_rfl
  | cons c cs =>
    have hshort : cs.length < (c :: cs).length := Nat.lt_succ_self _
    by_cases hneutral : Neutral c.view
    · exact walksAlike_neutral hcs hneutral fun j hc hrest =>
        ih cs.length hshort h guards (covers_reverse hread hc) hrest rfl
    · by_cases hparen : c.view = '('
      · exact walksAlike_parenthesis hcs hparen fun j inside d rest hless hmatched hrest =>
          ih rest.length (hless.trans hshort) h guards (covers_reverse hread hmatched) hrest rfl
      · obtain ⟨-, hc, hrest⟩ := hcs.single hneutral
        have hstart : Covers all ⟨i + 1, i + 1⟩ ([] : List Cell).reverse := hrest.start
        exact walksAlike_mark hall h hread hcs hneutral hparen
          (fun h guards => ih cs.length hshort h guards hstart hrest rfl)
          (ih cs.length hshort h guards (covers_reverse hread hc) hrest rfl)

end Reader

end Routine

end WireLayout
