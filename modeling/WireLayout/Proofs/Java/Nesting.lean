import WireLayout.Java.Mask
import WireLayout.Java.Pieces
import WireLayout.Java.Bracket
import WireLayout.Proofs.Text.Search

/-! Texts in which brackets are matched. Such a text is passed over in the search for the partner of a bracket
that was opened before it, so groups and blocks can be put together from parts. A text without slashes and
quotes shows itself whole, and a list of plain arguments is cut at its commas. -/

namespace WireLayout.Java

open WireLayout.Text

variable {o c : Char} {cs ds rest : List Char}

/-- The search for the partner of an open bracket passes over the text. -/
def Nested (o c : Char) (cs : List Char) : Prop :=
  ∀ depth rest, 1 ≤ depth →
    closing id o c depth (cs ++ rest) = (closing id o c depth rest).map fun p => (cs ++ p.1, p.2)

theorem nested_nil : Nested o c [] := by
  intro depth rest _
  simp

theorem nested_append (h : Nested o c cs) (hd : Nested o c ds) : Nested o c (cs ++ ds) := by
  intro depth rest hdepth
  rw [List.append_assoc, h depth _ hdepth, hd depth rest hdepth, Option.map_map]
  congr 1
  funext p
  simp

theorem nested_of_notMem (ho : o ∉ cs) (hc : c ∉ cs) : Nested o c cs := by
  induction cs with
  | nil => exact nested_nil
  | cons x xs ih =>
    intro depth rest hdepth
    obtain ⟨hxo, ho⟩ := not_or.1 (List.mem_cons.not.1 ho)
    obtain ⟨hxc, hc⟩ := not_or.1 (List.mem_cons.not.1 hc)
    rw [List.cons_append, closing, id, if_neg (Ne.symm hxo), if_neg (Ne.symm hxc), ih ho hc depth rest hdepth,
      Option.map_map]
    rfl

theorem closing_nested (hne : o ≠ c) (h : Nested o c cs) :
    closing id o c 1 (cs ++ c :: rest) = some (cs, rest) := by
  rw [h 1 _ le_rfl, closing, id, if_neg (Ne.symm hne), if_pos rfl, if_pos le_rfl, Option.map_some, List.append_nil]

/-- A matched text can stand in for another one in front of the partner. -/
theorem closing_replace (hcs : Nested o c cs) (hds : Nested o c ds) {depth : Nat} (hdepth : 1 ≤ depth)
    {front tail after : List Char}
    (h : closing id o c depth (front ++ (cs ++ rest)) = some (front ++ (cs ++ tail), after)) :
    closing id o c depth (front ++ (ds ++ rest)) = some (front ++ (ds ++ tail), after) := by
  induction front generalizing depth with
  | nil =>
    rw [List.nil_append, List.nil_append, hcs depth rest hdepth] at h
    obtain ⟨p, hp, heq⟩ := Option.map_eq_some_iff.1 h
    obtain ⟨htail, hafter⟩ := Prod.mk.inj heq
    rw [List.nil_append, List.nil_append, hds depth rest hdepth, hp, Option.map_some, hafter,
      List.append_cancel_left htail]
  | cons x front ih =>
    have hstep : ∀ {d : Nat}, 1 ≤ d →
        (closing id o c d (front ++ (cs ++ rest))).map (fun p => (x :: p.1, p.2)) =
          some (x :: (front ++ (cs ++ tail)), after) →
        (closing id o c d (front ++ (ds ++ rest))).map (fun p => (x :: p.1, p.2)) =
          some (x :: (front ++ (ds ++ tail)), after) := by
      intro d hd hmap
      obtain ⟨⟨inside, after'⟩, hp, heq⟩ := Option.map_eq_some_iff.1 hmap
      simp only [Prod.mk.injEq, List.cons.injEq, true_and] at heq
      obtain ⟨rfl, rfl⟩ := heq
      rw [ih hd hp, Option.map_some]
    rw [List.cons_append, List.cons_append, closing] at h
    rw [List.cons_append, List.cons_append, closing]
    split at h
    · rw [if_pos ‹_›]
      exact hstep (by omega) h
    · rw [if_neg ‹_›]
      split at h
      · rw [if_pos ‹_›]
        split at h
        · obtain ⟨hnil, -⟩ := Prod.mk.inj (Option.some.inj h)
          cases hnil
        · rw [if_neg ‹_›]
          exact hstep (by omega) h
      · rw [if_neg ‹_›]
        exact hstep hdepth h

theorem nested_bracketed (hne : o ≠ c) (h : Nested o c cs) : Nested o c (o :: (cs ++ [c])) := by
  intro depth rest hdepth
  have hdeep : ¬ depth + 1 ≤ 1 := by omega
  rw [List.cons_append, closing, id, if_pos rfl, List.append_assoc, h (depth + 1) _ (by omega),
    List.singleton_append, closing, id, if_neg (Ne.symm hne), if_pos rfl, if_neg hdeep, Nat.add_sub_cancel,
    Option.map_map, Option.map_map]
  congr 1
  funext p
  simp

/-- A group ends where the search for the partner of its bracket ends, by induction on the text. -/
theorem itemsFrom_inside {group? : Char → Option Char} {depth : Nat} {read inside after : List Char}
    (h : closing id o c depth cs = some (inside, after)) :
    itemsFrom id group? (.inside o c depth read) cs =
      .group o (read.reverse ++ inside) c :: itemsFrom id group? .outside after := by
  induction cs generalizing depth read inside with
  | nil => cases h
  | cons x xs ih =>
    rw [closing, id] at h
    rw [itemsFrom, id, id]
    split at h
    · rename_i hx
      obtain ⟨⟨inside', after'⟩, hp, heq⟩ := Option.map_eq_some_iff.1 h
      obtain ⟨rfl, rfl⟩ := Prod.mk.inj heq
      rw [if_pos hx, ih hp]
      simp
    · rename_i hx
      rw [if_neg hx]
      split at h
      · rename_i hxc
        rw [if_pos hxc]
        split at h
        · rename_i hdepth
          obtain ⟨rfl, rfl⟩ := Prod.mk.inj (Option.some.inj h)
          obtain rfl : x = c := hxc
          rw [if_pos hdepth, List.append_nil]
        · rename_i hdepth
          obtain ⟨⟨inside', after'⟩, hp, heq⟩ := Option.map_eq_some_iff.1 h
          obtain ⟨rfl, rfl⟩ := Prod.mk.inj heq
          rw [if_neg hdepth, ih hp]
          simp
      · rename_i hxc
        obtain ⟨⟨inside', after'⟩, hp, heq⟩ := Option.map_eq_some_iff.1 h
        obtain ⟨rfl, rfl⟩ := Prod.mk.inj heq
        rw [if_neg hxc, ih hp]
        simp

/-! The mask. -/

theorem cellsFrom_code (h : ∀ c ∈ cs, c ≠ '/' ∧ c ≠ '"' ∧ c ≠ '\'') :
    views (cellsFrom (.inside .code) cs) = cs := by
  induction cs with
  | nil => rfl
  | cons x xs ih =>
    obtain ⟨hslash, hquote, happos⟩ := h x List.mem_cons_self
    have hstep : MaskState.step (.inside .code) x xs = (true, .inside .code) := by
      simp [MaskState.step, hslash, hquote, happos]
    have hxs := ih fun c hc => h c (List.mem_cons_of_mem x hc)
    rw [cellsFrom, hstep, views, List.map_cons, ← views, hxs]
    rfl

theorem views_cells (h : ∀ c ∈ cs, c ≠ '/' ∧ c ≠ '"' ∧ c ≠ '\'') : views (cells cs) = cs := cellsFrom_code h

/-! Lists of arguments. -/

/-- A piece of a list: no bracket or comma in it, no space around it. -/
structure Piece (cs : List Char) : Prop where
  plain : ∀ c ∈ cs, depthChange false c = none ∧ c ≠ ','
  nonempty : cs ≠ []
  trimmed : trimBlank id cs = cs

theorem piecesFrom_plain {read : List Char} (h : ∀ c ∈ cs, depthChange false c = none ∧ c ≠ ',') :
    piecesFrom id false ',' 0 read (cs ++ rest) = piecesFrom id false ',' 0 (cs.reverse ++ read) rest := by
  induction cs generalizing read with
  | nil => rfl
  | cons x xs ih =>
    obtain ⟨hdepth, hcomma⟩ := h x List.mem_cons_self
    rw [List.cons_append, piecesFrom, id, hdepth]
    simp only [hcomma, decide_false, Bool.false_and]
    rw [if_neg (by simp), ih fun c hc => h c (List.mem_cons_of_mem x hc)]
    simp

theorem trimBlank_spaced (h : Piece cs) {read : List Char} (hr : ∀ c ∈ read, isAsciiSpace c = true) :
    trimBlank id (cs.reverse ++ read).reverse = cs := by
  rw [List.reverse_append, List.reverse_reverse, trimBlank, trim_append_left (by simpa using hr)]
  exact h.trimmed

theorem piecesFrom_piece (h : Piece cs) {read : List Char} (hr : ∀ c ∈ read, isAsciiSpace c = true) :
    piecesFrom id false ',' 0 read cs = [cs] := by
  have hplain : piecesFrom id false ',' 0 read (cs ++ []) = piecesFrom id false ',' 0 (cs.reverse ++ read) [] :=
    piecesFrom_plain h.plain
  rw [List.append_nil] at hplain
  rw [hplain, piecesFrom, trimBlank_spaced h hr, nonEmpty, if_neg (by simpa using h.nonempty)]

theorem piecesFrom_piece_cons (h : Piece cs) {read : List Char} (hr : ∀ c ∈ read, isAsciiSpace c = true) :
    piecesFrom id false ',' 0 read (cs ++ ',' :: ' ' :: rest) = cs :: piecesFrom id false ',' 0 [' '] rest := by
  have hspace : depthChange false ' ' = none := by decide
  rw [piecesFrom_plain h.plain, piecesFrom]
  simp only [id, show depthChange false ',' = none by decide]
  rw [if_pos (by simp), trimBlank_spaced h hr, nonEmpty, if_neg (by simpa using h.nonempty), piecesFrom]
  simp only [id, hspace]
  rw [if_neg (by simp)]
  rfl

/-- Pieces with a comma and a space between them are cut apart, by induction on the list. -/
theorem pieces_intercalate {list : List (List Char)} (h : ∀ cs ∈ list, Piece cs) :
    pieces id false ',' ([',', ' '].intercalate list) = list := by
  have hfrom : ∀ (list : List (List Char)) (read : List Char), (∀ c ∈ read, isAsciiSpace c = true) →
      (∀ cs ∈ list, Piece cs) → list ≠ [] →
      piecesFrom id false ',' 0 read ([',', ' '].intercalate list) = list := by
    intro list
    induction list with
    | nil => intro _ _ _ hne; exact absurd rfl hne
    | cons cs list ih =>
      intro read hr hlist _
      have hcs := hlist cs List.mem_cons_self
      cases list with
      | nil => simpa using piecesFrom_piece hcs hr
      | cons ds list =>
        rw [List.intercalate_cons_cons, List.append_assoc, List.cons_append, List.cons_append, List.nil_append,
          piecesFrom_piece_cons hcs hr,
          ih [' '] (by simp; decide) (fun x hx => hlist x (List.mem_cons_of_mem cs hx)) (by simp)]
  cases list with
  | nil => rfl
  | cons cs list => exact hfrom _ [] (by simp) h (by simp)

end WireLayout.Java
