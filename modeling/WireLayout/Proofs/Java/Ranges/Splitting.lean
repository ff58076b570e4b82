import WireLayout.Proofs.Java.Cuts
import WireLayout.Proofs.Java.Ranges.Partners

/-! The pieces of a range. A range is cut into parts at its separators of depth zero, and the pieces are the parts
without the blanks at their ends. What is left out is blank or such a separator, and in a well-nested range the
parts, put together again, are the range. -/

namespace WireLayout.Java

open WireLayout.Text

variable {α : Type}

def nesting (view : α → Char) (generics : Bool) (xs : List α) : Int :=
  (xs.map fun x => (depthChange generics (view x)).getD 0).sum

/-- A sequence cut at its separators of depth zero. -/
inductive Parted (view : α → Char) (generics : Bool) (sep : Char) : List α → List (List α) → Prop where
  | last {part : List α} {depth : Int} (hwalk : walk view generics sep 0 part = some depth) :
      Parted view generics sep part [part]
  | cut {part rest : List α} {x : α} {parts : List (List α)} (hwalk : walk view generics sep 0 part = some 0)
      (hx : view x = sep) (hrest : Parted view generics sep rest parts) :
      Parted view generics sep (part ++ x :: rest) (part :: parts)

/-- A character that stands between brackets only. -/
def Enclosed (view : α → Char) (c : Char) (xs : List α) : Prop :=
  ∀ k, xs[k]?.map view = some c → ∃ i j, i < k ∧ k < j ∧ ArePartners view xs i j

/-- What a text shows besides ASCII space. -/
def ink (cs : List Char) : List Char := cs.filter fun c => !isAsciiSpace c

/-- The ranges of pieces lie in order within a range, they begin and end with no blank, and between them are blanks
and separators of depth zero. -/
structure SplitsRange (xs : List Octet) (start stop : Nat) (sep : Char) (generics : Bool)
    (spans : List (Nat × Nat)) : Prop where
  within : ∀ s ∈ spans, start ≤ s.1 ∧ s.1 < s.2 ∧ s.2 ≤ stop
  ordered : spans.Pairwise fun s t => s.2 < t.1
  trimmed : ∀ s ∈ spans, ∀ x, xs[s.1]? = some x ∨ xs[s.2 - 1]? = some x → isAsciiSpace x.view = false
  outside : ∀ i x, start ≤ i → i < stop → xs[i]? = some x → (∀ s ∈ spans, i < s.1 ∨ s.2 ≤ i) →
    isAsciiSpace x.view = true ∨ x.view = sep ∧ nesting Octet.view generics (slice xs start i) = 0

/-- The pieces of a well-nested range are well nested, and joined by the separator they show what the range shows,
up to empty parts. -/
structure RejoinsRange (xs : List Octet) (start stop : Nat) (sep : Char) (spans : List (Nat × Nat)) : Prop where
  balanced : ∀ s ∈ spans, isBalanced ((slice xs s.1 s.2).map Octet.view) = true
  enclosed : ∀ s ∈ spans, Enclosed Octet.view sep (slice xs s.1 s.2)
  rejoined : ∃ parts : List (List Octet),
    (slice xs start stop).map Octet.view = [sep].intercalate (parts.map (List.map Octet.view)) ∧
    (∀ part ∈ parts, isBalanced (part.map Octet.view) = true ∧ Enclosed Octet.view sep part) ∧
    ink ((slice xs start stop).map Octet.view) = [sep].intercalate (parts.map fun part => ink (part.map Octet.view)) ∧
    ink ([sep].intercalate (spans.map fun s => (slice xs s.1 s.2).map Octet.view)) =
      [sep].intercalate ((parts.map fun part => ink (part.map Octet.view)).filter (· ≠ []))

variable {view : α → Char} {generics : Bool} {sep : Char} {xs ys part : List α} {parts : List (List α)}
  {depth depth' : Int}

/-! The depth of nesting. -/

theorem nesting_append : nesting view generics (xs ++ ys) = nesting view generics xs + nesting view generics ys := by
  rw [nesting, List.map_append, List.sum_append, nesting, nesting]

theorem nesting_cons (x : α) : nesting view generics (x :: xs) =
    (depthChange generics (view x)).getD 0 + nesting view generics xs := by
  rw [nesting, List.map_cons, List.sum_cons, nesting]

theorem nesting_of_walk (h : walk view generics sep depth xs = some depth') :
    depth' = depth + nesting view generics xs := by
  induction xs generalizing depth with
  | nil =>
    obtain rfl := Option.some.inj h
    exact (add_zero depth).symm
  | cons x xs ih =>
    rw [walk] at h
    rw [nesting_cons]
    split at h
    · rename_i d hd
      rw [hd, Option.getD_some, ← add_assoc]
      exact ih h
    · rename_i hd
      split at h
      · cases h
      · rw [hd, Option.getD_none, zero_add]
        exact ih h

theorem nesting_eq (xs : List α) : nesting view false xs =
    (xs.map view).countP (fun c => (closer? c).isSome) - (xs.map view).countP isCloser := by
  induction xs with
  | nil => rfl
  | cons x xs ih =>
    rw [nesting_cons, ih, List.map_cons]
    cases hopen : closer? (view x) with
    | some close =>
      rw [depthChange_opener hopen, Option.getD_some, List.countP_cons_of_pos (by simp [hopen]),
        List.countP_cons_of_neg (by simp [isCloser_opener hopen])]
      omega
    | none =>
      cases hclose : isCloser (view x) with
      | false =>
        rw [depthChange_plain hopen hclose, Option.getD_none, List.countP_cons_of_neg (by simp [hopen]),
          List.countP_cons_of_neg (by simp [hclose]), zero_add]
      | true =>
        rw [depthChange_of_isCloser hclose, Option.getD_some, List.countP_cons_of_neg (by simp [hopen]),
          List.countP_cons_of_pos hclose]
        omega

/-- A balanced sequence is balanced up to each place of depth zero. -/
theorem Balanced.of_nesting (h : Balanced view (xs ++ ys)) (hzero : nesting view false xs = 0) : Balanced view xs := by
  rw [← isBalanced_map, isBalanced, List.map_append] at h
  rw [← isBalanced_map, isBalanced]
  rcases stack_after [] (xs.map view) with hlost | ⟨stack, hlength, hrest⟩
  · rw [hlost] at h
    cases h
  · rw [nesting_eq] at hzero
    rw [List.length_nil] at hlength
    have hstack : stack = [] := List.length_eq_zero_iff.1 (by omega)
    have hend := hrest []
    rw [List.append_nil, hstack] at hend
    rw [hend]
    rfl

/-! Parts. -/

theorem exists_parted (view : α → Char) (generics : Bool) (sep : Char) (xs : List α) :
    ∃ parts, Parted view generics sep xs parts := by
  induction hn : xs.length using Nat.strong_induction_on generalizing xs with
  | _ n ih =>
    cases hwalk : walk view generics sep 0 xs with
    | some depth => exact ⟨[xs], .last hwalk⟩
    | none =>
      obtain ⟨before, x, after, rfl, hx, -, hbefore⟩ := exists_separator hwalk
      have hlt : after.length < n := by
        rw [← hn, List.length_append, List.length_cons]
        omega
      obtain ⟨parts, hparts⟩ := ih after.length hlt after rfl
      exact ⟨before :: parts, .cut hbefore hx hparts⟩

namespace Parted

theorem pieces_eq (hsep : depthChange generics sep = none) (h : Parted view generics sep xs parts) :
    pieces view generics sep xs = parts.flatMap fun part => nonEmpty (trimBlank view part) := by
  induction h with
  | @last part depth hwalk =>
    have hread : pieces view generics sep (part ++ []) = _ := piecesFrom_walk hwalk
    rw [List.append_nil] at hread
    rw [hread, piecesFrom, List.append_nil, List.reverse_reverse, List.flatMap_singleton]
  | cut hwalk hx _ ih =>
    rw [pieces, piecesFrom_walk hwalk, piecesFrom_separator hx hsep, List.append_nil, List.reverse_reverse, ih,
      List.flatMap_cons]

theorem ne_nil (h : Parted view generics sep xs parts) : parts ≠ [] := by
  cases h <;> exact List.cons_ne_nil _ _

theorem exists_walk (h : Parted view generics sep xs parts) :
    ∀ part ∈ parts, ∃ depth, walk view generics sep 0 part = some depth := by
  induction h with
  | last hwalk => exact fun part hpart => ⟨_, List.mem_singleton.1 hpart ▸ hwalk⟩
  | cut hwalk _ _ ih =>
    intro part hpart
    rcases List.mem_cons.1 hpart with rfl | hpart
    · exact ⟨0, hwalk⟩
    · exact ih part hpart

theorem isInfix (h : Parted view generics sep xs parts) : ∀ part ∈ parts, part <:+: xs := by
  induction h with
  | last => exact fun part hpart => List.mem_singleton.1 hpart ▸ List.infix_rfl
  | @cut part rest x parts _ _ _ ih =>
    intro q hq
    rcases List.mem_cons.1 hq with rfl | hq
    · exact (List.prefix_append _ _).isInfix
    · exact (ih q hq).trans ((List.suffix_cons x rest).trans (List.suffix_append part _)).isInfix

theorem balanced (hsep : depthChange false sep = none) (h : Parted view false sep xs parts) (hxs : Balanced view xs) :
    ∀ part ∈ parts, Balanced view part := by
  induction h with
  | last => exact fun part hpart => List.mem_singleton.1 hpart ▸ hxs
  | @cut part rest x parts hwalk hx _ ih =>
    have hzero := nesting_of_walk hwalk
    rw [zero_add] at hzero
    have hpart := hxs.of_nesting hzero.symm
    have hrest : Balanced view rest := by
      cases hpart.of_append hxs with
      | plain _ _ hrest => exact hrest
      | group hpair _ _ =>
        rw [← hx, depthChange_opener hpair] at hsep
        cases hsep
    intro q hq
    rcases List.mem_cons.1 hq with rfl | hq
    · exact hpart
    · exact ih hrest q hq

/-- The parts, joined by the separator, are the sequence. -/
theorem intercalate_eq (h : Parted view generics sep xs parts) :
    xs.map view = [sep].intercalate (parts.map (List.map view)) := by
  induction h with
  | last => rw [List.map_singleton, List.intercalate_singleton]
  | @cut part rest x parts _ hx hrest ih =>
    obtain ⟨q, qs, rfl⟩ := List.exists_cons_of_ne_nil hrest.ne_nil
    rw [List.map_append, List.map_cons, hx, ih]
    simp only [List.map_cons, List.intercalate_cons_cons, List.append_assoc, List.singleton_append]

end Parted

/-! Separators inside brackets. -/

theorem ArePartners.append_left {i j : Nat} (h : ArePartners view xs i j) (ys : List α) :
    ArePartners view (ys ++ xs) (ys.length + i) (ys.length + j) := by
  obtain ⟨before, o, inside, c, after, rfl, rfl, rfl, hpair, hinside⟩ := h
  refine ⟨ys ++ before, o, inside, c, after, (List.append_assoc _ _ _).symm, ?_, ?_, hpair, hinside⟩
  · rw [List.length_append]
  · omega

theorem ArePartners.append_right {i j : Nat} (h : ArePartners view xs i j) (ys : List α) :
    ArePartners view (xs ++ ys) i j := by
  obtain ⟨before, o, inside, c, after, rfl, hi, hj, hpair, hinside⟩ := h
  exact ⟨before, o, inside, c, after ++ ys, by simp, hi, hj, hpair, hinside⟩

theorem enclosed_singleton {x : α} (hx : view x ≠ sep) : Enclosed view sep [x] := by
  intro k hk
  obtain ⟨y, hy, rfl⟩ := Option.map_eq_some_iff.1 hk
  exact absurd rfl (List.mem_singleton.1 (List.mem_of_getElem? hy) ▸ hx)

/-- A group encloses all that is inside, whatever it is. -/
theorem enclosed_group {o c : α} (hpair : closer? (view o) = some (view c)) (hinside : Balanced view xs)
    (ho : view o ≠ sep) (hc : view c ≠ sep) : Enclosed view sep (o :: (xs ++ [c])) := by
  intro k hk
  have hpartners : ArePartners view (o :: (xs ++ [c])) 0 (xs.length + 1) :=
    ⟨[], o, xs, c, [], rfl, rfl, by omega, closer?_eq_some_iff.1 hpair, hinside.wellNested⟩
  have hfirst : k ≠ 0 := by
    rintro rfl
    exact ho (Option.some.inj hk)
  have hlast : k ≠ xs.length + 1 := by
    rintro rfl
    rw [List.getElem?_cons_succ, List.getElem?_append_right le_rfl, Nat.sub_self] at hk
    exact hc (Option.some.inj hk)
  have hlength : k < (o :: (xs ++ [c])).length := by
    by_contra hout
    rw [List.getElem?_eq_none (Nat.le_of_not_lt hout)] at hk
    cases hk
  rw [List.length_cons, List.length_append, List.length_singleton] at hlength
  exact ⟨0, xs.length + 1, by omega, by omega, hpartners⟩

theorem Enclosed.append (hx : Enclosed view sep xs) (hy : Enclosed view sep ys) : Enclosed view sep (xs ++ ys) := by
  intro k hk
  rcases Nat.lt_or_ge k xs.length with hlt | hge
  · rw [List.getElem?_append_left hlt] at hk
    obtain ⟨i, j, hik, hkj, hpartners⟩ := hx k hk
    exact ⟨i, j, hik, hkj, hpartners.append_right ys⟩
  · obtain ⟨m, rfl⟩ := Nat.exists_eq_add_of_le hge
    rw [List.getElem?_append_right (Nat.le_add_right _ _), Nat.add_sub_cancel_left] at hk
    obtain ⟨i, j, him, hmj, hpartners⟩ := hy m hk
    exact ⟨xs.length + i, xs.length + j, by omega, by omega, hpartners.append_left xs⟩

/-- A balanced sequence in which no separator stands at depth zero has them all inside brackets. -/
theorem Balanced.enclosed (h : Balanced view xs) (hsep : depthChange false sep = none)
    (hwalk : walk view false sep 0 xs = some depth) : Enclosed view sep xs := by
  induction h generalizing depth with
  | nil =>
    intro k hk
    cases hk
  | @plain x xs hopen hclose _ ih =>
    rw [walk, depthChange_plain hopen hclose] at hwalk
    simp only [decide_true, Bool.and_true, decide_eq_true_eq] at hwalk
    split at hwalk
    · cases hwalk
    · exact (enclosed_singleton ‹_›).append (ih hwalk)
  | @group o c inside rest hpair hinside _ _ ih =>
    have ho : view o ≠ sep := by
      rintro rfl
      rw [depthChange_opener hpair] at hsep
      cases hsep
    have hc : view c ≠ sep := by
      rintro rfl
      rw [depthChange_closer hpair] at hsep
      cases hsep
    -- behind the group the depth is zero again
    rw [walk, depthChange_opener hpair] at hwalk
    simp only at hwalk
    rw [walk_append, walk_inside hinside (by omega), Option.bind_some, walk, depthChange_closer hpair] at hwalk
    have hgroup : o :: (inside ++ c :: rest) = (o :: (inside ++ [c])) ++ rest := by simp
    rw [hgroup]
    exact (enclosed_group hpair hinside ho hc).append (ih hwalk)

/-! Pieces. -/

theorem trimBlank_parts (view : α → Char) (part : List α) : ∃ before after,
    part = before ++ (trimBlank view part ++ after) ∧ (∀ x ∈ before, isAsciiSpace (view x) = true) ∧
      ∀ x ∈ after, isAsciiSpace (view x) = true :=
  exists_trim (fun x => isAsciiSpace (view x)) part

theorem isInfix_trimBlank (part : List α) : trimBlank view part <:+: part := by
  obtain ⟨before, after, hpart, -, -⟩ := trimBlank_parts view part
  exact ⟨before, after, by rw [List.append_assoc]; exact hpart.symm⟩

theorem mem_nonEmpty {piece : List α} : piece ∈ nonEmpty xs ↔ piece ≠ [] ∧ piece = xs := by
  cases xs with
  | nil => simp [nonEmpty]
  | cons x xs =>
    rw [nonEmpty, if_neg (by simp), List.mem_singleton]
    exact ⟨fun heq => ⟨heq ▸ List.cons_ne_nil x xs, heq⟩, fun h => h.2⟩

theorem walk_trimBlank (hsep : sep ∈ marks) (h : walk view generics sep 0 part = some depth) :
    walk view generics sep 0 (trimBlank view part) = some depth := by
  obtain ⟨before, after, hpart, hbefore, hafter⟩ := trimBlank_parts view part
  have hblank : ∀ {gap : List α} (d : Int), (∀ x ∈ gap, isAsciiSpace (view x) = true) →
      walk view generics sep d gap = some d :=
    fun d hgap => walk_of_notMem_marks (fun x hx => notMem_marks_of_isAsciiSpace (hgap x hx)) hsep d
  rw [hpart, walk_append, hblank 0 hbefore, Option.bind_some, walk_append] at h
  obtain ⟨d, hd, hrest⟩ := Option.bind_eq_some_iff.1 h
  rw [hblank d hafter] at hrest
  rw [hd, hrest]

theorem Balanced.trimBlank (h : Balanced view part) : Balanced view (trimBlank view part) := by
  obtain ⟨before, after, hpart, hbefore, hafter⟩ := trimBlank_parts view part
  have hnone : ∀ {gap : List α}, (∀ x ∈ gap, isAsciiSpace (view x) = true) → (gap.map view).filter isBracket = [] := by
    intro gap hgap
    rw [List.filter_eq_nil_iff]
    intro c hc
    obtain ⟨x, hx, rfl⟩ := List.mem_map.1 hc
    obtain ⟨hopen, hclose⟩ := closer?_of_notMem_marks (notMem_marks_of_isAsciiSpace (hgap x hx))
    rw [isBracket_eq, hopen, hclose]
    decide
  rw [balanced_iff_wellNested, hpart, List.map_append, List.map_append, List.filter_append, List.filter_append,
    hnone hbefore, hnone hafter, List.nil_append, List.append_nil] at h
  exact balanced_iff_wellNested.2 h

theorem ink_append (as bs : List Char) : ink (as ++ bs) = ink as ++ ink bs := List.filter_append ..

theorem ink_blank (h : ∀ x ∈ xs, isAsciiSpace (view x) = true) : ink (xs.map view) = [] := by
  rw [ink, List.filter_eq_nil_iff]
  intro c hc
  obtain ⟨x, hx, rfl⟩ := List.mem_map.1 hc
  rw [h x hx]
  decide

theorem ink_trimBlank : ink ((trimBlank view part).map view) = ink (part.map view) := by
  obtain ⟨before, after, hpart, hbefore, hafter⟩ := trimBlank_parts view part
  conv_rhs => rw [hpart, List.map_append, List.map_append, ink_append, ink_append, ink_blank hbefore, ink_blank hafter]
  rw [List.nil_append, List.append_nil]

theorem ink_eq_nil_iff : ink (part.map view) = [] ↔ trimBlank view part = [] := by
  rw [← ink_trimBlank]
  constructor
  · intro hink
    cases htrim : trimBlank view part with
    | nil => rfl
    | cons x rest =>
      have hhead : ∀ y ∈ (trimBlank view part).head?, isAsciiSpace (view y) = false := head?_trim
      have hx := hhead x (by rw [htrim]; rfl)
      rw [htrim, List.map_cons, ink, List.filter_cons_of_pos (by rw [hx]; rfl)] at hink
      cases hink
  · intro htrim
    rw [htrim]
    rfl

theorem ink_intercalate (hsep : isAsciiSpace sep = false) (texts : List (List Char)) :
    ink ([sep].intercalate texts) = [sep].intercalate (texts.map ink) := by
  induction texts with
  | nil => rfl
  | cons t texts ih =>
    cases texts with
    | nil => rw [List.intercalate_singleton, List.map_singleton, List.intercalate_singleton]
    | cons u texts =>
      have hink : ink [sep] = [sep] := List.filter_cons_of_pos (by rw [hsep]; rfl)
      rw [List.intercalate_cons_cons, ink_append, ink_append, ih, hink]
      simp only [List.map_cons, List.intercalate_cons_cons]

/-- The pieces show what those parts show that are not blank. -/
theorem map_ink_pieces (parts : List (List α)) :
    (parts.flatMap fun part => nonEmpty (trimBlank view part)).map (fun piece => ink (piece.map view)) =
      (parts.map fun part => ink (part.map view)).filter (· ≠ []) := by
  induction parts with
  | nil => rfl
  | cons part parts ih =>
    rw [List.flatMap_cons, List.map_append, List.map_cons, ih]
    by_cases hblank : trimBlank view part = []
    · rw [List.filter_cons_of_neg (by simpa using ink_eq_nil_iff.2 hblank), hblank]
      rfl
    · have hink : ink (part.map view) ≠ [] := fun hnil => hblank (ink_eq_nil_iff.1 hnil)
      rw [List.filter_cons_of_pos (by simpa using hink), nonEmpty, if_neg (by simpa using hblank), List.map_singleton,
        ink_trimBlank, List.singleton_append]

/-! Ranges. -/

section

variable {text : List Char} {os : List Octet} {start stop i k : Nat} {x : Octet} {spans later : List (Nat × Nat)}

theorem length_slice (hstop : stop ≤ os.length) : (slice os start stop).length = stop - start := by
  rw [slice, List.length_take, List.length_drop]
  omega

theorem getElem?_slice (hk : k < stop - start) : (slice os start stop)[k]? = os[start + k]? := by
  rw [slice, List.getElem?_take_of_lt hk, List.getElem?_drop]

theorem mem_slice (hi : start ≤ i) (hlt : i < stop) (hx : os[i]? = some x) : x ∈ slice os start stop := by
  have hget : (slice os start stop)[i - start]? = os[start + (i - start)]? := getElem?_slice (by omega)
  rw [Nat.add_sub_cancel' hi, hx] at hget
  exact List.mem_of_getElem? hget

theorem slice_append (h : start ≤ i) (hi : i ≤ stop) : slice os start stop = slice os start i ++ slice os i stop := by
  have hlength : stop - start = (i - start) + (stop - i) := by omega
  have hstart : start + (i - start) = i := by omega
  rw [slice, hlength, List.take_add, List.drop_drop, hstart, slice, slice]

theorem slice_cons (hx : os[i]? = some x) (hi : i < stop) : slice os i stop = x :: slice os (i + 1) stop := by
  obtain ⟨hlt, rfl⟩ := List.getElem?_eq_some_iff.1 hx
  have hlength : stop - i = (stop - (i + 1)) + 1 := by omega
  rw [slice, List.drop_eq_getElem_cons hlt, hlength, List.take_succ_cons, slice]

/-- A range that shows a sequence of two parts is cut between them. -/
theorem slice_eq_append {ys zs : List Octet} (hle : start ≤ stop) (hstop : stop ≤ os.length)
    (h : slice os start stop = ys ++ zs) :
    start + ys.length ≤ stop ∧ slice os start (start + ys.length) = ys ∧ slice os (start + ys.length) stop = zs := by
  have hlength := congrArg List.length h
  rw [length_slice hstop, List.length_append] at hlength
  have hmid : start + ys.length ≤ stop := by omega
  rw [slice_append (Nat.le_add_right start ys.length) hmid] at h
  refine ⟨hmid, List.append_inj h ?_⟩
  rw [length_slice (hmid.trans hstop), Nat.add_sub_cancel_left]

theorem getElem?_octets (h : (octets text)[i]? = some x) : x.2 = i := by
  rw [octets, List.getElem?_zipIdx] at h
  obtain ⟨b, -, rfl⟩ := Option.map_eq_some_iff.1 h
  exact Nat.zero_add i

theorem span_slice (hlt : start < stop) (hstop : stop ≤ (octets text).length) :
    span (slice (octets text) start stop) = (start, stop) := by
  have hlength : (slice (octets text) start stop).length = stop - start := length_slice hstop
  have hend : start + (stop - start - 1) = stop - 1 := by omega
  have hfirst := List.getElem?_eq_getElem (hlt.trans_le hstop)
  have hlast := List.getElem?_eq_getElem (show stop - 1 < (octets text).length by omega)
  have hhead : (slice (octets text) start stop).head? = some (octets text)[start] := by
    rw [List.head?_eq_getElem?, getElem?_slice (by omega), Nat.add_zero, hfirst]
  have hlast' : (slice (octets text) start stop).getLast? = some (octets text)[stop - 1] := by
    rw [List.getLast?_eq_getElem?, hlength, getElem?_slice (by omega), hend, hlast]
  rw [span, hhead, hlast', Option.map_some, Option.map_some, Option.getD_some, Option.getD_some,
    getElem?_octets hfirst, getElem?_octets hlast, Nat.sub_add_cancel (by omega)]

theorem span_part {before piece after : List Octet} (hle : start ≤ stop) (hstop : stop ≤ (octets text).length)
    (h : slice (octets text) start stop = before ++ (piece ++ after)) (hne : piece ≠ []) :
    span piece = (start + before.length, start + before.length + piece.length) ∧
      slice (octets text) (start + before.length) (start + before.length + piece.length) = piece := by
  obtain ⟨hfirst, -, hrest⟩ := slice_eq_append hle hstop h
  obtain ⟨hsecond, hpiece, -⟩ := slice_eq_append hfirst hstop hrest
  refine ⟨?_, hpiece⟩
  conv_lhs => rw [← hpiece]
  exact span_slice (Nat.lt_add_of_pos_right (List.length_pos_iff.2 hne)) (hsecond.trans hstop)

theorem splitsRange_part (hle : start ≤ stop) (hstop : stop ≤ (octets text).length) :
    SplitsRange (octets text) start stop sep generics
      ((nonEmpty (trimBlank Octet.view (slice (octets text) start stop))).map span) := by
  obtain ⟨before, after, hpart, hbefore, hafter⟩ := trimBlank_parts Octet.view (slice (octets text) start stop)
  have hhead : ∀ x ∈ (trimBlank Octet.view (slice (octets text) start stop)).head?, isAsciiSpace x.view = false :=
    head?_trim
  have hlast : ∀ x ∈ (trimBlank Octet.view (slice (octets text) start stop)).getLast?, isAsciiSpace x.view = false :=
    getLast?_trim
  generalize trimBlank Octet.view (slice (octets text) start stop) = piece at hpart hhead hlast ⊢
  obtain ⟨hfirst, hfront, hrest⟩ := slice_eq_append hle hstop hpart
  obtain ⟨hsecond, -, hback⟩ := slice_eq_append hfirst hstop hrest
  have hblank : ∀ i x, start ≤ i → i < stop → (octets text)[i]? = some x →
      i < start + before.length ∨ start + before.length + piece.length ≤ i → isAsciiSpace x.view = true := by
    intro i x hi hlt hx hout
    rcases hout with hout | hout
    · exact hbefore x (hfront ▸ mem_slice hi hout hx)
    · exact hafter x (hback ▸ mem_slice hout hlt hx)
  by_cases hempty : piece = []
  · subst piece
    refine ⟨nofun, .nil, nofun, fun i x hi hlt hx _ => .inl (hblank i x hi hlt hx ?_)⟩
    exact Nat.lt_or_ge i (start + before.length)
  · have hlength : 0 < piece.length := List.length_pos_iff.2 hempty
    obtain ⟨hspan, hpiece⟩ := span_part hle hstop hpart hempty
    rw [nonEmpty, if_neg (by simpa using hempty), List.map_singleton, hspan]
    refine ⟨fun s hs => ?_, List.pairwise_singleton _ _, fun s hs x hx => ?_, fun i x hi hlt hx hout => .inl ?_⟩
    · rw [List.mem_singleton.1 hs]
      exact ⟨Nat.le_add_right _ _, Nat.lt_add_of_pos_right hlength, hsecond⟩
    · rw [List.mem_singleton.1 hs] at hx
      have hget : ∀ {k}, k < piece.length → piece[k]? = (octets text)[start + before.length + k]? := by
        intro k hk
        conv_lhs => rw [← hpiece]
        exact getElem?_slice (by omega)
      rcases hx with hx | hx
      · refine hhead x ?_
        rw [List.head?_eq_getElem?, hget hlength]
        exact hx
      · refine hlast x ?_
        rw [List.getLast?_eq_getElem?, hget (by omega), ← Nat.add_sub_assoc hlength]
        exact hx
    · exact hblank i x hi hlt hx (hout _ List.mem_cons_self)

/-- A range with a separator of depth zero behind the first part. -/
theorem SplitsRange.cut (h : SplitsRange os start i sep generics spans) (hi : start ≤ i) (hlt : i < stop)
    (hx : os[i]? = some x) (hview : x.view = sep) (hsep : depthChange generics sep = none)
    (hzero : nesting Octet.view generics (slice os start i) = 0)
    (hlater : SplitsRange os (i + 1) stop sep generics later) :
    SplitsRange os start stop sep generics (spans ++ later) where
  within s hs := by
    rcases List.mem_append.1 hs with hs | hs
    · have hwithin := h.within s hs
      omega
    · have hwithin := hlater.within s hs
      omega
  ordered := by
    refine List.pairwise_append.2 ⟨h.ordered, hlater.ordered, fun s hs t ht => ?_⟩
    have hfirst := h.within s hs
    have hsecond := hlater.within t ht
    omega
  trimmed s hs := (List.mem_append.1 hs).elim (h.trimmed s) (hlater.trimmed s)
  outside k y hk hkstop hy hout := by
    rcases Nat.lt_trichotomy k i with hki | rfl | hik
    · exact h.outside k y hk hki hy fun s hs => hout s (List.mem_append_left _ hs)
    · rw [hx] at hy
      obtain rfl := Option.some.inj hy
      exact .inr ⟨hview, hzero⟩
    · rcases hlater.outside k y hik hkstop hy fun s hs => hout s (List.mem_append_right _ hs) with hblank | ⟨hy, hdepth⟩
      · exact .inl hblank
      · refine .inr ⟨hy, ?_⟩
        rw [slice_append hi hik.le, slice_cons hx hik, nesting_append, nesting_cons, hzero, hdepth, hview, hsep]
        rfl

/-- By induction on the parts, each of which lies behind a separator. -/
theorem Parted.splitsRange {parts : List (List Octet)} (hsep : depthChange generics sep = none)
    (h : Parted Octet.view generics sep (slice (octets text) start stop) parts) (hle : start ≤ stop)
    (hstop : stop ≤ (octets text).length) :
    SplitsRange (octets text) start stop sep generics
      ((parts.flatMap fun part => nonEmpty (trimBlank Octet.view part)).map span) := by
  generalize hrange : slice (octets text) start stop = range at h
  induction h generalizing start with
  | last =>
    subst hrange
    rw [List.flatMap_singleton]
    exact splitsRange_part hle hstop
  | @cut part rest x parts hwalk hx _ ih =>
    obtain ⟨hmid, hpart, hrest⟩ := slice_eq_append hle hstop hrange
    have hlt : start + part.length < stop := by
      refine lt_of_le_of_ne hmid fun heq => ?_
      rw [heq, slice, Nat.sub_self, List.take_zero] at hrest
      cases hrest
    have hget : (octets text)[start + part.length]? = some x := by
      have hhead : (slice (octets text) (start + part.length) stop)[0]? = _ := getElem?_slice (by omega)
      rw [hrest, List.getElem?_cons_zero, Nat.add_zero] at hhead
      exact hhead.symm
    have hlater : slice (octets text) (start + part.length + 1) stop = rest := by
      rw [slice_cons hget hlt] at hrest
      exact (List.cons.inj hrest).2
    have hzero := nesting_of_walk hwalk
    rw [zero_add, ← hpart] at hzero
    have hfirst : SplitsRange (octets text) start (start + part.length) sep generics _ :=
      splitsRange_part (Nat.le_add_right _ _) (hmid.trans hstop)
    rw [hpart] at hfirst
    rw [List.flatMap_cons, List.map_append]
    exact hfirst.cut (Nat.le_add_right _ _) hlt hget hx hsep hzero.symm (ih hlt hlater)

theorem slice_span {piece : List Octet} (hne : piece ≠ []) (hpart : piece <:+: octets text) :
    slice (octets text) (span piece).1 (span piece).2 = piece := by
  obtain ⟨before, after, htext⟩ := hpart
  have hwhole : slice (octets text) 0 (octets text).length = before ++ (piece ++ after) := by
    rw [slice, List.drop_zero, Nat.sub_zero, List.take_length, ← List.append_assoc, htext]
  obtain ⟨hspan, hpiece⟩ := span_part (Nat.zero_le _) le_rfl hwhole hne
  rw [hspan]
  exact hpiece

theorem isInfix_slice : slice os start stop <:+: os :=
  (List.take_prefix _ _).isInfix.trans (List.drop_suffix _ _).isInfix

theorem Parted.rejoinsRange {parts : List (List Octet)} (hsep : depthChange false sep = none) (hmark : sep ∈ marks)
    (h : Parted Octet.view false sep (slice (octets text) start stop) parts)
    (hrange : isBalanced ((slice (octets text) start stop).map Octet.view) = true) :
    RejoinsRange (octets text) start stop sep
      ((parts.flatMap fun part => nonEmpty (trimBlank Octet.view part)).map span) := by
  have hspace : isAsciiSpace sep = false := by
    cases hblank : isAsciiSpace sep with
    | false => rfl
    | true => exact absurd hmark (notMem_marks_of_isAsciiSpace hblank)
  have hparts : ∀ part ∈ parts, Balanced Octet.view part ∧ Enclosed Octet.view sep part := by
    intro part hpart
    have hbalanced := h.balanced hsep (isBalanced_map.1 hrange) part hpart
    obtain ⟨depth, hwalk⟩ := h.exists_walk part hpart
    exact ⟨hbalanced, hbalanced.enclosed hsep hwalk⟩
  have hpieces : ∀ piece ∈ parts.flatMap fun part => nonEmpty (trimBlank Octet.view part),
      slice (octets text) (span piece).1 (span piece).2 = piece ∧ Balanced Octet.view piece ∧
        Enclosed Octet.view sep piece := by
    intro piece hpiece
    obtain ⟨part, hpart, hmem⟩ := List.mem_flatMap.1 hpiece
    obtain ⟨hne, rfl⟩ := mem_nonEmpty.1 hmem
    obtain ⟨depth, hwalk⟩ := h.exists_walk part hpart
    have hbalanced := (hparts part hpart).1.trimBlank
    exact ⟨slice_span hne ((isInfix_trimBlank part).trans ((h.isInfix part hpart).trans isInfix_slice)), hbalanced,
      hbalanced.enclosed hsep (walk_trimBlank hmark hwalk)⟩
  refine ⟨fun s hs => ?_, fun s hs => ?_, parts, h.intercalate_eq, fun part hpart => ?_, ?_, ?_⟩
  · obtain ⟨piece, hpiece, rfl⟩ := List.mem_map.1 hs
    obtain ⟨hslice, hbalanced, -⟩ := hpieces piece hpiece
    rw [hslice]
    exact isBalanced_map.2 hbalanced
  · obtain ⟨piece, hpiece, rfl⟩ := List.mem_map.1 hs
    obtain ⟨hslice, -, henclosed⟩ := hpieces piece hpiece
    rw [hslice]
    exact henclosed
  · exact ⟨isBalanced_map.2 (hparts part hpart).1, (hparts part hpart).2⟩
  · rw [h.intercalate_eq, ink_intercalate hspace, List.map_map]
    rfl
  · rw [List.map_map, ink_intercalate hspace, List.map_map, ← map_ink_pieces]
    refine congrArg _ (List.map_congr_left fun piece hpiece => ?_)
    exact congrArg (fun p => ink (p.map Octet.view)) (hpieces piece hpiece).1

end

/-- Cutting a range at separators loses nothing but blanks, separators and empty parts. -/
theorem pieceSpans_lossless (text : List Char) (start stop : Nat) (sep : Char) (generics : Bool)
    (hsep : sep = ',' ∨ sep = ';') (hle : start ≤ stop) (hstop : stop ≤ (octets text).length) :
    SplitsRange (octets text) start stop sep generics (pieceSpans (octets text) start stop sep generics) ∧
      (isBalanced ((slice (octets text) start stop).map Octet.view) = true →
        RejoinsRange (octets text) start stop sep (pieceSpans (octets text) start stop sep false)) := by
  have hmark : sep ∈ marks := by rcases hsep with rfl | rfl <;> decide
  have hchange : ∀ generics, depthChange generics sep = none := by
    intro generics
    rcases hsep with rfl | rfl <;> cases generics <;> rfl
  constructor
  · obtain ⟨parts, hparts⟩ := exists_parted Octet.view generics sep (slice (octets text) start stop)
    rw [pieceSpans, hparts.pieces_eq (hchange generics)]
    exact hparts.splitsRange (hchange generics) hle hstop
  · intro hrange
    obtain ⟨parts, hparts⟩ := exists_parted Octet.view false sep (slice (octets text) start stop)
    rw [pieceSpans, hparts.pieces_eq (hchange false)]
    exact hparts.rejoinsRange (hchange false) hmark hrange

theorem pieceSpans_lossless_call :
    ((',' = ',' ∨ ',' = ';') ∧ 0 ≤ 11 ∧ 11 ≤ (octets "f(a, b), ,c".toList).length) ∧
      pieceSpans (octets "f(a, b), ,c".toList) 0 11 ',' false = [(0, 7), (10, 11)] ∧
      SplitsRange (octets "f(a, b), ,c".toList) 0 11 ',' false [(0, 7), (10, 11)] ∧
      RejoinsRange (octets "f(a, b), ,c".toList) 0 11 ',' [(0, 7), (10, 11)] := by
  have hlength : 11 ≤ (octets "f(a, b), ,c".toList).length := by decide
  have hspans : pieceSpans (octets "f(a, b), ,c".toList) 0 11 ',' false = [(0, 7), (10, 11)] := by decide
  obtain ⟨hsplits, hrejoins⟩ :=
    pieceSpans_lossless "f(a, b), ,c".toList 0 11 ',' false (.inl rfl) (Nat.zero_le 11) hlength
  rw [hspans] at hsplits hrejoins
  exact ⟨⟨.inl rfl, Nat.zero_le 11, hlength⟩, hspans, hsplits, hrejoins (by decide)⟩

/-- A closing bracket too many hides what follows it from the separators. -/
example : pieceSpans (octets "a> b, c".toList) 0 7 ',' true = [(0, 7)] := by decide

end WireLayout.Java
