import Mathlib
import WireLayout.Java.Bracket

/-! Sequences in which every bracket has its partner. Such a part of a sequence is invisible to whoever counts
brackets around it: it can be taken out of a balanced text or put into one, the search for a partner passes over
it, and it is cut into items of its own. -/

namespace WireLayout.Java

variable {α : Type} {view : α → Char} {xs ys rest : List α}

/-- The elements outside groups are no brackets, and a group ends with the partner of its opener. -/
inductive Balanced (view : α → Char) : List α → Prop where
  | nil : Balanced view []
  | plain {x : α} {xs : List α} (hopen : closer? (view x) = none) (hclose : isCloser (view x) = false)
      (h : Balanced view xs) : Balanced view (x :: xs)
  | group {o c : α} {inside rest : List α} (hpair : closer? (view o) = some (view c))
      (hinside : Balanced view inside) (hrest : Balanced view rest) : Balanced view (o :: (inside ++ c :: rest))

/-! The three pairs of brackets. -/

theorem closer?_eq_some {o c : Char} (h : closer? o = some c) :
    (o = '(' ∧ c = ')') ∨ (o = '[' ∧ c = ']') ∨ (o = '{' ∧ c = '}') := by
  unfold closer? at h
  split at h
  · exact .inl ⟨‹_›, (Option.some.inj h).symm⟩
  · split at h
    · exact .inr (.inl ⟨‹_›, (Option.some.inj h).symm⟩)
    · rw [Option.ite_none_right_eq_some] at h
      exact .inr (.inr ⟨h.1, (Option.some.inj h.2).symm⟩)

theorem closer?_closer {o c : Char} (h : closer? o = some c) : closer? c = none := by
  rcases closer?_eq_some h with ⟨-, rfl⟩ | ⟨-, rfl⟩ | ⟨-, rfl⟩ <;> rfl

theorem isCloser_opener {o c : Char} (h : closer? o = some c) : isCloser o = false := by
  rcases closer?_eq_some h with ⟨rfl, -⟩ | ⟨rfl, -⟩ | ⟨rfl, -⟩ <;> rfl

theorem isCloser_closer {o c : Char} (h : closer? o = some c) : isCloser c = true := by
  rcases closer?_eq_some h with ⟨-, rfl⟩ | ⟨-, rfl⟩ | ⟨-, rfl⟩ <;> rfl

theorem opener_ne_closer {o c o' c' : Char} (h : closer? o = some c) (h' : closer? o' = some c') : o ≠ c' := by
  rintro rfl
  rw [closer?_closer h'] at h
  cases h

theorem closer?_injective {o o' c : Char} (h : closer? o = some c) (h' : closer? o' = some c) : o = o' := by
  rcases closer?_eq_some h with ⟨rfl, rfl⟩ | ⟨rfl, rfl⟩ | ⟨rfl, rfl⟩ <;>
    rcases closer?_eq_some h' with ⟨rfl, hc⟩ | ⟨rfl, hc⟩ | ⟨rfl, hc⟩ <;> first | rfl | exact absurd hc (by decide)

theorem plain_ne_opener {x o c : Char} (hx : closer? x = none) (h : closer? o = some c) : x ≠ o := by
  rintro rfl
  rw [hx] at h
  cases h

theorem plain_ne_closer {x o c : Char} (hx : isCloser x = false) (h : closer? o = some c) : x ≠ c := by
  rintro rfl
  rw [isCloser_closer h] at hx
  cases hx

namespace Balanced

theorem append (hx : Balanced view xs) (hy : Balanced view ys) : Balanced view (xs ++ ys) := by
  induction hx with
  | nil => exact hy
  | plain hopen hclose _ ih => exact .plain hopen hclose ih
  | group hpair hinside _ _ ih =>
    rw [List.cons_append, List.append_assoc, List.cons_append]
    exact .group hpair hinside ih

theorem of_forall (h : ∀ x ∈ xs, closer? (view x) = none ∧ isCloser (view x) = false) : Balanced view xs := by
  induction xs with
  | nil => exact .nil
  | cons x xs ih =>
    obtain ⟨hopen, hclose⟩ := h x List.mem_cons_self
    exact .plain hopen hclose (ih fun y hy => h y (List.mem_cons_of_mem x hy))

theorem bracketed {o c : α} (hpair : closer? (view o) = some (view c)) (h : Balanced view xs) :
    Balanced view (o :: (xs ++ [c])) := .group hpair h .nil

end Balanced

/-! The check by a stack. -/

theorem balancedFrom_opener {c close : Char} (hc : closer? c = some close) (stack cs : List Char) :
    balancedFrom stack (c :: cs) = balancedFrom (close :: stack) cs := by
  rw [balancedFrom.eq_def]
  simp only [hc]

theorem balancedFrom_closer {c : Char} (hopen : closer? c = none) (hclose : isCloser c = true)
    (close : Char) (stack cs : List Char) :
    balancedFrom (close :: stack) (c :: cs) = (decide (close = c) && balancedFrom stack cs) := by
  rw [balancedFrom.eq_def]
  simp only [hopen, hclose, if_true]

theorem balancedFrom_closer_nil {c : Char} (hopen : closer? c = none) (hclose : isCloser c = true)
    (cs : List Char) : balancedFrom [] (c :: cs) = false := by
  rw [balancedFrom.eq_def]
  simp only [hopen, hclose, if_true]

theorem balancedFrom_plain {c : Char} (hopen : closer? c = none) (hclose : isCloser c = false)
    (stack cs : List Char) : balancedFrom stack (c :: cs) = balancedFrom stack cs := by
  rw [balancedFrom.eq_def]
  simp only [hopen, hclose, Bool.false_eq_true, if_false]

theorem balancedFrom_append (h : Balanced view xs) (stack : List Char) (cs : List Char) :
    balancedFrom stack (xs.map view ++ cs) = balancedFrom stack cs := by
  induction h generalizing stack cs with
  | nil => rfl
  | plain hopen hclose _ ih => rw [List.map_cons, List.cons_append, balancedFrom_plain hopen hclose, ih]
  | group hpair _ _ ihinside ihrest =>
    simp only [List.map_append, List.map_cons, List.append_assoc, List.cons_append]
    rw [balancedFrom_opener hpair, ihinside, balancedFrom_closer (closer?_closer hpair) (isCloser_closer hpair),
      decide_eq_true rfl, Bool.true_and, ihrest]

theorem balancedFrom_insert (h : Balanced view xs) (stack before after : List Char) :
    balancedFrom stack (before ++ (xs.map view ++ after)) = balancedFrom stack (before ++ after) := by
  induction before generalizing stack with
  | nil => exact balancedFrom_append h stack after
  | cons c before ih =>
    rw [List.cons_append, List.cons_append]
    cases hopen : closer? c with
    | some close => rw [balancedFrom_opener hopen, balancedFrom_opener hopen, ih]
    | none =>
      cases hclose : isCloser c with
      | false => rw [balancedFrom_plain hopen hclose, balancedFrom_plain hopen hclose, ih]
      | true =>
        cases stack with
        | nil => rw [balancedFrom_closer_nil hopen hclose, balancedFrom_closer_nil hopen hclose]
        | cons close stack => rw [balancedFrom_closer hopen hclose, balancedFrom_closer hopen hclose, ih]

/-- What the stack still waits for comes next, after a balanced part. -/
theorem exists_partner {close : Char} {stack : List Char} (h : balancedFrom (close :: stack) (xs.map view) = true) :
    ∃ inside c rest, xs = inside ++ c :: rest ∧ Balanced view inside ∧ view c = close ∧
      balancedFrom stack (rest.map view) = true := by
  -- by induction on the length, because a group on the way is passed over as a whole
  induction hn : xs.length using Nat.strong_induction_on generalizing xs close stack with
  | _ n ih =>
    cases xs with
    | nil => simp [balancedFrom] at h
    | cons x xs =>
      rw [List.map_cons] at h
      cases hx : closer? (view x) with
      | some close' =>
        rw [balancedFrom_opener hx] at h
        obtain ⟨inside, c, rest, rfl, hinside, rfl, hrest⟩ := ih xs.length (by simp [← hn]) h rfl
        obtain ⟨inside', c', rest', rfl, hinside', rfl, hrest'⟩ := ih rest.length (by simp [← hn]; omega) hrest rfl
        exact ⟨x :: (inside ++ c :: inside'), c', rest', by simp, .group hx hinside hinside', rfl, hrest'⟩
      | none =>
        cases hclose : isCloser (view x) with
        | true =>
          rw [balancedFrom_closer hx hclose, Bool.and_eq_true, decide_eq_true_eq] at h
          exact ⟨[], x, xs, rfl, .nil, h.1.symm, h.2⟩
        | false =>
          rw [balancedFrom_plain hx hclose] at h
          obtain ⟨inside, c, rest, rfl, hinside, rfl, hrest⟩ := ih xs.length (by simp [← hn]) h rfl
          exact ⟨x :: inside, c, rest, rfl, .plain hx hclose hinside, rfl, hrest⟩

theorem balanced_of_isBalanced (h : isBalanced (xs.map view) = true) : Balanced view xs := by
  induction hn : xs.length using Nat.strong_induction_on generalizing xs with
  | _ n ih =>
    cases xs with
    | nil => exact .nil
    | cons x xs =>
      rw [isBalanced, List.map_cons] at h
      cases hx : closer? (view x) with
      | some close =>
        rw [balancedFrom_opener hx] at h
        obtain ⟨inside, c, rest, rfl, hinside, rfl, hrest⟩ := exists_partner h
        exact .group hx hinside (ih rest.length (by simp [← hn]; omega) hrest rfl)
      | none =>
        cases hclose : isCloser (view x) with
        | true =>
          rw [balancedFrom_closer_nil hx hclose] at h
          cases h
        | false =>
          rw [balancedFrom_plain hx hclose] at h
          exact .plain hx hclose (ih xs.length (by simp [← hn]) h rfl)

theorem isBalanced_map : isBalanced (xs.map view) = true ↔ Balanced view xs := by
  refine ⟨balanced_of_isBalanced, fun h => ?_⟩
  have happend := balancedFrom_append h [] []
  rw [List.append_nil] at happend
  rw [isBalanced, happend]
  rfl

/-- The stack behind a part of a text is as high as brackets are open there, unless the text is lost already. -/
theorem stack_after (stack cs : List Char) : (∀ rest, balancedFrom stack (cs ++ rest) = false) ∨
    ∃ stack' : List Char, stack'.length + cs.countP isCloser = stack.length + cs.countP (fun c => (closer? c).isSome) ∧
      ∀ rest, balancedFrom stack (cs ++ rest) = balancedFrom stack' rest := by
  induction cs generalizing stack with
  | nil => exact .inr ⟨stack, rfl, fun rest => rfl⟩
  | cons c cs ih =>
    cases hopen : closer? c with
    | some close =>
      have hstep : ∀ rest, balancedFrom stack (c :: cs ++ rest) = balancedFrom (close :: stack) (cs ++ rest) :=
        fun rest => balancedFrom_opener hopen stack (cs ++ rest)
      rcases ih (close :: stack) with hlost | ⟨stack', hlength, hrest⟩
      · exact .inl fun rest => (hstep rest).trans (hlost rest)
      · refine .inr ⟨stack', ?_, fun rest => (hstep rest).trans (hrest rest)⟩
        rw [List.length_cons] at hlength
        rw [List.countP_cons_of_neg (by simp [isCloser_opener hopen]), List.countP_cons_of_pos (by simp [hopen]), hlength]
        omega
    | none =>
      cases hclose : isCloser c with
      | false =>
        have hstep : ∀ rest, balancedFrom stack (c :: cs ++ rest) = balancedFrom stack (cs ++ rest) :=
          fun rest => balancedFrom_plain hopen hclose stack (cs ++ rest)
        rcases ih stack with hlost | ⟨stack', hlength, hrest⟩
        · exact .inl fun rest => (hstep rest).trans (hlost rest)
        · refine .inr ⟨stack', ?_, fun rest => (hstep rest).trans (hrest rest)⟩
          rw [List.countP_cons_of_neg (by simp [hclose]), List.countP_cons_of_neg (by simp [hopen]), hlength]
      | true =>
        cases stack with
        | nil => exact .inl fun rest => balancedFrom_closer_nil hopen hclose (cs ++ rest)
        | cons close stack =>
          have hstep : ∀ rest, balancedFrom (close :: stack) (c :: cs ++ rest) =
              (decide (close = c) && balancedFrom stack (cs ++ rest)) :=
            fun rest => balancedFrom_closer hopen hclose close stack (cs ++ rest)
          by_cases hsame : close = c
          · rcases ih stack with hlost | ⟨stack', hlength, hrest⟩
            · exact .inl fun rest => by rw [hstep, hlost, Bool.and_false]
            · refine .inr ⟨stack', ?_, fun rest => by rw [hstep, decide_eq_true hsame, Bool.true_and, hrest]⟩
              rw [List.countP_cons_of_pos hclose, List.countP_cons_of_neg (by simp [hopen]), List.length_cons]
              omega
          · exact .inl fun rest => by rw [hstep, decide_eq_false hsame, Bool.false_and]

namespace Balanced

theorem of_append (hx : Balanced view xs) (h : Balanced view (xs ++ ys)) : Balanced view ys := by
  rw [← isBalanced_map, isBalanced, List.map_append, balancedFrom_append hx] at h
  exact isBalanced_map.1 h

theorem insert (h : Balanced view (xs ++ rest)) (hy : Balanced view ys) : Balanced view (xs ++ (ys ++ rest)) := by
  rw [← isBalanced_map, isBalanced, List.map_append] at h
  rw [← isBalanced_map, isBalanced, List.map_append, List.map_append, balancedFrom_insert hy]
  exact h

/-- In a balanced sequence each opening bracket has its partner. -/
theorem exists_partner {o : α} {close : Char} {before : List α} (h : Balanced view (before ++ o :: rest))
    (ho : closer? (view o) = some close) :
    ∃ inside c after, rest = inside ++ c :: after ∧ Balanced view inside ∧ view c = close := by
  rw [← isBalanced_map, isBalanced, List.map_append, List.map_cons] at h
  rcases stack_after [] (before.map view) with hlost | ⟨stack, -, hrest⟩
  · rw [hlost] at h
    cases h
  · rw [hrest, balancedFrom_opener ho] at h
    obtain ⟨inside, c, after, hparts, hinside, hc, -⟩ := Java.exists_partner h
    exact ⟨inside, c, after, hparts, hinside, hc⟩

end Balanced

/-! The partner of a bracket. -/

/-- The search for the partner of an open bracket passes over a balanced part. -/
theorem closing_append (h : Balanced view xs) {o c : Char} (hpair : closer? o = some c) {depth : Nat}
    (hdepth : 1 ≤ depth) :
    closing view o c depth (xs ++ rest) = (closing view o c depth rest).map fun p => (xs ++ p.1, p.2) := by
  induction h generalizing depth rest with
  | nil => simp
  | plain hopen hclose _ ih =>
    rw [List.cons_append, closing, if_neg (plain_ne_opener hopen hpair), if_neg (plain_ne_closer hclose hpair),
      ih hdepth, Option.map_map]
    rfl
  | @group o' c' inside rest' hpair' _ _ ihinside ihrest =>
    have hclosing : closing view o c depth (rest' ++ rest) =
        (closing view o c depth rest).map fun p => (rest' ++ p.1, p.2) := ihrest hdepth
    rw [List.cons_append, List.append_assoc, List.cons_append, closing]
    by_cases hsame : view o' = o
    · have hclose : view c' = c := by
        rw [hsame, hpair] at hpair'
        exact (Option.some.inj hpair').symm
      have hdeep : ¬ depth + 1 ≤ 1 := by omega
      rw [if_pos hsame, ihinside (by omega), closing, if_neg (hclose ▸ (opener_ne_closer hpair hpair).symm),
        if_pos hclose, if_neg hdeep, Nat.add_sub_cancel, hclosing]
      simp [Option.map_map, Function.comp_def]
    · have hclose : view c' ≠ c := fun heq => hsame (closer?_injective (heq ▸ hpair') hpair)
      rw [if_neg hsame, if_neg (opener_ne_closer hpair' hpair), ihinside hdepth, closing,
        if_neg (opener_ne_closer hpair hpair').symm, if_neg hclose, hclosing]
      simp [Option.map_map, Function.comp_def]

theorem closing_balanced (h : Balanced view xs) {o : Char} {c : α} (hpair : closer? o = some (view c)) :
    closing view o (view c) 1 (xs ++ c :: rest) = some (xs, rest) := by
  rw [closing_append h hpair le_rfl, closing, if_neg (opener_ne_closer hpair hpair).symm, if_pos rfl, if_pos le_rfl,
    Option.map_some, List.append_nil]

theorem closing_local {o c : Char} {depth : Nat} {inside after : List α}
    (h : closing view o c depth xs = some (inside, after)) :
    closing view o c depth (xs ++ rest) = some (inside, after ++ rest) := by
  induction xs generalizing depth inside with
  | nil => cases h
  | cons x xs ih =>
    have hstep : ∀ {d : Nat}, ((closing view o c d xs).map fun p => (x :: p.1, p.2)) = some (inside, after) →
        ((closing view o c d (xs ++ rest)).map fun p => (x :: p.1, p.2)) = some (inside, after ++ rest) := by
      intro d hd
      obtain ⟨⟨inside', after'⟩, hp, heq⟩ := Option.map_eq_some_iff.1 hd
      obtain ⟨rfl, rfl⟩ := Prod.mk.inj heq
      rw [ih hp, Option.map_some]
    rw [closing] at h
    rw [List.cons_append, closing]
    split at h
    · rw [if_pos ‹_›]
      exact hstep h
    · rw [if_neg ‹_›]
      split at h
      · rw [if_pos ‹_›]
        split at h
        · obtain ⟨rfl, rfl⟩ := Prod.mk.inj (Option.some.inj h)
          rw [if_pos ‹_›]
        · rw [if_neg ‹_›]
          exact hstep h
      · rw [if_neg ‹_›]
        exact hstep h

/-- The parts of a sequence around the partner of a bracket. -/
theorem exists_of_closing {o c : Char} {depth : Nat} {inside after : List α}
    (h : closing view o c depth xs = some (inside, after)) : ∃ x, view x = c ∧ xs = inside ++ x :: after := by
  induction xs generalizing depth inside with
  | nil => cases h
  | cons x xs ih =>
    have hstep : ∀ {d : Nat}, ((closing view o c d xs).map fun p => (x :: p.1, p.2)) = some (inside, after) →
        ∃ y, view y = c ∧ x :: xs = inside ++ y :: after := by
      intro d hd
      obtain ⟨⟨inside', after'⟩, hp, heq⟩ := Option.map_eq_some_iff.1 hd
      obtain ⟨rfl, rfl⟩ := Prod.mk.inj heq
      obtain ⟨y, hy, rfl⟩ := ih hp
      exact ⟨y, hy, rfl⟩
    rw [closing] at h
    split at h
    · exact hstep h
    · split at h
      · rename_i hx
        split at h
        · obtain ⟨rfl, rfl⟩ := Prod.mk.inj (Option.some.inj h)
          exact ⟨x, hx, rfl⟩
        · exact hstep h
      · exact hstep h

theorem closing_rest_suffix {o c : Char} {depth : Nat} {inside after : List α}
    (h : closing view o c depth xs = some (inside, after)) : after <:+ xs := by
  obtain ⟨x, -, rfl⟩ := exists_of_closing h
  exact ⟨inside ++ [x], by simp⟩

/-- A bracket without a partner in a part has it behind the part or not at all. -/
theorem prefix_of_closing {o c : Char} {depth : Nat} {inside after : List α} (h : closing view o c depth xs = none)
    (hall : closing view o c depth (xs ++ rest) = some (inside, after)) : xs <+: inside := by
  induction xs generalizing depth inside with
  | nil => exact List.nil_prefix
  | cons x xs ih =>
    have hstep : ∀ {d : Nat}, ((closing view o c d xs).map fun p => (x :: p.1, p.2)) = none →
        ((closing view o c d (xs ++ rest)).map fun p => (x :: p.1, p.2)) = some (inside, after) → x :: xs <+: inside := by
      intro d hnone hsome
      obtain ⟨⟨inside', after'⟩, hp, heq⟩ := Option.map_eq_some_iff.1 hsome
      obtain ⟨rfl, rfl⟩ := Prod.mk.inj heq
      exact List.cons_prefix_cons.2 ⟨rfl, ih (Option.map_eq_none_iff.1 hnone) hp⟩
    rw [closing] at h
    rw [List.cons_append, closing] at hall
    split at h
    · rw [if_pos ‹_›] at hall
      exact hstep h hall
    · rw [if_neg ‹_›] at hall
      split at h
      · rw [if_pos ‹_›] at hall
        split at h
        · cases h
        · rw [if_neg ‹_›] at hall
          exact hstep h hall
      · rw [if_neg ‹_›] at hall
        exact hstep h hall

/-! Items. -/

theorem itemsFrom_inside_append (h : Balanced view xs) {o : α} {close : Char} (hpair : closer? (view o) = some close)
    {depth : Nat} (hdepth : 1 ≤ depth) (read : List α) :
    itemsFrom view closer? (.inside o close depth read) (xs ++ rest) =
      itemsFrom view closer? (.inside o close depth (xs.reverse ++ read)) rest := by
  induction h generalizing depth read rest with
  | nil => rfl
  | plain hopen hclose _ ih =>
    rw [List.cons_append, itemsFrom, if_neg (plain_ne_opener hopen hpair), if_neg (plain_ne_closer hclose hpair),
      ih hdepth]
    simp
  | @group o' c' inside rest' hpair' _ _ ihinside ihrest =>
    rw [List.cons_append, List.append_assoc, List.cons_append, itemsFrom]
    by_cases hsame : view o' = view o
    · have hclose : view c' = close := by
        rw [hsame, hpair] at hpair'
        exact (Option.some.inj hpair').symm
      have hdeep : ¬ depth + 1 ≤ 1 := by omega
      rw [if_pos hsame, ihinside (by omega), itemsFrom, if_neg (hclose ▸ (opener_ne_closer hpair hpair).symm),
        if_pos hclose, if_neg hdeep, Nat.add_sub_cancel, ihrest hdepth]
      simp
    · have hclose : view c' ≠ close := fun heq => hsame (closer?_injective (heq ▸ hpair') hpair)
      rw [if_neg hsame, if_neg (opener_ne_closer hpair' hpair), ihinside hdepth, itemsFrom,
        if_neg (opener_ne_closer hpair hpair').symm, if_neg hclose, ihrest hdepth]
      simp

theorem items_plain {x : α} (hx : closer? (view x) = none) :
    items view closer? (x :: rest) = .single x :: items view closer? rest := by
  rw [items, itemsFrom, hx, items]

theorem items_group (h : Balanced view xs) {o c : α} (hpair : closer? (view o) = some (view c)) :
    items view closer? (o :: (xs ++ c :: rest)) = .group o xs c :: items view closer? rest := by
  rw [items, itemsFrom, hpair]
  simp only
  rw [itemsFrom_inside_append h hpair le_rfl, itemsFrom, if_neg (opener_ne_closer hpair hpair).symm, if_pos rfl,
    if_pos le_rfl, List.append_nil, List.reverse_reverse, items]

theorem items_append (h : Balanced view xs) :
    items view closer? (xs ++ rest) = items view closer? xs ++ items view closer? rest := by
  induction h with
  | nil => rfl
  | plain hopen _ _ ih => rw [List.cons_append, items_plain hopen, items_plain hopen, ih, List.cons_append]
  | group hpair hinside _ _ ih =>
    rw [List.cons_append, List.append_assoc, List.cons_append, items_group hinside hpair, items_group hinside hpair, ih,
      List.cons_append]

/-- Nothing of a balanced sequence is lost in its items. -/
theorem elements_items (h : Balanced view xs) : (items view closer? xs).flatMap Item.elements = xs := by
  induction h with
  | nil => rfl
  | plain hopen _ _ ih => rw [items_plain hopen, List.flatMap_cons, ih]; rfl
  | group hpair hinside _ _ ih =>
    rw [items_group hinside hpair, List.flatMap_cons, ih, Item.elements]
    simp

end WireLayout.Java
