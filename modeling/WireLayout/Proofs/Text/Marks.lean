import WireLayout.Proofs.Text.Chars
import WireLayout.Proofs.Text.Search

/-! Recognising steps before a mark. A character that is no space and no part of a word ends every run, so on a text
that ends with it a step reads the same whatever follows, and the search for matches can be split behind it. -/

namespace WireLayout.Text

variable {mark : Char} {cs ds rest w : List Char} {p : Char → Bool}

/-- A suffix that is left of a text ends as the text does. -/
theorem getLast?_of_suffix {α : Type} {xs ys : List α} {x : α} (hx : xs.getLast? = some x) (hs : ys <:+ xs)
    (hne : ys ≠ []) : ys.getLast? = some x := by
  obtain ⟨front, rfl⟩ := hs
  rwa [List.getLast?_append_of_ne_nil _ hne] at hx

theorem ne_nil_of_getLast? {α : Type} {xs : List α} {x : α} (hx : xs.getLast? = some x) : xs ≠ [] := by
  rintro rfl
  cases hx

/-- A run that ends within a text is the same whatever follows. -/
theorem span_local {α : Type} {q : α → Bool} {xs ys : List α} (hne : xs ≠ []) (hlast : ∀ x ∈ xs.getLast?, q x = false) :
    (xs ++ ys).takeWhile q = xs.takeWhile q ∧ (xs ++ ys).dropWhile q = xs.dropWhile q ++ ys := by
  induction xs with
  | nil => exact absurd rfl hne
  | cons x xs ih =>
    rw [List.cons_append]
    cases hx : q x with
    | false => simp [hx]
    | true =>
      have hxs : xs ≠ [] := by
        rintro rfl
        rw [hlast x rfl] at hx
        cases hx
      obtain ⟨htake, hdrop⟩ := ih hxs fun y hy => hlast y (by rw [List.getLast?_cons_of_ne_nil hxs]; exact hy)
      simp [hx, htake, hdrop]

theorem span_before_mark (hlast : cs.getLast? = some mark) (hmark : p mark = false) :
    (cs ++ ds).takeWhile p = cs.takeWhile p ∧ (cs ++ ds).dropWhile p = cs.dropWhile p ++ ds :=
  span_local (ne_nil_of_getLast? hlast) fun x hx => by
    rw [hlast] at hx
    rw [← Option.some.inj hx]
    exact hmark

theorem getLast?_dropWhile (hlast : cs.getLast? = some mark) (hmark : p mark = false) :
    (cs.dropWhile p).getLast? = some mark := by
  refine getLast?_of_suffix hlast (List.dropWhile_suffix p) fun hnil => ?_
  have hall := List.dropWhile_eq_nil_iff.1 hnil mark (List.mem_of_mem_getLast? hlast)
  rw [hmark] at hall
  cases hall

theorem literal?_before_mark {l : List Char} (hlast : cs.getLast? = some mark) (hmark : mark ∉ l.dropLast) :
    literal? l (cs ++ ds) = (literal? l cs).map (· ++ ds) := by
  induction l generalizing cs with
  | nil => rfl
  | cons x l ih =>
    cases cs with
    | nil => cases hlast
    | cons c cs =>
      rw [List.cons_append, literal?, literal?]
      split
      · rename_i hxc
        cases l with
        | nil => rfl
        | cons y l =>
          rw [List.dropLast_cons_of_ne_nil (List.cons_ne_nil y l), List.mem_cons, not_or] at hmark
          have hcs : cs ≠ [] := by
            rintro rfl
            exact hmark.1 ((Option.some.inj hlast).symm.trans hxc.symm)
          rw [List.getLast?_cons_of_ne_nil hcs] at hlast
          exact ih hlast hmark.2
      · rfl

/-- What a literal without the mark leaves still ends with it. -/
theorem getLast?_of_literal? {l : List Char} (hlast : cs.getLast? = some mark) (hmark : mark ∉ l)
    (h : literal? l cs = some rest) : rest.getLast? = some mark := by
  refine getLast?_of_suffix hlast (literal?_suffix h) ?_
  rintro rfl
  rw [literal?_eq_some_iff.1 h, List.append_nil] at hlast
  exact hmark (List.mem_of_mem_getLast? hlast)

theorem run?_before_mark (hlast : cs.getLast? = some mark) (hmark : p mark = false) :
    run? p (cs ++ ds) = (run? p cs).map fun q => (q.1, q.2 ++ ds) := by
  obtain ⟨htake, hdrop⟩ : _ ∧ (cs ++ ds).dropWhile p = _ := span_before_mark hlast hmark
  rw [run?, run?, htake, hdrop]
  split <;> rfl

theorem getLast?_of_run? (hlast : cs.getLast? = some mark) (hmark : p mark = false) (h : run? p cs = some (w, rest)) :
    rest.getLast? = some mark := by
  rw [run?, Option.ite_none_left_eq_some] at h
  rw [← (Prod.mk.inj (Option.some.inj h.2)).2]
  exact getLast?_dropWhile hlast hmark

theorem spaces?_before_mark (hlast : cs.getLast? = some mark) (hmark : isSpace mark = false) :
    spaces? (cs ++ ds) = (spaces? cs).map (· ++ ds) := by
  rw [spaces?, spaces?, run?_before_mark hlast hmark, Option.map_map, Option.map_map]
  rfl

theorem getLast?_of_spaces? (hlast : cs.getLast? = some mark) (hmark : isSpace mark = false)
    (h : spaces? cs = some rest) : rest.getLast? = some mark := by
  obtain ⟨q, hq, rfl⟩ := Option.map_eq_some_iff.1 h
  exact getLast?_of_run? hlast hmark hq

theorem skipSpaces_before_mark (hlast : cs.getLast? = some mark) (hmark : isSpace mark = false) :
    skipSpaces (cs ++ ds) = skipSpaces cs ++ ds :=
  (span_before_mark hlast hmark).2

theorem token?_before_mark {l : String} (hlast : cs.getLast? = some mark) (hmark : isSpace mark = false)
    (hl : mark ∉ l.toList.dropLast) : token? l (cs ++ ds) = (token? l cs).map (· ++ ds) := by
  have hend : (skipSpaces cs).getLast? = some mark := getLast?_dropWhile hlast hmark
  rw [token?, token?, skipSpaces_before_mark hlast hmark, literal?_before_mark hend hl]

theorem getLast?_of_token? {l : String} (hlast : cs.getLast? = some mark) (hmark : isSpace mark = false)
    (hl : mark ∉ l.toList) (h : token? l cs = some rest) : rest.getLast? = some mark :=
  getLast?_of_literal? (getLast?_dropWhile hlast hmark) hl h

theorem isWordOrDollar_of_isNameStart {c : Char} (h : isNameStart c = true) : isWordOrDollar c = true := by
  refine isWordOrDollar_of_isIdent ?_
  simp only [isNameStart, isIdent, Bool.or_eq_true, decide_eq_true_eq] at h ⊢
  tauto

theorem name?_before_mark (hlast : cs.getLast? = some mark) (hmark : isWordOrDollar mark = false) :
    name? (cs ++ ds) = (name? cs).map fun q => (q.1, q.2 ++ ds) := by
  cases cs with
  | nil => cases hlast
  | cons c cs =>
    rw [List.cons_append, name?, name?]
    split
    · rename_i hc
      have hcs : cs ≠ [] := by
        rintro rfl
        have hword := isWordOrDollar_of_isNameStart hc
        rw [show c = mark from Option.some.inj hlast, hmark] at hword
        cases hword
      rw [List.getLast?_cons_of_ne_nil hcs] at hlast
      obtain ⟨htake, hdrop⟩ : _ ∧ (cs ++ ds).dropWhile isWordOrDollar = _ := span_before_mark hlast hmark
      rw [htake, hdrop]
      rfl
    · rfl

theorem name?_suffix {c : List Char × List Char} (h : name? cs = some c) : c.2 <:+ cs := by
  cases cs with
  | nil => cases h
  | cons d cs =>
    rw [name?, Option.ite_none_right_eq_some] at h
    rw [← Option.some.inj h.2]
    exact (List.dropWhile_suffix _).trans (List.suffix_cons d cs)

/-! The search for all matches. -/

section

variable {β : Type} {step : List Char → List Char → Option (β × List Char)} {before : List Char}

/-- What still belongs to the previous match is passed over. -/
theorem matchesFrom_append_skip (pre before rest : List Char) :
    matchesFrom step pre.length before (pre ++ rest) = matchesFrom step 0 (pre.reverse ++ before) rest := by
  induction pre generalizing before with
  | nil => rfl
  | cons c pre ih => simpa [matchesFrom] using ih (c :: before)

theorem matchesFrom_of_none {c : Char} {before rest : List Char} (h : step before (c :: rest) = none) :
    matchesFrom step 0 before (c :: rest) = matchesFrom step 0 (c :: before) rest := by
  rw [matchesFrom, h]

theorem matchesFrom_of_some {c : Char} {pre before rest : List Char} {found : β}
    (h : step before (c :: (pre ++ rest)) = some (found, rest)) :
    matchesFrom step 0 before (c :: (pre ++ rest)) =
      found :: matchesFrom step 0 (pre.reverse ++ c :: before) rest := by
  rw [matchesFrom, h]
  simp only [List.length_append, Nat.add_sub_cancel]
  rw [matchesFrom_append_skip]

theorem matchesFrom_silent (h : ∀ u c v, cs = u ++ c :: v → step (u.reverse ++ before) (c :: (v ++ rest)) = none) :
    matchesFrom step 0 before (cs ++ rest) = matchesFrom step 0 (cs.reverse ++ before) rest := by
  induction cs generalizing before with
  | nil => rfl
  | cons c cs ih =>
    have hnext := @ih (c :: before) fun u d v heq => by
      simpa using h (c :: u) d v (by rw [heq]; rfl)
    have hhere : step before (c :: (cs ++ rest)) = none := h [] c cs rfl
    rw [List.cons_append, matchesFrom_of_none hhere, hnext]
    simp

theorem matchesFrom_eq_nil_iff :
    matchesFrom step 0 before cs = [] ↔ ∀ u c v, cs = u ++ c :: v → step (u.reverse ++ before) (c :: v) = none := by
  induction cs generalizing before with
  | nil => simp [matchesFrom]
  | cons c cs ih =>
    refine ⟨fun h u d v heq => ?_, fun h => ?_⟩
    · cases hc : step before (c :: cs) with
      | some p =>
        rw [matchesFrom, hc] at h
        cases h
      | none =>
        rw [matchesFrom_of_none hc] at h
        cases u with
        | nil =>
          obtain ⟨rfl, rfl⟩ := List.cons.inj heq
          exact hc
        | cons x u =>
          obtain ⟨rfl, rfl⟩ := List.cons.inj heq
          simpa using ih.1 h u d v rfl
    · have hhere : step before (c :: cs) = none := h [] c cs rfl
      rw [matchesFrom_of_none hhere, ih]
      intro u d v heq
      simpa using h (c :: u) d v (by rw [heq]; rfl)

/-- A step that looks no further than a mark. -/
def LocalTo (mark : Char) (step : List Char → List Char → Option (β × List Char)) : Prop :=
  ∀ before cs ds, cs.getLast? = some mark → step before (cs ++ ds) = (step before cs).map fun p => (p.1, p.2 ++ ds)

/-- The search splits behind a mark, by induction on the text before it. What a step finds before the mark may depend on
what follows it, as `extend` says. -/
theorem matchesFrom_mark_map {extend : β → β}
    (h : ∀ before cs, cs.getLast? = some mark → step before (cs ++ ds) = (step before cs).map fun p => (extend p.1, p.2 ++ ds))
    (hlast : ∀ c ∈ cs.getLast?, c = mark) {skip : Nat} (hskip : skip ≤ cs.length) :
    matchesFrom step skip before (cs ++ ds) =
      (matchesFrom step skip before cs).map extend ++ matchesFrom step 0 (cs.reverse ++ before) ds := by
  induction cs generalizing skip before with
  | nil =>
    obtain rfl : skip = 0 := by simpa using hskip
    rfl
  | cons c cs ih =>
    have hcs : ∀ d ∈ cs.getLast?, d = mark := by
      intro d hd
      exact hlast d (by rw [List.getLast?_cons_of_ne_nil (List.ne_nil_of_mem (List.mem_of_mem_getLast? hd))]; exact hd)
    have hstep : ∀ {skip : Nat}, skip ≤ cs.length → matchesFrom step skip (c :: before) (cs ++ ds) =
        (matchesFrom step skip (c :: before) cs).map extend ++ matchesFrom step 0 ((c :: cs).reverse ++ before) ds := by
      intro skip hskip
      rw [ih hcs hskip]
      simp
    cases skip with
    | succ skip => exact hstep (by simpa using hskip)
    | zero =>
      obtain ⟨d, hd⟩ : ∃ d, (c :: cs).getLast? = some d := ⟨_, List.getLast?_eq_some_getLast (List.cons_ne_nil c cs)⟩
      have hlocal := h before (c :: cs) (by rw [hd, hlast d hd])
      rw [List.cons_append] at hlocal ⊢
      rw [matchesFrom, matchesFrom, hlocal]
      cases hc : step before (c :: cs) with
      | none => exact hstep (Nat.zero_le _)
      | some p =>
        have hskip : (cs ++ ds).length - (p.2 ++ ds).length = cs.length - p.2.length := by
          simp only [List.length_append]
          omega
        simp only [Option.map_some, hskip, List.map_cons, List.cons_append]
        rw [hstep (Nat.sub_le _ _)]

theorem matchesFrom_mark (h : LocalTo mark step) (hlast : ∀ c ∈ cs.getLast?, c = mark) {skip : Nat}
    (hskip : skip ≤ cs.length) :
    matchesFrom step skip before (cs ++ ds) =
      matchesFrom step skip before cs ++ matchesFrom step 0 (cs.reverse ++ before) ds := by
  have hstep : ∀ before cs, cs.getLast? = some mark →
      step before (cs ++ ds) = (step before cs).map fun p => (id p.1, p.2 ++ ds) := fun before cs => h before cs ds
  rw [matchesFrom_mark_map hstep hlast hskip, List.map_id]

/-- Of the text before it a step sees the last character only. -/
def SeesLast (step : List Char → List Char → Option (β × List Char)) : Prop :=
  ∀ before before' cs, before.head? = before'.head? → step before cs = step before' cs

theorem matchesFrom_congr (h : SeesLast step) {before' : List Char} (hhead : before.head? = before'.head?) {skip : Nat} :
    matchesFrom step skip before cs = matchesFrom step skip before' cs := by
  induction cs generalizing skip before before' with
  | nil => rfl
  | cons c cs ih =>
    have hnext : ∀ {skip : Nat}, matchesFrom step skip (c :: before) cs = matchesFrom step skip (c :: before') cs := by
      intro skip
      apply ih
      rfl
    cases skip with
    | succ skip => exact hnext
    | zero =>
      rw [matchesFrom, matchesFrom, h before before' (c :: cs) hhead]
      cases step before' (c :: cs) with
      | none => exact hnext
      | some p => simp only [hnext]

end

end WireLayout.Text
