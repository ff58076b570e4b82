import WireLayout.Proofs.Text.Marks

/-! The search for matches that begin with words. A step that matches inside of a word only if it matches at the
beginning of it, and whose matches hide no other place where it would match, is found at the beginnings of words and
nowhere else: the search is followed from word to word. Names are read as a whole, up to the mark that follows them. -/

namespace WireLayout.Text

variable {β : Type} {step : List Char → List Char → Option (β × List Char)} {before cs w gap rest after shown u v : List Char}
  {c : Char} {found : β}

/-- A match at the beginning of a word of the text. -/
def WordMatch (step : List Char → List Char → Option (β × List Char)) (before cs : List Char) (found : β) : Prop :=
  ∃ u v rest, cs = u ++ v ∧ Stops isWordOrDollar (u.reverse ++ before) ∧ step (u.reverse ++ before) v = some (found, rest)

theorem wordMatch_cons :
    WordMatch step before (c :: cs) found ↔
      (Stops isWordOrDollar before ∧ ∃ rest, step before (c :: cs) = some (found, rest)) ∨
        WordMatch step (c :: before) cs found := by
  constructor
  · rintro ⟨u, v, rest, heq, hstop, hstep⟩
    cases u with
    | nil =>
      obtain rfl : c :: cs = v := heq
      exact .inl ⟨hstop, rest, hstep⟩
    | cons d u =>
      obtain ⟨rfl, rfl⟩ := List.cons.inj heq
      exact .inr ⟨u, v, rest, rfl, by simpa using hstop, by simpa using hstep⟩
  · rintro (⟨hstop, rest, hstep⟩ | ⟨u, v, rest, rfl, hstop, hstep⟩)
    · exact ⟨[], c :: cs, rest, rfl, hstop, hstep⟩
    · exact ⟨c :: u, v, rest, rfl, by simpa using hstop, by simpa using hstep⟩

/-- A part without a match at the beginning of a word is passed over. -/
theorem wordMatch_append (h : ∀ u v, w = u ++ v → v ≠ [] → Stops isWordOrDollar (u.reverse ++ before) →
    step (u.reverse ++ before) (v ++ cs) = none) :
    WordMatch step before (w ++ cs) found ↔ WordMatch step (w.reverse ++ before) cs found := by
  induction w generalizing before with
  | nil => rfl
  | cons c w ih =>
    have hhere : ¬(Stops isWordOrDollar before ∧ ∃ rest, step before (c :: (w ++ cs)) = some (found, rest)) := by
      rintro ⟨hstop, rest, hstep⟩
      have hnone : step before (c :: (w ++ cs)) = none := h [] (c :: w) rfl (by simp) hstop
      rw [hnone] at hstep
      cases hstep
    have hnext := @ih (c :: before) fun u v heq hv hstop => by
      simpa using h (c :: u) v (by rw [heq]; rfl) hv (by simpa using hstop)
    rw [List.cons_append, wordMatch_cons, or_iff_right hhere, hnext]
    simp

/-- What makes a step one that is found at the beginnings of words: it matches at words only, it matches at the
beginning of a word if it matches inside of it, and within a match it matches at no other word. -/
structure FindsWords (step : List Char → List Char → Option (β × List Char)) (shown : List Char) : Prop where
  word : ∀ before cs, Stops isWordOrDollar cs → step before cs = none
  inner : ∀ before w cs, shown = before.reverse ++ (w ++ cs) → Stops isWordOrDollar before → w ≠ [] →
    (∀ c ∈ w, isWordOrDollar c = true) → (step (w.reverse ++ before) cs).isSome = true →
      (step before (w ++ cs)).isSome = true
  clear : ∀ before cs found rest, step before cs = some (found, rest) →
    ∃ m, cs = m ++ rest ∧ m ≠ [] ∧ Stops isWordOrDollar m.reverse ∧
      ∀ u v, m = u ++ v → u ≠ [] → v ≠ [] → Stops isWordOrDollar u.reverse →
        ∀ before, step before (v ++ rest) = none

theorem stops_append (hne : u ≠ []) {p : Char → Bool} : Stops p (u ++ v) ↔ Stops p u := by
  rw [Stops, Stops, List.head?_append_of_ne_nil u hne]

theorem not_stops_reverse (hne : u ≠ []) {p : Char → Bool} (h : ∀ c ∈ u, p c = true) : ¬Stops p u.reverse := by
  intro hstop
  obtain ⟨c, hc⟩ : ∃ c, u.getLast? = some c := ⟨_, List.getLast?_eq_some_getLast hne⟩
  have hfalse := hstop c (by rw [List.head?_reverse]; exact hc)
  rw [h c (List.mem_of_mem_getLast? hc)] at hfalse
  cases hfalse

/-- Nothing matches in a word that does not match at its beginning. -/
theorem FindsWords.silent (h : FindsWords step shown) (hshown : shown = before.reverse ++ (w ++ rest))
    (hstop : Stops isWordOrDollar before) (hw : ∀ c ∈ w, isWordOrDollar c = true) (hnone : step before (w ++ rest) = none) :
    ∀ u v, w = u ++ v → step (u.reverse ++ before) (v ++ rest) = none := by
  rintro u v rfl
  by_contra hsome
  cases u with
  | nil => exact hsome hnone
  | cons x u =>
    have hhead := h.inner before (x :: u) (v ++ rest) (by rw [hshown, List.append_assoc]) hstop (by simp)
      (fun y hy => hw y (List.mem_append_left v hy)) (Option.isSome_iff_ne_none.2 hsome)
    rw [← List.append_assoc, hnone] at hhead
    cases hhead

theorem exists_word (cs : List Char) :
    ∃ w after, cs = w ++ after ∧ (∀ c ∈ w, isWordOrDollar c = true) ∧ Stops isWordOrDollar after := by
  refine ⟨cs.takeWhile isWordOrDollar, cs.dropWhile isWordOrDollar, List.takeWhile_append_dropWhile.symm,
    fun c hc => List.mem_takeWhile_imp hc, fun c hc => ?_⟩
  have hnot := List.head?_dropWhile_not isWordOrDollar cs
  rw [Option.mem_def.1 hc] at hnot
  simpa using hnot

theorem exists_word_of_head (cs : List Char) (hc : isWordOrDollar c = true) :
    ∃ w after, c :: cs = w ++ after ∧ w ≠ [] ∧ (∀ d ∈ w, isWordOrDollar d = true) ∧ Stops isWordOrDollar after := by
  obtain ⟨w, after, hcs, hw, hafter⟩ := exists_word (c :: cs)
  refine ⟨w, after, hcs, ?_, hw, hafter⟩
  rintro rfl
  rw [List.nil_append] at hcs
  rw [← hcs, stops_cons, hc] at hafter
  cases hafter

/-- Behind a match there is no word of it left, and within it nothing else matches at a word. -/
theorem FindsWords.behind (h : FindsWords step shown) {g : β} (hstep : step before (c :: cs) = some (g, rest)) :
    ∃ m, cs = m ++ rest ∧ Stops isWordOrDollar (m.reverse ++ c :: before) ∧
      ∀ found, WordMatch step (c :: before) cs found ↔ WordMatch step (m.reverse ++ c :: before) rest found := by
  obtain ⟨m, hm, hne, hend, hclear⟩ := h.clear before (c :: cs) g rest hstep
  obtain ⟨d, m, rfl⟩ := List.exists_cons_of_ne_nil hne
  obtain ⟨rfl, rfl⟩ : c = d ∧ cs = m ++ rest := by simpa using hm
  rw [List.reverse_cons] at hend
  refine ⟨m, rfl, ?_, fun found => wordMatch_append fun u v heq hv hu => ?_⟩
  · rwa [← List.singleton_append, ← List.append_assoc, stops_append (by simp)]
  · refine hclear (c :: u) v (by rw [heq]; rfl) (by simp) hv ?_ _
    rwa [← List.singleton_append, ← List.append_assoc, stops_append (by simp), ← List.reverse_cons] at hu

/-- Between words the search goes on, and no word begins. -/
theorem FindsWords.mem_between (h : FindsWords step shown) (hc : isWordOrDollar c = false)
    (hnext : found ∈ matchesFrom step 0 (c :: before) cs ↔ WordMatch step (c :: before) cs found) :
    found ∈ matchesFrom step 0 before (c :: cs) ↔ WordMatch step before (c :: cs) found := by
  have hnone : step before (c :: cs) = none := h.word before (c :: cs) (by simpa using hc)
  rw [matchesFrom_of_none hnone, wordMatch_cons, hnone, hnext]
  simp

/-- A word at which nothing matches is passed over, by the search and by the matches at words. -/
theorem FindsWords.mem_silent (h : FindsWords step shown) (hshown : shown = before.reverse ++ (w ++ rest))
    (hstop : Stops isWordOrDollar before) (hw : ∀ c ∈ w, isWordOrDollar c = true) (hnone : step before (w ++ rest) = none)
    (hnext : found ∈ matchesFrom step 0 (w.reverse ++ before) rest ↔ WordMatch step (w.reverse ++ before) rest found) :
    found ∈ matchesFrom step 0 before (w ++ rest) ↔ WordMatch step before (w ++ rest) found := by
  have hsilent := h.silent hshown hstop hw hnone
  rw [matchesFrom_silent fun u x v heq => hsilent u (x :: v) heq, wordMatch_append fun u v heq _ _ => hsilent u v heq,
    hnext]

/-- The search finds the matches at the beginnings of words, by induction on the length of the text that is left; that
text begins a word, or follows one, or stands between words. -/
theorem mem_matchesFrom_iff (h : FindsWords step shown) :
    ∀ n before cs, cs.length ≤ n → shown = before.reverse ++ cs →
      (Stops isWordOrDollar before ∨ Stops isWordOrDollar cs) →
        (found ∈ matchesFrom step 0 before cs ↔ WordMatch step before cs found) := by
  intro n
  induction n with
  | zero =>
    intro before cs hlen _ _
    obtain rfl : cs = [] := by simpa using hlen
    refine iff_of_false (by simp [matchesFrom]) ?_
    rintro ⟨u, v, rest, heq, -, hstep⟩
    obtain ⟨rfl, rfl⟩ := List.append_eq_nil_iff.1 heq.symm
    rw [h.word _ [] stops_nil] at hstep
    cases hstep
  | succ n ih =>
    intro before cs hlen hshown hedge
    cases cs with
    | nil => exact ih before [] (by simp) hshown hedge
    | cons c cs =>
      cases hword : isWordOrDollar c with
      | false =>
        exact h.mem_between hword
          (ih (c :: before) cs (by simpa using hlen) (by simpa using hshown) (.inl (by simpa using hword)))
      | true =>
        have hstop : Stops isWordOrDollar before := hedge.resolve_right (by simp [hword])
        cases hstep : step before (c :: cs) with
        | some p =>
          obtain ⟨g, rest⟩ := p
          obtain ⟨m, rfl, hend, hpast⟩ := h.behind hstep
          have hrest := ih (m.reverse ++ c :: before) rest (by simp at hlen; omega) (by simp [hshown]) (.inl hend)
          rw [matchesFrom_of_some hstep, List.mem_cons, hrest, wordMatch_cons, hstep, hpast]
          simp [hstop, eq_comm]
        | none =>
          obtain ⟨w, after, hcs, hne, hw, hafter⟩ := exists_word_of_head cs hword
          have hlong : after.length ≤ n := by
            have hlength := congrArg List.length hcs
            have hpos := List.length_pos_iff.2 hne
            simp only [List.length_cons, List.length_append] at hlength hlen
            omega
          rw [hcs] at hstep hshown ⊢
          exact h.mem_silent hshown hstop hw hstep (ih _ after hlong (by simp [hshown]) (.inr hafter))

theorem mem_allMatches_iff (h : FindsWords step shown) :
    found ∈ allMatches step shown ↔ WordMatch step [] shown found :=
  mem_matchesFrom_iff h _ [] shown le_rfl rfl (.inl stops_nil)

/-- Behind a word and what separates it from the next one. -/
theorem beyond_word (hw : ∀ c ∈ w, isWordOrDollar c = true) (hgap : ∀ c ∈ gap, isWordOrDollar c = false)
    (heq : w ++ (gap ++ rest) = u ++ v) (hu : u ≠ []) (hstop : Stops isWordOrDollar u.reverse)
    (hv : ¬Stops isWordOrDollar v) : ∃ u', u = w ++ (gap ++ u') ∧ rest = u' ++ v := by
  rcases List.append_eq_append_iff.1 heq with ⟨a, rfl, htail⟩ | ⟨a, rfl, -⟩
  · rcases List.append_eq_append_iff.1 htail with ⟨b, rfl, rfl⟩ | ⟨b, rfl, rfl⟩
    · exact ⟨b, rfl, rfl⟩
    · cases b with
      | nil => exact ⟨[], by simp, rfl⟩
      | cons x b => exact absurd (stops_cons.2 (hgap x (by simp))) hv
  · exact absurd hstop (not_stops_reverse hu fun c hc => hw c (List.mem_append_left a hc))

/-! Whole names, and the marks behind them. -/

/-- A whole name: it begins as an identifier does and goes on with characters of words and dollars. -/
structure WholeName (w : List Char) : Prop where
  head : ∃ c ∈ w.head?, isNameStart c = true
  chars : ∀ c ∈ w, isWordOrDollar c = true

theorem WholeName.ne_nil (h : WholeName w) : w ≠ [] := by
  rintro rfl
  obtain ⟨c, hc, -⟩ := h.head
  cases hc

theorem WholeName.not_stops (h : WholeName w) : ¬Stops isWordOrDollar (w ++ rest) := by
  obtain ⟨c, hc, hstart⟩ := h.head
  rw [stops_append h.ne_nil]
  intro hstop
  have hword := isWordOrDollar_of_isNameStart hstart
  rw [hstop c hc] at hword
  cases hword

theorem name?_eq_some_iff : name? cs = some (w, after) ↔ cs = w ++ after ∧ WholeName w ∧ Stops isWordOrDollar after := by
  constructor
  · intro h
    cases cs with
    | nil => cases h
    | cons c cs =>
      rw [name?, Option.ite_none_right_eq_some] at h
      obtain ⟨hstart, heq⟩ := h
      obtain ⟨rfl, rfl⟩ := Prod.mk.inj (Option.some.inj heq)
      refine ⟨by rw [List.cons_append, List.takeWhile_append_dropWhile], ⟨⟨c, rfl, hstart⟩, ?_⟩, fun d hd => ?_⟩
      · exact List.forall_mem_cons.2 ⟨isWordOrDollar_of_isNameStart hstart, fun d hd => List.mem_takeWhile_imp hd⟩
      · have hnot := List.head?_dropWhile_not isWordOrDollar cs
        rw [Option.mem_def.1 hd] at hnot
        simpa using hnot
  · rintro ⟨rfl, hname, hstop⟩
    obtain ⟨c, w, rfl⟩ := List.exists_cons_of_ne_nil hname.ne_nil
    obtain ⟨d, hd, hstart⟩ := hname.head
    obtain rfl : c = d := Option.some.inj hd
    have hw := (List.forall_mem_cons.1 hname.chars).2
    rw [List.cons_append, name?, if_pos hstart, takeWhile_append_of_stops hw hstop, dropWhile_append_of_stops hw hstop]

theorem token?_mark {l : String} {mark : Char} (hl : l.toList = [mark]) (hmark : isSpace mark = false) :
    token? l cs = some rest ↔ ∃ gap, (∀ c ∈ gap, isSpace c = true) ∧ cs = gap ++ mark :: rest := by
  rw [token?_eq_some_iff, hl]
  constructor
  · intro h
    refine ⟨cs.takeWhile isSpace, fun c hc => List.mem_takeWhile_imp hc, ?_⟩
    rw [show mark :: rest = skipSpaces cs from h.symm, skipSpaces, List.takeWhile_append_dropWhile]
  · rintro ⟨gap, hgap, rfl⟩
    rw [skipSpaces, dropWhile_append_of_stops hgap (stops_cons.2 hmark)]
    rfl

theorem isWordOrDollar_of_isSpace (h : isSpace c = true) : isWordOrDollar c = false := by
  by_contra hword
  rw [isSpace_of_isWordOrDollar (by simpa using hword)] at h
  cases h

theorem stops_gap {mark : Char} (rest : List Char) (hgap : ∀ c ∈ gap, isSpace c = true)
    (hmark : isWordOrDollar mark = false) : Stops isWordOrDollar (gap ++ mark :: rest) := by
  cases gap with
  | nil => exact stops_cons.2 hmark
  | cons c gap => exact stops_cons.2 (isWordOrDollar_of_isSpace (hgap c List.mem_cons_self))

theorem forall_mem_gap {mark : Char} (hgap : ∀ c ∈ gap, isSpace c = true) (hmark : isWordOrDollar mark = false)
    (hrest : ∀ c ∈ rest, isSpace c = true) : ∀ c ∈ gap ++ mark :: rest, isWordOrDollar c = false := by
  simp only [List.mem_append, List.mem_cons]
  rintro c (hc | rfl | hc)
  · exact isWordOrDollar_of_isSpace (hgap c hc)
  · exact hmark
  · exact isWordOrDollar_of_isSpace (hrest c hc)

theorem head?_skipSpaces_gap {mark : Char} (rest : List Char) (hgap : ∀ c ∈ gap, isSpace c = true)
    (hmark : isSpace mark = false) : (skipSpaces (gap ++ mark :: rest)).head? = some mark := by
  rw [skipSpaces, dropWhile_append_of_stops hgap (stops_cons.2 hmark)]
  rfl

theorem exists_gap {mark : Char} (h : (skipSpaces cs).head? = some mark) :
    ∃ gap rest, (∀ c ∈ gap, isSpace c = true) ∧ cs = gap ++ mark :: rest := by
  obtain ⟨rest, hrest⟩ := List.head?_eq_some_iff.1 h
  refine ⟨cs.takeWhile isSpace, rest, fun c hc => List.mem_takeWhile_imp hc, ?_⟩
  rw [← hrest, skipSpaces, List.takeWhile_append_dropWhile]

theorem WholeName.ne_space (h : WholeName w) : ∀ c ∈ w, c ≠ ' ' := by
  rintro c hc rfl
  have hword := h.chars ' ' hc
  rw [isWordOrDollar_space] at hword
  cases hword

end WireLayout.Text
