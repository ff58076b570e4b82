import WireLayout.Proofs.Text.Search

/-! The words of a text, and the text with single spaces between them. A word is what stands between spaces, so that
spaces in front, behind and between change nothing; a mark that is no space joins the word before it and the one
behind it, and leaves all others as they are. -/

namespace WireLayout.Text

variable {as bs cs front text w : List Char} {s mark : Char}

/-! Reading a word. -/

/-- The word that is being read goes on in the text, and the other words are those of the text itself. -/
theorem exists_wordsFrom (text : List Char) :
    ∃ more ws, (∀ word ≠ [], wordsFrom word text = (word.reverse ++ more) :: ws) ∧
      words text = (if more = [] then [] else [more]) ++ ws := by
  induction text with
  | nil => exact ⟨[], [], fun word hword => by simp [wordsFrom, hword], rfl⟩
  | cons c text ih =>
    obtain ⟨more, ws, hwords, -⟩ := ih
    cases hc : isSpace c with
    | true =>
      refine ⟨[], words text, fun word hword => ?_, ?_⟩
      · simp [wordsFrom, hc, hword, words]
      · simp [words, wordsFrom, hc]
    | false =>
      refine ⟨c :: more, ws, fun word _ => ?_, ?_⟩
      · rw [wordsFrom, if_neg (by simp [hc]), hwords _ (List.cons_ne_nil c word)]
        simp
      · rw [words, wordsFrom, if_neg (by simp [hc]), hwords _ (List.cons_ne_nil c [])]
        simp

theorem wordsFrom_append_of_isSpace (hs : isSpace s = true) (word : List Char) :
    wordsFrom word (as ++ s :: bs) = wordsFrom word as ++ words bs := by
  induction as generalizing word with
  | nil =>
    rw [List.nil_append, wordsFrom, wordsFrom, words]
    cases word <;> simp [hs]
  | cons a as ih =>
    rw [List.cons_append, wordsFrom, wordsFrom]
    split
    · split
      · exact ih []
      · rw [ih, List.cons_append]
    · exact ih _

theorem wordsFrom_blank {word : List Char} {xs : List Char} (h : ∀ x ∈ xs, x = ' ') (rest : List Char) :
    wordsFrom word (' ' :: (xs ++ rest)) = wordsFrom word (' ' :: rest) := by
  induction xs generalizing word with
  | nil => rfl
  | cons x xs ih =>
    obtain rfl := h x List.mem_cons_self
    have hrest : wordsFrom [] (' ' :: (xs ++ rest)) = wordsFrom [] (' ' :: rest) :=
      ih fun y hy => h y (List.mem_cons_of_mem _ hy)
    have hspace : isSpace ' ' = true := by decide
    cases word with
    | nil => rw [wordsFrom]; simpa [hspace] using hrest
    | cons y word =>
      rw [wordsFrom, wordsFrom]
      simpa [hspace, wordsFrom] using hrest

theorem wordsFrom_unspaced {word : List Char} (h : ∀ c ∈ cs, isSpace c = false) (hne : word ≠ [] ∨ cs ≠ []) :
    wordsFrom word cs = [word.reverse ++ cs] := by
  induction cs generalizing word with
  | nil =>
    rw [wordsFrom, if_neg (by simpa using hne), List.append_nil]
  | cons c cs ih =>
    rw [wordsFrom, h c List.mem_cons_self]
    simp only [Bool.false_eq_true, if_false]
    rw [ih (fun d hd => h d (List.mem_cons_of_mem c hd)) (.inl (List.cons_ne_nil c word))]
    simp

theorem mem_wordsFrom {word : List Char} (hword : ∀ c ∈ word, isSpace c = false) :
    ∀ w ∈ wordsFrom word cs, w ≠ [] ∧ ∀ c ∈ w, isSpace c = false := by
  induction cs generalizing word with
  | nil =>
    intro w hw
    rw [wordsFrom] at hw
    split at hw
    · cases hw
    · rename_i hne
      obtain rfl := List.mem_singleton.1 hw
      exact ⟨by simpa using hne, fun c hc => hword c (List.mem_reverse.1 hc)⟩
  | cons c cs ih =>
    intro w hw
    rw [wordsFrom] at hw
    split at hw
    · split at hw
      · exact ih (by simp) w hw
      · rename_i hne
        rcases List.mem_cons.1 hw with rfl | hw
        · exact ⟨by simpa using hne, fun c hc => hword c (List.mem_reverse.1 hc)⟩
        · exact ih (by simp) w hw
    · rename_i hspace
      exact ih (by simpa [hspace] using hword) w hw

theorem flatten_wordsFrom (word : List Char) :
    (wordsFrom word cs).flatten = word.reverse ++ cs.filter fun c => !isSpace c := by
  induction cs generalizing word with
  | nil => cases word <;> simp [wordsFrom]
  | cons c cs ih =>
    rw [wordsFrom]
    cases hc : isSpace c with
    | true => cases word <;> simp [ih, hc]
    | false => simp [ih, hc]

/-! Words. -/

theorem of_mem_words (h : w ∈ words cs) : w ≠ [] ∧ ∀ c ∈ w, isSpace c = false := mem_wordsFrom (by simp) w h

theorem words_append_of_isSpace (hs : isSpace s = true) : words (as ++ s :: bs) = words as ++ words bs :=
  wordsFrom_append_of_isSpace hs []

theorem words_append_space : words (as ++ ' ' :: bs) = words as ++ words bs := words_append_of_isSpace rfl

theorem words_append_of_space (h : ∀ c ∈ front, isSpace c = true) : words (front ++ text) = words text := by
  induction front with
  | nil => rfl
  | cons c front ih =>
    rw [← ih fun d hd => h d (List.mem_cons_of_mem c hd), List.cons_append, words, wordsFrom,
      if_pos (h c List.mem_cons_self)]
    rfl

theorem words_unspaced (h : ∀ c ∈ cs, isSpace c = false) (hne : cs ≠ []) : words cs = [cs] :=
  wordsFrom_unspaced h (.inr hne)

/-- A text that begins with no space begins with its first word. -/
theorem exists_words {c : Char} (h : isSpace c = false) (text : List Char) :
    ∃ w ws, words (c :: text) = (c :: w) :: ws := by
  obtain ⟨more, ws, hwords, -⟩ := exists_wordsFrom text
  refine ⟨more, ws, ?_⟩
  rw [words, wordsFrom, h, if_neg Bool.false_ne_true, hwords _ (List.cons_ne_nil c [])]
  rfl

/-- A mark joins the last word before it and the first one behind it. -/
theorem words_mark (hmark : isSpace mark = false) (as bs : List Char) : ∃ front last more ws,
    words as = front ++ (if last = [] then [] else [last]) ∧ words bs = (if more = [] then [] else [more]) ++ ws ∧
      words (as ++ mark :: bs) = front ++ (last ++ mark :: more) :: ws := by
  obtain ⟨more, ws, hmore, hbs⟩ := exists_wordsFrom bs
  suffices hread : ∀ word, ∃ front last, wordsFrom word as = front ++ (if last = [] then [] else [last]) ∧
      wordsFrom word (as ++ mark :: bs) = front ++ (last ++ mark :: more) :: ws by
    obtain ⟨front, last, has, hall⟩ := hread []
    exact ⟨front, last, more, ws, has, hbs, hall⟩
  induction as with
  | nil =>
    intro word
    refine ⟨[], word.reverse, ?_, ?_⟩
    · cases word <;> simp [wordsFrom]
    · rw [List.nil_append, wordsFrom, if_neg (by simp [hmark]), hmore _ (List.cons_ne_nil mark word)]
      simp
  | cons a as ih =>
    intro word
    rw [List.cons_append, wordsFrom, wordsFrom]
    split
    · obtain ⟨front, last, has, hall⟩ := ih []
      split
      · exact ⟨front, last, has, hall⟩
      · exact ⟨word.reverse :: front, last, by rw [has, List.cons_append], by rw [hall, List.cons_append]⟩
    · exact ih (a :: word)

theorem mem_words_mark (hmark : isSpace mark = false) (h : w ∈ words (as ++ mark :: bs)) (hw : mark ∉ w) :
    w ∈ words as ∨ w ∈ words bs := by
  obtain ⟨front, last, more, ws, has, hbs, hall⟩ := words_mark hmark as bs
  rw [hall, List.mem_append, List.mem_cons] at h
  rcases h with h | rfl | h
  · exact .inl (by rw [has]; exact List.mem_append_left _ h)
  · exact absurd (by simp) hw
  · exact .inr (by rw [hbs]; exact List.mem_append_right _ h)

/-! Spacing. -/

theorem intercalate_append {sep : List Char} {vs ws : List (List Char)} (hv : vs ≠ []) (hw : ws ≠ []) :
    sep.intercalate (vs ++ ws) = sep.intercalate vs ++ (sep ++ sep.intercalate ws) := by
  induction vs with
  | nil => exact absurd rfl hv
  | cons v vs ih =>
    obtain ⟨w, ws, rfl⟩ := List.exists_cons_of_ne_nil hw
    cases vs with
    | nil => simp [List.intercalate_cons_cons]
    | cons v' vs =>
      rw [List.cons_append, List.cons_append, List.intercalate_cons_cons, ← List.cons_append, ih (by simp),
        List.intercalate_cons_cons]
      simp

theorem intercalate_mark {sep : List Char} (vs ws : List (List Char)) (v u : List Char) :
    sep.intercalate (vs ++ (v ++ mark :: u) :: ws) = sep.intercalate (vs ++ [v]) ++ mark :: sep.intercalate (u :: ws) := by
  induction vs with
  | nil => cases ws <;> simp [List.intercalate_cons_cons]
  | cons v' vs ih =>
    obtain ⟨x, xs, hx⟩ := List.exists_cons_of_ne_nil (show vs ++ (v ++ mark :: u) :: ws ≠ [] by simp)
    obtain ⟨y, ys, hy⟩ := List.exists_cons_of_ne_nil (show vs ++ [v] ≠ [] by simp)
    rw [List.cons_append, List.cons_append, hx, hy, List.intercalate_cons_cons, List.intercalate_cons_cons, ← hx, ← hy, ih]
    simp

theorem squeeze_ne_nil_iff : squeeze cs ≠ [] ↔ words cs ≠ [] := by
  refine ⟨fun h hwords => h (by rw [squeeze, hwords]; rfl), fun h => ?_⟩
  obtain ⟨w, ws, hw⟩ := List.exists_cons_of_ne_nil h
  have hmem : w ∈ words cs := by rw [hw]; exact List.mem_cons_self
  have hne := (of_mem_words hmem).1
  rw [squeeze, hw]
  cases ws <;> simp [List.intercalate_cons_cons, hne]

theorem squeeze_ne_nil {c : Char} (h : isSpace c = false) (text : List Char) : squeeze (c :: text) ≠ [] := by
  obtain ⟨w, ws, hwords⟩ := exists_words h text
  rw [squeeze_ne_nil_iff, hwords]
  exact List.cons_ne_nil _ ws

theorem squeeze_append_of_space (h : ∀ c ∈ front, isSpace c = true) : squeeze (front ++ text) = squeeze text := by
  rw [squeeze, squeeze, words_append_of_space h]

theorem squeeze_eq_nil : squeeze text = [] ↔ ∀ c ∈ text, isSpace c = true := by
  induction text with
  | nil => simp [squeeze, words, wordsFrom]
  | cons c text ih =>
    by_cases hc : isSpace c = true
    · have hskip : squeeze (c :: text) = squeeze text :=
        squeeze_append_of_space (List.forall_mem_singleton.2 hc)
      simp [hskip, ih, hc]
    · have hne := squeeze_ne_nil (Bool.eq_false_iff.2 hc) text
      simp [hne, hc]

theorem squeeze_append_space (ha : squeeze as ≠ []) (hb : squeeze bs ≠ []) :
    squeeze (as ++ ' ' :: bs) = squeeze as ++ ' ' :: squeeze bs := by
  rw [squeeze, words_append_space, intercalate_append (squeeze_ne_nil_iff.1 ha) (squeeze_ne_nil_iff.1 hb)]
  rfl

theorem squeeze_spaced : squeeze (as ++ [' ']) = squeeze as := by
  have hnil : words [] = [] := rfl
  rw [squeeze, words_append_space, hnil, List.append_nil, squeeze]

theorem squeeze_unspaced (h : ∀ c ∈ cs, isSpace c = false) (hne : cs ≠ []) : squeeze cs = cs := by
  rw [squeeze, words_unspaced h hne]
  simp

theorem head?_squeeze : ∀ c ∈ (squeeze cs).head?, isSpace c = false := by
  rw [squeeze]
  cases hw : words cs with
  | nil => simp
  | cons v vs =>
    have hmem : v ∈ words cs := by rw [hw]; exact List.mem_cons_self
    obtain ⟨hne, hspace⟩ := of_mem_words hmem
    obtain ⟨x, v, rfl⟩ := List.exists_cons_of_ne_nil hne
    intro c hc
    have hx : c = x := by
      cases vs with
      | nil => simpa using hc.symm
      | cons v' vs =>
        rw [List.intercalate_cons_cons] at hc
        simpa using hc.symm
    exact hx ▸ hspace x List.mem_cons_self

theorem getLast?_squeeze : ∀ c ∈ (squeeze cs).getLast?, isSpace c = false := by
  have hlast : ∀ {ws : List (List Char)}, (∀ w ∈ ws, w ≠ [] ∧ ∀ c ∈ w, isSpace c = false) →
      ∀ c ∈ ([' '].intercalate ws).getLast?, isSpace c = false := by
    intro ws h
    induction ws with
    | nil => simp
    | cons w ws ih =>
      obtain ⟨hne, hspace⟩ := h w List.mem_cons_self
      have hrest := ih fun v hv => h v (List.mem_cons_of_mem w hv)
      intro c hc
      cases ws with
      | nil =>
        rw [List.intercalate_singleton] at hc
        exact hspace c (List.mem_of_getLast? hc)
      | cons v vs =>
        obtain ⟨hv, -⟩ := h v (by simp)
        have hnonempty : [' '].intercalate (v :: vs) ≠ [] := by
          cases vs <;> simp [List.intercalate_cons_cons, hv]
        rw [List.intercalate_cons_cons, List.getLast?_append_of_ne_nil _ hnonempty] at hc
        exact hrest c hc
  exact hlast fun w hw => of_mem_words hw

theorem filter_squeeze : (squeeze cs).filter (fun c => !isSpace c) = cs.filter fun c => !isSpace c := by
  have hall : ∀ {ws : List (List Char)}, (∀ w ∈ ws, ∀ c ∈ w, isSpace c = false) →
      ([' '].intercalate ws).filter (fun c => !isSpace c) = ws.flatten := by
    intro ws h
    induction ws with
    | nil => rfl
    | cons w ws ih =>
      have hw : w.filter (fun c => !isSpace c) = w :=
        List.filter_eq_self.2 fun c hc => by simp [h w List.mem_cons_self c hc]
      have hrest := ih fun v hv => h v (List.mem_cons_of_mem w hv)
      cases ws with
      | nil => simp [hw]
      | cons v vs =>
        have hspace : isSpace ' ' = true := rfl
        rw [List.intercalate_cons_cons, List.filter_append, List.filter_append, hw, hrest]
        simp [hspace]
  rw [squeeze, hall fun w hw => (of_mem_words hw).2, words, flatten_wordsFrom]
  rfl

/-- Squeezed, both sides of a mark are what they are alone, but for spaces at the mark. -/
theorem squeeze_mark (hmark : isSpace mark = false) (as bs : List Char) : ∃ l r, (∀ c ∈ l, c = ' ') ∧ (∀ c ∈ r, c = ' ') ∧
    squeeze (as ++ mark :: bs) = (squeeze as ++ l) ++ mark :: (r ++ squeeze bs) := by
  obtain ⟨front, last, more, ws, has, hbs, hall⟩ := words_mark hmark as bs
  have hleft : ∃ l, (∀ c ∈ l, c = ' ') ∧ [' '].intercalate (front ++ [last]) = squeeze as ++ l := by
    rw [squeeze, has]
    by_cases hlast : last = []
    · by_cases hfront : front = []
      · exact ⟨[], by simp, by simp [hlast, hfront]⟩
      · exact ⟨[' '], by simp, by rw [intercalate_append hfront (List.cons_ne_nil last [])]; simp [hlast]⟩
    · exact ⟨[], by simp, by simp [hlast]⟩
  have hright : ∃ r, (∀ c ∈ r, c = ' ') ∧ [' '].intercalate (more :: ws) = r ++ squeeze bs := by
    rw [squeeze, hbs]
    by_cases hmore : more = []
    · cases ws with
      | nil => exact ⟨[], by simp, by simp [hmore]⟩
      | cons v vs => exact ⟨[' '], by simp, by rw [List.intercalate_cons_cons]; simp [hmore]⟩
    · exact ⟨[], by simp, by simp [hmore]⟩
  obtain ⟨l, hl, hleft⟩ := hleft
  obtain ⟨r, hr, hright⟩ := hright
  exact ⟨l, r, hl, hr, by rw [squeeze, hall, intercalate_mark, hleft, hright]⟩

end WireLayout.Text
