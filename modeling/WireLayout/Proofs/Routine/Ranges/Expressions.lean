import WireLayout.Proofs.Java.Comments
import WireLayout.Proofs.Routine.Ranges.Masked

/-! What tells expressions apart, in the masked text of cells and in what the cells show: new arrays, and comparisons with
zero. A comparison with zero counts its space, so that it takes a condition on the cells, which the mask of a text
keeps. -/

namespace WireLayout.Routine

open WireLayout.Java WireLayout.Text

variable {cs ds : List Cell}

/-! New arrays. -/

theorem agreeRest_afterNew? (before : List Char) (cs : List Cell) :
    AgreeRest cs (afterNew? before (views cs)) (afterNew? before (maskedText cs)) := by
  have hedge : atWordEdge before (maskedText cs) = atWordEdge before (views cs) := by
    rw [atWordEdge, atWordEdge, head?_maskedText]
  rw [afterNew?, afterNew?, hedge]
  cases atWordEdge before (views cs) with
  | false => exact .none
  | true => exact agreeRest_bind (agree_literal? (by decide) cs) agree_spaces?

theorem anglesThenBracket_maskedText (cs : List Cell) :
    anglesThenBracket (maskedText cs) = anglesThenBracket (views cs) := by
  have hblank : ∀ xs rest : List Char, (∀ x ∈ xs, x = ' ') → anglesThenBracket (xs ++ rest) = anglesThenBracket rest := by
    intro xs rest hxs
    induction xs with
    | nil => rfl
    | cons x xs ih =>
      obtain rfl := hxs x List.mem_cons_self
      exact ih fun y hy => hxs y (List.mem_cons_of_mem _ hy)
  induction cs with
  | nil => rfl
  | cons c cs ih =>
    obtain ⟨xs, hxs, hspace, hall⟩ := c.exists_masked
    obtain ⟨ds, -, hskip, hskip'⟩ := skipSpaces_cells cs
    by_cases hc : c.view = ' '
    · have hxs' : ∀ x ∈ xs, x = ' ' := fun x hx => (hall x hx).trans hc
      rw [maskedText_cons, hxs, List.cons_append, views_cons, hc]
      exact (hblank xs _ hxs').trans ih
    · rw [maskedText_cons_of_ne_space hc, views_cons, anglesThenBracket, anglesThenBracket, ih, hskip, hskip',
        head?_maskedText]

theorem startsArray_maskedText (cs : List Cell) : startsArray (maskedText cs) = startsArray (views cs) := by
  obtain ⟨_ | ⟨name, ds⟩, hrun, hrun', -⟩ := agree_run? (p := isTypePart) (by decide) cs
  · rw [startsArray, startsArray, hrun, hrun']
    rfl
  · obtain ⟨es, -, hskip, hskip'⟩ := skipSpaces_cells ds
    rw [startsArray, startsArray, hrun, hrun']
    simp only [Option.map_some, hskip, hskip']
    cases es with
    | nil => rfl
    | cons e es =>
      by_cases hopen : e.view = '['
      · rw [maskedText_cons_of_ne_space (by rw [hopen]; decide), views_cons, hopen]
        rfl
      · by_cases hangle : e.view = '<'
        · rw [maskedText_cons_of_ne_space (by rw [hangle]; decide), views_cons, hangle]
          exact anglesThenBracket_maskedText es
        · obtain ⟨xs, hxs, -⟩ := e.exists_masked
          rw [maskedText_cons, hxs, List.cons_append, views_cons]
          simp [hopen, hangle]

theorem endsCollection_maskedText (read : List Char) (cs : List Cell) :
    endsCollection read (maskedText cs) = endsCollection read (views cs) := by
  induction cs generalizing read with
  | nil => rfl
  | cons c cs ih =>
    obtain ⟨xs, hxs, hspace, -⟩ := c.exists_masked
    by_cases hc : c.view = ' '
    · rw [maskedText_cons, hxs, List.cons_append, views_cons, hc, endsCollection, endsCollection]
      rfl
    · rw [maskedText_cons_of_ne_space hc, views_cons, endsCollection, endsCollection, ih]
      rfl

theorem readsOctets_maskedText (before : List Char) (cs : List Cell) :
    readsOctets before (maskedText cs) = readsOctets before (views cs) := by
  have hedge : atWordEdge before (maskedText cs) = atWordEdge before (views cs) := by
    rw [atWordEdge, atWordEdge, head?_maskedText]
  have hcall : ∀ (w : List Char) (ds : List Cell), ' ' ∉ w →
      (literal? w (maskedText ds) >>= token? "(").isSome = (literal? w (views ds) >>= token? "(").isSome := by
    intro w ds hw
    obtain ⟨o, hviews, hmasked, -⟩ := agreeRest_bind (agree_literal? hw ds) (agree_token? (l := "(") (by decide))
    rw [hviews, hmasked, Option.isSome_map, Option.isSome_map]
  rw [readsOctets, readsOctets, hedge]
  cases atWordEdge before (views cs) with
  | false => rfl
  | true =>
    obtain ⟨_ | ds, hviews, hmasked, -⟩ := agree_literal? (l := "read".toList) (by decide) cs
    · rw [hviews, hmasked]
      rfl
    · have hbytes := hcall "Bytes".toList ds (by decide)
      have harray := hcall "ByteArray".toList ds (by decide)
      rw [hviews, hmasked]
      have heither : ∀ o o' : Option (List Char), (o <|> o').isSome = (o.isSome || o'.isSome) := by
        intro o o'
        cases o <;> rfl
      exact (heither _ _).trans ((congrArg₂ _ hbytes harray).trans (heither _ _).symm)

theorem makesArrayHere_maskedText {before before' : List Char} (hhead : before.head? = before'.head?) (cs : List Cell) :
    makesArrayHere before' (maskedText cs) = makesArrayHere before (views cs) := by
  have hsees : ∀ as, makesArrayHere before' as = makesArrayHere before as := by
    intro as
    rw [makesArrayHere, makesArrayHere, afterNew?, afterNew?, readsOctets, readsOctets, atWordEdge, atWordEdge, hhead]
  rw [hsees, makesArrayHere, makesArrayHere, readsOctets_maskedText]
  obtain ⟨_ | ds, hviews, hmasked, -⟩ := agreeRest_afterNew? before cs
  · rw [hviews, hmasked]
    rfl
  · rw [hviews, hmasked]
    simp only [Option.map_some, Option.any_some, startsArray_maskedText, endsCollection_maskedText]

theorem makesArrayFrom_blank {xs : List Char} (hxs : ∀ x ∈ xs, x = ' ') (before rest : List Char) :
    makesArrayFrom before (xs ++ rest) = makesArrayFrom (xs.reverse ++ before) rest := by
  have hnone : ∀ before rest : List Char, makesArrayHere before (' ' :: rest) = false := by
    intro before rest
    have hnew : literal? "new".toList (' ' :: rest) = none := rfl
    have hread : literal? "read".toList (' ' :: rest) = none := rfl
    rw [makesArrayHere, afterNew?, readsOctets, hnew, hread]
    cases atWordEdge before (' ' :: rest) <;> rfl
  induction xs generalizing before with
  | nil => rfl
  | cons x xs ih =>
    obtain rfl := hxs x List.mem_cons_self
    rw [List.cons_append, makesArrayFrom, hnone, Bool.false_or, ih fun y hy => hxs y (List.mem_cons_of_mem _ hy)]
    simp

theorem makesArray_maskedText (cs : List Cell) : makesArray (maskedText cs) = makesArray (views cs) := by
  suffices h : ∀ before before' : List Char, before.head? = before'.head? →
      makesArrayFrom before' (maskedText cs) = makesArrayFrom before (views cs) from h [] [] rfl
  induction cs with
  | nil => intro _ _ _; rfl
  | cons c cs ih =>
    intro before before' hhead
    obtain ⟨xs, hxs, hspace, hall⟩ := c.exists_masked
    have hhere := makesArrayHere_maskedText hhead (c :: cs)
    have hlast := head?_reverse_maskedText hhead [c]
    have hone : (maskedText [c]).reverse ++ before' = xs.reverse ++ c.view :: before' := by
      rw [show maskedText [c] = c.masked from List.append_nil _, hxs]
      simp
    rw [hone] at hlast
    rw [maskedText_cons, hxs, List.cons_append, views_cons] at hhere ⊢
    rw [makesArrayFrom, makesArrayFrom, hhere,
      makesArrayFrom_blank (fun x hx => (hall x hx).trans (hspace (List.ne_nil_of_mem hx))), ih _ _ hlast.symm]
    rfl

/-! Comparisons with zero. -/

/-- Behind an equals sign each cell is as long as what it shows. -/
def Tight (cs : List Cell) : Prop := ∀ c d, [c, d] <:+: cs → c.view = '=' → d.masked = [d.view]

theorem Tight.part (h : Tight cs) (hs : ds <:+: cs) : Tight ds := fun c d hcd => h c d (hcd.trans hs)

theorem literal?_two (l m as : List Char) : literal? (l ++ m) as = (literal? l as).bind (literal? m) := by
  induction l generalizing as with
  | nil => rfl
  | cons x l ih =>
    cases as with
    | nil => rfl
    | cons a as =>
      rw [List.cons_append, literal?, literal?, ih]
      split <;> rfl

theorem Tight.comparesWithZero_maskedText (h : Tight cs) :
    Scope.comparesWithZero (maskedText cs) = Scope.comparesWithZero (views cs) := by
  have hliteral : ∀ as : List Char, literal? ['!', '=', ' ', '0'] as = (literal? ['!', '='] as).bind (literal? [' ', '0']) :=
    literal?_two ['!', '='] [' ', '0']
  obtain ⟨ds, hsuffix, hviews, hmasked⟩ := skipSpaces_cells cs
  rw [Scope.comparesWithZero, Scope.comparesWithZero, hviews, hmasked, hliteral, hliteral]
  obtain ⟨_ | es, hsigns, hsigns', hes⟩ := agree_literal? (l := ['!', '=']) (by decide) ds
  · rw [hsigns, hsigns']
    rfl
  · rw [hsigns, hsigns']
    simp only [Option.map_some, Option.bind_some]
    cases es with
    | nil => rfl
    | cons e es =>
      have hequal : ∃ c, [c, e] <:+: ds ∧ c.view = '=' := by
        obtain ⟨front, rfl⟩ := hes _ rfl
        have hshown := literal?_eq_some_iff.1 hsigns
        rw [views_append, List.append_left_inj] at hshown
        obtain ⟨a, front, rfl, -, hfront⟩ := List.map_eq_cons_iff.1 hshown
        obtain ⟨b, rfl, hb⟩ := List.map_eq_singleton_iff.1 hfront
        exact ⟨b, ⟨[a], es, rfl⟩, hb⟩
      obtain ⟨c, hpart, hc⟩ := hequal
      have he : e.masked = [e.view] := h c e (hpart.trans hsuffix.isInfix) hc
      obtain ⟨o, hzero, hzero', -⟩ := agree_literal? (l := ['0']) (by decide) es
      rw [maskedText_cons, he, List.singleton_append, views_cons, literal?, literal?, hzero, hzero']
      split
      · cases o <;> rfl
      · rfl

/-- Quotes are what is shown while characters are passed over. -/
def PassesQuotes (state : MaskState) (text : List Char) : Prop :=
  ∀ left region, state = .passing left true region → ∀ c ∈ text.take (left + 1), c = '"'

theorem PassesQuotes.step {state : MaskState} {c : Char} {rest : List Char} (h : PassesQuotes state (c :: rest)) :
    PassesQuotes (state.step c rest).2 rest := by
  have htwo : twoQuotes rest = true → ∀ d ∈ rest.take 2, d = '"' := by
    intro hquotes
    obtain ⟨rest, rfl⟩ := twoQuotes_eq_true.1 hquotes
    simp
  intro left region hnext
  cases state with
  | passing n shown r =>
    cases n with
    | zero => cases hnext
    | succ n =>
      cases hnext
      exact fun d hd => h _ _ rfl d (List.mem_cons_of_mem c hd)
  | inside r =>
    cases r <;> simp only [MaskState.step, MaskState.step.literal] at hnext <;> grind

theorem step_equals {state : MaskState} {rest : List Char} (h : PassesQuotes state ('=' :: rest))
    (hshown : (state.step '=' rest).1 = true) : (state.step '=' rest).2 = .inside .code := by
  cases state with
  | passing n shown r =>
    have hquote : '=' = '"' := by
      cases n with
      | zero => exact h 0 r (by rw [show shown = true from hshown]) '=' (by simp)
      | succ n => exact h (n + 1) r (by rw [show shown = true from hshown]) '=' (by simp)
    exact absurd hquote (by decide)
  | inside r => cases r <;> simp_all [MaskState.step, MaskState.step.literal]

/-- In code nothing but the slash of a comment is hidden. -/
theorem masked_in_code {state : MaskState} (h : state = .inside .code) (d : Char) (rest : List Char) :
    (⟨d, (state.step d rest).1⟩ : Cell).masked = [(⟨d, (state.step d rest).1⟩ : Cell).view] := by
  subst h
  rw [Cell.masked, Cell.view]
  by_cases hslash : d = '/'
  · subst hslash
    split <;> rfl
  · have hshown : ((MaskState.inside .code).step d rest).1 = true := by
      simp only [MaskState.step, hslash, decide_false, Bool.false_and, Bool.false_eq_true, if_false]
      split
      · rfl
      · split
        · rfl
        · split <;> rfl
    rw [if_pos hshown, if_pos hshown]

theorem tight_cellsFrom (state : MaskState) (text : List Char) (h : PassesQuotes state text) :
    Tight (cellsFrom state text) := by
  induction text generalizing state with
  | nil =>
    intro c d hcd
    exact absurd hcd.length_le (by simp [cellsFrom])
  | cons c rest ih =>
    intro a b hab ha
    rw [cellsFrom] at hab
    rcases List.infix_cons_iff.1 hab with hhead | hlater
    · cases rest with
      | nil => exact absurd hhead.length_le (by simp [cellsFrom])
      | cons d rest =>
        rw [List.cons_prefix_cons, cellsFrom, List.cons_prefix_cons] at hhead
        obtain ⟨rfl, rfl, -⟩ := hhead
        obtain ⟨hshown, rfl⟩ : (state.step c (d :: rest)).1 = true ∧ c = '=' := by
          rw [Cell.view] at ha
          split at ha
          · exact ⟨‹_›, ha⟩
          · cases ha
        exact masked_in_code (step_equals h hshown) d rest
    · exact ih _ h.step a b hlater ha

theorem tight_cells (text : List Char) : Tight (cells text) := tight_cellsFrom _ text (by simp [PassesQuotes])

end WireLayout.Routine
