import WireLayout.Proofs.Java.Clauses
import WireLayout.Proofs.Java.Ranges.Scanning
import WireLayout.Proofs.Text.Words

/-! The masked text of cells and what the cells show. The two differ in the width of hidden cells only: where a cell
shows a space, the masked text has as many spaces as the character has octets. No step that reads words, names or
clauses sees this width, because none of them begins or ends within spaces. -/

namespace WireLayout.Java

open WireLayout.Text

variable {cs ds : List Cell} {c : Cell} {p : Char → Bool}

/-! Cells and their masked text. -/

theorem Cell.mem_masked (c : Cell) : ∀ x ∈ c.masked, x = c.view := by
  intro x hx
  rw [Cell.masked] at hx
  rw [Cell.view]
  split at hx
  · rename_i hshown
    rw [if_pos hshown]
    exact List.mem_singleton.1 hx
  · rename_i hshown
    rw [if_neg hshown]
    exact List.eq_of_mem_replicate hx

theorem Cell.exists_masked (c : Cell) : ∃ xs, c.masked = c.view :: xs ∧ (xs ≠ [] → c.view = ' ') ∧
    ∀ x ∈ xs, x = c.view := by
  have hmem := c.mem_masked
  have hne : c.masked ≠ [] := by
    intro h
    exact c.octets_ne_nil (by rw [Cell.octets, h]; rfl)
  obtain ⟨x, xs, hxs⟩ := List.exists_cons_of_ne_nil hne
  rw [hxs] at hmem
  obtain rfl := hmem x List.mem_cons_self
  refine ⟨xs, hxs, fun hne' => ?_, fun y hy => hmem y (List.mem_cons_of_mem _ hy)⟩
  by_cases hshown : c.shown = true
  · rw [Cell.masked, if_pos hshown, List.cons.injEq] at hxs
    exact absurd hxs.2.symm hne'
  · exact if_neg hshown

theorem Cell.masked_ne_nil (c : Cell) : c.masked ≠ [] := by
  obtain ⟨xs, hxs, -⟩ := c.exists_masked
  simp [hxs]

theorem maskedText_cons (c : Cell) (cs : List Cell) : maskedText (c :: cs) = c.masked ++ maskedText cs := rfl

theorem maskedText_eq_nil : maskedText cs = [] ↔ cs = [] := by
  cases cs with
  | nil => simp [maskedText]
  | cons c cs => simp [maskedText_cons, c.masked_ne_nil]

theorem maskedText_eq_views (h : ∀ c ∈ cs, c.view ≠ ' ') : maskedText cs = views cs := by
  induction cs with
  | nil => rfl
  | cons c cs ih =>
    obtain ⟨xs, hxs, hspace, -⟩ := c.exists_masked
    have hnil : xs = [] := by
      by_contra hne
      exact h c List.mem_cons_self (hspace hne)
    rw [maskedText_cons, hxs, hnil, ih fun d hd => h d (List.mem_cons_of_mem c hd)]
    rfl

theorem all_maskedText (p : Char → Bool) (cs : List Cell) : (maskedText cs).all p = (views cs).all p := by
  rw [Bool.eq_iff_iff, List.all_eq_true, List.all_eq_true]
  constructor
  · intro h x hx
    obtain ⟨c, hc, rfl⟩ := List.mem_map.1 hx
    obtain ⟨xs, hxs, -⟩ := c.exists_masked
    exact h c.view (List.mem_flatMap.2 ⟨c, hc, by simp [hxs]⟩)
  · intro h x hx
    obtain ⟨c, hc, hx⟩ := List.mem_flatMap.1 hx
    rw [c.mem_masked x hx]
    exact h c.view (List.mem_map_of_mem hc)

/-- Where all characters of a class are no spaces, cells of the class are their masked text. -/
theorem maskedText_eq_views_of_all (hp : p ' ' = false) (h : (views cs).all p = true) : maskedText cs = views cs := by
  refine maskedText_eq_views fun c hc heq => ?_
  have hc := List.all_eq_true.1 h c.view (List.mem_map_of_mem hc)
  rw [heq, hp] at hc
  cases hc

theorem views_flatMap (cs : List Cell) : views cs = cs.flatMap fun c => [c.view] := by
  rw [views, List.map_eq_flatMap]

theorem span_views (p : Char → Bool) (cs : List Cell) :
    (views cs).takeWhile p = views (cs.takeWhile fun c => p c.view) ∧
      (views cs).dropWhile p = views (cs.dropWhile fun c => p c.view) := by
  simp only [views_flatMap]
  exact span_flatMap (by simp) (by simp) cs

theorem span_maskedText (p : Char → Bool) (cs : List Cell) :
    (maskedText cs).takeWhile p = maskedText (cs.takeWhile fun c => p c.view) ∧
      (maskedText cs).dropWhile p = maskedText (cs.dropWhile fun c => p c.view) :=
  span_flatMap Cell.masked_ne_nil (fun c x hx => by rw [c.mem_masked x hx]) cs

theorem trim_views (p : Char → Bool) (cs : List Cell) : trim p (views cs) = views (trim (fun c => p c.view) cs) := by
  rw [trim, (span_views p cs).2, views_flatMap, views_flatMap]
  exact dropEnd_flatMap (by simp) (by simp) _

theorem trim_maskedText (p : Char → Bool) (cs : List Cell) :
    trim p (maskedText cs) = maskedText (trim (fun c => p c.view) cs) := by
  rw [trim, (span_maskedText p cs).2]
  exact dropEnd_flatMap Cell.masked_ne_nil (fun c x hx => by rw [c.mem_masked x hx]) _

/-- The name of a later declarator is the same in the masked text. -/
theorem bareName?_maskedText (cs : List Cell) :
    (if (trim isSpace (maskedText cs)).isEmpty || !(trim isSpace (maskedText cs)).all isIdent then none
      else some (String.ofList (trim isSpace (maskedText cs)))) = bareName? cs := by
  rw [bareName?, trim_views, trim_maskedText]
  cases hall : (views (trim (fun c => isSpace c.view) cs)).all isIdent with
  | false => simp [all_maskedText, hall]
  | true => rw [maskedText_eq_views_of_all (by decide) hall, hall]

/-- The masked text is a word just if the cells show it. -/
theorem maskedText_eq_iff {w : List Char} (hw : ' ' ∉ w) : maskedText cs = w ↔ views cs = w := by
  have hp : (fun x : Char => decide (x ≠ ' ')) ' ' = false := by simp
  constructor
  · rintro rfl
    refine (maskedText_eq_views fun c hc heq => hw ?_).symm
    obtain ⟨xs, hxs, -⟩ := c.exists_masked
    exact List.mem_flatMap.2 ⟨c, hc, by simp [hxs, heq]⟩
  · rintro rfl
    exact maskedText_eq_views fun c hc heq => hw (heq ▸ List.mem_map_of_mem hc)

theorem words_maskedText (cs : List Cell) : words (maskedText cs) = words (views cs) := by
  suffices h : ∀ word, wordsFrom word (maskedText cs) = wordsFrom word (views cs) from h []
  induction cs with
  | nil => intro word; rfl
  | cons c cs ih =>
    intro word
    obtain ⟨xs, hxs, hspace, hall⟩ := c.exists_masked
    have hcons : wordsFrom word (maskedText (c :: cs)) = wordsFrom word (c.view :: maskedText cs) := by
      rw [maskedText_cons, hxs, List.cons_append]
      cases hnil : xs with
      | nil => rfl
      | cons x xs' =>
        rw [hspace (by simp [hnil])] at hall ⊢
        rw [← hnil]
        exact wordsFrom_blank hall _
    rw [hcons, show views (c :: cs) = c.view :: views cs from rfl, wordsFrom, wordsFrom, ih, ih]

/-! Steps that read the beginning of a text. -/

section

variable {β γ : Type}

/-- What a step leaves of the shown cells and of their masked text is the same cells. -/
def AgreeRest (cs : List Cell) (r r' : Option (List Char)) : Prop :=
  ∃ o : Option (List Cell), r = o.map views ∧ r' = o.map maskedText ∧ ∀ ds ∈ o, ds <:+ cs

def Agree (cs : List Cell) (r r' : Option (β × List Char)) : Prop :=
  ∃ o : Option (β × List Cell), r = o.map (fun q => (q.1, views q.2)) ∧ r' = o.map (fun q => (q.1, maskedText q.2)) ∧
    ∀ q ∈ o, q.2 <:+ cs

theorem AgreeRest.none : AgreeRest cs none none := ⟨.none, rfl, rfl, by simp⟩

theorem Agree.none : @Agree β cs none none := ⟨.none, rfl, rfl, by simp⟩

theorem Agree.some (b : β) (h : ds <:+ cs) : Agree cs (some (b, views ds)) (some (b, maskedText ds)) :=
  ⟨.some (b, ds), rfl, rfl, by rintro q ⟨rfl⟩; exact h⟩

theorem Agree.of_suffix {r r' : Option (β × List Char)} (hs : ds <:+ cs) (h : Agree ds r r') : Agree cs r r' := by
  obtain ⟨o, hr, hr', hsuffix⟩ := h
  exact ⟨o, hr, hr', fun q hq => (hsuffix q hq).trans hs⟩

theorem AgreeRest.of_suffix {r r' : Option (List Char)} (hs : ds <:+ cs) (h : AgreeRest ds r r') : AgreeRest cs r r' := by
  obtain ⟨o, hr, hr', hsuffix⟩ := h
  exact ⟨o, hr, hr', fun q hq => (hsuffix q hq).trans hs⟩

theorem AgreeRest.bind {f : List Char → Option (β × List Char)} {r r' : Option (List Char)} (h : AgreeRest cs r r')
    (hf : ∀ ds, Agree ds (f (views ds)) (f (maskedText ds))) : Agree cs (r >>= f) (r' >>= f) := by
  obtain ⟨_ | ds, rfl, rfl, hsuffix⟩ := h
  · exact .none
  · exact (hf ds).of_suffix (hsuffix ds rfl)

theorem Agree.bind {f : β × List Char → Option (γ × List Char)} {r r' : Option (β × List Char)} (h : Agree cs r r')
    (hf : ∀ b ds, Agree ds (f (b, views ds)) (f (b, maskedText ds))) : Agree cs (r >>= f) (r' >>= f) := by
  obtain ⟨_ | ⟨b, ds⟩, rfl, rfl, hsuffix⟩ := h
  · exact .none
  · exact (hf b ds).of_suffix (hsuffix _ rfl)

theorem AgreeRest.map {r r' : Option (List Char)} (h : AgreeRest cs r r') (b : β) :
    Agree cs (r.map fun rest => (b, rest)) (r'.map fun rest => (b, rest)) := by
  obtain ⟨_ | ds, rfl, rfl, hsuffix⟩ := h
  · exact .none
  · exact .some b (hsuffix ds rfl)

theorem Agree.map {r r' : Option (β × List Char)} (h : Agree cs r r') (f : β → γ) :
    Agree cs (r.map fun q => (f q.1, q.2)) (r'.map fun q => (f q.1, q.2)) := by
  obtain ⟨_ | ⟨b, ds⟩, rfl, rfl, hsuffix⟩ := h
  · exact .none
  · exact .some (f b) (hsuffix _ rfl)

theorem Agree.orElse {r r' s s' : Option (β × List Char)} (h : Agree cs r r') (hs : Agree cs s s') :
    Agree cs (r <|> s) (r' <|> s') := by
  obtain ⟨_ | ⟨b, ds⟩, rfl, rfl, hsuffix⟩ := h
  · simpa using hs
  · exact .some b (hsuffix _ rfl)

theorem agree_literal? {l : List Char} (hl : ' ' ∉ l) (cs : List Cell) :
    AgreeRest cs (literal? l (views cs)) (literal? l (maskedText cs)) := by
  induction l generalizing cs with
  | nil => exact ⟨some cs, rfl, rfl, by rintro ds ⟨rfl⟩; exact List.suffix_rfl⟩
  | cons x l ih =>
    obtain ⟨hx, hl⟩ := not_or.1 (List.mem_cons.not.1 hl)
    cases cs with
    | nil => exact .none
    | cons c cs =>
      obtain ⟨xs, hxs, hspace, -⟩ := c.exists_masked
      rw [maskedText_cons, hxs, show views (c :: cs) = c.view :: views cs from rfl, List.cons_append, literal?, literal?]
      split
      · rename_i heq
        have hnil : xs = [] := by
          by_contra hne
          exact hx ((hspace hne).symm.trans heq.symm)
        rw [hnil]
        exact (ih hl cs).of_suffix (List.suffix_cons c cs)
      · exact .none

theorem agree_run? (hp : p ' ' = false) (cs : List Cell) : Agree cs (run? p (views cs)) (run? p (maskedText cs)) := by
  have hword : maskedText (cs.takeWhile fun c => p c.view) = views (cs.takeWhile fun c => p c.view) := by
    refine maskedText_eq_views fun c hc heq => ?_
    have hc := List.mem_takeWhile_imp hc
    rw [heq, hp] at hc
    cases hc
  rw [run?, run?, (span_views p cs).1, (span_views p cs).2, (span_maskedText p cs).1, (span_maskedText p cs).2, hword]
  split
  · exact .none
  · exact .some _ (List.dropWhile_suffix _)

theorem agree_spaces? (cs : List Cell) : AgreeRest cs (spaces? (views cs)) (spaces? (maskedText cs)) := by
  rw [spaces?, spaces?, run?, run?, (span_views isSpace cs).1, (span_views isSpace cs).2, (span_maskedText isSpace cs).1,
    (span_maskedText isSpace cs).2]
  cases htake : cs.takeWhile fun c => isSpace c.view with
  | nil => exact .none
  | cons c ws =>
    have hviews : (views (c :: ws)).isEmpty = false := rfl
    have hmasked : (maskedText (c :: ws)).isEmpty = false := by
      rw [List.isEmpty_eq_false_iff, ne_eq, maskedText_eq_nil]
      exact List.cons_ne_nil c ws
    rw [hviews, hmasked]
    exact ⟨some (cs.dropWhile fun c => isSpace c.view), rfl, rfl, by rintro ds ⟨rfl⟩; exact List.dropWhile_suffix _⟩

theorem agree_token? {l : String} (hl : ' ' ∉ l.toList) (cs : List Cell) :
    AgreeRest cs (token? l (views cs)) (token? l (maskedText cs)) := by
  rw [token?, token?, skipSpaces, skipSpaces, (span_views isSpace cs).2, (span_maskedText isSpace cs).2]
  exact (agree_literal? hl _).of_suffix (List.dropWhile_suffix _)

theorem agree_name? (cs : List Cell) : Agree cs (name? (views cs)) (name? (maskedText cs)) := by
  cases cs with
  | nil => exact .none
  | cons c cs =>
    obtain ⟨xs, hxs, hspace, -⟩ := c.exists_masked
    rw [maskedText_cons, hxs, show views (c :: cs) = c.view :: views cs from rfl, List.cons_append, name?, name?]
    split
    · rename_i hstart
      have hnil : xs = [] := by
        by_contra hne
        rw [hspace hne] at hstart
        exact absurd hstart (by decide)
      have hword : maskedText (cs.takeWhile fun c => isWordOrDollar c.view) =
          views (cs.takeWhile fun c => isWordOrDollar c.view) := by
        refine maskedText_eq_views fun d hd heq => ?_
        have hd := List.mem_takeWhile_imp hd
        rw [heq, isWordOrDollar_space] at hd
        cases hd
      rw [hnil, List.nil_append, (span_views isWordOrDollar cs).1, (span_views isWordOrDollar cs).2,
        (span_maskedText isWordOrDollar cs).1, (span_maskedText isWordOrDollar cs).2, hword]
      exact .some _ ((List.dropWhile_suffix _).trans (List.suffix_cons c cs))
    · exact .none

/-! Clauses. -/

theorem agree_packageRest? (cs : List Cell) : Agree cs (packageRest? (views cs)) (packageRest? (maskedText cs)) := by
  have hpackage : ' ' ∉ "package".toList := by decide
  have hsemicolon : ' ' ∉ ";".toList := by decide
  refine (agree_literal? hpackage cs).bind fun ds => (agree_spaces? ds).bind fun es => ?_
  refine (agree_run? (by decide) es).bind fun name fs => ?_
  exact (agree_token? hsemicolon fs).bind fun gs => .some _ List.suffix_rfl

theorem head?_maskedText (cs : List Cell) : (maskedText cs).head? = (views cs).head? := by
  cases cs with
  | nil => rfl
  | cons c cs =>
    obtain ⟨xs, hxs, -⟩ := c.exists_masked
    rw [maskedText_cons, hxs]
    rfl

theorem agree_packageName? (before : List Char) (cs : List Cell) :
    Agree cs (packageName? before (views cs)) (packageName? before (maskedText cs)) := by
  have hedge : atWordEdge before (maskedText cs) = atWordEdge before (views cs) := by
    rw [atWordEdge, atWordEdge, head?_maskedText]
  rw [packageName?_eq, packageName?_eq, hedge]
  split
  · exact agree_packageRest? cs
  · exact .none

theorem agree_importEnd? (name : List Char) (cs : List Cell) :
    Agree cs (importEnd? name (views cs)) (importEnd? name (maskedText cs)) := by
  have hsemicolon : ' ' ∉ ";".toList := by decide
  by_cases hstar : (views cs).head? = some '*'
  · obtain ⟨c, cs, rfl⟩ : ∃ c ds, cs = c :: ds := by
      cases cs with
      | nil => cases hstar
      | cons c cs => exact ⟨c, cs, rfl⟩
    have hc : c.view = '*' := Option.some.inj hstar
    obtain ⟨xs, hxs, hspace, -⟩ := c.exists_masked
    have hnil : xs = [] := by
      by_contra hne
      rw [hspace hne] at hc
      exact absurd hc (by decide)
    rw [maskedText_cons, hxs, hnil, hc, show views (c :: cs) = c.view :: views cs from rfl, hc]
    simp only [List.singleton_append, importEnd?]
    split
    · exact ((agree_token? hsemicolon cs).map _).of_suffix (List.suffix_cons c cs)
    · exact .none
  · have hplain : ∀ rest : List Char, rest.head? ≠ some '*' →
        importEnd? name rest = (token? ";" rest).map fun rest => (String.ofList name, rest) := by
      intro rest hrest
      unfold importEnd?
      split
      · exact absurd rfl hrest
      · rfl
    rw [hplain _ hstar, hplain _ (by rwa [head?_maskedText])]
    exact (agree_token? hsemicolon cs).map _

theorem agree_importedName? (cs : List Cell) : Agree cs (importedName? (views cs)) (importedName? (maskedText cs)) := by
  rw [importedName?_eq, importedName?_eq]
  exact (agree_run? (by decide) cs).bind agree_importEnd?

theorem agree_importRest? (cs : List Cell) : Agree cs (importRest? (views cs)) (importRest? (maskedText cs)) := by
  have himport : ' ' ∉ "import".toList := by decide
  have hstatic : ' ' ∉ "static".toList := by decide
  have hskip : AgreeRest cs (literal? "import".toList (skipSpaces (views cs)))
      (literal? "import".toList (skipSpaces (maskedText cs))) := by
    rw [skipSpaces, skipSpaces, (span_views isSpace cs).2, (span_maskedText isSpace cs).2]
    exact (agree_literal? himport _).of_suffix (List.dropWhile_suffix _)
  refine hskip.bind fun ds => (agree_spaces? ds).bind fun es => Agree.orElse ?_ (agree_importedName? es)
  exact (agree_literal? hstatic es).bind fun fs => (agree_spaces? fs).bind agree_importedName?

theorem agree_importName? (before : List Char) (cs : List Cell) :
    Agree cs (importName? before (views cs)) (importName? before (maskedText cs)) := by
  rw [importName?_eq, importName?_eq]
  split
  · exact agree_importRest? cs
  · exact .none

theorem head?_reverse_maskedText {b b' : List Char} (h : b.head? = b'.head?) (cs : List Cell) :
    ((maskedText cs).reverse ++ b').head? = ((views cs).reverse ++ b).head? := by
  cases cs using List.reverseRecOn with
  | nil => exact h.symm
  | append_singleton cs c =>
    obtain ⟨x, xs, hxs⟩ := List.exists_cons_of_ne_nil (List.reverse_ne_nil_iff.2 c.masked_ne_nil)
    have hx : x = c.view := c.mem_masked x (List.mem_reverse.1 (by rw [hxs]; exact List.mem_cons_self))
    have hlast : maskedText [c] = c.masked := List.append_nil _
    rw [maskedText_append, hlast, List.reverse_append, hxs, hx, views, List.map_append, List.reverse_append]
    rfl

/-- A step that also gives what is left as something found. -/
def withRest (step : List Char → List Char → Option (β × List Char)) (before cs : List Char) :
    Option ((β × List Char) × List Char) :=
  (step before cs).map fun q => (q, q.2)

/-- What is made of each match and of what is left behind it. -/
theorem matchesFrom_withRest (step : List Char → List Char → Option (β × List Char)) (h : β × List Char → γ) (skip : Nat)
    (before cs : List Char) : matchesFrom (fun before cs => (step before cs).map fun q => (h q, q.2)) skip before cs =
      (matchesFrom (withRest step) skip before cs).map h := by
  induction cs generalizing skip before with
  | nil => cases skip <;> rfl
  | cons c cs ih =>
    cases skip with
    | succ skip => exact ih skip (c :: before)
    | zero =>
      rw [matchesFrom, matchesFrom, withRest]
      cases step before (c :: cs) with
      | none => exact ih 0 (c :: before)
      | some q => exact congrArg (h q :: ·) (ih _ (c :: before))

/-- A step that a search can take in the masked text as well as in what the cells show: it sees the same in both, begins
no match between two spaces, and leaves less than there was. -/
structure ReadsCells (step : List Char → List Char → Option (β × List Char)) : Prop where
  sees : SeesLast step
  agree : ∀ before cs, Agree cs (step before (views cs)) (step before (maskedText cs))
  blank : ∀ before rest, step (' ' :: before) (' ' :: rest) = none
  short : ∀ before cs, ∀ q ∈ step before cs, q.2.length < cs.length

/-- A search finds in the masked text what it finds in what the cells show, and leaves the same cells behind each
match. -/
def FindsAlike (step : List Char → List Char → Option (β × List Char)) (before before' : List Char) (cs : List Cell) :
    Prop :=
  ∃ found : List (β × List Cell),
    matchesFrom (withRest step) 0 before (views cs) = found.map (fun q => (q.1, views q.2)) ∧
      matchesFrom (withRest step) 0 before' (maskedText cs) = found.map (fun q => (q.1, maskedText q.2)) ∧
        ∀ q ∈ found, q.2 <:+ cs

section

variable {step : List Char → List Char → Option (β × List Char)} {before before' : List Char}

theorem ReadsCells.spaces (h : ReadsCells step) {xs : List Char} (hxs : ∀ x ∈ xs, x = ' ') (rest : List Char) :
    matchesFrom (withRest step) 0 (' ' :: before) (xs ++ rest) =
      matchesFrom (withRest step) 0 (xs.reverse ++ ' ' :: before) rest := by
  induction xs generalizing before with
  | nil => rfl
  | cons x xs ih =>
    obtain rfl := hxs x List.mem_cons_self
    have hnone : withRest step (' ' :: before) (' ' :: (xs ++ rest)) = none := by
      rw [withRest, h.blank]
      rfl
    rw [List.cons_append, matchesFrom_of_none hnone, ih fun y hy => hxs y (List.mem_cons_of_mem _ hy)]
    simp

/-- Where no match begins at a cell, none begins in its masked text. -/
theorem ReadsCells.none (h : ReadsCells step) (hviews : step before (views (c :: cs)) = none)
    (hmasked : step before' (maskedText (c :: cs)) = none)
    (hmore : FindsAlike step (c.view :: before) ((maskedText [c]).reverse ++ before') cs) :
    FindsAlike step before before' (c :: cs) := by
  obtain ⟨xs, hxs, hspace, hall⟩ := c.exists_masked
  have hone : (maskedText [c]).reverse ++ before' = xs.reverse ++ c.view :: before' := by
    rw [show maskedText [c] = c.masked from List.append_nil _, hxs]
    simp
  have hpassed : matchesFrom (withRest step) 0 (c.view :: before') (xs ++ maskedText cs) =
      matchesFrom (withRest step) 0 (xs.reverse ++ c.view :: before') (maskedText cs) := by
    by_cases hnil : xs = []
    · rw [hnil]
      rfl
    · rw [hspace hnil] at hall ⊢
      exact h.spaces hall _
  rw [maskedText_cons, hxs, List.cons_append] at hmasked
  have hnone : withRest step before (c.view :: views cs) = .none := Option.map_eq_none_iff.2 hviews
  have hnone' : withRest step before' (c.view :: (xs ++ maskedText cs)) = .none := Option.map_eq_none_iff.2 hmasked
  obtain ⟨found, hfound, hfound', hlater⟩ := hmore
  refine ⟨found, ?_, ?_, fun q hq => (hlater q hq).trans (List.suffix_cons c cs)⟩
  · exact (matchesFrom_of_none hnone).trans hfound
  · rw [maskedText_cons, hxs, List.cons_append, matchesFrom_of_none hnone', hpassed, ← hone, hfound']

/-- A match is the same in both, and the search goes on behind it. -/
theorem FindsAlike.some {pre : List Cell} {b : β} (hviews : step before (views (c :: (pre ++ ds))) = some (b, views ds))
    (hmasked : step before' (maskedText (c :: (pre ++ ds))) = some (b, maskedText ds))
    (hmore : FindsAlike step ((views (c :: pre)).reverse ++ before) ((maskedText (c :: pre)).reverse ++ before') ds) :
    FindsAlike step before before' (c :: (pre ++ ds)) := by
  obtain ⟨xs, hxs, -⟩ := c.exists_masked
  have hleft : views (c :: (pre ++ ds)) = c.view :: (views pre ++ views ds) := by simp [views]
  have hright : maskedText (c :: (pre ++ ds)) = c.view :: ((xs ++ maskedText pre) ++ maskedText ds) := by
    rw [maskedText_cons, hxs, maskedText_append, List.append_assoc, List.cons_append]
  have hread : (views (c :: pre)).reverse ++ before = (views pre).reverse ++ c.view :: before := by simp [views]
  have hread' : (maskedText (c :: pre)).reverse ++ before' = (xs ++ maskedText pre).reverse ++ c.view :: before' := by
    rw [maskedText_cons, hxs]
    simp
  rw [hleft] at hviews
  rw [hright] at hmasked
  have hhere : withRest step before (c.view :: (views pre ++ views ds)) = .some ((b, views ds), views ds) := by
    rw [withRest, hviews]
    rfl
  have hhere' : withRest step before' (c.view :: ((xs ++ maskedText pre) ++ maskedText ds)) =
      .some ((b, maskedText ds), maskedText ds) := by
    rw [withRest, hmasked]
    rfl
  have hsuffix : ds <:+ c :: (pre ++ ds) := ⟨c :: pre, rfl⟩
  obtain ⟨found, hfound, hfound', hlater⟩ := hmore
  refine ⟨(b, ds) :: found, ?_, ?_, fun q hq => ?_⟩
  · rw [hleft, matchesFrom_of_some hhere, ← hread, hfound]
    rfl
  · rw [hright, matchesFrom_of_some hhere', ← hread', hfound']
    rfl
  · rcases List.mem_cons.1 hq with rfl | hq
    · exact hsuffix
    · exact (hlater q hq).trans hsuffix

theorem ReadsCells.findsAlike (h : ReadsCells step) (cs : List Cell) (hbefore : before.head? = before'.head?) :
    FindsAlike step before before' cs := by
  induction hn : cs.length using Nat.strong_induction_on generalizing cs before before' with
  | _ n ih =>
    cases cs with
    | nil => exact ⟨[], rfl, rfl, by simp⟩
    | cons c cs =>
      obtain ⟨o, hviews, hmasked, hsuffix⟩ := h.agree before (c :: cs)
      rw [h.sees before before' _ hbefore] at hmasked
      cases o with
      | none =>
        have hhead := head?_reverse_maskedText hbefore [c]
        exact h.none hviews hmasked (ih cs.length (by simp [← hn]) cs hhead.symm rfl)
      | some q =>
        obtain ⟨b, ds⟩ := q
        have hlength : ds.length < (c :: cs).length := by
          simpa [views] using h.short before (views (c :: cs)) _ hviews
        obtain ⟨pre, rfl⟩ : ds <:+ cs := by
          rcases List.suffix_cons_iff.1 (hsuffix _ rfl) with heq | hlater
          · rw [show ds = c :: cs from heq] at hlength
            exact absurd hlength (lt_irrefl _)
          · exact hlater
        have hhead := head?_reverse_maskedText hbefore (c :: pre)
        exact .some hviews hmasked (ih ds.length (by rw [← hn]; exact hlength) ds hhead.symm rfl)

theorem ReadsCells.allMatches_maskedText (h : ReadsCells step) (cs : List Cell) :
    allMatches step (maskedText cs) = allMatches step (views cs) := by
  have hmap : ∀ cs, allMatches step cs = (matchesFrom (withRest step) 0 [] cs).map Prod.fst := by
    intro cs
    rw [← matchesFrom_withRest, allMatches]
    simp
  obtain ⟨found, hviews, hmasked, -⟩ := h.findsAlike cs (rfl : ([] : List Char).head? = ([] : List Char).head?)
  rw [hmap, hmap, hviews, hmasked, List.map_map, List.map_map]
  rfl

end

theorem length_lt_of_literal? {l as rest : List Char} (hl : l ≠ []) (h : literal? l as = some rest) :
    rest.length < as.length := by
  rw [literal?_eq_some_iff.1 h, List.length_append]
  have := List.length_pos_iff.2 hl
  omega

theorem importedName?_suffix {as : List Char} {q : String × List Char} (h : importedName? as = some q) : q.2 <:+ as := by
  rw [importedName?_eq] at h
  obtain ⟨⟨name, b⟩, hb, h⟩ := Option.bind_eq_some_iff.1 h
  refine List.IsSuffix.trans ?_ (run?_suffix hb)
  simp only [importEnd?] at h
  split at h
  · rw [Option.ite_none_right_eq_some] at h
    obtain ⟨c, hc, rfl⟩ := Option.map_eq_some_iff.1 h.2
    exact (token?_suffix hc).trans (List.suffix_cons _ _)
  · obtain ⟨c, hc, rfl⟩ := Option.map_eq_some_iff.1 h
    exact token?_suffix hc

theorem length_lt_of_importRest? {as : List Char} {q : String × List Char} (h : importRest? as = some q) :
    q.2.length < as.length := by
  obtain ⟨a, ha, h⟩ := Option.bind_eq_some_iff.1 h
  obtain ⟨b, hb, h⟩ := Option.bind_eq_some_iff.1 h
  have hsuffix : q.2 <:+ b := by
    rcases (Option.orElse_eq_some _ _ _).1 h with h | ⟨-, h⟩
    · obtain ⟨c, hc, h⟩ := Option.bind_eq_some_iff.1 h
      obtain ⟨d, hd, h⟩ := Option.bind_eq_some_iff.1 h
      exact (importedName?_suffix h).trans ((spaces?_suffix hd).trans (literal?_suffix hc))
    · exact importedName?_suffix h
  have hskip : (skipSpaces as).length ≤ as.length := (List.dropWhile_suffix isSpace).length_le
  have hlt := length_lt_of_literal? (by decide) ha
  have hle := (hsuffix.trans (spaces?_suffix hb)).length_le
  omega

theorem packageName?_readsCells : ReadsCells packageName? where
  sees := packageName?_seesLast
  agree := agree_packageName?
  blank _ _ := packageName?_eq_none (by simp)
  short before as q hq := by
    rw [Option.mem_def, packageName?_eq, Option.ite_none_right_eq_some] at hq
    obtain ⟨a, ha, hq⟩ := Option.bind_eq_some_iff.1 hq.2
    obtain ⟨b, hb, hq⟩ := Option.bind_eq_some_iff.1 hq
    obtain ⟨⟨name, d⟩, hd, hq⟩ := Option.bind_eq_some_iff.1 hq
    obtain ⟨e, he, hq⟩ := Option.bind_eq_some_iff.1 hq
    obtain rfl := Option.some.inj hq
    have hsuffix : e <:+ a := (token?_suffix he).trans ((run?_suffix hd).trans (spaces?_suffix hb))
    exact hsuffix.length_le.trans_lt (length_lt_of_literal? (by decide) ha)

theorem importName?_readsCells : ReadsCells importName? where
  sees := importName?_seesLast
  agree := agree_importName?
  blank _ _ := by rw [importName?_eq, if_neg (by simp)]
  short before as q hq := by
    rw [Option.mem_def, importName?_eq, Option.ite_none_right_eq_some] at hq
    exact length_lt_of_importRest? hq.2

/-! Headings. -/

/-- A heading in which cells that show characters stand for the masked text of its parts. -/
def Heading.inMasked (h : Heading) : Heading :=
  { h with before := codes (maskedText h.before), after := codes (maskedText h.after) }

theorem agree_keywordName? {word : List Char} (hword : ' ' ∉ word) (cs : List Cell) :
    Agree cs (keywordName? word (views cs)) (keywordName? word (maskedText cs)) :=
  (agree_literal? hword cs).bind fun ds => (agree_spaces? ds).bind agree_name?

theorem agree_typeKeyword? (cs : List Cell) :
    Agree cs ((typeKeyword? (views cs)).map fun q => ((q.1, q.2.1), q.2.2))
      ((typeKeyword? (maskedText cs)).map fun q => ((q.1, q.2.1), q.2.2)) := by
  have hwords : ∀ k ∈ typeKeywords, ' ' ∉ k.1 := by decide
  rw [typeKeyword?_eq, typeKeyword?_eq]
  generalize typeKeywords = keywords at hwords
  induction keywords with
  | nil => exact .none
  | cons k ks ih =>
    have hk := agree_keywordName? (hwords k List.mem_cons_self) cs
    have hks := ih fun l hl => hwords l (List.mem_cons_of_mem k hl)
    obtain ⟨_ | ⟨name, ds⟩, hviews, hmasked, hsuffix⟩ := hk
    · rw [List.findSome?_cons, List.findSome?_cons, hviews, hmasked]
      exact hks
    · rw [List.findSome?_cons, List.findSome?_cons, hviews, hmasked]
      exact .some (k.2, name) (hsuffix _ rfl)

theorem typeKeyword?_space (rest : List Char) : typeKeyword? (' ' :: rest) = none := by
  rw [typeKeyword?_eq]
  simp [typeKeywords, keywordName?, literal?]

theorem headingFrom_spaces {xs : List Char} (hxs : ∀ x ∈ xs, x = ' ') (rest : List Cell) :
    headingFrom (some ' ') (codes xs ++ rest) =
      (headingFrom (some ' ') rest).map fun h => { h with before := codes xs ++ h.before } := by
  induction xs with
  | nil => simp
  | cons x xs ih =>
    obtain rfl := hxs x List.mem_cons_self
    have hnone : typeKeyword? (views (Cell.code ' ' :: (codes xs ++ rest))) = none := typeKeyword?_space _
    rw [codes_cons, List.cons_append, headingFrom, hnone, ite_self]
    simp only
    rw [Cell.view_code, ih fun y hy => hxs y (List.mem_cons_of_mem _ hy), Option.map_map]
    rfl

/-- The spaces that a hidden cell is masked by come before the heading, as the cell does. -/
theorem headingFrom_masked {xs : List Char} (hspace : xs ≠ [] → c.view = ' ') (hall : ∀ x ∈ xs, x = c.view)
    (rest : List Cell) : headingFrom (some c.view) (codes xs ++ rest) =
      (headingFrom (some c.view) rest).map fun h => { h with before := codes xs ++ h.before } := by
  by_cases hnil : xs = []
  · subst hnil
    simp
  · rw [hspace hnil] at hall ⊢
    exact headingFrom_spaces hall rest

theorem typeKeyword?_alike (cs : List Cell) :
    (typeKeyword? (views cs) = none ∧ typeKeyword? (maskedText cs) = none) ∨
      ∃ kind name ds, ds <:+ cs ∧ typeKeyword? (views cs) = some (kind, name, views ds) ∧
        typeKeyword? (maskedText cs) = some (kind, name, maskedText ds) := by
  obtain ⟨_ | ⟨⟨kind, name⟩, ds⟩, hviews, hmasked, hsuffix⟩ := agree_typeKeyword? cs
  · exact .inl ⟨Option.map_eq_none_iff.1 hviews, Option.map_eq_none_iff.1 hmasked⟩
  · obtain ⟨⟨kind', name', rest⟩, hv, hq⟩ := Option.map_eq_some_iff.1 hviews
    obtain ⟨⟨kind'', name'', rest'⟩, hm, hq'⟩ := Option.map_eq_some_iff.1 hmasked
    simp only [Prod.mk.injEq] at hq hq'
    obtain ⟨⟨rfl, rfl⟩, rfl⟩ := hq
    obtain ⟨⟨rfl, rfl⟩, rfl⟩ := hq'
    exact .inr ⟨_, _, ds, hsuffix _ rfl, hv, hm⟩

theorem drop_of_suffix {α : Type} {xs ys : List α} (h : ys <:+ xs) : xs.drop (xs.length - ys.length) = ys := by
  obtain ⟨front, rfl⟩ := h
  simp

theorem drop_views (h : ds <:+ cs) : cs.drop (cs.length - (views ds).length) = ds := by
  rw [views, List.length_map]
  exact drop_of_suffix h

theorem drop_codes_maskedText (h : ds <:+ cs) :
    (codes (maskedText cs)).drop ((codes (maskedText cs)).length - (maskedText ds).length) = codes (maskedText ds) := by
  obtain ⟨front, rfl⟩ := h
  have hsuffix : codes (maskedText ds) <:+ codes (maskedText (front ++ ds)) :=
    ⟨codes (maskedText front), by rw [maskedText_append, codes_append]⟩
  have hlength : (codes (maskedText ds)).length = (maskedText ds).length := List.length_map _
  rw [← hlength]
  exact drop_of_suffix hsuffix

theorem headingFrom_maskedText (before : Option Char) (cs : List Cell) :
    headingFrom before (codes (maskedText cs)) = (headingFrom before cs).map Heading.inMasked := by
  induction cs generalizing before with
  | nil => rfl
  | cons c cs ih =>
    obtain ⟨xs, hxs, hspace, hall⟩ := c.exists_masked
    have hmasked : codes (maskedText (c :: cs)) = Cell.code c.view :: (codes xs ++ codes (maskedText cs)) := by
      rw [maskedText_cons, hxs, List.cons_append, codes_cons, codes_append]
    have hviews : views (Cell.code c.view :: (codes xs ++ codes (maskedText cs))) = maskedText (c :: cs) := by
      rw [← hmasked, views_codes]
    have hskip : ((headingFrom (some c.view) (codes xs ++ codes (maskedText cs))).map fun h =>
          { h with before := Cell.code c.view :: h.before }) =
        ((headingFrom (some c.view) cs).map fun h => { h with before := c :: h.before }).map Heading.inMasked := by
      rw [headingFrom_masked hspace hall, ih, Option.map_map, Option.map_map, Option.map_map]
      congr 1
      funext h
      simp [Heading.inMasked, maskedText_cons, hxs]
    rw [hmasked, headingFrom, hviews, headingFrom]
    cases hmay : mayPrecedeKeyword before with
    | false => simpa using hskip
    | true =>
      simp only [if_true]
      rcases typeKeyword?_alike (c :: cs) with ⟨hv, hm⟩ | ⟨kind, name, ds, hsuffix, hv, hm⟩
      · rw [hv, hm]
        exact hskip
      · have hds := drop_views hsuffix
        have hds' := drop_codes_maskedText hsuffix
        rw [hmasked] at hds'
        rw [List.length_cons] at hds hds'
        rw [hv, hm]
        simp only [Option.map_some, hds, hds']
        rfl

theorem any_codes_maskedText (p : Char → Bool) (cs : List Cell) :
    (codes (maskedText cs)).any (fun c => p c.view) = cs.any fun c => p c.view := by
  have hall := all_maskedText (fun x => !p x) cs
  rw [List.all_eq_not_any_not, List.all_eq_not_any_not, Bool.not_inj_iff] at hall
  simpa [codes, views, Function.comp_def] using hall

/-- A text has the heading in its masked form that its cells show. -/
theorem heading?_maskedText (cs : List Cell) :
    heading? (codes (maskedText cs)) = (heading? cs).map Heading.inMasked := by
  rw [heading?, heading?, headingFrom_maskedText]
  cases headingFrom none cs with
  | none => rfl
  | some h =>
    have hany := any_codes_maskedText (fun x => x = '(') h.before
    have hparen : (h.inMasked.before.any fun c => decide (c.view = '(')) = h.before.any fun c => decide (c.view = '(') :=
      hany
    simp only [Option.map_some, Option.filter_some, hparen]
    split <;> rfl

end

/-! Assignments, octet by octet. -/

section

variable {depth : Int} {before before' : Option Char}

def Cell.octetCells (c : Cell) : List Cell := codes c.octets

theorem octetCells_maskedText (cs : List Cell) : octetCells (maskedText cs) = cs.flatMap Cell.octetCells := by
  rw [octetCells, octetViews_maskedText, codes, List.map_flatMap]
  rfl

theorem Neutral.compares {x : Char} (h : Neutral x) : compares (some x) = false := by
  have hequal : x ≠ '=' := h.ne (by decide) (by decide)
  have hnot : x ≠ '!' := h.ne (by decide) (by decide)
  have hlt : x ≠ '<' := h.ne (by decide) (by decide)
  have hgt : x ≠ '>' := h.ne (by decide) (by decide)
  simp [Java.compares, *]

theorem assignmentFrom_plain {x : Cell} (hequal : x.view ≠ '=') (hchange : depthChange false x.view = none)
    (rest : List Cell) :
    assignmentFrom depth before (x :: rest) = (assignmentFrom depth (some x.view) rest).map fun q => (x :: q.1, q.2) := by
  rw [assignmentFrom, hchange]
  simp [hequal]

theorem assignmentFrom_neutral {os : List Char} (hne : os ≠ []) (hos : ∀ x ∈ os, Neutral x) (rest : List Cell) :
    assignmentFrom depth before (codes os ++ rest) =
      (assignmentFrom depth (some ' ') rest).map fun q => (codes os ++ q.1, q.2) := by
  induction os generalizing before with
  | nil => exact absurd rfl hne
  | cons x os ih =>
    have hx := hos x List.mem_cons_self
    have hequal : (Cell.code x).view ≠ '=' := hx.ne (by decide) (by decide)
    rw [codes_cons, List.cons_append, assignmentFrom_plain hequal hx.depthChange]
    cases hnil : os with
    | nil =>
      have hcompares : compares (some x) = compares (some ' ') := by rw [hx.compares]; rfl
      rw [codes_nil, List.nil_append, Cell.view_code, assignmentFrom_congr hcompares]
      rfl
    | cons y ys =>
      rw [← hnil, ih (by simp [hnil]) fun z hz => hos z (List.mem_cons_of_mem x hz), Option.map_map]
      rfl

theorem head?_octetCells (cs : List Cell) :
    (cs.flatMap Cell.octetCells).head?.map Cell.view = some '=' ↔ cs.head?.map Cell.view = some '=' := by
  cases cs with
  | nil => rfl
  | cons c cs =>
    obtain ⟨x, xs, hxs⟩ := List.exists_cons_of_ne_nil c.octets_ne_nil
    have hx : Reads x c := c.octet_eq x (by rw [hxs]; exact List.mem_cons_self)
    rw [List.flatMap_cons, Cell.octetCells, hxs]
    simpa using hx.eq_iff (v := '=') (by decide)

theorem assignmentFrom_octets (hbefore : compares before = compares before') (cs : List Cell) :
    assignmentFrom depth before' (cs.flatMap Cell.octetCells) =
      (assignmentFrom depth before cs).map fun q => (q.1.flatMap Cell.octetCells, q.2.flatMap Cell.octetCells) := by
  induction cs generalizing depth before before' with
  | nil => rfl
  | cons c cs ih =>
    rw [List.flatMap_cons]
    by_cases hneutral : Neutral c.view
    · have hos : ∀ x ∈ c.octets, Neutral x := by
        intro x hx
        rcases c.octet_eq x hx with rfl | ⟨hx, -⟩
        · exact hneutral
        · exact .inr hx
      have hcompares : compares (some c.view) = compares (some ' ') := by rw [hneutral.compares]; rfl
      rw [Cell.octetCells, assignmentFrom_neutral c.octets_ne_nil hos, ih hcompares,
        assignmentFrom_plain (hneutral.ne (by decide) (by decide)) hneutral.depthChange, Option.map_map, Option.map_map]
      rfl
    · have hone : c.octetCells = [Cell.code c.view] := by
        rw [Cell.octetCells, Cell.octets_of_not_neutral hneutral]
        rfl
      have hnext : decide ((cs.flatMap Cell.octetCells).head?.map Cell.view = some '=') =
          decide (cs.head?.map Cell.view = some '=') := decide_eq_decide.2 (head?_octetCells cs)
      simp only [Java.compares] at hbefore
      rw [hone, List.singleton_append, assignmentFrom, assignmentFrom, ← hbefore, hnext, Cell.view_code]
      split
      · rfl
      · dsimp only
        have hsame : compares (some c.view) = compares (some c.view) := rfl
        rw [ih hsame, Option.map_map, Option.map_map]
        simp [Function.comp_def, hone]

theorem splitAssignment_octets (cs : List Cell) :
    splitAssignment (octetCells (maskedText cs)) =
      (splitAssignment cs).map fun q => (q.1.flatMap Cell.octetCells, q.2.flatMap Cell.octetCells) := by
  rw [octetCells_maskedText]
  exact assignmentFrom_octets rfl cs

/-- The position of an assignment is the width of what stands before it. -/
theorem assignmentIndex_maskedText (cs : List Cell) :
    assignmentIndex (maskedText cs) = (splitAssignment cs).map fun q => width q.1 := by
  rw [assignmentIndex, splitAssignment_octets, Option.map_map]
  congr 1
  funext q
  rw [Function.comp_apply, width_eq, octetViews_maskedText, ← List.length_map Cell.code, List.map_flatMap]
  rfl

theorem any_octetCells (cs : List Cell) :
    (cs.flatMap Cell.octetCells).any (fun c => c.view = '(') = cs.any fun c => c.view = '(' := by
  induction cs with
  | nil => rfl
  | cons c cs ih =>
    have hc : c.octetCells.any (fun d => d.view = '(') = decide (c.view = '(') := by
      by_cases hneutral : Neutral c.view
      · have hne : c.view ≠ '(' := hneutral.ne (by decide) (by decide)
        rw [decide_eq_false hne, List.any_eq_false]
        intro d hd
        obtain ⟨x, hx, rfl⟩ := List.mem_map.1 hd
        have hreads : Reads x c := c.octet_eq x hx
        simpa [hreads.eq_iff (v := '(') (by decide)] using hne
      · rw [Cell.octetCells, Cell.octets_of_not_neutral hneutral, codes_cons, codes_nil, List.any_cons, List.any_nil,
          Bool.or_false]
        rfl
    rw [List.flatMap_cons, List.any_append, List.any_cons, hc, ih]

theorem isBodiless_maskedText (cs : List Cell) : isBodiless (octetCells (maskedText cs)) = isBodiless cs := by
  rw [isBodiless, isBodiless, splitAssignment_octets]
  cases splitAssignment cs with
  | none => simpa [octetCells_maskedText] using any_octetCells cs
  | some q => exact any_octetCells q.1

theorem isBalanced_maskedText (cs : List Cell) : isBalanced (octetViews (maskedText cs)) = isBalanced (views cs) := by
  suffices h : ∀ stack, balancedFrom stack (octetViews (maskedText cs)) = balancedFrom stack (views cs) from h []
  rw [octetViews_maskedText]
  induction cs with
  | nil => intro stack; rfl
  | cons c cs ih =>
    intro stack
    rw [List.flatMap_cons, show views (c :: cs) = c.view :: views cs from rfl]
    by_cases hneutral : Neutral c.view
    · have hos : Balanced id c.octets := by
        refine .of_forall fun x hx => ?_
        rcases c.octet_eq x hx with rfl | ⟨hx, -⟩
        · exact hneutral.plain
        · exact Neutral.plain (.inr hx)
      have happend : balancedFrom stack (c.octets.map id ++ cs.flatMap Cell.octets) = _ :=
        balancedFrom_append hos stack _
      rw [List.map_id] at happend
      rw [happend, ih, balancedFrom_plain hneutral.plain.1 hneutral.plain.2]
    · rw [Cell.octets_of_not_neutral hneutral, List.singleton_append]
      cases hopen : closer? c.view with
      | some close => rw [balancedFrom_opener hopen, balancedFrom_opener hopen, ih]
      | none =>
        cases hclose : isCloser c.view with
        | false => rw [balancedFrom_plain hopen hclose, balancedFrom_plain hopen hclose, ih]
        | true =>
          cases stack with
          | nil => rw [balancedFrom_closer_nil hopen hclose, balancedFrom_closer_nil hopen hclose]
          | cons close stack => rw [balancedFrom_closer hopen hclose, balancedFrom_closer hopen hclose, ih]

end

/-! Lists of types. -/

section

variable {α β : Type} {view : β → Char} {f : α → β}

theorem trimBlank_map (xs : List α) : trimBlank view (xs.map f) = (trimBlank (view ∘ f) xs).map f := by
  rw [trimBlank, trimBlank, trim, trim, dropEnd, dropEnd, List.dropWhile_map, ← List.map_reverse, List.dropWhile_map,
    ← List.map_reverse]
  rfl

theorem piecesFrom_map (generics : Bool) (sep : Char) (depth : Int) (read xs : List α) :
    piecesFrom view generics sep depth (read.map f) (xs.map f) =
      (piecesFrom (view ∘ f) generics sep depth read xs).map (List.map f) := by
  have hend : ∀ read : List α, nonEmpty (trimBlank view (read.map f).reverse) =
      (nonEmpty (trimBlank (view ∘ f) read.reverse)).map (List.map f) := by
    intro read
    rw [← List.map_reverse, trimBlank_map, nonEmpty, nonEmpty]
    cases trimBlank (view ∘ f) read.reverse <;> rfl
  induction xs generalizing depth read with
  | nil => exact hend read
  | cons x xs ih =>
    rw [List.map_cons, piecesFrom, piecesFrom, Function.comp_apply]
    cases depthChange generics (view (f x)) with
    | some d => exact ih (depth + d) (x :: read)
    | none =>
      simp only
      split
      · rw [hend, List.map_append, ← ih 0 []]
        rfl
      · exact ih depth (x :: read)

end

theorem pieces_codes (generics : Bool) (sep : Char) (as : List Char) :
    pieces Cell.view generics sep (codes as) = (pieces id generics sep as).map codes := by
  have hview : Cell.view ∘ Cell.code = id := rfl
  have hmap : piecesFrom Cell.view generics sep 0 [] (as.map Cell.code) =
      (piecesFrom (Cell.view ∘ Cell.code) generics sep 0 [] as).map (List.map Cell.code) :=
    piecesFrom_map generics sep 0 [] as
  rw [hview] at hmap
  exact hmap

theorem maskedText_codes (as : List Char) : maskedText (codes as) = as := by
  rw [maskedText, codes, List.flatMap_map]
  exact List.flatMap_singleton' as

/-- The types of a clause are cut out of its words without a fault. -/
theorem clauseIn_eq (ws : List (List Char)) (keyword : String) (stops : List String) :
    clauseIn ws keyword stops = .ok (clause ws keyword stops) := by
  rw [clauseIn, clause]
  cases ws.dropWhile (· ≠ keyword.toList) with
  | nil => rfl
  | cons w rest =>
    simp only
    generalize [' '].intercalate (rest.takeWhile fun w => !stops.contains (String.ofList w)) = listed
    have hwhole := Covers.whole (codes listed)
    rw [width, verbatim_codes] at hwhole
    obtain ⟨ss, hss, hpieces⟩ := hwhole.pieceRanges true not_neutral_comma
    rw [maskedText_codes] at hss
    rw [hss, Except.ok_bind]
    rw [pieces_codes] at hpieces
    refine Except.mapM_of_forall₂ ?_
    rw [List.forall₂_map_right_iff] at hpieces ⊢
    refine hpieces.imp fun s piece hpiece => ?_
    have htext := hpiece.textIn_masked
    rw [maskedText_codes, maskedText_codes] at htext
    rw [htext, Except.map_ok]

end WireLayout.Java
