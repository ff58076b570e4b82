import WireLayout.Java.SourceReader
import WireLayout.Proofs.Text.Marks

/-! The package and the imports of a text. A clause consists of words, points, spaces and a semicolon, so it lies
between two other marks; a text that holds no clause and begins none can be put in front of what begins none
without a change to the clauses that are found. -/

namespace WireLayout.Java

open WireLayout.Text

variable {mark : Char} {before cs ds rest : List Char}

/-- A character that occurs in a clause at its end only. -/
structure IsMark (c : Char) : Prop where
  name : isNamePart c = false
  space : isSpace c = false
  star : c ≠ '*'

theorem notMem_word (h : IsMark mark) {w : List Char} (hw : w.all isNamePart = true) : mark ∉ w := by
  intro hmem
  have hpart := List.all_eq_true.1 hw mark hmem
  rw [h.name] at hpart
  cases hpart

theorem atWordEdge_append (h : cs ≠ []) : atWordEdge before (cs ++ ds) = atWordEdge before cs := by
  cases cs with
  | nil => exact absurd rfl h
  | cons c cs => rfl

def packageRest? (cs : List Char) : Option (String × List Char) := do
  let (name, rest) ← run? isNamePart (← spaces? (← literal? "package".toList cs))
  let rest ← token? ";" rest
  some (String.ofList name, rest)

theorem packageName?_eq : packageName? before cs = if atWordEdge before cs then packageRest? cs else none := by
  unfold packageName? packageRest?
  cases atWordEdge before cs with
  | false => rfl
  | true =>
    cases literal? "package".toList cs with
    | none => rfl
    | some r => cases hs : spaces? r <;> simp [hs]

theorem token?_semicolon_local (h : IsMark mark) (hlast : cs.getLast? = some mark) :
    token? ";" (cs ++ ds) = (token? ";" cs).map (· ++ ds) :=
  token?_before_mark hlast h.space (by simp)

theorem packageRest?_local (h : IsMark mark) (hlast : cs.getLast? = some mark) :
    packageRest? (cs ++ ds) = (packageRest? cs).map fun p => (p.1, p.2 ++ ds) := by
  have hword : mark ∉ "package".toList := notMem_word h (by decide)
  unfold packageRest?
  rw [literal?_before_mark hlast fun hmem => hword (List.dropLast_subset _ hmem)]
  cases hl : literal? "package".toList cs with
  | none => rfl
  | some r =>
    have hr := getLast?_of_literal? hlast hword hl
    simp only [Option.map_some, Option.bind_eq_bind, Option.bind_some]
    rw [spaces?_before_mark hr h.space]
    cases hs : spaces? r with
    | none => rfl
    | some t =>
      have ht := getLast?_of_spaces? hr h.space hs
      simp only [Option.map_some, Option.bind_some]
      rw [run?_before_mark ht h.name]
      cases hn : run? isNamePart t with
      | none => rfl
      | some q =>
        have hq := getLast?_of_run? ht h.name hn
        simp only [Option.map_some, Option.bind_some]
        rw [token?_semicolon_local h hq]
        cases token? ";" q.2 <;> rfl

theorem packageName?_local (h : IsMark mark) : LocalTo mark packageName? := by
  intro before cs ds hlast
  rw [packageName?_eq, packageName?_eq, atWordEdge_append (ne_nil_of_getLast? hlast), packageRest?_local h hlast]
  cases atWordEdge before cs <;> rfl

/-- What follows the name of an import: a star after a point, and the semicolon. -/
def importEnd? (name rest : List Char) : Option (String × List Char) :=
  match rest with
  | '*' :: rest =>
    if name.getLast? = some '.' ∧ 2 ≤ name.length then
      (token? ";" rest).map fun rest => (String.ofList (name ++ ['*']), rest)
    else none
  | rest => (token? ";" rest).map fun rest => (String.ofList name, rest)

theorem importedName?_eq (cs : List Char) : importedName? cs = (run? isNamePart cs).bind fun q => importEnd? q.1 q.2 := by
  unfold importedName? importEnd?
  cases run? isNamePart cs with
  | none => rfl
  | some q =>
    have hnamed : ∀ (x : Option (List Char)) (s : String), (x.bind fun rest => some (s, rest)) = x.map fun rest => (s, rest) :=
      fun x s => by cases x <;> rfl
    obtain ⟨name, rest⟩ := q
    simp only [Option.bind_eq_bind, Option.bind_some]
    cases rest with
    | nil => cases token? ";" [] <;> rfl
    | cons c rest =>
      by_cases hc : c = '*'
      · subst hc
        by_cases hname : name.getLast? = some '.' ∧ 2 ≤ name.length <;> simp [guard, hname, hnamed]
      · simp [hc, hnamed]

theorem importEnd?_local (h : IsMark mark) (name : List Char) (hlast : rest.getLast? = some mark) :
    importEnd? name (rest ++ ds) = (importEnd? name rest).map fun p => (p.1, p.2 ++ ds) := by
  cases rest with
  | nil => cases hlast
  | cons c rest =>
    by_cases hc : c = '*'
    · subst hc
      have hrest : rest.getLast? = some mark := by
        cases rest with
        | nil => exact absurd (Option.some.inj hlast).symm h.star
        | cons d rest => rwa [List.getLast?_cons_of_ne_nil (List.cons_ne_nil d rest)] at hlast
      simp only [List.cons_append, importEnd?, token?_semicolon_local h hrest]
      split
      · cases token? ";" rest <;> rfl
      · rfl
    · have hplain : ∀ rest, importEnd? name (c :: rest) =
          (token? ";" (c :: rest)).map fun rest => (String.ofList name, rest) := by
        intro rest
        unfold importEnd?
        split
        · rename_i heq
          exact absurd (List.cons.inj heq).1 hc
        · rfl
      rw [List.cons_append, hplain, hplain, ← List.cons_append, token?_semicolon_local h hlast]
      cases token? ";" (c :: rest) <;> rfl

theorem importedName?_local (h : IsMark mark) (hlast : cs.getLast? = some mark) :
    importedName? (cs ++ ds) = (importedName? cs).map fun p => (p.1, p.2 ++ ds) := by
  rw [importedName?_eq, importedName?_eq, run?_before_mark hlast h.name]
  cases hn : run? isNamePart cs with
  | none => rfl
  | some q => exact importEnd?_local h q.1 (getLast?_of_run? hlast h.name hn)

def importRest? (cs : List Char) : Option (String × List Char) := do
  let rest ← spaces? (← literal? "import".toList (skipSpaces cs))
  (do importedName? (← spaces? (← literal? "static".toList rest))) <|> importedName? rest

theorem importName?_eq : importName? before cs = if before.head?.all (· = '\n') then importRest? cs else none := by
  unfold importName? importRest?
  cases before.head?.all (· = '\n') <;> rfl

theorem importRest?_local (h : IsMark mark) (hlast : cs.getLast? = some mark) :
    importRest? (cs ++ ds) = (importRest? cs).map fun p => (p.1, p.2 ++ ds) := by
  have himport : mark ∉ "import".toList := notMem_word h (by decide)
  have hstatic : mark ∉ "static".toList := notMem_word h (by decide)
  have hskip : (skipSpaces cs).getLast? = some mark := getLast?_dropWhile hlast h.space
  unfold importRest?
  rw [skipSpaces_before_mark hlast h.space, literal?_before_mark hskip fun hmem => himport (List.dropLast_subset _ hmem)]
  cases hl : literal? "import".toList (skipSpaces cs) with
  | none => rfl
  | some r =>
    have hr := getLast?_of_literal? hskip himport hl
    simp only [Option.map_some, Option.bind_eq_bind, Option.bind_some]
    rw [spaces?_before_mark hr h.space]
    cases hs : spaces? r with
    | none => rfl
    | some t =>
      have ht := getLast?_of_spaces? hr h.space hs
      simp only [Option.map_some, Option.bind_some]
      rw [importedName?_local h ht, literal?_before_mark ht fun hmem => hstatic (List.dropLast_subset _ hmem)]
      cases hl' : literal? "static".toList t with
      | none => simp
      | some u =>
        have hu := getLast?_of_literal? ht hstatic hl'
        simp only [Option.map_some, Option.bind_some]
        rw [spaces?_before_mark hu h.space]
        cases hs' : spaces? u with
        | none => simp
        | some v =>
          simp only [Option.map_some, Option.bind_some]
          rw [importedName?_local h (getLast?_of_spaces? hu h.space hs')]
          cases importedName? v <;> simp

theorem importName?_local (h : IsMark mark) : LocalTo mark importName? := by
  intro before cs ds hlast
  rw [importName?_eq, importName?_eq, importRest?_local h hlast]
  split <;> rfl

theorem packageName?_seesLast : SeesLast packageName? := by
  intro before before' cs hhead
  rw [packageName?_eq, packageName?_eq, atWordEdge, atWordEdge, hhead]

theorem importName?_seesLast : SeesLast importName? := by
  intro before before' cs hhead
  rw [importName?_eq, importName?_eq, hhead]

/-! A text in front of another one. -/

/-- No word goes on from the text before, last character first. -/
def Edge (before : List Char) : Prop := ∀ c ∈ before.head?, isWord c = false

theorem isWord_of_isSpace {c : Char} (h : isSpace c = true) : isWord c = false := by
  by_contra hword
  have hspace := isSpace_of_isWordOrDollar (c := c) (by rw [isWordOrDollar, Bool.not_eq_false _ |>.mp hword]; rfl)
  rw [h] at hspace
  cases hspace

theorem IsMark.isWord {c : Char} (h : IsMark c) : isWord c = false := by
  have hname := h.name
  rw [isNamePart, Bool.or_eq_false_iff] at hname
  exact hname.1

theorem isMark_close : IsMark ')' := ⟨by decide, by decide, by decide⟩

/-- An annotation as a text: its name, its arguments in parentheses, and the space after it. -/
structure Tag where
  name : List Char
  arguments : Option (List Char)
  gap : List Char

namespace Tag

def parentheses : Option (List Char) → List Char
  | none => []
  | some inside => '(' :: (inside ++ [')'])

def text (t : Tag) : List Char := '@' :: (t.name ++ (parentheses t.arguments ++ t.gap))

end Tag

section

variable {β : Type} {step : List Char → List Char → Option (β × List Char)}

structure BetweenMarks (step : List Char → List Char → Option (β × List Char)) : Prop where
  localTo : ∀ mark, IsMark mark → LocalTo mark step
  seesLast : SeesLast step
  sign : ∀ before spaces cs, (∀ c ∈ spaces, isSpace c = true) → step before (spaces ++ '@' :: cs) = none

/-- A text at whose beginning a step finds nothing in the spaces before it, and in which it depends on the edge only. -/
structure BeginsNone (step : List Char → List Char → Option (β × List Char)) (rest : List Char) : Prop where
  spaces : ∀ before spaces, spaces ≠ [] → (∀ c ∈ spaces, isSpace c = true) → step before (spaces ++ rest) = none
  edge : ∀ before before', Edge before → Edge before' → step before rest = step before' rest

theorem matchesFrom_spaces {spaces : List Char} (hspaces : ∀ c ∈ spaces, isSpace c = true)
    (h : ∀ before spaces, spaces ≠ [] → (∀ c ∈ spaces, isSpace c = true) → step before (spaces ++ rest) = none) :
    matchesFrom step 0 before (spaces ++ rest) = matchesFrom step 0 (spaces.reverse ++ before) rest := by
  refine matchesFrom_silent fun u c v heq => ?_
  have hv : ∀ d ∈ c :: v, isSpace d = true := fun d hd => hspaces d (by rw [heq]; exact List.mem_append_right u hd)
  exact h _ (c :: v) (List.cons_ne_nil c v) hv

theorem matchesFrom_edge (h : BeginsNone step rest) (hsees : SeesLast step) {before' : List Char}
    (hbefore : Edge before) (hbefore' : Edge before') :
    matchesFrom step 0 before rest = matchesFrom step 0 before' rest := by
  cases rest with
  | nil => rfl
  | cons c rest =>
    have hstep := h.edge before before' hbefore hbefore'
    rw [matchesFrom, matchesFrom, hstep]
    have hnext : ∀ skip, matchesFrom step skip (c :: before) rest = matchesFrom step skip (c :: before') rest := by
      intro skip
      apply matchesFrom_congr hsees
      rfl
    cases step before' (c :: rest) <;> simp only [hnext]

theorem allMatches_behind (hbetween : BetweenMarks step) {front spaces : List Char}
    (hfront : ∀ c ∈ front.getLast?, IsMark c) (hspaces : ∀ c ∈ spaces, isSpace c = true)
    (h : ∀ before spaces, spaces ≠ [] → (∀ c ∈ spaces, isSpace c = true) → step before (spaces ++ rest) = none) :
    allMatches step ((front ++ spaces) ++ rest) =
      allMatches step front ++ matchesFrom step 0 (spaces.reverse ++ front.reverse) rest := by
  have hcut : matchesFrom step 0 [] (front ++ (spaces ++ rest)) =
      matchesFrom step 0 [] front ++ matchesFrom step 0 (front.reverse ++ []) (spaces ++ rest) := by
    cases hlast : front.getLast? with
    | none =>
      rw [List.getLast?_eq_none_iff.1 hlast]
      rfl
    | some mark =>
      exact matchesFrom_mark (hbetween.localTo mark (hfront mark hlast)) (by simp [hlast]) (Nat.zero_le _)
  rw [List.append_assoc, allMatches, hcut, List.append_nil, matchesFrom_spaces hspaces h, allMatches]

/-- A tag without matches is passed over, if none begins in its name. -/
theorem matchesFrom_tag (hbetween : BetweenMarks step) (hrest : BeginsNone step rest) {t : Tag}
    (hgap : ∀ c ∈ t.gap, isSpace c = true) {more : List Char} (hinside : allMatches step (t.text ++ more) = [])
    (hname : t.arguments = none → ∀ u c v, t.name = u ++ c :: v →
      step (u.reverse ++ '@' :: before) (c :: (v ++ (t.gap ++ rest))) = none) :
    matchesFrom step 0 before (t.text ++ rest) = matchesFrom step 0 (t.text.reverse ++ before) rest := by
  have hsign : ∀ before cs, step before ('@' :: cs) = none :=
    fun before cs => hbetween.sign before [] cs (by simp)
  cases harguments : t.arguments with
  | none =>
    have htext : t.text = '@' :: (t.name ++ t.gap) := by rw [Tag.text, harguments]; rfl
    rw [htext, List.cons_append, List.append_assoc, matchesFrom_of_none (hsign _ _),
      matchesFrom_silent (hname harguments), matchesFrom_spaces hgap hrest.spaces]
    simp
  | some inside =>
    have htext : t.text = ('@' :: (t.name ++ '(' :: (inside ++ [')']))) ++ t.gap := by
      rw [Tag.text, harguments, Tag.parentheses]
      simp
    generalize hbody : t.name ++ '(' :: (inside ++ [')']) = body at htext
    have hlast : ('@' :: body).getLast? = some ')' := by
      rw [← hbody]
      simp [List.getLast?_cons, List.getLast?_append]
    have hsplit : ∀ before cs, matchesFrom step 0 before (('@' :: body) ++ cs) =
        matchesFrom step 0 before ('@' :: body) ++ matchesFrom step 0 (('@' :: body).reverse ++ before) cs :=
      fun before cs => matchesFrom_mark (hbetween.localTo ')' isMark_close) (by simp [hlast]) (Nat.zero_le _)
    have hnone : matchesFrom step 0 before ('@' :: body) = [] := by
      have hstart : matchesFrom step 0 [] ('@' :: body) = [] := by
        rw [allMatches, htext, List.append_assoc, hsplit, List.append_eq_nil_iff] at hinside
        exact hinside.1
      rw [matchesFrom_of_none (hsign _ _)] at hstart ⊢
      rw [← hstart]
      apply matchesFrom_congr hbetween.seesLast
      rfl
    rw [htext, List.append_assoc, hsplit, hnone, List.nil_append, matchesFrom_spaces hgap hrest.spaces]
    simp

theorem edge_behind {front spaces : List Char} (hfront : ∀ c ∈ front.getLast?, IsMark c)
    (hspaces : ∀ c ∈ spaces, isSpace c = true) : Edge (spaces.reverse ++ front.reverse) := by
  intro c hc
  rw [← List.reverse_append, List.head?_reverse, List.getLast?_append, Option.mem_def, Option.or_eq_some_iff] at hc
  rcases hc with hc | ⟨-, hc⟩
  · exact isWord_of_isSpace (hspaces c (List.mem_of_getLast? hc))
  · exact (hfront c hc).isWord

theorem edge_tag {t : Tag} (hgap : ∀ c ∈ t.gap, isSpace c = true) (hspaced : t.arguments = none → t.gap ≠ []) :
    Edge (t.text.reverse ++ before) := by
  intro c hc
  have hne : t.text.reverse ≠ [] := by simp [Tag.text]
  obtain ⟨d, ds, hd⟩ := List.exists_cons_of_ne_nil hne
  have hlast : t.text.getLast? = some c := by
    rw [← List.head?_reverse, hd]
    rw [hd] at hc
    exact hc
  cases harguments : t.arguments with
  | none =>
    have htext : t.text = ('@' :: t.name) ++ t.gap := by rw [Tag.text, harguments]; rfl
    rw [htext, List.getLast?_append_of_ne_nil _ (hspaced harguments)] at hlast
    exact isWord_of_isSpace (hgap c (List.mem_of_getLast? hlast))
  | some inside =>
    have htext : t.text = ('@' :: (t.name ++ '(' :: (inside ++ [')']))) ++ t.gap := by
      rw [Tag.text, harguments, Tag.parentheses]
      simp
    rw [htext, List.getLast?_append, Option.or_eq_some_iff] at hlast
    rcases hlast with hlast | ⟨-, hlast⟩
    · exact isWord_of_isSpace (hgap c (List.mem_of_getLast? hlast))
    · have hclose : c = ')' := by
        rw [show '@' :: (t.name ++ '(' :: (inside ++ [')'])) = ('@' :: (t.name ++ '(' :: inside)) ++ [')'] by simp,
          List.getLast?_concat] at hlast
        exact (Option.some.inj hlast).symm
      rw [hclose]
      exact isMark_close.isWord

/-- A tag without matches, put between a mark and a text that begins none, changes no match. -/
theorem allMatches_insert (hbetween : BetweenMarks step) (hrest : BeginsNone step rest) {front spaces : List Char}
    (hfront : ∀ c ∈ front.getLast?, IsMark c) (hspaces : ∀ c ∈ spaces, isSpace c = true) {t : Tag}
    (hgap : ∀ c ∈ t.gap, isSpace c = true) (hspaced : t.arguments = none → t.gap ≠ []) {more : List Char}
    (hinside : allMatches step (t.text ++ more) = [])
    (hname : t.arguments = none → ∀ before u c v, t.name = u ++ c :: v →
      step (u.reverse ++ '@' :: before) (c :: (v ++ (t.gap ++ rest))) = none) :
    allMatches step ((front ++ spaces) ++ (t.text ++ rest)) = allMatches step ((front ++ spaces) ++ rest) := by
  rw [allMatches_behind hbetween hfront hspaces hrest.spaces, allMatches_behind hbetween hfront hspaces,
    matchesFrom_tag hbetween hrest hgap hinside fun h => hname h _,
    matchesFrom_edge hrest hbetween.seesLast (edge_tag hgap hspaced) (edge_behind hfront hspaces)]
  intro before spaces _ hspaces
  rw [Tag.text, List.cons_append]
  exact hbetween.sign before spaces _ hspaces

end

/-! Clauses. -/

theorem literal?_eq_none_of_head? {x : Char} {l : List Char} (h : cs.head? ≠ some x) : literal? (x :: l) cs = none := by
  cases cs with
  | nil => rfl
  | cons c cs =>
    rw [literal?, if_neg]
    rintro rfl
    exact h rfl

theorem packageRest?_eq_none (h : cs.head? ≠ some 'p') : packageRest? cs = none := by
  have hliteral : literal? "package".toList cs = none := literal?_eq_none_of_head? h
  rw [packageRest?, hliteral]
  rfl

theorem packageName?_eq_none (h : cs.head? ≠ some 'p') : packageName? before cs = none := by
  rw [packageName?_eq, packageRest?_eq_none h, ite_self]

theorem head?_spaces {spaces : List Char} {x : Char} (hspaces : ∀ c ∈ spaces, isSpace c = true) (hx : isSpace x = false)
    (hrest : spaces = [] → rest.head? ≠ some x) : (spaces ++ rest).head? ≠ some x := by
  cases spaces with
  | nil => exact hrest rfl
  | cons s spaces =>
    intro heq
    have hspace := hspaces s List.mem_cons_self
    rw [Option.some.inj heq, hx] at hspace
    cases hspace

theorem packageName?_between : BetweenMarks packageName? where
  localTo _ := packageName?_local
  seesLast := packageName?_seesLast
  sign _ _ _ hspaces := packageName?_eq_none (head?_spaces hspaces (by decide) fun _ => by simp)

theorem packageName?_beginsNone (rest : List Char) : BeginsNone packageName? rest where
  spaces _ _ hne hspaces := packageName?_eq_none (head?_spaces hspaces (by decide) fun h => absurd h hne)
  edge before before' hbefore hbefore' := by
    have hedge : ∀ {before : List Char}, Edge before → before.head?.any isWord = false := by
      intro before h
      cases hb : before.head? with
      | none => rfl
      | some c => exact h c hb
    rw [packageName?_eq, packageName?_eq, atWordEdge, atWordEdge, hedge hbefore, hedge hbefore']

theorem skipSpaces_append {spaces : List Char} (hspaces : ∀ c ∈ spaces, isSpace c = true) :
    skipSpaces (spaces ++ cs) = skipSpaces cs := List.dropWhile_append_of_pos hspaces

theorem importRest?_spaces {spaces : List Char} (hspaces : ∀ c ∈ spaces, isSpace c = true) :
    importRest? (spaces ++ cs) = importRest? cs := by
  rw [importRest?, importRest?, skipSpaces_append hspaces]

theorem importRest?_sign : importRest? ('@' :: cs) = none := by
  have hskip : skipSpaces ('@' :: cs) = '@' :: cs := skipSpaces_of_stops (by simp; decide)
  have hhead : ('@' :: cs).head? ≠ some 'i' := by simp
  have hliteral : literal? "import".toList ('@' :: cs) = none := literal?_eq_none_of_head? hhead
  rw [importRest?, hskip, hliteral]
  rfl

theorem importName?_eq_none (h : importRest? cs = none) : importName? before cs = none := by
  rw [importName?_eq, h, ite_self]

theorem importName?_between : BetweenMarks importName? where
  localTo _ := importName?_local
  seesLast := importName?_seesLast
  sign _ _ _ hspaces := importName?_eq_none ((importRest?_spaces hspaces).trans importRest?_sign)

theorem importName?_beginsNone (h : importRest? rest = none) : BeginsNone importName? rest where
  spaces _ _ _ hspaces := importName?_eq_none ((importRest?_spaces hspaces).trans h)
  edge _ _ _ _ := (importName?_eq_none h).trans (importName?_eq_none h).symm

/-- The word that begins a package clause is all of what stands before the space. -/
theorem eq_package_of_packageRest? {w gap : List Char} {p : String × List Char} (hw : ∀ c ∈ w, isSpace c = false)
    (hgap : ∀ c ∈ gap, isSpace c = true) (hne : gap ≠ []) (h : packageRest? (w ++ (gap ++ rest)) = some p) :
    w = "package".toList := by
  obtain ⟨r, hr, h⟩ := Option.bind_eq_some_iff.1 h
  obtain ⟨t, ht, -⟩ := Option.bind_eq_some_iff.1 h
  obtain ⟨-, s, hs, hspace⟩ := spaces?_eq_some ht
  have hstop : Stops (fun c => !isSpace c) r := by
    intro c hc
    obtain rfl := Option.mem_unique hc hs
    simp [hspace]
  have hstop' : Stops (fun c => !isSpace c) (gap ++ rest) := by
    obtain ⟨g, gap, rfl⟩ := List.exists_cons_of_ne_nil hne
    simp [hgap g List.mem_cons_self]
  have hall : ∀ c ∈ "package".toList, (fun c => !isSpace c) c = true := by
    intro c hc
    have hword := List.all_eq_true.1 (show "package".toList.all (fun c => !isSpace c) = true by decide) c hc
    exact hword
  have hplain : ∀ c ∈ w, (fun c => !isSpace c) c = true := fun c hc => by simp [hw c hc]
  rw [← takeWhile_append_of_stops hplain hstop', literal?_eq_some_iff.1 hr, takeWhile_append_of_stops hall hstop]

theorem packageRest?_word {gap : List Char} (hgap : ∀ c ∈ gap, isSpace c = true) (hne : gap ≠ []) :
    packageRest? ("package".toList ++ (gap ++ ['x', ';'])) = some ("x", []) := by
  have hspaces : spaces? (gap ++ ['x', ';']) = some ['x', ';'] := by
    rw [spaces?, run?_append hne hgap (by simp; decide)]
    rfl
  rw [packageRest?, literal?_append]
  simp only [Option.bind_eq_bind, Option.bind_some, hspaces]
  decide

/-- Before `x;` the tag holds no clause and begins none. -/
structure Clauseless (t : Tag) : Prop where
  package : allMatches packageName? (t.text ++ ['x', ';']) = []
  imports : allMatches importName? (t.text ++ ['x', ';']) = []

/-- In the name of a tag without arguments no package clause begins: it would begin before `x;` as well. -/
theorem Clauseless.packageName?_name {t : Tag} (h : Clauseless t) (hnospace : ∀ c ∈ t.name, isSpace c = false)
    (hgap : ∀ c ∈ t.gap, isSpace c = true) (hne : t.gap ≠ []) (hnone : t.arguments = none) (before : List Char)
    {u v : List Char} {c : Char} (heq : t.name = u ++ c :: v) (rest : List Char) :
    packageName? (u.reverse ++ '@' :: before) (c :: (v ++ (t.gap ++ rest))) = none := by
  have htext : t.text ++ ['x', ';'] = ('@' :: u) ++ c :: (v ++ (t.gap ++ ['x', ';'])) := by
    simp [Tag.text, hnone, Tag.parentheses, heq]
  have hhere := matchesFrom_eq_nil_iff.1 h.package ('@' :: u) c _ htext
  have hhead : (u.reverse ++ '@' :: before).head? = (('@' :: u).reverse ++ []).head? := by
    cases hu : u.reverse <;> simp [hu]
  rw [packageName?_seesLast _ _ _ hhead]
  rw [packageName?_eq, ite_eq_right_iff] at hhere ⊢
  intro hedge
  have hword : c :: v ≠ "package".toList := by
    intro hpackage
    have hfound := packageRest?_word hgap hne
    rw [← hpackage, List.cons_append, hhere hedge] at hfound
    cases hfound
  by_contra hsome
  obtain ⟨p, hp⟩ := Option.ne_none_iff_exists'.1 hsome
  rw [← List.cons_append] at hp
  exact hword (eq_package_of_packageRest? (fun d hd => hnospace d (by rw [heq]; exact List.mem_append_right u hd))
    hgap hne hp)

/-- Behind an at-sign and letters no import begins: the line does not begin there. -/
theorem importName?_name {u : List Char} (hnospace : ∀ c ∈ u, isSpace c = false) (before cs : List Char) :
    importName? (u.reverse ++ '@' :: before) cs = none := by
  rw [importName?_eq, if_neg]
  intro hline
  have hne : ∀ d ∈ (u.reverse ++ '@' :: before).head?, d ≠ '\n' := by
    rintro d hd rfl
    cases hu : u.reverse with
    | nil =>
      rw [hu] at hd
      cases hd
    | cons x xs =>
      rw [hu] at hd
      have hspace := hnospace x (List.mem_reverse.1 (by rw [hu]; exact List.mem_cons_self))
      rw [show x = '\n' from Option.some.inj hd] at hspace
      cases hspace
  cases hhead : (u.reverse ++ '@' :: before).head? with
  | none => simp at hhead
  | some d =>
    rw [hhead] at hline
    exact hne d hhead (of_decide_eq_true hline)

/-- A tag without clauses before a text that does not begin with an import changes no clause. -/
theorem clauses_insert {front spaces : List Char} (hfront : ∀ c ∈ front.getLast?, IsMark c)
    (hspaces : ∀ c ∈ spaces, isSpace c = true) {t : Tag} (hname : ∀ c ∈ t.name, isIdent c = true ∨ c = '.')
    (hgap : ∀ c ∈ t.gap, isSpace c = true) (hspaced : t.arguments = none → t.gap ≠ []) (ht : Clauseless t)
    (hrest : importRest? rest = none) :
    allMatches packageName? ((front ++ spaces) ++ (t.text ++ rest)) = allMatches packageName? ((front ++ spaces) ++ rest) ∧
      allMatches importName? ((front ++ spaces) ++ (t.text ++ rest)) =
        allMatches importName? ((front ++ spaces) ++ rest) := by
  have hnospace : ∀ c ∈ t.name, isSpace c = false := by
    intro c hc
    rcases hname c hc with hident | rfl
    · exact isSpace_of_isIdent hident
    · decide
  refine ⟨allMatches_insert packageName?_between (packageName?_beginsNone rest) hfront hspaces hgap hspaced ht.package
    ?_, allMatches_insert importName?_between (importName?_beginsNone hrest) hfront hspaces hgap hspaced ht.imports ?_⟩
  · intro hnone before u c v heq
    exact ht.packageName?_name hnospace hgap (hspaced hnone) hnone before heq _
  · intro hnone before u c v heq
    exact importName?_name (fun x hx => hnospace x (by rw [heq]; exact List.mem_append_left _ hx)) before _

end WireLayout.Java
