import WireLayout.Proofs.Java.Mask
import WireLayout.Proofs.Java.Ranges.Masked
import WireLayout.Proofs.Layout.Numerals
import WireLayout.Proofs.Routine.Guards

/-! What a routine is read by, in the masked text of cells and in what the cells show. Numbers, calls, tests, positions
and names are read the same, because none of them begins or ends within spaces or counts them; what they leave to be read
is at the same cells. -/

namespace WireLayout.Routine

open WireLayout.Java WireLayout.Text

variable {β γ : Type} {cs ds : List Cell} {c : Cell} {p : Char → Bool}

/-! Steps that agree, and what is made of their results. -/

theorem skipSpaces_cells (cs : List Cell) : ∃ ds, ds <:+ cs ∧ skipSpaces (views cs) = views ds ∧
    skipSpaces (maskedText cs) = maskedText ds :=
  ⟨_, List.dropWhile_suffix _, (span_views isSpace cs).2, (span_maskedText isSpace cs).2⟩

theorem agreeRest_bind_eq {f : List Char → Option γ} {r r' : Option (List Char)} (h : AgreeRest cs r r')
    (hf : ∀ ds, f (maskedText ds) = f (views ds)) : (r' >>= f) = (r >>= f) := by
  obtain ⟨_ | ds, rfl, rfl, -⟩ := h
  · rfl
  · exact hf ds

theorem agree_bind_eq {f : β × List Char → Option γ} {r r' : Option (β × List Char)} (h : Agree cs r r')
    (hf : ∀ b ds, f (b, maskedText ds) = f (b, views ds)) : (r' >>= f) = (r >>= f) := by
  obtain ⟨_ | ⟨b, ds⟩, rfl, rfl, -⟩ := h
  · rfl
  · exact hf b ds

theorem agreeRest_getD {r r' : Option (List Char)} (h : AgreeRest cs r r') :
    ∃ ds, r.getD (views cs) = views ds ∧ r'.getD (maskedText cs) = maskedText ds := by
  obtain ⟨_ | ds, rfl, rfl, -⟩ := h
  · exact ⟨cs, rfl, rfl⟩
  · exact ⟨ds, rfl, rfl⟩

theorem agreeRest_bind {f : List Char → Option (List Char)} {r r' : Option (List Char)} (h : AgreeRest cs r r')
    (hf : ∀ ds, AgreeRest ds (f (views ds)) (f (maskedText ds))) : AgreeRest cs (r >>= f) (r' >>= f) := by
  obtain ⟨_ | ds, rfl, rfl, hsuffix⟩ := h
  · exact .none
  · exact (hf ds).of_suffix (hsuffix ds rfl)

theorem agreeRest_skipSpaces (cs : List Cell) :
    AgreeRest cs (some (skipSpaces (views cs))) (some (skipSpaces (maskedText cs))) := by
  obtain ⟨ds, hsuffix, hviews, hmasked⟩ := skipSpaces_cells cs
  exact ⟨some ds, congrArg some hviews, congrArg some hmasked, by rintro _ ⟨rfl⟩; exact hsuffix⟩

/-- Skipping space first does not matter to a step that agrees. -/
theorem agree_skipSpaces {f : List Char → Option (β × List Char)} (hf : ∀ ds, Agree ds (f (views ds)) (f (maskedText ds)))
    (cs : List Cell) : Agree cs (f (skipSpaces (views cs))) (f (skipSpaces (maskedText cs))) := by
  obtain ⟨ds, hsuffix, hviews, hmasked⟩ := skipSpaces_cells cs
  rw [hviews, hmasked]
  exact (hf ds).of_suffix hsuffix

theorem suffix_of_agree {f : List Char → Option (β × List Char)} (hf : ∀ cs, Agree cs (f (views cs)) (f (maskedText cs)))
    {as : List Char} {q : β × List Char} (h : f as = some q) : q.2 <:+ as := by
  obtain ⟨o, hviews, -, hsuffix⟩ := hf (codes as)
  rw [views_codes, h] at hviews
  obtain ⟨⟨b, ds⟩, rfl, rfl⟩ := Option.map_eq_some_iff.1 hviews.symm
  obtain ⟨front, hfront⟩ := hsuffix _ rfl
  exact ⟨views front, by rw [← (views_codes : views (codes as) = as), ← hfront, views_append]⟩

/-! Numbers. -/

/-- The masked text of cells that show no space is what they show. -/
theorem maskedText_of_spaceless (h : ' ' ∉ views cs) : maskedText cs = views cs :=
  maskedText_eq_views fun _ hc heq => h (heq ▸ List.mem_map_of_mem hc)

theorem mem_maskedText {x : Char} : x ∈ maskedText cs ↔ x ∈ views cs := by
  rw [maskedText, views, List.mem_flatMap, List.mem_map]
  constructor
  · rintro ⟨c, hc, hx⟩
    exact ⟨c, hc, (c.mem_masked x hx).symm⟩
  · rintro ⟨c, hc, rfl⟩
    obtain ⟨xs, hxs, -⟩ := c.exists_masked
    exact ⟨c, hc, by simp [hxs]⟩

theorem magnitude?_body_of_space {cs : List Char} (h : ' ' ∈ cs) : IntLiteral.magnitude? (IntLiteral.body cs) = none := by
  cases hm : IntLiteral.magnitude? (IntLiteral.body cs) with
  | none => rfl
  | some m =>
    obtain ⟨t, n, rfl, hspells, -⟩ := Magnitude.magnitude?_body_iff.1 hm
    exact absurd (Magnitude.isSpace_of_mem_text hspells ' ' h) (by decide)

theorem magnitude?_body_maskedText (cs : List Cell) :
    IntLiteral.magnitude? (IntLiteral.body (maskedText cs)) = IntLiteral.magnitude? (IntLiteral.body (views cs)) := by
  by_cases hspace : ' ' ∈ views cs
  · rw [magnitude?_body_of_space hspace, magnitude?_body_of_space (mem_maskedText.2 hspace)]
  · rw [maskedText_of_spaceless hspace]

theorem masked_of_ne_space (h : c.view ≠ ' ') : c.masked = [c.view] := by
  obtain ⟨xs, hxs, hspace, -⟩ := c.exists_masked
  have hnil : xs = [] := by
    by_contra hne
    exact h (hspace hne)
  rw [hxs, hnil]

theorem maskedText_cons_of_ne_space (h : c.view ≠ ' ') (cs : List Cell) :
    maskedText (c :: cs) = c.view :: maskedText cs := by
  rw [maskedText_cons, masked_of_ne_space h, List.singleton_append]

theorem views_cons (c : Cell) (cs : List Cell) : views (c :: cs) = c.view :: views cs := rfl

theorem read?_maskedText (cs : List Cell) : IntLiteral.read? (maskedText cs) = IntLiteral.read? (views cs) := by
  rw [IntLiteral.read?, IntLiteral.read?, trim_views, trim_maskedText]
  generalize trim (fun c : Cell => isSpace c.view) cs = ts
  cases ts with
  | nil => rfl
  | cons t ts =>
    by_cases hminus : t.view = '-'
    · rw [maskedText_cons_of_ne_space (by rw [hminus]; decide), views_cons, hminus]
      simp only [(span_views isSpace ts).2, (span_maskedText isSpace ts).2, magnitude?_body_maskedText]
    · by_cases hplus : t.view = '+'
      · rw [maskedText_cons_of_ne_space (by rw [hplus]; decide), views_cons, hplus]
        exact magnitude?_body_maskedText ts
      · have hwhole := magnitude?_body_maskedText (t :: ts)
        obtain ⟨xs, hxs, -⟩ := t.exists_masked
        rw [views_cons, maskedText_cons, hxs, List.cons_append] at hwhole ⊢
        split
        · rename_i heq
          exact absurd (List.cons.inj heq).1 hminus
        · rename_i heq
          exact absurd (List.cons.inj heq).1 hplus
        · split
          · rename_i heq
            exact absurd (List.cons.inj heq).1 hminus
          · rename_i heq
            exact absurd (List.cons.inj heq).1 hplus
          · exact hwhole

/-! Calls. -/

/-- The beginning of a call, with what is left behind its parenthesis on its own. -/
def callParts? (before cs : List Char) : Option ((Option (List Char) × List Char) × List Char) :=
  (callHead? before cs).map fun q => ((q.1.receiver, q.1.name), q.2)

def CallHead.ofParts (q : (Option (List Char) × List Char) × List Char) : CallHead := ⟨q.1.1, q.1.2, q.2⟩

theorem suffix_of_calledName? {cs : List Char} {q : List Char × List Char} (h : calledName? cs = some q) :
    '(' :: q.2 <:+ cs := by
  obtain ⟨⟨name, rest⟩, hrun, h⟩ := Option.bind_eq_some_iff.1 h
  obtain ⟨after, htoken, h⟩ := Option.bind_eq_some_iff.1 h
  obtain rfl := Option.some.inj h
  have hskip : '(' :: after = skipSpaces rest := (token?_eq_some_iff.1 htoken).symm
  exact (hskip ▸ List.dropWhile_suffix isSpace : '(' :: after <:+ rest).trans (run?_suffix hrun)

theorem rest_of_callHead? {before cs : List Char} {q : CallHead × List Char} (h : callHead? before cs = some q) :
    q.1.rest = q.2 ∧ '(' :: q.2 <:+ cs := by
  obtain ⟨-, -, h⟩ := Option.bind_eq_some_iff.1 h
  rcases (Option.orElse_eq_some _ _ _).1 h with h | ⟨-, h⟩
  · obtain ⟨⟨receiver, rest⟩, hrun, h⟩ := Option.bind_eq_some_iff.1 h
    obtain ⟨after, htoken, h⟩ := Option.bind_eq_some_iff.1 h
    obtain ⟨-, -, h⟩ := Option.bind_eq_some_iff.1 h
    obtain ⟨called, hname, h⟩ := Option.bind_eq_some_iff.1 h
    obtain rfl := Option.some.inj h
    refine ⟨rfl, (suffix_of_calledName? hname).trans ?_⟩
    exact (List.dropWhile_suffix _).trans ((token?_suffix htoken).trans (run?_suffix hrun))
  · obtain ⟨called, hname, rfl⟩ := Option.map_eq_some_iff.1 h
    exact ⟨rfl, suffix_of_calledName? hname⟩

theorem callHead?_eq (before cs : List Char) :
    callHead? before cs = (callParts? before cs).map fun q => (CallHead.ofParts q, q.2) := by
  rw [callParts?, Option.map_map]
  cases h : callHead? before cs with
  | none => rfl
  | some q =>
    obtain ⟨⟨receiver, name, rest⟩, rest'⟩ := q
    obtain rfl : rest = rest' := (rest_of_callHead? h).1
    rfl

theorem agree_calledName? (cs : List Cell) : Agree cs (calledName? (views cs)) (calledName? (maskedText cs)) := by
  refine (agree_run? isWordOrDollar_space cs).bind fun name ds => ?_
  exact (agree_token? (by decide) ds).bind fun es => .some name List.suffix_rfl

theorem callParts?_eq (before cs : List Char) : callParts? before cs =
    if atWordEdge before cs then
      (do
        let (receiver, rest) ← run? isWordOrDollar cs
        let rest := skipSpaces (← token? "." rest)
        if rest.head?.any isWord then
          (calledName? rest).map fun q => ((some receiver, q.1), q.2)
        else none) <|> (calledName? cs).map fun q => ((none, q.1), q.2)
    else none := by
  rw [callParts?, callHead?]
  cases atWordEdge before cs with
  | false => rfl
  | true =>
    have hon : (calledOn? cs).map (fun q => ((q.1.receiver, q.1.name), q.2)) =
        (do
          let (receiver, rest) ← run? isWordOrDollar cs
          let rest := skipSpaces (← token? "." rest)
          if rest.head?.any isWord then
            (calledName? rest).map fun q => ((some receiver, q.1), q.2)
          else none) := by
      rw [calledOn?]
      cases run? isWordOrDollar cs with
      | none => rfl
      | some q =>
        cases ht : token? "." q.2 with
        | none => simp [ht]
        | some rest =>
          cases hw : (skipSpaces rest).head?.any isWord <;> cases hn : calledName? (skipSpaces rest) <;>
            simp [ht, hw, hn, guard]
    rw [if_pos rfl, ← hon]
    cases calledOn? cs <;> simp [guard, Option.map_map, Function.comp_def]

theorem agree_callParts? (before : List Char) (cs : List Cell) :
    Agree cs (callParts? before (views cs)) (callParts? before (maskedText cs)) := by
  have hedge : atWordEdge before (maskedText cs) = atWordEdge before (views cs) := by
    rw [atWordEdge, atWordEdge, head?_maskedText]
  rw [callParts?_eq, callParts?_eq, hedge]
  split
  · refine Agree.orElse ?_ ((agree_calledName? cs).map fun name => (none, name))
    refine (agree_run? isWordOrDollar_space cs).bind fun receiver ds => (agree_token? (by decide) ds).bind fun es => ?_
    obtain ⟨fs, hsuffix, hviews, hmasked⟩ := skipSpaces_cells es
    simp only [hviews, hmasked, head?_maskedText]
    split
    · exact ((agree_calledName? fs).map fun name => (some receiver, name)).of_suffix hsuffix
    · exact .none
  · exact .none

theorem callParts?_readsCells : ReadsCells callParts? where
  sees before before' cs hhead := by rw [callParts?_eq, callParts?_eq, atWordEdge, atWordEdge, hhead]
  agree := agree_callParts?
  blank before rest := by
    rw [callParts?, callHead?_of_stops (stops_cons.2 isWordOrDollar_space)]
    rfl
  short before cs q hq := by
    obtain ⟨head, hhead, rfl⟩ := Option.map_eq_some_iff.1 hq
    exact (rest_of_callHead? hhead).2.length_le

/-- A parenthesis that is shown in front of the last cells stands at one of the cells before. -/
theorem paren_of_suffix (hparen : '(' :: views ds <:+ views cs) (h : ds <:+ cs) :
    ∃ front paren, cs = front ++ paren :: ds ∧ paren.view = '(' := by
  obtain ⟨before, rfl⟩ := h
  obtain ⟨shown, hshown⟩ := hparen
  have hbefore : views before = shown ++ ['('] := by
    rw [views_append, List.append_cons, List.append_left_inj] at hshown
    exact hshown.symm
  obtain ⟨front, last, rfl, -, hlast⟩ := List.map_eq_append_iff.1 hbefore
  obtain ⟨paren, rfl, hview⟩ := List.map_eq_singleton_iff.1 hlast
  exact ⟨front, paren, by simp, hview⟩

/-- The first call of a name begins at the same cells, and its parenthesis stands before what is left. -/
theorem find?_callHead? (name : List Char) (cs : List Cell) :
    ∃ o : Option ((Option (List Char) × List Char) × List Cell),
      (allMatches callHead? (views cs)).find? (fun h => h.name = name) =
          o.map (fun q => CallHead.ofParts (q.1, views q.2)) ∧
        (allMatches callHead? (maskedText cs)).find? (fun h => h.name = name) =
          o.map (fun q => CallHead.ofParts (q.1, maskedText q.2)) ∧
        ∀ q ∈ o, ∃ front paren, cs = front ++ paren :: q.2 ∧ paren.view = '(' := by
  have hmap : ∀ cs, allMatches callHead? cs = (matchesFrom (withRest callParts?) 0 [] cs).map CallHead.ofParts := by
    intro cs
    rw [← matchesFrom_withRest, allMatches]
    simp only [← callHead?_eq]
  have hnil : ([] : List Char).head? = ([] : List Char).head? := rfl
  obtain ⟨found, hviews, hmasked, hsuffix⟩ := callParts?_readsCells.findsAlike cs hnil
  have hall : allMatches callHead? (views cs) = found.map fun q => CallHead.ofParts (q.1, views q.2) := by
    rw [hmap, hviews, List.map_map]
    rfl
  refine ⟨found.find? fun q => q.1.2 = name, ?_, ?_, fun q hq => ?_⟩
  · rw [hall, List.find?_map]
    rfl
  · rw [hmap, hmasked, List.map_map, List.find?_map]
    rfl
  · have hmem : q ∈ found := List.mem_of_find?_eq_some hq
    refine paren_of_suffix ?_ (hsuffix q hmem)
    have hmatch : CallHead.ofParts (q.1, views q.2) ∈ matchesFrom callHead? 0 [] (views cs) := by
      rw [← allMatches, hall]
      exact List.mem_map_of_mem hmem
    obtain ⟨passed, rest, after, hsplit, hhead⟩ := exists_of_mem_matchesFrom hmatch
    obtain ⟨hrest, hparen⟩ := rest_of_callHead? hhead
    have hafter : views q.2 = after := hrest
    rw [hafter, hsplit]
    exact hparen.trans (List.suffix_append _ _)

/-! Tests of presence bits. -/

def hexNumber? (letter : Char) (cs : List Char) : Option (List Char × List Char) :=
  (literal? ['0', letter] cs).bind fun rest => (run? isHexDigit rest).map fun q => ('0' :: letter :: q.1, q.2)

theorem number?_eq (cs : List Char) :
    number? cs = ((hexNumber? 'x' cs <|> hexNumber? 'X' cs) <|> run? isDigit cs) := by
  unfold number? hexNumber?
  rcases cs with _ | ⟨c, _ | ⟨d, cs⟩⟩
  · rfl
  · by_cases hc : c = '0' <;> simp [literal?, hc]
  · by_cases hc : c = '0'
    · subst hc
      by_cases hx : d = 'x'
      · subst hx
        simp [literal?]
      · by_cases hX : d = 'X'
        · subst hX
          simp [literal?]
        · simp [literal?, hx, hX, Ne.symm hx, Ne.symm hX]
    · simp [literal?, hc, Ne.symm hc]

theorem agree_number? (cs : List Cell) : Agree cs (number? (views cs)) (number? (maskedText cs)) := by
  have hhex : ∀ x : Char, x ≠ ' ' → Agree cs (hexNumber? x (views cs)) (hexNumber? x (maskedText cs)) := by
    intro x hx
    refine (agree_literal? (by simp [Ne.symm hx]) cs).bind fun ds => ?_
    exact (agree_run? (by decide) ds).map fun digits => '0' :: x :: digits
  rw [number?_eq, number?_eq]
  exact ((hhex 'x' (by decide)).orElse (hhex 'X' (by decide))).orElse (agree_run? (by decide) cs)

theorem agree_index? (cs : List Cell) : Agree cs (index? (views cs)) (index? (maskedText cs)) := by
  refine (agree_token? (by decide) cs).bind fun ds => ?_
  refine (agree_skipSpaces (agree_run? (by decide)) ds).bind fun digits es => ?_
  exact (agree_token? (by decide) es).bind fun fs => .some digits List.suffix_rfl

def testRest? (name cs : List Char) : Option (MaskTest × List Char) := do
  let (index, rest) := match index? cs with
    | some (digits, rest) => (some digits, rest)
    | none => (none, cs)
  let (mask, rest) ← number? (skipSpaces (← token? "&" rest))
  let rest ← token? "0" (← token? "!=" (← token? ")" rest))
  some (⟨String.ofList name, index, mask⟩, rest)

theorem agree_testRest? (name : List Char) (cs : List Cell) :
    Agree cs (testRest? name (views cs)) (testRest? name (maskedText cs)) := by
  have htail : ∀ (index : Option (List Char)) (ds : List Cell),
      Agree ds
        (do
          let (mask, rest) ← number? (skipSpaces (← token? "&" (views ds)))
          let rest ← token? "0" (← token? "!=" (← token? ")" rest))
          some ((⟨String.ofList name, index, mask⟩ : MaskTest), rest))
        (do
          let (mask, rest) ← number? (skipSpaces (← token? "&" (maskedText ds)))
          let rest ← token? "0" (← token? "!=" (← token? ")" rest))
          some ((⟨String.ofList name, index, mask⟩ : MaskTest), rest)) := by
    intro index ds
    refine (agree_token? (by decide) ds).bind fun es => (agree_skipSpaces agree_number? es).bind fun mask fs => ?_
    refine (agree_token? (by decide) fs).bind fun gs => (agree_token? (by decide) gs).bind fun hs => ?_
    exact (agree_token? (by decide) hs).bind fun is => .some _ List.suffix_rfl
  unfold testRest?
  obtain ⟨_ | ⟨digits, es⟩, hviews, hmasked, hsuffix⟩ := agree_index? cs
  · rw [Option.map_none] at hviews hmasked
    simp only [hviews, hmasked]
    exact htail none cs
  · rw [Option.map_some] at hviews hmasked
    simp only [hviews, hmasked]
    exact (htail (some digits) es).of_suffix (hsuffix _ rfl)

theorem agree_maskTest? (before : List Char) (cs : List Cell) :
    Agree cs (maskTest? before (views cs)) (maskTest? before (maskedText cs)) :=
  (agree_name? cs).bind fun name ds => agree_testRest? name ds

theorem length_lt_of_maskTest? {before cs : List Char} {q : MaskTest × List Char} (h : maskTest? before cs = some q) :
    q.2.length < cs.length := by
  obtain ⟨⟨name, rest⟩, hname, hrest⟩ := Option.bind_eq_some_iff.1 h
  have hsuffix : q.2 <:+ rest := suffix_of_agree (agree_testRest? name) hrest
  cases cs with
  | nil => cases hname
  | cons c cs =>
    rw [name?] at hname
    split at hname
    · obtain ⟨-, rfl⟩ := Prod.mk.inj (Option.some.inj hname)
      have hle := (hsuffix.trans (List.dropWhile_suffix _)).length_le
      simp only [List.length_cons]
      omega
    · cases hname

theorem maskTest?_readsCells : ReadsCells maskTest? where
  sees _ _ _ _ := rfl
  agree := agree_maskTest?
  blank _ _ := rfl
  short _ _ _ hq := length_lt_of_maskTest? hq

theorem maskTest_maskedText (cs : List Cell) : maskTest (maskedText cs) = maskTest (views cs) := by
  rw [maskTest, maskTest, maskTest?_readsCells.allMatches_maskedText]

/-! Positions and names. -/

structure Scope.Spaceless (scope : Scope) : Prop where
  offsetName : ' ' ∉ scope.offsetName
  pointers : ∀ name ∈ scope.pointers.keys, ' ' ∉ name.toList

theorem trim_cells (cs : List Cell) : ∃ ds, ds <:+: cs ∧ trim isSpace (views cs) = views ds ∧
    trim isSpace (maskedText cs) = maskedText ds := by
  refine ⟨trim (fun c => isSpace c.view) cs, ?_, trim_views isSpace cs, trim_maskedText isSpace cs⟩
  exact prefix_dropEnd.isInfix.trans (List.dropWhile_suffix _).isInfix

theorem splitPlus?_cells (cs : List Cell) : ∃ o : Option (List Cell × List Cell),
    splitPlus? (views cs) = o.map (fun q => (views q.1, views q.2)) ∧
      splitPlus? (maskedText cs) = o.map fun q => (maskedText q.1, maskedText q.2) := by
  have hviews := span_views (fun c => decide (c ≠ '+')) cs
  have hmasked := span_maskedText (fun c => decide (c ≠ '+')) cs
  rw [splitPlus?, splitPlus?, hviews.1, hviews.2, hmasked.1, hmasked.2]
  cases hrest : cs.dropWhile fun c => decide (c.view ≠ '+') with
  | nil => exact ⟨none, rfl, rfl⟩
  | cons c rest =>
    have hplus : c.view = '+' := by
      have hhead := List.head?_dropWhile_not (fun c : Cell => decide (c.view ≠ '+')) cs
      rw [hrest] at hhead
      simpa using hhead
    rw [maskedText_cons_of_ne_space (by rw [hplus]; decide), views_cons]
    exact ⟨some (_, rest), rfl, rfl⟩

namespace Scope.Spaceless

variable {scope : Scope}

theorem position?_maskedText (h : scope.Spaceless) (cs : List Cell) :
    scope.position? (maskedText cs) = scope.position? (views cs) := by
  obtain ⟨ds, -, hviews, hmasked⟩ := trim_cells cs
  obtain ⟨o, hsplit, hsplit'⟩ := splitPlus?_cells ds
  have hname : ∀ cs : List Cell, maskedText cs = scope.offsetName ↔ views cs = scope.offsetName :=
    fun cs => maskedText_eq_iff h.offsetName
  rw [position?, position?, hviews, hmasked]
  simp only [hname, hsplit, hsplit']
  cases o with
  | none => rfl
  | some q =>
    obtain ⟨start, added⟩ := q
    obtain ⟨es, -, hstart, hstart'⟩ := trim_cells start
    simp only [Option.map_some, Option.bind_eq_bind, Option.bind_some, hstart, hstart', hname, read?_maskedText]

theorem find?_maskedText {α : Type} {m : SortedMap String α} (h : ∀ name ∈ m.keys, ' ' ∉ name.toList) (cs : List Cell) :
    m.find? (String.ofList (maskedText cs)) = m.find? (String.ofList (views cs)) := by
  by_cases hspace : ' ' ∈ views cs
  · have hnone : ∀ text : List Char, ' ' ∈ text → m.find? (String.ofList text) = none := by
      intro text htext
      rw [← Option.not_isSome_iff_eq_none, ← SortedMap.mem_keys_iff]
      exact fun hmem => h _ hmem (by simpa using htext)
    rw [hnone _ hspace, hnone _ (mem_maskedText.2 hspace)]
  · rw [maskedText_of_spaceless hspace]

theorem slot?_maskedText (h : scope.Spaceless) (cs : List Cell) :
    scope.slot? (maskedText cs) = scope.slot? (views cs) := by
  obtain ⟨ds, -, hviews, hmasked⟩ := trim_cells cs
  rw [slot?, slot?, hviews, hmasked, find?_maskedText h.pointers]

end Scope.Spaceless

theorem contains_maskedText {w : List Char} (hne : w ≠ []) (hw : ' ' ∉ w) (cs : List Cell) :
    contains w (maskedText cs) = contains w (views cs) := by
  have hblank : ∀ (xs rest : List Char), (∀ x ∈ xs, x = ' ') → contains w (xs ++ rest) = contains w rest := by
    intro xs rest hxs
    induction xs with
    | nil => rfl
    | cons x xs ih =>
      obtain rfl := hxs x List.mem_cons_self
      obtain ⟨l, w, rfl⟩ := List.exists_cons_of_ne_nil hne
      have hl : l ≠ ' ' := fun heq => hw (heq ▸ List.mem_cons_self)
      rw [List.cons_append, contains, literal?, if_neg hl, ih fun y hy => hxs y (List.mem_cons_of_mem _ hy)]
      rfl
  induction cs with
  | nil => rfl
  | cons c cs ih =>
    obtain ⟨xs, hxs, hspace, hall⟩ := c.exists_masked
    obtain ⟨o, hviews, hmasked, -⟩ := agree_literal? hw (c :: cs)
    rw [maskedText_cons, hxs, List.cons_append] at hmasked
    rw [maskedText_cons, hxs, List.cons_append, views_cons, contains, contains, hmasked, ← views_cons, hviews,
      hblank xs _ fun x hx => (hall x hx).trans (hspace (List.ne_nil_of_mem hx)), ih]
    cases o <;> rfl

end WireLayout.Routine
