import WireLayout.Bundle
import WireLayout.Proofs.Java.Mask
import WireLayout.Proofs.Java.TypeText
import WireLayout.Proofs.Text.WordMatches

/-! The helpers that a bundle carries with a routine. Calls are searched for behind the edges of words, and a dollar
belongs to names but not to words. As long as no name that begins with a dollar stands where a call or its receiver
does, the search finds the calls of whole names on the routine's own type and no others, and the helpers are the static
methods that are called so. -/

namespace WireLayout.Bundle

open WireLayout.Java WireLayout.Text

variable {before cs w u v gap rest after shown : List Char} {c : Char}

/-- A name is called: it stands as a whole before a parenthesis, outside comments and literals, and either no point
stands before it or the whole name of the owner and a point do. -/
inductive Called (owner name : List Char) (cs : List Cell) : Prop
  | bare {before after : List Cell} (hcs : cs = before ++ (codes name ++ after)) (hname : WholeName name)
      (hstart : Stops isWordOrDollar (views before).reverse)
      (hpoint : (skipSpaces (views before).reverse).head? ≠ some '.')
      (hopen : (skipSpaces (views after)).head? = some '(')
  | own {before gap gap' after : List Cell}
      (hcs : cs = before ++ (codes owner ++ (gap ++ Cell.code '.' :: (gap' ++ (codes name ++ after)))))
      (howner : WholeName owner) (hname : WholeName name)
      (hstart : Stops isWordOrDollar (views before).reverse) (hgap : ∀ c ∈ views gap, isSpace c = true)
      (hgap' : ∀ c ∈ views gap', isSpace c = true) (hopen : (skipSpaces (views after)).head? = some '(')

/-- A word with a dollar in it begins with a letter or an underscore where it is called or something is called on it. -/
def DollarsInside (shown : List Char) : Prop :=
  ∀ u w v, shown = u ++ (w ++ v) → Stops isWordOrDollar u.reverse → (∀ c ∈ w, isWordOrDollar c = true) →
    Stops isWordOrDollar v → '$' ∈ w → (skipSpaces v).head? = some '(' ∨ (skipSpaces v).head? = some '.' →
      ∀ c ∈ w.head?, isAsciiLetter c = true ∨ c = '_'

/-! What the two steps read. -/

theorem bareCall?_eq_some_iff {call : String × Bool} :
    bareCall? before cs = some (call, rest) ↔ atWordEdge before cs = true ∧
      ∃ w gap, cs = w ++ (gap ++ '(' :: rest) ∧ WholeName w ∧ (∀ c ∈ gap, isSpace c = true) ∧
        call = (String.ofList w, decide ((skipSpaces before).head? = some '.')) := by
  simp only [bareCall?, Option.bind_eq_bind, Option.bind_eq_some_iff, Option.guard_eq_some', Prod.exists,
    name?_eq_some_iff, token?_mark (show "(".toList = ['('] from rfl) (by decide), Option.some.injEq, Prod.mk.injEq]
  constructor
  · rintro ⟨-, hedge, w, after, ⟨rfl, hname, -⟩, rest', ⟨gap, hgap, rfl⟩, rfl, rfl⟩
    exact ⟨hedge, w, gap, rfl, hname, hgap, rfl⟩
  · rintro ⟨hedge, w, gap, rfl, hname, hgap, rfl⟩
    exact ⟨(), hedge, w, gap ++ '(' :: rest, ⟨rfl, hname, stops_gap _ hgap isWordOrDollar_open⟩, rest, ⟨gap, hgap, rfl⟩,
      rfl, rfl⟩

theorem qualifiedCall?_eq_some_iff {target : CallTarget} :
    qualifiedCall? before cs = some (target, rest) ↔ atWordEdge before cs = true ∧
      ∃ w gap gap' w' gap'', cs = w ++ (gap ++ '.' :: (gap' ++ (w' ++ (gap'' ++ '(' :: rest)))) ∧ WholeName w ∧
        WholeName w' ∧ (∀ c ∈ gap, isSpace c = true) ∧ (∀ c ∈ gap', isSpace c = true) ∧
          (∀ c ∈ gap'', isSpace c = true) ∧ target = ⟨String.ofList w, String.ofList w'⟩ := by
  simp only [qualifiedCall?, Option.bind_eq_bind, Option.bind_eq_some_iff, Option.guard_eq_some', Prod.exists,
    name?_eq_some_iff, token?_mark (show "(".toList = ['('] from rfl) (by decide),
    token?_mark (show ".".toList = ['.'] from rfl) (by decide), Option.some.injEq, Prod.mk.injEq]
  constructor
  · rintro ⟨-, hedge, w, after, ⟨rfl, hname, -⟩, tail, ⟨gap, hgap, rfl⟩, w', after', ⟨htail, hname', -⟩, rest',
      ⟨gap'', hgap'', rfl⟩, rfl, rfl⟩
    refine ⟨hedge, w, gap, tail.takeWhile isSpace, w', gap'', ?_, hname, hname', hgap,
      fun c hc => List.mem_takeWhile_imp hc, hgap'', rfl⟩
    rw [← htail, skipSpaces, List.takeWhile_append_dropWhile]
  · rintro ⟨hedge, w, gap, gap', w', gap'', rfl, hname, hname', hgap, hgap', hgap'', rfl⟩
    refine ⟨(), hedge, w, _, ⟨rfl, hname, stops_gap _ hgap isWordOrDollar_point⟩, _, ⟨gap, hgap, rfl⟩, w', _,
      ⟨?_, hname', stops_gap _ hgap'' isWordOrDollar_open⟩, rest, ⟨gap'', hgap'', rfl⟩, rfl, rfl⟩
    refine dropWhile_append_of_stops hgap' fun c hc => ?_
    rw [List.head?_append_of_ne_nil _ hname'.ne_nil] at hc
    exact isSpace_of_isWordOrDollar (hname'.chars c (List.mem_of_mem_head? hc))

/-! Both steps find words. -/

/-- An edge lies before the name at the beginning of a word. -/
theorem atWordEdge_of_dollars (h : DollarsInside shown) (hshown : shown = before.reverse ++ (w ++ rest))
    (hstop : Stops isWordOrDollar before) (hname : WholeName w)
    (hnext : (skipSpaces rest).head? = some '(' ∨ (skipSpaces rest).head? = some '.')
    (hend : Stops isWordOrDollar rest) : atWordEdge before (w ++ rest) = true := by
  obtain ⟨c, hc, hstart⟩ := hname.head
  have hword : isWord c = true := by
    by_cases hdollar : c = '$'
    · subst hdollar
      have hmem := List.mem_of_mem_head? hc
      rcases h before.reverse w rest hshown (by simpa using hstop) hname.chars hend hmem hnext '$' hc with h | h
      · exact absurd h (by decide)
      · exact absurd h (by decide)
    · simpa [isWordOrDollar, hdollar] using isWordOrDollar_of_isNameStart hstart
  have hbefore : before.head?.any isWord = false := by
    rw [Option.any_eq_false]
    exact fun d hd => by simpa using isWord_of_isWordOrDollar (hstop d hd)
  have hhead : (w ++ rest).head? = some c := by rw [List.head?_append_of_ne_nil _ hname.ne_nil]; exact hc
  simp [atWordEdge, hbefore, hhead, hword]

/-- An edge inside of a word lies at a dollar, so that the whole word is a name too. -/
theorem wholeName_of_edge (h : DollarsInside shown) (hshown : shown = before.reverse ++ (u ++ (w ++ rest)))
    (hstop : Stops isWordOrDollar before) (hne : u ≠ []) (hu : ∀ c ∈ u, isWordOrDollar c = true) (hname : WholeName w)
    (hnext : (skipSpaces rest).head? = some '(' ∨ (skipSpaces rest).head? = some '.')
    (hend : Stops isWordOrDollar rest) (hedge : atWordEdge (u.reverse ++ before) (w ++ rest) = true) :
    WholeName (u ++ w) := by
  have hchars : ∀ c ∈ u ++ w, isWordOrDollar c = true := fun c hc =>
    (List.mem_append.1 hc).elim (hu c) (hname.chars c)
  have hdollar : '$' ∈ u ++ w := by
    by_contra hnone
    have hword : ∀ c ∈ u ++ w, isWord c = true := fun c hc => by
      have hne : c ≠ '$' := by
        rintro rfl
        exact hnone hc
      simpa [isWordOrDollar, hne] using hchars c hc
    obtain ⟨x, hx⟩ : ∃ x, u.getLast? = some x := ⟨_, List.getLast?_eq_some_getLast hne⟩
    obtain ⟨y, hy, -⟩ := hname.head
    have hlast : (u.reverse ++ before).head? = some x := by
      rw [List.head?_append_of_ne_nil _ (by simpa using hne), List.head?_reverse, hx]
    have hfirst : (w ++ rest).head? = some y := by rw [List.head?_append_of_ne_nil _ hname.ne_nil]; exact hy
    have hxword := hword x (List.mem_append_left w (List.mem_of_mem_getLast? hx))
    have hyword := hword y (List.mem_append_right u (List.mem_of_mem_head? hy))
    simp [atWordEdge, hlast, hfirst, hxword, hyword] at hedge
  obtain ⟨c, hc⟩ : ∃ c, (u ++ w).head? = some c := by
    obtain ⟨x, u, rfl⟩ := List.exists_cons_of_ne_nil hne
    exact ⟨x, rfl⟩
  have hletter := h before.reverse (u ++ w) rest (by rw [hshown, List.append_assoc]) (by simpa using hstop) hchars hend
    hdollar hnext c hc
  refine ⟨⟨c, hc, ?_⟩, hchars⟩
  rcases hletter with hletter | rfl
  · simp [isNameStart, hletter]
  · decide

theorem findsWords_bareCall? (h : DollarsInside shown) : FindsWords bareCall? shown where
  word before cs hstop := by
    by_contra hsome
    obtain ⟨⟨call, rest⟩, hcall⟩ := Option.ne_none_iff_exists'.1 hsome
    obtain ⟨-, w, gap, rfl, hname, -⟩ := bareCall?_eq_some_iff.1 hcall
    exact hname.not_stops hstop
  inner before u cs hshown hstop hne hu hsome := by
    obtain ⟨⟨call, rest⟩, hcall⟩ := Option.isSome_iff_exists.1 hsome
    obtain ⟨hedge, w, gap, rfl, hname, hgap, -⟩ := bareCall?_eq_some_iff.1 hcall
    have hnext := head?_skipSpaces_gap rest hgap (by decide : isSpace '(' = false)
    have hend := stops_gap rest hgap isWordOrDollar_open
    have hwhole := wholeName_of_edge h hshown hstop hne hu hname (.inl hnext) hend hedge
    rw [← List.append_assoc u] at hshown ⊢
    have hhead := atWordEdge_of_dollars h hshown hstop hwhole (.inl hnext) hend
    exact Option.isSome_iff_exists.2 ⟨(_, rest), bareCall?_eq_some_iff.2 ⟨hhead, u ++ w, gap, rfl, hwhole, hgap, rfl⟩⟩
  clear before cs found rest hcall := by
    obtain ⟨-, w, gap, rfl, hname, hgap, -⟩ := bareCall?_eq_some_iff.1 hcall
    refine ⟨w ++ (gap ++ ['(']), by simp, by simp, by simp [isWordOrDollar_open], fun u v heq hu hv hstop before => ?_⟩
    by_contra hsome
    obtain ⟨⟨call, rest'⟩, hcall'⟩ := Option.ne_none_iff_exists'.1 hsome
    obtain ⟨-, w', gap', heq', hname', -⟩ := bareCall?_eq_some_iff.1 hcall'
    have hword : ¬Stops isWordOrDollar v := fun hv' => by
      rw [← stops_append hv, heq'] at hv'
      exact hname'.not_stops hv'
    have hgaps : ∀ c ∈ gap ++ ['('], isWordOrDollar c = false := forall_mem_gap hgap isWordOrDollar_open (by simp)
    rw [← List.append_nil (gap ++ ['('])] at heq
    obtain ⟨u', -, hnil⟩ := beyond_word hname.chars hgaps heq hu hstop hword
    exact hv (List.append_eq_nil_iff.1 hnil.symm).2

theorem findsWords_qualifiedCall? (h : DollarsInside shown) : FindsWords qualifiedCall? shown where
  word before cs hstop := by
    by_contra hsome
    obtain ⟨⟨call, rest⟩, hcall⟩ := Option.ne_none_iff_exists'.1 hsome
    obtain ⟨-, w, gap, gap', w', gap'', rfl, hname, -⟩ := qualifiedCall?_eq_some_iff.1 hcall
    exact hname.not_stops hstop
  inner before u cs hshown hstop hne hu hsome := by
    obtain ⟨⟨call, rest⟩, hcall⟩ := Option.isSome_iff_exists.1 hsome
    obtain ⟨hedge, w, gap, gap', w', gap'', rfl, hname, hname', hgap, hgap', hgap'', -⟩ :=
      qualifiedCall?_eq_some_iff.1 hcall
    have hnext := head?_skipSpaces_gap (gap' ++ (w' ++ (gap'' ++ '(' :: rest))) hgap (by decide : isSpace '.' = false)
    have hend := stops_gap (gap' ++ (w' ++ (gap'' ++ '(' :: rest))) hgap isWordOrDollar_point
    have hwhole := wholeName_of_edge h hshown hstop hne hu hname (.inr hnext) hend hedge
    rw [← List.append_assoc u] at hshown ⊢
    have hhead := atWordEdge_of_dollars h hshown hstop hwhole (.inr hnext) hend
    exact Option.isSome_iff_exists.2 ⟨(_, rest), qualifiedCall?_eq_some_iff.2
      ⟨hhead, u ++ w, gap, gap', w', gap'', rfl, hwhole, hname', hgap, hgap', hgap'', rfl⟩⟩
  clear before cs found rest hcall := by
    obtain ⟨-, w, gap, gap', w', gap'', rfl, hname, hname', hgap, hgap', hgap'', -⟩ :=
      qualifiedCall?_eq_some_iff.1 hcall
    refine ⟨w ++ ((gap ++ '.' :: gap') ++ (w' ++ (gap'' ++ ['(']))), by simp, by simp, by simp [isWordOrDollar_open],
      fun u v heq hu hv hstop before => ?_⟩
    by_contra hsome
    obtain ⟨⟨call, rest'⟩, hcall'⟩ := Option.ne_none_iff_exists'.1 hsome
    obtain ⟨-, x, g, g', x', g'', heq', hx, -, hg, -⟩ := qualifiedCall?_eq_some_iff.1 hcall'
    have hword : ¬Stops isWordOrDollar v := fun hv' => by
      rw [← stops_append hv, heq'] at hv'
      exact hx.not_stops hv'
    obtain ⟨u', rfl, htail⟩ := beyond_word hname.chars (forall_mem_gap hgap isWordOrDollar_point hgap') heq hu hstop hword
    by_cases hnil : u' = []
    · -- the name of the called method: what follows it is no point
      subst hnil
      rw [List.nil_append] at htail
      rw [← htail, List.append_assoc, List.append_assoc] at heq'
      have hmethod := name?_eq_some_iff.2
        ⟨rfl, hname', stops_gap rest hgap'' isWordOrDollar_open⟩
      have hreceiver := name?_eq_some_iff.2
        ⟨rfl, hx, stops_gap (g' ++ (x' ++ (g'' ++ '(' :: rest'))) hg isWordOrDollar_point⟩
      rw [← heq', List.singleton_append, hmethod, Option.some.injEq, Prod.mk.injEq] at hreceiver
      have hopen := head?_skipSpaces_gap rest hgap'' (by decide : isSpace '(' = false)
      rw [hreceiver.2, head?_skipSpaces_gap _ hg (by decide)] at hopen
      cases hopen
    · have hstop' : Stops isWordOrDollar u'.reverse := by
        rw [List.reverse_append, List.reverse_append, List.append_assoc] at hstop
        exact (stops_append (by simpa using hnil)).1 hstop
      have hgaps : ∀ c ∈ gap'' ++ ['('], isWordOrDollar c = false := forall_mem_gap hgap'' isWordOrDollar_open (by simp)
      rw [← List.append_nil (gap'' ++ ['('])] at htail
      obtain ⟨u'', -, hrest⟩ := beyond_word hname'.chars hgaps htail hnil hstop' hword
      exact hv (List.append_eq_nil_iff.1 hrest.symm).2

/-! The calls of a text and the calls of its cells. -/

/-- A part of the shown text without space stands in the text itself. -/
theorem exists_codes {cs : List Cell} (h : views cs = u ++ (w ++ v)) (hw : ∀ c ∈ w, c ≠ ' ') :
    ∃ before after, cs = before ++ (codes w ++ after) ∧ views before = u ∧ views after = v := by
  obtain ⟨before, tail, rfl, rfl, htail⟩ := List.map_eq_append_iff.1 h
  obtain ⟨word, after, rfl, hword, rfl⟩ := List.map_eq_append_iff.1 htail
  refine ⟨before, after, ?_, rfl, rfl⟩
  have hcodes : word = codes w := by
    rw [← hword, codes, List.map_map]
    refine (List.map_id word).symm.trans (List.map_congr_left fun c hc => ?_)
    have hspace := hw c.view (by rw [← hword]; exact List.mem_map_of_mem hc)
    obtain ⟨char, shown⟩ := c
    cases shown with
    | true => rfl
    | false => exact absurd rfl hspace
  rw [hcodes]

variable {owner name : String} {cells : List Cell}

theorem mem_bareCalls_iff (h : DollarsInside (views cells)) :
    (name, false) ∈ allMatches bareCall? (views cells) ↔
      ∃ before after, cells = before ++ (codes name.toList ++ after) ∧ WholeName name.toList ∧
        Stops isWordOrDollar (views before).reverse ∧ (skipSpaces (views before).reverse).head? ≠ some '.' ∧
          (skipSpaces (views after)).head? = some '(' := by
  rw [mem_allMatches_iff (findsWords_bareCall? h)]
  constructor
  · rintro ⟨u, v, rest, heq, hstop, hcall⟩
    rw [List.append_nil] at hstop hcall
    obtain ⟨-, w, gap, rfl, hname, hgap, hfound⟩ := bareCall?_eq_some_iff.1 hcall
    obtain ⟨rfl, hpoint⟩ := Prod.mk.inj hfound
    obtain ⟨before, after, rfl, rfl, hafter⟩ := exists_codes heq hname.ne_space
    refine ⟨before, after, by rw [String.toList_ofList], by rwa [String.toList_ofList], hstop, by simpa using hpoint, ?_⟩
    rw [hafter, head?_skipSpaces_gap _ hgap (by decide)]
  · rintro ⟨before, after, rfl, hname, hstop, hpoint, hopen⟩
    obtain ⟨gap, rest, hgap, hafter⟩ := exists_gap hopen
    have hviews : views (before ++ (codes name.toList ++ after)) =
        views before ++ (name.toList ++ (gap ++ '(' :: rest)) := by
      rw [views_append, views_append, views_codes, hafter]
    have hnext := head?_skipSpaces_gap rest hgap (by decide : isSpace '(' = false)
    have hshown : views (before ++ (codes name.toList ++ after)) =
        (views before).reverse.reverse ++ (name.toList ++ (gap ++ '(' :: rest)) := by rw [hviews, List.reverse_reverse]
    have hedge := atWordEdge_of_dollars h hshown hstop hname (.inl hnext) (stops_gap _ hgap isWordOrDollar_open)
    refine ⟨views before, name.toList ++ (gap ++ '(' :: rest), rest, hviews, by rwa [List.append_nil], ?_⟩
    rw [List.append_nil, bareCall?_eq_some_iff]
    exact ⟨hedge, name.toList, gap, rfl, hname, hgap, by simp [hpoint]⟩

theorem mem_qualifiedCalls_iff (h : DollarsInside (views cells)) :
    (⟨owner, name⟩ : CallTarget) ∈ allMatches qualifiedCall? (views cells) ↔
      ∃ before gap gap' after, cells = before ++ (codes owner.toList ++ (gap ++ Cell.code '.' ::
          (gap' ++ (codes name.toList ++ after)))) ∧ WholeName owner.toList ∧ WholeName name.toList ∧
        Stops isWordOrDollar (views before).reverse ∧ (∀ c ∈ views gap, isSpace c = true) ∧
          (∀ c ∈ views gap', isSpace c = true) ∧ (skipSpaces (views after)).head? = some '(' := by
  rw [mem_allMatches_iff (findsWords_qualifiedCall? h)]
  constructor
  · rintro ⟨u, v, rest, heq, hstop, hcall⟩
    rw [List.append_nil] at hstop hcall
    obtain ⟨-, w, g, g', w', g'', rfl, howner, hname, hg, hg', hg'', hfound⟩ := qualifiedCall?_eq_some_iff.1 hcall
    obtain ⟨rfl, rfl⟩ := CallTarget.mk.inj hfound
    obtain ⟨before, tail, rfl, rfl, htail⟩ := exists_codes heq howner.ne_space
    obtain ⟨gap, tail', rfl, rfl, htail'⟩ := exists_codes (w := ['.']) htail (by simp)
    obtain ⟨gap', after, rfl, rfl, hafter⟩ := exists_codes htail' hname.ne_space
    refine ⟨before, gap, gap', after, by simp, by simpa using howner, by simpa using hname, hstop, hg, hg', ?_⟩
    rw [hafter, head?_skipSpaces_gap _ hg'' (by decide)]
  · rintro ⟨before, gap, gap', after, rfl, howner, hname, hstop, hgap, hgap', hopen⟩
    obtain ⟨g, rest, hg, hafter⟩ := exists_gap hopen
    have hviews : views (before ++ (codes owner.toList ++ (gap ++ Cell.code '.' ::
        (gap' ++ (codes name.toList ++ after))))) = views before ++ (owner.toList ++ (views gap ++ '.' ::
          (views gap' ++ (name.toList ++ (g ++ '(' :: rest))))) := by
      have hpoint : ∀ ds, views (Cell.code '.' :: ds) = '.' :: views ds := fun _ => rfl
      simp only [views_append, views_codes, hafter, hpoint]
    have hnext := head?_skipSpaces_gap (views gap' ++ (name.toList ++ (g ++ '(' :: rest))) hgap
      (by decide : isSpace '.' = false)
    rw [← List.reverse_reverse (views before)] at hviews
    have hedge := atWordEdge_of_dollars h hviews hstop howner (.inr hnext) (stops_gap _ hgap isWordOrDollar_point)
    rw [List.reverse_reverse] at hviews
    refine ⟨views before, _, rest, hviews, by rwa [List.append_nil], ?_⟩
    rw [List.append_nil, qualifiedCall?_eq_some_iff]
    exact ⟨hedge, owner.toList, views gap, views gap', name.toList, g, rfl, howner, hname, hgap, hgap', hg, by simp⟩

theorem mem_ownCalls_iff (h : DollarsInside (views cells)) :
    name ∈ ownCalls owner (views cells) ↔ Called owner.toList name.toList cells := by
  have hbare : name ∈ ((allMatches bareCall? (views cells)).filter fun c => !c.2).map (·.1) ↔
      (name, false) ∈ allMatches bareCall? (views cells) := by simp
  have hown : name ∈ ((allMatches qualifiedCall? (views cells)).filter fun t => t.receiver = owner).map (·.method) ↔
      (⟨owner, name⟩ : CallTarget) ∈ allMatches qualifiedCall? (views cells) := by
    simp only [List.mem_map, List.mem_filter, decide_eq_true_iff]
    constructor
    · rintro ⟨⟨_, _⟩, ⟨hmem, rfl⟩, rfl⟩
      exact hmem
    · exact fun hmem => ⟨_, ⟨hmem, rfl⟩, rfl⟩
  rw [ownCalls, List.mem_append, hbare, hown, mem_bareCalls_iff h, mem_qualifiedCalls_iff h]
  constructor
  · rintro (⟨before, after, hcs, hname, hstart, hpoint, hopen⟩ |
      ⟨before, gap, gap', after, hcs, howner, hname, hstart, hgap, hgap', hopen⟩)
    · exact .bare hcs hname hstart hpoint hopen
    · exact .own hcs howner hname hstart hgap hgap' hopen
  · rintro (⟨hcs, hname, hstart, hpoint, hopen⟩ | ⟨hcs, howner, hname, hstart, hgap, hgap', hopen⟩)
    · exact .inl ⟨_, _, hcs, hname, hstart, hpoint, hopen⟩
    · exact .inr ⟨_, _, _, _, hcs, howner, hname, hstart, hgap, hgap', hopen⟩

/-! The helpers. -/

variable {decl : TypeDeclaration} {routine : Method}

open Classical in
/-- The helpers are the static methods other than the routine that compute a length or are called by the routine on its
own type, in the order of the source. -/
theorem helpers_of_build (id : EntityId) (fields : List Field) (constants : Constants)
    (h : decl.method? routineName = some routine) (hdollars : DollarsInside (views (Java.cells routine.text.toList))) :
    ∃ b, build id decl fields constants = some b ∧ b.routine = routine.text ∧
      b.helpers = (decl.methods.filter fun m => m.isStatic ∧ m.name ≠ routineName ∧ (m.name ∈ lengthHelpers ∨
        Called decl.name.toList m.name.toList (Java.cells routine.text.toList))).map (·.text) := by
  rw [build, h]
  refine ⟨_, rfl, rfl, ?_⟩
  change helperTexts decl (ownCalls decl.name (views (Java.cells routine.text.toList))) = _
  rw [helperTexts]
  congr 1
  refine List.filter_congr fun m _ => ?_
  have hcalled : m.name ∈ ownCalls decl.name (views (Java.cells routine.text.toList)) ↔
      Called decl.name.toList m.name.toList (Java.cells routine.text.toList) := mem_ownCalls_iff hdollars
  rw [Bool.eq_iff_iff]
  simp only [Bool.and_eq_true, Bool.or_eq_true, decide_eq_true_iff, List.contains_iff_mem, hcalled]
  tauto

theorem dollarsInside_of_notMem (h : '$' ∉ shown) : DollarsInside shown := by
  rintro u w v rfl - - - hdollar
  exact absurd (List.mem_append_right u (List.mem_append_left v hdollar)) h

/-! A class with static methods. -/

namespace StaticMethods

def method (name text : String) : Method := ⟨[], ["static"], some "void", name, [], text, ""⟩

def declare (methods : List Method) : TypeDeclaration := ⟨.classType, "T", [], [], [], [], [], methods, [], []⟩

def id : EntityId := ⟨"T", "", "root", "T.java"⟩

/-- A routine that calls one helper by its name and one on its own type. -/
def plainRoutine : Method :=
  method "deserialize" "static void deserialize(B b) \x7b check(b); T.size(b); b.skip(); \x7d"

def plainDecl : TypeDeclaration :=
  declare [plainRoutine, method "skip" "static void skip()", method "size" "static void size(B b)",
    method "check" "static void check(B b)", method "computeSize" "static void computeSize()"]

open Classical in
theorem helpers_of_build_plain :
    plainDecl.method? routineName = some plainRoutine ∧ DollarsInside (views (Java.cells plainRoutine.text.toList)) ∧
      ∃ b, build id plainDecl [] {} = some b ∧ b.routine = plainRoutine.text ∧
        b.helpers = (plainDecl.methods.filter fun m => m.isStatic ∧ m.name ≠ routineName ∧ (m.name ∈ lengthHelpers ∨
          Called plainDecl.name.toList m.name.toList (Java.cells plainRoutine.text.toList))).map (·.text) ∧
        b.helpers = ["static void size(B b)", "static void check(B b)", "static void computeSize()"] := by
  have hroutine : plainDecl.method? routineName = some plainRoutine := by decide +kernel
  have hdollars : DollarsInside (views (Java.cells plainRoutine.text.toList)) :=
    dollarsInside_of_notMem (by decide +kernel)
  have hread : (build id plainDecl [] {}).map (·.helpers) =
      some ["static void size(B b)", "static void check(B b)", "static void computeSize()"] := by
    decide +kernel
  obtain ⟨b, hb, htext, hhelpers⟩ := helpers_of_build id [] {} hroutine hdollars
  rw [hb, Option.map_some] at hread
  exact ⟨hroutine, hdollars, b, hb, htext, hhelpers, Option.some.inj hread⟩

/-- A routine that calls a helper whose name begins with a dollar, beside a helper of the name without it. -/
def dollarRoutine : Method := method "deserialize" "static void deserialize(B b) \x7b $foo(b); \x7d"

def dollarDecl : TypeDeclaration :=
  declare [dollarRoutine, method "$foo" "static void $foo(B b)", method "foo" "static void foo(B b)"]

/-- The called helper is left out and the other one is taken for it. -/
theorem helpers_leadingDollar :
    dollarDecl.method? routineName = some dollarRoutine ∧ method "$foo" "static void $foo(B b)" ∈ dollarDecl.methods ∧
      Called "T".toList "$foo".toList (Java.cells dollarRoutine.text.toList) ∧
      (build id dollarDecl [] {}).map (·.helpers) = some ["static void foo(B b)"] := by
  have hcells : Java.cells dollarRoutine.text.toList =
      codes "static void deserialize(B b) \x7b ".toList ++ (codes "$foo".toList ++ codes "(b); \x7d".toList) := by
    decide +kernel
  have hname : WholeName "$foo".toList :=
    ⟨⟨'$', by decide +kernel, by decide⟩, words_of_all (by decide +kernel)⟩
  have hspace : (views (codes "static void deserialize(B b) \x7b ".toList)).reverse.head? = some ' ' := by decide +kernel
  have hstart : Stops isWordOrDollar (views (codes "static void deserialize(B b) \x7b ".toList)).reverse := by
    intro c hc
    rw [← Option.some.inj (hspace.symm.trans hc)]
    exact isWordOrDollar_space
  exact ⟨by decide +kernel, by decide +kernel, .bare hcells hname hstart (by decide +kernel) (by decide +kernel),
    by decide +kernel⟩

end StaticMethods

end WireLayout.Bundle
