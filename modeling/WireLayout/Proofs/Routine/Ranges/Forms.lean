import WireLayout.Proofs.Routine.Ranges.Masked

/-! The forms of statements and parameters, in the masked text of cells and in what the cells show. A form that is read
with its spaces gives the same names, and its value is at the same cells. -/

namespace WireLayout.Routine

open WireLayout.Java WireLayout.Text

variable {γ : Type} {cs ds : List Cell} {p : Char → Bool}

/-! The forms of statements. -/

theorem agreeRest_assigned? (cs : List Cell) : AgreeRest cs (assigned? (views cs)) (assigned? (maskedText cs)) := by
  refine agreeRest_bind (agree_token? (by decide) cs) fun ds => ?_
  cases ds with
  | nil => exact .none
  | cons d ds =>
    obtain ⟨xs, hxs, -⟩ := d.exists_masked
    have hmasked : maskedText (d :: ds) = d.view :: (xs ++ maskedText ds) := by
      rw [maskedText_cons, hxs, List.cons_append]
    rw [hmasked, views_cons]
    dsimp only
    split
    · exact .none
    · rw [← hmasked, ← views_cons]
      exact ⟨some (d :: ds), rfl, rfl, by rintro _ ⟨rfl⟩; exact List.suffix_rfl⟩

/-- What a form gives is a name without space, and a value at the same cells. -/
def AgreeValue (cs : List Cell) (r r' : Option (String × List Char)) : Prop :=
  ∃ o : Option (String × List Cell), r = o.map (fun q => (q.1, views q.2)) ∧
    r' = o.map (fun q => (q.1, maskedText q.2)) ∧ ∀ q ∈ o, q.2 <:+: cs ∧ ' ' ∉ q.1.toList

theorem AgreeValue.none : AgreeValue cs none none := ⟨.none, rfl, rfl, by simp⟩

theorem space_notMem_of_all {w : List Char} (hp : p ' ' = false) (hw : ∀ c ∈ w, p c = true) :
    ' ' ∉ (String.ofList w).toList := by
  rw [String.toList_ofList]
  intro hmem
  rw [hw ' ' hmem] at hp
  cases hp

/-- A name and the trimmed value that is assigned to it. -/
theorem agreeValue_assigned? {name : List Char} (hname : ∀ c ∈ name, isWordOrDollar c = true) (hs : ds <:+: cs) :
    AgreeValue cs ((assigned? (views ds)).map fun value => (String.ofList name, trim isSpace value))
      ((assigned? (maskedText ds)).map fun value => (String.ofList name, trim isSpace value)) := by
  obtain ⟨_ | es, hviews, hmasked, hsuffix⟩ := agreeRest_assigned? ds
  · rw [hviews, hmasked]
    exact .none
  · obtain ⟨fs, hpart, htrim, htrim'⟩ := trim_cells es
    rw [hviews, hmasked]
    refine ⟨some (String.ofList name, fs), by simp [htrim], by simp [htrim'], ?_⟩
    rintro q ⟨rfl⟩
    exact ⟨hpart.trans ((hsuffix es rfl).isInfix.trans hs), space_notMem_of_all isWordOrDollar_space hname⟩

theorem memberAssignment?_eq (cs : List Char) : memberAssignment? cs =
    (run? isWordOrDollar cs).bind fun object => (token? "." object.2).bind fun rest =>
      (run? isWordOrDollar (skipSpaces rest)).bind fun member =>
        (assigned? member.2).map fun value => (String.ofList member.1, trim isSpace value) := by
  simp only [Option.map_eq_bind]
  rfl

theorem agree_memberAssignment? (cs : List Cell) :
    AgreeValue cs (memberAssignment? (views cs)) (memberAssignment? (maskedText cs)) := by
  rw [memberAssignment?_eq, memberAssignment?_eq]
  obtain ⟨_ | ⟨object, ds⟩, hrun, hrun', hds⟩ := agree_run? isWordOrDollar_space cs
  · rw [hrun, hrun']
    exact .none
  rw [hrun, hrun']
  obtain ⟨_ | es, hpoint, hpoint', hes⟩ := agree_token? (l := ".") (by decide) ds
  · simp only [Option.map_some, Option.bind_some, hpoint, hpoint']
    exact .none
  simp only [Option.map_some, Option.bind_some, hpoint, hpoint']
  obtain ⟨_ | ⟨member, fs⟩, hname, hname', hfs⟩ := agree_skipSpaces (agree_run? isWordOrDollar_space) es
  · rw [hname, hname']
    exact .none
  rw [hname, hname']
  have hmember : ∀ c ∈ member, isWordOrDollar c = true := (run?_eq_some hname).2.2.1
  exact agreeValue_assigned? hmember ((hfs _ rfl).trans ((hes _ rfl).trans (hds _ rfl))).isInfix

/-! Types in front of a name. -/

theorem dropEnd_views (p : Char → Bool) (cs : List Cell) :
    dropEnd p (views cs) = views (dropEnd (fun c => p c.view) cs) := by
  rw [views_flatMap, views_flatMap]
  exact dropEnd_flatMap (by simp) (by simp) cs

theorem dropEnd_maskedText (p : Char → Bool) (cs : List Cell) :
    dropEnd p (maskedText cs) = maskedText (dropEnd (fun c => p c.view) cs) :=
  dropEnd_flatMap Cell.masked_ne_nil (fun c x hx => by rw [c.mem_masked x hx]) cs

theorem takeEnd_flatMap {α β : Type} {g : α → List β} {p : β → Bool} {q : α → Bool} (hne : ∀ x, g x ≠ [])
    (h : ∀ x, ∀ y ∈ g x, p y = q x) (xs : List α) :
    ((xs.flatMap g).reverse.takeWhile p).reverse = (xs.reverse.takeWhile q).reverse.flatMap g := by
  have hspan := span_flatMap (g := List.reverse ∘ g) (p := p) (q := q) (by simpa using hne) (by simpa using h) xs.reverse
  rw [List.reverse_flatMap, hspan.1, List.reverse_flatMap]
  congr 1
  funext x
  simp

theorem takeEnd_views (p : Char → Bool) (cs : List Cell) :
    ((views cs).reverse.takeWhile p).reverse = views (cs.reverse.takeWhile fun c => p c.view).reverse := by
  rw [views_flatMap, views_flatMap]
  exact takeEnd_flatMap (by simp) (by simp) cs

theorem takeEnd_maskedText (p : Char → Bool) (cs : List Cell) :
    ((maskedText cs).reverse.takeWhile p).reverse = maskedText (cs.reverse.takeWhile fun c => p c.view).reverse :=
  takeEnd_flatMap Cell.masked_ne_nil (fun c x hx => by rw [c.mem_masked x hx]) cs

/-- A beginning that is as long as all is all, in both. -/
theorem length_prefix_iff (h : ds <+: cs) :
    ((maskedText ds).length = (maskedText cs).length ↔ ds = cs) ∧ ((views ds).length = (views cs).length ↔ ds = cs) := by
  obtain ⟨rest, rfl⟩ := h
  have hrest : ds = ds ++ rest ↔ rest = [] := by simp
  rw [maskedText_append, hrest, views, views, List.map_append, List.length_append, List.length_append,
    Nat.left_eq_add, Nat.left_eq_add, List.length_eq_zero_iff, List.length_eq_zero_iff, maskedText_eq_nil,
    List.map_eq_nil_iff]
  exact ⟨.rfl, .rfl⟩

theorem onlyDimensions_maskedText (inside : Bool) (cs : List Cell) :
    onlyDimensions inside (maskedText cs) = onlyDimensions inside (views cs) := by
  have hblank : ∀ (inside : Bool) (xs rest : List Char), (∀ x ∈ xs, x = ' ') →
      onlyDimensions inside (xs ++ rest) = onlyDimensions inside rest := by
    intro inside xs rest hxs
    induction xs with
    | nil => rfl
    | cons x xs ih =>
      obtain rfl := hxs x List.mem_cons_self
      exact ih fun y hy => hxs y (List.mem_cons_of_mem _ hy)
  induction cs generalizing inside with
  | nil => rfl
  | cons c cs ih =>
    obtain ⟨xs, hxs, hspace, hall⟩ := c.exists_masked
    have hxs' : ∀ x ∈ xs, x = ' ' := fun x hx => (hall x hx).trans (hspace (List.ne_nil_of_mem hx))
    rw [maskedText_cons, hxs, List.cons_append, views_cons, onlyDimensions, onlyDimensions, hblank _ xs _ hxs',
      hblank _ xs _ hxs', hblank _ xs _ hxs', ih, ih, ih]

theorem agreeRest_afterLastAngle? (cs : List Cell) :
    AgreeRest cs (afterLastAngle? (views cs)) (afterLastAngle? (maskedText cs)) := by
  have hcontains : (maskedText cs).contains '>' = (views cs).contains '>' := by
    rw [Bool.eq_iff_iff, List.contains_iff_mem, List.contains_iff_mem, mem_maskedText]
  rw [afterLastAngle?, afterLastAngle?, hcontains, takeEnd_views, takeEnd_maskedText]
  split
  · refine ⟨some _, rfl, rfl, ?_⟩
    rintro _ ⟨rfl⟩
    rw [← List.reverse_prefix, List.reverse_reverse]
    exact List.takeWhile_prefix _
  · exact .none

theorem isType_maskedText (cs : List Cell) : isType (maskedText cs) = isType (views cs) := by
  obtain ⟨_ | ⟨name, ds⟩, hrun, hrun', -⟩ := agree_run? (p := isTypePart) (by decide) cs
  · rw [isType, isType, hrun, hrun']
    rfl
  · obtain ⟨es, -, hskip, hskip'⟩ := skipSpaces_cells ds
    rw [isType, isType, hrun, hrun']
    simp only [Option.map_some, hskip, hskip']
    cases es with
    | nil => exact onlyDimensions_maskedText false ds
    | cons e es =>
      by_cases he : e.view = '<'
      · obtain ⟨_ | fs, hangle, hangle', -⟩ := agreeRest_afterLastAngle? es
        · rw [maskedText_cons_of_ne_space (by rw [he]; decide), views_cons, he]
          simp only [hangle, hangle', Option.map_none]
        · rw [maskedText_cons_of_ne_space (by rw [he]; decide), views_cons, he]
          simp only [hangle, hangle', Option.map_some, Option.any_some, onlyDimensions_maskedText]
      · obtain ⟨xs, hxs, -⟩ := e.exists_masked
        rw [maskedText_cons, hxs, List.cons_append, views_cons]
        split
        · rename_i heq
          exact absurd (List.cons.inj heq).1 he
        · split
          · rename_i heq
            exact absurd (List.cons.inj heq).1 he
          · exact onlyDimensions_maskedText false ds

theorem guard_guard (a b : Bool) (x : γ) :
    ((guard (a = true) : Option Unit) >>= fun _ => (guard (b = true) : Option Unit) >>= fun _ => some x) =
      if (a && b) = true then some x else none := by
  cases a <;> cases b <;> rfl

theorem localDeclaration?_eq (cs : List Char) : localDeclaration? cs =
    let head := dropEnd isSpace (cs.takeWhile (· ≠ '='))
    let name := (head.reverse.takeWhile isWordOrDollar).reverse
    let spaced := dropEnd isWordOrDollar head
    let type := dropEnd isSpace spaced
    if (!name.isEmpty && type.length ≠ spaced.length) && ((afterFinal? type).any isType || isType type) then
      (assigned? (cs.dropWhile (· ≠ '='))).map fun value => (String.ofList name, trim isSpace value)
    else none := by
  rw [localDeclaration?]
  cases assigned? (cs.dropWhile (· ≠ '=')) with
  | none => simp
  | some value => exact guard_guard _ _ _

theorem agree_localDeclaration? (cs : List Cell) :
    AgreeValue cs (localDeclaration? (views cs)) (localDeclaration? (maskedText cs)) := by
  have hviews := span_views (fun c => decide (c ≠ '=')) cs
  have hmasked := span_maskedText (fun c => decide (c ≠ '=')) cs
  rw [localDeclaration?_eq, localDeclaration?_eq, hviews.1, hviews.2, hmasked.1, hmasked.2]
  simp only [dropEnd_views, dropEnd_maskedText, takeEnd_views, takeEnd_maskedText]
  generalize dropEnd (fun c : Cell => isSpace c.view) (cs.takeWhile fun c => decide (c.view ≠ '=')) = head
  generalize hname : (head.reverse.takeWhile fun c => isWordOrDollar c.view).reverse = name
  generalize dropEnd (fun c => isWordOrDollar c.view) head = spaced
  have hword : ∀ x ∈ views name, isWordOrDollar x = true := by
    intro x hx
    obtain ⟨c, hc, rfl⟩ := List.mem_map.1 hx
    rw [← hname] at hc
    exact List.all_eq_true.1 (List.all_takeWhile (p := fun c : Cell => isWordOrDollar c.view)) c (List.mem_reverse.1 hc)
  have hsame : maskedText name = views name :=
    maskedText_eq_views_of_all isWordOrDollar_space (List.all_eq_true.2 hword)
  obtain ⟨hlength, hlength'⟩ := length_prefix_iff (prefix_dropEnd : dropEnd (fun c : Cell => isSpace c.view) spaced <+: spaced)
  generalize dropEnd (fun c : Cell => isSpace c.view) spaced = type at hlength hlength'
  have hfinal : (afterFinal? (maskedText type)).any isType = (afterFinal? (views type)).any isType := by
    obtain ⟨_ | ds, hrest, hrest', -⟩ :=
      agreeRest_bind (agree_literal? (l := "final".toList) (by decide) type) agree_spaces?
    · rw [afterFinal?, afterFinal?, hrest, hrest']
      rfl
    · rw [afterFinal?, afterFinal?, hrest, hrest']
      exact isType_maskedText ds
  rw [hsame, hfinal, isType_maskedText]
  simp only [ne_eq, hlength, hlength']
  split
  · exact agreeValue_assigned? hword (List.dropWhile_suffix _).isInfix
  · exact .none

theorem pointerDeclaration?_maskedText (cs : List Cell) :
    pointerDeclaration? (maskedText cs) = pointerDeclaration? (views cs) := by
  have hfinal : AgreeRest cs (afterFinal? (views cs)) (afterFinal? (maskedText cs)) :=
    agreeRest_bind (agree_literal? (by decide) cs) agree_spaces?
  obtain ⟨ds, hviews, hmasked⟩ := agreeRest_getD hfinal
  rw [pointerDeclaration?, pointerDeclaration?, hviews, hmasked]
  refine agreeRest_bind_eq (agree_literal? (by decide) ds) fun es => agreeRest_bind_eq (agree_spaces? es) fun fs => ?_
  refine agree_bind_eq (agree_run? isWordOrDollar_space fs) fun name gs => ?_
  refine agreeRest_bind_eq (agree_token? (by decide) gs) fun hs => ?_
  refine agree_bind_eq (agree_skipSpaces (agree_run? isWordOrDollar_space) hs) fun start is => ?_
  refine agreeRest_bind_eq (agree_token? (by decide) is) fun js => ?_
  refine agree_bind_eq (agree_skipSpaces agree_number? js) fun base ks => ?_
  refine agreeRest_bind_eq (agree_token? (by decide) ks) fun ls => ?_
  refine agree_bind_eq (agree_skipSpaces (agree_run? isWordOrDollar_space) ls) fun buffer ms => ?_
  refine agreeRest_bind_eq (agree_token? (by decide) ms) fun ns => ?_
  refine agreeRest_bind_eq (agree_token? (by decide) ns) fun os => ?_
  exact agreeRest_bind_eq (agree_token? (by decide) os) fun ps => rfl

theorem agreeRest_afterElse? (cs : List Cell) :
    AgreeRest cs (Reader.afterElse? (views cs)) (Reader.afterElse? (maskedText cs)) := by
  refine agreeRest_bind (agree_literal? (by decide) cs) fun ds => ?_
  rw [head?_maskedText]
  cases !(views ds).head?.any fun c => isAsciiLetter c || isAsciiDigit c || c = '_' with
  | false => exact .none
  | true => exact agreeRest_skipSpaces ds

/-! Parameters. -/

theorem getLast?_maskedText (cs : List Cell) : (maskedText cs).getLast? = (views cs).getLast? := by
  have hhead := head?_reverse_maskedText (show ([] : List Char).head? = ([] : List Char).head? from rfl) cs
  rwa [List.append_nil, List.append_nil, List.head?_reverse, List.head?_reverse] at hhead

/-- The name of a parameter is what stands behind the last character that is no part of an identifier. -/
theorem parameterName_eq (argument : List Char) : parameterName argument =
    let name := ((trim isSpace argument).reverse.takeWhile isIdent).reverse
    match (dropEnd isIdent (trim isSpace argument)).getLast? with
    | none => .ok (if name.isEmpty then none else some name)
    | some c =>
      if c.utf8Size ≠ 1 then .error (.splitCharacter (String.ofList argument))
      else .ok (if name.isEmpty then none else some name) := by
  rw [parameterName, dropEnd, List.getLast?_reverse]
  cases (trim isSpace argument).reverse.dropWhile isIdent <;> rfl

theorem parameterName_maskedText (cs : List Cell) :
    (parameterName (maskedText cs)).toOption = (parameterName (views cs)).toOption := by
  obtain ⟨ds, -, hviews, hmasked⟩ := trim_cells cs
  have hname : maskedText (ds.reverse.takeWhile fun c => isIdent c.view).reverse =
      views (ds.reverse.takeWhile fun c => isIdent c.view).reverse := by
    refine maskedText_eq_views_of_all (p := isIdent) (by decide) (List.all_eq_true.2 fun x hx => ?_)
    obtain ⟨c, hc, rfl⟩ := List.mem_map.1 hx
    exact List.all_eq_true.1 (List.all_takeWhile (p := fun c : Cell => isIdent c.view)) c (List.mem_reverse.1 hc)
  rw [parameterName_eq, parameterName_eq, hviews, hmasked]
  simp only [dropEnd_views, dropEnd_maskedText, takeEnd_views, takeEnd_maskedText, hname, getLast?_maskedText]
  cases (views (dropEnd (fun c => isIdent c.view) ds)).getLast? with
  | none => rfl
  | some c =>
    simp only
    split <;> rfl

end WireLayout.Routine
