import WireLayout.Proofs.Routine.Ranges.Walk
import WireLayout.Proofs.Routine.Signature

/-! Where a scan by positions faults. The parameters and the body of a routine are found in the masked text as in what it
shows, and from there on no cut can fault; so the name of a parameter is the only text that cannot be cut out. -/

namespace WireLayout

open Java Text Routine

/-- The first `deserialize(` in the masked routine has its closing parenthesis, and in front of the name at the end of
some argument stands a character of several octets. -/
def Bundle.SplitsParameter (b : Bundle) : Prop :=
  ∃ call, findCall routineName (mask b.routine.toList) = some call ∧ ∃ argument ∈ call.arguments, SplitsCharacter argument

namespace Routine

variable {cs : List Cell}

/-- The names of the parameters are cut out of the masked text as out of what it shows. -/
theorem parameterNamesIn_toOption (arguments : List (List Cell)) :
    ((arguments.map maskedText).mapM parameterNameIn).toOption = ((arguments.map views).mapM parameterName).toOption := by
  rw [Except.toOption_mapM, Except.toOption_mapM, List.mapM_map, List.mapM_map]
  congr 1
  funext argument
  exact (parameterNameIn_toOption _).trans (parameterName_maskedText argument)

theorem splitsCharacter_maskedText (cs : List Cell) : SplitsCharacter (maskedText cs) ↔ SplitsCharacter (views cs) := by
  rw [← isError_parameterName_iff, ← isError_parameterName_iff, Except.isError_iff_toOption,
    Except.isError_iff_toOption, parameterName_maskedText]

theorem space_notMem_parameterName {argument name : List Char} (h : parameterName argument = .ok (some name)) :
    ' ' ∉ name := by
  have hsome : ∀ w : List Char, (if w.isEmpty then none else some w) = some name → name = w := by
    intro w hw
    split at hw
    · cases hw
    · exact (Option.some.inj hw).symm
  have hname : name = ((trim isSpace argument).reverse.takeWhile isIdent).reverse := by
    rw [parameterName_eq] at h
    dsimp only at h
    split at h
    · exact hsome _ (Except.ok.inj h)
    · split at h
      · cases h
      · exact hsome _ (Except.ok.inj h)
  rw [hname, List.mem_reverse]
  intro hmem
  cases List.mem_takeWhile_imp hmem

theorem maskedText_of_codes {text : List Char} (h : cs <:+: codes text) : maskedText cs = views cs := by
  have hcode : ∀ c ∈ cs, c.masked = [c.view] := by
    intro c hc
    obtain ⟨x, -, rfl⟩ := List.mem_map.1 (h.subset hc)
    rfl
  rw [maskedText, views_flatMap]
  exact List.flatMap_congr hcode

/-- The arguments of a call in the masked text are those of the call in what it shows. -/
theorem findCall_arguments (name : String) (cs : List Cell) : ∃ found : Option (List (List Cell)),
    (findCall name (views cs)).map Call.arguments = found.map (·.map views) ∧
      (findCall name (maskedText cs)).map Call.arguments = found.map (·.map maskedText) := by
  obtain ⟨found, hshown, hplaced, -⟩ := findCallIn_maskedText name cs
  obtain ⟨found', hshown', hplaced', hwithin⟩ := findCallIn_maskedText name (codes (maskedText cs))
  rw [views_codes] at hshown'
  rw [maskedText_codes, hplaced] at hplaced'
  rw [hshown, hshown', Option.map_map, Option.map_map]
  refine ⟨found.map CallCells.arguments, by rw [Option.map_map]; rfl, ?_⟩
  have harguments := congrArg (Option.map CallIn.arguments) (Except.ok.inj hplaced')
  rw [Option.map_map, Option.map_map] at harguments
  rw [Option.map_map]
  refine Eq.trans ?_ harguments.symm
  refine Option.map_congr fun call hcall => List.map_congr_left fun argument hargument => ?_
  exact (maskedText_of_codes ((hwithin call hcall).arguments argument hargument)).symm

theorem breaksOff_iff (b : Bundle) : b.BreaksOff ↔ b.SplitsParameter := by
  have hany : ∀ o : Option Call, (∃ call, o = some call ∧ ∃ argument ∈ call.arguments, SplitsCharacter argument) ↔
      ∃ arguments, o.map Call.arguments = some arguments ∧ ∃ argument ∈ arguments, SplitsCharacter argument := by
    rintro (_ | call) <;> simp
  obtain ⟨found, hviews, hmasked⟩ := findCall_arguments routineName (cells b.routine.toList)
  have hmask : mask b.routine.toList = maskedText (cells b.routine.toList) := rfl
  rw [Bundle.BreaksOff, Bundle.SplitsParameter, hany, hany, hviews, hmask, hmasked]
  cases found with
  | none => simp
  | some arguments => simp [splitsCharacter_maskedText]

theorem not_neutral_brace : ¬ Neutral '}' := not_neutral (by decide) (by decide)

/-- The first block of a text that the cells end with: there is none, or it is not closed, or its inside is found. -/
theorem block_cases {after : List Cell} (h : after <:+ cs) :
    ((maskedText after).dropWhile (· ≠ '{') = [] ∧ (views after).dropWhile (· ≠ '{') = []) ∨
      ∃ opening masked shown, opening = width cs - width after + octetCount ((maskedText after).takeWhile (· ≠ '{')) ∧
        (maskedText after).dropWhile (· ≠ '{') = '{' :: masked ∧ (views after).dropWhile (· ≠ '{') = '{' :: shown ∧
          ((partner? (maskedText cs) opening '{' '}' = none ∧ closing id '{' '}' 1 shown = none) ∨
            ∃ close inside rest, partner? (maskedText cs) opening '{' '}' = some close ∧
              closing id '{' '}' 1 shown = some (views inside, rest) ∧ Covers cs ⟨opening + 1, close⟩ inside) := by
  obtain ⟨htake, hdrop⟩ := span_maskedText (fun x => decide (x ≠ '{')) after
  rw [htake, hdrop, (span_views _ after).2, octetCount_maskedText]
  have hcovers : Covers cs ⟨width cs - width after, width cs⟩
      ((after.takeWhile fun c => decide (c.view ≠ '{')) ++ after.dropWhile fun c => decide (c.view ≠ '{')) := by
    have hsuffix := (Covers.whole cs).suffix h
    rw [Nat.zero_add] at hsuffix
    rw [List.takeWhile_append_dropWhile]
    exact hsuffix
  cases hrest : after.dropWhile fun c => decide (c.view ≠ '{') with
  | nil => exact .inl ⟨rfl, rfl⟩
  | cons c rest =>
    have hc : c.view = '{' := by
      have hhead := List.head?_dropWhile_not (fun c : Cell => decide (c.view ≠ '{')) after
      rw [hrest] at hhead
      simpa using hhead
    have hneutral : ¬ Neutral c.view := hc ▸ not_neutral (by decide) (by decide)
    rw [hrest] at hcovers
    obtain ⟨m, hfront, hopen⟩ := hcovers.append
    have hm := hfront.stop_eq
    rw [← octetViews_maskedText, ← width_eq] at hm
    subst hm
    obtain ⟨hnone, hsome⟩ := hopen.partner_eq hneutral (not_neutral_brace : ¬ Neutral '}')
    rw [hc] at hnone hsome
    refine .inr ⟨_, maskedText rest, views rest, rfl, ?_, ?_, ?_⟩
    · rw [maskedText_cons_of_ne_space (by rw [hc]; decide), hc]
    · rw [views_cons, hc]
    · rw [closing_views]
      cases hclosing : closing Cell.view '{' '}' 1 rest with
      | none => exact .inl ⟨hnone hclosing, rfl⟩
      | some parts =>
        obtain ⟨inside, back⟩ := parts
        obtain ⟨close, hclose, -, -, -, hinside, -⟩ := hsome inside back hclosing
        exact .inr ⟨close, inside, views back, hclose, rfl, hinside⟩

/-- The parts of a routine are found at positions as they are found in what the text shows. -/
theorem partsIn_maskedText (cs : List Cell) :
    ((∃ fault, partsIn (maskedText cs) = .error fault) ∧ ∃ fault, parts? (views cs) = .error fault) ∨
      (partsIn (maskedText cs) = .ok none ∧ parts? (views cs) = .ok none) ∨
      ∃ names body ds, partsIn (maskedText cs) = .ok (some (names, body)) ∧
        parts? (views cs) = .ok (some (names, views ds)) ∧ Covers cs body ds ∧ ∀ name ∈ names, ' ' ∉ name := by
  obtain ⟨found, hshown, hplaced, hwithin⟩ := findCallIn_maskedText routineName cs
  rw [partsIn, parts?, hshown, hplaced, Except.ok_bind]
  cases found with
  | none => exact .inr (.inl ⟨rfl, rfl⟩)
  | some call =>
    have hnames := parameterNamesIn_toOption call.arguments
    simp only [Option.map_some, (hwithin call rfl).textFrom]
    simp only [CallCells.placed, CallCells.shown]
    cases hlist : (call.arguments.map views).mapM parameterName with
    | error fault =>
      rw [hlist] at hnames
      obtain ⟨fault', hin⟩ := Except.isError_iff_toOption.2 hnames
      rw [hin]
      exact .inl ⟨⟨fault', rfl⟩, fault, rfl⟩
    | ok names =>
      rw [hlist] at hnames
      have hin : (call.arguments.map maskedText).mapM parameterNameIn = .ok names :=
        Except.toOption_eq_some_iff.1 hnames
      have hspaceless : ∀ name ∈ names.reduceOption, ' ' ∉ name := by
        intro name hname
        obtain ⟨argument, -, hargument⟩ := Except.exists_of_mem_mapM hlist (List.reduceOption_mem_iff.1 hname)
        exact space_notMem_parameterName hargument
      rw [hin, Except.ok_bind, Except.ok_bind]
      rcases block_cases (hwithin call rfl).after with ⟨hmasked, hviews⟩ |
        ⟨opening, masked, shown, rfl, hmasked, hviews, ⟨hpartner, hclosing⟩ |
          ⟨close, inside, rest, hpartner, hclosing, hinside⟩⟩
      · rw [hmasked, hviews]
        exact .inr (.inl ⟨rfl, rfl⟩)
      · rw [hmasked, hviews]
        dsimp only
        rw [hpartner, hclosing]
        exact .inr (.inl ⟨rfl, rfl⟩)
      · rw [hmasked, hviews]
        dsimp only
        rw [hpartner, hclosing]
        exact .inr (.inr ⟨names.reduceOption, _, inside, rfl, rfl, hinside, hspaceless⟩)

/-- The scan by positions faults where the scan breaks off, and gives the same otherwise. -/
theorem scanIn_cases (b : Bundle) :
    ((∃ fault, scanIn b = .error fault) ∧ ∃ fault, scan b = .error fault) ∨
      ∃ s, scanIn b = .ok s ∧ scan b = .ok s := by
  have hmask : mask b.routine.toList = maskedText (cells b.routine.toList) := rfl
  rw [scanIn, scan, trace?, hmask]
  dsimp only
  rcases partsIn_maskedText (cells b.routine.toList) with ⟨⟨fault, hin⟩, fault', hparts⟩ | ⟨hin, hparts⟩ |
    ⟨names, body, inside, hin, hparts, hcovers, hnames⟩
  · rw [hin, hparts]
    exact .inl ⟨⟨fault, rfl⟩, fault', rfl⟩
  · rw [hin, hparts]
    exact .inr ⟨_, rfl, rfl⟩
  · rw [hin, hparts, Except.ok_bind, Except.ok_bind]
    dsimp only
    generalize hstart : ({ offsetName := names[1]?.getD "offset".toList, declared := b.fieldNames } : Reader) = start
    have hoffset : ' ' ∉ names[1]?.getD "offset".toList := by
      cases hsecond : names[1]? with
      | none => decide
      | some name => exact hnames name (List.mem_of_getElem? hsecond)
    have hspaceless : start.Spaceless := hstart ▸ Reader.spaceless_start hoffset b.fieldNames
    have hstart' : Covers (cells b.routine.toList) ⟨body.start, body.start⟩ ([] : List Cell).reverse := hcovers.start
    rw [Reader.walkIn_maskedText (tight_cells _) hspaceless [] hstart' hcovers]
    exact .inr ⟨_, rfl, rfl⟩

/-- A scan of a routine cuts its text out of range, or within a character, just if a parameter of the routine has a name
that would begin within a character; every other scan comes to its end. -/
theorem isError_scanIn_iff (b : Bundle) :
    ((∃ fault, scanIn b = .error fault) ↔ b.SplitsParameter) ∧ ((∃ fault, scan b = .error fault) ↔ b.SplitsParameter) ∧
      (b.SplitsParameter ∨ ∃ s, scanIn b = .ok s ∧ scan b = .ok s) := by
  have hscan : (∃ fault, scan b = .error fault) ↔ b.SplitsParameter := isError_scan_iff.trans (breaksOff_iff b)
  rw [← hscan]
  rcases scanIn_cases b with ⟨hfault, hfault'⟩ | ⟨s, hok, hok'⟩
  · exact ⟨iff_of_true hfault hfault', Iff.rfl, .inl hfault'⟩
  · have hsound : ¬ ∃ fault, scan b = .error fault := by simp [hok']
    exact ⟨iff_of_false (by simp [hok]) hsound, Iff.rfl, .inr ⟨s, hok, hok'⟩⟩

/-- The last character in front of the letters at the end of this parameter takes two octets. -/
example : (Bundle.ofRoutine [] "static T deserialize(ByteBuf buf, int größe) \x7b \x7d").SplitsParameter :=
  (breaksOff_iff _).1 (isError_scan_iff.1 ⟨.splitCharacter "int größe", by decide +kernel⟩)

end Routine

end WireLayout
