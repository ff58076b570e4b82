import WireLayout.Proofs.Routine.Ranges.Calls
import WireLayout.Proofs.Routine.Ranges.Expressions

/-! Readings by positions. An expression is read where its calls are found, from their arguments and from what follows
them. All of these are parts of the expression, so that none of the cuts can fault, and the masked text of a part is read
as what it shows. -/

namespace WireLayout

namespace Routine

open WireLayout.Java WireLayout.Text

section

variable {β : Type} {cs : List Cell} {f : CallIn → Checked β} {f' : Call → β} {g : Checked β} {g' : β}

/-- What is done with the first call of a name, at positions and in what the cells show. -/
theorem findCallIn_match (name : String) (hf : ∀ call : CallCells, call.Within cs → f (call.placed cs) = .ok (f' call.shown))
    (hg : g = .ok g') : (do match ← findCallIn name (maskedText cs) with
      | some call => f call
      | none => g) = .ok (match findCall name (views cs) with
      | some call => f' call
      | none => g') := by
  obtain ⟨found, hshown, hplaced, hwithin⟩ := findCallIn_maskedText name cs
  rw [hshown, hplaced]
  cases found with
  | none => exact hg
  | some call => exact hf call (hwithin call rfl)

theorem findCallIn_match_filter (name : String) {p : CallIn → Bool} {p' : Call → Bool}
    (hp : ∀ call : CallCells, p (call.placed cs) = p' call.shown)
    (hf : ∀ call : CallCells, call.Within cs → f (call.placed cs) = .ok (f' call.shown)) (hg : g = .ok g') :
    (do match (← findCallIn name (maskedText cs)).filter p with
      | some call => f call
      | none => g) = .ok (match (findCall name (views cs)).filter p' with
      | some call => f' call
      | none => g') := by
  obtain ⟨found, hshown, hplaced, hwithin⟩ := findCallIn_maskedText name cs
  rw [hshown, hplaced, Except.ok_bind]
  cases found with
  | none => exact hg
  | some call =>
    rw [Option.map_some, Option.map_some, Option.filter_some, Option.filter_some, hp]
    cases p' call.shown with
    | true => exact hf call (hwithin call rfl)
    | false => exact hg

end

namespace Scope

theorem positionIn_eq (scope : Scope) (cs : List Char) : scope.positionIn cs = .ok (scope.position? cs) := by
  rw [positionIn, position?]
  generalize trim isSpace cs = argument
  dsimp only
  split
  · rfl
  · cases splitPlus? argument with
    | none => rfl
    | some parts =>
      obtain ⟨start, added⟩ := parts
      by_cases hstart : trim isSpace start = scope.offsetName
      · simp [hstart, wordIn_eq, guard]
      · simp [hstart, guard, pure, Except.pure]

namespace Spaceless

variable {scope : Scope} {cs : List Cell} {call : CallCells}

theorem positionIn_maskedText (h : scope.Spaceless) (cs : List Cell) :
    scope.positionIn (maskedText cs) = .ok (scope.position? (views cs)) := by
  rw [positionIn_eq, h.position?_maskedText]

theorem secondSlotIn?_placed (h : scope.Spaceless) (call : CallCells) (cs : List Cell) :
    scope.secondSlotIn? (call.placed cs) = scope.secondSlot? call.shown := by
  rw [secondSlotIn?, secondSlot?, CallCells.placed, CallCells.shown]
  dsimp only
  rw [List.getElem?_map, List.getElem?_map]
  cases call.arguments[1]? with
  | none => rfl
  | some argument => exact h.slot?_maskedText argument

theorem sizedIn_placed (h : scope.Spaceless) (call : CallCells) (cs : List Cell) (encoding : Encoding)
    (size : Option Nat) : scope.sizedIn (call.placed cs) encoding size = .ok (scope.sized call.shown encoding size) := by
  have hsecond : ((call.arguments.map maskedText)[1]?.getD [] = maskedText (call.arguments[1]?.getD [])) ∧
      (call.arguments.map views)[1]?.getD [] = views (call.arguments[1]?.getD []) := by
    rw [List.getElem?_map, List.getElem?_map]
    cases call.arguments[1]? <;> exact ⟨rfl, rfl⟩
  rw [sizedIn, sized, CallCells.placed, CallCells.shown]
  dsimp only
  rw [hsecond.1, hsecond.2, h.positionIn_maskedText, h.slot?_maskedText, Except.ok_bind]
  cases scope.position? (views (call.arguments[1]?.getD [])) <;> rfl

/-- A primitive read is found by its position, and what follows its call is looked at. -/
theorem primitiveFromIn_maskedText (h : scope.Spaceless) (hcs : Tight cs) (names : List (String × Encoding)) :
    scope.primitiveFromIn (maskedText cs) names = .ok (scope.primitiveFrom (views cs) names) := by
  induction names with
  | nil => rfl
  | cons entry names ih =>
    obtain ⟨name, encoding⟩ := entry
    obtain ⟨found, hshown, hplaced, hwithin⟩ := findCallIn_maskedText name cs
    rw [primitiveFromIn, primitiveFrom, hshown, hplaced, Except.ok_bind]
    cases found with
    | none => exact ih
    | some call =>
      have hcall : call.Within cs := hwithin call rfl
      have hzero : comparesWithZero <$> textFrom (maskedText cs) (call.placed cs).stop =
          .ok (comparesWithZero (views call.after)) := by
        rw [hcall.textFrom, ← (hcs.part hcall.after.isInfix).comparesWithZero_maskedText]
        rfl
      simp only [Option.map_some, CallCells.placed, CallCells.shown, List.head?_map]
      cases call.arguments.head? with
      | none => rfl
      | some argument =>
        simp only [Option.map_some, h.positionIn_maskedText, Except.ok_bind]
        cases hposition : scope.position? (views argument) with
        | none => simp [hposition, pure, Except.pure]
        | some offset =>
          have hstop : (call.placed cs).stop = width cs - width call.after := rfl
          rw [hstop] at hzero
          by_cases hname : name = "getByte"
          · simp [hname, hzero, hposition, Except.ok_bind, pure, Except.pure]
          · simp [hname, hposition, Except.ok_bind, pure, Except.pure]

theorem primitiveIn_maskedText (h : scope.Spaceless) (hcs : Tight cs) :
    scope.primitiveIn (maskedText cs) = .ok (scope.primitive? (views cs)) := h.primitiveFromIn_maskedText hcs primitives

theorem stringReadingIn_placed (h : scope.Spaceless) (call : CallCells) (cs : List Cell) :
    scope.stringReadingIn (call.placed cs) = scope.stringReading call.shown := by
  have hascii : (call.placed cs).arguments.any (contains "ASCII".toList) =
      call.shown.arguments.any (contains "ASCII".toList) := by
    rw [CallCells.placed, CallCells.shown, List.any_map, List.any_map]
    refine congrArg call.arguments.any (funext fun argument => ?_)
    exact contains_maskedText (by decide) (by decide) argument
  rw [stringReadingIn, stringReading, hascii, h.secondSlotIn?_placed]

theorem fixedStringReadingIn_placed (h : scope.Spaceless) (call : CallCells) (cs : List Cell) :
    scope.fixedStringReadingIn (call.placed cs) = .ok (scope.fixedStringReading? call.shown) := by
  have harguments : (call.placed cs).arguments[2]? = call.arguments[2]?.map maskedText := List.getElem?_map
  have harguments' : call.shown.arguments[2]? = call.arguments[2]?.map views := List.getElem?_map
  rw [fixedStringReadingIn, fixedStringReading?, harguments, harguments']
  cases call.arguments[2]? with
  | none => rfl
  | some argument =>
    simp only [Option.map_some, wordIn_eq, read?_maskedText, Except.ok_bind]
    cases hlength : (IntLiteral.read? (views argument)).bind word? with
    | none => simp [hlength, pure, Except.pure]
    | some length => simp [hlength, h.sizedIn_placed, Except.ok_bind, pure, Except.pure]

theorem enumReadingIn_placed (h : scope.Spaceless) (hcs : Tight cs) (hcall : call.Within cs) :
    scope.enumReadingIn (call.placed cs) = .ok (scope.enumReading? call.shown) := by
  have hhead : (call.placed cs).arguments.head? = call.arguments.head?.map maskedText := List.head?_map
  have hhead' : call.shown.arguments.head? = call.arguments.head?.map views := List.head?_map
  rw [enumReadingIn, enumReading?, hhead, hhead']
  cases hargument : call.arguments.head? with
  | none => rfl
  | some argument =>
    have hwithin : argument <:+: cs := hcall.arguments argument (List.mem_of_head? hargument)
    simp only [Option.map_some, h.primitiveIn_maskedText (hcs.part hwithin), Except.ok_bind, Option.bind_some]
    cases scope.primitive? (views argument) with
    | none => rfl
    | some reading =>
      cases reading with
      | varying => rfl
      | fixed offset encoding size => cases encoding <;> rfl

theorem varIntReadingIn_placed (h : scope.Spaceless) (call : CallCells) (cs : List Cell) :
    scope.varIntReadingIn (call.placed cs) = .ok (scope.varIntReading call.shown) := by
  have hsecond : (call.placed cs).arguments[1]? = call.arguments[1]?.map maskedText := List.getElem?_map
  have hsecond' : call.shown.arguments[1]? = call.arguments[1]?.map views := List.getElem?_map
  rw [varIntReadingIn, varIntReading, hsecond, hsecond']
  cases call.arguments[1]? with
  | none => rfl
  | some argument =>
    simp only [Option.map_some, h.positionIn_maskedText, Except.ok_bind, Option.bind_some]
    cases scope.position? (views argument) <;> rfl

/-- The calls of known names, in the order in which they are looked for. -/
theorem reading?_eq (scope : Scope) (expression : List Char) : scope.reading? expression =
    if makesArray expression then some (scope.arrayReading expression)
    else match findCall "readVarString" expression with
    | some call => some (scope.stringReading call)
    | none => match findCall "readFixedAsciiString" expression with
    | some call => scope.fixedStringReading? call
    | none => match findCall "readUUID" expression with
    | some call => some (scope.sized call .uuid (some 16))
    | none => match (findCall "deserialize" expression).filter onType with
    | some call => some (scope.sized call .nested none)
    | none => match findCall "fromValue" expression with
    | some call => scope.enumReading? call
    | none => match (findCall "peek" expression).filter (·.receiver = some "VarInt".toList) with
    | some call => some (scope.varIntReading call)
    | none => scope.primitive? expression := by
  unfold reading? form
  cases makesArray expression with
  | true => rfl
  | false =>
    simp only [Bool.false_eq_true, if_false]
    cases findCall "readVarString" expression with
    | some call => rfl
    | none =>
      cases findCall "readFixedAsciiString" expression with
      | some call => rfl
      | none =>
        cases findCall "readUUID" expression with
        | some call => rfl
        | none =>
          cases (findCall "deserialize" expression).filter onType with
          | some call => rfl
          | none =>
            cases findCall "fromValue" expression with
            | some call => rfl
            | none => cases (findCall "peek" expression).filter (·.receiver = some "VarInt".toList) <;> rfl

/-- An expression is read by positions as what it shows is read. -/
theorem readingIn_maskedText (h : scope.Spaceless) (hcs : Tight cs) :
    scope.readingIn (maskedText cs) = .ok (scope.reading? (views cs)) := by
  rw [readingIn, reading?_eq, makesArray_maskedText]
  split
  · obtain ⟨found, hshown, hplaced, -⟩ := findCallIn_maskedText "peek" cs
    rw [arrayReading, hshown, hplaced]
    cases found with
    | none => rfl
    | some call => simp [h.secondSlotIn?_placed, Except.ok_bind, pure, Except.pure]
  · refine findCallIn_match _ (fun call _ => by rw [h.stringReadingIn_placed]; rfl) ?_
    refine findCallIn_match _ (fun call _ => h.fixedStringReadingIn_placed call cs) ?_
    refine findCallIn_match _ (fun call _ => by rw [h.sizedIn_placed]; rfl) ?_
    refine findCallIn_match_filter _ (fun _ => rfl) (fun call _ => by rw [h.sizedIn_placed]; rfl) ?_
    refine findCallIn_match _ (fun call hcall => h.enumReadingIn_placed hcs hcall) ?_
    refine findCallIn_match_filter _ (fun _ => rfl) (fun call _ => by rw [h.varIntReadingIn_placed]; rfl) ?_
    exact h.primitiveIn_maskedText hcs

end Spaceless

end Scope

end Routine

end WireLayout
