import WireLayout.Java.Segment

/-! The annotations and modifiers in front of a declaration. Type parameters between them are passed
over. -/

namespace WireLayout.Java

open WireLayout.Text

def modifierWords : List String :=
  ["public", "protected", "private", "static", "final", "abstract", "transient", "volatile",
    "synchronized", "native", "strictfp", "default", "sealed", "non-sealed"]

structure Preamble where
  annotations : List String
  modifiers : List String
  rest : List Cell
  deriving DecidableEq, Repr

/-- Passes over type arguments, from an opening angle bracket to its partner. -/
def skipAngles : Nat → List Cell → List Cell
  | _, [] => []
  | depth, c :: cs =>
    if c.view = '<' then skipAngles (depth + 1) cs
    else if c.view = '>' then if depth ≤ 1 then cs else skipAngles (depth - 1) cs
    else skipAngles depth cs

def isAnnotationCell (c : Cell) : Bool := c.isIdent || c.view = '.'

def isModifierCell (c : Cell) : Bool := c.isIdent || c.view = '-'

/-- The arguments of an annotation, if there are any; arguments that do not end here take all the rest. -/
def skipArguments (cs : List Cell) : List Cell :=
  match dropBlank cs with
  | [] => []
  | c :: rest =>
    if c.view = '(' then ((closing Cell.view '(' ')' 1 rest).map (·.2)).getD [] else c :: rest

theorem length_dropBlank_le (cs : List Cell) : (dropBlank cs).length ≤ cs.length :=
  (List.dropWhile_suffix _).sublist.length_le

theorem length_dropWhile_cells_le (p : Cell → Bool) (cs : List Cell) :
    (cs.dropWhile p).length ≤ cs.length :=
  (List.dropWhile_suffix _).sublist.length_le

theorem length_skipArguments_le (cs : List Cell) : (skipArguments cs).length ≤ cs.length := by
  unfold skipArguments
  have h := length_dropBlank_le cs
  split
  · simp
  · rename_i c rest heq
    rw [heq] at h
    split
    · cases hc : closing Cell.view '(' ')' 1 rest with
      | none => simp
      | some p =>
        have := length_closing_lt Cell.view '(' ')' 1 rest p hc
        simp at h ⊢; omega
    · exact h

theorem length_skipAngles_le (depth : Nat) (cs : List Cell) :
    (skipAngles depth cs).length ≤ cs.length := by
  induction cs generalizing depth with
  | nil => simp [skipAngles]
  | cons c cs ih =>
    unfold skipAngles
    have := ih (depth + 1)
    have := ih (depth - 1)
    have := ih depth
    split
    · simp; omega
    · split
      · split <;> (simp only [List.length_cons]; omega)
      · simp; omega

theorem length_rest_lt {cs : List Cell} {c : Cell} {rest : List Cell} (h : dropBlank cs = c :: rest) :
    rest.length < cs.length := by
  have := length_dropBlank_le cs
  rw [h, List.length_cons] at this
  omega

/-- Reads annotations and modifiers as long as there are some. The word `interface` after an at-sign
begins a declaration. -/
def preamble (cs : List Cell) : Preamble :=
  match h : dropBlank cs with
  | [] => ⟨[], [], []⟩
  | c :: rest =>
    have := length_rest_lt h
    if c.view = '@' then
      let name := shownText (rest.takeWhile isAnnotationCell)
      if name = "interface" then ⟨[], [], c :: rest⟩
      else
        have := length_skipArguments_le (rest.dropWhile isAnnotationCell)
        have := length_dropWhile_cells_le isAnnotationCell rest
        let more := preamble (skipArguments (rest.dropWhile isAnnotationCell))
        { more with annotations := name :: more.annotations }
    else if c.view = '<' then
      have := length_skipAngles_le 1 rest
      preamble (skipAngles 1 rest)
    else if isModifierCell c then
      let word := shownText (c :: rest.takeWhile isModifierCell)
      if modifierWords.contains word then
        have := length_dropWhile_cells_le isModifierCell rest
        let more := preamble (rest.dropWhile isModifierCell)
        { more with modifiers := word :: more.modifiers }
      else ⟨[], [], c :: rest⟩
    else ⟨[], [], c :: rest⟩
termination_by cs.length
decreasing_by all_goals omega

end WireLayout.Java
