import WireLayout.Proofs.Java.Nesting
import WireLayout.Proofs.Routine.Steps

/-! The steps of a body that is put together from statements and blocks. A text that ends no step is passed
over, groups in parentheses included, and a semicolon or a brace after it makes its step. -/

namespace WireLayout.Routine

open WireLayout.Java WireLayout.Text

variable {cs ds rest inside : List Char}

/-- The text ends no step. -/
def Passed (cs : List Char) : Prop :=
  ∀ read rest, stepsFrom read (items id parenthesis? (cs ++ rest)) =
    stepsFrom (cs.reverse ++ read) (items id parenthesis? rest)

theorem passed_append (h : Passed cs) (hd : Passed ds) : Passed (cs ++ ds) := by
  intro read rest
  rw [List.append_assoc, h, hd, List.reverse_append, List.append_assoc]

def isStepMark (c : Char) : Bool := c = '(' || c = '{' || c = '}' || c = ';'

theorem items_single {c : Char} (h : c ≠ '(') :
    items id parenthesis? (c :: rest) = .single c :: items id parenthesis? rest := by
  simp [items, itemsFrom, parenthesis?, h]

theorem passed_of_plain (h : ∀ c ∈ cs, isStepMark c = false) : Passed cs := by
  induction cs with
  | nil => intro read rest; rfl
  | cons c cs ih =>
    intro read rest
    have hc := h c List.mem_cons_self
    simp only [isStepMark, Bool.or_eq_false_iff, decide_eq_false_iff_not] at hc
    obtain ⟨⟨⟨hopen, hleft⟩, hright⟩, hend⟩ := hc
    rw [List.cons_append, items_single hopen, stepsFrom, if_neg hleft, if_neg hright, if_neg hend,
      ih fun d hd => h d (List.mem_cons_of_mem c hd)]
    simp

theorem passed_gap {gap : List Char} (hgap : ∀ c ∈ gap, isAsciiSpace c = true) : Passed gap := by
  apply passed_of_plain
  intro c hc
  have hspace := hgap c hc
  simp only [isAsciiSpace, Bool.or_eq_true, decide_eq_true_iff] at hspace
  rcases hspace with (((rfl | rfl) | rfl) | rfl) | rfl <;> decide

theorem passed_group (h : Nested '(' ')' inside) : Passed ('(' :: (inside ++ [')'])) := by
  intro read rest
  have hclose : closing id '(' ')' 1 (inside ++ ')' :: rest) = some (inside, rest) :=
    closing_nested (by decide) h
  have hitems : items id parenthesis? ('(' :: (inside ++ ')' :: rest)) =
      .group '(' inside ')' :: items id parenthesis? rest := by
    rw [items, itemsFrom]
    exact itemsFrom_inside hclose
  rw [List.cons_append, List.append_assoc, List.singleton_append, hitems, stepsFrom]
  simp

theorem stepsOf_statement (h : Passed cs) :
    stepsOf (cs ++ ';' :: rest) = .execute (trimBlank id cs) :: stepsOf rest := by
  rw [stepsOf, h, items_single (by decide), stepsFrom, if_neg (by decide), if_neg (by decide), if_pos rfl]
  simp [stepsOf]

theorem stepsOf_enter (h : Passed cs) : stepsOf (cs ++ '{' :: rest) = .enter (trimBlank id cs) :: stepsOf rest := by
  rw [stepsOf, h, items_single (by decide), stepsFrom, if_pos rfl]
  simp [stepsOf]

theorem stepsOf_leave (h : Passed cs) : stepsOf (cs ++ '}' :: rest) = .leave :: stepsOf rest := by
  rw [stepsOf, h, items_single (by decide), stepsFrom, if_neg (by decide), if_pos rfl]
  rfl

theorem stepsOf_end (h : Passed cs) : stepsOf cs = [] := by
  have hcs := h [] []
  rw [List.append_nil] at hcs
  rw [stepsOf, hcs]
  rfl

end WireLayout.Routine
