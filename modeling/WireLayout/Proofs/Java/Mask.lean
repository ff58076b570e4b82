import WireLayout.Java.Mask
import WireLayout.Proofs.Java.Cuts

/-! The mask over a text that is put together from parts. The mask looks at most two characters ahead, so a part that
ends outside comments and literals is masked as if it stood alone unless what follows it begins with a slash, a
star or a quote. -/

namespace WireLayout.Java

variable {cs ds : List Char} {state : MaskState}

/-- The state of the mask behind a text. -/
def maskAfter : MaskState → List Char → MaskState
  | state, [] => state
  | state, c :: rest => maskAfter (state.step c rest).2 rest

theorem views_append (cs ds : List Cell) : views (cs ++ ds) = views cs ++ views ds := List.map_append

/-- The text ends outside comments and literals. -/
def EndsInCode (cs : List Char) : Prop := maskAfter (.inside .code) cs = .inside .code

instance : Decidable (EndsInCode cs) := inferInstanceAs (Decidable (_ = _))

/-- The text does not complete what the end of a text before it may begin. -/
def Apart (cs : List Char) : Prop := ∀ c ∈ cs.head?, c ≠ '/' ∧ c ≠ '*' ∧ c ≠ '"'

@[simp] theorem apart_cons {c : Char} : Apart (c :: cs) ↔ c ≠ '/' ∧ c ≠ '*' ∧ c ≠ '"' := by simp [Apart]

theorem Apart.head?_ne (h : Apart cs) : cs.head? ≠ some '/' ∧ cs.head? ≠ some '*' := by
  cases cs with
  | nil => simp
  | cons c cs => simpa using ⟨(apart_cons.1 h).1, (apart_cons.1 h).2.1⟩

theorem twoQuotes_cons (x : Char) (cs : List Char) :
    twoQuotes (x :: cs) = (x = '"' && cs.head? = some '"') := by
  by_cases hx : x = '"'
  · subst hx
    cases cs with
    | nil => simp [twoQuotes]
    | cons y cs => by_cases hy : y = '"' <;> simp [twoQuotes, hy]
  · simp [twoQuotes, hx]

theorem twoQuotes_append (h : Apart ds) : twoQuotes (cs ++ ds) = twoQuotes cs := by
  have hquote : ds.head? ≠ some '"' := by
    cases ds with
    | nil => simp
    | cons d ds => simpa using (apart_cons.1 h).2.2
  cases cs with
  | nil =>
    cases ds with
    | nil => rfl
    | cons d ds => simp [twoQuotes, (apart_cons.1 h).2.2]
  | cons x cs => cases cs <;> simp [twoQuotes_cons, hquote]

/-- Ahead of a text that ends in code the mask sees nothing of what follows. -/
theorem step_append {c : Char} (h : Apart ds) (hend : maskAfter (state.step c cs).2 cs = .inside .code) :
    state.step c (cs ++ ds) = state.step c cs := by
  cases cs with
  | cons x cs =>
    have hquotes : twoQuotes ((x :: cs) ++ ds) = twoQuotes (x :: cs) := twoQuotes_append h
    rw [List.cons_append] at hquotes ⊢
    cases state with
    | passing left shown region => cases left <;> rfl
    | inside region => cases region <;> simp [MaskState.step, MaskState.step.literal, hquotes]
  | nil =>
    have hquotes : twoQuotes ([] ++ ds) = twoQuotes [] := twoQuotes_append h
    obtain ⟨hslash, hstar⟩ := h.head?_ne
    rw [List.nil_append] at hquotes ⊢
    rw [maskAfter] at hend
    cases state with
    | passing left shown region => cases left <;> rfl
    | inside region =>
      by_cases hescape : c = '\\'
      · -- a backslash at the end of a literal leaves the text inside of it
        subst hescape
        cases region <;> simp [MaskState.step, MaskState.step.literal] at hend ⊢
      · cases region <;> simp [MaskState.step, MaskState.step.literal, hslash, hstar, hquotes, hescape]

theorem cellsFrom_append (h : Apart ds) (hend : maskAfter state cs = .inside .code) :
    cellsFrom state (cs ++ ds) = cellsFrom state cs ++ cellsFrom (.inside .code) ds ∧
      maskAfter state (cs ++ ds) = maskAfter (.inside .code) ds := by
  induction cs generalizing state with
  | nil =>
    rw [maskAfter] at hend
    rw [hend]
    exact ⟨rfl, rfl⟩
  | cons c cs ih =>
    rw [maskAfter] at hend
    obtain ⟨hcells, hafter⟩ := ih hend
    rw [List.cons_append, cellsFrom, maskAfter, step_append h hend, cellsFrom, hcells, hafter]
    exact ⟨rfl, rfl⟩

theorem cells_append (hc : EndsInCode cs) (hd : Apart ds) : cells (cs ++ ds) = cells cs ++ cells ds :=
  (cellsFrom_append hd hc).1

/-- A character that begins no comment and no literal is shown. -/
theorem views_cells_cons {c : Char} (h : c ≠ '/' ∧ c ≠ '"' ∧ c ≠ '\'') (cs : List Char) :
    views (cells (c :: cs)) = c :: views (cells cs) := by
  have hstep : MaskState.step (.inside .code) c cs = (true, .inside .code) := by
    simp [MaskState.step, h.1, h.2.1, h.2.2]
  rw [cells, cellsFrom, hstep]
  rfl

end WireLayout.Java
