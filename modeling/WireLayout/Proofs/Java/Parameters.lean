import WireLayout.Proofs.Java.Header
import WireLayout.Proofs.Java.TypeReader

/-! A header with parameters. What it declares is decided before its parenthesis: a method or a constructor, or a
record with components. The text within the parentheses gives the parameters and nothing else. -/

namespace WireLayout.Java

open WireLayout.Text

variable {cs front rest params : List Cell} {o c : Cell} {owner text body : String}

/-- The part of a header before its parameters, with the parenthesis that opens them. If it is the header of a type,
then of a record whose components follow. -/
structure ParameterHead (front : List Cell) (o : Cell) : Prop where
  mark : o.view = '('
  balanced : Balanced Cell.view front
  free : Free Cell.view ['=', ';', '{'] front
  opens : ∃ before, splitAtParen 0 (preamble (front ++ [o])).rest = some (before, [])
  heading : ∀ heading ∈ heading? (preamble (front ++ [o])).rest,
    heading.kind = .recordType ∧ afterTypeParameters heading.after = [o]

theorem splitAtParen_eq_some {depth : Int} {before : List Cell} (h : splitAtParen depth cs = some (before, rest)) :
    ∃ paren, paren.view = '(' ∧ cs = before ++ paren :: rest := by
  induction cs generalizing depth before with
  | nil => cases h
  | cons c cs ih =>
    rw [splitAtParen] at h
    split at h
    · rename_i hc
      rw [Bool.and_eq_true, decide_eq_true_eq] at hc
      obtain ⟨rfl, rfl⟩ := Prod.mk.inj (Option.some.inj h)
      exact ⟨c, hc.1, rfl⟩
    · obtain ⟨q, hq, heq⟩ := Option.map_eq_some_iff.1 h
      obtain ⟨rfl, rfl⟩ := Prod.mk.inj heq
      obtain ⟨paren, hparen, rfl⟩ := ih hq
      exact ⟨paren, hparen, rfl⟩

/-- Parameters in parentheses hide no assignment that follows. -/
theorem lead_parameters (hbalanced : Balanced Cell.view front) (hfree : Free Cell.view ['='] front)
    (ho : o.view = '(') (hc : c.view = ')') (hparams : Balanced Cell.view params) :
    Lead (front ++ o :: (params ++ [c])) := by
  have hpair : closer? o.view = some c.view := by
    rw [ho, hc]
    rfl
  refine ⟨hbalanced.append (.bracketed hpair hparams), ?_, ?_⟩
  · rw [free_append hbalanced, free_group hparams hpair, ho]
    exact ⟨hfree, by decide, fun it hit => absurd hit List.not_mem_nil⟩
  · have hlast : lastView none (front ++ o :: (params ++ [c])) = some c.view := by
      rw [lastView_append, lastView_cons, lastView_append]
      rfl
    rw [hlast, hc]
    rfl

namespace ParameterHead

theorem rest_ne_nil (h : ParameterHead front o) : (preamble (front ++ [o])).rest ≠ [] := by
  obtain ⟨before, hopens⟩ := h.opens
  intro heq
  rw [heq] at hopens
  cases hopens

/-- The annotations and modifiers end before the parenthesis. -/
theorem preamble_append (h : ParameterHead front o) (tail : List Cell) :
    preamble (front ++ o :: tail) =
      { preamble (front ++ [o]) with rest := (preamble (front ++ [o])).rest ++ tail } := by
  rw [← preamble_local (endsOpen_append h.mark) h.rest_ne_nil, List.append_assoc, List.singleton_append]

theorem dropBlank_append_open (h : o.view = '(') (tail : List Cell) :
    dropBlank (front ++ o :: tail) = dropBlank front ++ o :: tail := by
  have hblank := isBlank_paren h
  rw [dropBlank, List.dropWhile_append]
  split
  · rename_i hempty
    rw [List.dropWhile_cons_of_neg (by simp [hblank]), dropBlank, List.isEmpty_iff.1 hempty, List.nil_append]
  · rfl

theorem trimCells_append (h : ParameterHead front o) (hc : c.view = ')') :
    trimCells (front ++ o :: (params ++ c :: rest)) =
      dropBlank front ++ o :: (params ++ c :: dropEnd Cell.isBlank rest) := by
  have hclose : c.isBlank = false := isBlank_of_view hc (by decide)
  have htrim : trimCells (front ++ o :: (params ++ c :: rest)) =
      dropEnd Cell.isBlank (dropBlank (front ++ o :: (params ++ c :: rest))) := rfl
  have hcells : dropBlank front ++ o :: (params ++ c :: rest) = (dropBlank front ++ o :: params) ++ c :: rest := by simp
  rw [htrim, dropBlank_append_open h.mark, hcells, dropEnd_append_cons hclose]
  simp

theorem trimmed (h : ParameterHead front o) : ParameterHead (dropBlank front) o := by
  obtain ⟨blanks, hblanks, hfront⟩ := exists_dropBlank front
  have hbalanced := h.balanced
  have hfree := h.free
  have hpreamble : preamble (dropBlank front ++ [o]) = preamble (front ++ [o]) := by
    rw [← dropBlank_append_open h.mark [], preamble_dropBlank]
  rw [hfront] at hbalanced hfree
  refine ⟨h.mark, Balanced.of_append (unmarked_of_blank hblanks).balanced hbalanced, ?_, ?_, ?_⟩
  · exact ((free_append (unmarked_of_blank hblanks).balanced).1 hfree).2
  · rw [hpreamble]
    exact h.opens
  · rw [hpreamble]
    exact h.heading

/-- The method of a header is decided but for its parameters, text and body. -/
theorem exists_method (h : ParameterHead front o) (owner : String) :
    ∃ m : Option Method, ∀ params c rest text body, Balanced Cell.view params → c.view = ')' →
      method? owner (front ++ o :: (params ++ c :: rest)) text body =
        m.map fun m => { m with parameters := parameters params, text, body } := by
  obtain ⟨before, hopens⟩ := h.opens
  refine ⟨method? owner (front ++ o :: [Cell.code ')']) "" "", fun params c rest text body hparams hc => ?_⟩
  have hsplit : ∀ tail, splitAtParen 0 (preamble (front ++ o :: tail)).rest = some (before, tail) := by
    intro tail
    rw [h.preamble_append, splitAtParen_local hopens, List.nil_append]
  have hclosing : ∀ {params : List Cell} {c : Cell} (rest : List Cell), Balanced Cell.view params → c.view = ')' →
      closing Cell.view '(' ')' 1 (params ++ c :: rest) = some (params, rest) := by
    intro params c rest hparams hc
    rw [← hc]
    exact closing_balanced hparams (by rw [hc]; rfl)
  have hempty : closing Cell.view '(' ')' 1 [Cell.code ')'] = some ([], []) :=
    hclosing [] .nil rfl
  rw [method?, method?, hsplit, hsplit, h.preamble_append (params ++ c :: rest), h.preamble_append [Cell.code ')']]
  simp only [Option.bind_eq_bind, Option.bind_some, hclosing rest hparams hc, hempty, Option.map_bind,
    Function.comp_def, Option.map_some]

theorem isBodiless_append (h : ParameterHead front o) (hparams : Balanced Cell.view params) (hc : c.view = ')') :
    isBodiless (front ++ o :: (params ++ c :: rest)) = true := by
  have hlead := lead_parameters h.balanced (h.free.mono (by simp)) h.mark hc hparams
  have hcells : front ++ o :: (params ++ c :: rest) = (front ++ o :: (params ++ [c])) ++ rest := by simp
  rw [isBodiless, hcells, splitAssignment_lead hlead]
  cases splitAssignment rest <;> simp [h.mark]

/-- Before the parenthesis stands the heading of a record, or none. -/
theorem heading?_append (h : ParameterHead front o) (tail : List Cell) :
    heading? (preamble (front ++ o :: tail)).rest =
      (heading? (preamble (front ++ [o])).rest).map fun heading => { heading with after := heading.after ++ tail } := by
  obtain ⟨before, hopens⟩ := h.opens
  obtain ⟨paren, hparen, hrest⟩ := splitAtParen_eq_some hopens
  have hend : EndsOpen (preamble (front ++ [o])).rest := by
    rw [hrest]
    exact endsOpen_append hparen
  rw [h.preamble_append, heading?_local hend h.rest_ne_nil]

end ParameterHead

/-- Behind the heading of a record stand its components. -/
theorem components?_append {heading : Heading} (hkind : heading.kind = .recordType)
    (hafter : afterTypeParameters heading.after = [o]) (ho : o.view = '(') (hparams : Balanced Cell.view params)
    (hc : c.view = ')') :
    Heading.components? { heading with after := heading.after ++ (params ++ c :: rest) } = some (params, rest) := by
  have hpair : closer? o.view = some c.view := by
    rw [ho, hc]
    rfl
  have hne : afterTypeParameters heading.after ≠ [] := by
    rw [hafter]
    exact List.cons_ne_nil o []
  have hclosing : closing Cell.view o.view c.view 1 (params ++ c :: rest) = some (params, rest) :=
    closing_balanced hparams hpair
  rw [ho, hc] at hclosing
  rw [Heading.components?, if_pos hkind, afterTypeParameters_local hne, hafter, List.singleton_append, components?,
    if_pos ho, hclosing]

end WireLayout.Java
