import WireLayout.Proofs.Java.Cuts
import WireLayout.Proofs.Java.TypeReader
import WireLayout.Proofs.Text.Words

/-! Field statements. A statement is written from modifiers, a type and declarators with values in which brackets
match and no comma stands outside them. The statement is cut at its commas with angle brackets counted as nesting,
which is right for the type and wrong for the values: the fields that are read are the written ones if and only if
no comma is at depth zero within a value and the depth is zero at each comma between declarators. -/

namespace WireLayout.Java

open WireLayout.Text

variable {cs ds xs rest : List Cell}

/-- A name, and the value after an equals sign, with the blanks before the sign. -/
structure Declarator where
  name : List Cell
  value : Option (List Cell × List Cell)

namespace Declarator

def assigned : Option (List Cell × List Cell) → List Cell
  | none => []
  | some (gap, value) => gap ++ Cell.code '=' :: value

def cells (d : Declarator) : List Cell := d.name ++ assigned d.value

def initializer (d : Declarator) : Option String :=
  d.value.map fun v => String.ofList (trim isSpace (verbatim v.2))

end Declarator

/-- A name of ASCII. -/
structure IsName (cs : List Cell) : Prop where
  nonempty : cs ≠ []
  ident : ∀ c ∈ cs, c.isIdent = true
  head : ∀ c ∈ cs.head?, isAsciiDigit c.view = false

/-- A value has matching brackets and no comma outside them. -/
structure IsValue (cs : List Cell) : Prop where
  balanced : isBalanced (views cs) = true
  free : Free Cell.view [',', ';'] cs
  head : cs.head?.map Cell.view ≠ some '='
  last : ∃ c ∈ cs.getLast?, c.isBlank = false

/-- A type: its commas stand in angle brackets, and it is set off from the name that follows. -/
structure IsType (cs : List Cell) : Prop where
  balanced : isBalanced (views cs) = true
  plain : ∀ c ∈ cs, c.view ∉ ['=', '(', '{', ';']
  depth : walk Cell.view true ',' 0 cs = some 0
  head : ∃ c ∈ cs.head?, isSpace c.view = false ∧ c.view ≠ '@' ∧ c.view ≠ '<'
  word : shownText (cs.takeWhile isModifierCell) ∉ modifierWords
  last : ∀ c ∈ cs.getLast?, isModifierCell c = false

structure Declarator.WellFormed (d : Declarator) : Prop where
  name : IsName d.name
  gap : ∀ v ∈ d.value, Blank v.1
  value : ∀ v ∈ d.value, IsValue v.2

/-- A declarator after a comma, with the blanks before and after the comma. -/
structure Further where
  before : List Cell
  after : List Cell
  declarator : Declarator

def Further.cells (f : Further) : List Cell := f.before ++ Cell.code ',' :: (f.after ++ f.declarator.cells)

structure Further.WellFormed (f : Further) : Prop where
  before : Blank f.before
  after : Blank f.after
  declarator : f.declarator.WellFormed

structure ModifierWord where
  word : List Cell
  gap : List Cell

structure ModifierWord.WellFormed (m : ModifierWord) : Prop where
  word : shownText m.word ∈ modifierWords
  cells : ∀ c ∈ m.word, isModifierCell c = true
  gap : Blank m.gap ∧ m.gap ≠ []

structure FieldStatement where
  before : List Cell
  modifiers : List ModifierWord
  type : List Cell
  first : Declarator
  more : List Further
  after : List Cell

namespace FieldStatement

def declarators (s : FieldStatement) : List Declarator := s.first :: s.more.map Further.declarator

def declared (s : FieldStatement) : List Cell := s.type ++ (s.first.cells ++ s.more.flatMap Further.cells)

def core (s : FieldStatement) : List Cell := (s.modifiers.flatMap fun m => m.word ++ m.gap) ++ s.declared

def cells (s : FieldStatement) : List Cell := s.before ++ (s.core ++ s.after)

structure WellFormed (s : FieldStatement) : Prop where
  before : Blank s.before
  modifiers : ∀ m ∈ s.modifiers, m.WellFormed
  type : IsType s.type
  first : s.first.WellFormed
  more : ∀ f ∈ s.more, f.WellFormed
  after : Blank s.after

/-- The fields that the statement declares, one for each declarator. -/
def fields (s : FieldStatement) : List FieldDeclaration :=
  s.declarators.map fun d => {
    annotations := []
    modifiers := s.modifiers.map fun m => shownText m.word
    type := String.ofList (squeeze (verbatim s.type))
    name := shownText d.name
    initializer := d.initializer
    text := String.ofList (squeeze (verbatim s.core) ++ [';']) }

end FieldStatement

/-- The depth at the end of a declarator; none if a comma of its value stands at depth zero. -/
def Declarator.depth (d : Declarator) : Option Int :=
  match d.value with
  | none => some 0
  | some v => walk Cell.view true ',' 0 v.2

/-- The commas at depth zero are those between declarators. -/
def Separable : Declarator → List Further → Prop
  | d, [] => d.depth ≠ none
  | d, f :: more => d.depth = some 0 ∧ Separable f.declarator more

instance decidableSeparable : ∀ d fs, Decidable (Separable d fs)
  | d, [] => inferInstanceAs (Decidable (d.depth ≠ none))
  | d, f :: more =>
    have := decidableSeparable f.declarator more
    inferInstanceAs (Decidable (d.depth = some 0 ∧ Separable f.declarator more))

/-! The parts of a statement and the marks in them. -/

theorem unmarked_modifiers {ms : List ModifierWord} (h : ∀ m ∈ ms, m.WellFormed) :
    Unmarked (ms.flatMap fun m => m.word ++ m.gap) := by
  intro c hc
  obtain ⟨m, hm, hc⟩ := List.mem_flatMap.1 hc
  rcases List.mem_append.1 hc with hc | hc
  · exact unmarked_of_isModifierCell (h m hm).cells c hc
  · exact unmarked_of_blank (h m hm).gap.1 c hc

/-- The modifiers in front of a declaration are read one after another, by induction on them. -/
theorem preamble_modifiers {ms : List ModifierWord} (hms : ∀ m ∈ ms, m.WellFormed) (h : Plain cs) :
    preamble ((ms.flatMap fun m => m.word ++ m.gap) ++ cs) = ⟨[], ms.map fun m => shownText m.word, cs⟩ := by
  induction ms with
  | nil => exact preamble_plain h
  | cons m ms ih =>
    obtain ⟨hword, hcells, hgap, hne⟩ := hms m List.mem_cons_self
    have hstop : ∀ c ∈ (m.gap ++ ((ms.flatMap fun m => m.word ++ m.gap) ++ cs)).head?, isModifierCell c = false := by
      cases hgaps : m.gap with
      | nil => exact absurd hgaps hne
      | cons g gaps =>
        intro c hc
        rw [← Option.some.inj hc]
        exact isModifierCell_of_isBlank (hgap g (by rw [hgaps]; exact List.mem_cons_self))
    rw [List.flatMap_cons, List.append_assoc, List.append_assoc, preamble_modifier hcells hword hstop,
      preamble_append_blank hgap, ih fun n hn => hms n (List.mem_cons_of_mem m hn)]
    rfl

theorem head_modifiers {ms : List ModifierWord} (hms : ∀ m ∈ ms, m.WellFormed)
    (h : ∀ c ∈ cs.head?, c.isBlank = false) :
    ∀ c ∈ ((ms.flatMap fun m => m.word ++ m.gap) ++ cs).head?, c.isBlank = false := by
  cases ms with
  | nil => exact h
  | cons m ms =>
    have hmodifier := hms m List.mem_cons_self
    have hne : m.word ≠ [] := fun heq => absurd hmodifier.word (by rw [heq]; decide)
    obtain ⟨c, ws, hword, hblank, -⟩ := isModifierCell_head hmodifier.cells hne
    intro c' hc'
    rw [List.flatMap_cons, hword] at hc'
    obtain rfl := Option.some.inj hc'
    exact hblank

/-- A part of a statement before its first assignment: no method and no block begins in it. -/
structure Bare (cs : List Cell) : Prop where
  balanced : Balanced Cell.view cs
  plain : ∀ c ∈ cs, c.view ∉ ['=', '(', '{', ';']

theorem Unmarked.bare (h : Unmarked cs) : Bare cs :=
  ⟨h.balanced, fun c hc hmem => h c hc (by revert hmem; simp only [marks, List.mem_cons]; tauto)⟩

theorem IsType.bare (h : IsType cs) : Bare cs := ⟨isBalanced_map.1 h.balanced, h.plain⟩

namespace Bare

theorem append (hc : Bare cs) (hd : Bare ds) : Bare (cs ++ ds) :=
  ⟨hc.balanced.append hd.balanced, fun c hmem => (List.mem_append.1 hmem).elim (hc.plain c) (hd.plain c)⟩

theorem comma : Bare [Cell.code ','] := ⟨.of_forall (by decide), by decide⟩

theorem free (h : Bare cs) : Free Cell.view ['=', '(', '{', ';'] cs := free_of_notMem h.balanced h.plain

/-- What ends in a word or a blank is no part of a comparison. -/
theorem lead (h : Bare (cs ++ ds)) (hd : Unmarked ds) (hne : ds ≠ []) : Lead (cs ++ ds) :=
  ⟨h.balanced, h.free.mono (by simp), compares_lastView_append hd hne⟩

end Bare

/-- A statement without assignments, or one cut at its first assignment. -/
def Assigning (cs : List Cell) : Prop :=
  Bare cs ∨ ∃ before value, cs = before ++ Cell.code '=' :: value ∧ Bare before ∧ Lead before ∧
    Balanced Cell.view value ∧ Free Cell.view [';'] value ∧ value.head?.map Cell.view ≠ some '='

namespace Declarator

theorem balanced_assigned {v : Option (List Cell × List Cell)} (hgap : ∀ w ∈ v, Blank w.1)
    (hvalue : ∀ w ∈ v, IsValue w.2) : Balanced Cell.view (assigned v) ∧ Free Cell.view [',', ';'] (assigned v) := by
  cases v with
  | none => exact ⟨.nil, fun it hit => absurd hit List.not_mem_nil⟩
  | some w =>
    have hblank := unmarked_of_blank (hgap w rfl)
    have hbalanced := isBalanced_map.1 (hvalue w rfl).balanced
    have hsign : closer? (Cell.code '=').view = none := rfl
    refine ⟨hblank.balanced.append (.plain hsign rfl hbalanced), (free_append hblank.balanced).2 ⟨?_, ?_⟩⟩
    · exact hblank.free (by decide)
    · exact (free_cons hsign).2 ⟨by decide, (hvalue w rfl).free⟩

theorem WellFormed.balanced {d : Declarator} (h : d.WellFormed) : Balanced Cell.view d.cells :=
  (unmarked_of_isIdent h.name.ident).balanced.append (balanced_assigned h.gap h.value).1

theorem WellFormed.free {d : Declarator} (h : d.WellFormed) : Free Cell.view [',', ';'] d.cells :=
  (free_append (unmarked_of_isIdent h.name.ident).balanced).2
    ⟨(unmarked_of_isIdent h.name.ident).free (by decide), (balanced_assigned h.gap h.value).2⟩

end Declarator

theorem Further.WellFormed.balanced {f : Further} (h : f.WellFormed) : Balanced Cell.view f.cells :=
  (unmarked_of_blank h.before).balanced.append
    (.plain rfl rfl ((unmarked_of_blank h.after).balanced.append h.declarator.balanced))

theorem Further.WellFormed.free {f : Further} (h : f.WellFormed) : Free Cell.view [';'] f.cells := by
  have hbefore := unmarked_of_blank h.before
  have hafter := unmarked_of_blank h.after
  rw [Further.cells, free_append hbefore.balanced, free_cons rfl, free_append hafter.balanced]
  exact ⟨hbefore.free (by decide), by decide, hafter.free (by decide), h.declarator.free.mono (by simp)⟩

theorem balanced_further {fs : List Further} (h : ∀ f ∈ fs, f.WellFormed) :
    Balanced Cell.view (fs.flatMap Further.cells) ∧ Free Cell.view [';'] (fs.flatMap Further.cells) := by
  induction fs with
  | nil => exact ⟨.nil, fun it hit => absurd hit List.not_mem_nil⟩
  | cons f fs ih =>
    have hf := h f List.mem_cons_self
    obtain ⟨hbalanced, hfree⟩ := ih fun g hg => h g (List.mem_cons_of_mem f hg)
    rw [List.flatMap_cons]
    exact ⟨hf.balanced.append hbalanced, (free_append hf.balanced).2 ⟨hf.free, hfree⟩⟩

theorem IsValue.ne_nil (h : IsValue cs) : cs ≠ [] := by
  rintro rfl
  obtain ⟨c, hc, -⟩ := h.last
  cases hc

theorem head?_append_of_ne_nil {α : Type} {xs ys : List α} (h : xs ≠ []) : (xs ++ ys).head? = xs.head? := by
  cases xs with
  | nil => exact absurd rfl h
  | cons x xs => rfl

section

variable {d : Declarator} {fs : List Further} {before after : List Cell}

/-- A declarator with a value is cut at its equals sign. -/
theorem assigning_value (hd : d.WellFormed) (hfs : ∀ f ∈ fs, f.WellFormed) (hbefore : Bare before)
    (hafter : Blank after) (hv : d.value ≠ none) :
    Assigning (before ++ (d.cells ++ (fs.flatMap Further.cells ++ after))) := by
  obtain ⟨⟨gap, value⟩, hv⟩ := Option.ne_none_iff_exists'.1 hv
  have hvalue := hd.value _ hv
  have hbalanced := isBalanced_map.1 hvalue.balanced
  have hname := unmarked_of_isIdent hd.name.ident
  have hgap := unmarked_of_blank (hd.gap _ hv)
  have hblank := unmarked_of_blank hafter
  have hrest := balanced_further hfs
  have hbare : Bare (before ++ (d.name ++ gap)) := hbefore.append (hname.bare.append hgap.bare)
  refine .inr ⟨before ++ (d.name ++ gap), value ++ (fs.flatMap Further.cells ++ after), ?_, hbare, ?_, ?_, ?_, ?_⟩
  · simp [Declarator.cells, hv, Declarator.assigned]
  · exact hbare.lead (unmarked_append.2 ⟨hname, hgap⟩) (by simp [hd.name.nonempty])
  · exact hbalanced.append (hrest.1.append hblank.balanced)
  · rw [free_append hbalanced, free_append hrest.1]
    exact ⟨hvalue.free.mono (by simp), hrest.2, hblank.free (by decide)⟩
  · rw [head?_append_of_ne_nil hvalue.ne_nil]
    exact hvalue.head

/-- The first value, if any, is the first assignment, by induction on the declarators. -/
theorem assigning_declarators (hd : d.WellFormed) (hfs : ∀ f ∈ fs, f.WellFormed) (hbefore : Bare before)
    (hafter : Blank after) : Assigning (before ++ (d.cells ++ (fs.flatMap Further.cells ++ after))) := by
  induction fs generalizing d before with
  | nil =>
    cases hv : d.value with
    | some v => exact assigning_value hd hfs hbefore hafter (by simp [hv])
    | none =>
      rw [Declarator.cells, hv, Declarator.assigned, List.append_nil]
      exact .inl (hbefore.append ((unmarked_of_isIdent hd.name.ident).bare.append (unmarked_of_blank hafter).bare))
  | cons f fs ih =>
    cases hv : d.value with
    | some v => exact assigning_value hd hfs hbefore hafter (by simp [hv])
    | none =>
      have hf := hfs f List.mem_cons_self
      have hnext : Bare (before ++ (d.name ++ (f.before ++ ([Cell.code ','] ++ f.after)))) :=
        hbefore.append ((unmarked_of_isIdent hd.name.ident).bare.append ((unmarked_of_blank hf.before).bare.append
          (Bare.comma.append (unmarked_of_blank hf.after).bare)))
      have hih := ih hf.declarator (fun g hg => hfs g (List.mem_cons_of_mem f hg)) hnext
      simpa [Declarator.cells, hv, Declarator.assigned, Further.cells] using hih

end

theorem isBodiless_assigning (h : Assigning cs) : isBodiless cs = false := by
  have hbare : ∀ {xs : List Cell}, Bare xs → (xs.any fun c => c.view = '(') = false := by
    intro xs hxs
    rw [List.any_eq_false]
    intro c hc heq
    exact hxs.plain c hc (by rw [of_decide_eq_true heq]; decide)
  rcases h with h | ⟨before, value, rfl, hbefore, hlead, -, -, hhead⟩
  · rw [isBodiless, splitAssignment_eq_none h.balanced (h.free.mono (by simp))]
    exact hbare h
  · rw [isBodiless, splitAssignment_sign hlead rfl hhead]
    exact hbare hbefore

theorem segments_assigning (h : Assigning cs) :
    segments (cs ++ Cell.code ';' :: rest) = .statement cs :: segments rest := by
  rcases h with h | ⟨before, value, rfl, hbefore, hlead, hbalanced, hfree, hhead⟩
  · exact segments_statement h.balanced (h.free.mono (by simp)) rfl
  · have hread : items Cell.view closer? (before ++ Cell.code '=' :: (value ++ Cell.code ';' :: rest)) =
        items Cell.view closer? ((before ++ [Cell.code '=']) ++ (value ++ Cell.code ';' :: rest)) := by simp
    have hsign : Balanced Cell.view (before ++ [Cell.code '=']) :=
      hbefore.balanced.append (.plain rfl rfl .nil)
    have hunbroken : Free Cell.view [';', '{'] (before ++ [Cell.code '=']) :=
      (free_append hbefore.balanced).2 ⟨hbefore.free.mono (by simp), by decide⟩
    rw [List.append_assoc, List.cons_append, segments, hread, segmentsFrom_unbroken hsign hunbroken, List.append_nil,
      segmentsFrom_value hlead rfl hbalanced hfree hhead, items_plain rfl, segmentsFrom]
    simp [segments]

/-! The statement without the blanks around it. -/

theorem wellFormed_assigned {name gap value : List Cell} (hname : IsName name) (hgap : Blank gap)
    (hvalue : IsValue value) : Declarator.WellFormed ⟨name, some (gap, value)⟩ :=
  ⟨hname, fun _ hv => Option.some.inj hv ▸ hgap, fun _ hv => Option.some.inj hv ▸ hvalue⟩

theorem Declarator.cells_ne_nil {d : Declarator} (h : d.WellFormed) : d.cells ≠ [] := by
  simp [Declarator.cells, h.name.nonempty]

theorem IsName.head_shows (h : IsName cs) : ∀ c ∈ cs.head?, c.isBlank = false :=
  fun c hc => isBlank_of_isIdent (h.ident c (List.mem_of_mem_head? hc))

theorem IsName.last_shows (h : IsName cs) : ∀ c ∈ cs.getLast?, c.isBlank = false :=
  fun c hc => isBlank_of_isIdent (h.ident c (List.mem_of_mem_getLast? hc))

theorem IsValue.last_shows (h : IsValue cs) : ∀ c ∈ cs.getLast?, c.isBlank = false := by
  obtain ⟨c, hc, hblank⟩ := h.last
  intro c' hc'
  obtain rfl := Option.mem_unique hc hc'
  exact hblank

theorem Declarator.WellFormed.last_shows {d : Declarator} (h : d.WellFormed) :
    ∀ c ∈ d.cells.getLast?, c.isBlank = false := by
  unfold Declarator.cells
  cases hv : d.value with
  | none =>
    rw [Declarator.assigned, List.append_nil]
    exact h.name.last_shows
  | some v =>
    have hvalue := h.value v hv
    have hcells : d.name ++ Declarator.assigned (some v) = (d.name ++ (v.1 ++ [Cell.code '='])) ++ v.2 := by
      simp [Declarator.assigned]
    rw [hcells, List.getLast?_append_of_ne_nil _ hvalue.ne_nil]
    exact hvalue.last_shows

theorem last_declarators {d : Declarator} (hd : d.WellFormed) {fs : List Further} (hfs : ∀ f ∈ fs, f.WellFormed) :
    ∀ c ∈ (d.cells ++ fs.flatMap Further.cells).getLast?, c.isBlank = false := by
  induction fs generalizing d with
  | nil => simpa using hd.last_shows
  | cons f fs ih =>
    have hf := (hfs f List.mem_cons_self).declarator
    have hcells : d.cells ++ (f :: fs).flatMap Further.cells =
        (d.cells ++ (f.before ++ Cell.code ',' :: f.after)) ++ (f.declarator.cells ++ fs.flatMap Further.cells) := by
      simp [Further.cells]
    rw [hcells, List.getLast?_append_of_ne_nil _ (by simp [Declarator.cells_ne_nil hf])]
    exact ih hf fun g hg => hfs g (List.mem_cons_of_mem f hg)

theorem IsType.ne_nil (h : IsType cs) : cs ≠ [] := by
  rintro rfl
  obtain ⟨c, hc, -⟩ := h.head
  cases hc

theorem IsType.head_shows (h : IsType cs) : ∀ c ∈ cs.head?, c.isBlank = false ∧ c.view ≠ '@' ∧ c.view ≠ '<' := by
  obtain ⟨c, hc, hspace, hmarks⟩ := h.head
  intro c' hc'
  obtain rfl := Option.mem_unique hc hc'
  exact ⟨isAsciiSpace_of_isSpace hspace, hmarks⟩

namespace FieldStatement

variable {s : FieldStatement}

theorem WellFormed.head_shows (h : s.WellFormed) : ∀ c ∈ s.core.head?, c.isBlank = false := by
  refine head_modifiers h.modifiers ?_
  rw [declared, head?_append_of_ne_nil h.type.ne_nil]
  exact fun c hc => (h.type.head_shows c hc).1

theorem WellFormed.last_shows (h : s.WellFormed) : ∀ c ∈ s.core.getLast?, c.isBlank = false := by
  have hne : s.first.cells ++ s.more.flatMap Further.cells ≠ [] := by simp [Declarator.cells_ne_nil h.first]
  have hcore : s.core = ((s.modifiers.flatMap fun m => m.word ++ m.gap) ++ s.type) ++
      (s.first.cells ++ s.more.flatMap Further.cells) := by simp [core, declared]
  rw [hcore, List.getLast?_append_of_ne_nil _ hne]
  exact last_declarators h.first h.more

theorem trimCells_cells (h : s.WellFormed) : trimCells s.cells = s.core :=
  trim_between h.before h.after h.head_shows h.last_shows

theorem WellFormed.core_ne_nil (h : s.WellFormed) : s.core ≠ [] := by
  simp [core, declared, h.type.ne_nil]

theorem WellFormed.assigning_core (h : s.WellFormed) : Assigning s.core := by
  have hbare : Bare ((s.modifiers.flatMap fun m => m.word ++ m.gap) ++ s.type) :=
    (unmarked_modifiers h.modifiers).bare.append h.type.bare
  have hnil : Blank [] := by simp [Blank]
  have hassigning := assigning_declarators h.first h.more hbare hnil
  simpa [core, declared] using hassigning

theorem WellFormed.assigning (h : s.WellFormed) : Assigning s.cells := by
  have hbare : Bare (s.before ++ ((s.modifiers.flatMap fun m => m.word ++ m.gap) ++ s.type)) :=
    (unmarked_of_blank h.before).bare.append ((unmarked_modifiers h.modifiers).bare.append h.type.bare)
  have hassigning := assigning_declarators h.first h.more hbare h.after
  simpa [cells, core, declared] using hassigning

/-- The modifiers are read one after another, up to the type. -/
theorem preamble_core (h : s.WellFormed) :
    preamble s.core = ⟨[], s.modifiers.map fun m => shownText m.word, s.declared⟩ := by
  have hplain : Plain s.declared := by
    refine ⟨?_, ?_⟩
    · rw [declared, head?_append_of_ne_nil h.type.ne_nil]
      exact h.type.head_shows
    · rw [declared, (span_local h.type.ne_nil h.type.last).1]
      simpa using h.type.word
  exact preamble_modifiers h.modifiers hplain

end FieldStatement

/-! Pieces. -/

theorem walk_unmarked (h : Unmarked cs) (depth : Int) : walk Cell.view true ',' depth cs = some depth :=
  h.walk (by decide) depth

theorem walk_sign (cs : List Cell) (depth : Int) :
    walk Cell.view true ',' depth (Cell.code '=' :: cs) = walk Cell.view true ',' depth cs := by
  rw [walk]
  rfl

/-- What may stand before the name of a declarator: the type, or nothing. -/
structure Typed (cs : List Cell) : Prop where
  bare : Bare cs
  depth : walk Cell.view true ',' 0 cs = some 0
  head : ∀ c ∈ cs.head?, c.isBlank = false

theorem typed_nil : Typed [] := ⟨⟨.nil, by simp⟩, rfl, by simp⟩

theorem IsType.typed (h : IsType cs) : Typed cs := ⟨h.bare, h.depth, fun c hc => (h.head_shows c hc).1⟩

section

variable {type before gap value : List Cell} {d : Declarator} {f : Further} {fs : List Further}

theorem head_typed (ht : Typed type) (hname : IsName ds) : ∀ c ∈ (type ++ (ds ++ cs)).head?, c.isBlank = false := by
  cases type with
  | nil =>
    rw [List.nil_append, head?_append_of_ne_nil hname.nonempty]
    exact hname.head_shows
  | cons t type => exact ht.head

theorem nonEmpty_trimBlank (hbefore : Blank before) (hafter : Blank gap) (hne : cs ≠ [])
    (hh : ∀ c ∈ cs.head?, c.isBlank = false) (hl : ∀ c ∈ cs.getLast?, c.isBlank = false) :
    nonEmpty (trimBlank Cell.view (before ++ (cs ++ gap))) = [cs] := by
  have htrim : trimBlank Cell.view (before ++ (cs ++ gap)) = cs := trim_between hbefore hafter hh hl
  rw [htrim, nonEmpty, if_neg (by simpa using hne)]

theorem walk_signed (hbefore : Blank before) (ht : Typed type) (hname : IsName ds) (hgap : Blank gap) :
    walk Cell.view true ',' 0 (before ++ (type ++ (ds ++ (gap ++ Cell.code '=' :: cs)))) =
      walk Cell.view true ',' 0 cs := by
  rw [walk_append, walk_unmarked (unmarked_of_blank hbefore), Option.bind_some, walk_append, ht.depth, Option.bind_some,
    walk_append, walk_unmarked (unmarked_of_isIdent hname.ident), Option.bind_some, walk_append,
    walk_unmarked (unmarked_of_blank hgap), Option.bind_some, walk_sign]

/-- Up to the end of a declarator the depth is that of its value. -/
theorem walk_typed (hbefore : Blank before) (ht : Typed type) (hd : d.WellFormed) :
    walk Cell.view true ',' 0 (before ++ (type ++ d.cells)) = d.depth := by
  unfold Declarator.cells Declarator.depth
  cases hv : d.value with
  | none =>
    rw [Declarator.assigned, List.append_nil, walk_append, walk_unmarked (unmarked_of_blank hbefore), Option.bind_some,
      walk_append, ht.depth, Option.bind_some, walk_unmarked (unmarked_of_isIdent hd.name.ident)]
  | some v => exact walk_signed hbefore ht hd.name (hd.gap v hv)

theorem typed_cells_ne_nil (hd : d.WellFormed) : type ++ d.cells ≠ [] := by simp [Declarator.cells_ne_nil hd]

theorem last_typed (hd : d.WellFormed) : ∀ c ∈ (type ++ d.cells).getLast?, c.isBlank = false := by
  rw [List.getLast?_append_of_ne_nil _ (Declarator.cells_ne_nil hd)]
  exact hd.last_shows

/-- A comma at depth zero after a declarator ends its piece. -/
theorem pieces_separated (hbefore : Blank before) (ht : Typed type) (hd : d.WellFormed) (hgap : Blank gap)
    (hdepth : d.depth = some 0) :
    pieces Cell.view true ',' (before ++ (type ++ (d.cells ++ (gap ++ Cell.code ',' :: rest)))) =
      (type ++ d.cells) :: pieces Cell.view true ',' rest := by
  have hwalk : walk Cell.view true ',' 0 ((before ++ (type ++ d.cells)) ++ gap) = some 0 := by
    rw [walk_append, walk_typed hbefore ht hd, hdepth, Option.bind_some, walk_unmarked (unmarked_of_blank hgap)]
  have hcells : before ++ (type ++ (d.cells ++ (gap ++ Cell.code ',' :: rest))) =
      ((before ++ (type ++ d.cells)) ++ gap) ++ Cell.code ',' :: rest := by simp
  have hcomma : (Cell.code ',').view = ',' := rfl
  rw [hcells, pieces, piecesFrom_walk hwalk, piecesFrom_separator hcomma rfl, List.append_nil, List.reverse_reverse,
    List.append_assoc, nonEmpty_trimBlank hbefore hgap (typed_cells_ne_nil hd) (head_typed ht hd.name) (last_typed hd)]
  rfl

theorem pieces_last (hbefore : Blank before) (ht : Typed type) (hd : d.WellFormed) (hdepth : d.depth ≠ none) :
    pieces Cell.view true ',' (before ++ (type ++ d.cells)) = [type ++ d.cells] := by
  obtain ⟨depth, hdepth⟩ := Option.ne_none_iff_exists'.1 hdepth
  have hwalk : walk Cell.view true ',' 0 (before ++ (type ++ d.cells)) = some depth := by
    rw [walk_typed hbefore ht hd, hdepth]
  have hend : piecesFrom Cell.view true ',' 0 [] ((before ++ (type ++ d.cells)) ++ []) = _ := piecesFrom_walk hwalk
  have hnil : Blank [] := by simp [Blank]
  rw [List.append_nil, List.append_nil] at hend
  have hone := nonEmpty_trimBlank hbefore hnil (typed_cells_ne_nil hd) (head_typed ht hd.name) (last_typed hd)
  rw [List.append_nil] at hone
  rw [pieces, hend, piecesFrom, List.reverse_reverse, hone]

/-- The commas of a text, hidden ones included. -/
def commas (cs : List Cell) : Nat := (verbatim cs).countP (· = ',')

theorem commas_append : commas (cs ++ ds) = commas cs + commas ds := by
  rw [commas, verbatim, List.map_append, List.countP_append]
  rfl

theorem commas_cons {c : Cell} (h : c.view = ',') : commas (c :: cs) = commas cs + 1 := by
  have hchar : c.char = ',' := by
    rw [Cell.view] at h
    split at h
    · exact h
    · exact absurd h (by decide)
  rw [commas, verbatim, List.map_cons, List.countP_cons, hchar]
  rfl

theorem commas_dropEnd_le : commas (dropEnd Cell.isBlank cs) ≤ commas cs :=
  (prefix_dropEnd.sublist.map Cell.char).countP_le

/-- A piece that holds less or more than the value of its declarator: another number of commas. -/
structure Misread (type : List Cell) (d : Declarator) (piece : List Cell) : Prop where
  cut : ∃ gap value read, d.value = some (gap, value) ∧ piece = type ++ (d.name ++ (gap ++ Cell.code '=' :: read)) ∧
    read.head?.map Cell.view ≠ some '=' ∧ commas read ≠ commas value

theorem nonEmpty_signed (hbefore : Blank before) (ht : Typed type) (hname : IsName ds) :
    nonEmpty (trimBlank Cell.view (before ++ (type ++ (ds ++ (gap ++ Cell.code '=' :: cs))))) =
      [type ++ (ds ++ (gap ++ Cell.code '=' :: dropEnd Cell.isBlank cs))] := by
  have hhead : (type ++ (ds ++ (gap ++ Cell.code '=' :: cs))).dropWhile Cell.isBlank =
      type ++ (ds ++ (gap ++ Cell.code '=' :: cs)) := by
    have hshows : ∀ c ∈ (type ++ (ds ++ (gap ++ Cell.code '=' :: cs))).head?, c.isBlank = false := head_typed ht hname
    cases hc : type ++ (ds ++ (gap ++ Cell.code '=' :: cs)) with
    | nil => rfl
    | cons c rest =>
      rw [hc] at hshows
      rw [List.dropWhile_cons_of_neg (by simp [hshows c rfl])]
  have htrim : trimBlank Cell.view (before ++ (type ++ (ds ++ (gap ++ Cell.code '=' :: cs)))) =
      type ++ (ds ++ (gap ++ Cell.code '=' :: dropEnd Cell.isBlank cs)) := by
    have hleft : trimBlank Cell.view (before ++ (type ++ (ds ++ (gap ++ Cell.code '=' :: cs)))) =
        trim Cell.isBlank (type ++ (ds ++ (gap ++ Cell.code '=' :: cs))) := trim_append_left hbefore
    have hsign : (Cell.code '=').isBlank = false := rfl
    rw [hleft, trim, hhead, ← List.append_assoc, ← List.append_assoc, dropEnd_append_cons hsign]
    simp
  rw [htrim, nonEmpty, if_neg (by simp)]

theorem head?_ne_of_prefix {v : Char} (h : cs <+: ds) (hds : ds.head?.map Cell.view ≠ some v) :
    cs.head?.map Cell.view ≠ some v := by
  cases cs with
  | nil => simp
  | cons c cs =>
    obtain ⟨rest, rfl⟩ := h
    exact hds

/-- A comma at depth zero within a value ends the piece there. -/
theorem misread_within (hbefore : Blank before) (ht : Typed type) (hd : d.WellFormed) (hv : d.value = some (gap, value))
    (hwalk : walk Cell.view true ',' 0 value = none) :
    ∃ piece more, pieces Cell.view true ',' (before ++ (type ++ (d.cells ++ rest))) = piece :: more ∧
      Misread type d piece := by
  obtain ⟨front, comma, back, rfl, hcomma, -, hfront⟩ := exists_separator hwalk
  have hcells : before ++ (type ++ (d.cells ++ rest)) =
      (before ++ (type ++ (d.name ++ (gap ++ Cell.code '=' :: front)))) ++ comma :: (back ++ rest) := by
    simp [Declarator.cells, hv, Declarator.assigned]
  have hsigned := (walk_signed hbefore ht hd.name (hd.gap _ hv)).trans hfront
  refine ⟨type ++ (d.name ++ (gap ++ Cell.code '=' :: dropEnd Cell.isBlank front)),
    pieces Cell.view true ',' (back ++ rest), ?_, gap, _, dropEnd Cell.isBlank front, hv, rfl, ?_, ?_⟩
  · rw [hcells, pieces, piecesFrom_walk hsigned, piecesFrom_separator hcomma rfl, List.append_nil,
      List.reverse_reverse, nonEmpty_signed hbefore ht hd.name]
    rfl
  · exact head?_ne_of_prefix (prefix_dropEnd.trans (List.prefix_append _ _)) (hd.value _ hv).head
  · have hle : commas (dropEnd Cell.isBlank front) ≤ commas front := commas_dropEnd_le
    rw [commas_append, commas_cons hcomma]
    omega

/-- At another depth the comma after a value is read into the piece. -/
theorem misread_past (hbefore : Blank before) (ht : Typed type) (hd : d.WellFormed) (hf : f.WellFormed)
    (hv : d.value = some (gap, value)) {depth : Int} (hwalk : walk Cell.view true ',' 0 value = some depth)
    (hdepth : depth ≠ 0) :
    ∃ piece more, pieces Cell.view true ',' (before ++ (type ++ (d.cells ++ (f.cells ++ rest)))) = piece :: more ∧
      Misread type d piece := by
  obtain ⟨first, more, -, -, hmore⟩ := exists_firstPiece Cell.view true ',' depth (f.after ++ (f.declarator.cells ++ rest))
  have hcells : before ++ (type ++ (d.cells ++ (f.cells ++ rest))) =
      ((before ++ (type ++ (d.name ++ (gap ++ Cell.code '=' :: value)))) ++ f.before) ++
        Cell.code ',' :: (f.after ++ (f.declarator.cells ++ rest)) := by
    simp [Declarator.cells, hv, Declarator.assigned, Further.cells]
  have hfront : walk Cell.view true ',' 0
      ((before ++ (type ++ (d.name ++ (gap ++ Cell.code '=' :: value)))) ++ f.before) = some depth := by
    rw [walk_append, walk_signed hbefore ht hd.name (hd.gap _ hv), hwalk, Option.bind_some,
      walk_unmarked (unmarked_of_blank hf.before)]
  have hread : (Cell.code ',' :: (((before ++ (type ++ (d.name ++ (gap ++ Cell.code '=' :: value)))) ++
      f.before).reverse ++ [])).reverse ++ first =
        before ++ (type ++ (d.name ++ (gap ++ Cell.code '=' :: (value ++ (f.before ++ Cell.code ',' :: first))))) := by
    simp
  have hdrop : dropEnd Cell.isBlank (value ++ (f.before ++ Cell.code ',' :: first)) =
      value ++ (f.before ++ Cell.code ',' :: dropEnd Cell.isBlank first) := by
    have hcomma : (Cell.code ',').isBlank = false := rfl
    rw [← List.append_assoc, dropEnd_append_cons hcomma, List.append_assoc]
  refine ⟨type ++ (d.name ++ (gap ++ Cell.code '=' ::
    (value ++ (f.before ++ Cell.code ',' :: dropEnd Cell.isBlank first)))), more, ?_, gap, value, _, hv, rfl, ?_, ?_⟩
  · have hcomma : depthChange true ',' = none := rfl
    rw [hcells, pieces, piecesFrom_walk hfront, piecesFrom]
    simp only [Cell.view_code, hcomma, hdepth, decide_false, Bool.and_false, Bool.false_eq_true, if_false, hmore]
    rw [hread, nonEmpty_signed hbefore ht hd.name, hdrop]
    rfl
  · rw [head?_append_of_ne_nil (hd.value _ hv).ne_nil]
    exact (hd.value _ hv).head
  · rw [commas_append, commas_append, commas_cons (Cell.view_code ',')]
    omega

/-- The first piece is that of the first declarator, or it holds another number of commas. -/
theorem pieces_declarators (hbefore : Blank before) (ht : Typed type) (hd : d.WellFormed)
    (hfs : ∀ f ∈ fs, f.WellFormed) :
    (fs = [] ∧ d.depth ≠ none ∧
      pieces Cell.view true ',' (before ++ (type ++ (d.cells ++ fs.flatMap Further.cells))) = [type ++ d.cells]) ∨
    (∃ f more, fs = f :: more ∧ d.depth = some 0 ∧
      pieces Cell.view true ',' (before ++ (type ++ (d.cells ++ fs.flatMap Further.cells))) =
        (type ++ d.cells) ::
          pieces Cell.view true ',' (f.after ++ (f.declarator.cells ++ more.flatMap Further.cells))) ∨
    (¬ Separable d fs ∧ ∃ piece more,
      pieces Cell.view true ',' (before ++ (type ++ (d.cells ++ fs.flatMap Further.cells))) = piece :: more ∧
        Misread type d piece) := by
  have hdepth : ∀ gap value, d.value = some (gap, value) → d.depth = walk Cell.view true ',' 0 value := by
    intro gap value hv
    rw [Declarator.depth, hv]
  have hvalue : d.depth ≠ some 0 → ∃ gap value, d.value = some (gap, value) := by
    intro h
    cases hv : d.value with
    | none => exact absurd (by rw [Declarator.depth, hv]) h
    | some v => exact ⟨v.1, v.2, rfl⟩
  cases fs with
  | nil =>
    by_cases h : d.depth = none
    · obtain ⟨gap, value, hv⟩ := hvalue (by rw [h]; simp)
      exact .inr (.inr ⟨fun hs => hs h, misread_within hbefore ht hd hv ((hdepth gap value hv).symm.trans h)⟩)
    · refine .inl ⟨rfl, h, ?_⟩
      rw [List.flatMap_nil, List.append_nil]
      exact pieces_last hbefore ht hd h
  | cons f fs =>
    have hf := hfs f List.mem_cons_self
    rw [List.flatMap_cons]
    by_cases h : d.depth = some 0
    · refine .inr (.inl ⟨f, fs, rfl, h, ?_⟩)
      rw [← pieces_separated hbefore ht hd hf.before h]
      simp [Further.cells]
    · obtain ⟨gap, value, hv⟩ := hvalue h
      refine .inr (.inr ⟨fun hs => h hs.1, ?_⟩)
      cases hwalk : walk Cell.view true ',' 0 value with
      | none => exact misread_within hbefore ht hd hv hwalk
      | some depth =>
        have hne : depth ≠ 0 := fun heq => h (by rw [hdepth gap value hv, hwalk, heq])
        exact misread_past hbefore ht hd hf hv hwalk hne

/-! Reading a piece. -/

theorem trimCells_typed (ht : Typed type) (hname : IsName ds) (hgap : Blank gap) :
    trimCells (type ++ (ds ++ gap)) = type ++ ds := by
  have hhead : ∀ c ∈ (type ++ (ds ++ [])).head?, c.isBlank = false := head_typed ht hname
  rw [List.append_nil] at hhead
  have hlast : ∀ c ∈ (type ++ ds).getLast?, c.isBlank = false := by
    rw [List.getLast?_append_of_ne_nil _ hname.nonempty]
    exact hname.last_shows
  have hnil : Blank [] := by simp [Blank]
  have htrim : trimCells ([] ++ ((type ++ ds) ++ gap)) = type ++ ds :=
    trim_between hnil hgap hhead hlast
  simpa using htrim

theorem declarator_signed (ht : Typed type) (hname : IsName ds) (hgap : Blank gap)
    (hhead : value.head?.map Cell.view ≠ some '=') :
    declarator (type ++ (ds ++ (gap ++ Cell.code '=' :: value))) =
      (type ++ ds, some (String.ofList (trim isSpace (verbatim value)))) := by
  have hunmarked : Unmarked (ds ++ gap) := unmarked_append.2 ⟨unmarked_of_isIdent hname.ident, unmarked_of_blank hgap⟩
  have hlead : Lead (type ++ (ds ++ gap)) :=
    (ht.bare.append hunmarked.bare).lead hunmarked (by simp [hname.nonempty])
  have hcells : type ++ (ds ++ (gap ++ Cell.code '=' :: value)) = (type ++ (ds ++ gap)) ++ Cell.code '=' :: value := by
    simp
  rw [declarator, hcells, splitAssignment_sign hlead rfl hhead]
  simp only [trimCells_typed ht hname hgap]

theorem declarator_cells (ht : Typed type) (hd : d.WellFormed) :
    declarator (type ++ d.cells) = (type ++ d.name, d.initializer) := by
  unfold Declarator.cells Declarator.initializer
  cases hv : d.value with
  | some v => exact declarator_signed ht hd.name (hd.gap v hv) (hd.value v hv).head
  | none =>
    have hbare : Bare (type ++ d.name) := ht.bare.append (unmarked_of_isIdent hd.name.ident).bare
    have hnil : Blank [] := by simp [Blank]
    have htrim := trimCells_typed ht hd.name hnil
    rw [List.append_nil] at htrim
    rw [Declarator.assigned, List.append_nil, declarator,
      splitAssignment_eq_none hbare.balanced (hbare.free.mono (by simp))]
    simp only [htrim, Option.map_none]

theorem commas_initializer {xs ys : List Cell} (h : trim isSpace (verbatim xs) = trim isSpace (verbatim ys)) :
    commas xs = commas ys := by
  have hcomma : ∀ x : Char, decide (x = ',') = true → isSpace x = false := by
    intro x hx
    rw [of_decide_eq_true hx]
    decide
  rw [commas, commas, ← countP_trim hcomma, h, countP_trim hcomma]

/-- A misread piece has the name of its declarator and another initializer. -/
theorem declarator_misread (ht : Typed type) (hd : d.WellFormed) {piece : List Cell} (h : Misread type d piece) :
    ∃ initializer, declarator piece = (type ++ d.name, initializer) ∧ initializer ≠ d.initializer := by
  obtain ⟨gap, value, read, hv, rfl, hhead, hcommas⟩ := h
  refine ⟨_, declarator_signed ht hd.name (hd.gap _ hv) hhead, fun heq => hcommas ?_⟩
  rw [Declarator.initializer, hv] at heq
  exact commas_initializer (String.ofList_injective (Option.some.inj heq))

theorem bareName?_name (h : IsName ds) : bareName? ds = some (shownText ds) := by
  have hident : ∀ x ∈ views ds, isIdent x = true := by
    intro x hx
    obtain ⟨c, hc, rfl⟩ := List.mem_map.1 hx
    exact h.ident c hc
  have htrim : trim isSpace (views ds) = views ds :=
    trim_eq_self (fun x hx => isSpace_of_isIdent (hident x (List.mem_of_mem_head? hx)))
      fun x hx => isSpace_of_isIdent (hident x (List.mem_of_mem_getLast? hx))
  have hne : (views ds).isEmpty = false := by simp [views, h.nonempty]
  have hall : (views ds).all isIdent = true := List.all_eq_true.2 hident
  simp [bareName?, htrim, hne, hall, shownText]

theorem stripDimensions_ident {c : Cell} (h : c.isIdent = true) : stripDimensions (c :: cs) = (0, c :: cs) := by
  have hblank := isBlank_of_isIdent h
  have hbracket : c.view ≠ ']' := by
    intro heq
    rw [Cell.isIdent, heq] at h
    exact absurd h (by decide)
  cases cs with
  | nil => simp [stripDimensions, hblank]
  | cons d cs => simp [stripDimensions, hblank, hbracket]

/-- The word that is being read goes on from what has been read of it. -/
theorem IsType.squeeze_ne_nil (h : IsType cs) : squeeze (verbatim cs) ≠ [] := by
  obtain ⟨c, hc, hspace, -⟩ := h.head
  obtain ⟨cs, rfl⟩ : ∃ rest, cs = c :: rest := by
    cases cs with
    | nil => cases hc
    | cons d cs => exact ⟨cs, by rw [Option.some.inj hc]⟩
  have hchar : c.char = c.view := by
    rw [Cell.view]
    split
    · rfl
    · rename_i hshown
      rw [Cell.view, if_neg hshown] at hspace
      exact absurd hspace (by decide)
  rw [verbatim, List.map_cons]
  exact Text.squeeze_ne_nil (by rw [hchar]; exact hspace) _

theorem typedName?_type (ht : IsType type) (hname : IsName ds) :
    typedName? (type ++ ds) = some (String.ofList (squeeze (verbatim type)), shownText ds) := by
  have hnil : Blank [] := by simp [Blank]
  have htrim := trimCells_typed ht.typed hname hnil
  rw [List.append_nil] at htrim
  obtain ⟨c, rest, hreverse⟩ := List.exists_cons_of_ne_nil (List.reverse_ne_nil_iff.2 hname.nonempty)
  have hstrip : stripDimensions (ds.reverse ++ type.reverse) = (0, ds.reverse ++ type.reverse) := by
    rw [hreverse]
    exact stripDimensions_ident (hname.ident c (List.mem_reverse.1 (by rw [hreverse]; exact List.mem_cons_self)))
  have hstop : ∀ c ∈ type.reverse.head?, c.isIdent = false := by
    intro c hc
    rw [List.head?_reverse] at hc
    have hlast := ht.last c hc
    rw [isModifierCell, Bool.or_eq_false_iff] at hlast
    exact hlast.1
  obtain ⟨htake, hdrop⟩ := span_append (fun c hc => hname.ident c (List.mem_reverse.1 hc)) hstop
  have hdigit : (ds.head?.any fun c => isAsciiDigit c.view) = false := by
    cases hd : ds.head? with
    | none => rfl
    | some c => exact hname.head c hd
  have hempty : ds.isEmpty = false := by simpa using hname.nonempty
  have htype : (squeeze (verbatim type)).isEmpty = false := by simpa using ht.squeeze_ne_nil
  rw [typedName?, htrim, List.reverse_append, hstrip]
  simp [htake, hdrop, hempty, htype, hdigit, dimensions]

/-! The fields of a statement. -/

def Declarator.fieldLike (template : FieldDeclaration) (d : Declarator) : FieldDeclaration :=
  { template with name := shownText d.name, initializer := d.initializer }

theorem laterFields_cons (template : FieldDeclaration) {piece : List Cell} {initializer : Option String}
    {more : List (List Cell)} (hname : IsName ds) (hpiece : declarator piece = (ds, initializer)) :
    laterFields template (piece :: more) =
      { template with name := shownText ds, initializer } :: laterFields template more := by
  simp only [laterFields, hpiece, bareName?_name hname]

theorem laterFields_misread (template : FieldDeclaration) (hd : d.WellFormed) {piece : List Cell}
    {more : List (List Cell)} {later : List Declarator} (h : Misread [] d piece) :
    laterFields template (piece :: more) ≠ (d :: later).map (Declarator.fieldLike template) := by
  obtain ⟨initializer, hpiece, hne⟩ := declarator_misread typed_nil hd h
  rw [laterFields_cons template hd.name hpiece, List.map_cons]
  intro heq
  exact hne (congrArg FieldDeclaration.initializer (List.cons.inj heq).1)

/-- The declarators after the first are read as they are written if they are cut apart, by induction on them. -/
theorem laterFields_eq_iff (template : FieldDeclaration) (hbefore : Blank before) (hd : d.WellFormed)
    (hfs : ∀ f ∈ fs, f.WellFormed) :
    laterFields template (pieces Cell.view true ',' (before ++ (d.cells ++ fs.flatMap Further.cells))) =
        (d :: fs.map Further.declarator).map (Declarator.fieldLike template) ↔ Separable d fs := by
  have hread : declarator d.cells = (d.name, d.initializer) := declarator_cells typed_nil hd
  have hcases := pieces_declarators hbefore typed_nil hd hfs
  simp only [List.nil_append] at hcases
  induction fs generalizing d before with
  | nil =>
    rcases hcases with ⟨-, hdepth, hpieces⟩ | ⟨f, more, heq, -⟩ | ⟨hnot, piece, more, hpieces, hmisread⟩
    · rw [hpieces, laterFields_cons template hd.name hread]
      exact iff_of_true rfl hdepth
    · cases heq
    · rw [hpieces]
      exact iff_of_false (laterFields_misread template hd hmisread) hnot
  | cons f fs ih =>
    rcases hcases with ⟨heq, -⟩ | ⟨f, more, heq, hdepth, hpieces⟩ | ⟨hnot, piece, more, hpieces, hmisread⟩
    · cases heq
    · obtain ⟨rfl, rfl⟩ := List.cons.inj heq
      have hf := hfs _ List.mem_cons_self
      have hmore : ∀ g ∈ fs, g.WellFormed := fun g hg => hfs g (List.mem_cons_of_mem _ hg)
      have hnext := pieces_declarators hf.after typed_nil hf.declarator hmore
      simp only [List.nil_append] at hnext
      have hlater := ih hf.after hf.declarator hmore (declarator_cells typed_nil hf.declarator) hnext
      rw [hpieces, laterFields_cons template hd.name hread, List.map_cons, List.cons.injEq]
      exact ⟨fun h => ⟨hdepth, hlater.1 h.2⟩, fun h => ⟨rfl, hlater.2 h.2⟩⟩
    · rw [hpieces]
      exact iff_of_false (laterFields_misread template hd hmisread) hnot

end

namespace FieldStatement

variable {s : FieldStatement}

/-- The fields of the statement but for their names and initializers. -/
def template (s : FieldStatement) : FieldDeclaration := {
  annotations := []
  modifiers := s.modifiers.map fun m => shownText m.word
  type := String.ofList (squeeze (verbatim s.type))
  name := ""
  initializer := none
  text := String.ofList (squeeze (verbatim s.core) ++ [';']) }

theorem fieldDeclarations_cons (h : s.WellFormed) {piece : List Cell} {more : List (List Cell)}
    {initializer : Option String} (hpieces : pieces Cell.view true ',' s.declared = piece :: more)
    (hpiece : declarator piece = (s.type ++ s.first.name, initializer)) :
    fieldDeclarations s.core =
      { s.template with name := shownText s.first.name, initializer } ::
        laterFields { s.template with name := shownText s.first.name, initializer } more := by
  rw [fieldDeclarations, preamble_core h]
  simp only [hpieces, hpiece, typedName?_type h.type h.first.name]
  rfl

/-- The fields are read as they are written if and only if the declarators are cut apart. -/
theorem fieldDeclarations_eq_iff (h : s.WellFormed) :
    fieldDeclarations s.core = s.fields ↔ Separable s.first s.more := by
  have hnil : Blank [] := by simp [Blank]
  have hread := declarator_cells h.type.typed h.first
  rcases pieces_declarators hnil h.type.typed h.first h.more with
    ⟨hmore, hdepth, hpieces⟩ | ⟨f, more, hmore, hdepth, hpieces⟩ | ⟨hnot, piece, more, hpieces, hmisread⟩
  · rw [fieldDeclarations_cons h hpieces hread, hmore]
    refine iff_of_true ?_ hdepth
    rw [fields, declarators, hmore]
    rfl
  · have hf : f.WellFormed := h.more f (by rw [hmore]; exact List.mem_cons_self)
    have hlater := laterFields_eq_iff (s.first.fieldLike s.template) hf.after hf.declarator
      fun g hg => h.more g (by rw [hmore]; exact List.mem_cons_of_mem f hg)
    have hfields : s.fields = s.first.fieldLike s.template ::
        (f.declarator :: more.map Further.declarator).map (Declarator.fieldLike (s.first.fieldLike s.template)) := by
      rw [fields, declarators, hmore]
      rfl
    rw [fieldDeclarations_cons h hpieces hread, hfields, hmore, List.cons.injEq]
    exact ⟨fun heq => ⟨hdepth, hlater.1 heq.2⟩, fun hs => ⟨rfl, hlater.2 hs.2⟩⟩
  · obtain ⟨initializer, hpiece, hne⟩ := declarator_misread h.type.typed h.first hmisread
    refine iff_of_false ?_ hnot
    rw [fieldDeclarations_cons h hpieces hpiece]
    intro heq
    exact hne (congrArg FieldDeclaration.initializer (List.cons.inj heq).1)

theorem segmentMembers_cells (h : s.WellFormed) (owner : String) :
    segmentMembers owner (.statement s.cells) = (fieldDeclarations s.core).map .field := by
  have hempty : s.core.isEmpty = false := by simpa using h.core_ne_nil
  rw [segmentMembers, statementMembers, trimCells_cells h]
  simp only [hempty, Bool.false_eq_true, if_false, isBodiless_assigning h.assigning_core]

end FieldStatement

def fieldsIn (owner : String) (cs : List Cell) : List FieldDeclaration :=
  ((segments cs).flatMap (segmentMembers owner)).filterMap Member.field?

/-- A field statement of any type of a file is read into one field for each declarator, with its name, the type and
the text of its value, in this order and between the fields before and after it, if and only if its declarators are
cut apart at the commas of depth zero. -/
theorem fields_of_statement {path text : String} {file : SourceFile} (hfile : SourceFile.parse path text = .ok file)
    {header body before after : List Cell} {heading : Heading} {s : FieldStatement}
    (htype : TypeIn (segments (Java.cells text.toList)) header body)
    (hheading : heading? (preamble header).rest = some heading)
    (hbody : (splitBody heading.kind body).2 = before ++ (s.cells ++ Cell.code ';' :: after))
    (hcut : Cuts segments before) (hs : s.WellFormed) :
    ∃ t ∈ file.allTypes, typeDeclaration? header body = some t ∧
      (t.fields = fieldsIn t.name before ++ s.fields ++ fieldsIn t.name after ↔ Separable s.first s.more) := by
  have ht := typeDeclaration?_eq header body
  rw [hheading, Option.map_some] at ht
  refine ⟨_, typeIn_allTypes hfile htype ht, ht, ?_⟩
  have hfields : (bodyMembers heading body).filterMap Member.field? =
      fieldsIn heading.name before ++ fieldDeclarations s.core ++ fieldsIn heading.name after := by
    have hfield : ((fieldDeclarations s.core).map Member.field).filterMap Member.field? = fieldDeclarations s.core := by
      rw [List.filterMap_map]
      exact List.filterMap_some
    rw [bodyMembers, hbody, hcut, segments_assigning hs.assigning, List.flatMap_append, List.flatMap_cons,
      FieldStatement.segmentMembers_cells hs, List.filterMap_append, List.filterMap_append, hfield, fieldsIn, fieldsIn,
      List.append_assoc]
  rw [← FieldStatement.fieldDeclarations_eq_iff hs]
  simp only [Heading.declare, hfields, List.append_assoc, List.append_cancel_left_eq, List.append_cancel_right_eq]

namespace Maps

def text : String := "class P \x7b int n; private final Map<String, int[]> a = f(1, 2), b; \x7d"

def shown (s : String) : List Cell := cells s.toList

def statement : FieldStatement := {
  before := shown " "
  modifiers := [⟨shown "private", shown " "⟩, ⟨shown "final", shown " "⟩]
  type := shown "Map<String, int[]> "
  first := ⟨shown "a", some (shown " ", shown " f(1, 2)")⟩
  more := [⟨[], shown " ", ⟨shown "b", none⟩⟩]
  after := [] }

theorem wellFormed : statement.WellFormed where
  before := by decide
  modifiers := by
    intro m hm
    rcases List.mem_cons.1 hm with rfl | hm
    · exact ⟨by decide, by decide, by decide, by decide⟩
    · obtain rfl := List.mem_singleton.1 hm
      exact ⟨by decide, by decide, by decide, by decide⟩
  type := ⟨by decide, by decide, by decide, ⟨_, rfl, by decide⟩, by decide, by decide⟩
  first := wellFormed_assigned ⟨by decide, by decide, by decide⟩ (by decide)
    ⟨by decide, by decide, by decide, ⟨_, rfl, by decide⟩⟩
  more := by
    intro f hf
    obtain rfl := List.mem_singleton.1 hf
    exact ⟨by decide, by decide, ⟨by decide, by decide, by decide⟩, by decide, by simp⟩
  after := by decide

def header : List Cell := shown "class P "

def body : List Cell := shown " int n; private final Map<String, int[]> a = f(1, 2), b; "

def heading : Heading := ⟨[], .classType, "P", shown " "⟩

theorem segments_text : segments (cells text.toList) = [.block header body] := by decide +kernel

theorem body_eq : (splitBody heading.kind body).2 =
    (shown " int n" ++ [Cell.code ';']) ++ (statement.cells ++ Cell.code ';' :: shown " ") := by decide +kernel

theorem fieldsIn_body : fieldsIn "P" (shown " int n" ++ [Cell.code ';']) =
    [⟨[], [], "int", "n", none, "int n;"⟩] ∧ fieldsIn "P" (shown " ") = [] := by decide +kernel

end Maps

theorem fields_of_statement_maps : ∃ t ∈ (SourceFile.ofText Maps.text).allTypes,
    t.fields = ⟨[], [], "int", "n", none, "int n;"⟩ :: Maps.statement.fields ∧
      Maps.statement.fields.map (fun f => (f.type, f.name, f.initializer)) =
        [("Map<String, int[]>", "a", some "f(1, 2)"), ("Map<String, int[]>", "b", none)] := by
  have hfile : SourceFile.parse "P.java" Maps.text = .ok (SourceFile.ofText Maps.text) :=
    SourceFile.parse_eq_ok_iff.2 ⟨by decide +kernel, by decide +kernel, rfl⟩
  have htype : TypeIn (segments (cells Maps.text.toList)) Maps.header Maps.body :=
    .top (by rw [Maps.segments_text]; exact List.mem_cons_self)
  have hheading : heading? (preamble Maps.header).rest = some Maps.heading := by decide +kernel
  have hcut : Cuts segments (Maps.shown " int n" ++ [Cell.code ';']) :=
    cuts_statement (isBalanced_map.1 (by decide)) (by decide) rfl
  obtain ⟨t, ht, hread, hfields⟩ :=
    fields_of_statement hfile htype hheading Maps.body_eq hcut Maps.wellFormed
  have hname : t.name = "P" := by
    rw [typeDeclaration?_eq, hheading] at hread
    rw [← Option.some.inj hread]
    rfl
  refine ⟨t, ht, ?_, by decide +kernel⟩
  rw [hfields.2 (by decide +kernel), hname, Maps.fieldsIn_body.1, Maps.fieldsIn_body.2, List.append_nil]
  rfl

namespace Shifts

def text : String := "class P \x7b int x = 1 << 3, y = 4; \x7d"

def statement : FieldStatement := {
  before := cells " ".toList
  modifiers := []
  type := cells "int ".toList
  first := ⟨cells "x".toList, some (cells " ".toList, cells " 1 << 3".toList)⟩
  more := [⟨[], cells " ".toList, ⟨cells "y".toList, some (cells " ".toList, cells " 4".toList)⟩⟩]
  after := [] }

theorem wellFormed : statement.WellFormed where
  before := by decide
  modifiers := by simp [statement]
  type := ⟨by decide, by decide, by decide, ⟨_, rfl, by decide⟩, by decide, by decide⟩
  first := wellFormed_assigned ⟨by decide, by decide, by decide⟩ (by decide)
    ⟨by decide, by decide, by decide, ⟨_, rfl, by decide⟩⟩
  more := by
    intro f hf
    obtain rfl := List.mem_singleton.1 hf
    exact ⟨by decide, by decide, wellFormed_assigned ⟨by decide, by decide, by decide⟩ (by decide)
      ⟨by decide, by decide, by decide, ⟨_, rfl, by decide⟩⟩⟩
  after := by decide

end Shifts

/-- A shift hides the declarator after it: two fields are declared and one is read. -/
theorem shift_hides_declarator : Shifts.statement.WellFormed ∧
    cells Shifts.text.toList =
      cells "class P \x7b".toList ++ (Shifts.statement.cells ++ Cell.code ';' :: cells " \x7d".toList) ∧
    Shifts.statement.fields.map (fun f => (f.type, f.name, f.initializer)) =
      [("int", "x", some "1 << 3"), ("int", "y", some "4")] ∧
    ∃ t, (SourceFile.parse "P.java" Shifts.text).toOption.map SourceFile.types = some [t] ∧
      t.fields.map (fun f => (f.type, f.name, f.initializer)) = [("int", "x", some "1 << 3, y = 4")] := by
  refine ⟨Shifts.wellFormed, by decide +kernel, by decide +kernel, ?_⟩
  have hfile : SourceFile.parse "P.java" Shifts.text = .ok (SourceFile.ofText Shifts.text) :=
    SourceFile.parse_eq_ok_iff.2 ⟨by decide +kernel, by decide +kernel, rfl⟩
  have hone : (SourceFile.ofText Shifts.text).types.length = 1 := by decide +kernel
  obtain ⟨t, ht⟩ := List.length_eq_one_iff.1 hone
  have hread : (SourceFile.ofText Shifts.text).types.map (fun t => t.fields.map fun f => (f.type, f.name, f.initializer)) =
      [[("int", "x", some "1 << 3, y = 4")]] := by decide +kernel
  rw [ht] at hread
  exact ⟨t, by rw [hfile, ← ht]; rfl, (List.cons.inj hread).1⟩

end WireLayout.Java
