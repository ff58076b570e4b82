import WireLayout.Java.Pieces
import WireLayout.Java.Segment
import WireLayout.Proofs.Java.Balance
import WireLayout.Proofs.Text.Search

/-! Where a sequence is cut into pieces and into segments. Balanced parts without the cutting characters outside
their brackets stay in one piece; a sign of assignment and the braces after it are found past such parts; and a
sequence that ends where a segment ends is read without regard to what follows. -/

namespace WireLayout.Java

open WireLayout.Text

variable {α β : Type} {view : α → Char} {xs ys rest : List α}

/-- What follows is read as if it stood alone. -/
def Cuts (read : List α → List β) (xs : List α) : Prop := ∀ ys, read (xs ++ ys) = read xs ++ read ys

theorem cuts_nil {read : List α → List β} (h : read [] = []) : Cuts read [] := by
  intro ys
  rw [h]
  rfl

def Item.front (view : α → Char) : Item α → Char
  | .single x => view x
  | .group o _ _ => view o

/-- None of the characters stands outside groups or opens a group that lies in no other. -/
def Free (view : α → Char) (cs : List Char) (xs : List α) : Prop :=
  ∀ it ∈ items view closer? xs, it.front view ∉ cs

instance (cs : List Char) : Decidable (Free view cs xs) :=
  inferInstanceAs (Decidable (∀ it ∈ items view closer? xs, it.front view ∉ cs))

theorem free_iff {cs : List Char} : Free view cs xs ↔ ∀ it ∈ items view closer? xs, it.front view ∉ cs := Iff.rfl

@[simp] theorem Item.front_single (x : α) : (Item.single x).front view = view x := rfl

@[simp] theorem Item.front_group (o : α) (inside : List α) (c : α) : (Item.group o inside c).front view = view o := rfl

theorem free_append {cs : List Char} (hx : Balanced view xs) :
    Free view cs (xs ++ ys) ↔ Free view cs xs ∧ Free view cs ys := by
  simp only [free_iff, items_append hx, List.mem_append, or_imp, forall_and]

theorem free_cons {cs : List Char} {x : α} (hx : closer? (view x) = none) :
    Free view cs (x :: xs) ↔ view x ∉ cs ∧ Free view cs xs := by
  simp only [free_iff, items_plain hx, List.mem_cons, forall_eq_or_imp, Item.front_single]

theorem free_group {cs : List Char} {o c : α} (hx : Balanced view xs) (hpair : closer? (view o) = some (view c)) :
    Free view cs (o :: (xs ++ c :: rest)) ↔ view o ∉ cs ∧ Free view cs rest := by
  simp only [free_iff, items_group hx hpair, List.mem_cons, forall_eq_or_imp, Item.front_group]

theorem Free.mono {cs ds : List Char} (h : Free view cs xs) (hsub : ds ⊆ cs) : Free view ds xs :=
  fun it hit hmem => h it hit (hsub hmem)

/-- In a balanced sequence without certain characters none of them begins an item. -/
theorem free_of_notMem {cs : List Char} (h : Balanced view xs) (hxs : ∀ x ∈ xs, view x ∉ cs) : Free view cs xs := by
  induction h with
  | nil => exact fun it hit => absurd hit List.not_mem_nil
  | plain hopen _ _ ih =>
    exact (free_cons hopen).2 ⟨hxs _ List.mem_cons_self, ih fun y hy => hxs y (List.mem_cons_of_mem _ hy)⟩
  | group hpair hinside _ _ ih =>
    exact (free_group hinside hpair).2 ⟨hxs _ List.mem_cons_self, ih fun y hy => hxs y (by simp [hy])⟩

/-! Pieces. -/

section

variable {generics : Bool} {sep : Char} {depth depth' : Int} {read : List α}

/-- The depth of nesting after a part of a list. There is none if a separator on the way stands at depth zero,
where it ends a piece. -/
def walk (view : α → Char) (generics : Bool) (sep : Char) : Int → List α → Option Int
  | depth, [] => some depth
  | depth, x :: xs =>
    match depthChange generics (view x) with
    | some d => walk view generics sep (depth + d) xs
    | none => if view x = sep && depth = 0 then none else walk view generics sep depth xs

theorem walk_cons (x : α) : walk view generics sep depth (x :: xs) =
    match depthChange generics (view x) with
    | some d => walk view generics sep (depth + d) xs
    | none => if view x = sep && depth = 0 then none else walk view generics sep depth xs := rfl

theorem walk_append : walk view generics sep depth (xs ++ ys) =
    (walk view generics sep depth xs).bind fun d => walk view generics sep d ys := by
  induction xs generalizing depth with
  | nil => rfl
  | cons x xs ih =>
    rw [List.cons_append, walk_cons, walk_cons]
    split
    · exact ih
    · split
      · rfl
      · exact ih

theorem piecesFrom_walk (h : walk view generics sep depth xs = some depth') :
    piecesFrom view generics sep depth read (xs ++ rest) =
      piecesFrom view generics sep depth' (xs.reverse ++ read) rest := by
  induction xs generalizing depth read with
  | nil =>
    obtain rfl := Option.some.inj h
    rfl
  | cons x xs ih =>
    rw [walk_cons] at h
    rw [List.cons_append, piecesFrom]
    cases hx : depthChange generics (view x) with
    | some d =>
      rw [hx] at h
      simpa using ih h
    | none =>
      rw [hx] at h
      simp only at h ⊢
      split at h
      · cases h
      · rename_i hsep
        rw [if_neg hsep]
        simpa using ih h

/-- A walk ends early at the first separator of depth zero. -/
theorem exists_separator (h : walk view generics sep depth xs = none) :
    ∃ before x after, xs = before ++ x :: after ∧ view x = sep ∧ depthChange generics (view x) = none ∧
      walk view generics sep depth before = some 0 := by
  induction xs generalizing depth with
  | nil => cases h
  | cons y xs ih =>
    rw [walk_cons] at h
    split at h
    · rename_i d hd
      obtain ⟨before, x, after, rfl, hx, hchange, hwalk⟩ := ih h
      exact ⟨y :: before, x, after, rfl, hx, hchange, by rw [walk_cons, hd]; exact hwalk⟩
    · rename_i hd
      split at h
      · rename_i hsep
        rw [Bool.and_eq_true, decide_eq_true_eq, decide_eq_true_eq] at hsep
        exact ⟨[], y, xs, rfl, hsep.1, hd, by rw [hsep.2]; rfl⟩
      · rename_i hsep
        obtain ⟨before, x, after, rfl, hx, hchange, hwalk⟩ := ih h
        exact ⟨y :: before, x, after, rfl, hx, hchange, by rw [walk_cons, hd]; simp only [if_neg hsep, hwalk]⟩

theorem piecesFrom_separator {x : α} (hx : view x = sep) (hchange : depthChange generics sep = none) :
    piecesFrom view generics sep 0 read (x :: xs) =
      nonEmpty (trimBlank view read.reverse) ++ pieces view generics sep xs := by
  rw [piecesFrom, hx, hchange]
  simp [pieces]

/-- What has been read so far goes into the first piece only, and all of it up to a separator. -/
theorem exists_firstPiece (view : α → Char) (generics : Bool) (sep : Char) (depth : Int) (xs : List α) :
    ∃ first more, first <+: xs ∧ (xs.head?.map view ≠ some sep → first.head? = xs.head?) ∧
      ∀ read, piecesFrom view generics sep depth read xs = nonEmpty (trimBlank view (read.reverse ++ first)) ++ more := by
  induction xs generalizing depth with
  | nil => exact ⟨[], [], List.prefix_rfl, fun _ => rfl, fun read => by simp [piecesFrom]⟩
  | cons x xs ih =>
    cases hx : depthChange generics (view x) with
    | some d =>
      obtain ⟨first, more, hprefix, -, h⟩ := ih (depth + d)
      exact ⟨x :: first, more, (List.prefix_cons_inj x).2 hprefix, fun _ => rfl, fun read => by
        rw [piecesFrom, hx]
        simp only [h, List.reverse_cons, List.append_assoc, List.singleton_append]⟩
    | none =>
      by_cases hsep : (view x = sep && depth = 0) = true
      · have hend : view x = sep := by
          rw [Bool.and_eq_true, decide_eq_true_eq] at hsep
          exact hsep.1
        exact ⟨[], piecesFrom view generics sep 0 [] xs, List.nil_prefix, fun hne => absurd (by simp [hend]) hne,
          fun read => by
            rw [piecesFrom, hx]
            simp only [if_pos hsep, List.append_nil]⟩
      · obtain ⟨first, more, hprefix, -, h⟩ := ih depth
        exact ⟨x :: first, more, (List.prefix_cons_inj x).2 hprefix, fun _ => rfl, fun read => by
          rw [piecesFrom, hx]
          simp only [if_neg hsep, h, List.reverse_cons, List.append_assoc, List.singleton_append]⟩

theorem depthChange_opener {o c : Char} (h : closer? o = some c) : depthChange generics o = some 1 := by
  rcases closer?_eq_some h with ⟨rfl, -⟩ | ⟨rfl, -⟩ | ⟨rfl, -⟩ <;> rfl

theorem depthChange_of_isCloser {c : Char} (h : isCloser c = true) : depthChange generics c = some (-1) := by
  simp only [isCloser, Bool.or_eq_true, decide_eq_true_eq] at h
  rcases h with (rfl | rfl) | rfl <;> rfl

theorem depthChange_closer {o c : Char} (h : closer? o = some c) : depthChange generics c = some (-1) :=
  depthChange_of_isCloser (isCloser_closer h)

theorem depthChange_plain {x : Char} (hopen : closer? x = none) (hclose : isCloser x = false) :
    depthChange false x = none := by
  simp only [closer?, isCloser] at hopen hclose
  simp only [depthChange]
  grind

theorem walk_inside (h : Balanced view xs) (hdepth : 1 ≤ depth) : walk view false sep depth xs = some depth := by
  induction h generalizing depth with
  | nil => rfl
  | plain hopen hclose _ ih =>
    have hzero : ¬ depth = 0 := by omega
    rw [walk_cons, depthChange_plain hopen hclose]
    simp only [hzero, decide_false, Bool.and_false, Bool.false_eq_true, if_false]
    exact ih hdepth
  | group hpair _ _ ihinside ihrest =>
    rw [walk_cons, depthChange_opener hpair]
    simp only
    rw [walk_append, ihinside (by omega), Option.bind_some, walk_cons, depthChange_closer hpair]
    simp only [Int.add_neg_cancel_right]
    exact ihrest hdepth

/-- A balanced part without separators outside its brackets leaves the depth as it is. -/
theorem walk_balanced (h : Balanced view xs) (hfree : Free view [sep] xs) : walk view false sep 0 xs = some 0 := by
  induction h with
  | nil => rfl
  | plain hopen hclose _ ih =>
    obtain ⟨hx, hxs⟩ := (free_cons hopen).1 hfree
    rw [List.mem_singleton] at hx
    rw [walk_cons, depthChange_plain hopen hclose]
    simp only [hx, decide_false, Bool.false_and, Bool.false_eq_true, if_false]
    exact ih hxs
  | group hpair hinside _ _ ih =>
    rw [walk_cons, depthChange_opener hpair]
    simp only
    rw [walk_append, walk_inside hinside (by omega), Option.bind_some, walk_cons, depthChange_closer hpair]
    exact ih ((free_group hinside hpair).1 hfree).2

end

/-! Assignments. -/

section

variable {cs ds : List Cell} {depth : Int} {before : Option Char}

/-- After this character an equals sign belongs to a comparison. -/
def compares (before : Option Char) : Bool :=
  before = some '=' || before = some '!' || before = some '<' || before = some '>'

/-- The last character of a text that goes on after another character. -/
def lastView (before : Option Char) (cs : List Cell) : Option Char := (cs.getLast?.map Cell.view).or before

@[simp] theorem lastView_nil : lastView before [] = before := rfl

@[simp] theorem lastView_cons (c : Cell) : lastView before (c :: cs) = lastView (some c.view) cs := by
  cases cs <;> simp [lastView, List.getLast?_cons]

theorem lastView_append : lastView before (cs ++ ds) = lastView (lastView before cs) ds := by
  induction cs generalizing before with
  | nil => rfl
  | cons c cs ih => rw [List.cons_append, lastView_cons, lastView_cons, ih]

/-- Before the rest, the last character matters only as one that makes a comparison. -/
theorem assignmentFrom_congr {before' : Option Char} (h : compares before = compares before') :
    assignmentFrom depth before cs = assignmentFrom depth before' cs := by
  cases cs with
  | nil => rfl
  | cons c cs =>
    simp only [compares] at h
    rw [assignmentFrom, assignmentFrom, h]

theorem assignmentFrom_inside (h : Balanced Cell.view cs) (hdepth : 1 ≤ depth) :
    assignmentFrom depth before (cs ++ ds) =
      (assignmentFrom depth (lastView before cs) ds).map fun p => (cs ++ p.1, p.2) := by
  induction h generalizing before depth ds with
  | nil => simp
  | plain hopen hclose _ ih =>
    have hzero : ¬ depth = 0 := by omega
    rw [List.cons_append, assignmentFrom, depthChange_plain hopen hclose, lastView_cons]
    simp only [hzero, decide_false, Bool.and_false, Bool.false_and, Bool.false_eq_true, if_false, Option.getD_none,
      Int.add_zero, ih hdepth, Option.map_map]
    rfl
  | @group o c inside rest hpair _ _ ihinside ihrest =>
    have hzero : ¬ depth = 0 := by omega
    have hone : ¬ depth + 1 = 0 := by omega
    rw [List.cons_append, List.append_assoc, List.cons_append, assignmentFrom, depthChange_opener hpair,
      lastView_cons, lastView_append, lastView_cons]
    simp only [hzero, decide_false, Bool.and_false, Bool.false_and, Bool.false_eq_true, if_false, Option.getD_some]
    rw [ihinside (by omega), assignmentFrom, depthChange_closer hpair]
    simp only [hone, decide_false, Bool.and_false, Bool.false_and, Bool.false_eq_true, if_false, Option.getD_some,
      Int.add_neg_cancel_right]
    rw [ihrest hdepth]
    simp [Option.map_map, Function.comp_def]

/-- The search for an assignment passes over a balanced part without equals signs outside its brackets. -/
theorem assignmentFrom_append (h : Balanced Cell.view cs) (hfree : Free Cell.view ['='] cs) :
    assignmentFrom 0 before (cs ++ ds) =
      (assignmentFrom 0 (lastView before cs) ds).map fun p => (cs ++ p.1, p.2) := by
  induction h generalizing before ds with
  | nil => simp
  | plain hopen hclose _ ih =>
    obtain ⟨hx, hxs⟩ := (free_cons hopen).1 hfree
    rw [List.mem_singleton] at hx
    rw [List.cons_append, assignmentFrom, depthChange_plain hopen hclose, lastView_cons]
    simp only [hx, decide_false, Bool.false_and, Bool.false_eq_true, if_false, Option.getD_none, Int.add_zero,
      ih hxs, Option.map_map]
    rfl
  | @group o c inside rest hpair hinside _ _ ih =>
    have hopener : ¬ o.view = '=' := fun heq => by rw [heq] at hpair; cases hpair
    have hcloser : ¬ c.view = '=' := fun heq => by
      have := isCloser_closer hpair
      rw [heq] at this
      cases this
    rw [List.cons_append, List.append_assoc, List.cons_append, assignmentFrom, depthChange_opener hpair,
      lastView_cons, lastView_append, lastView_cons]
    simp only [hopener, decide_false, Bool.false_and, Bool.false_eq_true, if_false, Option.getD_some]
    rw [assignmentFrom_inside hinside (by omega), assignmentFrom, depthChange_closer hpair]
    simp only [hcloser, decide_false, Bool.false_and, Bool.false_eq_true, if_false, Option.getD_some]
    rw [show (0 : Int) + 1 + -1 = 0 by rfl, ih ((free_group hinside hpair).1 hfree).2]
    simp [Option.map_map, Function.comp_def]

/-- A part that can stand before a text without hiding or making an assignment in it. -/
structure Lead (cs : List Cell) : Prop where
  balanced : Balanced Cell.view cs
  free : Free Cell.view ['='] cs
  last : compares (lastView none cs) = false

theorem splitAssignment_lead (h : Lead cs) :
    splitAssignment (cs ++ ds) = (splitAssignment ds).map fun p => (cs ++ p.1, p.2) := by
  have hlast : compares (lastView none cs) = compares none := h.last
  rw [splitAssignment, assignmentFrom_append h.balanced h.free, assignmentFrom_congr hlast, splitAssignment]

theorem Lead.append (hc : Lead cs) (hd : Lead ds) : Lead (cs ++ ds) := by
  refine ⟨hc.balanced.append hd.balanced, (free_append hc.balanced).2 ⟨hc.free, hd.free⟩, ?_⟩
  rw [lastView_append]
  cases hlast : ds.getLast? with
  | none => simpa [lastView, hlast] using hc.last
  | some d => simpa [lastView, hlast] using hd.last

theorem splitAssignment_eq_none (h : Balanced Cell.view cs) (hfree : Free Cell.view ['='] cs) :
    splitAssignment cs = none := by
  have happend : assignmentFrom 0 none (cs ++ []) = _ := assignmentFrom_append h hfree
  rw [List.append_nil] at happend
  rw [splitAssignment, happend]
  rfl

/-- An equals sign after such a part assigns if no other one follows. -/
theorem splitAssignment_sign (h : Lead cs) {sign : Cell} (hsign : sign.view = '=')
    (hnext : ds.head?.map Cell.view ≠ some '=') : splitAssignment (cs ++ sign :: ds) = some (cs, ds) := by
  rw [splitAssignment_lead h, splitAssignment, assignmentFrom]
  simp [hsign, hnext]

end

/-! Text without marks. -/

section

variable {cs ds : List Cell} {c : Cell}

/-- A cell that shows a character. -/
def Cell.code (c : Char) : Cell := ⟨c, true⟩

@[simp] theorem Cell.view_code (c : Char) : (Cell.code c).view = c := rfl

/-- The characters by which brackets, lists, statements, assignments and annotations are told. -/
def marks : List Char := ['(', ')', '[', ']', '{', '}', '<', '>', ',', ';', '=', '!', '@']

def Unmarked (cs : List Cell) : Prop := ∀ c ∈ cs, c.view ∉ marks

theorem unmarked_append : Unmarked (cs ++ ds) ↔ Unmarked cs ∧ Unmarked ds := by
  simp only [Unmarked, List.mem_append, or_imp, forall_and]

theorem notMem_marks_of_isIdent {x : Char} (h : isIdent x = true) : x ∉ marks := by
  intro hx
  have hall : marks.all (fun m => !isIdent m) = true := by decide
  have hnot := List.all_eq_true.1 hall x hx
  rw [h] at hnot
  cases hnot

theorem notMem_marks_of_isAsciiSpace {x : Char} (h : isAsciiSpace x = true) : x ∉ marks := by
  intro hx
  have hall : marks.all (fun m => !isAsciiSpace m) = true := by decide
  have hnot := List.all_eq_true.1 hall x hx
  rw [h] at hnot
  cases hnot

theorem unmarked_of_isIdent (h : ∀ c ∈ cs, c.isIdent = true) : Unmarked cs :=
  fun c hc => notMem_marks_of_isIdent (h c hc)

theorem closer?_of_notMem_marks {x : Char} (h : x ∉ marks) : closer? x = none ∧ isCloser x = false := by
  simp only [marks, List.mem_cons, List.not_mem_nil, or_false, not_or] at h
  simp [closer?, isCloser, h]

theorem depthChange_of_notMem_marks {generics : Bool} {x : Char} (h : x ∉ marks) : depthChange generics x = none := by
  simp only [marks, List.mem_cons, List.not_mem_nil, or_false, not_or] at h
  simp [depthChange, h]

theorem walk_of_notMem_marks {generics : Bool} {sep : Char} (h : ∀ x ∈ xs, view x ∉ marks) (hsep : sep ∈ marks)
    (depth : Int) : walk view generics sep depth xs = some depth := by
  induction xs with
  | nil => rfl
  | cons x xs ih =>
    have hx := h x List.mem_cons_self
    have hne : view x ≠ sep := fun heq => hx (heq ▸ hsep)
    rw [walk_cons, depthChange_of_notMem_marks hx]
    simp only [hne, decide_false, Bool.false_and, Bool.false_eq_true, if_false]
    exact ih fun y hy => h y (List.mem_cons_of_mem x hy)

theorem compares_of_notMem_marks {x : Char} (h : x ∉ marks) : compares (some x) = false := by
  simp only [marks, List.mem_cons, List.not_mem_nil, or_false, not_or] at h
  simp [compares, h]

namespace Unmarked

theorem balanced (h : Unmarked cs) : Balanced Cell.view cs :=
  .of_forall fun c hc => closer?_of_notMem_marks (h c hc)

theorem free (h : Unmarked cs) {xs : List Char} (hxs : xs ⊆ marks) : Free Cell.view xs cs :=
  free_of_notMem h.balanced fun c hc hmem => h c hc (hxs hmem)

theorem walk (h : Unmarked cs) {generics : Bool} {sep : Char} (hsep : sep ∈ marks) (depth : Int) :
    walk Cell.view generics sep depth cs = some depth := walk_of_notMem_marks h hsep depth

end Unmarked

theorem compares_lastView_append {before : Option Char} (h : Unmarked ds) (hne : ds ≠ []) :
    compares (lastView before (cs ++ ds)) = false := by
  rw [lastView_append, lastView, List.getLast?_eq_some_getLast hne]
  exact compares_of_notMem_marks (h _ (List.getLast_mem hne))

end

/-! Lists between commas. -/

section

variable {generics : Bool} {comma : α} {gap tail part : List α}

/-- A part of a list: its commas lie within brackets, and it shows something. -/
structure IsPart (view : α → Char) (generics : Bool) (part : List α) : Prop where
  walk : walk view generics ',' 0 part = some 0
  shows : trimBlank view part ≠ []

/-- What may stand behind the last part: blanks, perhaps behind one more comma. -/
def Trailing (view : α → Char) (comma : α) (tail : List α) : Prop :=
  (∀ x ∈ tail, isAsciiSpace (view x) = true) ∨
    ∃ gap, (∀ x ∈ gap, isAsciiSpace (view x) = true) ∧ tail = comma :: gap

theorem walk_blank (h : ∀ x ∈ gap, isAsciiSpace (view x) = true) (depth : Int) :
    walk view generics ',' depth gap = some depth :=
  walk_of_notMem_marks (fun x hx => notMem_marks_of_isAsciiSpace (h x hx)) (by decide) depth

theorem IsPart.pad {l r : List α} (h : IsPart view generics part) (hl : ∀ x ∈ l, isAsciiSpace (view x) = true)
    (hr : ∀ x ∈ r, isAsciiSpace (view x) = true) :
    IsPart view generics (l ++ (part ++ r)) ∧ trimBlank view (l ++ (part ++ r)) = trimBlank view part := by
  have htrim : trimBlank view (l ++ (part ++ r)) = trimBlank view part := by
    rw [trimBlank, trim_append_left hl, trim_append_right hr, trimBlank]
  refine ⟨⟨?_, htrim ▸ h.shows⟩, htrim⟩
  rw [walk_append, walk_blank hl, Option.bind_some, walk_append, h.walk, Option.bind_some, walk_blank hr]

theorem pieces_blank (h : ∀ x ∈ gap, isAsciiSpace (view x) = true) : pieces view generics ',' gap = [] := by
  have hread : pieces view generics ',' (gap ++ []) = _ := piecesFrom_walk (walk_blank h 0)
  have hnil : trimBlank view gap = [] := by
    have htrim : trim (fun x => isAsciiSpace (view x)) (gap ++ []) = _ := trim_append_left h
    rw [List.append_nil] at htrim
    exact htrim
  rw [List.append_nil] at hread
  rw [hread, piecesFrom, List.append_nil, List.reverse_reverse, hnil]
  rfl

theorem pieces_part_comma (h : IsPart view generics part) (hcomma : view comma = ',') :
    pieces view generics ',' (part ++ comma :: rest) = trimBlank view part :: pieces view generics ',' rest := by
  have hchange : depthChange generics ',' = none := by cases generics <;> rfl
  rw [pieces, piecesFrom_walk h.walk, piecesFrom_separator hcomma hchange, List.append_nil, List.reverse_reverse,
    nonEmpty, if_neg (by simpa using h.shows)]
  rfl

theorem pieces_part (h : IsPart view generics part) : pieces view generics ',' part = [trimBlank view part] := by
  have hread : pieces view generics ',' (part ++ []) = _ := piecesFrom_walk h.walk
  rw [List.append_nil] at hread
  rw [hread, piecesFrom, List.append_nil, List.reverse_reverse, nonEmpty, if_neg (by simpa using h.shows)]

/-- A list is cut into its parts, by induction on them. -/
theorem pieces_commas (hcomma : view comma = ',') {parts : List (List α)}
    (h : ∀ p ∈ parts, IsPart view generics p) (htail : Trailing view comma tail) :
    pieces view generics ',' ([comma].intercalate parts ++ tail) = parts.map (trimBlank view) := by
  induction parts with
  | nil =>
    rcases htail with hblank | ⟨gap, hgap, rfl⟩
    · exact pieces_blank hblank
    · have hchange : depthChange generics ',' = none := by cases generics <;> rfl
      have hread : pieces view generics ',' (comma :: gap) = _ := piecesFrom_separator hcomma hchange
      rw [List.intercalate_nil, List.nil_append, hread, pieces_blank hgap]
      rfl
  | cons p parts ih =>
    have hp := h p List.mem_cons_self
    have hparts := ih fun q hq => h q (List.mem_cons_of_mem p hq)
    cases parts with
    | nil =>
      rw [List.intercalate_singleton]
      rcases htail with hblank | ⟨gap, hgap, rfl⟩
      · obtain ⟨hpadded, htrim⟩ := hp.pad (l := []) (by simp) hblank
        exact (pieces_part hpadded).trans (congrArg (fun q => [q]) htrim)
      · rw [pieces_part_comma hp hcomma, pieces_blank hgap]
        rfl
    | cons q parts =>
      rw [List.intercalate_cons_cons, List.append_assoc, List.append_assoc, List.singleton_append,
        pieces_part_comma hp hcomma, hparts]
      rfl

theorem balanced_commas (hcomma : view comma = ',') {parts : List (List α)}
    (h : ∀ p ∈ parts, Balanced view p) {cs : List Char} (hfree : ∀ p ∈ parts, Free view cs p) (hcs : ',' ∉ cs) :
    Balanced view ([comma].intercalate parts) ∧ Free view cs ([comma].intercalate parts) := by
  induction parts with
  | nil => exact ⟨.nil, fun it hit => absurd hit List.not_mem_nil⟩
  | cons p parts ih =>
    have hp := h p List.mem_cons_self
    have hf := hfree p List.mem_cons_self
    obtain ⟨hbalanced, hrest⟩ := ih (fun q hq => h q (List.mem_cons_of_mem p hq))
      fun q hq => hfree q (List.mem_cons_of_mem p hq)
    have hopen : closer? (view comma) = none := by rw [hcomma]; rfl
    have hclose : isCloser (view comma) = false := by rw [hcomma]; rfl
    cases parts with
    | nil =>
      rw [List.intercalate_singleton]
      exact ⟨hp, hf⟩
    | cons q parts =>
      rw [List.intercalate_cons_cons, List.append_assoc, List.singleton_append]
      exact ⟨hp.append (.plain hopen hclose hbalanced),
        (free_append hp).2 ⟨hf, (free_cons hopen).2 ⟨by rwa [hcomma], hrest⟩⟩⟩

end

/-! Segments. -/

section

variable {cs ds header body value : List Cell} {its more : List (Item Cell)} {read : List Cell}

/-- Items without semicolons, and with braces only after an assignment, end no segment. -/
theorem segmentsFrom_append (hsingle : ∀ c, Item.single c ∈ its → c.view ≠ ';')
    (hbrace : ∀ front o inside c back, its = front ++ .group o inside c :: back → o.view = '{' →
      (splitAssignment (read.reverse ++ front.flatMap Item.elements)).isSome = true) :
    segmentsFrom read (its ++ more) = segmentsFrom ((its.flatMap Item.elements).reverse ++ read) more := by
  induction its generalizing read with
  | nil => rfl
  | cons it its ih =>
    cases it with
    | single c =>
      rw [List.cons_append, segmentsFrom, if_neg (hsingle c List.mem_cons_self), ih]
      · simp [Item.elements]
      · exact fun c hc => hsingle c (List.mem_cons_of_mem _ hc)
      · intro front o inside c' back heq ho
        simpa [Item.elements] using hbrace (.single c :: front) o inside c' back (by rw [heq]; rfl) ho
    | group o inside c =>
      have hopen : ¬ ((o.view = '{' && (splitAssignment read.reverse).isNone) = true) := by
        intro h
        rw [Bool.and_eq_true, decide_eq_true_eq] at h
        have := hbrace [] o inside c its rfl h.1
        simp only [List.flatMap_nil, List.append_nil] at this
        rw [← Option.not_isSome, this] at h
        exact absurd h.2 (by decide)
      rw [List.cons_append, segmentsFrom, if_neg hopen, ih]
      · simp [Item.elements]
      · exact fun c hc => hsingle c (List.mem_cons_of_mem _ hc)
      · intro front o' inside' c' back heq ho
        simpa [Item.elements] using hbrace (.group o inside c :: front) o' inside' c' back (by rw [heq]; rfl) ho

theorem single_ne_semicolon (h : Free Cell.view [';'] cs) :
    ∀ c, Item.single c ∈ items Cell.view closer? cs → c.view ≠ ';' := by
  intro c hc heq
  exact h _ hc (by rw [Item.front, heq]; exact List.mem_singleton_self _)

/-- A part without semicolons and braces outside its brackets is read into the segment that follows. -/
theorem segmentsFrom_unbroken (h : Balanced Cell.view cs) (hfree : Free Cell.view [';', '{'] cs) :
    segmentsFrom read (items Cell.view closer? (cs ++ ds)) =
      segmentsFrom (cs.reverse ++ read) (items Cell.view closer? ds) := by
  rw [items_append h, segmentsFrom_append (single_ne_semicolon (hfree.mono (by simp))), elements_items h]
  intro front o inside c back heq ho
  have hmem : Item.group o inside c ∈ items Cell.view closer? cs := by rw [heq]; simp
  exact absurd ho fun ho => hfree _ hmem (by rw [Item.front, ho]; simp)

/-- The same for the value of an assignment, in which braces may stand. -/
theorem segmentsFrom_value (hlead : Lead cs) {sign : Cell} (hsign : sign.view = '=')
    (hbalanced : Balanced Cell.view value) (hfree : Free Cell.view [';'] value)
    (hnext : value.head?.map Cell.view ≠ some '=') :
    segmentsFrom (cs ++ [sign]).reverse (items Cell.view closer? (value ++ ds)) =
      segmentsFrom (cs ++ sign :: value).reverse (items Cell.view closer? ds) := by
  rw [items_append hbalanced, segmentsFrom_append (single_ne_semicolon hfree), elements_items hbalanced]
  · simp
  · intro front o inside c back heq _
    have hread : (cs ++ [sign]).reverse.reverse ++ front.flatMap Item.elements =
        cs ++ sign :: front.flatMap Item.elements := by simp
    have hhead : (front.flatMap Item.elements).head?.map Cell.view ≠ some '=' := by
      have hvalue := elements_items hbalanced
      rw [heq, List.flatMap_append] at hvalue
      cases hf : front.flatMap Item.elements with
      | nil => simp
      | cons x rest =>
        rw [hf, List.cons_append] at hvalue
        rw [← hvalue] at hnext
        simpa using hnext
    rw [hread, splitAssignment_sign hlead hsign hhead]
    rfl

theorem segments_statement (h : Balanced Cell.view cs) (hfree : Free Cell.view [';', '{'] cs) {semicolon : Cell}
    (hsemicolon : semicolon.view = ';') :
    segments (cs ++ semicolon :: ds) = .statement cs :: segments ds := by
  rw [segments, segmentsFrom_unbroken h hfree, items_plain (by rw [hsemicolon]; rfl), segmentsFrom, if_pos hsemicolon]
  simp [segments]

theorem cuts_statement (h : Balanced Cell.view cs) (hfree : Free Cell.view [';', '{'] cs) {semicolon : Cell}
    (hsemicolon : semicolon.view = ';') : Cuts segments (cs ++ [semicolon]) := by
  intro ds
  rw [List.append_assoc, List.singleton_append, segments_statement h hfree hsemicolon,
    segments_statement h hfree hsemicolon]
  rfl

theorem segments_block (h : Balanced Cell.view header) (hfree : Free Cell.view [';', '{'] header)
    (hassignment : splitAssignment header = none) (hbody : Balanced Cell.view body) {o c : Cell}
    (ho : o.view = '{') (hc : c.view = '}') :
    segments (header ++ o :: (body ++ c :: ds)) = .block header body :: segments ds := by
  have hpair : closer? o.view = some c.view := by rw [ho, hc]; rfl
  rw [segments, segmentsFrom_unbroken h hfree, items_group hbody hpair, segmentsFrom]
  simp [ho, hassignment, segments]

def Segment.prepend (cs : List Cell) : Segment → Segment
  | .statement ds => .statement (cs ++ ds)
  | .block header body => .block (cs ++ header) body

/-- What has been read before goes to the front of the next segment. -/
theorem segmentsFrom_prepend (h : ∀ ds, (splitAssignment (cs ++ ds)).isNone = (splitAssignment ds).isNone) :
    segmentsFrom (read ++ cs.reverse) its = (segmentsFrom read its).modifyHead (Segment.prepend cs) := by
  induction its generalizing read with
  | nil => rfl
  | cons it its ih =>
    cases it with
    | single c =>
      rw [segmentsFrom, segmentsFrom]
      split
      · simp [Segment.prepend]
      · rw [← ih, List.cons_append]
    | group o inside c =>
      have hread : (read ++ cs.reverse).reverse = cs ++ read.reverse := by simp
      rw [segmentsFrom, segmentsFrom, hread, h]
      split
      · simp [Segment.prepend]
      · rw [← ih, List.cons_append, List.append_assoc, List.cons_append]

theorem segments_prepend (h : Lead cs) (hfree : Free Cell.view [';', '{'] cs) :
    segments (cs ++ ds) = (segments ds).modifyHead (Segment.prepend cs) := by
  rw [segments, segmentsFrom_unbroken h.balanced hfree, List.append_nil, ← List.nil_append cs.reverse,
    segmentsFrom_prepend, segments]
  intro ds
  rw [splitAssignment_lead h, Option.isNone_map]

end

end WireLayout.Java
