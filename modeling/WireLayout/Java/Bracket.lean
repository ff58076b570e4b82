/-! Brackets in a sequence whose elements show characters. A bracket is matched by counting its own kind
only; balance keeps a stack of all three kinds. `items` cuts a sequence into single elements and
bracket groups. -/

namespace WireLayout.Java

variable {α : Type}

/-- The part up to the partner of a bracket that was opened `depth` times, and what follows the partner.
With equal brackets an element only ever opens. -/
def closing (view : α → Char) (opener closer : Char) : Nat → List α → Option (List α × List α)
  | _, [] => none
  | depth, x :: xs =>
    if view x = opener then (closing view opener closer (depth + 1) xs).map fun p => (x :: p.1, p.2)
    else if view x = closer then
      if depth ≤ 1 then some ([], xs)
      else (closing view opener closer (depth - 1) xs).map fun p => (x :: p.1, p.2)
    else (closing view opener closer depth xs).map fun p => (x :: p.1, p.2)

/-- The position of the partner of the bracket at a position. -/
def findMatching (view : α → Char) (xs : List α) (at_ : Nat) (opener closer : Char) : Option Nat :=
  match xs.drop at_ with
  | [] => none
  | x :: rest =>
    if view x = opener then (closing view opener closer 1 rest).map fun p => at_ + 1 + p.1.length
    else none

def closer? (c : Char) : Option Char :=
  if c = '(' then some ')' else if c = '[' then some ']' else if c = '{' then some '}' else none

def isCloser (c : Char) : Bool := c = ')' || c = ']' || c = '}'

/-- Every closing bracket meets its own opening one, and none is left open. -/
def balancedFrom : List Char → List Char → Bool
  | stack, [] => stack.isEmpty
  | stack, c :: cs =>
    match closer? c with
    | some close => balancedFrom (close :: stack) cs
    | none =>
      if isCloser c then
        match stack with
        | close :: stack => close = c && balancedFrom stack cs
        | [] => false
      else balancedFrom stack cs

def isBalanced (cs : List Char) : Bool := balancedFrom [] cs

/-- An element outside all groups, or a bracket group with its two brackets. -/
inductive Item (α : Type) where
  | single (x : α)
  | group (opener : α) (inside : List α) (closer : α)
  deriving DecidableEq, Repr

def Item.elements : Item α → List α
  | .single x => [x]
  | .group o inside c => o :: inside ++ [c]

/-- Where the cut stands: outside groups, or inside one that has been read in part, the last element
first. -/
inductive ItemState (α : Type) where
  | outside
  | inside (opener : α) (closer : Char) (depth : Nat) (read : List α)

/-- The items of a sequence, where `group?` says which elements begin a group and how it ends. A group
that is not closed ends the sequence. -/
def itemsFrom (view : α → Char) (group? : Char → Option Char) : ItemState α → List α → List (Item α)
  | _, [] => []
  | .outside, x :: xs =>
    match group? (view x) with
    | some close => itemsFrom view group? (.inside x close 1 []) xs
    | none => .single x :: itemsFrom view group? .outside xs
  | .inside o close depth read, x :: xs =>
    if view x = view o then itemsFrom view group? (.inside o close (depth + 1) (x :: read)) xs
    else if view x = close then
      if depth ≤ 1 then .group o read.reverse x :: itemsFrom view group? .outside xs
      else itemsFrom view group? (.inside o close (depth - 1) (x :: read)) xs
    else itemsFrom view group? (.inside o close depth (x :: read)) xs

def items (view : α → Char) (group? : Char → Option Char) (xs : List α) : List (Item α) :=
  itemsFrom view group? .outside xs

theorem length_closing_lt (view : α → Char) (o c : Char) (depth : Nat) (xs : List α) :
    ∀ p ∈ closing view o c depth xs, p.1.length + p.2.length < xs.length := by
  induction xs generalizing depth with
  | nil => simp [closing]
  | cons x xs ih =>
    intro p hp
    unfold closing at hp
    split at hp
    · obtain ⟨q, hq, rfl⟩ := Option.map_eq_some_iff.1 hp
      have := ih _ q hq
      simp; omega
    · split at hp
      · split at hp
        · simp at hp; subst hp; simp
        · obtain ⟨q, hq, rfl⟩ := Option.map_eq_some_iff.1 hp
          have := ih _ q hq
          simp; omega
      · obtain ⟨q, hq, rfl⟩ := Option.map_eq_some_iff.1 hp
        have := ih _ q hq
        simp; omega

theorem length_itemsFrom_le (view : α → Char) (group? : Char → Option Char) (xs : List α)
    (state : ItemState α) :
    ((itemsFrom view group? state xs).flatMap Item.elements).length ≤ xs.length +
      match state with
      | .outside => 0
      | .inside _ _ _ read => read.length + 1 := by
  induction xs generalizing state with
  | nil => cases state <;> simp [itemsFrom]
  | cons x xs ih =>
    cases state with
    | outside =>
      unfold itemsFrom
      split
      · have := ih (.inside x ‹_› 1 [])
        simp at this ⊢; omega
      · have := ih .outside
        simp [Item.elements] at this ⊢; omega
    | inside o close depth read =>
      unfold itemsFrom
      have h1 := ih (.inside o close (depth + 1) (x :: read))
      have h2 := ih .outside
      have h3 := ih (.inside o close (depth - 1) (x :: read))
      have h4 := ih (.inside o close depth (x :: read))
      split
      · simp at h1 ⊢; omega
      · split
        · split
          · simp [Item.elements] at h2 ⊢; omega
          · simp at h3 ⊢; omega
        · simp at h4 ⊢; omega

theorem length_items_le (view : α → Char) (group? : Char → Option Char) (xs : List α) :
    ((items view group? xs).flatMap Item.elements).length ≤ xs.length :=
  length_itemsFrom_le view group? xs .outside

theorem length_inside_lt {o c : α} {body : List α} {its : List (Item α)}
    (h : .group o body c ∈ its) : body.length < (its.flatMap Item.elements).length := by
  induction its with
  | nil => simp at h
  | cons it rest ih =>
    rcases List.mem_cons.1 h with rfl | h
    · simp only [List.flatMap_cons, Item.elements, List.cons_append, List.length_append, List.length_cons]
      omega
    · have := ih h
      simp at this ⊢; omega

end WireLayout.Java
