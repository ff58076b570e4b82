import WireLayout.Java.Member
import WireLayout.Text.Search

/-! The header of a type: its kind and name, the components of a record, the supertypes; and the constants
at the head of an enum body. -/

namespace WireLayout.Java

open WireLayout.Text

def typeKeywords : List (List Char × TypeKind) :=
  [("class".toList, .classType), ("interface".toList, .interfaceType), ("enum".toList, .enumType),
    ("record".toList, .recordType)]

def typeKeyword? (cs : List Char) : Option (TypeKind × List Char × List Char) :=
  typeKeywords.findSome? fun (word, kind) => do
    let rest ← spaces? (← literal? word cs)
    let (name, rest) ← name? rest
    some (kind, name, rest)

/-- What precedes a keyword must not be part of a longer word. -/
def mayPrecedeKeyword (before : Option Char) : Bool :=
  !before.any fun c => isWordOrDollar c || c = '@'

structure Heading where
  before : List Cell
  kind : TypeKind
  name : String
  after : List Cell
  deriving DecidableEq, Repr

def headingFrom (before : Option Char) : List Cell → Option Heading
  | [] => none
  | c :: cs =>
    let here := if mayPrecedeKeyword before then typeKeyword? (views (c :: cs)) else none
    match here with
    | some (kind, name, rest) =>
      some ⟨[], kind, String.ofList name, (c :: cs).drop (cs.length + 1 - rest.length)⟩
    | none => (headingFrom (some c.view) cs).map fun h => { h with before := c :: h.before }

/-- The heading of a type; a parenthesis before the keyword means that it is none. -/
def heading? (cs : List Cell) : Option Heading :=
  (headingFrom none cs).filter fun h => !h.before.any fun c => c.view = '('

def afterTypeParameters (cs : List Cell) : List Cell :=
  match dropBlank cs with
  | [] => []
  | c :: rest => dropBlank (if c.view = '<' then skipAngles 1 rest else c :: rest)

def components? (cs : List Cell) : Option (List Cell × List Cell) :=
  match cs with
  | [] => none
  | c :: rest => if c.view = '(' then closing Cell.view '(' ')' 1 rest else none

/-- The types that a clause of a header lists, up to the next clause. -/
def clause (words : List (List Char)) (keyword : String) (stops : List String) : List String :=
  match words.dropWhile (· ≠ keyword.toList) with
  | [] => []
  | _ :: rest =>
    let listed := rest.takeWhile fun w => !stops.contains (String.ofList w)
    (pieces id true ',' ([' '].intercalate listed)).map String.ofList

/-- The constants of an enum body and its members: the first semicolon outside brackets parts them. -/
def splitConstants : List (Item Cell) → List Cell × List Cell
  | [] => ([], [])
  | .single c :: rest =>
    if c.view = ';' then ([], rest.flatMap Item.elements)
    else (c :: (splitConstants rest).1, (splitConstants rest).2)
  | .group o inside c :: rest =>
    (o :: inside ++ c :: (splitConstants rest).1, (splitConstants rest).2)

theorem length_splitConstants_le (its : List (Item Cell)) :
    (splitConstants its).2.length ≤ (its.flatMap Item.elements).length := by
  induction its with
  | nil => simp [splitConstants]
  | cons it rest ih =>
    cases it with
    | single c =>
      unfold splitConstants
      simp only [List.flatMap_cons, List.length_append]
      split
      · exact Nat.le_add_left _ _
      · exact Nat.le_add_left_of_le ih
    | group o inside c =>
      simp [splitConstants] at ih ⊢; omega

def enumConstant? (piece : List Cell) : Option EnumConstant := do
  let rest := (preamble piece).rest
  let name := rest.takeWhile Cell.isIdent
  guard (!name.isEmpty)
  match dropBlank (rest.dropWhile Cell.isIdent) with
  | [] => some ⟨shownText name, []⟩
  | c :: more =>
    if c.view = '(' then do
      let (inside, _) ← closing Cell.view '(' ')' 1 more
      let arguments := (pieces Cell.view false ',' inside).map fun a =>
        String.ofList (trim isSpace (verbatim a))
      some ⟨shownText name, arguments⟩
    else some ⟨shownText name, []⟩

def enumConstants (cs : List Cell) : List EnumConstant :=
  (pieces Cell.view false ',' cs).filterMap enumConstant?

end WireLayout.Java
