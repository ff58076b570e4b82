import WireLayout.Java.Bracket
import WireLayout.Java.Pieces
import WireLayout.Text.Search

/-! Calls in the masked text of a routine: a name with an optional receiver, its arguments, and what
follows the closing parenthesis. -/

namespace WireLayout.Routine

open WireLayout.Java WireLayout.Text

structure Call where
  receiver : Option (List Char)
  arguments : List (List Char)
  after : List Char
  deriving DecidableEq, Repr

structure CallHead where
  receiver : Option (List Char)
  name : List Char
  rest : List Char
  deriving DecidableEq, Repr

def calledName? (cs : List Char) : Option (List Char × List Char) := do
  let (name, rest) ← run? isWordOrDollar cs
  some (name, ← token? "(" rest)

/-- A name called on a receiver; the name begins with a word character. -/
def calledOn? (cs : List Char) : Option (CallHead × List Char) := do
  let (receiver, rest) ← run? isWordOrDollar cs
  let rest := skipSpaces (← token? "." rest)
  guard (rest.head?.any isWord)
  let (name, rest) ← calledName? rest
  some (⟨some receiver, name, rest⟩, rest)

def callHead? (before cs : List Char) : Option (CallHead × List Char) := do
  guard (atWordEdge before cs)
  calledOn? cs <|> (calledName? cs).map fun (name, rest) => (⟨none, name, rest⟩, rest)

def arguments (inside : List Char) : List (List Char) := pieces id false ',' inside

/-- The first call of a name; none when its parenthesis is not closed. -/
def findCall (name : String) (cs : List Char) : Option Call := do
  let head ← (allMatches callHead? cs).find? fun h => h.name = name.toList
  let (inside, after) ← closing id '(' ')' 1 head.rest
  some ⟨head.receiver, arguments inside, after⟩

end WireLayout.Routine
