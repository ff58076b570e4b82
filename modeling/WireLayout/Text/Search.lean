import WireLayout.Text.Chars

/-! Small steps that recognise the beginning of a text, and the search for all places where such a step
succeeds. A step gives what it read and the rest of the text. Matches do not overlap and the leftmost
comes first. -/

namespace WireLayout.Text

def literal? : List Char → List Char → Option (List Char)
  | [], cs => some cs
  | _ :: _, [] => none
  | l :: ls, c :: cs => if l = c then literal? ls cs else none

def run? (p : Char → Bool) (cs : List Char) : Option (List Char × List Char) :=
  if (cs.takeWhile p).isEmpty then none else some (cs.takeWhile p, cs.dropWhile p)

def skipSpaces (cs : List Char) : List Char := cs.dropWhile isSpace

def spaces? (cs : List Char) : Option (List Char) := (run? isSpace cs).map (·.2)

def token? (literal : String) (cs : List Char) : Option (List Char) :=
  literal? literal.toList (skipSpaces cs)

/-- A name that begins with an ASCII letter, an underscore or a dollar. -/
def name? : List Char → Option (List Char × List Char)
  | [] => none
  | c :: cs =>
    if isNameStart c then some (c :: cs.takeWhile isWordOrDollar, cs.dropWhile isWordOrDollar) else none

/-- Between the text read so far, last character first, and the rest lies the edge of a word. -/
def atWordEdge (before rest : List Char) : Bool :=
  before.head?.any isWord != rest.head?.any isWord

/-- All matches of a step that sees the text before it, last character first. `skip` characters still
belong to the previous match. -/
def matchesFrom {β : Type} (step : List Char → List Char → Option (β × List Char)) :
    Nat → List Char → List Char → List β
  | _, _, [] => []
  | skip + 1, before, c :: cs => matchesFrom step skip (c :: before) cs
  | 0, before, c :: cs =>
    match step before (c :: cs) with
    | some (found, rest) => found :: matchesFrom step (cs.length - rest.length) (c :: before) cs
    | none => matchesFrom step 0 (c :: before) cs

def allMatches {β : Type} (step : List Char → List Char → Option (β × List Char)) (cs : List Char) :
    List β :=
  matchesFrom step 0 [] cs

def contains (part : List Char) : List Char → Bool
  | [] => part.isEmpty
  | c :: cs => (literal? part (c :: cs)).isSome || contains part cs

end WireLayout.Text
