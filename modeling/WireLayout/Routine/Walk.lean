import WireLayout.Bundle
import WireLayout.Routine.Reader

/-! The walk over a routine as a run over steps: blocks that open and close, and statements between them.
The steps depend on the text alone, so a scan is the run of the steps of its routine, and what one step
does to the reader and to the open guards is all that later statements can depend on. -/

namespace WireLayout.Routine

open WireLayout.Java WireLayout.Text

/-- The name of a parameter; none when it ends in another character. The name begins after the last character
that cannot stand in an identifier; when that character takes more than one octet the name would begin
inside it, and the scan breaks off. -/
def parameterName (argument : List Char) : Except Fault (Option (List Char)) :=
  let reversed := (trim isSpace argument).reverse
  let name := (reversed.takeWhile isIdent).reverse
  match reversed.dropWhile isIdent with
  | [] => .ok (if name.isEmpty then none else some name)
  | c :: _ =>
    if c.utf8Size ≠ 1 then .error (.splitCharacter (String.ofList argument))
    else .ok (if name.isEmpty then none else some name)

def parts? (shown : List Char) : Except Fault (Option (List (List Char) × List Char)) :=
  match findCall routineName shown with
  | none => .ok none
  | some call => do
    let names ← call.arguments.mapM parameterName
    match call.after.dropWhile (· ≠ '{') with
    | [] => .ok none
    | _ :: rest => .ok ((closing id '{' '}' 1 rest).map fun p => (names.filterMap id, p.1))

/-- One step of the walk. A block opens after a header; a statement ends at a semicolon. -/
inductive Step where
  | enter (header : List Char)
  | leave
  | execute (text : List Char)
  deriving DecidableEq, Repr

/-- The steps of a body. `read` is what has been read since the last step, reversed. -/
def stepsFrom (read : List Char) : List (Item Char) → List Step
  | [] => []
  | .single c :: rest =>
    if c = '{' then .enter (trimBlank id read.reverse) :: stepsFrom [] rest
    else if c = '}' then .leave :: stepsFrom [] rest
    else if c = ';' then .execute (trimBlank id read.reverse) :: stepsFrom [] rest
    else stepsFrom (c :: read) rest
  | .group o inside c :: rest => stepsFrom (c :: (inside.reverse ++ o :: read)) rest

def parenthesis? (c : Char) : Option Char := if c = '(' then some ')' else none

def stepsOf (body : List Char) : List Step := stepsFrom [] (items id parenthesis? body)

def Reader.innermost (guards : List (Option Nat)) : Option Nat := guards.findSome? id

/-- A reader in the midst of blocks, with their guards, the innermost first. -/
structure Walker where
  reader : Reader
  guards : List (Option Nat) := []

namespace Walker

def step (w : Walker) : Step → Walker
  | .enter header => { w with guards := w.reader.guard? header :: w.guards }
  | .leave => { w with guards := w.guards.tail }
  | .execute text => { w with reader := w.reader.statement (Reader.innermost w.guards) text }

def run (w : Walker) (steps : List Step) : Walker := steps.foldl step w

def overflows (w : Walker) : List Step → Bool
  | [] => false
  | .execute text :: rest => w.reader.overflows text || (w.step (.execute text)).overflows rest
  | s :: rest => (w.step s).overflows rest

end Walker

/-- The reader before a routine and the steps of its body; none when the routine has no body. -/
def trace? (b : Bundle) : Except Fault (Option (Reader × List Step)) := do
  match ← parts? (views (cells b.routine.toList)) with
  | none => .ok none
  | some (names, body) =>
    .ok (some (⟨names[1]?.getD "offset".toList, b.fieldNames, [], [], ∅, []⟩, stepsOf body))

def Reader.after (start : Reader) (steps : List Step) : Reader := ((Walker.mk start []).run steps).reader

end WireLayout.Routine
