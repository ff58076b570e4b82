import WireLayout.Error
import WireLayout.Java.TypeReader

/-! Reading a source file: its package, its imports and its types. A text of blanks only is empty, and one
whose brackets do not match is refused; any other text is a source file. -/

namespace WireLayout.Java

open WireLayout.Text

def isNamePart (c : Char) : Bool := isWord c || c = '.'

def packageName? (before cs : List Char) : Option (String × List Char) := do
  guard (atWordEdge before cs)
  let rest ← spaces? (← literal? "package".toList cs)
  let (name, rest) ← run? isNamePart rest
  let rest ← token? ";" rest
  some (String.ofList name, rest)

/-- The name of an import up to its semicolon; it may end in a star after a point. -/
def importedName? (cs : List Char) : Option (String × List Char) := do
  let (name, rest) ← run? isNamePart cs
  match rest with
  | '*' :: rest =>
    guard (name.getLast? = some '.' && 2 ≤ name.length)
    let rest ← token? ";" rest
    some (String.ofList (name ++ ['*']), rest)
  | rest =>
    let rest ← token? ";" rest
    some (String.ofList name, rest)

/-- An import clause, which begins a line. The word `static` is passed over where a name follows it. -/
def importName? (before cs : List Char) : Option (String × List Char) := do
  guard (before.head?.all (· = '\n'))
  let rest ← spaces? (← literal? "import".toList (skipSpaces cs))
  (do importedName? (← spaces? (← literal? "static".toList rest))) <|> importedName? rest

def topLevelTypes (segments : List Segment) : List TypeDeclaration :=
  segments.filterMap fun
    | .statement _ => none
    | .block header body => typeDeclaration? header body

/-- Reads the text of a file; the path is for messages only. -/
def SourceFile.parse (path text : String) : Except Error SourceFile :=
  let characters := text.toList
  if characters.all isSpace then .error (.emptySource path)
  else
    let cells := cells characters
    let shown := views cells
    if !isBalanced shown then .error (.sourceParse path "unbalanced delimiters")
    else .ok {
      package := ((allMatches packageName? shown).head?).getD ""
      imports := allMatches importName? shown
      types := topLevelTypes (segments cells) }

end WireLayout.Java
