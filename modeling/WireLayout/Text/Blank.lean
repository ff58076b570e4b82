import WireLayout.Text.Chars

/-! Trimming and the spacing of texts. A trimmed list is a contiguous part of the list it comes from;
`squeeze` leaves the words of a text with one space between neighbours. -/

namespace WireLayout.Text

variable {α : Type}

def dropEnd (p : α → Bool) (xs : List α) : List α := (xs.reverse.dropWhile p).reverse

def trim (p : α → Bool) (xs : List α) : List α := dropEnd p (xs.dropWhile p)

def wordsFrom : List Char → List Char → List (List Char)
  | word, [] => if word.isEmpty then [] else [word.reverse]
  | word, c :: cs =>
    if isSpace c then
      if word.isEmpty then wordsFrom [] cs else word.reverse :: wordsFrom [] cs
    else wordsFrom (c :: word) cs

def words (cs : List Char) : List (List Char) := wordsFrom [] cs

def squeeze (cs : List Char) : List Char := [' '].intercalate (words cs)

def trimSpaces (s : String) : String := String.ofList (trim isSpace s.toList)

def isBlank (s : String) : Bool := s.toList.all isSpace

/-- The pieces of a text between occurrences of a character, empty ones included. -/
def splitAtChar (sep : Char) : List Char → List (List Char)
  | [] => [[]]
  | c :: cs =>
    if c = sep then [] :: splitAtChar sep cs
    else match splitAtChar sep cs with
      | [] => [[c]]
      | piece :: rest => (c :: piece) :: rest

end WireLayout.Text
