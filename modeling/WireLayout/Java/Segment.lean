import WireLayout.Java.Bracket
import WireLayout.Java.Mask
import WireLayout.Java.Pieces

/-! The members of a body: statements that end with a semicolon, and blocks with a header and a body in
braces. Braces after an assignment belong to an initialiser and end no segment. -/

namespace WireLayout.Java

open WireLayout.Text

/-- A cell that separates words: space of ASCII, or hidden. -/
def Cell.isBlank (c : Cell) : Bool := isAsciiSpace c.view

def Cell.isIdent (c : Cell) : Bool := Text.isIdent c.view

def dropBlank (cs : List Cell) : List Cell := cs.dropWhile Cell.isBlank

def trimCells (cs : List Cell) : List Cell := trimBlank Cell.view cs

def shownText (cs : List Cell) : String := String.ofList (views cs)

def sourceText (cs : List Cell) : String := String.ofList (verbatim cs)

/-- The parts before and after the first assignment sign outside brackets. A sign that belongs to a
comparison is none. -/
def assignmentFrom : Int → Option Char → List Cell → Option (List Cell × List Cell)
  | _, _, [] => none
  | depth, before, c :: cs =>
    let comparison :=
      before = some '=' || before = some '!' || before = some '<' || before = some '>' ||
        (cs.head?.map Cell.view) = some '='
    if c.view = '=' && depth = 0 && !comparison then some ([], cs)
    else
      let depth := depth + (depthChange false c.view).getD 0
      (assignmentFrom depth (some c.view) cs).map fun p => (c :: p.1, p.2)

def splitAssignment (cs : List Cell) : Option (List Cell × List Cell) := assignmentFrom 0 none cs

inductive Segment where
  | statement (cells : List Cell)
  | block (header body : List Cell)
  deriving DecidableEq, Repr

/-- `read` is what has been read since the last segment, reversed. What follows the last segment is
dropped. -/
def segmentsFrom : List Cell → List (Item Cell) → List Segment
  | _, [] => []
  | read, .single c :: rest =>
    if c.view = ';' then .statement read.reverse :: segmentsFrom [] rest
    else segmentsFrom (c :: read) rest
  | read, .group o inside c :: rest =>
    if o.view = '{' && (splitAssignment read.reverse).isNone then
      .block read.reverse inside :: segmentsFrom [] rest
    else segmentsFrom (c :: (inside.reverse ++ o :: read)) rest

def segments (cs : List Cell) : List Segment := segmentsFrom [] (items Cell.view closer? cs)

theorem group_of_block {header body : List Cell} {its : List (Item Cell)} {read : List Cell}
    (h : .block header body ∈ segmentsFrom read its) : ∃ o c, .group o body c ∈ its := by
  induction its generalizing read with
  | nil => simp [segmentsFrom] at h
  | cons it rest ih =>
    cases it with
    | single c =>
      unfold segmentsFrom at h
      split at h
      · simp at h
        obtain ⟨o, c, hc⟩ := ih h
        exact ⟨o, c, by simp [hc]⟩
      · obtain ⟨o, c, hc⟩ := ih h
        exact ⟨o, c, by simp [hc]⟩
    | group o inside c =>
      unfold segmentsFrom at h
      split at h
      · simp at h
        rcases h with ⟨_, rfl⟩ | h
        · exact ⟨o, c, by simp⟩
        · obtain ⟨o, c, hc⟩ := ih h
          exact ⟨o, c, by simp [hc]⟩
      · obtain ⟨o, c, hc⟩ := ih h
        exact ⟨o, c, by simp [hc]⟩

theorem length_block_lt {header body cs : List Cell} (h : .block header body ∈ segments cs) :
    body.length < cs.length := by
  obtain ⟨o, c, hg⟩ := group_of_block h
  have h1 := length_inside_lt hg
  have h2 := length_items_le Cell.view closer? cs
  omega

end WireLayout.Java
