import WireLayout.FileTree.Basic

/-! The walk through a directory: what lies below it, depth first in the order of names. -/

namespace WireLayout

namespace FileNode

mutual

def count : FileNode → Nat
  | directory entries => countEntries entries + 1
  | _ => 1

def countEntries : List (String × FileNode) → Nat
  | [] => 0
  | (_, node) :: rest => count node + countEntries rest

end

end FileNode

namespace FileTree

/-- What the walk meets: a file with its content or the reason why it cannot be read, a directory or link that cannot
be followed, or a link to a directory that cannot be opened, of which no path is reported. -/
inductive WalkEntry where
  | file (path : Location) (content : Except OsError (List UInt8))
  | unreadable (path : Location)
  | unnamed (path : Location)

/-- What becomes of an entry whose path is too long to be used. -/
def WalkEntry.overlong (follow : Bool) (path : Location) : FileNode → List WalkEntry
  | .file _ | .sealed _ => [.file path (.error .nameTooLong)]
  | .directory _ => [.unreadable path]
  | .link _ => if follow then [.unreadable path] else []

/-- Where the walk stands: the directories that it is in, the last of them, and the path by which it came there. -/
structure WalkState where
  opened : List Location
  here : Location
  path : Location

def WalkState.enter (s : WalkState) (directory : Location) (name : String) : WalkState :=
  ⟨directory :: s.opened, directory, s.path ++ [name]⟩

/-- What the walk meets at a link by its name and the location to which it leads. A directory that the walk is in is not
entered again; it is opened to see whether it is one of these. -/
def arrive (tree : FileTree) (below : WalkState → List WalkEntry) (s : WalkState) (name : String) (target : Location) :
    List WalkEntry :=
  let path := s.path ++ [name]
  match tree.top.find? target with
  | some (.file bytes) => [.file path (.ok bytes)]
  | some (.sealed cause) => [.file path (.error cause)]
  | some (.directory _) =>
    if tree.closed.contains target then [.unnamed path]
    else if s.opened.contains target then [.unreadable path]
    else below (s.enter target name)
  | _ => [.unreadable path]

/-- What the walk meets at an entry of a directory; `below` is the walk of a directory that is entered. With `follow`,
links are followed from the root on, so that all links of a path count; one that leads nowhere is unreadable. -/
def visit (tree : FileTree) (follow : Bool) (root : String) (below : WalkState → List WalkEntry) (s : WalkState)
    (entry : String × FileNode) : List WalkEntry :=
  let path := s.path ++ [entry.1]
  let full := joinPath root ("/".intercalate path)
  if isLongPath full then WalkEntry.overlong follow path entry.2
  else match entry.2 with
    | .file bytes => [.file path (.ok bytes)]
    | .sealed cause => [.file path (.error cause)]
    | .directory _ => below (s.enter (s.here ++ [entry.1]) entry.1)
    | .link _ =>
      if !follow then []
      else match tree.resolve full with
        | .error _ => [.unreadable path]
        | .ok target => tree.arrive below s entry.1 target

/-- The entries below a directory, depth first in the order of names; of one that cannot be opened, the directory itself.
The fuel bounds the depth. -/
def walkFrom (tree : FileTree) (follow : Bool) (root : String) : Nat → WalkState → List WalkEntry
  | 0, _ => []
  | fuel + 1, s =>
    if tree.closed.contains s.here then [.unreadable s.path]
    else (tree.entriesAt s.here).flatMap (tree.visit follow root (tree.walkFrom follow root fuel) s)

/-- The walk from a directory that a path names; none when it names no directory. Each link that is
followed opens a directory that was not open, so the depth is below the square of the number of nodes. -/
def walk? (tree : FileTree) (follow : Bool) (root : String) : Option (List WalkEntry) :=
  let n := tree.top.count + 1
  (tree.directory? root).map fun top => tree.walkFrom follow root (n * n) ⟨[top], top, []⟩

end FileTree

end WireLayout
