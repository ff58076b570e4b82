import WireLayout.FileTree.Basic

/-! Changes to a tree: new directories and written files, with the faults that stand against them. -/

namespace WireLayout.FileTree

def put (tree : FileTree) (location : Location) (node : FileNode) : FileTree :=
  { tree with top := node.put tree.top location }

def directoryAt (tree : FileTree) (origin : Location) (components : List String) :
    Except OsError Location := do
  let location ← tree.resolveFrom maxLinks origin components
  if (tree.top.find? location).any FileNode.isDirectory then .ok location
  else .error .notADirectory

/-- Makes a node under a name that must be free; links are not followed for it. -/
def make (tree : FileTree) (origin : Location) (above : List String) (name : String) (node : FileNode) :
    Except OsError FileTree := do
  let directory ← tree.directoryAt origin above
  if tree.closed.contains directory then .error .permissionDenied
  else if name = "." || name = ".." || (tree.top.find? (directory ++ [name])).isSome then .error .exists_
  else if isLongName name then .error .nameTooLong
  else .ok (tree.put (directory ++ [name]) node)

def makeDirectory (tree : FileTree) (origin : Location) (above : List String) (name : String) :
    Except OsError FileTree :=
  tree.make origin above name (.directory [])

def makeLink (tree : FileTree) (path target : String) : Except OsError FileTree := do
  let (origin, components) ← tree.start path
  match components.reverse with
  | [] => .error .exists_
  | name :: above => tree.make origin above.reverse name (.link target)

/-- Accepts that a directory could not be made when there is one. -/
def orThere (tree : FileTree) (origin : Location) (components : List String)
    (made : Except OsError FileTree) : Except OsError FileTree :=
  match made, tree.directoryAt origin components with
  | .error _, .ok _ => .ok tree
  | made, _ => made

/-- Makes a directory and those above it that are missing. The components are given last first. -/
def makeDirectoriesFrom (tree : FileTree) (origin : Location) : List String → Except OsError FileTree
  | [] => .ok tree
  | name :: above =>
    match tree.makeDirectory origin above.reverse name with
    | .error e =>
      if e = .notFound then do
        let made ← makeDirectoriesFrom tree origin above
        made.orThere origin (above.reverse ++ [name]) (made.makeDirectory origin above.reverse name)
      else tree.orThere origin (above.reverse ++ [name]) (.error e)
    | made => made

/-- Makes the directory of a path and those above it that are missing. -/
def makeDirectories (tree : FileTree) (path : String) : Except OsError FileTree := do
  let (origin, components) ← tree.start path
  tree.makeDirectoriesFrom origin (components.filter (· ≠ "")).reverse

/-- The location at which a file is written that components lead to. The file need not be there, but its
directory must; a path that ends in a slash names a directory. -/
def fileAt (tree : FileTree) (links : Nat) (origin : Location) (components : List String) :
    Except OsError Location := do
  match components.reverse.dropWhile (· = "") with
  | [] => .error .isADirectory
  | name :: above =>
    let directory ← tree.directoryAt origin above.reverse
    if tree.closed.contains directory then .error .permissionDenied
    else if name = "." || name = ".." || components.getLast? = some "" then .error .isADirectory
    else if isLongName name then .error .nameTooLong
    else match tree.top.find? (directory ++ [name]) with
      | none => .ok (directory ++ [name])
      | some (.file _) => .ok (directory ++ [name])
      | some (.sealed cause) => .error cause
      | some (.directory _) => .error .isADirectory
      | some (.link target) =>
        match links with
        | 0 => .error .tooManyLinks
        | links + 1 => do
          let (origin, components) ← tree.linkStart directory target
          tree.fileAt links origin components

def writeFile (tree : FileTree) (path : String) (bytes : List UInt8) : Except OsError FileTree := do
  let (origin, components) ← tree.start path
  let location ← tree.fileAt maxLinks origin components
  .ok (tree.put location (.file bytes))

end WireLayout.FileTree
