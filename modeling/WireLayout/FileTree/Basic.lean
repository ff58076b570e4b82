import WireLayout.OsError
import WireLayout.SortedMap
import WireLayout.Text.Blank

/-! A tree of files, directories and symbolic links. A directory lists its entries by name in byte order. A
location is the list of names from the top; links are followed where a path is resolved. -/

namespace WireLayout

open WireLayout.Text

inductive FileNode where
  | file (bytes : List UInt8)
  /-- A file that cannot be read. -/
  | sealed (cause : OsError)
  | link (target : String)
  | directory (entries : List (String × FileNode))
  deriving Inhabited

/-- The names from the top of a tree to a node. -/
abbrev Location := List String

/-- A tree that stands at an absolute path, the directory in which relative paths begin, and the directories
that cannot be opened: neither their names are listed nor is any name looked up in them. -/
structure FileTree where
  mount : String
  top : FileNode := .directory []
  working : Location := []
  closed : List Location := []

namespace FileNode

def find? : FileNode → Location → Option FileNode
  | node, [] => some node
  | .directory entries, name :: rest => (SortedMap.lookup name entries).bind fun n => n.find? rest
  | _, _ :: _ => none
termination_by structural _ location => location

def entries : FileNode → List (String × FileNode)
  | .directory entries => entries
  | _ => []

def isDirectory : FileNode → Bool
  | .directory _ => true
  | _ => false

def content? : FileNode → Option (Except OsError (List UInt8))
  | .file bytes => some (.ok bytes)
  | .sealed cause => some (.error cause)
  | _ => none

/-- Puts a node at a location; what stands in the way is replaced by directories. -/
def put (new : FileNode) : FileNode → Location → FileNode
  | _, [] => new
  | node, name :: rest =>
    let below := (SortedMap.lookup name node.entries).getD (.directory [])
    .directory (SortedMap.insertEntry name (put new below rest) node.entries)

end FileNode

def pathComponents (path : String) : List String := (splitAtChar '/' path.toList).map String.ofList

/-- A path below a directory; an absolute path stays as it is. -/
def joinPath (directory path : String) : String :=
  if path.startsWith "/" then path
  else if directory.endsWith "/" then directory ++ path
  else directory ++ "/" ++ path

/-- The path of the directory that holds what a path names, as far as the path spells it out. -/
def parentPath (path : String) : String :=
  match pathComponents path with
  | [] => ""
  | first :: rest =>
    match rest.reverse.dropWhile isBlankName with
    | [] => ""
    | _ :: above =>
      let parent := "/".intercalate (first :: (above.dropWhile isBlankName).reverse)
      if parent.isEmpty then "/" else parent
where
  isBlankName (name : String) : Bool := name = "" || name = "."

/-- The extension of a file name: what follows its last point, if something precedes the point. -/
def fileExtension? (name : String) : Option String :=
  let reversed := name.toList.reverse
  match reversed.dropWhile (· ≠ '.') with
  | [] => none
  | [_] => none
  | _ => if name = ".." then none else some (String.ofList (reversed.takeWhile (· ≠ '.')).reverse)

namespace FileTree

def maxLinks : Nat := 40

def maxNameLength : Nat := 255

def maxPathLength : Nat := 4095

def isLongName (name : String) : Bool := maxNameLength < name.utf8ByteSize

def isLongPath (path : String) : Bool := maxPathLength < path.utf8ByteSize

variable (tree : FileTree)

/-- Where a path begins and the components that follow. An absolute path is known below the mount. -/
def start (path : String) : Except OsError (Location × List String) :=
  if path = "" then .error .notFound
  else if isLongPath path then .error .nameTooLong
  else if path = tree.mount then .ok ([], [])
  else if path.startsWith (tree.mount ++ "/") then
    .ok ([], pathComponents (path.drop tree.mount.length).toString)
  else if path.startsWith "/" then .error .notFound
  else .ok (tree.working, pathComponents path)

/-- Where the path of a link begins that stands in a directory, and its components. -/
def linkStart (here : Location) (target : String) : Except OsError (Location × List String) :=
  if target.startsWith "/" then tree.start target else .ok (here, pathComponents target)

/-- The location that components lead to from a directory, with `follow` for what comes after a link. What is above a
mounted top is not known, and a top without a mount is its own parent. -/
def resolveWith (follow : Location → String → List String → Except OsError Location) (here : Location) :
    List String → Except OsError Location
  | [] => .ok here
  | name :: rest =>
    if name = "" then resolveWith follow here rest
    else if tree.closed.contains here then .error .permissionDenied
    else if name = "." then resolveWith follow here rest
    else if name = ".." then
      if here.isEmpty && tree.mount ≠ "" then .error .notFound else resolveWith follow here.dropLast rest
    else if isLongName name then .error .nameTooLong
    else match tree.top.find? (here ++ [name]) with
      | none => .error .notFound
      | some (.directory _) => resolveWith follow (here ++ [name]) rest
      | some (.file _) | some (.sealed _) =>
        if rest.isEmpty then .ok (here ++ [name]) else .error .notADirectory
      | some (.link target) => follow here target rest

def throughLink (resolve : Location → List String → Except OsError Location) (here : Location) (target : String)
    (rest : List String) : Except OsError Location := do
  let (origin, components) ← tree.linkStart here target
  resolve origin (components ++ rest)

/-- The location that components lead to from a directory. `links` counts the links that may still be gone through. -/
def resolveFrom (links : Nat) : Location → List String → Except OsError Location :=
  match links with
  | 0 => tree.resolveWith fun _ _ _ => .error .tooManyLinks
  | links + 1 => tree.resolveWith (tree.throughLink (resolveFrom links))

@[simp] theorem resolveFrom_nil (links : Nat) (here : Location) : tree.resolveFrom links here [] = .ok here := by
  cases links <;> rfl

def resolve (path : String) : Except OsError Location := do
  let (origin, components) ← tree.start path
  tree.resolveFrom maxLinks origin components

def node? (path : String) : Option FileNode :=
  match tree.resolve path with
  | .ok location => tree.top.find? location
  | .error _ => none

def directory? (path : String) : Option Location :=
  match tree.resolve path with
  | .ok location =>
    if (tree.top.find? location).any FileNode.isDirectory then some location else none
  | .error _ => none

def isDirectory (path : String) : Bool := (tree.directory? path).isSome

def entriesAt (location : Location) : List (String × FileNode) :=
  ((tree.top.find? location).map FileNode.entries).getD []

def absolute (location : Location) : String :=
  let path := tree.mount ++ String.join (location.map ("/" ++ ·))
  if path.isEmpty then "/" else path

end FileTree

end WireLayout
