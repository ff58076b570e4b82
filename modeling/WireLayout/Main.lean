import WireLayout.Command.Run

/-! The command. It reads from the file system what its options name into a tree, runs on the tree, and
writes the document that the run leaves. It has no connection of its own, so that every request to
an oracle breaks off. -/

open WireLayout WireLayout.Command

namespace WireLayout.Main

def place (path : String) : Location := (pathComponents path).filter (· ≠ "")

/-- Reads what stands at an entry, with all that lies below a directory, and notes the directories that cannot be opened.
Links are not gone through. -/
partial def load (location : Location) (entry : IO.FS.DirEntry) : IO (FileNode × List Location) := do
  match (← entry.path.symlinkMetadata).type with
  | .dir =>
    let listed ← try pure (some (← entry.path.readDir)) catch _ => pure none
    match listed with
    | none => return (.directory [], [location])
    | some names =>
      let mut entries := []
      let mut closed := []
      for e in names do
        let (node, below) ← load (location ++ [e.fileName]) e
        entries := SortedMap.insertEntry e.fileName node entries
        closed := closed ++ below
      return (.directory entries, closed)
  | .file =>
    try return (.file (← IO.FS.readBinFile entry.path).toList, [])
    catch _ => return (.sealed .permissionDenied, [])
  | _ => return (.link "", [])

def putNew (tree : FileTree) (location : Location) (node : FileNode) : FileTree :=
  if (tree.top.find? location).isSome then tree else tree.put location node

def bare : IO.FS.FileType → FileNode
  | .dir => .directory []
  | _ => .file []

/-- Notes what stands at an entry without reading it. A link is noted with the place it leads to. -/
def note (tree : FileTree) (entry : IO.FS.DirEntry) : IO FileTree := do
  let location := place (← IO.FS.realPath entry.root).toString ++ [entry.fileName]
  match (← entry.path.symlinkMetadata).type with
  | .symlink =>
    let linked (target : String) : FileTree := tree.put location (.link target)
    try
      let target := (← IO.FS.realPath entry.path).toString
      return putNew (linked target) (place target) (bare (← entry.path.metadata).type)
    catch _ => return linked ""
  | type => return putNew tree location (bare type)

def survey (tree : FileTree) (path : String) : IO FileTree := do
  let (origin, components) := (tree.start path).toOption.getD ([], [])
  let mut tree := tree
  let mut root := "/" ++ "/".intercalate origin
  for name in components do
    if name ≠ "" && name ≠ "." && name ≠ ".." then
      let before := tree
      tree ← try note before ⟨root, name⟩ catch _ => pure before
    root := joinPath root name
  return tree

def loadSources (tree : FileTree) (path : String) : IO FileTree := do
  match place (← try pure (← IO.FS.realPath path).toString catch _ => pure "") with
  | [] => return tree
  | location =>
    let root := "/" ++ "/".intercalate location.dropLast
    let (node, closed) ← load location ⟨root, location.getLast?.getD ""⟩
    return { tree.put location node with closed }

def gather (options : Options) : IO FileTree := do
  let working := place (← IO.currentDir).toString
  let tree := FileTree.put { mount := "", working } working (.directory [])
  let tree ← loadSources tree options.sourceDirectory
  let tree ← survey tree options.sourceDirectory
  let tree ← survey tree (joinPath options.sourceDirectory options.packetsDirectory)
  survey tree options.output

def write (path text : String) : IO Unit := do
  let parent := parentPath path
  if !parent.isEmpty then IO.FS.createDirAll parent
  IO.FS.writeFile path text

end WireLayout.Main

def main (arguments : List String) : IO UInt32 := do
  let environment : Environment := ⟨← IO.getEnv Oracle.keyVariable, ← IO.getEnv modelVariable⟩
  let tree ← match Options.ofArguments environment arguments with
    | .ok options => WireLayout.Main.gather options
    | .error _ => pure { mount := "" }
  match runArguments environment (fun _ => .dropped "no connection") tree arguments with
  | .error _ => return 101
  | .ok outcome =>
    if let some (path, text) := outcome.written then WireLayout.Main.write path text
    for line in outcome.output do IO.println line
    IO.eprint outcome.errors
    return outcome.code.toUInt32
