import WireLayout.Catalog.Merge
import WireLayout.FileTree.Walk
import WireLayout.Java.SourceReader
import WireLayout.Text.Utf8

/-! The extraction of a catalog from a tree of sources. A file that cannot be read as a source is skipped
and listed. -/

namespace WireLayout

open WireLayout.Text

structure ExtractionConfig where
  packetsDirectory : String := "packets"
  extension : String := "java"
  followLinks : Bool := false
  deriving DecidableEq, Repr

namespace Catalog

def topCategory : String := "root"

def isSource (config : ExtractionConfig) (path : Location) : Bool :=
  path.getLast?.bind fileExtension? = some config.extension

def categoryOf (directories : Location) : String :=
  if directories.isEmpty then topCategory else lowercase ("/".intercalate directories)

/-- Whether a file lies in the directory of the packets, and its category. -/
def categorize (config : ExtractionConfig) (path : Location) : Bool × String :=
  let directories := path.dropLast
  let inPackets := directories.head? = some config.packetsDirectory
  (inPackets, categoryOf (if inPackets then directories.drop 1 else directories))

def joined (path : Location) : String := "/".intercalate path

inductive Sighting where
  | unit (unit : SourceUnit)
  | skipped (path : String)

def parseContent (path : String) (content : Except OsError (List UInt8)) : Except Error Java.SourceFile := do
  let bytes ← content.mapError (.fileRead path)
  Java.SourceFile.parse path (String.ofList (decodeLossy bytes))

/-- What becomes of an entry of the walk; files of other kinds are passed over. -/
def sight (config : ExtractionConfig) (root : String) : FileTree.WalkEntry → Except Error (Option Sighting)
  | .unreadable path => .ok (some (.skipped (joined path)))
  | .unnamed _ => .ok (some (.skipped ""))
  | .file path content =>
    if !isSource config path then .ok none
    else
      let name := joined path
      match parseContent (root ++ "/" ++ name) content with
      | .ok file =>
        let (inPackets, category) := categorize config path
        .ok (some (.unit ⟨name, inPackets, category, file⟩))
      | .error e => if e.isRecoverable then .ok (some (.skipped name)) else .error e

def Sighting.unit? : Sighting → Option SourceUnit
  | .unit u => some u
  | .skipped _ => none

def Sighting.skipped? : Sighting → Option String
  | .unit _ => none
  | .skipped path => some path

def extract (config : ExtractionConfig) (tree : FileTree) (root : String) : Except (Abort Error) Catalog :=
  match tree.walk? config.followLinks root with
  | none => .error (.failed (.notADirectory root))
  | some entries => do
    let sightings := (← (entries.mapM (sight config root)).mapError .failed).filterMap id
    let units := sightings.filterMap Sighting.unit?
    if overflows units then .error (.broken .overflow)
    else .ok { ofUnits units with skipped := sightings.filterMap Sighting.skipped? }

end Catalog

end WireLayout
