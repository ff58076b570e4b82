import WireLayout.Command.Failure
import WireLayout.Command.Help
import WireLayout.FileTree.Change
import WireLayout.Pipeline

/-! A run of the command over a tree: it checks the paths, extracts the catalog, infers the layouts, and
writes the summary or shows where it would be written. The connection of the oracle is a parameter. -/

namespace WireLayout.Command

open WireLayout.Text

/-- What a run leaves: an exit code, lines for the output and text for the error stream, the tree, and
the document that was written with its path. -/
structure Outcome where
  code : Nat := 0
  output : List String := []
  errors : String := ""
  tree : FileTree
  written : Option (String × String) := none

def sourceRoot (options : Options) (tree : FileTree) : Except Failure Location :=
  match tree.directory? options.sourceDirectory with
  | some root => .ok root
  | none => .error (.noSources options.sourceDirectory (.notADirectory options.sourceDirectory))

/-- Checks that there are packets and that no summary is overwritten by accident. -/
def checkPaths (options : Options) (tree : FileTree) (root : String) : Except Failure Unit :=
  let packets := joinPath root options.packetsDirectory
  if !tree.isDirectory packets then .error (.noPackets packets)
  else if !options.dryRun && !options.force && (tree.node? options.output).isSome then
    .error (.outputExists options.output)
  else .ok ()

def extractSources (options : Options) (tree : FileTree) (root : String) : Except (Abort Failure) Catalog :=
  (Catalog.extract { packetsDirectory := options.packetsDirectory } tree root).mapError
    (Abort.map (.extraction root))

/-- The engine without an oracle, or with the oracle behind a connection as its fallback. -/
def buildEngine (options : Options) (send : Oracle.HttpRequest → Oracle.HttpReply) :
    Except Failure Engine :=
  if options.offline then .ok .offline
  else match options.apiKey.filter fun key => !isBlank key with
    | none => .error .noKey
    | some apiKey => do
      let config ← (Oracle.Config.check { apiKey, model := options.model }).mapError .oracle
      .ok (.withOracle (Oracle.overHttp config send))

def batchConfig (options : Options) : Batch.Config := {
  concurrency := options.concurrency
  timeout := if options.timeoutSeconds = 0 then none else some (1000 * options.timeoutSeconds) }

structure Preparation where
  catalog : Catalog
  engine : Engine

def prepare (options : Options) (send : Oracle.HttpRequest → Oracle.HttpReply) (tree : FileTree) :
    Except (Abort Failure) Preparation := do
  let root := tree.absolute (← (sourceRoot options tree).mapError .failed)
  (checkPaths options tree root).mapError .failed
  let catalog ← extractSources options tree root
  .ok ⟨catalog, ← (buildEngine options send).mapError .failed⟩

def makeParent (output : String) (tree : FileTree) : Except Failure FileTree :=
  let parent := parentPath output
  if parent.isEmpty then .ok tree
  else (tree.makeDirectories parent).mapError (.makeDirectory parent)

/-- Writes a document to the output, over an existing one only by force. -/
def writeDocument (options : Options) (document : String) (tree : FileTree) : Except Failure FileTree := do
  let tree ← makeParent options.output tree
  if !options.force && (tree.node? options.output).isSome then .error (.outputExists options.output)
  else
    (tree.writeFile options.output (utf8 document.toList)).mapError fun cause =>
      .write options.output (.fileWrite options.output cause)

def statisticsLine (s : Statistics) (skipped : Nat) : String :=
  s!"Summary: {s.messages} messages, {s.withLayout} with layouts ({s.verified} verified / " ++
    s!"{s.inferred} inferred field facts, {s.bareFields} fields without layout), " ++
    s!"{s.enumerations} enums, {s.dataTypes} data types, {skipped} files skipped"

/-- Shows where the summary would be written, and the summary itself when asked for more words. -/
def previewLines (options : Options) (summary : String) : List String :=
  s!"Would write: {options.output}" ::
    if 0 < options.verbosity then ["---", summary, "---"] else []

def failed (tree : FileTree) (f : Failure) : Outcome := { code := 1, errors := f.report, tree }

def deliver (options : Options) (tree : FileTree) (result : PipelineResult) : Outcome :=
  let summary := (result.summary options.label).text
  let closing := statisticsLine result.statistics result.catalog.skipped.length
  if options.dryRun then { output := previewLines options summary ++ [closing], tree }
  else
    let document := summary ++ "\n"
    match writeDocument options document tree with
    | .error f => failed tree f
    | .ok tree =>
      { output := [s!"Wrote {options.output}", closing], tree, written := some (options.output, document) }

def run (options : Options) (send : Oracle.HttpRequest → Oracle.HttpReply) (tree : FileTree) :
    Except Batch.Halt Outcome :=
  match prepare options send tree with
  | .error (.failed f) => .ok (failed tree f)
  | .error (.broken fault) => .error (.fault fault)
  | .ok p => (p.catalog.infer p.engine (batchConfig options)).map (deliver options tree)

def runArguments (environment : Environment) (send : Oracle.HttpRequest → Oracle.HttpReply)
    (tree : FileTree) (arguments : List String) : Except Batch.Halt Outcome :=
  match Options.ofArguments environment arguments with
  | .error .misused => .ok { code := 2, errors := misuseText, tree }
  | .error .help => .ok { output := [helpText environment], tree }
  | .error .version => .ok { output := [versionText], tree }
  | .ok options => run options send tree

end WireLayout.Command
