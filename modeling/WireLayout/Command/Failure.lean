import WireLayout.Error

/-! Why a run of the command fails, and the report of it: what failed, then the chain of causes. -/

namespace WireLayout.Command

inductive Failure where
  | noSources (path : String) (cause : Error)
  | noPackets (path : String)
  | outputExists (path : String)
  | extraction (root : String) (cause : Error)
  | noKey
  | oracle (cause : Error)
  | makeDirectory (path : String) (cause : OsError)
  | write (path : String) (cause : Error)
  deriving DecidableEq, Repr

def errorChain (e : Error) : List String :=
  match e with
  | .fileRead _ cause | .fileWrite _ cause => [e.message, cause.message]
  | e => [e.message]

namespace Failure

def message : Failure → String
  | noSources path _ => s!"Invalid source directory: {path}"
  | noPackets path => s!"Packets directory does not exist: {path}"
  | outputExists path => s!"File already exists: {path} (use --force to overwrite)"
  | extraction root _ => s!"Failed to extract entities from {root}"
  | noKey =>
    s!"No API key configured (pass --api-key, set ANTHROPIC_API_KEY, or use --offline)"
  | oracle _ => "Failed to create inference client"
  | makeDirectory path _ => s!"Failed to create directory: {path}"
  | write path _ => s!"Failed to write file: {path}"

def causes : Failure → List String
  | noPackets _ | outputExists _ | noKey => []
  | noSources _ cause | extraction _ cause | oracle cause | write _ cause => errorChain cause
  | makeDirectory _ cause => [cause.message]

def causeLines : List String → List String
  | [cause] => [s!"    {cause}"]
  | causes => causes.zipIdx.map fun (cause, i) => s!"    {i}: {cause}"

def report (f : Failure) : String :=
  let causes := if f.causes.isEmpty then "" else
    "\n\nCaused by:\n" ++ "\n".intercalate (causeLines f.causes)
  s!"Error: {f.message}{causes}\n"

end Failure

end WireLayout.Command
