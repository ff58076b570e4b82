import WireLayout.Layout.IntLiteral
import WireLayout.Oracle.Messages

/-! The options of the command line: what they are called, which take a value, and how a list of arguments
is read. A long name stands after two hyphens and may carry its value after an equals sign; short names
stand together after one hyphen, the last of them with its value. Every option but the count of
verbosity is given at most once, and nothing else is accepted. -/

namespace WireLayout.Command

open WireLayout.Text

def version : String := "0.1.0"

inductive Setting where
  | sourceDirectory | packetsDirectory | output | label | apiKey | model | concurrency | timeoutSeconds
  deriving DecidableEq, Repr

inductive Switch where
  | offline | dryRun | force | verbose | help | version
  deriving DecidableEq, Repr

inductive OptionKind where
  | setting (s : Setting)
  | switch (s : Switch)
  deriving DecidableEq, Repr

def longNames : List (String × OptionKind) := [
  ("source-dir", .setting .sourceDirectory), ("packets-dir", .setting .packetsDirectory),
  ("output", .setting .output), ("label", .setting .label), ("api-key", .setting .apiKey),
  ("model", .setting .model), ("concurrency", .setting .concurrency),
  ("timeout-secs", .setting .timeoutSeconds), ("offline", .switch .offline),
  ("dry-run", .switch .dryRun), ("force", .switch .force), ("verbose", .switch .verbose),
  ("help", .switch .help), ("version", .switch .version)]

def shortNames : List (Char × OptionKind) := [
  ('s', .setting .sourceDirectory), ('o', .setting .output), ('v', .switch .verbose),
  ('h', .switch .help), ('V', .switch .version)]

structure Environment where
  apiKey : Option String := none
  model : Option String := none
  deriving DecidableEq, Repr

def modelVariable : String := "WIREGEO_MODEL"

structure Options where
  sourceDirectory : String
  packetsDirectory : String := "packets"
  output : String := "protocol-layout.json"
  label : String := "unknown"
  apiKey : Option String := none
  model : String := Oracle.defaultModel
  concurrency : Nat := 5
  timeoutSeconds : Nat := 120
  offline : Bool := false
  dryRun : Bool := false
  force : Bool := false
  verbosity : Nat := 0
  deriving DecidableEq, Repr

inductive Stop where
  | misused
  | help
  | version
  deriving DecidableEq, Repr

structure Given where
  settings : List (Setting × String) := []
  switches : List Switch := []
  deriving DecidableEq, Repr

def number? (text : String) : Option Nat := decimalUpTo? 0xFFFFFFFFFFFFFFFF text.toList

/-- The text is a value of the option: paths are not empty, and numbers are numbers. -/
def Setting.accepts (s : Setting) (value : String) : Bool :=
  match s with
  | .sourceDirectory | .output => value ≠ ""
  | .concurrency | .timeoutSeconds => (number? value).isSome
  | .packetsDirectory | .label | .apiKey | .model => true

namespace Given

def set (g : Given) (s : Setting) (value : String) : Except Stop Given :=
  if s.accepts value && (g.settings.lookup s).isNone then
    .ok { g with settings := (s, value) :: g.settings }
  else .error .misused

def turn (g : Given) (s : Switch) : Except Stop Given :=
  match s with
  | .help => .error .help
  | .version => .error .version
  | .verbose => .ok { g with switches := s :: g.switches }
  | s => if g.switches.contains s then .error .misused else .ok { g with switches := s :: g.switches }

/-- Reads an argument after two hyphens: the options it completes, and the one that waits for a value. -/
def long (g : Given) (argument : List Char) : Except Stop (Given × Option Setting) :=
  let name := String.ofList (argument.takeWhile (· ≠ '='))
  match longNames.lookup name, argument.dropWhile (· ≠ '=') with
  | some (.setting s), _ :: value => (g.set s (String.ofList value)).map (·, none)
  | some (.setting s), [] => .ok (g, some s)
  | some (.switch s), [] => (g.turn s).map (·, none)
  | _, _ => .error .misused

/-- Reads the short names after one hyphen. The rest after an option with a value is the value. -/
def short (g : Given) : List Char → Except Stop (Given × Option Setting)
  | [] => .ok (g, none)
  | c :: rest =>
    match shortNames.lookup c with
    | some (.switch s) => do short (← g.turn s) rest
    | some (.setting s) =>
      match rest with
      | [] => .ok (g, some s)
      | '=' :: value => (g.set s (String.ofList value)).map (·, none)
      | value => (g.set s (String.ofList value)).map (·, none)
    | none => .error .misused

def isPlain : List Char → Bool
  | '-' :: rest => rest.isEmpty
  | _ => true

/-- Reads the arguments in order. `waiting` is the option whose value is due. -/
def read (g : Given) (waiting : Option Setting) : List String → Except Stop Given
  | [] => if waiting.isNone then .ok g else .error .misused
  | argument :: rest =>
    match waiting, argument.toList with
    | some s, cs => do if isPlain cs then read (← g.set s argument) none rest else .error .misused
    | none, ['-', '-'] => if rest.isEmpty then .ok g else .error .misused
    | none, '-' :: '-' :: cs => do
      let (g, waiting) ← g.long cs
      read g waiting rest
    | none, '-' :: c :: cs => do
      let (g, waiting) ← g.short (c :: cs)
      read g waiting rest
    | none, _ => .error .misused

end Given

namespace Options

/-- The options that were given, with defaults for the others. The root of the sources is required. -/
def ofGiven (environment : Environment) (g : Given) : Except Stop Options :=
  match g.settings.lookup .sourceDirectory with
  | none => .error .misused
  | some sourceDirectory =>
    let or (s : Setting) (default : String) : String := (g.settings.lookup s).getD default
    let orNumber (s : Setting) (default : Nat) : Nat :=
      ((g.settings.lookup s).bind number?).getD default
    let defaults : Options := { sourceDirectory }
    .ok {
      sourceDirectory
      packetsDirectory := or .packetsDirectory defaults.packetsDirectory
      output := or .output defaults.output
      label := or .label defaults.label
      apiKey := g.settings.lookup .apiKey <|> environment.apiKey
      model := or .model (environment.model.getD defaults.model)
      concurrency := orNumber .concurrency defaults.concurrency
      timeoutSeconds := orNumber .timeoutSeconds defaults.timeoutSeconds
      offline := g.switches.contains .offline
      dryRun := g.switches.contains .dryRun
      force := g.switches.contains .force
      verbosity := g.switches.count .verbose }

def ofArguments (environment : Environment) (arguments : List String) : Except Stop Options := do
  ofGiven environment (← Given.read {} none arguments)

end Options

end WireLayout.Command
