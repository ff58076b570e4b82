import WireLayout.Command.Options

/-! The texts that describe the command. -/

namespace WireLayout.Command

def name : String := "wiregeo"

def usageLine : String := s!"Usage: {name} [OPTIONS] --source-dir <SOURCE_DIR>"

/-- What the command does, how it is called, and each option with its description. -/
def helpText (environment : Environment) : String :=
  "Recover and document binary wire layouts from decompiled protocol sources\n\n" ++ usageLine ++
  "\n\nOptions:\n" ++
  "  -s, --source-dir <SOURCE_DIR>\n" ++
  "          Root directory of the decompiled sources\n" ++
  "      --packets-dir <PACKETS_DIR>\n" ++
  "          Sub-directory of the root holding message sources [default: packets]\n" ++
  "  -o, --output <OUTPUT>\n" ++
  "          Path of the JSON summary to write [default: protocol-layout.json]\n" ++
  "      --label <LABEL>\n" ++
  "          Version label recorded in the summary [default: unknown]\n" ++
  "      --api-key <API_KEY>\n" ++
  s!"          API key for the inference oracle [env: {Oracle.keyVariable}]\n" ++
  "      --model <MODEL>\n" ++
  "          Model identifier for the inference oracle [env: " ++ modelVariable ++ "=" ++
    environment.model.getD "" ++ "] [default:\n" ++
  s!"          {Oracle.defaultModel}]\n" ++
  "      --concurrency <CONCURRENCY>\n" ++
  "          Maximum number of concurrent inference calls [default: 5]\n" ++
  "      --timeout-secs <TIMEOUT_SECS>\n" ++
  "          Deadline per inference call in seconds (0 = no deadline) [default: 120]\n" ++
  "      --offline\n" ++
  "          Use pattern matching only, never contact the oracle\n" ++
  "      --dry-run\n" ++
  "          Dry run - don't write the summary, just show what would be written\n" ++
  "      --force\n" ++
  "          Overwrite an existing summary\n" ++
  "  -v, --verbose...\n" ++
  "          Verbosity level (-v, -vv, -vvv)\n" ++
  "  -h, --help\n" ++
  "          Print help\n" ++
  "  -V, --version\n" ++
  "          Print version"

def versionText : String := s!"{name} {version}"

def misuseText : String := s!"error: the arguments are not understood\n\n{usageLine}\n"

end WireLayout.Command
