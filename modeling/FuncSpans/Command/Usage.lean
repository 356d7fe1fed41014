import FuncSpans.Command.Slot

/-!
# Usage

What is wrong with a command line, and the texts that a command shows instead of running.
-/

namespace FuncSpans.Command

/-- Why a number of workers is refused. -/
inductive WorkersFault where
  | notANumber
  | tooFew
  | tooMany
  deriving DecidableEq, Repr

def WorkersFault.message (value : String) : WorkersFault → String
  | .notANumber => "'" ++ value ++ "' is not a valid number"
  | .tooFew => "workers must be at least 1"
  | .tooMany => "workers cannot exceed 64"

/-- What is wrong with a command line. -/
inductive UsageError where
  | missingPath
  /-- An argument that nothing stands for. -/
  | unknown (argument : String)
  /-- A value that the slot does not have. -/
  | invalidValue (value : String) (slot : Slot)
  | missingValue (slot : Slot)
  | refusedWorkers (value : String) (fault : WorkersFault)
  | repeated (slot : Slot)
  /-- A value for an option that has none. -/
  | unwantedValue (value : String) (slot : Slot)
  deriving DecidableEq, Repr

/-- What is said of a value that is missing. -/
def missingValueMessage (slot : Slot) : String :=
  "error: a value is required for '" ++ slot.label ++ "' but none was supplied"

/-- What is said of a wrong command line. An empty value counts as missing. -/
def UsageError.message : UsageError → String
  | .missingPath => "error: the following required arguments were not provided:"
  | .unknown argument => "error: unexpected argument '" ++ argument ++ "' found"
  | .invalidValue value slot =>
    if value = "" then missingValueMessage slot
    else "error: invalid value '" ++ value ++ "' for '" ++ slot.label ++ "'"
  | .missingValue slot => missingValueMessage slot
  | .refusedWorkers value fault =>
    "error: invalid value '" ++ value ++ "' for '" ++ Slot.workers.label ++ "': " ++
      fault.message value
  | .repeated slot => "error: the argument '" ++ slot.label ++ "' cannot be used multiple times"
  | .unwantedValue value slot =>
    "error: unexpected value '" ++ value ++ "' for '" ++ slot.label ++
      "' found; no more were expected"

/-- Why a command does not run. -/
inductive Halt where
  /-- The help was asked for. -/
  | help
  /-- The version was asked for. -/
  | version
  | misuse (e : UsageError)
  deriving DecidableEq, Repr

def versionText : String := "gofuncount 0.1.0\n"

/-- The lines of the help. -/
def helpLines : List String := [
  "Count the line spans of Go functions per directory or package",
  "",
  "Usage: gofuncount [OPTIONS] <PATH>",
  "",
  "Arguments:",
  "  <PATH>  File or directory to count",
  "",
  "Options:",
  "      --include-tests                  Include _test.go files",
  "  -f, --output-format <OUTPUT_FORMAT>  Output format: json, csv, text [possible values: json, csv, text]",
  "      --stats                          Print per-group statistics instead of raw records",
  "      --group-by <GROUP_BY>            Group functions by directory or by package name [possible values: directory, package]",
  "  -o, --output <OUTPUT>                Output file path (default: stdout)",
  "      --exclude <EXCLUDE>              Exclude paths matching this gitignore-style pattern (repeatable)",
  "      --no-gitignore                   Do not honor .gitignore and .ignore files",
  "      --workers <WORKERS>              Number of parallel parser threads (1-64)",
  "      --log-level <LOG_LEVEL>          Log level (error, warn, info, debug, trace); RUST_LOG takes precedence [default: warn] [possible values: error, warn, info, debug, trace]",
  "  -h, --help                           Print help",
  "  -V, --version                        Print version",
  "",
  "Examples:",
  "  gofuncount .                             Raw records for the current module as JSON",
  "  gofuncount . --stats                     Mean, median, 95th and 99th percentile per directory",
  "  gofuncount . --stats --group-by package  Summaries per package name",
  "  gofuncount main.go -f csv                One file, CSV output",
  "  gofuncount . --include-tests -o out.json Include _test.go files, write to a file"]

def helpText : String := String.join (helpLines.map (· ++ "\n"))

namespace Halt

/-- What is shown. -/
def text : Halt → String
  | .help => helpText
  | .version => versionText
  | .misuse e => e.message

def exitCode : Halt → Nat
  | .help | .version => 0
  | .misuse _ => 2

end Halt

end FuncSpans.Command
