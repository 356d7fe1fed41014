import FuncSpans.Command.Usage
import FuncSpans.Report.Format

/-!
# Arguments

A command line is read from the left. An option without an attached value waits for the next
argument, which is its value unless it looks like an option itself. A value is checked only
when the next argument is accepted, so an unknown argument is reported before a wrong value in
front of it.
-/

namespace FuncSpans

/-- How much is logged. -/
inductive LogLevel where
  | error
  | warn
  | info
  | debug
  | trace
  deriving DecidableEq, Repr

namespace LogLevel

def name : LogLevel → String
  | .error => "error"
  | .warn => "warn"
  | .info => "info"
  | .debug => "debug"
  | .trace => "trace"

/-- The level of exactly this name. -/
def named? (s : String) : Option LogLevel :=
  [LogLevel.error, .warn, .info, .debug, .trace].find? (·.name == s)

end LogLevel

namespace Command

/-- What a command line says. -/
structure Arguments where
  path : String
  includeTests : Bool
  format : Option Format
  statistics : Bool
  grouping : Option Grouping
  /-- The file to write to. -/
  output : Option String
  exclude : List String
  noGitignore : Bool
  workers : Option Nat
  logLevel : LogLevel
  deriving DecidableEq, Repr

/-- What has been given so far. -/
structure Given where
  path : Option String
  includeTests : Bool
  format : Option Format
  statistics : Bool
  grouping : Option Grouping
  output : Option String
  exclude : List String
  noGitignore : Bool
  workers : Option Nat
  logLevel : Option LogLevel
  deriving DecidableEq, Repr

namespace Given

def nothing : Given := ⟨none, false, none, false, none, none, [], false, none, none⟩

/-- Whether a slot has been given. -/
def has (g : Given) : Slot → Bool
  | .path => g.path.isSome
  | .includeTests => g.includeTests
  | .outputFormat => g.format.isSome
  | .statistics => g.statistics
  | .grouping => g.grouping.isSome
  | .output => g.output.isSome
  | .exclude => !g.exclude.isEmpty
  | .noGitignore => g.noGitignore
  | .workers => g.workers.isSome
  | .logLevel => g.logLevel.isSome
  | .help | .version => false

/-- The largest number that can be read. -/
def largestNumber : Nat := UInt64.size - 1

/-- The number of workers that a text spells. -/
def workersOf (value : String) : Except WorkersFault Nat :=
  let digits := match value.toList with
    | '+' :: ds => ds
    | ds => ds
  let n := digits.foldl (fun n d => n * 10 + (d.toNat - '0'.toNat)) 0
  if digits.isEmpty || !digits.all Char.isDigit || largestNumber < n then .error .notANumber
  else if n = 0 then .error .tooFew
  else if 64 < n then .error .tooMany
  else .ok n

/-- The value of one of some names. -/
def choice {α : Type} (slot : Slot) (named? : String → Option α) (value : String) :
    Except Halt α :=
  match named? value with
  | some x => .ok x
  | none => .error (.misuse (.invalidValue value slot))

/-- A value that is not empty. -/
def nonempty (slot : Slot) (value : String) : Except Halt String :=
  if value = "" then .error (.misuse (.missingValue slot)) else .ok value

/-- Gives a value to a slot that has one. -/
def setValue (g : Given) (slot : Slot) (value : String) : Except Halt Given :=
  match slot with
  | .path => (nonempty slot value).map fun v => { g with path := some v }
  | .output => (nonempty slot value).map fun v => { g with output := some v }
  | .exclude => .ok { g with exclude := g.exclude ++ [value] }
  | .outputFormat => (choice slot Format.named? value).map fun v => { g with format := some v }
  | .grouping => (choice slot Grouping.named? value).map fun v => { g with grouping := some v }
  | .logLevel => (choice slot LogLevel.named? value).map fun v => { g with logLevel := some v }
  | .workers => match workersOf value with
    | .ok n => .ok { g with workers := some n }
    | .error fault => .error (.misuse (.refusedWorkers value fault))
  | _ => .error (.misuse (.unwantedValue value slot))

/-- Gives an option that has no value. -/
def setFlag (g : Given) (slot : Slot) : Except Halt Given :=
  match slot with
  | .includeTests => .ok { g with includeTests := true }
  | .statistics => .ok { g with statistics := true }
  | .noGitignore => .ok { g with noGitignore := true }
  | .help => .error .help
  | .version => .error .version
  | _ => .error (.misuse (.missingValue slot))

/-- Gives a slot, with a value if there is one. -/
def give (g : Given) (slot : Slot) (value : Option String) : Except Halt Given :=
  if slot.takesValue && value.isNone then .error (.misuse (.missingValue slot))
  else if g.has slot && !slot.isRepeatable then .error (.misuse (.repeated slot))
  else match value with
    | some v => g.setValue slot v
    | none => g.setFlag slot

end Given

/-- A command line under way. -/
structure Scan where
  given : Given
  /-- A slot that is still to be given, and its value if that has been read. -/
  pending : Option (Slot × Option String)

namespace Scan

def start : Scan := ⟨.nothing, none⟩

/-- Gives the slot that is still to be given. -/
def settle (s : Scan) : Except Halt Scan :=
  match s.pending with
  | none => .ok s
  | some (slot, value) => (s.given.give slot value).map (⟨·, none⟩)

/-- Gives a slot after the one that is still to be given. -/
def give (s : Scan) (slot : Slot) (value : Option String) : Except Halt Scan :=
  match s.settle with
  | .error e => .error e
  | .ok s => (s.given.give slot value).map (⟨·, none⟩)

/-- Leaves a slot to be given later. -/
def await (s : Scan) (slot : Slot) (value : Option String) : Except Halt Scan :=
  s.settle.map fun s => { s with pending := some (slot, value) }

/-- Reads an option that has a value. -/
def option (s : Scan) (slot : Slot) (attached : Option String) : Except Halt Scan :=
  match attached with
  | some v => s.give slot (some v)
  | none => s.await slot none

/-- Reads what follows two dashes. -/
def long (s : Scan) (cs : List Char) : Except Halt Scan :=
  let name := cs.takeWhile (· != '=')
  let attached := match cs.dropWhile (· != '=') with
    | [] => none
    | _ :: value => some (String.ofList value)
  match Slot.ofLongName? name with
  | none => .error (.misuse (.unknown (String.ofList ('-' :: '-' :: name))))
  | some slot =>
    if slot.takesValue then s.option slot attached
    else match attached with
      | some v => .error (.misuse (.unwantedValue v slot))
      | none => s.give slot none

/-- Reads what follows one dash. -/
def short (s : Scan) : List Char → Except Halt Scan
  | [] => .ok s
  | c :: cs => match Slot.ofShortName? c with
    | none => .error (.misuse (.unknown (String.ofList ['-', c])))
    | some slot =>
      if slot.takesValue then
        s.option slot (match cs with
          | [] => none
          | '=' :: value => some (String.ofList value)
          | value => some (String.ofList value))
      else match s.give slot none with
        | .error e => .error e
        | .ok s => short s cs

/-- Whether the path has been read. -/
def hasPath (s : Scan) : Bool :=
  s.given.path.isSome ||
    match s.pending with
    | some (.path, _) => true
    | _ => false

/-- Reads an argument that is no option and no value of one. -/
def positional (s : Scan) (argument : String) : Except Halt Scan :=
  if s.hasPath then .error (.misuse (.unknown argument)) else s.await .path (some argument)

/-- Reads an argument. -/
def argument (s : Scan) (a : String) : Except Halt Scan :=
  match a.toList with
  | '-' :: '-' :: cs => s.long cs
  | '-' :: c :: cs => s.short (c :: cs)
  | _ => match s.pending with
    | some (slot, none) => .ok { s with pending := some (slot, some a) }
    | _ => s.positional a

/-- Reads arguments that cannot be options. -/
def positionals : List String → Scan → Except Halt Scan
  | [], s => s.settle
  | a :: as, s => match s.positional a with
    | .error e => .error e
    | .ok s => positionals as s

/-- Reads arguments; after two dashes alone none can be an option. -/
def arguments : List String → Scan → Except Halt Scan
  | [], s => s.settle
  | a :: as, s =>
    if a = "--" then positionals as s
    else match s.argument a with
      | .error e => .error e
      | .ok s => arguments as s

end Scan

/-- Reads a command line. -/
def Arguments.read (args : List String) : Except Halt Arguments :=
  match Scan.arguments args .start with
  | .error e => .error e
  | .ok s => match s.given.path with
    | none => .error (.misuse .missingPath)
    | some path => .ok {
        path
        includeTests := s.given.includeTests
        format := s.given.format
        statistics := s.given.statistics
        grouping := s.given.grouping
        output := s.given.output
        exclude := s.given.exclude
        noGitignore := s.given.noGitignore
        workers := s.given.workers
        logLevel := s.given.logLevel.getD .warn }

end Command

end FuncSpans
