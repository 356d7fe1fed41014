/-!
# What can be given on the command line

A `Slot` is the path or one of the options. An option has a long name, perhaps a short one,
and perhaps a value.
-/

namespace FuncSpans.Command

/-- A place for an argument. -/
inductive Slot where
  | path
  | includeTests
  | outputFormat
  | statistics
  | grouping
  | output
  | exclude
  | noGitignore
  | workers
  | logLevel
  | help
  | version
  deriving DecidableEq, Repr

namespace Slot

/-- All options. -/
def options : List Slot :=
  [includeTests, outputFormat, statistics, grouping, output, exclude, noGitignore, workers,
    logLevel, help, version]

/-- The name after two dashes; the path has none. -/
def longName : Slot → String
  | path => ""
  | includeTests => "include-tests"
  | outputFormat => "output-format"
  | statistics => "stats"
  | grouping => "group-by"
  | output => "output"
  | exclude => "exclude"
  | noGitignore => "no-gitignore"
  | workers => "workers"
  | logLevel => "log-level"
  | help => "help"
  | version => "version"

/-- The letter after one dash. -/
def shortName? : Slot → Option Char
  | outputFormat => some 'f'
  | output => some 'o'
  | help => some 'h'
  | version => some 'V'
  | _ => none

/-- What the value is called. -/
def valueName? : Slot → Option String
  | path => some "PATH"
  | outputFormat => some "OUTPUT_FORMAT"
  | grouping => some "GROUP_BY"
  | output => some "OUTPUT"
  | exclude => some "EXCLUDE"
  | workers => some "WORKERS"
  | logLevel => some "LOG_LEVEL"
  | _ => none

/-- Whether there is a value. -/
def takesValue (s : Slot) : Bool := s.valueName?.isSome

/-- Whether it can be given more than once. -/
def isRepeatable (s : Slot) : Bool := s == exclude

/-- How messages call it. -/
def label (s : Slot) : String :=
  match s, s.valueName? with
  | path, some v => "<" ++ v ++ ">"
  | s, some v => "--" ++ s.longName ++ " <" ++ v ++ ">"
  | s, none => "--" ++ s.longName

/-- The option with a long name. -/
def ofLongName? (name : List Char) : Option Slot := options.find? (·.longName.toList == name)

/-- The option with a short name. -/
def ofShortName? (c : Char) : Option Slot := options.find? (·.shortName? == some c)

end Slot

end FuncSpans.Command
