import FuncSpans.Command.Arguments
import FuncSpans.Error
import FuncSpans.Project.Settings

/-!
# Settings of a command

What the command line says comes before what the project says, and that before the standard
settings. Flags can only be set, and patterns to exclude are added.
-/

namespace FuncSpans.Command

/-- What a command does. -/
structure Settings where
  run : RunSettings
  format : Format
  /-- Whether summaries are shown in place of records. -/
  statistics : Bool
  deriving DecidableEq, Repr

namespace Settings

/-- The format if nobody says otherwise. -/
def standardFormat : Format := .json

/-- The settings of a run. -/
def runSettings (a : Arguments) (p : ProjectSettings) : RunSettings where
  includeTests := p.runSettings.includeTests || a.includeTests
  grouping := a.grouping.getD p.runSettings.grouping
  exclude := ProjectSettings.addPatterns p.runSettings.exclude a.exclude
  respectIgnoreFiles := p.runSettings.respectIgnoreFiles && !a.noGitignore
  workers := a.workers.getD p.runSettings.workers

/-- The format, whose name a project may have wrong. -/
def format? (a : Arguments) (p : ProjectSettings) : Except CommandError Format :=
  match a.format, p.format with
  | some f, _ => .ok f
  | none, none => .ok standardFormat
  | none, some name => match Format.ofName? name with
    | some f => .ok f
    | none => .error (.invalidOption (Format.unknownMessage name))

/-- The settings that a command line and a project come to. -/
def resolve (a : Arguments) (p : ProjectSettings) : Except CommandError Settings :=
  match format? a p with
  | .error e => .error e
  | .ok format => .ok ⟨runSettings a p, format, a.statistics || p.statistics.getD false⟩

end Settings

end FuncSpans.Command
