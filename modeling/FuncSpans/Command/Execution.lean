import FuncSpans.Command.Settings
import FuncSpans.Project.File
import FuncSpans.Run

/-!
# Executing a command

A command reads the project's settings, counts, renders a report and writes it. If a step
fails, nothing has been written, and the exit code says which step it was. Its run may have several
answers (`Run.Answers`), and so a command may have several outcomes (`Outcomes`); `executeOn` goes on
from the answer that `runOn` has.
-/

namespace FuncSpans.Command

/-- What a command leaves behind. -/
structure Outcome where
  exitCode : Nat
  stdout : String
  stderr : String
  files : FileSystem

/-- What a command is executed on. -/
structure Host where
  /-- The part of a text that is shown before writing it to standard output fails, if it fails. -/
  cutOff? : String → Option String
  pool : Pool

/-- A host that shows every text and starts all threads. -/
def Host.sound : Host := ⟨fun _ => none, .ready⟩

/-- The report of a command. -/
def report (host : Host) (fs : FileSystem) (a : Arguments) : Except CommandError String :=
  let root := Path.ofString a.path
  match Settings.resolve a (ProjectSettings.load fs root) with
  | .error e => .error e
  | .ok settings => match runOn host.pool fs settings.run root with
    | .error e => .error (.run e)
    | .ok store => .ok ((Report.ofStore store settings.statistics).render settings.format)

/-- The outcome of a command that failed after it had shown something. -/
def failureAfter (shown : String) (fs : FileSystem) (e : CommandError) : Outcome :=
  ⟨e.exitCode, shown, "✗ " ++ e.message ++ "\n", fs⟩

/-- The outcome of a command that failed. -/
def failure (fs : FileSystem) (e : CommandError) : Outcome := failureAfter "" fs e

/-- Writes a report to the file that it is for, or shows it if there is none. -/
def deliver (host : Host) (fs : FileSystem) (a : Arguments) (text : String) : Outcome :=
  match a.output with
  | none => match host.cutOff? text with
    | none => ⟨0, text, "", fs⟩
    | some shown => failureAfter shown fs (.write "Failed to write to stdout")
  | some output => match fs.write (Path.ofString output) (Utf8.ofString text) with
    | .ok fs => ⟨0, "", "", fs⟩
    | .error _ => failure fs (.write ("Failed to write " ++ output))

/-- Executes a command on a host. -/
def executeOn (host : Host) (fs : FileSystem) (a : Arguments) : Outcome :=
  match report host fs a with
  | .error e => failure fs e
  | .ok text => deliver host fs a text

/-- What a command may leave behind: it goes on from any answer that its run may have. -/
inductive Outcomes (host : Host) (fs : FileSystem) (a : Arguments) : Outcome → Prop
  | unresolved {e : CommandError} :
      Settings.resolve a (ProjectSettings.load fs (Path.ofString a.path)) = .error e →
      Outcomes host fs a (failure fs e)
  | failed {settings : Settings} {e : RunError} :
      Settings.resolve a (ProjectSettings.load fs (Path.ofString a.path)) = .ok settings →
      Run.Answers host.pool fs settings.run (Path.ofString a.path) (.error e) →
      Outcomes host fs a (failure fs (.run e))
  | counted {settings : Settings} {store : Store} :
      Settings.resolve a (ProjectSettings.load fs (Path.ofString a.path)) = .ok settings →
      Run.Answers host.pool fs settings.run (Path.ofString a.path) (.ok store) →
      Outcomes host fs a
        (deliver host fs a ((Report.ofStore store settings.statistics).render settings.format))

/-- Executes a command. -/
def execute (fs : FileSystem) (a : Arguments) : Outcome := executeOn .sound fs a

end FuncSpans.Command
