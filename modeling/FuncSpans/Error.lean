import FuncSpans.Path.Basic

/-!
# Errors

The causes for which a run or a command fails, their texts, and the exit code of a command.
-/

namespace FuncSpans

/-- Why files could not be counted. -/
inductive RunError where
  | notFound (path : Path)
  | notAGoFile (path : Path)
  | unreadable (path : Path) (reason : String)
  /-- A syntax error, at a line and a column. -/
  | syntaxError (path : Path) (line column : Nat)
  | badPattern (pattern reason : String)
  /-- The files could not be collected. -/
  | walk (reason : String)
  /-- The threads that read files could not be started. -/
  | pool (reason : String)
  /-- A failure of the grammar itself. -/
  | grammar (reason : String)
  deriving DecidableEq

namespace RunError

def message : RunError → String
  | notFound path => "no such file or directory: " ++ path.display
  | notAGoFile path => "not a go file: " ++ path.display
  | unreadable path reason => "failed to read " ++ path.display ++ ": " ++ reason
  | syntaxError path line column =>
    path.display ++ ":" ++ toString line ++ ":" ++ toString column ++ ": syntax error"
  | badPattern pattern reason => "invalid exclude pattern '" ++ pattern ++ "': " ++ reason
  | walk reason => "failed to walk source tree: " ++ reason
  | pool reason => "failed to build worker pool: " ++ reason
  | grammar reason => "Go grammar error: " ++ reason

end RunError

/-- Why a command failed. -/
inductive CommandError where
  | invalidOption (reason : String)
  | run (error : RunError)
  | render (reason : String)
  | write (reason : String)
  deriving DecidableEq

namespace CommandError

def message : CommandError → String
  | invalidOption reason => "invalid option: " ++ reason
  | run error => error.message
  | render reason => reason
  | write reason => reason

def exitCode : CommandError → Nat
  | invalidOption _ => 2
  | run _ => 3
  | render _ => 4
  | write _ => 5

end CommandError

end FuncSpans
