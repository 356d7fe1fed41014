import FuncSpans.Ignore.Glob
import FuncSpans.Text.Character

/-!
# Rules

A line of an ignore file is a rule: a glob, whether a match skips or keeps an entry, and
whether it is about directories only. Blank lines and comments are no rules.
-/

namespace FuncSpans

/-- What is decided of an entry. -/
inductive Verdict where
  | skip
  | keep
  deriving DecidableEq, Repr

/-- A rule about the paths below a directory. -/
structure Rule where
  glob : Glob
  verdict : Verdict
  /-- Whether only directories can match. -/
  directoriesOnly : Bool

namespace Rule

/-- A line without the white space at its end, which counts only after a backslash. -/
def trimmed (line : List Char) : List Char :=
  if ['\\', ' '].isSuffixOf line then line else Text.trimEnd line

/-- What the marks around the glob of a line say. -/
structure Marks where
  verdict : Verdict
  /-- Whether the glob is about entries of the directory itself. -/
  anchored : Bool
  directoriesOnly : Bool
  /-- The line without its marks. -/
  glob : List Char
  deriving Repr

namespace Marks

/-- Takes the slash off the end, and a backslash before it. -/
def cutEnd (line : List Char) : Bool × List Char :=
  match line.reverse with
  | '/' :: '\\' :: rest => (true, rest.reverse)
  | '/' :: rest => (true, rest.reverse)
  | _ => (false, line)

/-- Takes a leading `!` and then a leading `/` off; a backslash before `!` or `#` takes their
meaning away. -/
def ofLine (line : List Char) : Marks :=
  let (verdict, anchored, body) : Verdict × Bool × List Char := match line with
    | '\\' :: '!' :: rest => (.skip, false, '!' :: rest)
    | '\\' :: '#' :: rest => (.skip, false, '#' :: rest)
    | '!' :: '/' :: rest => (.keep, true, rest)
    | '!' :: rest => (.keep, false, rest)
    | '/' :: rest => (.skip, true, rest)
    | rest => (.skip, false, rest)
  let (directoriesOnly, glob) := cutEnd body
  ⟨verdict, anchored, directoriesOnly, glob⟩

/-- Whether a glob starts with `**` as a whole part of a path. -/
def startsAnywhere (glob : List Char) : Bool :=
  ['*', '*', '/'].isPrefixOf glob || glob == ['*', '*']

/-- The glob for the path below the directory of the rule. A glob without a slash is about
names at any depth, and one that ends in `/**` is about what is inside a directory only. -/
def wholeGlob (m : Marks) : List Char :=
  let glob :=
    if !m.anchored && !m.glob.contains '/' && !startsAnywhere m.glob then
      '*' :: '*' :: '/' :: m.glob
    else m.glob
  if ['/', '*', '*'].isSuffixOf glob then glob ++ ['/', '*'] else glob

end Marks

/-- Reads a line that is neither blank nor a comment. -/
def ofMarks (lenient : Bool) (m : Marks) : Except GlobError Rule :=
  match Glob.read lenient m.wholeGlob with
  | .error e => .error e
  | .ok glob => .ok ⟨glob, m.verdict, m.directoriesOnly⟩

/-- Reads a line. If `lenient`, a bracket that is not closed stands for itself. -/
def ofLine? (lenient : Bool) (line : List Char) : Except GlobError (Option Rule) :=
  if line.head? = some '#' then .ok none
  else match trimmed line with
    | [] => .ok none
    | line => match ofMarks lenient (Marks.ofLine line) with
      | .error e => .error e
      | .ok rule => .ok (some rule)

/-- Whether a rule is about an entry. -/
def applies (r : Rule) (path : Bytes) (isDirectory : Bool) : Bool :=
  (!r.directoriesOnly || isDirectory) && r.glob.matchesText path

end Rule

end FuncSpans
