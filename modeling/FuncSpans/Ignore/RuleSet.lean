import FuncSpans.Ignore.Rule
import FuncSpans.Path.Basic

/-!
# Rule sets

The rules of one ignore file, or of one list of patterns, are about the paths below one
directory. Of the rules that apply to an entry the last one decides.
-/

namespace FuncSpans

/-- Rules about the paths below a directory. -/
structure RuleSet where
  /-- The directory as its entries' paths name it. -/
  base : Path
  rules : List Rule

namespace RuleSet

/-- The text without a given start, if it starts so. -/
def dropStart (start text : Bytes) : Bytes :=
  if start.isPrefixOf text then text.drop start.length else text

/-- A path without one `./` in front. -/
def dropDotSlash (p : Path) : Path := dropStart [Path.stop, Path.slash] p

/-- A path without one slash in front. -/
def dropSlash (p : Path) : Path := dropStart [Path.slash] p

/-- The path of the current directory. -/
def here : Path := [Path.stop]

/-- A path below a directory, relative to it. -/
def relativeTo (base path : Path) : Path :=
  let path := dropDotSlash path
  if base.equivalent here || !path.contains Path.slash then path
  else if base.isPrefixOf path then dropSlash (path.drop base.length)
  else path

/-- What the rules decide of an entry, if any applies. -/
def verdict? (s : RuleSet) (path : Path) (isDirectory : Bool) : Option Verdict :=
  let path := relativeTo s.base path
  (s.rules.reverse.find? (·.applies path isDirectory)).map (·.verdict)

/-- The rules about a directory that has none. -/
def empty (directory : Path) : RuleSet := ⟨dropDotSlash directory, []⟩

/-- What is said of a line with an invalid glob. -/
def globMessage (line : List Char) (e : GlobError) : String :=
  "error parsing glob '" ++ String.ofList (Rule.trimmed line) ++ "': " ++ e.message

/-! ## Ignore files -/

/-- The lines of a file. A line may end in a carriage return and a line feed. -/
def linesOf : Bytes → List Bytes
  | [] => []
  | b :: bs =>
    if b = 0x0A then [] :: linesOf bs
    else match bs, linesOf bs with
      | 0x0A :: _, l :: ls => (if b = 0x0D then l else b :: l) :: ls
      | _, l :: ls => (b :: l) :: ls
      | _, [] => [[b]]

/-- The lines that are text, up to the first that is not. -/
def textLines : List Bytes → List (List Char)
  | [] => []
  | l :: ls => match Utf8.decode? l with
    | some text => text :: textLines ls
    | none => []

/-- The lines without a byte order mark at the start of the first one. -/
def withoutMark : List (List Char) → List (List Char)
  | [] => []
  | l :: ls => l.dropWhile (· == '\uFEFF') :: ls

/-- The rule of a line of an ignore file; a line with an invalid glob is none. -/
def ruleOf? (line : List Char) : Option Rule :=
  match Rule.ofLine? true line with
  | .ok rule => rule
  | .error _ => none

/-- The lines of an ignore file that are read. -/
def readLines (content : Bytes) : List (List Char) := withoutMark (textLines (linesOf content))

/-- The rules of an ignore file about a directory. -/
def ofFile (directory : Path) (content : Bytes) : RuleSet :=
  ⟨dropDotSlash directory, (readLines content).filterMap ruleOf?⟩

/-- What is said of a line of a file. -/
def lineMessage (file : Path) (number : Nat) (reason : String) : String :=
  file.display ++ ": line " ++ toString number ++ ": " ++ reason

/-- What is said of the lines with an invalid glob; the first line has the given number. -/
def badLines (file : Path) : Nat → List (List Char) → List String
  | _, [] => []
  | number, line :: lines => match Rule.ofLine? true line with
    | .error e => lineMessage file number (globMessage line e) :: badLines file (number + 1) lines
    | .ok _ => badLines file (number + 1) lines

/-- What is said of an ignore file that has a line with an invalid glob. A line that is no text
is mentioned with such lines only. -/
def complaints (file : Path) (content : Bytes) : List String :=
  match badLines file 1 (readLines content) with
  | [] => []
  | bad =>
    let count := (readLines content).length
    bad ++ if count < (linesOf content).length then
      [lineMessage file (count + 1) "stream did not contain valid UTF-8"] else []

/-! ## Exclude patterns -/

/-- The line that an exclude pattern stands for. The mark in front keeps any mark of the
pattern itself from having a meaning, and its verdict is read as `skip`. -/
def excludeLine (pattern : String) : List Char := '!' :: pattern.toList

/-- The rules of some exclude patterns, or the first pattern that is invalid and why. -/
def excludeRules : List String → Except (String × String) (List Rule)
  | [] => .ok []
  | pattern :: patterns =>
    match Rule.ofLine? false (excludeLine pattern) with
    | .error e => .error (pattern, globMessage (excludeLine pattern) e)
    | .ok rule => match excludeRules patterns with
      | .error e => .error e
      | .ok rules => .ok ((rule.map fun r => { r with verdict := .skip }).toList ++ rules)

/-- The rule set of some exclude patterns about a directory. -/
def ofPatterns (directory : Path) (patterns : List String) :
    Except (String × String) RuleSet :=
  match excludeRules patterns with
  | .error e => .error e
  | .ok rules => .ok ⟨dropDotSlash directory, rules⟩

end RuleSet

end FuncSpans
