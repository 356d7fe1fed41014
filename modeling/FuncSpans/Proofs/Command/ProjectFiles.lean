import FuncSpans.Proofs.Command.Execution
import FuncSpans.Proofs.Project.Loading
import FuncSpans.Proofs.Run.Removal

/-!
# Project files and commands

A project file has no influence on a command but through the settings that are loaded from it
(`executeOn_without`). So a file that cannot be loaded might as well be missing, and next to a
`gofuncount.toml` that can be loaded it does not matter what `.gofuncountrc.json` holds, or whether
there is one (`projectFiles_independent`).
-/

namespace FuncSpans

/-! ## Loading without a file -/

namespace ProjectFile

/-- Where a project file that counts for a root is looked for. -/
def place? (fs : FileSystem) (root : Path) (f : ProjectFile) : Option (List Bytes) :=
  match fs.find (directoryOf fs root).clean with
  | .ok (.directory loc) => some (Location.way loc ++ [Path.ofString f.name])
  | _ => none

variable {fs : FileSystem} {root : Path} {place : List Bytes} {name : Bytes} {f g : ProjectFile}
  {s : ProjectSettings}

theorem exists_of_place? (h : f.place? fs root = some place) :
    ∃ loc, fs.find (directoryOf fs root).clean = .ok (.directory loc) ∧
      place = Location.way loc ++ [Path.ofString f.name] := by
  unfold place? at h
  split at h
  · rename_i loc hLoc
    exact ⟨loc, hLoc, (Option.some.inj h).symm⟩
  · cases h

theorem getLast?_of_place? (h : f.place? fs root = some place) :
    place.getLast? = some (Path.ofString f.name) := by
  obtain ⟨loc, -, rfl⟩ := exists_of_place? h
  simp

/-- Nothing is loaded from a file in its place whose content is of no use. -/
theorem Unusable.load?_eq_none_of_place? {content : Bytes} (h : f.Unusable content)
    (hPlace : f.place? fs root = some place) (hNode : fs.node? place = some (.file content)) :
    f.load? fs (directoryOf fs root) = none := by
  obtain ⟨loc, hLoc, rfl⟩ := exists_of_place? hPlace
  have hIn : fs.IsPlace loc := FileSystem.stands_of_target (FileSystem.find_eq_directory.mp hLoc)
  exact h.load?_eq_none hLoc ((hIn.node?_concat _).symm.trans hNode)

/-- No run looks for a project file. -/
theorem aside (hLast : place.getLast? = some (Path.ofString f.name))
    (hOnly : fs.FileOrNothing place) (hLinks : ¬ fs.LinksTo place) :
    Aside fs place (Path.ofString f.name) where
  fileOrNothing := hOnly
  not_linksTo := hLinks
  getLast?_eq := hLast
  isName := f.isName_name
  extension_ne := by cases f <;> decide
  notMem_way kind := by cases f <;> cases kind <;> decide

/-- Another project file is loaded as before. -/
theorem load?_without (h : Aside fs place (Path.ofString f.name)) (hNe : g ≠ f)
    (directory : Path) : g.load? (fs.without place) directory = g.load? fs directory := by
  have hOther : (directory.child (Path.ofString g.name)).fileName? ≠
      some (Path.ofString f.name) := by
    rw [Path.fileName?_child g.isName_name]
    revert hNe
    cases f <;> cases g <;> decide
  rw [load?, load?, FileSystem.readText, FileSystem.readText]
  rcases h.readBytes_without hOther with hSame | ⟨hBefore, hAfter⟩
  · rw [hSame]
  · rw [hBefore, hAfter]

/-- A project file that cannot be loaded cannot be loaded without some file either. -/
theorem load?_without_eq_none (hOnly : fs.FileOrNothing place) {directory : Path}
    (h : f.load? fs directory = none) : f.load? (fs.without place) directory = none := by
  rw [load?, FileSystem.readText] at h ⊢
  cases hRead : (fs.without place).readBytes (directory.child (Path.ofString f.name)) with
  | error e => rfl
  | ok content =>
    rw [FileSystem.readBytes_of_without hOnly hRead] at h
    exact h

/-- The project of a root is looked for in the same directory. -/
theorem directoryOf_without (h : Aside fs place name) (hRoot : IsRoot fs root) :
    directoryOf (fs.without place) root = directoryOf fs root := by
  have hFile : (fs.without place).isFile root = fs.isFile root := by
    rw [FileSystem.isFile, FileSystem.isFile]
    cases hRoot with
    | directory hDirectory =>
      rw [hDirectory, FileSystem.find_directory_without h.fileOrNothing hDirectory]
    | file hFile hGo => rw [hFile, h.find_file_without hGo hFile]
  rw [directoryOf, directoryOf, hFile]

end ProjectFile

namespace ProjectSettings

variable {fs : FileSystem} {root : Path} {place : List Bytes} {s : ProjectSettings}

/-- All settings of a project come from the first file, if it can be loaded. -/
theorem load_of_toml (h : ProjectFile.toml.load? fs (ProjectFile.directoryOf fs root) = some s) :
    ProjectSettings.load fs root = s := by
  simp [ProjectSettings.load, ProjectFile.all, h]

/-- Otherwise they come from the second one, if that can be loaded. -/
theorem load_of_json (h : ProjectFile.toml.load? fs (ProjectFile.directoryOf fs root) = none) :
    ProjectSettings.load fs root =
      (ProjectFile.json.load? fs (ProjectFile.directoryOf fs root)).getD .silent := by
  rw [ProjectSettings.load, ProjectFile.all, List.findSome?_cons, h, List.findSome?_cons]
  cases ProjectFile.json.load? fs (ProjectFile.directoryOf fs root) <;> rfl

/-- Without a file that cannot be loaded the same settings are loaded. -/
theorem load_without_rejected {f : ProjectFile} (h : Aside fs place (Path.ofString f.name))
    (hRoot : IsRoot fs root) (hNone : f.load? fs (ProjectFile.directoryOf fs root) = none) :
    ProjectSettings.load (fs.without place) root = ProjectSettings.load fs root := by
  have hAll (g : ProjectFile) : g.load? (fs.without place) (ProjectFile.directoryOf fs root) =
      g.load? fs (ProjectFile.directoryOf fs root) := by
    by_cases hName : g = f
    · rw [hName, hNone, ProjectFile.load?_without_eq_none h.fileOrNothing hNone]
    · exact ProjectFile.load?_without h hName _
  rw [ProjectSettings.load, ProjectSettings.load, ProjectFile.directoryOf_without h hRoot,
    funext hAll]

/-- Without the second file the first one is loaded as before. -/
theorem load_without_shadowed (h : Aside fs place (Path.ofString ProjectFile.json.name))
    (hRoot : IsRoot fs root)
    (hLoads : ProjectFile.toml.load? fs (ProjectFile.directoryOf fs root) = some s) :
    ProjectFile.toml.load? (fs.without place)
      (ProjectFile.directoryOf (fs.without place) root) = some s := by
  rw [ProjectFile.directoryOf_without h hRoot, ProjectFile.load?_without h (by decide), hLoads]

end ProjectSettings

/-! ## Commands without a file -/

namespace Command

/-- What can be seen of a command: its exit code, what it shows, its message, and what it has
written if it succeeded. -/
structure Observation where
  exitCode : Nat
  stdout : String
  message : String
  written : Option Bytes
  deriving DecidableEq, Repr

/-- What can be seen of the outcome of a command. -/
def Outcome.observation (a : Arguments) (o : Outcome) : Observation where
  exitCode := o.exitCode
  stdout := o.stdout
  message := o.stderr
  written :=
    if o.exitCode = 0 then
      a.output.bind fun output => (o.files.readBytes (Path.ofString output)).toOption
    else none

variable {fs fs' : FileSystem} {place : List Bytes} {name : Bytes} {a : Arguments}

/-- Failures look the same in all trees. -/
theorem observation_failureAfter (shown : String) (fs fs' : FileSystem) (e : CommandError) :
    (failureAfter shown fs e).observation a = (failureAfter shown fs' e).observation a := by
  have hCode : e.exitCode ≠ 0 := by cases e <;> simp [CommandError.exitCode]
  simp [Outcome.observation, failureAfter, hCode]

/-- A report is delivered as before. -/
theorem deliver_without (hOnly : fs.FileOrNothing place) (hFs : fs.WellFormed) (host : Host)
    (a : Arguments) (text : String) :
    (deliver host (fs.without place) a text).observation a =
      (deliver host fs a text).observation a := by
  rw [deliver, deliver]
  cases hOutput : a.output with
  | none =>
    dsimp only
    cases host.cutOff? text with
    | none => simp [Outcome.observation, hOutput]
    | some shown => exact observation_failureAfter ..
  | some output =>
    dsimp only
    have hSame := FileSystem.isOk_write_without hOnly (Path.ofString output) (Utf8.ofString text)
    cases hAfter : (fs.without place).write (Path.ofString output) (Utf8.ofString text) with
    | error e =>
      cases hBefore : fs.write (Path.ofString output) (Utf8.ofString text) with
      | error e => exact observation_failureAfter ..
      | ok fs₁ => rw [hAfter, hBefore] at hSame; cases hSame
    | ok fs₂ =>
      cases hBefore : fs.write (Path.ofString output) (Utf8.ofString text) with
      | error e => rw [hAfter, hBefore] at hSame; cases hSame
      | ok fs₁ =>
        simp only [Outcome.observation, hOutput, Option.bind_some,
          FileSystem.readBytes_write hFs hBefore, FileSystem.readBytes_write hFs.without hAfter]

/-- A command looks the same without a file that is set aside, if the same settings are loaded. -/
theorem executeOn_without (h : Aside fs place name) (hFs : fs.WellFormed)
    (hRoot : IsRoot fs (Path.ofString a.path))
    (hLoad : ProjectSettings.load (fs.without place) (Path.ofString a.path) =
      ProjectSettings.load fs (Path.ofString a.path)) (host : Host) :
    (executeOn host (fs.without place) a).observation a =
      (executeOn host fs a).observation a := by
  have hReport : report host (fs.without place) a = report host fs a := by
    simp only [report, hLoad, h.runOn_without hFs hRoot]
  rw [executeOn, executeOn, hReport]
  cases report host fs a with
  | error e => exact observation_failureAfter ..
  | ok text => exact deliver_without h.fileOrNothing hFs host a text

/-- Next to a first file that can be loaded, a command looks the same without the second one. -/
theorem executeOn_without_shadowed {s : ProjectSettings}
    (h : Aside fs place (Path.ofString ProjectFile.json.name)) (hFs : fs.WellFormed)
    (hRoot : IsRoot fs (Path.ofString a.path)) (hLoads : ProjectFile.toml.load? fs
      (ProjectFile.directoryOf fs (Path.ofString a.path)) = some s) (host : Host) :
    (executeOn host (fs.without place) a).observation a =
      (executeOn host fs a).observation a := by
  refine executeOn_without h hFs hRoot ?_ host
  rw [ProjectSettings.load_of_toml hLoads,
    ProjectSettings.load_of_toml (ProjectSettings.load_without_shadowed h hRoot hLoads)]

/-! ## Two project files -/

/-- The project files of a root have no influence on a command but for their settings, and these
are taken from one file as a whole. -/
structure ProjectFilesIndependent (host : Host) (fs : FileSystem) (a : Arguments)
    (root : Path) : Prop where
  /-- A file that cannot be loaded might as well be missing. -/
  rejected : ∀ (f : ProjectFile) place content, f.place? fs root = some place →
    fs.node? place = some (.file content) →
    f.load? fs (ProjectFile.directoryOf fs root) = none →
    (executeOn host fs a).observation a = (executeOn host (fs.without place) a).observation a
  /-- So is every file whose content is of no use as a whole or in one field. -/
  unusable : ∀ (f : ProjectFile) place content, f.place? fs root = some place →
    fs.node? place = some (.file content) → f.Unusable content →
    f.load? fs (ProjectFile.directoryOf fs root) = none
  /-- The second file counts if the first one cannot be loaded. -/
  next : ProjectFile.toml.load? fs (ProjectFile.directoryOf fs root) = none →
    ProjectSettings.load fs root =
      (ProjectFile.json.load? fs (ProjectFile.directoryOf fs root)).getD .silent
  /-- All settings come from the first file if it can be loaded. -/
  first : ∀ s, ProjectFile.toml.load? fs (ProjectFile.directoryOf fs root) = some s →
    ProjectSettings.load fs root = s
  /-- Then the second file does not matter: neither what it holds nor whether it is there. -/
  shadowed : ∀ s place, ProjectFile.toml.load? fs (ProjectFile.directoryOf fs root) = some s →
    ProjectFile.json.place? fs root = some place → fs.FileOrNothing place →
    ∀ fs' : FileSystem, fs'.WellFormed → fs'.without place = fs.without place →
      fs'.FileOrNothing place →
      (executeOn host fs a).observation a = (executeOn host fs' a).observation a

/-- Project files do not interfere beyond their precedence. -/
theorem projectFiles_independent (host : Host) {fs : FileSystem} (hFs : fs.WellFormed)
    (a : Arguments) {root : Path} (hPath : root = Path.ofString a.path) (hRoot : IsRoot fs root)
    (hLinks : ∀ (f : ProjectFile) place, f.place? fs root = some place → ¬ fs.LinksTo place) :
    ProjectFilesIndependent host fs a root where
  rejected f place content hPlace hNode hNone := by
    have hOnly : fs.FileOrNothing place := fun node hn =>
      ⟨content, Option.some.inj (hn.symm.trans hNode)⟩
    have hAside := ProjectFile.aside (ProjectFile.getLast?_of_place? hPlace) hOnly
      (hLinks f place hPlace)
    have hLoad := ProjectSettings.load_without_rejected hAside hRoot hNone
    subst hPath
    exact (executeOn_without hAside hFs hRoot hLoad host).symm
  unusable _ _ _ hPlace hNode hUnusable := hUnusable.load?_eq_none_of_place? hPlace hNode
  next := ProjectSettings.load_of_json
  first _ := ProjectSettings.load_of_toml
  shadowed s place hLoads hPlace hOnly fs' hFs' hSame hOnly' := by
    have hLast := ProjectFile.getLast?_of_place? hPlace
    have hLinked := hLinks _ place hPlace
    have hLinked' : ¬ fs'.LinksTo place := by
      rwa [← FileSystem.linksTo_without hOnly', hSame, FileSystem.linksTo_without hOnly]
    have hAside := ProjectFile.aside hLast hOnly hLinked
    have hAside' := ProjectFile.aside hLast hOnly' hLinked'
    have hRoot' : IsRoot fs' root := .of_without hOnly' (hSame ▸ hRoot.without hAside)
    have hLoads' : ProjectFile.toml.load? fs' (ProjectFile.directoryOf fs' root) = some s := by
      have hBetween := ProjectSettings.load_without_shadowed hAside hRoot hLoads
      rwa [← hSame, ProjectFile.directoryOf_without hAside' hRoot',
        ProjectFile.load?_without hAside' (by decide)] at hBetween
    subst hPath
    rw [← executeOn_without_shadowed hAside hFs hRoot hLoads host, ← hSame,
      executeOn_without_shadowed hAside' hFs' hRoot' hLoads' host]

/-- In a tree of nothing but files no link leads anywhere. -/
theorem not_linksTo_of_files (h : ∀ e ∈ fs.top, ∃ content, e.2 = .file content) :
    ¬ fs.LinksTo place := by
  have hNil (loc : Location) (hLoc : fs.IsPlace loc) : loc = [] := by
    induction loc with
    | nil => rfl
    | cons e loc ih =>
      obtain rfl := ih hLoc.1
      obtain ⟨content, hContent⟩ := h _ (Entries.mem_of_lookup hLoc.2)
      cases hContent
  rintro ⟨loc, name, target, t, hLoc, hLink, -⟩
  obtain rfl := hNil loc hLoc
  obtain ⟨content, hContent⟩ := h _ (Entries.mem_of_lookup hLink)
  cases hContent

/-- A project whose first file has a number where there has to be a flag. -/
def wrongFlag : FileSystem where
  top := [
    (Path.ofString ".gofuncountrc.json",
      .file (Path.ofString "\x7b\"defaults\":\x7b\"format\":\"csv\"\x7d\x7d")),
    (Path.ofString "gofuncount.toml", .file (Path.ofString "defaults.stats = 1"))]
  current := []

/-- A command for the current directory. -/
def countHere : Arguments where
  path := "."
  includeTests := false
  format := none
  statistics := false
  grouping := none
  output := none
  exclude := []
  noGitignore := false
  workers := none
  logLevel := .warn

/-- A wrong flag: the command looks as if the file were missing, and the other one counts. -/
theorem projectFiles_independent_wrongFlag :
    wrongFlag.WellFormed ∧
    ProjectFile.toml.load? wrongFlag (ProjectFile.directoryOf wrongFlag (Path.ofString ".")) = none ∧
    (executeOn .sound wrongFlag countHere).observation countHere =
      (executeOn .sound (wrongFlag.without [Path.ofString "gofuncount.toml"])
        countHere).observation countHere ∧
    (ProjectSettings.load wrongFlag (Path.ofString ".")).format = some "csv" := by
  have hFiles : ∀ e ∈ wrongFlag.top, ∃ content, e.2 = .file content := by simp [wrongFlag]
  have hWrong : ProjectFile.toml.load? wrongFlag
      (ProjectFile.directoryOf wrongFlag (Path.ofString ".")) = none := by decide +kernel
  have h := projectFiles_independent .sound (by decide : wrongFlag.WellFormed) countHere rfl
    (.directory rfl) fun _ _ _ => not_linksTo_of_files hFiles
  have hNext := congrArg ProjectSettings.format (h.next hWrong)
  exact ⟨by decide, hWrong, h.rejected .toml _ _ rfl rfl hWrong, hNext.trans (by decide +kernel)⟩

end Command

end FuncSpans
