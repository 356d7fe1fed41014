import FuncSpans.Project.File
import FuncSpans.Proofs.Files.Removal

/-!
# What cannot be loaded

Settings are read as a whole. One field with a value of the wrong kind, in either table, makes all
of a project file invalid (`ProjectSettings.accepts_of_ofValue?`), as do bytes that are no text and
a text that cannot be parsed (`ProjectFile.Unusable.load?_eq_none`).
-/

namespace FuncSpans

open FuncSpans.Path (IsName)

/-- Whether a value is neither a table nor a list. -/
def ProjectValue.isScalar : ProjectValue → Bool
  | .table _ | .list _ => false
  | _ => true

namespace ProjectSettings

/-! ## Fields -/

/-- The tables that a project file may have. -/
inductive Table where
  | defaults
  | exclude
  deriving DecidableEq, Repr

namespace Table

def name : Table → String
  | defaults => "defaults"
  | exclude => "exclude"

/-- Reads a table into a project's settings. -/
def read (d : Dialect) (p : ProjectSettings) : Table → ProjectValue → Option ProjectSettings
  | defaults => readDefaults d p
  | exclude => readExclude d p

end Table

/-- The fields of the settings. -/
inductive Field where
  | format
  | grouping
  | includeTests
  | statistics
  | workers
  | paths
  | skipBuiltIn
  | respectIgnoreFiles
  deriving DecidableEq, Repr

namespace Field

/-- The table that a field stands in. -/
def table : Field → Table
  | format | grouping | includeTests | statistics | workers => .defaults
  | paths | skipBuiltIn | respectIgnoreFiles => .exclude

def name : Field → String
  | format => "format"
  | grouping => "group_by"
  | includeTests => "include_tests"
  | statistics => "stats"
  | workers => "workers"
  | paths => "paths"
  | skipBuiltIn => "skip_defaults"
  | respectIgnoreFiles => "respect_gitignore"

/-- Whether a field can have a value. -/
def accepts (d : Dialect) (v : ProjectValue) : Field → Bool
  | format => (optional text? (some v)).isSome
  | grouping => (optional (grouping? d) (some v)).isSome
  | includeTests | statistics => (optional bool? (some v)).isSome
  | workers => (optional natural? (some v)).isSome
  | paths => (texts? v).isSome
  | skipBuiltIn | respectIgnoreFiles => (bool? v).isSome

end Field

variable {d : Dialect} {p q : ProjectSettings} {ms fields : List (List Char × ProjectValue)}
  {v : ProjectValue} {field : Field}

/-- A member is the one of its name, unless there is another one. -/
theorem member?_of_mem {name : String} {m : Option ProjectValue} (hMem : (name.toList, v) ∈ ms)
    (h : member? name ms = some m) : m = some v := by
  have hMem' : (name.toList, v) ∈ ms.filter (·.1 == name.toList) :=
    List.mem_filter.mpr ⟨hMem, by simp⟩
  rw [member?] at h
  split at h
  · rename_i hNil
    rw [hNil] at hMem'
    cases hMem'
  · rename_i hOne
    rw [hOne] at hMem'
    cases List.mem_singleton.mp hMem'
    exact (Option.some.inj h).symm
  · cases h

/-! ## Tables -/

/-- Everything that is read of the table `defaults`. -/
theorem readDefaults_eq_some (h : readDefaults d p (.table ms) = some q) :
    ∃ format grouping includeTests statistics workers,
      (member? "format" ms = some format ∧ optional text? format = some q.format) ∧
      (member? "group_by" ms = some grouping ∧ optional (grouping? d) grouping = some q.grouping) ∧
      (member? "include_tests" ms = some includeTests ∧
        optional bool? includeTests = some q.includeTests) ∧
      (member? "stats" ms = some statistics ∧ optional bool? statistics = some q.statistics) ∧
      member? "workers" ms = some workers ∧ optional natural? workers = some q.workers := by
  unfold readDefaults at h
  split at h
  · rename_i hFields
    simp only [fields?, List.mapM_cons, List.mapM_nil, Option.pure_def, Option.bind_eq_bind,
      Option.bind_eq_some_iff, Option.some.injEq, List.cons.injEq] at hFields h
    obtain ⟨_, hFormat, _, ⟨_, hGrouping, _, ⟨_, hTests, _, ⟨_, hStatistics, _,
      ⟨_, hWorkers, _, rfl, rfl⟩, rfl⟩, rfl⟩, rfl⟩, rfl, rfl, rfl, rfl, rfl, -⟩ := hFields
    obtain ⟨_, hFormat', _, hGrouping', _, hTests', _, hStatistics', _, hWorkers', rfl⟩ := h
    exact ⟨_, _, _, _, _, ⟨hFormat, hFormat'⟩, ⟨hGrouping, hGrouping'⟩, ⟨hTests, hTests'⟩,
      ⟨hStatistics, hStatistics'⟩, hWorkers, hWorkers'⟩
  · cases h

/-- Everything that is read of the table `exclude`. -/
theorem readExclude_eq_some (h : readExclude d p (.table ms) = some q) :
    ∃ paths skipBuiltIn respectIgnoreFiles,
      (member? "paths" ms = some paths ∧ withDefault [] texts? paths = some q.paths) ∧
      (member? "skip_defaults" ms = some skipBuiltIn ∧
        withDefault false bool? skipBuiltIn = some q.skipBuiltIn) ∧
      member? "respect_gitignore" ms = some respectIgnoreFiles ∧
        withDefault true bool? respectIgnoreFiles = some q.respectIgnoreFiles := by
  unfold readExclude at h
  split at h
  · rename_i hFields
    simp only [fields?, List.mapM_cons, List.mapM_nil, Option.pure_def, Option.bind_eq_bind,
      Option.bind_eq_some_iff, Option.some.injEq, List.cons.injEq] at hFields h
    obtain ⟨_, hPaths, _, ⟨_, hSkip, _, ⟨_, hRespect, _, rfl, rfl⟩, rfl⟩, rfl, rfl, rfl, -⟩ :=
      hFields
    obtain ⟨_, hPaths', _, hSkip', _, hRespect', rfl⟩ := h
    exact ⟨_, _, _, ⟨hPaths, hPaths'⟩, ⟨hSkip, hSkip'⟩, hRespect, hRespect'⟩
  · cases h

/-- Both tables are read, or have their defaults. -/
theorem ofValue?_eq_some (h : ofValue? d (.table ms) = some q) :
    ∃ defaults exclude p, member? "defaults" ms = some defaults ∧
      member? "exclude" ms = some exclude ∧
      withDefault silent (readDefaults d silent) defaults = some p ∧
      withDefault p (readExclude d p) exclude = some q := by
  unfold ofValue? at h
  split at h
  · rename_i hFields
    simp only [fields?, List.mapM_cons, List.mapM_nil, Option.pure_def, Option.bind_eq_bind,
      Option.bind_eq_some_iff, Option.some.injEq, List.cons.injEq] at hFields h
    obtain ⟨_, hDefaults, _, ⟨_, hExclude, _, rfl, rfl⟩, rfl, rfl, -⟩ := hFields
    obtain ⟨p, hp, hq⟩ := h
    exact ⟨_, _, p, hDefaults, hExclude, hp, hq⟩
  · cases h

/-- What stands under the name of a table is read as that table. -/
theorem exists_read_of_mem {table : Table} (h : ofValue? d (.table ms) = some q)
    (hMem : (table.name.toList, v) ∈ ms) : ∃ p q', table.read d p v = some q' := by
  obtain ⟨defaults, exclude, p, hDefaults, hExclude, hp, hq⟩ := ofValue?_eq_some h
  cases table with
  | defaults =>
    obtain rfl := member?_of_mem hMem hDefaults
    exact ⟨silent, p, hp⟩
  | exclude =>
    obtain rfl := member?_of_mem hMem hExclude
    exact ⟨p, q, hq⟩

theorem accepts_of_read (h : field.table.read d p (.table ms) = some q)
    (hMem : (field.name.toList, v) ∈ ms) : field.accepts d v = true := by
  have hOptional {α : Type} {read : ProjectValue → Option α} {m : Option ProjectValue}
      {x : Option α} (hRead : member? field.name ms = some m ∧ optional read m = some x) :
      (optional read (some v)).isSome = true := by
    rw [member?_of_mem hMem hRead.1] at hRead
    rw [hRead.2]
    rfl
  have hDefault {α : Type} {standard x : α} {read : ProjectValue → Option α}
      {m : Option ProjectValue}
      (hRead : member? field.name ms = some m ∧ withDefault standard read m = some x) :
      (read v).isSome = true := by
    rw [member?_of_mem hMem hRead.1] at hRead
    exact Option.isSome_iff_exists.mpr ⟨x, hRead.2⟩
  cases field with
  | format =>
    obtain ⟨_, _, _, _, _, hFormat, -⟩ := readDefaults_eq_some h
    exact hOptional hFormat
  | grouping =>
    obtain ⟨_, _, _, _, _, -, hGrouping, -⟩ := readDefaults_eq_some h
    exact hOptional hGrouping
  | includeTests =>
    obtain ⟨_, _, _, _, _, -, -, hTests, -⟩ := readDefaults_eq_some h
    exact hOptional hTests
  | statistics =>
    obtain ⟨_, _, _, _, _, -, -, -, hStatistics, -⟩ := readDefaults_eq_some h
    exact hOptional hStatistics
  | workers =>
    obtain ⟨_, _, _, _, _, -, -, -, -, hWorkers⟩ := readDefaults_eq_some h
    exact hOptional hWorkers
  | paths =>
    obtain ⟨_, _, _, hPaths, -⟩ := readExclude_eq_some h
    exact hDefault hPaths
  | skipBuiltIn =>
    obtain ⟨_, _, _, -, hSkip, -⟩ := readExclude_eq_some h
    exact hDefault hSkip
  | respectIgnoreFiles =>
    obtain ⟨_, _, _, -, -, hRespect⟩ := readExclude_eq_some h
    exact hDefault hRespect

/-- Settings are only read if all of their fields have values that they can have. -/
theorem accepts_of_ofValue? (h : ofValue? d (.table ms) = some q)
    (hTable : (field.table.name.toList, .table fields) ∈ ms)
    (hField : (field.name.toList, v) ∈ fields) : field.accepts d v = true := by
  obtain ⟨p, q', hRead⟩ := exists_read_of_mem h hTable
  exact accepts_of_read hRead hField

/-- Nothing is read of a table that is no table and no list. -/
theorem not_isScalar_of_ofValue? {table : Table} (h : ofValue? d (.table ms) = some q)
    (hTable : (table.name.toList, v) ∈ ms) : v.isScalar = false := by
  obtain ⟨p, q', hRead⟩ := exists_read_of_mem h hTable
  cases v <;> cases table <;> first | rfl | cases hRead

end ProjectSettings

/-! ## Files -/

/-- A file in a directory is read under its name there, if it can be read so at all. -/
theorem FileSystem.readBytes_child {fs : FileSystem} {p : Path} {name content content' : Bytes}
    {loc : Location} (hp : fs.find p.clean = .ok (.directory loc)) (hName : IsName name)
    (hFile : (fs.entriesAt loc).lookup name = some (.file content))
    (h : fs.readBytes (p.child name) = .ok content') : content' = content := by
  obtain ⟨-, -, hLinks⟩ := find_directory hp
  rw [ignoresStops_followLinks, List.filter_append, filter_partsOf, Path.names_clean,
    Path.isAbsolute_clean] at hLinks
  obtain ⟨m, -, hSplit⟩ := splits_followLinks fs _ _ _ _ hLinks
  have hOpen : ¬ Open (p.child name) :=
    @not_open_below p [name] (fun _ hn => List.mem_singleton.mp hn ▸ hName) (by simp)
  obtain ⟨next, hNext⟩ := exists_followLinks_eq fs m
  have hFollow (t : Target) (ht : fs.target (p.child name) = .ok t) :
      follow fs next [name] loc = .ok t := by
    have hTarget := target_eq_ok ht
    rwa [ignoresInnerStops_followLinks fs _ _ _
      (by rwa [List.getLast?_append_of_ne_nil _ (partsOf_ne_nil _)]), List.filter_append,
      filter_partsOf, Path.names_child hName, Path.isAbsolute_child hName, List.map_append,
      ← List.append_assoc, List.map_singleton, Path.Component.text, hSplit, hNext] at hTarget
  rw [readBytes, find] at h
  cases ht : fs.target (p.child name) with
  | error e => rw [ht] at h; cases h
  | ok t =>
    have hStep := hFollow t ht
    rw [follow_cons, if_neg hName.ne_stop, if_neg hName.ne_parent, hFile] at hStep
    split_ifs at hStep
    cases hStep
    rw [ht] at h
    cases h
    rfl

namespace ProjectFile

theorem isName_name (f : ProjectFile) : IsName (Path.ofString f.name) := by cases f <;> decide

/-- The notation of a file. -/
def dialect : ProjectFile → ProjectSettings.Dialect
  | .toml => .toml
  | .json => .json

/-- The value that the text of a file stands for. -/
def value? (f : ProjectFile) (cs : List Char) : Option ProjectValue :=
  match f with
  | .toml => (Toml.read cs).map fun ms => .table (ProjectValue.ofTomlMembers ms)
  | .json => (Json.read cs).map ProjectValue.ofJson

theorem settings?_eq (f : ProjectFile) (cs : List Char) :
    f.settings? cs = (f.value? cs).bind (ProjectSettings.ofValue? f.dialect) := by
  cases f with
  | toml => rw [settings?, value?, Option.bind_map]; rfl
  | json => rw [settings?, value?, Option.bind_map]; rfl

/-- The content of a project file is of no use: it is no text, it cannot be parsed, or some table
or field has a value that it cannot have. -/
inductive Unusable (f : ProjectFile) (content : Bytes) : Prop
  | notText : Utf8.decode? content = none → Unusable f content
  | notParsed {cs : List Char} : Utf8.decode? content = some cs → f.value? cs = none →
      Unusable f content
  | wrongTable {cs : List Char} {ms : List (List Char × ProjectValue)}
      {table : ProjectSettings.Table} {v : ProjectValue} : Utf8.decode? content = some cs →
      f.value? cs = some (.table ms) → (table.name.toList, v) ∈ ms → v.isScalar = true →
      Unusable f content
  | wrongField {cs : List Char} {ms fields : List (List Char × ProjectValue)}
      {field : ProjectSettings.Field} {v : ProjectValue} : Utf8.decode? content = some cs →
      f.value? cs = some (.table ms) → (field.table.name.toList, .table fields) ∈ ms →
      (field.name.toList, v) ∈ fields → field.accepts f.dialect v = false → Unusable f content

theorem Unusable.settings?_eq_none {f : ProjectFile} {content : Bytes} (h : f.Unusable content)
    {cs : List Char} (hText : Utf8.decode? content = some cs) : f.settings? cs = none := by
  rw [settings?_eq, Option.eq_none_iff_forall_ne_some]
  intro s hs
  obtain ⟨v, hv, hSettings⟩ := Option.bind_eq_some_iff.mp hs
  cases h with
  | notText hNone => cases hText.symm.trans hNone
  | notParsed hText' hNone =>
    obtain rfl := Option.some.inj (hText.symm.trans hText')
    cases hv.symm.trans hNone
  | wrongTable hText' hValue hTable hScalar =>
    obtain rfl := Option.some.inj (hText.symm.trans hText')
    obtain rfl := Option.some.inj (hv.symm.trans hValue)
    rw [ProjectSettings.not_isScalar_of_ofValue? hSettings hTable] at hScalar
    cases hScalar
  | wrongField hText' hValue hTable hField hRefused =>
    obtain rfl := Option.some.inj (hText.symm.trans hText')
    obtain rfl := Option.some.inj (hv.symm.trans hValue)
    rw [ProjectSettings.accepts_of_ofValue? hSettings hTable hField] at hRefused
    cases hRefused

/-- Nothing is loaded from a file whose content is of no use. -/
theorem Unusable.load?_eq_none {f : ProjectFile} {content : Bytes} (h : f.Unusable content)
    {fs : FileSystem} {directory : Path} {loc : Location}
    (hDirectory : fs.find directory.clean = .ok (.directory loc))
    (hFile : (fs.entriesAt loc).lookup (Path.ofString f.name) = some (.file content)) :
    f.load? fs directory = none := by
  rw [load?, FileSystem.readText]
  cases hRead : fs.readBytes (directory.child (Path.ofString f.name)) with
  | error e => rfl
  | ok content' =>
    obtain rfl := FileSystem.readBytes_child hDirectory f.isName_name hFile hRead
    dsimp only
    cases hText : Utf8.decode? content' with
    | none => rfl
    | some cs => exact h.settings?_eq_none hText

end ProjectFile

end FuncSpans
