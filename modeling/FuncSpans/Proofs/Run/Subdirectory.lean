import FuncSpans.Proofs.Run.Directory
import FuncSpans.Proofs.Source.Declarations
import FuncSpans.Proofs.Walk.Subdirectory

/-!
# The run of a subdirectory

The run of a directory that the walk of a root goes into reads the files that the run of the root
reads there, in the same order, and so it has the same records of them (`run_below_eq_filter`). The
ignore files above the directory are read by other paths then, and know the files by absolute ones.
If one of them has a line with an invalid glob, the run of the directory fails.

Exclude patterns have to be about names for this. A pattern without a slash may match one by a class
of characters. It is then about more than a name, and what it is about depends on the root. Ignore
files have to be read by both paths, and to know the files by both (`nested_runs_differ`).
-/

namespace FuncSpans

open FuncSpans.Path (Under IsName)
open FuncSpans.FileSystem (Leads WithinLimits textOf longestPath)

namespace Run

/-- The run of a directory reads some files, in the order of its walk. -/
def Reads (fs : FileSystem) (settings : RunSettings) (root : Path)
    (files : List (Path × Go.SourceFile)) : Prop :=
  ∃ place, fs.find root = .ok (.directory place) ∧
    Walk.collect fs settings root place = .ok (files.map Prod.fst) ∧
    readFiles fs (files.map Prod.fst) = .ok files

theorem Reads.unique {fs : FileSystem} {settings : RunSettings} {root : Path}
    {files files' : List (Path × Go.SourceFile)} (h : Reads fs settings root files)
    (h' : Reads fs settings root files') : files = files' := by
  obtain ⟨place, hRoot, hCollect, hFiles⟩ := h
  obtain ⟨place', hRoot', hCollect', hFiles'⟩ := h'
  obtain rfl := FileSystem.Found.directory.inj (Except.ok.inj (hRoot.symm.trans hRoot'))
  rw [Except.ok.inj (hCollect.symm.trans hCollect')] at hFiles
  exact Except.ok.inj (hFiles.symm.trans hFiles')

/-- The records of some files, in the order of the files. -/
def recordsOfFiles (grouping : Grouping) (files : List (Path × Go.SourceFile)) : List Record :=
  files.flatMap fun f => recordsOf grouping f.1 f.2

theorem readFiles_filter {fs : FileSystem} {paths : List Path}
    {files : List (Path × Go.SourceFile)} (h : readFiles fs paths = .ok files)
    (keeps : Path → Bool) :
    readFiles fs (paths.filter keeps) = .ok (files.filter fun f => keeps f.1) := by
  induction paths generalizing files with
  | nil => cases h; rfl
  | cons path paths ih =>
    unfold readFiles at h
    split at h
    · cases h
    rename_i file hFile
    split at h
    · cases h
    rename_i rest hRest
    cases h
    cases hKeeps : keeps path with
    | true => simpa only [List.filter_cons, hKeeps, if_true] using readFiles_cons hFile (ih hRest)
    | false => simpa only [List.filter_cons, hKeeps, Bool.false_eq_true, if_false] using ih hRest

theorem recordsOfFiles_filter (grouping : Grouping) (files : List (Path × Go.SourceFile))
    (keeps : Path → Bool) : recordsOfFiles grouping (files.filter fun f => keeps f.1) =
      (recordsOfFiles grouping files).filter fun r => keeps r.file := by
  induction files with
  | nil => rfl
  | cons f files ih =>
    have hFile : ∀ r ∈ recordsOf grouping f.1 f.2, keeps r.file = keeps f.1 := fun r hr => by
      rw [file_of_mem_recordsOf hr]
    have hCons : recordsOfFiles grouping (f :: files) =
        recordsOf grouping f.1 f.2 ++ recordsOfFiles grouping files := List.flatMap_cons
    rw [hCons, List.filter_append, ← ih]
    cases hKeeps : keeps f.1 with
    | true =>
      have hAll : (recordsOf grouping f.1 f.2).filter (fun r => keeps r.file) =
          recordsOf grouping f.1 f.2 :=
        List.filter_eq_self.mpr fun r hr => (hFile r hr).trans hKeeps
      simp only [List.filter_cons, hKeeps, if_true, hAll]
      exact List.flatMap_cons
    | false =>
      have hNone : (recordsOf grouping f.1 f.2).filter (fun r => keeps r.file) = [] :=
        List.filter_eq_nil_iff.mpr fun r hr => by simp [hFile r hr, hKeeps]
      simp only [List.filter_cons, hKeeps, Bool.false_eq_true, if_false, hNone, List.nil_append]

theorem run_of_reads {fs : FileSystem} {settings : RunSettings} {root : Path}
    {files : List (Path × Go.SourceFile)} (h : Reads fs settings root files) :
    run fs settings root = .ok (storeOf settings.grouping files) := by
  obtain ⟨place, hRoot, hCollect, hFiles⟩ := h
  exact (run_directory_eq_ok hRoot).mpr ⟨_, files, hCollect, hFiles, rfl⟩

end Run

/-- The ignore files of a root and of the directories between it and a directory below it can be
opened, by paths that begin as the root does and by absolute ones, within the limits of an operating
system; and the absolute path of the directory itself is not too long. -/
structure Walk.OpensAbove (fs : FileSystem) (root : Path) (place : Location) (way : List Bytes) :
    Prop where
  withinLimits : ∀ front rest, way = front ++ rest → rest ≠ [] → ∀ kind : IgnoreKind,
    fs.WithinLimits (root.below (front ++ kind.way)) ∧
      fs.WithinLimits ((textOf place).below (front ++ kind.way))
  length_le : ((textOf place).below way).length ≤ longestPath

theorem Walk.OpensAbove.readsAlike {fs : FileSystem} (hFs : fs.WellFormed) {root : Path}
    {place loc : Location} {way : List Bytes} (h : Walk.OpensAbove fs root place way)
    (hPlain : root.Plain) (hRoot : fs.find root = .ok (.directory place))
    (hLeads : Leads fs place way loc) : Walk.ReadsAlike fs root place way := by
  refine ⟨hPlain, fun front rest he hRest kind => ?_, h.length_le⟩
  obtain ⟨hRelative, hAbsolute⟩ := h.withinLimits front rest he hRest kind
  subst he
  obtain ⟨mid, hFront⟩ := hLeads.exists_middle
  have hText := hFront.textOf_eq (FileSystem.reached_of_find hFs hRoot)
  have hNames : ∀ n ∈ front ++ kind.way, IsName n :=
    List.forall_mem_append.mpr ⟨hFront.isName, kind.isName_of_mem_way⟩
  have hShort : (root.below front).length ≤ longestPath := by
    refine Nat.le_trans ?_ (FileSystem.length_below_le hRoot hNames hRelative.1)
    rw [Path.below_append]
    exact Path.length_le_below _ _
  have hFind := FileSystem.find_below_of_leads hRoot hFront hShort
  rw [Path.below_append] at hRelative hAbsolute
  rw [← hText] at hAbsolute ⊢
  rw [FileSystem.readBytes, FileSystem.readBytes, FileSystem.find_below_eq_absolute hFs hFind
    kind.isName_of_mem_way kind.way_ne_nil hRelative hAbsolute]

/-- A directory that a walk goes into, which does not fail, is found by its path. -/
theorem Walk.Enters.find_of_collect {fs : FileSystem} (hFs : fs.WellFormed)
    {settings : RunSettings} {root : Path} {place : Location}
    (hRoot : fs.find root = .ok (.directory place))
    (hInput : root.equivalent Walk.standardInput = false) {rules : List Rule}
    (hRules : RuleSet.excludeRules settings.exclude = .ok rules) {way : List Bytes}
    {inner : Entries} (hEnters : (Walk.rooted fs settings rules root place).Enters
      (fs.entriesAt place) way inner) {paths : List Path}
    (hCollect : Walk.collect fs settings root place = .ok paths) :
    ∃ loc, Leads fs place way loc ∧ fs.entriesAt loc = inner ∧
      fs.find (root.below way) = .ok (.directory loc) := by
  have hNot := (Walk.collect_eq_ok_iff hFs hRoot (RuleSet.ofPatterns_of_rules hRules root)).mp
    ⟨paths, hCollect⟩
  have hShort : fs.find (root.below way) ≠ .error .nameTooLong := by
    intro hLong
    have hClosed : fs.closed? (root.below way) = some .nameTooLong := by
      simp only [FileSystem.closed?, hLong]
    exact hNot (.closed hInput hEnters hClosed)
  obtain ⟨loc, hLeads, hInner⟩ := FileSystem.exists_leads_of_opens hFs hRoot hEnters.opens hShort
  exact ⟨loc, hLeads, hInner, FileSystem.find_below_of_leads hRoot hLeads
    (FileSystem.length_below_le hRoot hLeads.isName hShort)⟩

/-- The run of a directory that the walk of a root goes into has the records that the run of the root
has of the files there, in the same order; but it fails if ignore files count and one of those above
the directory, up to the root, has a line with an invalid glob. Exclude patterns have no slash, but
at their ends, and match none; and if ignore files count, the root is written plainly and those above
the directory can be opened. -/
theorem run_below_eq_filter {fs : FileSystem} (hFs : fs.WellFormed) {settings : RunSettings}
    {root : Path} {place : Location} (hRoot : fs.find root = .ok (.directory place))
    (hInput : root.equivalent Walk.standardInput = false) {rules : List Rule}
    (hRules : RuleSet.excludeRules settings.exclude = .ok rules)
    (hSlash : ∀ pattern ∈ settings.exclude, '/' ∉ pattern.toList.dropLast)
    (hFree : ∀ r ∈ rules, GlobPart.ListSlashFree r.glob.parts.tail) {way : List Bytes}
    {inner : Entries} (hEnters : (Walk.rooted fs settings rules root place).Enters
      (fs.entriesAt place) way inner)
    (hIgnore : settings.respectIgnoreFiles = true →
      root.Plain ∧ Walk.OpensAbove fs root place way)
    {s : Store} (hRun : run fs settings root = .ok s) :
    ∃ files, Run.Reads fs settings root files ∧ s = Run.storeOf settings.grouping files ∧
      (settings.respectIgnoreFiles = true ∧ Walk.BadLineBetween fs place way →
        ∃ reason, run fs settings (root.below way) = .error (.walk reason)) ∧
      (¬ (settings.respectIgnoreFiles = true ∧ Walk.BadLineBetween fs place way) →
        ∃ s', run fs settings (root.below way) = .ok s' ∧
        Run.Reads fs settings (root.below way) (files.filter fun f => Under (root.below way) f.1) ∧
        s' = Run.storeOf settings.grouping (files.filter fun f => Under (root.below way) f.1) ∧
        Run.recordsOfFiles settings.grouping (files.filter fun f => Under (root.below way) f.1) =
          (Run.recordsOfFiles settings.grouping files).filter
            fun r => Under (root.below way) r.file) := by
  obtain ⟨paths, files, hCollect, hFiles, rfl⟩ := (run_directory_eq_ok hRoot).mp hRun
  obtain ⟨loc, hLeads, rfl, hFind⟩ := hEnters.find_of_collect hFs hRoot hInput hRules hCollect
  have hAlike : settings.respectIgnoreFiles = true → Walk.ReadsAlike fs root place way :=
    fun hRespect => (hIgnore hRespect).2.readsAlike hFs (hIgnore hRespect).1 hRoot hLeads
  have hBelow := Walk.collect_below hFs hRoot hInput
    (RuleSet.aboutNames_of_mem hRules hSlash hFree) hLeads hFind hEnters hAlike hRules hCollect
  have hMap := Run.map_fst_of_readFiles hFiles
  refine ⟨files, ⟨place, hRoot, hMap.symm ▸ hCollect, hMap.symm ▸ hFiles⟩, rfl, fun hBad => ?_,
    fun hGood => ?_⟩
  · rcases hBelow with ⟨-, -, reason, hFailed⟩ | ⟨hNot, -⟩
    · exact ⟨reason, by simp only [run, runOn, Run.sources, hFind, hFailed]⟩
    · exact (hNot hBad).elim
  · rcases hBelow with ⟨hRespect, hBad, -⟩ | ⟨-, hCollectBelow⟩
    · exact (hGood ⟨hRespect, hBad⟩).elim
    have hFilesBelow := Run.readFiles_filter hFiles fun path => Under (root.below way) path
    have hMapBelow := Run.map_fst_of_readFiles hFilesBelow
    have hReadsBelow : Run.Reads fs settings (root.below way)
        (files.filter fun f => Under (root.below way) f.1) :=
      ⟨loc, hFind, hMapBelow.symm ▸ hCollectBelow, hMapBelow.symm ▸ hFilesBelow⟩
    exact ⟨_, Run.run_of_reads hReadsBelow, hReadsBelow, rfl,
      Run.recordsOfFiles_filter _ files fun path => Under (root.below way) path⟩

/-! ## A directory in a directory -/

/-- A hidden file that is no text, and a source file. -/
def innerEntries : Entries :=
  [(Path.ofString ".b.go", .file [0xFF]),
    (Path.ofString "f.go", .file (Path.ofString (String.ofList Go.SourceFile.twoFunctions)))]

/-- The ignore file of the outer directory keeps the files of the inner one. It is a link, and
another link leads from the directory to itself. -/
def outerEntries : Entries :=
  [(Path.ofString ".gitignore", .link (Path.ofString "g")),
    (Path.ofString "d", .directory innerEntries),
    (Path.ofString "g", .file (Path.ofString "*.go\n!/d/*.go\n")),
    (Path.ofString "s", .link RuleSet.here)]

def nestedTree : FileSystem where
  top := [(Path.ofString "x", .directory outerEntries)]
  current := []

/-- The place of the outer directory. -/
def outerPlace : Location := [(Path.ofString "x", outerEntries)]

/-- The way to the inner directory. -/
def innerWay : List Bytes := [Path.ofString "d"]

/-- Settings with one pattern. -/
def settingsWith (pattern : String) : RunSettings :=
  { RunSettings.standard with exclude := [pattern] }

/-- The walk of a root that leads to the outer directory goes into the inner one, which can be
opened. -/
def EntersInner (settings : RunSettings) (root : Path) : Prop :=
  nestedTree.find root = .ok (.directory outerPlace) ∧
    nestedTree.WithinLimits (root.below innerWay) ∧
    ∃ rules, RuleSet.excludeRules settings.exclude = .ok rules ∧
      (Walk.rooted nestedTree settings rules root outerPlace).Enters outerEntries innerWay
        innerEntries

theorem entersInner {settings : RunSettings} {root : Path}
    (hRoot : nestedTree.find root = .ok (.directory outerPlace))
    (hInner : nestedTree.WithinLimits (root.below innerWay)) {rules : List Rule}
    (hRules : RuleSet.excludeRules settings.exclude = .ok rules)
    (hKept : (Walk.rooted nestedTree settings rules root outerPlace).skips
      [Frame.read nestedTree root] (root.below innerWay) (Path.ofString "d") true = false) :
    EntersInner settings root :=
  ⟨hRoot, hInner, rules, hRules, Walk.enters_singleton (RuleSet.verdict_of_mem_excludeRules hRules)
    (by simp [outerEntries]) hKept (by decide)⟩

/-- No ignore file of the outer directory has a line with an invalid glob. -/
theorem not_badLineBetween : ¬ Walk.BadLineBetween nestedTree outerPlace innerWay := by
  rintro ⟨front, rest, he, hRest, hBad⟩
  obtain ⟨rfl, -⟩ := (List.append_eq_singleton_iff.mp he.symm).resolve_right fun h => hRest h.2
  exact Frame.complaints_read_eq_nil_iff.mp (by decide +kernel) hBad

/-- The source file of the inner directory. -/
def innerFile : Path × Go.SourceFile :=
  (Path.ofString "x/d/f.go", ⟨['q'], [⟨['f'], 2, 2⟩, ⟨['g'], 3, 4⟩]⟩)

/-- The ignore file of the outer directory counts for the run of the inner one, and both runs have
the records of the file there. -/
theorem run_below_eq_filter_nested :
    EntersInner (settingsWith ".*") (Path.ofString "x") ∧
    run nestedTree (settingsWith ".*") (Path.ofString "x") =
      .ok (Run.storeOf .directory [innerFile]) ∧
    run nestedTree (settingsWith ".*") (Path.ofString "x/d") =
      .ok (Run.storeOf .directory [innerFile]) ∧
    (Run.recordsOfFiles .directory [innerFile]).map (fun r => (r.group, r.name)) =
      [("x/d", "f"), ("x/d", "g")] := by
  have hFs : nestedTree.WellFormed := by decide
  have hInner : EntersInner (settingsWith ".*") (Path.ofString "x") :=
    entersInner rfl (by decide) rfl (by decide +kernel)
  have hCollect : Walk.collect nestedTree (settingsWith ".*") (Path.ofString "x") outerPlace =
      .ok [Path.ofString "x/d/f.go"] := by decide +kernel
  have hText : nestedTree.readText (Path.ofString "x/d/f.go") =
      .ok Go.SourceFile.twoFunctions := by decide +kernel
  have hFile := Run.readFile_of_parse hText Go.SourceFile.parse_twoFunctions
  have hReads : Run.Reads nestedTree (settingsWith ".*") (Path.ofString "x") [innerFile] :=
    ⟨outerPlace, hInner.1, hCollect, Run.readFiles_cons hFile rfl⟩
  have hAbove : Walk.OpensAbove nestedTree (Path.ofString "x") outerPlace innerWay := by
    refine ⟨fun front rest he hRest kind => ?_, by decide⟩
    obtain ⟨rfl, -⟩ := (List.append_eq_singleton_iff.mp he.symm).resolve_right fun h => hRest h.2
    cases kind <;> decide +kernel
  have hFree : ∀ rules, RuleSet.excludeRules [".*"] = .ok rules →
      ∀ r ∈ rules, GlobPart.ListSlashFree r.glob.parts.tail := by
    rintro rules hRules
    obtain rfl := Except.ok.inj (hRules.symm.trans rfl)
    decide +kernel
  obtain ⟨hRoot, -, rules, hRules, hEnters⟩ := id hInner
  obtain ⟨files, hFiles, -, -, hBelow⟩ := run_below_eq_filter hFs hRoot rfl hRules (by decide)
    (hFree rules hRules) hEnters (fun _ => ⟨by decide, hAbove⟩) (Run.run_of_reads hReads)
  obtain ⟨s', hRun', -, rfl, -⟩ := hBelow fun hBad => not_badLineBetween hBad.2
  obtain rfl := hFiles.unique hReads
  have hUnder : [innerFile].filter (fun f => Under ((Path.ofString "x").below innerWay) f.1) =
      [innerFile] := by decide +kernel
  rw [hUnder] at hRun'
  exact ⟨hInner, Run.run_of_reads hReads, hRun', by decide +kernel⟩

/-- The outer directory, reached through as many links as may be followed. -/
def linkedRoot : Path :=
  (Path.ofString "x").below (List.replicate FileSystem.mostLinks (Path.ofString "s"))

/-- The run of a root counts nothing, and that of the inner directory fails. -/
def RunsDiffer (settings : RunSettings) (root : Path) : Prop :=
  EntersInner settings root ∧ (run nestedTree settings root).toOption = some .empty ∧
    (run nestedTree settings (root.below innerWay)).toOption = none

/-- An ignore file with a line that is no glob, beside an empty directory. -/
def badLineTree : FileSystem where
  top := [(Path.ofString ".gitignore", .file (Path.ofString "\x7bfoo\n")),
    (Path.ofString "x", .directory [])]
  current := []

/-- The runs differ if a class of characters matches the slash behind the inner directory, if the
root is not written plainly, if the ignore file is a link too many by its path, or if it has a line
that is no glob. -/
theorem nested_runs_differ :
    '/' ∉ "d[!a]*.go".toList.dropLast ∧ RunsDiffer (settingsWith "d[!a]*.go") (Path.ofString "x") ∧
    RunsDiffer (settingsWith "f.go") (Path.ofString "././x") ∧
    RunsDiffer (settingsWith "f.go") linkedRoot ∧
    (run badLineTree .standard RuleSet.here).toOption = some .empty ∧
    (run badLineTree .standard (Path.ofString "x")).toOption = none :=
  ⟨by decide,
    ⟨entersInner rfl (by decide) rfl (by decide +kernel), by decide +kernel, by decide +kernel⟩,
    ⟨entersInner rfl (by decide) rfl (by decide +kernel), by decide +kernel, by decide +kernel⟩,
    ⟨entersInner rfl (by decide +kernel) rfl (by decide +kernel), by decide +kernel,
      by decide +kernel⟩,
    by decide +kernel, by decide +kernel⟩

end FuncSpans
