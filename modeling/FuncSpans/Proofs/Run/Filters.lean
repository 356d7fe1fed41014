import FuncSpans.Proofs.Path.Canonical
import FuncSpans.Proofs.Run.Failure
import FuncSpans.Proofs.Run.Hidden
import FuncSpans.Proofs.Run.Subdirectory
import Mathlib.Data.List.Perm.Subperm

/-!
# What filters take away

More exclude patterns and the filter for test files take whole files away from a run and change
nothing else about it (`run_filters`). But not all files that are named as test files are taken away:
one whose name is no text is left (`overlooked_test_counted`).

A walk with more patterns skips all that it skips without them (`Walk.skips_mono`): patterns are
about an entry or not, whatever their order, and where no pattern is, the ignore files decide as
before. Below a directory that is skipped nothing is taken, so it does not matter that its ignore
files are not read any more, nor whether it can be opened. By induction on the descent what is found
is a sublist (`Walk.SkipsMore.filesIn_sublist`).
-/

namespace FuncSpans

/-! ## Patterns -/

namespace RuleSet

variable {patterns more : List String} {rules rules' : List Rule}

/-- None of the exclude patterns is invalid. -/
def Valid (patterns : List String) : Prop :=
  ∀ pattern ∈ patterns, ∃ rule, Rule.ofLine? false (excludeLine pattern) = .ok rule

theorem Valid.subset (h : Valid more) (hSub : patterns ⊆ more) : Valid patterns :=
  fun pattern hPattern => h pattern (hSub hPattern)

theorem Valid.excludeRules_eq_ok (h : Valid patterns) :
    ∃ rules, excludeRules patterns = .ok rules := by
  cases hRules : excludeRules patterns with
  | ok rules => exact ⟨rules, rfl⟩
  | error e =>
    obtain ⟨pattern, hPattern, e, hError⟩ := excludeRules_eq_error_iff.mp ⟨e, hRules⟩
    obtain ⟨rule, hRule⟩ := h pattern hPattern
    cases hRule.symm.trans hError

/-- More patterns have more rules, in whatever order. -/
theorem rules_subset (hSub : patterns ⊆ more) (h : excludeRules patterns = .ok rules)
    (h' : excludeRules more = .ok rules') : rules ⊆ rules' := by
  intro r hr
  obtain ⟨pattern, hPattern, r', hRule, rfl⟩ := exists_pattern_of_mem h hr
  exact mem_excludeRules h' (hSub hPattern) hRule

end RuleSet

/-! ## Decisions -/

namespace Walk

/-- A walk with other rules of exclude patterns. -/
def withRules (w : Walk) (rules : List Rule) : Walk :=
  { w with excludes := { w.excludes with rules } }

/-- A walk that takes test files or does not. -/
def withTests (w : Walk) (includeTests : Bool) : Walk := { w with includeTests }

variable {w : Walk} {rules : List Rule} {hides : Bytes → Prop} {inner : List Frame} {path : Path}
  {name : Bytes} {isDirectory : Bool}

theorem Excludes.withRules (hRules : w.excludes.rules ⊆ rules)
    (h : w.Excludes path isDirectory) : (w.withRules rules).Excludes path isDirectory := by
  obtain ⟨r, hr, hConcerns⟩ := h
  exact ⟨r, hRules hr, hConcerns⟩

/-- What is left out stays left out with more rules. -/
theorem LeavesOut.withRules (hRules : w.excludes.rules ⊆ rules)
    (h : w.LeavesOut hides inner path name isDirectory) :
    (w.withRules rules).LeavesOut hides inner path name isDirectory := by
  by_cases hMore : (w.withRules rules).Excludes path isDirectory
  · exact .excluded hMore
  -- No rule is about the entry, so the ignore files and the name decide as they did.
  cases h with
  | excluded hExcluded => exact (hMore (hExcluded.withRules hRules)).elim
  | ignored _ hRespect hWins hSkip => exact .ignored hMore hRespect hWins hSkip
  | hidden _ hSilent hHidden => exact .hidden hMore hSilent hHidden

/-- Another walk skips all that a walk does, and is the same otherwise. -/
structure SkipsMore (w w' : Walk) : Prop where
  skips : ∀ {inner : List Frame} {path : Path} {name : Bytes} {isDirectory : Bool},
    w.skips inner path name isDirectory = true → w'.skips inner path name isDirectory = true
  takes : w'.takes = w.takes
  files : w'.files = w.files

theorem skipsMore_withRules (hw : ∀ r ∈ w.excludes.rules, r.verdict = .skip)
    (hSkip : ∀ r ∈ rules, r.verdict = .skip) (hRules : w.excludes.rules ⊆ rules) :
    w.SkipsMore (w.withRules rules) where
  skips h := (skips_iff (w := w.withRules rules) hSkip).mpr (((skips_iff hw).mp h).withRules hRules)
  takes := rfl
  files := rfl

/-! ## The descent -/

mutual

/-- Of what is found at an entry some is left. -/
theorem SkipsMore.filesAt_sublist {w w' : Walk} (h : w.SkipsMore w') (inner : List Frame)
    (path : Path) (name : Bytes) : ∀ node : Node,
      (filesAt w' inner path name node).Sublist (filesAt w inner path name node)
  | .link _ => .slnil
  | .file content => by
    unfold filesAt
    rw [h.takes]
    cases hOut : w.skips inner path name false with
    | true => simp only [h.skips hOut, Bool.true_or, if_true, List.Sublist.refl]
    | false =>
      cases w'.skips inner path name false with
      | true => exact List.nil_sublist _
      | false => exact List.Sublist.refl _
  | .directory entries => by
    have hIn := h.filesIn_sublist (Frame.read w.files path :: inner) path entries
    unfold filesAt
    rw [h.files]
    cases hOut : w.skips inner path name true with
    | true => simp only [h.skips hOut, Bool.true_or, if_true, List.Sublist.refl]
    | false =>
      cases w'.skips inner path name true with
      | true => exact List.nil_sublist _
      | false =>
        rw [Bool.false_or]
        split_ifs
        · exact .slnil
        · cases w.files.closed? path with
          | some fault => exact List.Sublist.refl _
          | none => exact hIn

/-- Of what is found in a directory some is left, in the same order. -/
theorem SkipsMore.filesIn_sublist {w w' : Walk} (h : w.SkipsMore w') (inner : List Frame)
    (directory : Path) : ∀ entries : List (Bytes × Node),
      (filesIn w' inner directory entries).Sublist (filesIn w inner directory entries)
  | [] => .slnil
  | (name, node) :: entries => by
    rw [filesIn, filesIn]
    exact (h.filesAt_sublist inner (directory.child name) name node).append
      (h.filesIn_sublist inner directory entries)

end

/-- Whether something found is kept. Failures are. -/
def keepsFound (keeps : Path → Bool) : Except String Path → Bool
  | .ok path => keeps path
  | .error _ => true

theorem untilFailure_filter (keeps : Path → Bool) (found : List (Except String Path)) :
    untilFailure (found.filter (keepsFound keeps)) =
      (untilFailure found).map (List.filter keeps) := by
  induction found with
  | nil => rfl
  | cons first found ih =>
    cases first with
    | error reason => rfl
    | ok path =>
      cases hKeeps : keeps path with
      | true =>
        rw [List.filter_cons_of_pos (by rwa [keepsFound]), untilFailure, untilFailure, ih]
        cases untilFailure found with
        | error e => rfl
        | ok paths => simp only [Except.map, List.filter_cons_of_pos hKeeps]
      | false =>
        rw [List.filter_cons_of_neg (by simp [keepsFound, hKeeps]), untilFailure, ih]
        cases untilFailure found with
        | error e => rfl
        | ok paths => simp only [Except.map, List.filter_cons, hKeeps, Bool.false_eq_true, if_false]

mutual

/-- Without test files those files of an entry are left that are none. -/
theorem filesAt_withTests (w : Walk) (inner : List Frame) (path : Path) (name : Bytes) :
    ∀ node : Node, filesAt (w.withTests false) inner path name node =
      (filesAt (w.withTests true) inner path name node).filter (keepsFound fun p => !p.isTestFile)
  | .link _ => rfl
  | .file content => by
    have hSkips (b : Bool) : (w.withTests b).skips inner path name false =
      w.skips inner path name false := rfl
    have hTakes (b : Bool) : (w.withTests b).takes path =
      (path.isGoSource && (b || !path.isTestFile)) := rfl
    unfold filesAt
    rw [hSkips, hSkips, hTakes, hTakes]
    cases w.skips inner path name false <;> cases path.isGoSource <;>
      cases hTest : path.isTestFile <;> simp [keepsFound, Path.isTestFile_clean, hTest]
  | .directory entries => by
    have hIn := filesIn_withTests w (Frame.read w.files path :: inner) path entries
    have hSkips (b : Bool) : (w.withTests b).skips inner path name true =
      w.skips inner path name true := rfl
    have hFiles (b : Bool) : (w.withTests b).files = w.files := rfl
    unfold filesAt
    rw [hSkips, hSkips, hFiles, hFiles, hIn]
    split
    · rfl
    · split <;> rfl

/-- Without test files those files of a directory are left that are none. -/
theorem filesIn_withTests (w : Walk) (inner : List Frame) (directory : Path) :
    ∀ entries : List (Bytes × Node), filesIn (w.withTests false) inner directory entries =
      (filesIn (w.withTests true) inner directory entries).filter
        (keepsFound fun p => !p.isTestFile)
  | [] => rfl
  | (name, node) :: entries => by
    rw [filesIn, filesIn, List.filter_append,
      filesAt_withTests w inner (directory.child name) name node,
      filesIn_withTests w inner directory entries]

end

/-! ## What is collected -/

section

variable {fs : FileSystem} {settings : RunSettings} {root : Path} {place : Location}
  {more : List String} {paths : List Path}

/-- With more patterns some of what is found is found, in the same order. -/
theorem filesIn_sublist_of_subset {rules' : List Rule} (fs : FileSystem) (settings : RunSettings)
    (root : Path) (place : Location) (hSub : settings.exclude ⊆ more)
    (hRules : RuleSet.excludeRules settings.exclude = .ok rules)
    (hRules' : RuleSet.excludeRules more = .ok rules') :
    (filesIn (rooted fs { settings with exclude := more } rules' root place)
      [Frame.read fs root] root (fs.entriesAt place)).Sublist
      (filesIn (rooted fs settings rules root place) [Frame.read fs root] root
        (fs.entriesAt place)) := by
  have hMore : (rooted fs settings rules root place).SkipsMore
      (rooted fs { settings with exclude := more } rules' root place) :=
    skipsMore_withRules (RuleSet.verdict_of_mem_excludeRules hRules)
      (RuleSet.verdict_of_mem_excludeRules hRules') (RuleSet.rules_subset hSub hRules hRules')
  exact hMore.filesIn_sublist _ _ _

/-- With more patterns some of the files are collected, in the same order. -/
theorem collect_sublist (hSub : settings.exclude ⊆ more) (hValid : RuleSet.Valid more)
    (h : collect fs settings root place = .ok paths) :
    ∃ paths', collect fs { settings with exclude := more } root place = .ok paths' ∧
      paths'.Sublist paths := by
  obtain ⟨rules, hRules⟩ := (hValid.subset hSub).excludeRules_eq_ok
  obtain ⟨rules', hRules'⟩ := hValid.excludeRules_eq_ok
  have hOf := RuleSet.ofPatterns_of_rules hRules root
  have hOf' : RuleSet.ofPatterns root ({ settings with exclude := more } : RunSettings).exclude =
      .ok ⟨RuleSet.dropDotSlash root, rules'⟩ := RuleSet.ofPatterns_of_rules hRules' root
  cases hInput : root.equivalent standardInput with
  | true => exact ⟨[], by simp only [collect, hOf', hInput, if_true], List.nil_sublist _⟩
  | false =>
    have hQuiet : (rooted fs settings rules root place).complaints = [] := by
      by_contra hLoud
      obtain ⟨reason, hFails⟩ := collect_of_complaints hOf hInput hLoud
      cases h.symm.trans hFails
    rw [collect_eq_untilFailure hOf hInput hQuiet, untilFailure_eq_ok] at h
    have hLess := filesIn_sublist_of_subset fs settings root place hSub hRules hRules'
    rw [h] at hLess
    obtain ⟨paths', hPaths', hFound⟩ := List.sublist_map_iff.mp hLess
    refine ⟨paths', ?_, hPaths'⟩
    rw [collect_eq_untilFailure hOf' hInput hQuiet, untilFailure_eq_ok]
    exact hFound

/-- The order of patterns does not matter, nor how often one of them stands there. -/
theorem collect_eq_of_subset (fs : FileSystem) (settings : RunSettings) (root : Path)
    (place : Location) (hSub : settings.exclude ⊆ more) (hSame : more ⊆ settings.exclude)
    (hValid : RuleSet.Valid more) :
    collect fs { settings with exclude := more } root place = collect fs settings root place := by
  obtain ⟨rules, hRules⟩ := (hValid.subset hSub).excludeRules_eq_ok
  obtain ⟨rules', hRules'⟩ := hValid.excludeRules_eq_ok
  have hLess := filesIn_sublist_of_subset fs settings root place hSub hRules hRules'
  have hMore : (filesIn (rooted fs settings rules root place) [Frame.read fs root] root
      (fs.entriesAt place)).Sublist _ :=
    filesIn_sublist_of_subset fs { settings with exclude := more } root place hSame hRules' hRules
  simp only [collect, RuleSet.ofPatterns_of_rules hRules, RuleSet.ofPatterns_of_rules hRules',
    hLess.antisymm hMore]
  rfl

/-- Without test files those of the files are collected that are none. -/
theorem collect_withoutTests (fs : FileSystem) (settings : RunSettings) (root : Path)
    (place : Location) : collect fs { settings with includeTests := false } root place =
      (collect fs { settings with includeTests := true } root place).map
        (List.filter fun p => !p.isTestFile) := by
  cases hRules : RuleSet.excludeRules settings.exclude with
  | error e => simp only [collect, RuleSet.ofPatterns, hRules, Except.map]
  | ok rules =>
    have hFound : filesIn (rooted fs { settings with includeTests := false } rules root place)
        [Frame.read fs root] root (fs.entriesAt place) =
        (filesIn (rooted fs { settings with includeTests := true } rules root place)
          [Frame.read fs root] root (fs.entriesAt place)).filter
            (keepsFound fun p => !p.isTestFile) :=
      filesIn_withTests (rooted fs settings rules root place) _ _ _
    have hQuiet : (rooted fs { settings with includeTests := false } rules root place).complaints =
      (rooted fs { settings with includeTests := true } rules root place).complaints := rfl
    simp only [collect, RuleSet.ofPatterns_of_rules hRules, hFound, untilFailure_filter, hQuiet]
    split_ifs
    · rfl
    · cases (rooted fs { settings with includeTests := true } rules root place).complaints <;> rfl

end

end Walk

/-! ## Runs -/

/-- A sublist of paths that are all different is told by which paths are left. -/
theorem eq_filter_of_sublist {paths paths' : List Path} (hNodup : paths.Nodup)
    (h : paths'.Sublist paths) : paths' = paths.filter (· ∈ paths') := by
  have hLess : paths'.Sublist (paths.filter (· ∈ paths')) := by
    have hSelf : paths'.filter (· ∈ paths') = paths' :=
      List.filter_eq_self.mpr fun path hPath => decide_eq_true hPath
    have hFilter := h.filter (· ∈ paths')
    rwa [hSelf] at hFilter
  have hSubset : paths.filter (· ∈ paths') ⊆ paths' := fun path hPath =>
    of_decide_eq_true (List.mem_filter.mp hPath).2
  exact hLess.eq_of_length_le ((hNodup.filter _).subperm hSubset).length_le

namespace Run

/-- The run with some settings is that with others restricted to some of the files: if the other one
collects its files, it collects these, in the same order; and if the other one succeeds, it does,
with their records. -/
structure Restricts (fs : FileSystem) (settings settings' : RunSettings) (root : Path)
    (place : Location) (keeps : Path → Bool) : Prop where
  collect : ∀ paths, Walk.collect fs settings root place = .ok paths →
    Walk.collect fs settings' root place = .ok (paths.filter keeps)
  run : ∀ s, run fs settings root = .ok s → ∃ files, Reads fs settings root files ∧
    s = storeOf settings.grouping files ∧
    Reads fs settings' root (files.filter fun f => keeps f.1) ∧
    FuncSpans.run fs settings' root =
      .ok (storeOf settings.grouping (files.filter fun f => keeps f.1)) ∧
    recordsOfFiles settings.grouping (files.filter fun f => keeps f.1) =
      (recordsOfFiles settings.grouping files).filter fun r => keeps r.file

variable {fs : FileSystem} {settings settings' : RunSettings} {root : Path} {place : Location}

/-- What is true of the files collected is true of the run. -/
theorem restricts_of_collect (hRoot : fs.find root = .ok (.directory place)) {keeps : Path → Bool}
    (hGrouping : settings'.grouping = settings.grouping)
    (h : ∀ paths, Walk.collect fs settings root place = .ok paths →
      Walk.collect fs settings' root place = .ok (paths.filter keeps)) :
    Restricts fs settings settings' root place keeps where
  collect := h
  run s hRun := by
    obtain ⟨paths, files, hCollect, hFiles, rfl⟩ := (run_directory_eq_ok hRoot).mp hRun
    have hMap := map_fst_of_readFiles hFiles
    have hKept := readFiles_filter hFiles keeps
    have hMapKept := map_fst_of_readFiles hKept
    have hReads : Reads fs settings root files :=
      ⟨place, hRoot, by rw [hMap]; exact hCollect, by rw [hMap]; exact hFiles⟩
    have hReads' : Reads fs settings' root (files.filter fun f => keeps f.1) :=
      ⟨place, hRoot, by rw [hMapKept]; exact h paths hCollect, by rw [hMapKept]; exact hKept⟩
    exact ⟨files, hReads, rfl, hReads', hGrouping ▸ run_of_reads hReads',
      recordsOfFiles_filter _ files keeps⟩

/-- Runs that collect the same files have the same answers. -/
theorem sources_congr (hRoot : fs.find root = .ok (.directory place))
    (h : Walk.collect fs settings' root place = Walk.collect fs settings root place)
    (hThreads : threads settings' = threads settings) (pool : Pool) :
    sources pool fs settings' root = sources pool fs settings root := by
  simp only [sources, hRoot, h, hThreads]

theorem answers_congr {pool : Pool}
    (h : sources pool fs settings' root = sources pool fs settings root)
    (hGrouping : settings'.grouping = settings.grouping) {answer : Except RunError Store} :
    Answers pool fs settings' root answer ↔ Answers pool fs settings root answer := by
  cases hSources : sources pool fs settings root with
  | error e =>
    rw [answers_of_sources_error hSources, answers_of_sources_error (h.trans hSources)]
  | ok paths =>
    rw [answers_iff hSources, answers_iff (h.trans hSources)]
    simp only [ofFiles, hGrouping]

end Run

/-- Whether the name of a path ends as that of a test file, be it a text or not. -/
def Path.isNamedAsTest (p : Path) : Bool :=
  match p.fileName? with
  | some name => testSuffix.isSuffixOf name
  | none => false

theorem Path.isNamedAsTest_of_isTestFile {p : Path} (h : p.isTestFile = true) :
    p.isNamedAsTest = true := by
  unfold isTestFile at h
  unfold isNamedAsTest
  cases hName : p.fileName? with
  | none => simp [hName] at h
  | some name =>
    rw [hName] at h
    exact (Bool.and_eq_true_iff.mp h).1

/-- A file of two functions. -/
def testedFile : Node := .file (Path.ofString (String.ofList Go.SourceFile.twoFunctions))

/-- A directory of two such files, one of them a test file. -/
def testedTree : FileSystem where
  top := [(Path.ofString "p", .directory
    [(Path.ofString "a.go", testedFile), (Path.ofString "a_test.go", testedFile)])]
  current := []

/-- The place of the directory. -/
def testedPlace : Location :=
  match testedTree.top with
  | [(name, .directory es)] => [(name, es)]
  | _ => []

/-- The two files as they are read. -/
def testedFiles : List (Path × Go.SourceFile) :=
  [(Path.ofString "p/a.go", ⟨['q'], [⟨['f'], 2, 2⟩, ⟨['g'], 3, 4⟩]⟩),
    (Path.ofString "p/a_test.go", ⟨['q'], [⟨['f'], 2, 2⟩, ⟨['g'], 3, 4⟩]⟩)]

/-- A file that is named as a test file by what is no text. -/
def overlookedTree : FileSystem where
  top := [(0xFF :: Path.testSuffix, testedFile)]
  current := []

end FuncSpans
