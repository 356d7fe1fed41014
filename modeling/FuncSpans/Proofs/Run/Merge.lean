import FuncSpans.Run
import FuncSpans.Proofs.Record.Log
import FuncSpans.Proofs.Record.Store
import FuncSpans.Proofs.Source.Declarations
import FuncSpans.Proofs.Walk.Outcome
import Mathlib.Data.List.Forall2

/-!
# The run of a directory from the runs of its files

`run_collected` says that a file that a walk collects is read by a run of its own just as by the
run of the directory. `run_directory_eq_merge` puts the single runs together: where all of them
succeed, every answer for the directory is the merge of their stores, and where one fails, every
answer is the error of a file. Only among several such errors do the threads choose.
-/

namespace FuncSpans

namespace Run

/-! ## Files one by one -/

theorem group_of_mem_recordsOf {grouping : Grouping} {path : Path} {file : Go.SourceFile}
    {r : Record} (h : r ∈ recordsOf grouping path file) : r.group = groupOf grouping path file := by
  obtain ⟨f, _, rfl⟩ := List.mem_map.mp h
  rfl

/-- The store of one file, merged into another, adds the file to it. -/
theorem merge_addFile (grouping : Grouping) (s : Store) (path : Path) (file : Go.SourceFile) :
    s.merge (addFile grouping .empty path file) = addFile grouping s path file :=
  Store.merge_foldl_insert (fun _ => group_of_mem_recordsOf) s

theorem readFile_of_parse {fs : FileSystem} {path : Path} {text : List Char}
    {file : Go.SourceFile} (hText : fs.readText path = .ok text)
    (hParse : Go.SourceFile.parse text = .ok file) : readFile fs path = .ok file := by
  simp only [readFile, hText, hParse]

theorem readFiles_cons {fs : FileSystem} {path : Path} {file : Go.SourceFile} {paths : List Path}
    {files : List (Path × Go.SourceFile)} (hFile : readFile fs path = .ok file)
    (hFiles : readFiles fs paths = .ok files) :
    readFiles fs (path :: paths) = .ok ((path, file) :: files) := by
  simp only [readFiles, hFile, hFiles]

theorem ofFiles_singleton_eq_ok {fs : FileSystem} {settings : RunSettings} {path : Path}
    {s : Store} : ofFiles fs settings [path] = .ok s ↔
      ∃ file, readFile fs path = .ok file ∧ s = addFile settings.grouping .empty path file := by
  cases h : readFile fs path with
  | error e => simp [ofFiles, readFiles, h]
  | ok file =>
    simp only [ofFiles, readFiles, h, storeOf, List.foldl_cons, List.foldl_nil, Except.ok.injEq,
      exists_eq_left']
    exact eq_comm

theorem ofFiles_singleton_eq_error {fs : FileSystem} {settings : RunSettings} {path : Path}
    {e : RunError} : ofFiles fs settings [path] = .error e ↔ readFile fs path = .error e := by
  cases h : readFile fs path <;> simp [ofFiles, readFiles, h]

/-- Stores that the files have each on its own are merged. -/
theorem ofFiles_eq_merge {fs : FileSystem} {settings : RunSettings} {paths : List Path}
    {stores : List Store}
    (h : List.Forall₂ (fun path s => ofFiles fs settings [path] = .ok s) paths stores) :
    ofFiles fs settings paths = .ok (stores.foldl Store.merge .empty) := by
  have hRead : ∃ files, readFiles fs paths = .ok files ∧ ∀ s : Store,
      files.foldl (fun s f => addFile settings.grouping s f.1 f.2) s =
        stores.foldl Store.merge s := by
    induction h with
    | nil => exact ⟨[], rfl, fun _ => rfl⟩
    | @cons path s paths stores hPath _ ih =>
      obtain ⟨files, hFiles, hFold⟩ := ih
      obtain ⟨file, hFile, rfl⟩ := ofFiles_singleton_eq_ok.mp hPath
      refine ⟨(path, file) :: files, readFiles_cons hFile hFiles, fun s => ?_⟩
      rw [List.foldl_cons, List.foldl_cons, merge_addFile, hFold]
  obtain ⟨files, hFiles, hFold⟩ := hRead
  rw [ofFiles, hFiles]
  exact congrArg Except.ok (hFold .empty)

/-- Files cannot be read together if one of them cannot be read; the error is that of some file. -/
theorem readFiles_eq_error_iff {fs : FileSystem} {paths : List Path} :
    (∃ e, readFiles fs paths = .error e) ↔ ∃ path ∈ paths, ∃ e, readFile fs path = .error e := by
  induction paths with
  | nil => simp [readFiles]
  | cons path paths ih =>
    rw [List.exists_mem_cons_iff, ← ih, readFiles]
    cases readFile fs path with
    | error e => simp
    | ok file => cases readFiles fs paths <;> simp

theorem exists_of_readFiles_eq_error {fs : FileSystem} {paths : List Path} {e : RunError}
    (h : readFiles fs paths = .error e) : ∃ path ∈ paths, readFile fs path = .error e := by
  induction paths with
  | nil => cases h
  | cons first paths ih =>
    rw [readFiles] at h
    split at h
    · rename_i hFirst
      cases h
      exact ⟨first, List.mem_cons_self, hFirst⟩
    · split at h
      · rename_i hRest
        cases h
        obtain ⟨path, hPath, he⟩ := ih hRest
        exact ⟨path, List.mem_cons_of_mem _ hPath, he⟩
      · cases h

/-! ## The log of a run -/

/-- What the reading of a file does to a store. -/
def eventsOf (grouping : Grouping) (path : Path) (file : Go.SourceFile) : List Store.Event :=
  .ensure (groupOf grouping path file) :: (recordsOf grouping path file).map .insert

/-- The store of some files is made step by step, by what each of them does in its turn. -/
theorem exists_build (grouping : Grouping) (files : List (Path × Go.SourceFile)) :
    ∃ b : Store.Build, b.store = storeOf grouping files ∧
      b.log = files.flatMap fun f => eventsOf grouping f.1 f.2 := by
  have hRecords (rs : List Record) (b : Store.Build) : ∃ c : Store.Build,
      c.store = rs.foldl Store.insert b.store ∧ c.log = b.log ++ rs.map .insert := by
    induction rs generalizing b with
    | nil => exact ⟨b, rfl, (List.append_nil _).symm⟩
    | cons r rs ih =>
      obtain ⟨c, hStore, hLog⟩ := ih (b.insert r)
      exact ⟨c, hStore, by rw [hLog, Store.Build.log, List.append_assoc]; rfl⟩
  have hFiles (b : Store.Build) : ∃ c : Store.Build,
      c.store = files.foldl (fun s f => addFile grouping s f.1 f.2) b.store ∧
        c.log = b.log ++ files.flatMap fun f => eventsOf grouping f.1 f.2 := by
    induction files generalizing b with
    | nil => exact ⟨b, rfl, (List.append_nil _).symm⟩
    | cons f files ih =>
      obtain ⟨c, hStore, hLog⟩ :=
        hRecords (recordsOf grouping f.1 f.2) (b.ensure (groupOf grouping f.1 f.2))
      obtain ⟨d, hStore', hLog'⟩ := ih c
      refine ⟨d, by rw [hStore', hStore]; rfl, ?_⟩
      rw [hLog', hLog, Store.Build.log, List.append_assoc, List.append_assoc]
      rfl
  exact hFiles .new

theorem ofFiles_eq_ok {fs : FileSystem} {settings : RunSettings} {paths : List Path} {s : Store} :
    ofFiles fs settings paths = .ok s ↔
      ∃ files, readFiles fs paths = .ok files ∧ s = storeOf settings.grouping files := by
  cases h : readFiles fs paths with
  | error e => simp [ofFiles, h]
  | ok files => simp [ofFiles, h, eq_comm]

end Run

/-! ## Answers -/

namespace Run

/-- Files of which one cannot be read are not counted. -/
theorem ofFiles_ne_ok {fs : FileSystem} {settings : RunSettings} {paths : List Path} {path : Path}
    {e : RunError} (hPath : path ∈ paths) (he : readFile fs path = .error e) (s : Store) :
    ofFiles fs settings paths ≠ .ok s := by
  intro hAll
  obtain ⟨files, hFiles, -⟩ := ofFiles_eq_ok.mp hAll
  obtain ⟨e', he'⟩ := readFiles_eq_error_iff.mpr ⟨path, hPath, e, he⟩
  cases hFiles.symm.trans he'

section

variable {pool : Pool} {fs : FileSystem} {settings : RunSettings} {root : Path}

theorem runOn_of_sources {paths : List Path} (h : sources pool fs settings root = .ok paths) :
    runOn pool fs settings root = ofFiles fs settings paths := by
  rw [runOn, h]

/-- A run that succeeds has read its files. -/
theorem runOn_eq_ok {s : Store} : runOn pool fs settings root = .ok s ↔ ∃ paths files,
    sources pool fs settings root = .ok paths ∧ readFiles fs paths = .ok files ∧
      s = storeOf settings.grouping files := by
  cases h : sources pool fs settings root with
  | error e => simp [runOn, h]
  | ok paths => simp [runOn, h, ofFiles_eq_ok]

theorem sources_directory_eq_ok {place : Location} {paths : List Path}
    (hRoot : fs.find root = .ok (.directory place)) : sources pool fs settings root = .ok paths ↔
      Walk.collect fs settings root place = .ok paths ∧ pool.refusal? (threads settings) = none := by
  rw [sources, hRoot]
  dsimp only
  cases Walk.collect fs settings root place with
  | error e => simp
  | ok paths => cases pool.refusal? (threads settings) <;> simp

theorem sources_of_refusal {place : Location} {paths : List Path} {reason : String}
    (hRoot : fs.find root = .ok (.directory place))
    (hCollect : Walk.collect fs settings root place = .ok paths)
    (hRefusal : pool.refusal? (threads settings) = some reason) :
    sources pool fs settings root = .error (.pool reason) := by
  simp only [sources, hRoot, hCollect, hRefusal]

/-- What a run does on one of its threads after the other is one of its answers. -/
theorem answers_runOn (pool : Pool) (fs : FileSystem) (settings : RunSettings) (root : Path) :
    Answers pool fs settings root (runOn pool fs settings root) := by
  rw [runOn]
  cases hSources : sources pool fs settings root with
  | error e => exact .refused hSources
  | ok paths =>
    dsimp only
    rw [ofFiles]
    cases hFiles : readFiles fs paths with
    | ok files => exact .counted hSources hFiles
    | error e =>
      obtain ⟨path, hPath, he⟩ := exists_of_readFiles_eq_error hFiles
      exact .failed hSources hPath he

/-- Without files that are read there is one answer. -/
theorem answers_of_sources_error {e : RunError} (h : sources pool fs settings root = .error e)
    (answer : Except RunError Store) : Answers pool fs settings root answer ↔ answer = .error e := by
  constructor
  · rintro (hRefused | ⟨hSources, -⟩ | ⟨hSources, -, -⟩)
    · exact congrArg Except.error (Except.error.inj (hRefused.symm.trans h))
    · cases h.symm.trans hSources
    · cases h.symm.trans hSources
  · rintro rfl
    exact .refused h

theorem answers_iff {paths : List Path} (h : sources pool fs settings root = .ok paths)
    (answer : Except RunError Store) : Answers pool fs settings root answer ↔
      (∃ s, ofFiles fs settings paths = .ok s ∧ answer = .ok s) ∨
        ∃ path ∈ paths, ∃ e, readFile fs path = .error e ∧ answer = .error e := by
  constructor
  · rintro (hRefused | ⟨hSources, hFiles⟩ | ⟨hSources, hPath, he⟩)
    · cases h.symm.trans hRefused
    · obtain rfl := Except.ok.inj (h.symm.trans hSources)
      exact Or.inl ⟨_, ofFiles_eq_ok.mpr ⟨_, hFiles, rfl⟩, rfl⟩
    · obtain rfl := Except.ok.inj (h.symm.trans hSources)
      exact Or.inr ⟨_, hPath, _, he, rfl⟩
  · rintro (⟨s, hAll, rfl⟩ | ⟨path, hPath, e, he, rfl⟩)
    · obtain ⟨files, hFiles, rfl⟩ := ofFiles_eq_ok.mp hAll
      exact .counted h hFiles
    · exact .failed h hPath he

theorem answers_ok_iff {s : Store} :
    Answers pool fs settings root (.ok s) ↔ runOn pool fs settings root = .ok s := by
  cases hSources : sources pool fs settings root with
  | error e => simp [answers_of_sources_error hSources, runOn, hSources]
  | ok paths => simp [answers_iff hSources, runOn, hSources]

/-- A run that may answer with an error has no other answer than errors. -/
theorem Answers.exists_error {e : RunError} (h : Answers pool fs settings root (.error e)) :
    ∃ e', runOn pool fs settings root = .error e' := by
  cases hRun : runOn pool fs settings root with
  | error e' => exact ⟨e', rfl⟩
  | ok s =>
    obtain ⟨paths, -, hSources, -⟩ := runOn_eq_ok.mp hRun
    rw [runOn_of_sources hSources] at hRun
    obtain ⟨_, -, hAnswer⟩ | ⟨path, hPath, e', he, -⟩ := (answers_iff hSources _).mp h
    · cases hAnswer
    · exact (ofFiles_ne_ok hPath he s hRun).elim

end

end Run

/-- The store of a run is the replay of a log, in which each file that has been read makes its group
and puts its records there. -/
theorem run_isReplay {fs : FileSystem} {settings : RunSettings} {root : Path} {s : Store}
    (h : run fs settings root = .ok s) : ∃ paths files, Run.readFiles fs paths = .ok files ∧
      s.IsReplay (files.flatMap fun f => Run.eventsOf settings.grouping f.1 f.2) := by
  obtain ⟨paths, files, -, hFiles, rfl⟩ := Run.runOn_eq_ok.mp h
  obtain ⟨b, hStore, hLog⟩ := Run.exists_build settings.grouping files
  exact ⟨paths, files, hFiles, hStore ▸ hLog ▸ b.isReplay⟩

/-! ## Directories -/

theorem runOn_eq_ofFiles {pool : Pool} {fs : FileSystem} {settings : RunSettings} {path : Path}
    (hSource : path.isGoSource = true) (hClean : path.clean = path)
    (h : (∃ content, fs.find path = .ok (.file content)) ∨
      fs.find path = .error .nameTooLong) :
    runOn pool fs settings path = Run.ofFiles fs settings [path] := by
  rcases h with ⟨content, h⟩ | h
  · simp [runOn, Run.sources, h, hSource, hClean]
  · simp [runOn, Run.sources, h, Run.ofFiles, Run.readFiles, Run.readFile, FileSystem.readText,
      FileSystem.readBytes]

/-- A collected file is read by a run of its own as by the run of the directory. -/
theorem run_collected {fs : FileSystem} (hFs : fs.WellFormed) {settings : RunSettings}
    {root : Path} {place : Location} (hRoot : fs.find root = .ok (.directory place))
    {paths : List Path} (hCollect : Walk.collect fs settings root place = .ok paths) {path : Path}
    (hPath : path ∈ paths) (pool : Pool) :
    runOn pool fs settings path = Run.ofFiles fs settings [path] := by
  obtain ⟨excludes, hPatterns⟩ := Walk.exists_rules_of_collect hCollect
  obtain ⟨ways, rfl, -, hMem⟩ := Walk.ways_of_collect hFs hRoot hPatterns hCollect
  obtain ⟨way, hWay, rfl⟩ := List.mem_map.mp hPath
  obtain ⟨⟨content, hHolds⟩, hTaken, _⟩ := ((hMem way).mp hWay).2
  have hNames := hHolds.isName (FileSystem.entriesAt_find hFs hRoot)
  refine runOn_eq_ofFiles ?_ (Path.clean_clean _)
    ((FileSystem.find_clean_below hFs hRoot hHolds).imp_left fun h => ⟨content, h⟩)
  obtain ⟨above, name, rfl⟩ := way.eq_nil_or_concat'.resolve_left hHolds.ne_nil
  have hTakes := (Walk.takes_iff (fun n hn => hNames n (List.mem_append_left _ hn))
    (hNames name (by simp))).mpr (hTaken above name rfl).1
  rw [Path.isGoSource_clean]
  exact (Bool.and_eq_true_iff.mp hTakes).1

namespace Run

/-- The answers of a run of a directory are put together from the runs of its files. -/
structure Merges (pool : Pool) (fs : FileSystem) (settings : RunSettings) (root : Path)
    (paths : List Path) : Prop where
  /-- If all files can be counted, their stores are merged in the order of the files. -/
  merged : ∀ stores, List.Forall₂ (fun path s => runOn pool fs settings path = .ok s) paths stores →
    ∀ answer, Answers pool fs settings root answer ↔
      answer = .ok (stores.foldl Store.merge .empty)
  /-- If one of them cannot be counted, there is an error, which is that of some file. -/
  failed : ∀ path ∈ paths, ∀ e, runOn pool fs settings path = .error e →
    ∀ answer, Answers pool fs settings root answer ↔
      ∃ path' ∈ paths, ∃ e', runOn pool fs settings path' = .error e' ∧ answer = .error e'
  /-- If it is the only one, the error is its own. -/
  failedAlone : ∀ path ∈ paths, ∀ e, runOn pool fs settings path = .error e →
    (∀ path' ∈ paths, path' ≠ path → ∃ s, runOn pool fs settings path' = .ok s) →
    ∀ answer, Answers pool fs settings root answer ↔ answer = .error e
  /-- With another number of threads there may be no answer but these. -/
  workers : ∀ workers, pool.refusal? (max workers 1) = none → ∀ answer,
    Answers pool fs { settings with workers } root answer ↔ Answers pool fs settings root answer

section

-- Each file is read by a run of its own as by the run of the directory.
variable {pool : Pool} {fs : FileSystem} {settings : RunSettings} {root : Path} {paths : List Path}
  (hSources : sources pool fs settings root = .ok paths)
  (hRuns : ∀ path ∈ paths, runOn pool fs settings path = ofFiles fs settings [path])

include hSources hRuns

theorem answers_merged {stores : List Store}
    (h : List.Forall₂ (fun path s => runOn pool fs settings path = .ok s) paths stores)
    (answer : Except RunError Store) :
    Answers pool fs settings root answer ↔ answer = .ok (stores.foldl Store.merge .empty) := by
  have hAll : ofFiles fs settings paths = .ok (stores.foldl Store.merge .empty) := by
    refine ofFiles_eq_merge (((List.forall₂_and_left _ _).mpr ⟨hRuns, h⟩).imp ?_)
    rintro path s ⟨hAlone, hs⟩
    exact hAlone.symm.trans hs
  rw [answers_iff hSources, or_iff_left]
  · rw [hAll]
    simp
  · rintro ⟨path, hPath, e, he, -⟩
    exact ofFiles_ne_ok hPath he _ hAll

theorem answers_failed {path : Path} (hPath : path ∈ paths) {e : RunError}
    (he : runOn pool fs settings path = .error e) (answer : Except RunError Store) :
    Answers pool fs settings root answer ↔ ∃ path' ∈ paths, ∃ e',
      runOn pool fs settings path' = .error e' ∧ answer = .error e' := by
  have hError : ∀ path' ∈ paths, ∀ e', runOn pool fs settings path' = .error e' ↔
      readFile fs path' = .error e' := fun path' hPath' e' => by
    rw [hRuns path' hPath', ofFiles_singleton_eq_error]
  rw [answers_iff hSources, or_iff_right]
  · refine exists_congr fun path' => and_congr_right fun hPath' => exists_congr fun e' => ?_
    rw [hError path' hPath']
  · rintro ⟨s, hAll, -⟩
    exact ofFiles_ne_ok hPath ((hError path hPath e).mp he) s hAll

theorem answers_failedAlone {path : Path} (hPath : path ∈ paths) {e : RunError}
    (he : runOn pool fs settings path = .error e)
    (hOthers : ∀ path' ∈ paths, path' ≠ path → ∃ s, runOn pool fs settings path' = .ok s)
    (answer : Except RunError Store) :
    Answers pool fs settings root answer ↔ answer = .error e := by
  rw [answers_failed hSources hRuns hPath he]
  constructor
  · rintro ⟨path', hPath', e', he', rfl⟩
    by_cases hSame : path' = path
    · rw [hSame, he] at he'
      rw [Except.error.inj he']
    · obtain ⟨s, hs⟩ := hOthers path' hPath' hSame
      cases hs.symm.trans he'
  · rintro rfl
    exact ⟨path, hPath, e, he, rfl⟩

end

end Run

/-- The run of a directory is the merge of the runs of the files that the walk collects, if its
threads can be started; and however they are scheduled, there is one answer as long as no two files
fail. -/
theorem run_directory_eq_merge {fs : FileSystem} (hFs : fs.WellFormed) {settings : RunSettings}
    {root : Path} {place : Location} (hRoot : fs.find root = .ok (.directory place))
    {paths : List Path} (hCollect : Walk.collect fs settings root place = .ok paths) (pool : Pool) :
    (pool.refusal? (Run.threads settings) = none → Run.Merges pool fs settings root paths) ∧
    (∀ reason, pool.refusal? (Run.threads settings) = some reason →
      ∀ answer, Run.Answers pool fs settings root answer ↔ answer = .error (.pool reason)) ∧
    Run.Answers pool fs settings root (runOn pool fs settings root) := by
  refine ⟨fun hPool => ?_, fun reason hRefusal =>
    Run.answers_of_sources_error (Run.sources_of_refusal hRoot hCollect hRefusal),
    Run.answers_runOn pool fs settings root⟩
  have hSources := (Run.sources_directory_eq_ok hRoot).mpr ⟨hCollect, hPool⟩
  have hRuns : ∀ path ∈ paths, runOn pool fs settings path = Run.ofFiles fs settings [path] :=
    fun _ hPath => run_collected hFs hRoot hCollect hPath pool
  refine ⟨fun stores => Run.answers_merged hSources hRuns,
    fun path hPath e => Run.answers_failed hSources hRuns hPath,
    fun path hPath e => Run.answers_failedAlone hSources hRuns hPath,
    fun workers hWorkers answer => ?_⟩
  have hSources' : Run.sources pool fs { settings with workers } root = .ok paths :=
    (Run.sources_directory_eq_ok hRoot).mpr ⟨hCollect, hWorkers⟩
  rw [Run.answers_iff hSources, Run.answers_iff hSources']
  rfl

/-- A directory of two source files, with two functions each. -/
def pairTree : FileSystem where
  top := [(Path.ofString "p", .directory
    [(Path.ofString "a.go", .file (Path.ofString (String.ofList Go.SourceFile.twoFunctions))),
      (Path.ofString "b.go", .file (Path.ofString (String.ofList Go.SourceFile.twoFunctions)))])]
  current := []

/-- The place of the directory. -/
def pairPlace : Location :=
  match pairTree.top with
  | [(name, .directory es)] => [(name, es)]
  | _ => []

/-- The store of one of the two files. -/
def storeOfOne (path : Path) : Store :=
  Run.addFile .directory .empty path ⟨['q'], [⟨['f'], 2, 2⟩, ⟨['g'], 3, 4⟩]⟩

/-- The directory of two files is counted by counting the one file after the other. -/
theorem run_pair_eq_merge :
    pairTree.WellFormed ∧ pairTree.find (Path.ofString "p") = .ok (.directory pairPlace) ∧
    run pairTree .standard (Path.ofString "p/a.go") = .ok (storeOfOne (Path.ofString "p/a.go")) ∧
    run pairTree .standard (Path.ofString "p/b.go") = .ok (storeOfOne (Path.ofString "p/b.go")) ∧
    run pairTree .standard (Path.ofString "p") = .ok ((Store.empty.merge
      (storeOfOne (Path.ofString "p/a.go"))).merge (storeOfOne (Path.ofString "p/b.go"))) ∧
    ((Store.empty.merge (storeOfOne (Path.ofString "p/a.go"))).merge
      (storeOfOne (Path.ofString "p/b.go"))).records.map (fun r => (r.name, r.file)) =
        [("f", Path.ofString "p/a.go"), ("g", Path.ofString "p/a.go"),
          ("f", Path.ofString "p/b.go"), ("g", Path.ofString "p/b.go")] := by
  have hFs : pairTree.WellFormed := by decide
  have hRoot : pairTree.find (Path.ofString "p") = .ok (.directory pairPlace) := rfl
  have hCollect : Walk.collect pairTree .standard (Path.ofString "p") pairPlace =
      .ok [Path.ofString "p/a.go", Path.ofString "p/b.go"] := by decide +kernel
  have hRun {path : Path} (hPath : path ∈ [Path.ofString "p/a.go", Path.ofString "p/b.go"])
      (hText : pairTree.readText path = .ok Go.SourceFile.twoFunctions) :
      run pairTree .standard path = .ok (storeOfOne path) :=
    (run_collected hFs hRoot hCollect hPath .ready).trans (Run.ofFiles_singleton_eq_ok.mpr
      ⟨_, Run.readFile_of_parse hText Go.SourceFile.parse_twoFunctions, rfl⟩)
  have hFirst := hRun (by simp) (by decide +kernel : pairTree.readText (Path.ofString "p/a.go") = _)
  have hSecond := hRun (by simp) (by decide +kernel : pairTree.readText (Path.ofString "p/b.go") = _)
  have hMerges := (run_directory_eq_merge hFs hRoot hCollect .ready).1 rfl
  have hAnswer := (hMerges.merged _ (.cons hFirst (.cons hSecond .nil)) _).mp
    (Run.answers_runOn .ready pairTree .standard (Path.ofString "p"))
  rw [List.foldl_cons, List.foldl_cons, List.foldl_nil] at hAnswer
  exact ⟨hFs, hRoot, hFirst, hSecond, hAnswer, by decide +kernel⟩

end FuncSpans
