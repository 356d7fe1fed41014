import FuncSpans.Proofs.Run.Merge

/-!
# What the run of a directory counts

The run of a directory reads the files that its walk collects, in the order of the walk, and puts
their records into a store (`run_directory_eq_ok`). The store has just these records
(`Run.mem_records_storeOf`).
-/

namespace FuncSpans

namespace Run

/-- The files are read under the paths that are asked for, in their order. -/
theorem map_fst_of_readFiles {fs : FileSystem} {paths : List Path}
    {files : List (Path × Go.SourceFile)} (h : readFiles fs paths = .ok files) :
    files.map Prod.fst = paths := by
  induction paths generalizing files with
  | nil => cases h; rfl
  | cons path paths ih =>
    unfold readFiles at h
    split at h
    · cases h
    · split at h
      · cases h
      · rename_i rest hRest
        cases h
        rw [List.map_cons, ih hRest]

theorem file_of_mem_recordsOf {grouping : Grouping} {path : Path} {file : Go.SourceFile}
    {r : Record} (h : r ∈ recordsOf grouping path file) : r.file = path := by
  obtain ⟨f, _, rfl⟩ := List.mem_map.mp h
  rfl

theorem inserted_eventsOf (grouping : Grouping) (files : List (Path × Go.SourceFile)) :
    Store.inserted (files.flatMap fun f => eventsOf grouping f.1 f.2) =
      files.flatMap fun f => recordsOf grouping f.1 f.2 := by
  have hRecords (rs : List Record) :
      (rs.map Store.Event.insert).filterMap Store.Event.record? = rs := by
    rw [List.filterMap_map]
    exact List.filterMap_some
  rw [Store.inserted, List.filterMap_flatMap]
  refine List.flatMap_congr fun f _ => ?_
  rw [eventsOf, List.filterMap_cons_none rfl, hRecords]

/-- The store of some files has the records of these files. -/
theorem mem_records_storeOf {grouping : Grouping} {files : List (Path × Go.SourceFile)}
    {r : Record} : r ∈ (storeOf grouping files).records ↔
      r ∈ files.flatMap fun f => recordsOf grouping f.1 f.2 := by
  obtain ⟨b, hStore, hLog⟩ := exists_build grouping files
  have hReplay := b.isReplay
  rw [← inserted_eventsOf, ← hLog, ← hStore, Store.records, hReplay.groups_eq]
  simp only [List.mem_flatMap, List.mem_map, exists_exists_and_eq_and, Store.insertedInto,
    List.mem_filter, decide_eq_true_eq]
  constructor
  · rintro ⟨name, _, hr, _⟩
    exact hr
  · intro hr
    obtain ⟨e, he, hRecord⟩ := List.mem_filterMap.mp hr
    refine ⟨r.group, ?_, hr, rfl⟩
    rw [hReplay.mem_names_iff]
    refine ⟨e, he, ?_⟩
    cases e with
    | insert q => exact congrArg Record.group (Option.some.inj hRecord)
    | ensure _ => cases hRecord

theorem storeOf_ne_empty {grouping : Grouping} {files : List (Path × Go.SourceFile)}
    (h : files ≠ []) : storeOf grouping files ≠ .empty := by
  obtain ⟨f, files, rfl⟩ := List.exists_cons_of_ne_nil h
  obtain ⟨b, hStore, hLog⟩ := exists_build grouping (f :: files)
  have hMem : groupOf grouping f.1 f.2 ∈ b.store.names := by
    rw [b.isReplay.mem_names_iff, hLog]
    exact ⟨_, List.mem_flatMap_of_mem List.mem_cons_self List.mem_cons_self, rfl⟩
  intro hEmpty
  rw [hStore, hEmpty] at hMem
  cases hMem

end Run

/-- The run of a directory reads what the walk collects. -/
theorem runOn_directory_eq_ok {pool : Pool} {fs : FileSystem} {settings : RunSettings} {root : Path}
    {place : Location} (hRoot : fs.find root = .ok (.directory place)) {s : Store} :
    runOn pool fs settings root = .ok s ↔ pool.refusal? (Run.threads settings) = none ∧
      ∃ paths files, Walk.collect fs settings root place = .ok paths ∧
        Run.readFiles fs paths = .ok files ∧ s = Run.storeOf settings.grouping files := by
  rw [Run.runOn_eq_ok]
  constructor
  · rintro ⟨paths, files, hSources, hFiles, hStore⟩
    obtain ⟨hCollect, hPool⟩ := (Run.sources_directory_eq_ok hRoot).mp hSources
    exact ⟨hPool, paths, files, hCollect, hFiles, hStore⟩
  · rintro ⟨hPool, paths, files, hCollect, hFiles, hStore⟩
    exact ⟨paths, files, (Run.sources_directory_eq_ok hRoot).mpr ⟨hCollect, hPool⟩, hFiles, hStore⟩

theorem run_directory_eq_ok {fs : FileSystem} {settings : RunSettings} {root : Path}
    {place : Location} (hRoot : fs.find root = .ok (.directory place)) {s : Store} :
    run fs settings root = .ok s ↔ ∃ paths files, Walk.collect fs settings root place = .ok paths ∧
      Run.readFiles fs paths = .ok files ∧ s = Run.storeOf settings.grouping files :=
  (runOn_directory_eq_ok hRoot).trans (and_iff_right rfl)

/-- A run that collects a file does not succeed with an empty store: the file has a group. -/
theorem run_ne_empty {fs : FileSystem} {settings : RunSettings} {root : Path} {place : Location}
    (hRoot : fs.find root = .ok (.directory place)) {paths : List Path}
    (hCollect : Walk.collect fs settings root place = .ok paths) (hNe : paths ≠ []) :
    run fs settings root ≠ .ok .empty := by
  intro h
  obtain ⟨paths', files, hPaths, hFiles, hStore⟩ := (run_directory_eq_ok hRoot).mp h
  obtain rfl := Except.ok.inj (hCollect.symm.trans hPaths)
  refine Run.storeOf_ne_empty (fun hNil => hNe ?_) hStore.symm
  rw [← Run.map_fst_of_readFiles hFiles, hNil]
  rfl

end FuncSpans
