import FuncSpans.Proofs.Files.Texts
import FuncSpans.Proofs.Run.Failure
import FuncSpans.Proofs.Run.Subdirectory
import FuncSpans.Proofs.Source.Spans

/-!
# What grouping does

The grouping of a run decides under which name a record stands and nothing else. Every file that is
read puts its records into one group, so the store of some files has all of their records
(`Run.records_storeOf_perm`), whatever the groups are.

For directories a name says which one is meant as long as all names in the tree are texts
(`Path.Counted.display_directory_eq_iff`). In a group there are then the files of one directory. The
walk comes to them in the order of their names, though it goes into other directories in between
(`Run.Opens.sorted`), and so in the order of their paths.

`run_groupings` puts together what is true of both groupings.
-/

namespace FuncSpans

open FuncSpans.Path (Component IsName slash)

/-! ## Files of one directory -/

namespace Path

theorem joinParts_concat (parts : List Bytes) :
    ∃ front, ∀ name, joinParts (parts ++ [name]) = front ++ name := by
  induction parts with
  | nil => exact ⟨[], fun _ => rfl⟩
  | cons part parts ih =>
    obtain ⟨front, hFront⟩ := ih
    refine ⟨part ++ slash :: front, fun name => ?_⟩
    rw [List.cons_append, joinParts_cons part (by simp), hFront, List.append_assoc]
    rfl

/-- Paths with the same steps but for the last name are written with the same front. -/
theorem written_concat (cs : List Component) :
    ∃ front, ∀ name, written (cs ++ [.normal name]) = front ++ name := by
  have hJoin (ds : List Component) : ∃ front, ∀ name,
      joinParts ((ds ++ [Component.normal name]).map Component.text) = front ++ name := by
    obtain ⟨front, hFront⟩ := joinParts_concat (ds.map Component.text)
    exact ⟨front, fun name => by rw [List.map_append]; exact hFront name⟩
  cases cs with
  | nil => exact ⟨[], fun _ => rfl⟩
  | cons c cs =>
    cases c with
    | root =>
      obtain ⟨front, hFront⟩ := hJoin cs
      exact ⟨slash :: front, fun name => congrArg (slash :: ·) (hFront name)⟩
    | current | parent | normal => exact hJoin (_ :: cs)

theorem dropLast_steps_below {p : Path} {way : List Bytes} {name : Bytes}
    (h : ∀ n ∈ way ++ [name], IsName n) :
    (p.below (way ++ [name])).steps.dropLast = (p.below way).steps := by
  have hWay : ∀ n ∈ way, IsName n := fun n hn => h n (List.mem_append_left _ hn)
  rw [steps_eq, steps_eq, names_below h, names_below hWay, isAbsolute_below h,
    isAbsolute_below hWay]
  simp only [List.map_append, List.map_cons, List.map_nil, ← List.append_assoc,
    List.dropLast_concat]

/-- A path as a run gives it to a file: it is clean, ends in a name, and its names are texts. -/
structure Counted (p : Path) : Prop where
  clean : p.clean = p
  fileName : ∃ name, p.fileName? = some name
  texts : p.NamesAreTexts

variable {p q : Path}

/-- The directory of a counted file is told by how it is shown. -/
theorem Counted.display_directory_eq_iff (hp : p.Counted) (hq : q.Counted) :
    p.directory.display = q.directory.display ↔ p.steps.dropLast = q.steps.dropLast := by
  obtain ⟨hpClean, ⟨a, ha⟩, hpTexts⟩ := hp
  obtain ⟨hqClean, ⟨b, hb⟩, hqTexts⟩ := hq
  have hpText := isText_directory ha hpTexts
  have hqText := isText_directory hb hqTexts
  have hpSteps := steps_directory ha
  have hqSteps := steps_directory hb
  have hpDirectory := clean_directory ha
  have hqDirectory := clean_directory hb
  rw [hpClean] at hpText hpSteps hpDirectory
  rw [hqClean] at hqText hqSteps hqDirectory
  constructor
  · intro h
    have hSame : p.directory = q.directory := by
      rw [← ofString_display hpText, h, ofString_display hqText]
    rw [← hpSteps, ← hqSteps, hSame]
  · intro h
    have hSame : p.directory.clean = q.directory.clean :=
      clean_eq_iff.mpr (by rw [hpSteps, hqSteps, h])
    rw [← hpDirectory, ← hqDirectory, hSame]

/-- In one directory files are in the order of their names. -/
theorem lt_of_fileName?_lt (hp : p.clean = p) (hq : q.clean = q) {a b : Bytes}
    (ha : p.fileName? = some a) (hb : q.fileName? = some b)
    (hSame : p.steps.dropLast = q.steps.dropLast) (hLt : a < b) : p < q := by
  obtain ⟨front, hFront⟩ := written_concat p.steps.dropLast
  have hpSteps := List.dropLast_append_getLast? _ (fileName?_eq_some.mp ha)
  have hqSteps := List.dropLast_append_getLast? _ (fileName?_eq_some.mp hb)
  have hp' : p = front ++ a := by rw [← hFront a, hpSteps, ← clean_eq_written, hp]
  have hq' : q = front ++ b := by rw [← hFront b, hSame, hqSteps, ← clean_eq_written, hq]
  rw [hp', hq']
  exact List.append_left_lt hLt

end Path

/-! ## The files of a run -/

namespace Walk

theorem Precedes.before_of_concat {above : List Bytes} {a b : Bytes}
    (h : Precedes (above ++ [a]) (above ++ [b])) : Bytes.before a b = true := by
  induction above with
  | nil =>
    cases h with
    | cons h => cases h
    | rel h => exact h
  | cons name above ih =>
    cases h with
    | cons h => exact ih h
    | rel h =>
      rw [Bytes.not_before_self] at h
      cases h

end Walk

namespace Run

variable {fs : FileSystem} {settings : RunSettings} {root : Path} {paths : List Path}
  {files : List (Path × Go.SourceFile)}

theorem Opens.counted (hFs : fs.WellFormed) (hTexts : fs.NamesAreTexts)
    (h : Opens fs settings root paths) : ∀ p ∈ paths, p.Counted := by
  cases h with
  | file hRoot hGo =>
    refine List.forall_mem_singleton.mpr ⟨Path.clean_clean root, ?_, ?_⟩
    · rw [Path.fileName?_clean]
      rw [Path.isGoSource] at hGo
      split at hGo
      · exact ⟨_, by assumption⟩
      · cases hGo
    · rw [Path.NamesAreTexts, Path.names_clean]
      exact FileSystem.namesAreTexts_of_find hTexts hRoot
  | directory hRoot hCollect =>
    obtain ⟨ways, rfl, -, hFile⟩ := Walk.exists_ways hFs hRoot hCollect
    intro p hp
    obtain ⟨way, hWay, rfl⟩ := List.mem_map.mp hp
    obtain ⟨content, hHolds⟩ := hFile way hWay
    have hNames := hHolds.isName (FileSystem.entriesAt_find hFs hRoot)
    refine ⟨Path.clean_clean _, ?_, ?_⟩
    · obtain ⟨above, name, rfl⟩ := way.eq_nil_or_concat'.resolve_left hHolds.ne_nil
      exact ⟨name, by rw [Path.fileName?_clean, Path.fileName?_below hNames]⟩
    · rw [Path.NamesAreTexts, Path.names_clean]
      have hPlace := FileSystem.isPlace_of_find hRoot
      exact (FileSystem.namesAreTexts_of_find hTexts hRoot).below hNames
        (hPlace.namesAreTexts hTexts way _ hHolds)

/-- The files of one directory are in the order of their paths. -/
theorem Opens.sorted (hFs : fs.WellFormed) (h : Opens fs settings root paths) :
    paths.Pairwise fun p q => p.steps.dropLast = q.steps.dropLast → p < q := by
  cases h with
  | file => exact List.pairwise_singleton _ _
  | directory hRoot hCollect =>
    obtain ⟨ways, rfl, hSorted, hFile⟩ := Walk.exists_ways hFs hRoot hCollect
    refine List.pairwise_map.mpr (hSorted.imp_of_mem fun {way way'} hWay hWay' hLt hSame => ?_)
    obtain ⟨_, hHolds⟩ := hFile way hWay
    obtain ⟨_, hHolds'⟩ := hFile way' hWay'
    have hNames := hHolds.isName (FileSystem.entriesAt_find hFs hRoot)
    have hNames' := hHolds'.isName (FileSystem.entriesAt_find hFs hRoot)
    obtain ⟨above, a, rfl⟩ := way.eq_nil_or_concat'.resolve_left hHolds.ne_nil
    obtain ⟨above', b, rfl⟩ := way'.eq_nil_or_concat'.resolve_left hHolds'.ne_nil
    -- In one directory the ways differ in the last name only, and this name decides their order.
    have hAbove : above = above' := by
      rw [Path.steps_clean, Path.steps_clean, Path.dropLast_steps_below hNames,
        Path.dropLast_steps_below hNames', ← Path.clean_eq_iff] at hSame
      exact Path.clean_below_injective (fun n hn => hNames n (List.mem_append_left _ hn))
        (fun n hn => hNames' n (List.mem_append_left _ hn)) hSame
    subst hAbove
    have hFileName {name : Bytes} (hNames : ∀ n ∈ above ++ [name], IsName n) :
        (root.below (above ++ [name])).clean.fileName? = some name := by
      rw [Path.fileName?_clean, Path.fileName?_below hNames]
    exact Path.lt_of_fileName?_lt (Path.clean_clean _) (Path.clean_clean _) (hFileName hNames)
      (hFileName hNames') hSame (Bytes.before_iff_lt.mp hLt.before_of_concat)

/-- Which files are opened does not depend on the grouping. -/
theorem opens_grouping_iff {grouping : Grouping} :
    Opens fs { settings with grouping } root paths ↔ Opens fs settings root paths := by
  constructor <;> rintro (⟨hRoot, hGo⟩ | ⟨hRoot, hCollect⟩)
  · exact .file hRoot hGo
  · exact .directory hRoot hCollect
  · exact .file hRoot hGo
  · exact .directory hRoot hCollect

/-- A run succeeds if the files that it opens can be read, however it groups their records. -/
theorem run_eq_ok_iff {grouping : Grouping} {s : Store} :
    run fs { settings with grouping } root = .ok s ↔ ∃ paths files, Opens fs settings root paths ∧
      readFiles fs paths = .ok files ∧ s = storeOf grouping files := by
  constructor
  · intro h
    obtain ⟨paths, files, hSources, hFiles, hStore⟩ := runOn_eq_ok.mp h
    exact ⟨paths, files, opens_grouping_iff.mp (opens_of_sources hSources), hFiles, hStore⟩
  · rintro ⟨paths, files, hOpens, hFiles, rfl⟩
    rw [(opens_grouping_iff.mpr hOpens).run_eq]
    exact ofFiles_eq_ok.mpr ⟨files, hFiles, rfl⟩

/-- The files that are opened are told by the root. -/
theorem Opens.unique {paths' : List Path} (h : Opens fs settings root paths)
    (h' : Opens fs settings root paths') : paths = paths' := by
  cases h with
  | file hRoot =>
    cases h' with
    | file => rfl
    | directory hRoot' => cases hRoot.symm.trans hRoot'
  | directory hRoot hCollect =>
    cases h' with
    | file hRoot' => cases hRoot.symm.trans hRoot'
    | directory hRoot' hCollect' =>
      cases hRoot.symm.trans hRoot'
      exact Except.ok.inj (hCollect.symm.trans hCollect')

theorem readFile_of_mem (h : readFiles fs paths = .ok files) :
    ∀ f ∈ files, readFile fs f.1 = .ok f.2 := by
  induction paths generalizing files with
  | nil =>
    cases h
    exact fun f hf => (List.not_mem_nil hf).elim
  | cons path paths ih =>
    unfold readFiles at h
    split at h
    · cases h
    rename_i file hFile
    split at h
    · cases h
    rename_i rest hRest
    cases h
    exact List.forall_mem_cons.mpr ⟨hFile, ih hRest⟩

/-- The functions of a file that has been read begin in their order. -/
theorem pairwise_first {path : Path} {file : Go.SourceFile} (h : readFile fs path = .ok file) :
    file.functions.Pairwise fun f g => f.first ≤ g.first := by
  unfold readFile at h
  split at h
  · cases h
  split at h
  · cases h
  rename_i hParse
  cases h
  have hLined := Go.SourceFile.lined_parse hParse
  refine hLined.ordered.imp_of_mem fun {f g} hf _ hLe => ?_
  obtain ⟨_, _, hSpan, _⟩ := hLined.span f hf
  omega

end Run

/-! ## Records in order -/

namespace Record

/-- A record without its group. -/
def ungrouped (r : Record) : Record := { r with group := "" }

/-- One record comes before another: its file does by its bytes, or they are of one file and it
begins no later. -/
def InOrder (r r' : Record) : Prop := r.file < r'.file ∨ r.file = r'.file ∧ r.startsAt ≤ r'.startsAt

end Record

namespace Run

variable {fs : FileSystem} {settings : RunSettings} {root : Path} {paths : List Path}
  {files : List (Path × Go.SourceFile)}

theorem ungrouped_recordsOfFiles (grouping grouping' : Grouping)
    (files : List (Path × Go.SourceFile)) :
    (recordsOfFiles grouping files).map Record.ungrouped =
      (recordsOfFiles grouping' files).map Record.ungrouped := by
  have hFile (grouping : Grouping) (f : Path × Go.SourceFile) :
      (recordsOf grouping f.1 f.2).map Record.ungrouped =
        f.2.functions.map fun g => ⟨"", String.ofList f.2.package, String.ofList g.name, f.1,
          g.first, g.last⟩ := by
    rw [recordsOf, List.map_map]
    rfl
  simp only [recordsOfFiles, List.map_flatMap, hFile]

/-- In the files of one directory the records are in order. -/
theorem pairwise_recordsOfFiles (hFs : fs.WellFormed) (hOpens : Opens fs settings root paths)
    (hFiles : readFiles fs paths = .ok files) (grouping : Grouping) :
    (recordsOfFiles grouping files).Pairwise fun r r' =>
      r.file.steps.dropLast = r'.file.steps.dropLast → r.InOrder r' := by
  refine List.pairwise_flatMap.mpr ⟨fun f hf => ?_, ?_⟩
  · refine List.pairwise_map.mpr ((pairwise_first (readFile_of_mem hFiles f hf)).imp ?_)
    exact fun hLe _ => Or.inr ⟨rfl, hLe⟩
  · have hSorted := hOpens.sorted hFs
    rw [← map_fst_of_readFiles hFiles, List.pairwise_map] at hSorted
    refine hSorted.imp fun hLt r hr r' hr' hSame => Or.inl ?_
    rw [file_of_mem_recordsOf hr, file_of_mem_recordsOf hr'] at hSame ⊢
    exact hLt hSame

end Run

/-! ## The groups of a store -/

theorem Store.records_appendTo_perm (name : String) (rs : List Record)
    (gs : List (String × List Record)) :
    ((appendTo name rs gs).flatMap (·.2)).Perm (gs.flatMap (·.2) ++ rs) := by
  induction gs with
  | nil => simp [appendTo]
  | cons g gs ih =>
    rw [appendTo]
    split_ifs
    · exact List.perm_append_comm
    · simpa only [List.flatMap_cons, List.append_assoc] using
        List.perm_append_comm.append_left g.2
    · simpa only [List.flatMap_cons, List.append_assoc] using ih.append_left g.2

namespace Run

theorem records_addFile_perm (grouping : Grouping) (s : Store) (path : Path)
    (file : Go.SourceFile) :
    (addFile grouping s path file).records.Perm (s.records ++ recordsOf grouping path file) := by
  rw [addFile, Store.foldl_insert fun _ => group_of_mem_recordsOf]
  exact Store.records_appendTo_perm _ _ _

/-- The store of some files has all of their records. -/
theorem records_storeOf_perm (grouping : Grouping) (files : List (Path × Go.SourceFile)) :
    (storeOf grouping files).records.Perm (recordsOfFiles grouping files) := by
  have hFold (s : Store) : (files.foldl (fun s f => addFile grouping s f.1 f.2) s).records.Perm
      (s.records ++ recordsOfFiles grouping files) := by
    induction files generalizing s with
    | nil => simp [recordsOfFiles]
    | cons f files ih =>
      refine (ih _).trans ?_
      have hCons : recordsOfFiles grouping (f :: files) =
          recordsOf grouping f.1 f.2 ++ recordsOfFiles grouping files := List.flatMap_cons
      rw [hCons, ← List.append_assoc]
      exact (records_addFile_perm grouping s f.1 f.2).append_right _
  exact hFold .empty

theorem mem_names_storeOf {grouping : Grouping} {files : List (Path × Go.SourceFile)}
    {name : String} : name ∈ (storeOf grouping files).names ↔
      ∃ f ∈ files, name = groupOf grouping f.1 f.2 := by
  obtain ⟨b, hStore, hLog⟩ := exists_build grouping files
  rw [← hStore, b.isReplay.mem_names_iff, hLog]
  constructor
  · rintro ⟨e, he, rfl⟩
    obtain ⟨f, hf, he⟩ := List.mem_flatMap.mp he
    refine ⟨f, hf, ?_⟩
    rcases List.mem_cons.mp he with rfl | he
    · rfl
    · obtain ⟨r, hr, rfl⟩ := List.mem_map.mp he
      exact group_of_mem_recordsOf hr
  · rintro ⟨f, hf, rfl⟩
    exact ⟨_, List.mem_flatMap_of_mem hf List.mem_cons_self, rfl⟩

/-- The records of a group, in the order of the files. -/
theorem eq_filter_of_mem_groups {grouping : Grouping} {files : List (Path × Go.SourceFile)}
    {name : String} {rs : List Record} (h : (name, rs) ∈ (storeOf grouping files).groups) :
    rs = (recordsOfFiles grouping files).filter (·.group = name) := by
  obtain ⟨b, hStore, hLog⟩ := exists_build grouping files
  rw [← hStore] at h
  rw [b.isReplay.eq_of_mem h, Store.insertedInto, hLog, inserted_eventsOf]
  rfl

/-- The records of a store stand in the groups that they name. -/
def Grouped (s : Store) : Prop := ∀ name rs, (name, rs) ∈ s.groups → ∀ r ∈ rs, r.group = name

/-- The store of some files by their packages. -/
structure ByPackage (files : List (Path × Go.SourceFile)) (s : Store) : Prop where
  grouped : Grouped s
  group_eq : ∀ r ∈ s.records, r.group = r.package
  mem_names_iff : ∀ name, name ∈ s.names ↔ ∃ f ∈ files, name = String.ofList f.2.package

/-- The store of some files by their directories. -/
structure ByDirectory (files : List (Path × Go.SourceFile)) (s : Store) : Prop where
  grouped : Grouped s
  clean : ∀ r ∈ s.records, r.file.clean = r.file
  group_eq : ∀ r ∈ s.records, r.group = r.file.directory.display
  /-- A directory is told by all steps of a file but the last one. -/
  group_eq_iff : ∀ r ∈ s.records, ∀ r' ∈ s.records,
    r.group = r'.group ↔ r.file.steps.dropLast = r'.file.steps.dropLast
  mem_names_iff : ∀ name, name ∈ s.names ↔ ∃ f ∈ files, name = f.1.directory.display
  ordered : ∀ name rs, (name, rs) ∈ s.groups → rs.Pairwise Record.InOrder

theorem grouped_storeOf (grouping : Grouping) (files : List (Path × Go.SourceFile)) :
    Grouped (storeOf grouping files) := by
  intro name rs h r hr
  rw [eq_filter_of_mem_groups h] at hr
  exact of_decide_eq_true (List.mem_filter.mp hr).2

theorem byPackage_storeOf (files : List (Path × Go.SourceFile)) :
    ByPackage files (storeOf .package files) where
  grouped := grouped_storeOf _ _
  group_eq r hr := by
    obtain ⟨f, -, hr⟩ := List.mem_flatMap.mp (mem_records_storeOf.mp hr)
    obtain ⟨g, -, rfl⟩ := List.mem_map.mp hr
    rfl
  mem_names_iff _ := mem_names_storeOf

variable {fs : FileSystem} {settings : RunSettings} {root : Path} {paths : List Path}
  {files : List (Path × Go.SourceFile)}

theorem byDirectory_storeOf (hFs : fs.WellFormed) (hTexts : fs.NamesAreTexts)
    (hOpens : Opens fs settings root paths) (hFiles : readFiles fs paths = .ok files) :
    ByDirectory files (storeOf .directory files) := by
  have hMap := map_fst_of_readFiles hFiles
  have hRecord : ∀ r ∈ recordsOfFiles .directory files,
      r.file.Counted ∧ r.group = r.file.directory.display := by
    intro r hr
    obtain ⟨f, hf, hr⟩ := List.mem_flatMap.mp hr
    rw [file_of_mem_recordsOf hr, group_of_mem_recordsOf hr]
    exact ⟨hOpens.counted hFs hTexts _ (hMap ▸ List.mem_map_of_mem hf), rfl⟩
  have hGroup : ∀ r ∈ recordsOfFiles .directory files, ∀ r' ∈ recordsOfFiles .directory files,
      r.group = r'.group ↔ r.file.steps.dropLast = r'.file.steps.dropLast := by
    intro r hr r' hr'
    rw [(hRecord r hr).2, (hRecord r' hr').2]
    exact (hRecord r hr).1.display_directory_eq_iff (hRecord r' hr').1
  have hStore {r : Record} (hr : r ∈ (storeOf .directory files).records) :
      r ∈ recordsOfFiles .directory files := mem_records_storeOf.mp hr
  refine ⟨grouped_storeOf _ _, fun r hr => (hRecord r (hStore hr)).1.clean,
    fun r hr => (hRecord r (hStore hr)).2,
    fun r hr r' hr' => hGroup r (hStore hr) r' (hStore hr'), fun _ => mem_names_storeOf,
    fun name rs h => ?_⟩
  -- A group has the records of one directory, and between two of these the walk's order is the order
  -- of the paths.
  rw [eq_filter_of_mem_groups h]
  have hSorted := (pairwise_recordsOfFiles hFs hOpens hFiles .directory).filter (·.group = name)
  refine hSorted.imp_of_mem fun {r r'} hr hr' hInOrder => hInOrder ?_
  obtain ⟨hr, hName⟩ := List.mem_filter.mp hr
  obtain ⟨hr', hName'⟩ := List.mem_filter.mp hr'
  exact (hGroup r hr r' hr').mp
    ((of_decide_eq_true hName).trans (of_decide_eq_true hName').symm)

end Run

/-- Runs that group by directory and by package succeed together, in a tree whose names are texts,
and but for their groups they have the same records: those of the files that both have read. The
groups of the one are the packages of these files. The groups of the other are their directories,
and in a group the records stand in the order of their files and lines. -/
theorem run_groupings {fs : FileSystem} (hFs : fs.WellFormed) (hTexts : fs.NamesAreTexts)
    (settings : RunSettings) (root : Path) :
    ((∃ s, run fs { settings with grouping := .directory } root = .ok s) ↔
      ∃ s, run fs { settings with grouping := .package } root = .ok s) ∧
    ∀ d p, run fs { settings with grouping := .directory } root = .ok d →
      run fs { settings with grouping := .package } root = .ok p →
      (d.records.map Record.ungrouped).Perm (p.records.map Record.ungrouped) ∧
      ∃ paths files, Run.Opens fs settings root paths ∧ Run.readFiles fs paths = .ok files ∧
        Run.ByPackage files p ∧ Run.ByDirectory files d := by
  refine ⟨?_, fun d p hd hp => ?_⟩
  · simp only [Run.run_eq_ok_iff]
    constructor <;> rintro ⟨_, paths, files, hOpens, hFiles, -⟩ <;>
      exact ⟨_, paths, files, hOpens, hFiles, rfl⟩
  · obtain ⟨paths, files, hOpens, hFiles, rfl⟩ := Run.run_eq_ok_iff.mp hd
    obtain ⟨paths', files', hOpens', hFiles', rfl⟩ := Run.run_eq_ok_iff.mp hp
    obtain rfl := hOpens.unique hOpens'
    obtain rfl := Except.ok.inj (hFiles.symm.trans hFiles')
    refine ⟨?_, paths, files, hOpens, hFiles, Run.byPackage_storeOf files,
      Run.byDirectory_storeOf hFs hTexts hOpens hFiles⟩
    have hPackage := (Run.records_storeOf_perm .package files).map Record.ungrouped
    rw [Run.ungrouped_recordsOfFiles .package .directory] at hPackage
    exact ((Run.records_storeOf_perm .directory files).map Record.ungrouped).trans hPackage.symm

/-- A tree with a file at its top and another one of the same package in a directory. -/
def groupTree : FileSystem where
  top :=
    [(Path.ofString "a", .directory [(Path.ofString "f.go",
        .file (Path.ofString (String.ofList Go.SourceFile.twoFunctions)))]),
      (Path.ofString "b.go", .file (Path.ofString (String.ofList Go.SourceFile.twoFunctions)))]
  current := []

/-- The two files as they are read. -/
def groupFiles : List (Path × Go.SourceFile) :=
  [(Path.ofString "a/f.go", ⟨['q'], [⟨['f'], 2, 2⟩, ⟨['g'], 3, 4⟩]⟩),
    (Path.ofString "b.go", ⟨['q'], [⟨['f'], 2, 2⟩, ⟨['g'], 3, 4⟩]⟩)]

/-- The files are in two directories and in one package. -/
theorem run_groupings_apart :
    groupTree.WellFormed ∧ groupTree.NamesAreTexts ∧
    ∃ d p, run groupTree { RunSettings.standard with grouping := .directory } RuleSet.here =
        .ok d ∧
      run groupTree { RunSettings.standard with grouping := .package } RuleSet.here = .ok p ∧
      (∀ name, name ∈ d.names ↔ name = "a" ∨ name = ".") ∧ (∀ name, name ∈ p.names ↔ name = "q") ∧
      (d.records.map Record.ungrouped).Perm (p.records.map Record.ungrouped) ∧
      d.records.map (fun r => (r.group, r.name, r.file)) =
        [(".", "f", Path.ofString "b.go"), (".", "g", Path.ofString "b.go"),
          ("a", "f", Path.ofString "a/f.go"), ("a", "g", Path.ofString "a/f.go")] := by
  have hFs : groupTree.WellFormed := by decide
  have hTexts : groupTree.NamesAreTexts := by
    refine Entries.NamesAreTexts.cons rfl (fun inner he => ?_)
      (Entries.NamesAreTexts.cons rfl (fun inner he => nomatch he) Entries.namesAreTexts_nil)
    obtain rfl := Node.directory.inj he
    exact Entries.NamesAreTexts.cons rfl (fun inner he => nomatch he) Entries.namesAreTexts_nil
  have hCollect : Walk.collect groupTree .standard RuleSet.here [] =
      .ok [Path.ofString "a/f.go", Path.ofString "b.go"] := by decide +kernel
  have hText : groupTree.readText (Path.ofString "a/f.go") = .ok Go.SourceFile.twoFunctions ∧
      groupTree.readText (Path.ofString "b.go") = .ok Go.SourceFile.twoFunctions := by
    decide +kernel
  have hFiles : Run.readFiles groupTree [Path.ofString "a/f.go", Path.ofString "b.go"] =
      .ok groupFiles :=
    Run.readFiles_cons (Run.readFile_of_parse hText.1 Go.SourceFile.parse_twoFunctions)
      (Run.readFiles_cons (Run.readFile_of_parse hText.2 Go.SourceFile.parse_twoFunctions) rfl)
  have hOpens : Run.Opens groupTree .standard RuleSet.here
      [Path.ofString "a/f.go", Path.ofString "b.go"] := .directory rfl hCollect
  have hRun (grouping : Grouping) : run groupTree { RunSettings.standard with grouping }
      RuleSet.here = .ok (Run.storeOf grouping groupFiles) :=
    Run.run_eq_ok_iff.mpr ⟨_, _, hOpens, hFiles, rfl⟩
  obtain ⟨hPerm, paths, files, hOpens', hFiles', hPackage, hDirectory⟩ :=
    (run_groupings hFs hTexts .standard RuleSet.here).2 _ _ (hRun .directory) (hRun .package)
  obtain rfl := hOpens.unique hOpens'
  obtain rfl := Except.ok.inj (hFiles.symm.trans hFiles')
  have hNames : (Path.ofString "a/f.go").directory.display = "a" ∧
      (Path.ofString "b.go").directory.display = "." := by decide +kernel
  refine ⟨hFs, hTexts, _, _, hRun .directory, hRun .package, fun name => ?_, fun name => ?_, hPerm,
    by decide +kernel⟩
  · rw [hDirectory.mem_names_iff]
    simp [groupFiles, hNames.1, hNames.2]
  · rw [hPackage.mem_names_iff]
    simp [groupFiles]

end FuncSpans
