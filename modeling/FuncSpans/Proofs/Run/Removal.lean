import FuncSpans.Proofs.Files.Links
import FuncSpans.Proofs.Run.Directory
import FuncSpans.Proofs.Walk.View

/-!
# Runs without a file that is set aside

A file is set aside if no link leads to it and its name is neither that of a source file nor that
of an ignore file. A run does not notice whether such a file is there (`Aside.runOn_without`): the
ignore files are read as before, the walk goes into the same directories and takes the same files
(`Aside.collect_without`), and these are read as before.
-/

namespace FuncSpans

open FuncSpans.Path (IsName)

/-- No link leads to a place, only a file may stand there, and its name has no meaning for a run. -/
structure Aside (fs : FileSystem) (place : List Bytes) (name : Bytes) : Prop where
  fileOrNothing : fs.FileOrNothing place
  not_linksTo : ¬ fs.LinksTo place
  getLast?_eq : place.getLast? = some name
  isName : IsName name
  extension_ne : Path.extensionOf name ≠ some Path.goExtension
  notMem_way : ∀ kind : IgnoreKind, name ∉ kind.way

namespace Aside

variable {fs : FileSystem} {place : List Bytes} {name : Bytes} {p : Path}

theorem isGoSource_eq_false (h : Aside fs place name) (hp : p.fileName? = some name) :
    p.isGoSource = false := by
  rw [Path.isGoSource, hp]
  exact beq_false_of_ne h.extension_ne

theorem fileName?_ne (h : Aside fs place name) (hGo : p.isGoSource = true) :
    p.fileName? ≠ some name := fun hp =>
  Bool.false_ne_true ((h.isGoSource_eq_false hp).symm.trans hGo)

/-! ## Reading -/

theorem readBytes_without (h : Aside fs place name) (hp : p.fileName? ≠ some name) :
    (fs.without place).readBytes p = fs.readBytes p ∨
      fs.readBytes p = .error .notADirectory ∧
        (fs.without place).readBytes p = .error .notFound :=
  FileSystem.readBytes_without h.fileOrNothing h.not_linksTo h.isName h.getLast?_eq hp

theorem readBytes_ignoreFile (h : Aside fs place name) (directory : Path) (kind : IgnoreKind) :
    (fs.without place).readBytes (directory.child (Path.ofString kind.fileName)) =
      fs.readBytes (directory.child (Path.ofString kind.fileName)) ∨
    ∃ before after, fs.readBytes (directory.child (Path.ofString kind.fileName)) = .error before ∧
      (fs.without place).readBytes (directory.child (Path.ofString kind.fileName)) =
        .error after := by
  have hOther : (directory.child (Path.ofString kind.fileName)).fileName? ≠ some name := by
    obtain ⟨front, last, hWay⟩ := kind.way.eq_nil_or_concat'.resolve_left kind.way_ne_nil
    rw [kind.child_fileName, hWay, Path.fileName?_below (hWay ▸ kind.isName_of_mem_way)]
    rintro ⟨⟩
    exact h.notMem_way kind (by simp [hWay])
  exact (h.readBytes_without hOther).imp_right fun hFails => ⟨_, _, hFails.1, hFails.2⟩

theorem frame_without (h : Aside fs place name) (directory : Path) :
    Frame.read (fs.without place) directory = Frame.read fs directory := by
  have hRules (kind : IgnoreKind) :
      Frame.readRules (fs.without place) directory kind = Frame.readRules fs directory kind := by
    rw [Frame.readRules, Frame.readRules]
    rcases h.readBytes_ignoreFile directory kind with hSame | ⟨_, _, hBefore, hAfter⟩
    · rw [hSame]
    · rw [hBefore, hAfter]
  have hComplaints (kind : IgnoreKind) : Frame.readComplaints (fs.without place) directory kind =
      Frame.readComplaints fs directory kind := by
    rw [Frame.readComplaints, Frame.readComplaints]
    rcases h.readBytes_ignoreFile directory kind with hSame | ⟨_, _, hBefore, hAfter⟩
    · rw [hSame]
    · rw [hBefore, hAfter]
  simp only [Frame.read, hRules, funext hComplaints]

theorem around_without (h : Aside fs place name) (loc : Location) :
    Frame.around (fs.without place) (Location.without place loc) = Frame.around fs loc := by
  induction loc with
  | nil => rfl
  | cons e loc ih =>
    rw [Location.without, Frame.around, Frame.around, ih, h.frame_without,
      FileSystem.textOf_without]

/-! ## Walking -/

/-- Below a directory there is nothing but a file at the place of a file that is taken away, and
the directories are opened as before. -/
structure Undisturbed (fs : FileSystem) (place : List Bytes) (directory : Path) (way : List Bytes)
    (entries : Entries) : Prop where
  file : ∀ rest n, way ++ rest = place → entries.Holds rest n → ∃ content, n = .file content
  closed?_eq : ∀ rest inner, rest ≠ [] → entries.Opens rest inner →
    (fs.without place).closed? (directory.below rest) = fs.closed? (directory.below rest)

namespace Undisturbed

variable {directory : Path} {way : List Bytes} {entry : Bytes} {node : Node} {entries : Entries}

theorem tail (h : Undisturbed fs place directory way ((entry, node) :: entries)) :
    Undisturbed fs place directory way entries where
  file rest n he hHolds := h.file rest n he hHolds.cons
  closed?_eq rest inner hRest hOpens := h.closed?_eq rest inner hRest <| by
    cases hOpens with
    | nil => exact (hRest rfl).elim
    | cons hMem hOpens => exact .cons (List.mem_cons_of_mem _ hMem) hOpens

theorem head (h : Undisturbed fs place directory way ((entry, node) :: entries)) :
    Undisturbed fs place directory way [(entry, node)] where
  file rest n he hHolds := h.file rest n he <| by
    cases hHolds with
    | entry hMem => exact .entry (List.mem_cons.mpr (Or.inl (List.mem_singleton.mp hMem)))
    | inside hMem hIn =>
      exact .inside (List.mem_cons.mpr (Or.inl (List.mem_singleton.mp hMem))) hIn
  closed?_eq rest inner hRest hOpens := h.closed?_eq rest inner hRest <| by
    cases hOpens with
    | nil => exact (hRest rfl).elim
    | cons hMem hOpens =>
      exact .cons (List.mem_cons.mpr (Or.inl (List.mem_singleton.mp hMem))) hOpens

theorem inside {inner : Entries}
    (h : Undisturbed fs place directory way ((entry, .directory inner) :: entries)) :
    Undisturbed fs place (directory.child entry) (way ++ [entry]) inner where
  file rest n he hHolds :=
    h.file (entry :: rest) n (by simpa using he) (.inside List.mem_cons_self hHolds)
  closed?_eq rest last _ hOpens :=
    h.closed?_eq (entry :: rest) last (List.cons_ne_nil _ _) (.cons List.mem_cons_self hOpens)

end Undisturbed

/-- Directories below one that is there are opened as before. -/
theorem closed?_below_without (hOnly : fs.FileOrNothing place) (hFs : fs.WellFormed) {root : Path}
    {loc : Location} (hRoot : fs.find root = .ok (.directory loc)) {way : List Bytes}
    {inner : Entries} (hOpens : (fs.entriesAt loc).Opens way inner) :
    (fs.without place).closed? (root.below way) = fs.closed? (root.below way) := by
  rw [FileSystem.closed?, FileSystem.closed?]
  rcases FileSystem.find_below_of_opens hFs hRoot hOpens with ⟨loc', hFound⟩ | hLong
  · rw [FileSystem.find_directory_without hOnly hFound, hFound]
  · rw [FileSystem.find_nameTooLong_without hOnly hLong, hLong]

mutual

/-- An entry of a directory is walked as before. -/
theorem filesAt_without {w : Walk} (h : Aside w.files place name) (inner : List Frame)
    (directory : Path) (entry : Bytes) (way : List Bytes) : ∀ node : Node,
      Undisturbed w.files place directory way [(entry, node)] →
      Walk.filesAt { w with files := w.files.without place } inner (directory.child entry) entry
        (node.without place (way ++ [entry])) =
          Walk.filesAt w inner (directory.child entry) entry node
  | .link _, _ => rfl
  | .file _, _ => rfl
  | .directory entries, hSame => by
    have hFrame := h.frame_without (directory.child entry)
    have hClosed := hSame.closed?_eq [entry] entries (by simp) (.cons List.mem_cons_self .nil)
    have hIn := h.filesIn_without (Frame.read w.files (directory.child entry) :: inner)
      (directory.child entry) (way ++ [entry]) entries hSame.inside
    rw [show directory.below [entry] = directory.child entry from rfl] at hClosed
    simp only [Walk.filesAt, Node.without, hFrame, hIn, hClosed]
    rfl

/-- The entries of a directory are walked as before. -/
theorem filesIn_without {w : Walk} (h : Aside w.files place name) (inner : List Frame)
    (directory : Path) (way : List Bytes) : ∀ entries : List (Bytes × Node),
      Undisturbed w.files place directory way entries →
      Walk.filesIn { w with files := w.files.without place } inner directory
        (Entries.without place way entries) = Walk.filesIn w inner directory entries
  | [], _ => rfl
  | (entry, node) :: entries, hSame => by
    have hRest := h.filesIn_without inner directory way entries hSame.tail
    rw [Entries.without]
    split_ifs with hAt
    · -- The file itself was not taken before.
      obtain ⟨content, rfl⟩ := hSame.file [entry] node hAt (.entry List.mem_cons_self)
      have hName : entry = name := by
        have hLast := h.getLast?_eq
        rw [← hAt] at hLast
        simpa using hLast
      have hTaken : w.takes (directory.child entry) = false := by
        rw [Walk.takes, h.isGoSource_eq_false
          (hName ▸ Path.fileName?_child (hName ▸ h.isName)), Bool.false_and]
      rw [hRest, Walk.filesIn, Walk.filesAt, hTaken]
      simp
    · have hNode := h.filesAt_without inner directory entry way node hSame.head
      rw [Walk.filesIn, Walk.filesIn, hRest, hNode]

end

/-- The walk of a directory takes the same files, or fails in the same way. -/
theorem collect_without (h : Aside fs place name) (hFs : fs.WellFormed) (settings : RunSettings)
    {root : Path} {loc : Location} (hRoot : fs.find root = .ok (.directory loc)) :
    Walk.collect (fs.without place) settings root (Location.without place loc) =
      Walk.collect fs settings root loc := by
  have hLoc : fs.IsPlace loc := FileSystem.stands_of_target (FileSystem.find_eq_directory.mp hRoot)
  have hSame : Undisturbed fs place root loc.way (fs.entriesAt loc) := by
    refine ⟨fun rest n he hHolds => h.fileOrNothing n ?_, fun rest inner _ hOpens =>
      closed?_below_without h.fileOrNothing hFs hRoot hOpens⟩
    rw [← he, hLoc.node?_append hHolds.ne_nil]
    exact hHolds.node?_eq (hLoc.entriesAt hFs)
  have hStart (excludes : RuleSet) :
      Walk.start (fs.without place) settings excludes root (Location.without place loc) =
        { Walk.start fs settings excludes root loc with files := fs.without place } := by
    simp only [Walk.start, Walk.framesAround, h.around_without, FileSystem.textOf_without]
  have hWalk (w : Walk) (hw : w.files = fs) :
      Walk.filesIn { w with files := fs.without place } [Frame.read fs root] root
        (Entries.without place loc.way (fs.entriesAt loc)) =
          Walk.filesIn w [Frame.read fs root] root (fs.entriesAt loc) := by
    subst hw
    exact h.filesIn_without _ _ _ _ hSame
  unfold Walk.collect
  split
  · rfl
  · split_ifs
    · rfl
    · dsimp only
      rw [hStart, h.frame_without, FileSystem.entriesAt_without, hWalk _ rfl]
      rfl

/-! ## Running -/

theorem readFile_without (h : Aside fs place name) (hGo : p.isGoSource = true)
    (hRead : fs.readBytes p ≠ .error .notADirectory) :
    Run.readFile (fs.without place) p = Run.readFile fs p := by
  have hSame : (fs.without place).readBytes p = fs.readBytes p :=
    (h.readBytes_without (h.fileName?_ne hGo)).resolve_right fun hBad => hRead hBad.1
  simp only [Run.readFile, FileSystem.readText, hSame]

theorem ofFiles_without (h : Aside fs place name) (settings : RunSettings) {paths : List Path}
    (hPaths : ∀ p ∈ paths, p.isGoSource = true ∧ fs.readBytes p ≠ .error .notADirectory) :
    Run.ofFiles (fs.without place) settings paths = Run.ofFiles fs settings paths := by
  have hFiles : Run.readFiles (fs.without place) paths = Run.readFiles fs paths := by
    induction paths with
    | nil => rfl
    | cons p paths ih =>
      obtain ⟨hGo, hRead⟩ := hPaths p List.mem_cons_self
      rw [Run.readFiles, Run.readFiles, h.readFile_without hGo hRead,
        ih fun q hq => hPaths q (List.mem_cons_of_mem p hq)]
  rw [Run.ofFiles, Run.ofFiles, hFiles]

end Aside

theorem FileSystem.readBytes_ne_notADirectory {fs : FileSystem} {p : Path} {content : Bytes}
    (h : fs.find p = .ok (.file content) ∨ fs.find p = .error .nameTooLong) :
    fs.readBytes p ≠ .error .notADirectory := by
  rcases h with h | h <;> simp [FileSystem.readBytes, h]

/-- What a walk takes are source files, and they are read unless their paths are too long. -/
theorem Walk.mem_collect {fs : FileSystem} (hFs : fs.WellFormed) {settings : RunSettings}
    {root : Path} {loc : Location} (hRoot : fs.find root = .ok (.directory loc))
    {paths : List Path} (hCollect : collect fs settings root loc = .ok paths) {p : Path}
    (hp : p ∈ paths) : p.isGoSource = true ∧ fs.readBytes p ≠ .error .notADirectory := by
  obtain ⟨excludes, hPatterns⟩ := exists_rules_of_collect hCollect
  obtain ⟨ways, rfl, -, hMem⟩ := ways_of_collect hFs hRoot hPatterns hCollect
  obtain ⟨way, hWay, rfl⟩ := List.mem_map.mp hp
  have hCollects := ((hMem way).mp hWay).2
  obtain ⟨content, hHolds⟩ := hCollects.isFile
  refine ⟨?_, FileSystem.readBytes_ne_notADirectory (FileSystem.find_clean_below hFs hRoot hHolds)⟩
  obtain ⟨above, last, rfl⟩ := way.eq_nil_or_concat'.resolve_left hHolds.ne_nil
  have hNames := hHolds.isName (FileSystem.entriesAt_find hFs hRoot)
  have hTakes := (takes_iff (fun n hn => hNames n (List.mem_append_left _ hn))
    (hNames last (by simp))).mpr (hCollects.taken above last rfl).1
  rw [Path.isGoSource_clean]
  exact (Bool.and_eq_true_iff.mp hTakes).1

/-- What a run can be about. -/
inductive IsRoot (fs : FileSystem) (root : Path) : Prop
  | directory {loc : Location} : fs.find root = .ok (.directory loc) → IsRoot fs root
  | file {content : Bytes} : fs.find root = .ok (.file content) → root.isGoSource = true →
      IsRoot fs root

/-- What a run reads are source files, and they are read unless their paths are too long. -/
theorem Run.mem_sources {fs : FileSystem} (hFs : fs.WellFormed) {root : Path}
    (hRoot : IsRoot fs root) {pool : Pool} {settings : RunSettings} {paths : List Path}
    (hSources : sources pool fs settings root = .ok paths) {p : Path} (hp : p ∈ paths) :
    p.isGoSource = true ∧ fs.readBytes p ≠ .error .notADirectory := by
  cases hRoot with
  | file hFile hGo =>
    simp only [sources, hFile, hGo, if_true, Except.ok.injEq] at hSources
    subst hSources
    rw [List.mem_singleton.mp hp, Path.isGoSource_clean]
    exact ⟨hGo, FileSystem.readBytes_ne_notADirectory
      (FileSystem.find_clean_of_file (Path.names_ne_nil_of_isGoSource hGo) hFile)⟩
  | directory hDirectory =>
    exact Walk.mem_collect hFs hDirectory ((sources_directory_eq_ok hDirectory).mp hSources).1 hp

namespace Aside

variable {fs : FileSystem} {place : List Bytes} {name : Bytes} {root : Path}

theorem find_file_without (h : Aside fs place name) (hGo : root.isGoSource = true)
    {content : Bytes} (hRoot : fs.find root = .ok (.file content)) :
    (fs.without place).find root = .ok (.file content) := by
  rw [← FileSystem.readBytes_eq_ok] at hRoot ⊢
  rcases h.readBytes_without (h.fileName?_ne hGo) with hSame | ⟨hBefore, -⟩
  · rw [hSame, hRoot]
  · rw [hRoot] at hBefore
    cases hBefore

theorem sources_without (h : Aside fs place name) (hFs : fs.WellFormed) (hRoot : IsRoot fs root)
    (pool : Pool) (settings : RunSettings) :
    Run.sources pool (fs.without place) settings root = Run.sources pool fs settings root := by
  cases hRoot with
  | file hFile hGo => rw [Run.sources, Run.sources, h.find_file_without hGo hFile, hFile]
  | directory hDirectory =>
    rw [Run.sources, Run.sources, FileSystem.find_directory_without h.fileOrNothing hDirectory,
      hDirectory]
    dsimp only
    rw [h.collect_without hFs settings hDirectory]

/-- A run answers the same without a file that is set aside. -/
theorem runOn_without (h : Aside fs place name) (hFs : fs.WellFormed) (hRoot : IsRoot fs root)
    (pool : Pool) (settings : RunSettings) :
    runOn pool (fs.without place) settings root = runOn pool fs settings root := by
  rw [runOn, runOn, h.sources_without hFs hRoot]
  cases hSources : Run.sources pool fs settings root with
  | error e => rfl
  | ok paths => exact h.ofFiles_without settings fun p => Run.mem_sources hFs hRoot hSources

end Aside

namespace IsRoot

variable {fs : FileSystem} {place : List Bytes} {name : Bytes} {root : Path}

theorem without (hRoot : IsRoot fs root) (h : Aside fs place name) :
    IsRoot (fs.without place) root := by
  cases hRoot with
  | directory hDirectory =>
    exact .directory (FileSystem.find_directory_without h.fileOrNothing hDirectory)
  | file hFile hGo => exact .file (h.find_file_without hGo hFile) hGo

theorem of_without (hOnly : fs.FileOrNothing place) (hRoot : IsRoot (fs.without place) root) :
    IsRoot fs root := by
  cases hRoot with
  | directory hDirectory =>
    obtain ⟨loc, hLoc⟩ := FileSystem.find_directory_of_without hOnly hDirectory
    exact .directory hLoc
  | file hFile hGo =>
    rw [← FileSystem.readBytes_eq_ok] at hFile
    exact .file (FileSystem.readBytes_eq_ok.mp (FileSystem.readBytes_of_without hOnly hFile)) hGo

end IsRoot

end FuncSpans
