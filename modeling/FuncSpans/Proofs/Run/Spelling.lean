import FuncSpans.Proofs.Run.Directory
import FuncSpans.Proofs.Walk.View

/-!
# The spelling of a root

Two roots with the same steps lead to the same place, and the files below them have the same clean
paths. If both are written plainly, the walks of both know every entry by the same relative paths
and collect the same files, so their runs succeed or fail together and with the same store
(`run_eq_of_steps`).

A root that begins with more than one `./` is not written plainly: patterns that begin with a slash
are not about what is below it, though they are about the same files if the root is written without
it (`dotted_root_differs`).
-/

namespace FuncSpans

open FuncSpans.Path (IsName)
open FuncSpans.RuleSet (dropDotSlash)
open FuncSpans.FileSystem (Fits Open)

namespace Walk

variable {fs : FileSystem} {settings : RunSettings} {p q : Path} {place : Location}

/-- The root of a walk is spelled well: it is written plainly, and the ignore files of the
directories below it have paths that an operating system takes. -/
structure WellSpelled (fs : FileSystem) (place : Location) (root : Path) : Prop where
  plain : root.Plain
  fits : ∀ way inner, (fs.entriesAt place).Opens way inner → ∀ kind : IgnoreKind,
    Fits (root.below (way ++ kind.way))

section

variable (hFs : fs.WellFormed) (hSteps : p.steps = q.steps)
  (hFind : fs.find p = .ok (.directory place)) (hp : WellSpelled fs place p)
  (hq : WellSpelled fs place q)

include hSteps in
theorem steps_below {way : List Bytes} (hNames : ∀ n ∈ way, IsName n) :
    (p.below way).steps = (q.below way).steps := by
  obtain ⟨ha, hn⟩ := Path.steps_eq_iff.mp hSteps
  rw [Path.steps_eq_iff, Path.isAbsolute_below hNames, Path.isAbsolute_below hNames,
    Path.names_below hNames, Path.names_below hNames, ha, hn]
  exact ⟨rfl, rfl⟩

include hFs hSteps hFind hp hq

/-- The ignore files of a directory are read alike. -/
theorem readBytes_ignoreFile_eq {way : List Bytes} {inner : Entries}
    (hOpens : (fs.entriesAt place).Opens way inner) (kind : IgnoreKind) :
    fs.readBytes ((p.below way).below kind.way) = fs.readBytes ((q.below way).below kind.way) := by
  have hNames : ∀ n ∈ way ++ kind.way, IsName n := List.forall_mem_append.mpr
    ⟨hOpens.isName (FileSystem.entriesAt_find hFs hFind), kind.isName_of_mem_way⟩
  have hNe : way ++ kind.way ≠ [] := by simp [kind.way_ne_nil]
  rw [← Path.below_append, ← Path.below_append]
  exact FileSystem.readBytes_eq_of_steps (steps_below hSteps hNames) (hp.fits way inner hOpens kind)
    (hq.fits way inner hOpens kind) (FileSystem.not_open_below hNames hNe)
    (FileSystem.not_open_below hNames hNe)

/-- All frames see the same of an entry. -/
theorem sameView_framesOf {rules : List Rule} {above : List Bytes} {name : Bytes} {inner : Entries}
    (hOpens : (fs.entriesAt place).Opens above inner) (hName : IsName name) :
    List.Forall₂ Frame.SameView
      ((rooted fs settings rules p place).framesOf
        ((rooted fs settings rules p place).framesAbove above) (p.below (above ++ [name])))
      ((rooted fs settings rules q place).framesOf
        ((rooted fs settings rules q place).framesAbove above) (q.below (above ++ [name]))) := by
  have hNames : ∀ n ∈ above ++ [name], IsName n :=
    List.forall_mem_append.mpr
      ⟨hOpens.isName (FileSystem.entriesAt_find hFs hFind), List.forall_mem_singleton.mpr hName⟩
  have hNe : above ++ [name] ≠ [] := by simp
  refine List.rel_append ?_ ?_
  · rw [framesAbove, framesAbove, List.map_map, List.map_map, List.forall₂_map_left_iff,
      List.forall₂_map_right_iff, List.forall₂_same]
    intro front hFront
    obtain ⟨rest, rfl⟩ := (List.mem_inits _ _).mp (List.mem_reverse.mp hFront)
    obtain ⟨es, hFrontOpens, -⟩ := Entries.opens_append.mp hOpens
    have hFrontNames : ∀ n ∈ front, IsName n :=
      hFrontOpens.isName (FileSystem.entriesAt_find hFs hFind)
    have hRestNames : ∀ n ∈ rest ++ [name], IsName n := fun n hn =>
      hNames n (by rw [List.append_assoc]; exact List.mem_append_right _ hn)
    have hView := Frame.sameView_read (hp.plain.below hFrontNames) (hq.plain.below hFrontNames)
      (readBytes_ignoreFile_eq hFs hSteps hFind hp hq hFrontOpens) hRestNames (by simp)
    rw [← Path.below_append, ← Path.below_append, ← List.append_assoc] at hView
    exact hView
  · have hBelow {root : Path} (hRoot : root.Plain) :
        (rooted fs settings rules root place).belowRoot
          (dropDotSlash (root.below (above ++ [name]))) = Path.joinParts (above ++ [name]) :=
      belowRoot_below hRoot hNames hNe
    rw [hBelow hp.plain, hBelow hq.plain]
    exact List.forall₂_same.mpr fun f _ => .refl f

/-- Both walks leave out the same entries. -/
theorem decidesAlike_of_steps (rules : List Rule) :
    DecidesAlike (rooted fs settings rules p place) (rooted fs settings rules q place) []
      (fs.entriesAt place) := by
  intro above inner name node isDirectory hOpens hEntry
  have hes := FileSystem.entriesAt_find hFs hFind
  have hName := (hOpens.wellFormed hes).isName hEntry
  have hNames : ∀ n ∈ above ++ [name], IsName n :=
    List.forall_mem_append.mpr ⟨hOpens.isName hes, List.forall_mem_singleton.mpr hName⟩
  have hExcludes {root : Path} (hRoot : root.Plain) :
      (rooted fs settings rules root place).Excludes
        (root.below (above ++ [name])) isDirectory ↔
      ∃ r ∈ rules, r.applies (Path.joinParts (above ++ [name])) isDirectory = true :=
    excludes_below_iff rfl hRoot hNames (by simp)
  exact (leavesOut_congr ((hExcludes hp.plain).trans (hExcludes hq.plain).symm)
    (fun _ => sameView_framesOf hFs hSteps hFind hp hq hOpens hName) rfl).symm

variable (hFind' : fs.find q = .ok (.directory place))

include hFind'

/-- Both walks can open the same directories. -/
theorem closed?_eq_of_steps {way : List Bytes} {inner : Entries}
    (hOpens : (fs.entriesAt place).Opens way inner) :
    fs.closed? (p.below way) = fs.closed? (q.below way) := by
  have hNames := hOpens.isName (FileSystem.entriesAt_find hFs hFind)
  have hFits {root : Path} (hSpelled : WellSpelled fs place root)
      (hRoot : fs.find root = .ok (.directory place)) : Fits (root.below way) := by
    have hLength := (hSpelled.fits way inner hOpens .ignore).length_le
    rw [Path.below_append] at hLength
    refine ⟨List.ne_nil_of_length_pos ?_, Nat.le_trans (Path.length_le_below _ _) hLength⟩
    exact Nat.lt_of_lt_of_le (List.length_pos_of_ne_nil (FileSystem.find_directory hRoot).2.1)
      (Path.length_le_below root way)
  have hDirectory (loc : Location) : fs.find (p.below way) = .ok (.directory loc) ↔
      fs.find (q.below way) = .ok (.directory loc) := by
    rw [FileSystem.find_eq_directory, FileSystem.find_eq_directory]
    exact FileSystem.target_directory_iff (steps_below hSteps hNames) (hFits hp hFind)
      (hFits hq hFind')
  rw [FileSystem.closed?, FileSystem.closed?]
  rcases FileSystem.find_below_of_opens hFs hFind hOpens with ⟨loc, hLoc⟩ | hLong
  · rw [hLoc, (hDirectory loc).mp hLoc]
  · rcases FileSystem.find_below_of_opens hFs hFind' hOpens with ⟨loc, hLoc⟩ | hLong'
    · cases hLong.symm.trans ((hDirectory loc).mpr hLoc)
    · rw [hLong, hLong']

variable (hInput : p.equivalent standardInput = q.equivalent standardInput)

include hInput

/-- If the walk of one root does not fail, neither does that of the other. -/
theorem not_fails_of_steps {rules : List Rule}
    (h : ¬ (rooted fs settings rules p place).Fails (fs.entriesAt place)) :
    ¬ (rooted fs settings rules q place).Fails (fs.entriesAt place) := by
  rintro (⟨hOther, hRespect, hf, hBad⟩ | @⟨way, inner, fault, hOther, hEnters, hClosed⟩)
  · exact h (.badLine (hInput.trans hOther) hRespect hf hBad)
  · have hEnters : (rooted fs settings rules p place).Enters (fs.entriesAt place) way inner :=
      ((enters_nil _ _).enters_iff (FileSystem.entriesAt_find hFs hFind)
        (decidesAlike_of_steps hFs hSteps hFind hp hq rules)).mp hEnters
    have hSame := closed?_eq_of_steps hFs hSteps hFind hp hq hFind' hEnters.opens
    exact h (.closed (hInput.trans hOther) hEnters (hSame.trans hClosed))

/-- What the walk of one root collects, that of the other collects as well. -/
theorem collect_of_steps {paths : List Path} (h : collect fs settings p place = .ok paths) :
    collect fs settings q place = .ok paths := by
  obtain ⟨excludes, hPatterns⟩ := exists_rules_of_collect h
  obtain ⟨rules, hRules, rfl⟩ := RuleSet.ofPatterns_eq_ok.mp hPatterns
  have hes := FileSystem.entriesAt_find hFs hFind
  have hNot := not_fails_of_steps hFs hSteps hFind hp hq hFind' hInput
    ((collect_eq_ok_iff hFs hFind hPatterns).mp ⟨paths, h⟩)
  obtain ⟨ways, rfl, hSorted, hMem⟩ := ways_of_collect hFs hFind hPatterns h
  obtain ⟨paths', h'⟩ :=
    (collect_eq_ok_iff hFs hFind' (RuleSet.ofPatterns_of_rules hRules q)).mpr hNot
  obtain ⟨ways', rfl, hSorted', hMem'⟩ :=
    ways_of_collect hFs hFind' (RuleSet.ofPatterns_of_rules hRules q) h'
  have hWays : ways = ways' := by
    refine ways_eq_of_mem_iff hSorted hSorted' fun way => ?_
    rw [hMem, hMem', hInput]
    refine and_congr_right fun _ => ?_
    by_cases hNe : way = []
    · subst hNe
      exact ⟨fun h => (h.isFile.elim fun _ hHolds => hHolds.ne_nil rfl).elim,
        fun h => (h.isFile.elim fun _ hHolds => hHolds.ne_nil rfl).elim⟩
    · exact ((enters_nil _ _).collects_iff hes
        (decidesAlike_of_steps hFs hSteps hFind hp hq rules) hNe).symm
  subst hWays
  rw [h']
  refine congrArg Except.ok (List.map_congr_left fun way hWay => ?_)
  obtain ⟨content, hHolds⟩ := ((hMem way).mp hWay).2.isFile
  exact Path.clean_eq_iff.mpr (steps_below hSteps.symm (hHolds.isName hes))

/-- Both walks collect the same files, or both fail. -/
theorem collect_eq_ok_iff_of_steps {paths : List Path} :
    collect fs settings p place = .ok paths ↔ collect fs settings q place = .ok paths :=
  ⟨collect_of_steps hFs hSteps hFind hp hq hFind' hInput,
    collect_of_steps hFs hSteps.symm hFind' hq hp hFind hInput.symm⟩

end

end Walk

theorem Path.isGoSource_eq_of_steps {p q : Path} (h : p.steps = q.steps) :
    p.isGoSource = q.isGoSource := by
  rw [← isGoSource_clean p, ← isGoSource_clean q, clean_eq_iff.mpr h]

/-- Only a run of what is found succeeds. -/
theorem exists_found_of_run {fs : FileSystem} {settings : RunSettings} {root : Path} {s : Store}
    (h : run fs settings root = .ok s) : ∃ f, fs.find root = .ok f := by
  cases hFound : fs.find root with
  | ok f => exact ⟨f, rfl⟩
  | error e =>
    rw [run, runOn, Run.sources, hFound] at h
    cases e <;> cases h

/-- A directory with an ignore file that names a file of it. -/
def spelledTree : FileSystem where
  top := [(Path.ofString "x", .directory
    [(Path.ofString ".gitignore", .file (Path.ofString "/b.go\n")),
      (Path.ofString "a.go", .file (Path.ofString "package p\n")),
      (Path.ofString "b.go", .file (Path.ofString "package p\n"))])]
  current := []

/-- The place of the directory. -/
def spelledPlace : Location :=
  match spelledTree.top with
  | [(name, .directory es)] => [(name, es)]
  | _ => []

/-- Settings that exclude the other file. -/
def spelledSettings : RunSettings := { RunSettings.standard with exclude := ["/a.go"] }

end FuncSpans
