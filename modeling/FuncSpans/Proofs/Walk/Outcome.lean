import FuncSpans.Proofs.Walk.Collection

/-!
# How a walk ends

A walk fails if an ignore file of a directory around its root has a line with an invalid glob, or if
it goes into a directory that cannot be opened (`Walk.Fails`). Lines of ignore files at its root and
below never make it fail. If it does not fail, it collects the files that it reaches, in preorder
(`outcome_collect`).

`collects_described_iff` says when these are the files that the filters describe
(`Walk.described`).
-/

namespace FuncSpans

/-! ## Complaints -/

namespace RuleSet

theorem badLines_eq_nil_iff (file : Path) (number : Nat) {lines : List (List Char)} :
    badLines file number lines = [] ↔ ∀ line ∈ lines, ∀ e, Rule.ofLine? true line ≠ .error e := by
  induction lines generalizing number with
  | nil => simp [badLines]
  | cons line lines ih =>
    rw [badLines, List.forall_mem_cons]
    cases Rule.ofLine? true line with
    | error e => simp
    | ok rule => simp [ih]

/-- There are complaints about a file exactly if it has a line with an invalid glob. -/
theorem complaints_eq_nil_iff {file : Path} {content : Bytes} : complaints file content = [] ↔
    ∀ line ∈ readLines content, ∀ e, Rule.ofLine? true line ≠ .error e := by
  rw [← badLines_eq_nil_iff file 1, complaints]
  split
  · rename_i hNone
    exact iff_of_true rfl hNone
  · rename_i hSome
    exact iff_of_false (by simp_all) hSome

end RuleSet

/-- An ignore file of a directory has a line with an invalid glob. -/
def FileSystem.BadLineIn (fs : FileSystem) (directory : Path) : Prop :=
  ∃ (kind : IgnoreKind) (content : Bytes) (line : List Char) (e : GlobError),
    fs.readBytes (directory.child (Path.ofString kind.fileName)) = .ok content ∧
      line ∈ RuleSet.readLines content ∧ Rule.ofLine? true line = .error e

namespace Frame

theorem readComplaints_eq_nil_iff {fs : FileSystem} {directory : Path} {kind : IgnoreKind} :
    readComplaints fs directory kind = [] ↔
      ∀ content, fs.readBytes (directory.child (Path.ofString kind.fileName)) = .ok content →
        ∀ line ∈ RuleSet.readLines content, ∀ e, Rule.ofLine? true line ≠ .error e := by
  rw [readComplaints]
  cases fs.readBytes (directory.child (Path.ofString kind.fileName)) with
  | error fault => simp
  | ok content => simp [RuleSet.complaints_eq_nil_iff]

theorem complaints_read_eq_nil_iff {fs : FileSystem} {directory : Path} :
    (read fs directory).complaints = [] ↔ ¬ fs.BadLineIn directory := by
  have hAll : (read fs directory).complaints = [] ↔
      ∀ kind, readComplaints fs directory kind = [] := by
    rw [read, List.flatMap_eq_nil_iff]
    exact ⟨fun h kind => h kind (by cases kind <;> simp [IgnoreKind.all]), fun h kind _ => h kind⟩
  rw [hAll]
  simp only [readComplaints_eq_nil_iff]
  constructor
  · rintro h ⟨kind, content, line, e, hRead, hLine, he⟩
    exact h kind content hRead line hLine e he
  · intro h kind content hRead line hLine e he
    exact h ⟨kind, content, line, e, hRead, hLine, he⟩

theorem mem_around {fs : FileSystem} {place : Location} {f : Frame} (h : f ∈ around fs place) :
    f = read fs f.directory := by
  induction place with
  | nil => cases h
  | cons e place ih =>
    rcases List.mem_cons.mp h with rfl | h
    · rfl
    · exact ih h

end Frame

/-! ## Failures -/

namespace Walk

/-- Why a walk fails. A root that stands for the standard input is not walked. -/
inductive Fails (w : Walk) (es : Entries) : Prop
  | badLine {f : Frame} : w.root.equivalent standardInput = false → w.respectIgnoreFiles = true →
      f ∈ w.around → w.files.BadLineIn f.directory → Fails w es
  | closed {way : List Bytes} {inner : Entries} {fault : Fault} :
      w.root.equivalent standardInput = false → w.Enters es way inner →
      w.files.closed? (w.root.below way) = some fault → Fails w es

section

variable {fs : FileSystem} {settings : RunSettings} {excludes : RuleSet} {root : Path}
  {place : Location}

theorem complaints_start_eq_nil_iff : (start fs settings excludes root place).complaints = [] ↔
    (settings.respectIgnoreFiles = true → ∀ f ∈ framesAround fs place,
      ¬ fs.BadLineIn f.directory) := by
  have hFrame : ∀ f ∈ framesAround fs place, (f.complaints = [] ↔ ¬ fs.BadLineIn f.directory) := by
    intro f hf
    rw [framesAround] at hf
    split_ifs at hf
    · cases hf
    · rw [Frame.mem_around hf]
      exact Frame.complaints_read_eq_nil_iff
  have hComplaints : (start fs settings excludes root place).complaints =
      if settings.respectIgnoreFiles then (framesAround fs place).reverse.flatMap (·.complaints)
      else [] := rfl
  rw [hComplaints]
  cases settings.respectIgnoreFiles with
  | false => simp
  | true =>
    simp only [if_true, List.flatMap_eq_nil_iff, List.mem_reverse, forall_const]
    exact forall₂_congr hFrame

theorem untilFailure_map_ok (paths : List Path) : untilFailure (paths.map .ok) = .ok paths := by
  induction paths with
  | nil => rfl
  | cons path paths ih => simp only [List.map_cons, untilFailure, ih]

theorem untilFailure_of_mem {found : List (Except String Path)} {reason : String}
    (h : .error reason ∈ found) : ∃ reason', untilFailure found = .error (.walk reason') := by
  induction found with
  | nil => cases h
  | cons first found ih =>
    cases first with
    | error reason' => exact ⟨reason', rfl⟩
    | ok path =>
      obtain ⟨reason', hReason⟩ := ih ((List.mem_cons.mp h).resolve_left nofun)
      exact ⟨reason', by simp only [untilFailure, hReason]⟩

theorem untilFailure_eq_ok {found : List (Except String Path)} {paths : List Path} :
    untilFailure found = .ok paths ↔ found = paths.map .ok := by
  constructor
  · intro h
    induction found generalizing paths with
    | nil => cases h; rfl
    | cons first found ih =>
      cases first with
      | error reason => cases h
      | ok path =>
        rw [untilFailure] at h
        split at h
        · cases h
        · rename_i rest hRest
          cases h
          rw [List.map_cons, ih hRest]
  · rintro rfl
    exact untilFailure_map_ok paths

/-- Where a walk goes on, what it collects is what it finds in its descent. -/
theorem collect_eq_untilFailure (hPatterns : RuleSet.ofPatterns root settings.exclude = .ok excludes)
    (hInput : root.equivalent standardInput = false)
    (hQuiet : (start fs settings excludes root place).complaints = []) :
    collect fs settings root place = untilFailure (filesIn (start fs settings excludes root place)
      [Frame.read fs root] root (fs.entriesAt place)) := by
  simp only [collect, hPatterns, hInput, Bool.false_eq_true, if_false, hQuiet]

theorem collect_of_complaints (hPatterns : RuleSet.ofPatterns root settings.exclude = .ok excludes)
    (hInput : root.equivalent standardInput = false)
    (hLoud : (start fs settings excludes root place).complaints ≠ []) :
    ∃ reason, collect fs settings root place = .error (.walk reason) := by
  obtain ⟨first, rest, hSome⟩ := List.exists_cons_of_ne_nil hLoud
  simp only [collect, hPatterns, hInput, Bool.false_eq_true, if_false, hSome]
  exact ⟨_, rfl⟩

end

/-- How a walk ends: it fails, or it has collected the files along some ways. -/
inductive Outcome (fs : FileSystem) (settings : RunSettings) (root : Path) (place : Location)
    (w : Walk) : Prop
  | failed {reason : String} : w.Fails (fs.entriesAt place) →
      collect fs settings root place = .error (.walk reason) → Outcome fs settings root place w
  | collected {ways : List (List Bytes)} : ¬ w.Fails (fs.entriesAt place) →
      collect fs settings root place = .ok (ways.map fun way => (root.below way).clean) →
      ways.Pairwise Precedes →
      (∀ way, way ∈ ways ↔ root.equivalent standardInput = false ∧
        w.Collects w.followed (fs.entriesAt place) way) → Outcome fs settings root place w

section

variable {fs : FileSystem} (hFs : fs.WellFormed) {settings : RunSettings} {root : Path}
  {place : Location} (hRoot : fs.find root = .ok (.directory place))

include hRoot

/-- The root has been opened, so that only a directory below it can be closed. -/
theorem not_fails_start {excludes : RuleSet}
    (hQuiet : (start fs settings excludes root place).complaints = [])
    (hFree : ¬ (start fs settings excludes root place).Blocked [] (fs.entriesAt place)) :
    ¬ (start fs settings excludes root place).Fails (fs.entriesAt place) := by
  rintro (@⟨f, -, hRespect, hf, hBad⟩ | @⟨way, inner, fault, -, hEnters, hClosed⟩)
  · exact complaints_start_eq_nil_iff.mp hQuiet hRespect f hf hBad
  · refine hFree (blocked_iff.mpr ⟨way, inner, fault, hEnters, ?_, hClosed⟩)
    rintro rfl
    have hOpen : fs.closed? root = none := by simp [FileSystem.closed?, hRoot]
    cases hOpen.symm.trans hClosed

include hFs

/-- The walk of a run through the directory that its root leads to. A root that stands for the
standard input holds nothing. -/
theorem outcome_collect {excludes : RuleSet}
    (hPatterns : RuleSet.ofPatterns root settings.exclude = .ok excludes) :
    Outcome fs settings root place (start fs settings excludes root place) := by
  have hw : ∀ r ∈ (start fs settings excludes root place).excludes.rules, r.verdict = .skip :=
    RuleSet.verdict_of_ofPatterns hPatterns
  cases hInput : root.equivalent standardInput with
  | true =>
    have hNone : collect fs settings root place =
        .ok (([] : List (List Bytes)).map fun way => (root.below way).clean) := by
      simp [collect, hPatterns, hInput]
    refine .collected ?_ hNone .nil (by simp [hInput])
    rintro (⟨hOther, -⟩ | ⟨hOther, -⟩) <;> cases hInput.symm.trans hOther
  | false =>
    by_cases hQuiet : (start fs settings excludes root place).complaints = []
    swap
    · obtain ⟨reason, hFails⟩ := collect_of_complaints hPatterns hInput hQuiet
      simp only [complaints_start_eq_nil_iff, not_forall, not_not] at hQuiet
      obtain ⟨hRespect, f, hf, hBad⟩ := hQuiet
      exact .failed (.badLine hInput hRespect hf hBad) hFails
    have hCollect := collect_eq_untilFailure hPatterns hInput hQuiet
    by_cases hBlocked : (start fs settings excludes root place).Blocked [] (fs.entriesAt place)
    · obtain ⟨reason, hReason⟩ := hBlocked.exists_error hw
      obtain ⟨reason', hFails⟩ := untilFailure_of_mem hReason
      obtain ⟨way, inner, fault, hEnters, -, hClosed⟩ := blocked_iff.mp hBlocked
      exact .failed (.closed hInput hEnters hClosed) (hCollect.trans hFails)
    · obtain ⟨paths, ways, hFiles, hWays⟩ := filesIn_eq hw (List.forall_mem_nil _)
        (fs.entriesAt place) (FileSystem.entriesAt_find hFs hRoot) hBlocked
      refine .collected (not_fails_start hRoot hQuiet hBlocked) ?_ hWays.sorted fun way => ?_
      · rw [hCollect]
        exact untilFailure_eq_ok.mpr (hWays.paths_eq ▸ hFiles)
      · rw [collects_iff]
        exact (hWays.mem_iff way).trans (by simp [hInput])

omit hFs hRoot in
theorem exists_rules_of_collect {paths : List Path}
    (h : collect fs settings root place = .ok paths) :
    ∃ excludes, RuleSet.ofPatterns root settings.exclude = .ok excludes := by
  cases hPatterns : RuleSet.ofPatterns root settings.exclude with
  | error e =>
    rw [collect, hPatterns] at h
    cases h
  | ok excludes => exact ⟨excludes, rfl⟩

/-- The files that a walk has collected are those that it reaches, in preorder. -/
theorem ways_of_collect {excludes : RuleSet}
    (hPatterns : RuleSet.ofPatterns root settings.exclude = .ok excludes) {paths : List Path}
    (h : collect fs settings root place = .ok paths) : ∃ ways : List (List Bytes),
      paths = (ways.map fun way => (root.below way).clean) ∧ ways.Pairwise Precedes ∧
      ∀ way, way ∈ ways ↔ root.equivalent standardInput = false ∧
        (start fs settings excludes root place).Collects
          (start fs settings excludes root place).followed (fs.entriesAt place) way := by
  rcases outcome_collect hFs hRoot hPatterns with ⟨-, hFailed⟩ | ⟨-, hCollect, hSorted, hMem⟩
  · cases h.symm.trans hFailed
  · exact ⟨_, Except.ok.inj (h.symm.trans hCollect), hSorted, hMem⟩

/-- The files that a walk has collected lie on ways to files, in preorder. -/
theorem exists_ways {paths : List Path} (h : collect fs settings root place = .ok paths) :
    ∃ ways : List (List Bytes),
      paths = (ways.map fun way => (root.below way).clean) ∧ ways.Pairwise Precedes ∧
      ∀ way ∈ ways, ∃ content, (fs.entriesAt place).Holds way (.file content) := by
  obtain ⟨excludes, hPatterns⟩ := exists_rules_of_collect h
  obtain ⟨ways, hPaths, hSorted, hMem⟩ := ways_of_collect hFs hRoot hPatterns h
  exact ⟨ways, hPaths, hSorted, fun way hWay => ((hMem way).mp hWay).2.isFile⟩

theorem nodup_collect {paths : List Path} (h : collect fs settings root place = .ok paths) :
    paths.Nodup := by
  obtain ⟨ways, rfl, hSorted, hFile⟩ := exists_ways hFs hRoot h
  have hes := FileSystem.entriesAt_find hFs hRoot
  refine List.pairwise_map.mpr (hSorted.imp_of_mem fun {way way'} hWay hWay' hLt he => ?_)
  obtain ⟨_, hHolds⟩ := hFile way hWay
  obtain ⟨_, hHolds'⟩ := hFile way' hWay'
  obtain rfl := Path.clean_below_injective (hHolds.isName hes) (hHolds'.isName hes) he
  exact hLt.irrefl

/-- With patterns that are valid, a walk fails for one of the reasons, and for any of them. -/
theorem collect_eq_error_iff {excludes : RuleSet}
    (hPatterns : RuleSet.ofPatterns root settings.exclude = .ok excludes) :
    (∃ reason, collect fs settings root place = .error (.walk reason)) ↔
      (start fs settings excludes root place).Fails (fs.entriesAt place) := by
  rcases outcome_collect hFs hRoot hPatterns with ⟨hFails, hFailed⟩ | ⟨hNot, hCollect, -, -⟩
  · exact iff_of_true ⟨_, hFailed⟩ hFails
  · refine iff_of_false ?_ hNot
    rintro ⟨reason, hFailed⟩
    cases hCollect.symm.trans hFailed

theorem collect_eq_ok_iff {excludes : RuleSet}
    (hPatterns : RuleSet.ofPatterns root settings.exclude = .ok excludes) :
    (∃ paths, collect fs settings root place = .ok paths) ↔
      ¬ (start fs settings excludes root place).Fails (fs.entriesAt place) := by
  rcases outcome_collect hFs hRoot hPatterns with ⟨hFails, hFailed⟩ | ⟨hNot, hCollect, -, -⟩
  · refine iff_of_false ?_ (not_not.mpr hFails)
    rintro ⟨paths, hCollect⟩
    cases hCollect.symm.trans hFailed
  · exact iff_of_true ⟨_, hCollect⟩ hNot

end

/-! ## What the filters describe -/

/-- A name begins with a stop. -/
def BeginsWithStop (name : Bytes) : Prop := name.head? = some Path.stop

/-- What names are meant to say: a name that begins with a stop is hidden, and a name that ends as
that of a test file is the name of one. -/
def described (w : Walk) : Reading := ⟨w.Counts, BeginsWithStop⟩

/-- A directory is gone into though its name begins with a stop and nothing keeps it: its name ends
in a stop as well. -/
structure Slips (w : Walk) (above : List Bytes) (name : Bytes) : Prop where
  begins : BeginsWithStop name
  ends : name.getLast? = some Path.stop
  silent : w.respectIgnoreFiles = true → ∀ kind,
    Frame.Silent kind (w.framesOf (w.framesAbove above) (w.root.below (above ++ [name]))) true

section

variable {w : Walk} {above : List Bytes} {name : Bytes} {es : Entries} {way : List Bytes}

theorem getLast?_of_extension (h : Path.extensionOf name = some Path.goExtension) :
    name.getLast? ≠ some Path.stop := by
  intro hLast
  have hNone : name.reverse.takeWhile (· != Path.stop) = [] := by
    cases hReverse : name.reverse with
    | nil => rfl
    | cons b bs =>
      rw [← List.head?_reverse, hReverse, List.head?_cons, Option.some.injEq] at hLast
      simp [hLast]
  rw [Path.extensionOf, hNone] at h
  split_ifs at h
  cases h

theorem Takes.extension (h : w.Takes name) : Path.extensionOf name = some Path.goExtension :=
  h.elim And.left And.left

theorem Hidden.begins (h : Hidden name) : BeginsWithStop name := h.1

/-- Of the files and directories that are kept, just these are not meant to be. -/
theorem leavesOutIn_begins_iff {isDirectory : Bool}
    (hKept : ¬ w.LeavesOutIn Hidden above name isDirectory) :
    w.LeavesOutIn BeginsWithStop above name isDirectory ↔ BeginsWithStop name ∧
      name.getLast? = some Path.stop ∧ (w.respectIgnoreFiles = true → ∀ kind, Frame.Silent kind
        (w.framesOf (w.framesAbove above) (w.root.below (above ++ [name]))) isDirectory) := by
  have hOpen : ¬ w.Excludes (w.root.below (above ++ [name])) isDirectory :=
    fun hex => hKept (.excluded hex)
  constructor
  · rintro (hex | ⟨-, hRespect, hWins, hSkip⟩ | ⟨-, hSilent, hBegins⟩)
    · exact (hOpen hex).elim
    · exact (hKept (.ignored hOpen hRespect hWins hSkip)).elim
    · refine ⟨hBegins, ?_, hSilent⟩
      by_contra hEnd
      exact hKept (.hidden hOpen hSilent ⟨hBegins, hEnd⟩)
  · rintro ⟨hBegins, -, hSilent⟩
    exact .hidden hOpen hSilent hBegins

theorem GoesInto.begins_iff (h : w.GoesInto Hidden above name) :
    w.GoesInto BeginsWithStop above name ↔ ¬ w.Slips above name := by
  have hKept := leavesOutIn_begins_iff h.kept
  constructor
  · rintro ⟨hDescribed, -⟩ ⟨hBegins, hEnds, hSilent⟩
    exact hDescribed (hKept.mpr ⟨hBegins, hEnds, hSilent⟩)
  · intro hNot
    refine ⟨fun hOut => hNot ?_, h.name_ne⟩
    obtain ⟨hBegins, hEnds, hSilent⟩ := hKept.mp hOut
    exact ⟨hBegins, hEnds, hSilent⟩

/-- What is described is collected. -/
theorem Collects.followed_of_described (h : w.Collects w.described es way) :
    w.Collects w.followed es way where
  isFile := h.isFile
  taken above name he := by
    obtain ⟨hCounts, hKept⟩ := h.taken above name he
    exact ⟨Or.inl hCounts, fun hOut => hKept (hOut.mono Hidden.begins)⟩
  entered above name rest he hRest := by
    obtain ⟨hKept, hName⟩ := h.entered above name rest he hRest
    exact ⟨fun hOut => hKept (hOut.mono Hidden.begins), hName⟩

/-- What is collected is described, unless a name of a test file is no text or a directory on the
way slips through. -/
theorem Collects.described_iff (h : w.Collects w.followed es way) :
    w.Collects w.described es way ↔
      (∀ above name, way = above ++ [name] → ¬ w.Overlooks name) ∧
        ∀ above name rest, way = above ++ name :: rest → rest ≠ [] → ¬ w.Slips above name := by
  constructor
  · intro hDescribed
    refine ⟨fun above name he => (hDescribed.taken above name he).1.not_overlooks,
      fun above name rest he hRest => ?_⟩
    exact (h.entered above name rest he hRest).begins_iff.mp
      (hDescribed.entered above name rest he hRest)
  · rintro ⟨hNames, hDirectories⟩
    refine ⟨h.isFile, fun above name he => ?_, fun above name rest he hRest => ?_⟩
    · obtain ⟨hTakes, hKept⟩ := h.taken above name he
      refine ⟨hTakes.resolve_right (hNames above name he), fun hOut => ?_⟩
      exact getLast?_of_extension hTakes.extension ((leavesOutIn_begins_iff hKept).mp hOut).2.1
    · exact (h.entered above name rest he hRest).begins_iff.mpr
        (hDirectories above name rest he hRest)

end

/-- A directory that has the name of the standard input, and an ordinary one. -/
def hyphenTree : FileSystem where
  top :=
    [(Path.ofString "-", .directory [(Path.ofString "a.go", .file (Path.ofString "package a\n"))]),
      (Path.ofString "p", .directory [(Path.ofString "a.go", .file (Path.ofString "package a\n")),
        (Path.ofString "a_test.go", .file (Path.ofString "package a\n"))])]
  current := []

/-- The place of a directory of that tree. -/
def hyphenPlace (name : Path) : Location :=
  match hyphenTree.top.lookup name with
  | some (.directory es) => [(name, es)]
  | _ => []

/-- A directory whose name begins and ends with a stop is walked. -/
example : collect ⟨[(Path.ofString ".x.",
      .directory [(Path.ofString "a.go", .file (Path.ofString "package a\n"))])], []⟩ .standard
    RuleSet.here [] = .ok [Path.ofString ".x./a.go"] := by decide +kernel

end Walk

end FuncSpans
