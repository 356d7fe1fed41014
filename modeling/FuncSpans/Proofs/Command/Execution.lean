import FuncSpans.Command.Execution
import FuncSpans.Proofs.Files.Writing
import FuncSpans.Proofs.Run.Failure

/-!
# What commands leave behind

A command does all of its work or none of it (`executeOn_allOrNothing`). It fails at the first of
its steps that fails, with the exit code of that step: 2 for the settings, 3 for the run, 5 for the
writing of the report. Until the report is written nothing is shown and no file is touched, and
rendering never fails.
-/

namespace FuncSpans.Command

variable {host : Host} {fs : FileSystem} {a : Arguments} {text : String} {o : Outcome}

/-! ## Failures before the report -/

/-- Nothing is shown and no file is touched. -/
structure Outcome.Untouched (fs : FileSystem) (o : Outcome) : Prop where
  stdout : o.stdout = ""
  files : o.files = fs

theorem untouched_failure (fs : FileSystem) (e : CommandError) : (failure fs e).Untouched fs :=
  ⟨rfl, rfl⟩

/-- Settings are only wrong if the project has a name of a format that is none. -/
theorem Settings.resolve_eq_error {p : ProjectSettings} {e : CommandError}
    (h : Settings.resolve a p = .error e) :
    ∃ name, a.format = none ∧ p.format = some name ∧ Format.ofName? name = none ∧
      e = .invalidOption (Format.unknownMessage name) := by
  have hFormat : Settings.format? a p = .error e := by
    unfold resolve at h
    split at h
    · rename_i hFormat
      cases h
      exact hFormat
    · cases h
  unfold format? at hFormat
  split at hFormat
  · cases hFormat
  · cases hFormat
  · rename_i name ha hp
    split at hFormat
    · cases hFormat
    · rename_i hNone
      cases hFormat
      exact ⟨name, ha, hp, hNone, rfl⟩

/-! ## Delivery -/

/-- A file is written to where a path leads: it is read back by the path, and nothing else in the
tree has changed. -/
structure Written (fs : FileSystem) (p : Path) (content : Bytes) (fs' : FileSystem) : Prop where
  readBytes : fs'.readBytes p = .ok content
  elsewhere : ∃ t place, fs.target p = .ok t ∧ t.place? = some place ∧
    fs'.without place = fs.without place

theorem written_of_write {fs' : FileSystem} (hFs : fs.WellFormed) {p : Path} {content : Bytes}
    (h : fs.write p content = .ok fs') : Written fs p content fs' where
  readBytes := FileSystem.readBytes_write hFs h
  elsewhere := by
    obtain ⟨t, place, hTarget, hAt, -, hSame⟩ := FileSystem.write_eq_ok hFs h
    exact ⟨t, place, hTarget, hAt, hSame⟩

/-- What has become of a report: all of it is where it should be, or writing it failed. -/
inductive Delivered (host : Host) (fs : FileSystem) (a : Arguments) (text : String)
    (o : Outcome) : Prop
  | shown : a.output = none → host.cutOff? text = none →
      o.exitCode = 0 → o.stdout = text → o.files = fs → Delivered host fs a text o
  | cutOff {part : String} : a.output = none → host.cutOff? text = some part →
      o.exitCode = 5 → o.stdout = part → o.files = fs → Delivered host fs a text o
  | written {output : String} : a.output = some output → o.exitCode = 0 → o.stdout = "" →
      Written fs (Path.ofString output) (Utf8.ofString text) o.files →
      Delivered host fs a text o
  | refused {output : String} {fault : Fault} : a.output = some output →
      fs.write (Path.ofString output) (Utf8.ofString text) = .error fault →
      o.exitCode = 5 → o.Untouched fs → Delivered host fs a text o

theorem delivered_deliver (hFs : fs.WellFormed) (host : Host) (a : Arguments)
    (text : String) : Delivered host fs a text (deliver host fs a text) := by
  rw [deliver]
  cases hOutput : a.output with
  | none =>
    cases hHost : host.cutOff? text with
    | none => exact .shown hOutput hHost rfl rfl rfl
    | some part => exact .cutOff hOutput hHost rfl rfl rfl
  | some output =>
    dsimp only
    cases hWrite : fs.write (Path.ofString output) (Utf8.ofString text) with
    | ok fs' => exact .written hOutput rfl rfl (written_of_write hFs hWrite)
    | error fault => exact .refused hOutput hWrite rfl (untouched_failure fs _)

theorem Delivered.exitCode (h : Delivered host fs a text o) : o.exitCode = 0 ∨ o.exitCode = 5 := by
  cases h with
  | shown _ _ h => exact Or.inl h
  | cutOff _ _ h => exact Or.inr h
  | written _ h => exact Or.inl h
  | refused _ _ h => exact Or.inr h

/-! ## All or nothing -/

/-- What a command has to do: the first step that fails decides the exit code and leaves
everything as it was; otherwise the whole report, in the format that the settings have come to, is
delivered. -/
structure AllOrNothing (host : Host) (fs : FileSystem) (a : Arguments) (o : Outcome) :
    Prop where
  /-- The settings are wrong. -/
  unresolved : ∀ e, Settings.resolve a (ProjectSettings.load fs (Path.ofString a.path)) = .error e →
    o.exitCode = 2 ∧ o.Untouched fs
  /-- The run fails, for whatever reason. -/
  failed : ∀ settings,
    Settings.resolve a (ProjectSettings.load fs (Path.ofString a.path)) = .ok settings →
    Run.Fails host.pool fs settings.run (Path.ofString a.path) → o.exitCode = 3 ∧ o.Untouched fs
  /-- All that is left is to deliver the report. -/
  completed : ∀ settings,
    Settings.resolve a (ProjectSettings.load fs (Path.ofString a.path)) = .ok settings →
    ¬ Run.Fails host.pool fs settings.run (Path.ofString a.path) →
    ∃ store, runOn host.pool fs settings.run (Path.ofString a.path) = .ok store ∧
      Delivered host fs a ((Report.ofStore store settings.statistics).render settings.format) o
  /-- No step fails with the exit code for rendering. -/
  renders : o.exitCode ≠ 4

theorem allOrNothing_of_resolve {e : CommandError}
    (hResolve : Settings.resolve a (ProjectSettings.load fs (Path.ofString a.path)) = .error e) :
    AllOrNothing host fs a (failure fs e) := by
  obtain ⟨name, -, -, -, rfl⟩ := Settings.resolve_eq_error hResolve
  exact {
    unresolved := fun _ _ => ⟨rfl, untouched_failure fs _⟩
    failed := fun _ h => nomatch hResolve.symm.trans h
    completed := fun _ h => nomatch hResolve.symm.trans h
    renders := fun h => nomatch h }

section

variable (hFs : fs.WellFormed) {settings : Settings}
  (hResolve : Settings.resolve a (ProjectSettings.load fs (Path.ofString a.path)) = .ok settings)

include hFs hResolve

theorem allOrNothing_of_error {e : RunError}
    (hAnswer : Run.Answers host.pool fs settings.run (Path.ofString a.path) (.error e)) :
    AllOrNothing host fs a (failure fs (.run e)) where
  unresolved _ h := nomatch hResolve.symm.trans h
  failed _ _ _ := ⟨rfl, untouched_failure fs _⟩
  completed _ h hNot := by
    obtain rfl := Except.ok.inj (hResolve.symm.trans h)
    exact (hNot ((runOn_eq_error_iff hFs).mp hAnswer.exists_error)).elim
  renders h := nomatch h

theorem allOrNothing_of_store {store : Store}
    (hAnswer : Run.Answers host.pool fs settings.run (Path.ofString a.path) (.ok store)) :
    AllOrNothing host fs a
      (deliver host fs a ((Report.ofStore store settings.statistics).render settings.format)) := by
  have hRun := Run.answers_ok_iff.mp hAnswer
  have hDelivered := delivered_deliver hFs host a
    ((Report.ofStore store settings.statistics).render settings.format)
  exact {
    unresolved := fun _ h => nomatch hResolve.symm.trans h
    failed := fun _ h hFails => by
      obtain rfl := Except.ok.inj (hResolve.symm.trans h)
      obtain ⟨e, he⟩ := (runOn_eq_error_iff hFs).mpr hFails
      cases hRun.symm.trans he
    completed := fun _ h _ => by
      obtain rfl := Except.ok.inj (hResolve.symm.trans h)
      exact ⟨store, hRun, hDelivered⟩
    renders := by rcases hDelivered.exitCode with h | h <;> simp [h] }

end

theorem outcomes_executeOn (host : Host) (fs : FileSystem) (a : Arguments) :
    Outcomes host fs a (executeOn host fs a) := by
  cases hResolve : Settings.resolve a (ProjectSettings.load fs (Path.ofString a.path)) with
  | error e =>
    simp only [executeOn, report, hResolve]
    exact .unresolved hResolve
  | ok settings =>
    have hAnswer := Run.answers_runOn host.pool fs settings.run (Path.ofString a.path)
    cases hRun : runOn host.pool fs settings.run (Path.ofString a.path) with
    | error e =>
      simp only [executeOn, report, hResolve, hRun]
      exact .failed hResolve (hRun ▸ hAnswer)
    | ok store =>
      simp only [executeOn, report, hResolve, hRun]
      exact .counted hResolve (hRun ▸ hAnswer)

/-- Every command does all of its work or none of it, on every host and in every tree, whichever of
its answers the run gives. -/
theorem executeOn_allOrNothing (host : Host) {fs : FileSystem} (hFs : fs.WellFormed)
    (a : Arguments) : Outcomes host fs a (executeOn host fs a) ∧
      ∀ o, Outcomes host fs a o → AllOrNothing host fs a o := by
  refine ⟨outcomes_executeOn host fs a, fun o hOutcome => ?_⟩
  cases hOutcome with
  | unresolved hResolve => exact allOrNothing_of_resolve hResolve
  | failed hResolve hAnswer => exact allOrNothing_of_error hFs hResolve hAnswer
  | counted hResolve hAnswer => exact allOrNothing_of_store hFs hResolve hAnswer

/-- A command that counts under a root and writes to a file. -/
def writing (root : String) : Arguments where
  path := root
  includeTests := false
  format := some .csv
  statistics := false
  grouping := none
  output := some "report.csv"
  exclude := []
  noGitignore := false
  workers := none
  logLevel := .warn

/-- A tree with a source file and a report of an earlier run. -/
def reportTree : FileSystem where
  top :=
    [(Path.ofString "p", .directory [(Path.ofString "a.go",
        .file (Path.ofString (String.ofList Go.SourceFile.twoFunctions)))]),
      (Path.ofString "report.csv", .file (Path.ofString "package\r\n"))]
  current := []

/-- The place of the source file's directory. -/
def reportPlace : Location :=
  match reportTree.top.lookup (Path.ofString "p") with
  | some (.directory es) => [(Path.ofString "p", es)]
  | _ => []

/-- The store of the file. -/
def reportedStore : Store :=
  Run.storeOf .directory [(Path.ofString "p/a.go", ⟨['q'], [⟨['f'], 2, 2⟩, ⟨['g'], 3, 4⟩]⟩)]

/-- The report of the two functions. -/
def reportText : String :=
  "package,functionName,fileName,startsAt,endsAt,lines\r\np,f,p/a.go,2,2,0\r\np,g,p/a.go,3,4,1\r\n"

/-- A root that is missing: the earlier report stays. A root that is there: the new report takes its
place. -/
theorem executeOn_allOrNothing_missing :
    reportTree.WellFormed ∧
    ((executeOn .sound reportTree (writing "missing")).exitCode = 3 ∧
      (executeOn .sound reportTree (writing "missing")).Untouched reportTree) ∧
    (executeOn .sound reportTree (writing "p")).exitCode = 0 ∧
    (executeOn .sound reportTree (writing "p")).stdout = "" ∧
    Written reportTree (Path.ofString "report.csv") (Utf8.ofString reportText)
      (executeOn .sound reportTree (writing "p")).files := by
  have hFs : reportTree.WellFormed := by decide
  have hCommand (root : String) : AllOrNothing .sound reportTree (writing root)
      (executeOn .sound reportTree (writing root)) :=
    (executeOn_allOrNothing .sound hFs (writing root)).2 _
      (executeOn_allOrNothing .sound hFs (writing root)).1
  have hMissing := (hCommand "missing").failed _ rfl (.notReached rfl)
  obtain ⟨settings, hResolve, hStandard, hFormat, hStatistics⟩ : ∃ settings,
      Settings.resolve (writing "p") (ProjectSettings.load reportTree (Path.ofString "p")) =
        .ok settings ∧ settings.run = .standard ∧ settings.format = .csv ∧
        settings.statistics = false := ⟨_, rfl, rfl, rfl, rfl⟩
  have hCollect : Walk.collect reportTree .standard (Path.ofString "p") reportPlace =
      .ok [Path.ofString "p/a.go"] := by decide +kernel
  have hText : reportTree.readText (Path.ofString "p/a.go") = .ok Go.SourceFile.twoFunctions := by
    decide +kernel
  have hRun : runOn .ready reportTree settings.run (Path.ofString "p") = .ok reportedStore := by
    have hRoot : reportTree.find (Path.ofString "p") = .ok (.directory reportPlace) := rfl
    rw [hStandard]
    exact (run_directory_eq_ok hRoot).mpr ⟨_, _, hCollect, Run.readFiles_cons
      (Run.readFile_of_parse hText Go.SourceFile.parse_twoFunctions) rfl, rfl⟩
  have hNot : ¬ Run.Fails Host.sound.pool reportTree settings.run (Path.ofString "p") := by
    rw [← runOn_eq_error_iff hFs]
    rintro ⟨e, he⟩
    cases hRun.symm.trans he
  obtain ⟨store, hStore, hDelivered⟩ :=
    (hCommand "p").completed settings hResolve hNot
  obtain rfl := Except.ok.inj (hRun.symm.trans hStore)
  have hReport : (Report.ofStore reportedStore settings.statistics).render settings.format =
      reportText := by
    rw [hStatistics, hFormat]
    decide +kernel
  rw [hReport] at hDelivered
  cases hDelivered with
  | shown hNone => cases hNone
  | cutOff hNone => cases hNone
  | written hOutput hExit hStdout hWritten =>
    cases hOutput
    exact ⟨hFs, hMissing, hExit, hStdout, hWritten⟩
  | refused hOutput hWrite =>
    cases hOutput
    cases hWrite

end FuncSpans.Command
