import FuncSpans.Proofs.Run.Directory
import FuncSpans.Proofs.Walk.Decision

/-!
# Why runs fail

A run answers with an error exactly if its root is not reached or is a file of another kind, an
exclude pattern is invalid, the walk fails, the threads cannot be started, or one of the files that
it reads cannot be read or parsed (`runOn_eq_error_iff`).
-/

namespace FuncSpans

namespace RuleSet

/-- Exclude patterns have no rules exactly if one of them is invalid. -/
theorem excludeRules_eq_error_iff {patterns : List String} :
    (∃ e, excludeRules patterns = .error e) ↔
      ∃ pattern ∈ patterns, ∃ e, Rule.ofLine? false (excludeLine pattern) = .error e := by
  induction patterns with
  | nil => simp [excludeRules]
  | cons pattern patterns ih =>
    rw [List.exists_mem_cons_iff, ← ih, excludeRules]
    cases Rule.ofLine? false (excludeLine pattern) with
    | error e => simp
    | ok rule => cases excludeRules patterns <;> simp

end RuleSet

namespace Run

theorem readFile_eq_error_iff {fs : FileSystem} {path : Path} :
    (∃ e, readFile fs path = .error e) ↔ (∃ reason, fs.readText path = .error reason) ∨
      ∃ text position, fs.readText path = .ok text ∧ Go.SourceFile.parse text = .error position := by
  rw [readFile]
  cases fs.readText path with
  | error reason => simp
  | ok text =>
    dsimp only
    cases hParse : Go.SourceFile.parse text with
    | error position =>
      obtain ⟨line, column⟩ := position
      simp [hParse]
    | ok file => simp [hParse]

theorem ofFiles_eq_error_iff {fs : FileSystem} {settings : RunSettings} {paths : List Path} :
    (∃ e, ofFiles fs settings paths = .error e) ↔
      ∃ path ∈ paths, ∃ e, readFile fs path = .error e := by
  rw [← readFiles_eq_error_iff, ofFiles]
  cases readFiles fs paths <;> simp

/-- The files that a run opens to read them, if its threads can be started. -/
inductive Opens (fs : FileSystem) (settings : RunSettings) (root : Path) : List Path → Prop
  | file {content : Bytes} : fs.find root = .ok (.file content) → root.isGoSource = true →
      Opens fs settings root [root.clean]
  | directory {place : Location} {paths : List Path} : fs.find root = .ok (.directory place) →
      Walk.collect fs settings root place = .ok paths → Opens fs settings root paths

/-- The reasons for which a run fails. -/
inductive Fails (pool : Pool) (fs : FileSystem) (settings : RunSettings) (root : Path) : Prop
  | notReached {fault : Fault} : fs.find root = .error fault → Fails pool fs settings root
  | notGo {content : Bytes} : fs.find root = .ok (.file content) → root.isGoSource = false →
      Fails pool fs settings root
  | badPattern {place : Location} {pattern : String} {e : GlobError} :
      fs.find root = .ok (.directory place) → pattern ∈ settings.exclude →
      Rule.ofLine? false (RuleSet.excludeLine pattern) = .error e → Fails pool fs settings root
  | walk {place : Location} {excludes : RuleSet} : fs.find root = .ok (.directory place) →
      RuleSet.ofPatterns root settings.exclude = .ok excludes →
      (Walk.start fs settings excludes root place).Fails (fs.entriesAt place) →
      Fails pool fs settings root
  | pool {place : Location} {paths : List Path} {reason : String} :
      fs.find root = .ok (.directory place) →
      Walk.collect fs settings root place = .ok paths →
      pool.refusal? (threads settings) = some reason → Fails pool fs settings root
  | unreadable {paths : List Path} {path : Path} {reason : String} :
      Opens fs settings root paths → path ∈ paths → fs.readText path = .error reason →
      Fails pool fs settings root
  | syntaxError {paths : List Path} {path : Path} {text : List Char} {position : Nat × Nat} :
      Opens fs settings root paths → path ∈ paths → fs.readText path = .ok text →
      Go.SourceFile.parse text = .error position → Fails pool fs settings root

section

variable {pool : Pool} {fs : FileSystem} {settings : RunSettings} {root : Path} {paths : List Path}

theorem opens_of_sources (h : sources pool fs settings root = .ok paths) :
    Opens fs settings root paths := by
  cases hRoot : fs.find root with
  | error fault => cases fault <;> (rw [sources, hRoot] at h; cases h)
  | ok found =>
    cases found with
    | file content =>
      simp only [sources, hRoot] at h
      split_ifs at h with hGo
      cases h
      exact .file hRoot hGo
    | directory place => exact .directory hRoot ((sources_directory_eq_ok hRoot).mp h).1

theorem Opens.sources_ready (h : Opens fs settings root paths) :
    sources .ready fs settings root = .ok paths := by
  cases h with
  | file hRoot hGo => simp only [sources, hRoot, hGo, if_true]
  | directory hRoot hCollect => exact (sources_directory_eq_ok hRoot).mpr ⟨hCollect, rfl⟩

theorem Opens.run_eq (h : Opens fs settings root paths) :
    run fs settings root = ofFiles fs settings paths :=
  runOn_of_sources h.sources_ready

/-- A run that is to open some files opens these, or its threads cannot be started. -/
theorem Opens.sources_eq (h : Opens fs settings root paths) (pool : Pool) :
    sources pool fs settings root = .ok paths ∨ ∃ e, sources pool fs settings root = .error e := by
  cases h with
  | file hRoot hGo => exact Or.inl (by simp only [sources, hRoot, hGo, if_true])
  | directory hRoot hCollect =>
    cases hPool : pool.refusal? (threads settings) with
    | none => exact Or.inl ((sources_directory_eq_ok hRoot).mpr ⟨hCollect, hPool⟩)
    | some reason => exact Or.inr ⟨_, sources_of_refusal hRoot hCollect hPool⟩

/-- One file that cannot be read or parsed is enough for a run to fail. -/
theorem Opens.runOn_eq_error (h : Opens fs settings root paths) {path : Path} (hPath : path ∈ paths)
    (he : ∃ e, readFile fs path = .error e) : ∃ e, runOn pool fs settings root = .error e := by
  rcases h.sources_eq pool with hSources | ⟨e, hSources⟩
  · rw [runOn_of_sources hSources]
    exact ofFiles_eq_error_iff.mpr ⟨path, hPath, he⟩
  · exact ⟨e, by rw [runOn, hSources]⟩

theorem fails_of_ofFiles (h : Opens fs settings root paths)
    (he : ∃ e, ofFiles fs settings paths = .error e) : Fails pool fs settings root := by
  obtain ⟨path, hPath, he⟩ := ofFiles_eq_error_iff.mp he
  rcases readFile_eq_error_iff.mp he with ⟨reason, hText⟩ | ⟨text, position, hText, hParse⟩
  · exact .unreadable h hPath hText
  · exact .syntaxError h hPath hText hParse

theorem runOn_of_sources_error {e : RunError} (h : sources pool fs settings root = .error e) :
    ∃ e, runOn pool fs settings root = .error e :=
  ⟨e, by rw [runOn, h]⟩

/-- A run has no files to read for one of the reasons. -/
theorem fails_of_sources (hFs : fs.WellFormed) {e : RunError}
    (h : sources pool fs settings root = .error e) : Fails pool fs settings root := by
  cases hRoot : fs.find root with
  | error fault => exact .notReached hRoot
  | ok found =>
    cases found with
    | file content =>
      cases hGo : root.isGoSource with
      | false => exact .notGo hRoot hGo
      | true =>
        simp only [sources, hRoot, hGo, if_true] at h
        cases h
    | directory place =>
      cases hRules : RuleSet.excludeRules settings.exclude with
      | error e =>
        obtain ⟨pattern, hPattern, e, he⟩ := RuleSet.excludeRules_eq_error_iff.mp ⟨e, hRules⟩
        exact .badPattern hRoot hPattern he
      | ok rules =>
        have hPatterns := RuleSet.ofPatterns_of_rules hRules root
        rcases Walk.outcome_collect hFs hRoot hPatterns with ⟨hFails, -⟩ | ⟨-, hCollect, -, -⟩
        · exact .walk hRoot hPatterns hFails
        · cases hPool : pool.refusal? (threads settings) with
          | some reason => exact .pool hRoot hCollect hPool
          | none =>
            have hSources := (sources_directory_eq_ok hRoot).mpr ⟨hCollect, hPool⟩
            cases hSources.symm.trans h

end

end Run

/-- A run fails for one of the reasons, and for any of them. -/
theorem runOn_eq_error_iff {pool : Pool} {fs : FileSystem} (hFs : fs.WellFormed)
    {settings : RunSettings} {root : Path} :
    (∃ e, runOn pool fs settings root = .error e) ↔ Run.Fails pool fs settings root := by
  constructor
  · rintro ⟨e, h⟩
    cases hSources : Run.sources pool fs settings root with
    | error e' => exact Run.fails_of_sources hFs hSources
    | ok paths =>
      rw [Run.runOn_of_sources hSources] at h
      exact Run.fails_of_ofFiles (Run.opens_of_sources hSources) ⟨e, h⟩
  · rintro (@⟨fault, hRoot⟩ | ⟨hRoot, hGo⟩ | @⟨place, pattern, e, hRoot, hPattern, he⟩ |
      ⟨hRoot, hPatterns, hFails⟩ | ⟨hRoot, hCollect, hPool⟩ | ⟨hOpens, hPath, hText⟩ |
      ⟨hOpens, hPath, hText, hParse⟩)
    · cases fault <;> exact ⟨_, by rw [runOn, Run.sources, hRoot]⟩
    · refine ⟨.notAGoFile root, ?_⟩
      simp only [runOn, Run.sources, hRoot, hGo, Bool.false_eq_true, if_false]
    · obtain ⟨e, hRules⟩ := RuleSet.excludeRules_eq_error_iff.mpr ⟨pattern, hPattern, e, he⟩
      refine ⟨.badPattern e.1 e.2, ?_⟩
      simp only [runOn, Run.sources, hRoot, Walk.collect, RuleSet.ofPatterns, hRules]
    · obtain ⟨reason, hCollect⟩ := (Walk.collect_eq_error_iff hFs hRoot hPatterns).mpr hFails
      exact ⟨.walk reason, by simp only [runOn, Run.sources, hRoot, hCollect]⟩
    · exact Run.runOn_of_sources_error (Run.sources_of_refusal hRoot hCollect hPool)
    · exact hOpens.runOn_eq_error hPath (Run.readFile_eq_error_iff.mpr (Or.inl ⟨_, hText⟩))
    · exact hOpens.runOn_eq_error hPath
        (Run.readFile_eq_error_iff.mpr (Or.inr ⟨_, _, hText, hParse⟩))

end FuncSpans
