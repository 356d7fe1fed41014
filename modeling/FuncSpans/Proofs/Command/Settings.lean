import FuncSpans.Proofs.Command.Execution
import Mathlib.Data.List.Induction

/-!
# What settings come to

A project and a command line come to settings field by field (`Settings.resolve_fields`). Three
rules are at work. A value that is given stands before one of the project, and that before the
standard one (`grouping`, `workers`, the format). A flag can be set in either place. Patterns to
exclude come one after the other.

The patterns pass through two loops that add what is not there yet, each over the result of the
one before it. Both are one `List.eraseDups` over everything that was said
(`ProjectSettings.addPatterns_eraseDups`), so a pattern that is said again says nothing.
-/

namespace FuncSpans

/-! ## Every pattern once -/

namespace ProjectSettings

variable {xs ys zs : List String}

/-- What one more pattern does to a list in which each is once. -/
theorem eraseDups_concat (xs : List String) (x : String) :
    (xs ++ [x]).eraseDups = if x ∈ xs then xs.eraseDups else xs.eraseDups ++ [x] := by
  rw [List.eraseDups_append]
  split
  · rename_i hMem
    simp [List.removeAll, hMem]
  · rename_i hNot
    simp [List.removeAll, hNot, List.eraseDups_cons]

/-- Patterns stay in the order in which they are first said. -/
theorem pairwise_idxOf_eraseDups (xs : List String) :
    xs.eraseDups.Pairwise fun x y => xs.idxOf x < xs.idxOf y := by
  induction xs using List.reverseRecOn with
  | nil => exact List.Pairwise.nil
  | append_singleton xs x ih =>
    -- What is in the front is found where it was; a pattern that is not is found behind it.
    have hFront : ∀ y ∈ xs, (xs ++ [x]).idxOf y = xs.idxOf y := fun y hy => by
      rw [List.idxOf_append, if_pos hy]
    have hKept : xs.eraseDups.Pairwise fun y z => (xs ++ [x]).idxOf y < (xs ++ [x]).idxOf z := by
      refine ih.imp_of_mem fun {y z} hy hz hLt => ?_
      rwa [hFront y (List.mem_eraseDups.mp hy), hFront z (List.mem_eraseDups.mp hz)]
    rw [eraseDups_concat]
    split
    · exact hKept
    · rename_i hNot
      refine List.pairwise_append.mpr ⟨hKept, List.pairwise_singleton _ _, fun y hy z hz => ?_⟩
      obtain rfl := List.mem_singleton.mp hz
      have hy := List.mem_eraseDups.mp hy
      rw [hFront y hy, List.idxOf_append, if_neg hNot]
      have hLt : xs.idxOf y < xs.length := List.idxOf_lt_length_of_mem hy
      omega

theorem nodup_eraseDups (xs : List String) : xs.eraseDups.Nodup := by
  refine (pairwise_idxOf_eraseDups xs).imp fun hLt hSame => ?_
  rw [hSame] at hLt
  exact Nat.lt_irrefl _ hLt

/-- Behind other patterns only those count that are said for the first time. -/
theorem eraseDups_append_eraseDups (xs ys : List String) :
    (xs ++ ys.eraseDups).eraseDups = (xs ++ ys).eraseDups := by
  induction ys using List.reverseRecOn with
  | nil => rfl
  | append_singleton ys y ih =>
    by_cases hMem : y ∈ ys
    · rw [eraseDups_concat, if_pos hMem, ih, ← List.append_assoc, eraseDups_concat,
        if_pos (List.mem_append_right xs hMem)]
    · rw [eraseDups_concat, if_neg hMem, ← List.append_assoc, ← List.append_assoc,
        eraseDups_concat, eraseDups_concat, ih]
      simp only [List.mem_append, List.mem_eraseDups]

theorem eraseDups_append_congr (xs : List String) (h : ys.eraseDups = zs.eraseDups) :
    (xs ++ ys).eraseDups = (xs ++ zs).eraseDups := by
  rw [← eraseDups_append_eraseDups, h, eraseDups_append_eraseDups]

theorem eraseDups_append_of_subset (h : ∀ y ∈ ys, y ∈ xs) :
    (xs ++ ys).eraseDups = xs.eraseDups := by
  have hNone : ys.removeAll xs = [] := List.filter_eq_nil_iff.mpr (by simpa using h)
  rw [List.eraseDups_append, hNone, List.eraseDups_nil, List.append_nil]

theorem eraseDups_replicate_flatten (xs : List String) (n : Nat) :
    (List.replicate (n + 1) xs).flatten.eraseDups = xs.eraseDups := by
  rw [List.replicate_succ, List.flatten_cons]
  refine eraseDups_append_of_subset fun y hy => ?_
  obtain ⟨ys, hys, hy⟩ := List.mem_flatten.mp hy
  rwa [List.eq_of_mem_replicate hys] at hy

theorem eraseDups_flatMap_replicate (xs : List String) (times : String → Nat) :
    (xs.flatMap fun x => List.replicate (times x + 1) x).eraseDups = xs.eraseDups := by
  induction xs using List.reverseRecOn with
  | nil => rfl
  | append_singleton xs x ih =>
    have hSame : (List.replicate (times x + 1) x).eraseDups = [x].eraseDups := by
      rw [List.replicate_succ, List.eraseDups_cons, List.eraseDups_cons]
      congr 1
      simp
    rw [List.flatMap_append, List.flatMap_singleton, eraseDups_append_congr _ hSame,
      eraseDups_concat, eraseDups_concat, ih]
    simp [List.mem_flatMap]

theorem addPatterns_concat (xs ys : List String) (y : String) :
    addPatterns xs (ys ++ [y]) =
      if y ∈ addPatterns xs ys then addPatterns xs ys else addPatterns xs ys ++ [y] := by
  rw [addPatterns, List.foldl_append]
  rfl

/-- The loop that adds patterns, on patterns of which each is once. -/
theorem addPatterns_eraseDups (xs ys : List String) :
    addPatterns xs.eraseDups ys = (xs ++ ys).eraseDups := by
  induction ys using List.reverseRecOn with
  | nil => rw [List.append_nil]; rfl
  | append_singleton ys y ih =>
    rw [addPatterns_concat, ih, ← List.append_assoc, eraseDups_concat]
    simp only [List.mem_eraseDups]

/-- What a project says of patterns, in order. -/
def saidPatterns (p : ProjectSettings) : List String :=
  (if p.skipBuiltIn then [] else RunSettings.builtInPatterns) ++ p.paths

theorem effectivePatterns_eq (p : ProjectSettings) :
    p.effectivePatterns = p.saidPatterns.eraseDups := by
  have hBuiltIn : (if p.skipBuiltIn then [] else RunSettings.builtInPatterns).eraseDups =
      if p.skipBuiltIn then [] else RunSettings.builtInPatterns := by
    split <;> rfl
  rw [effectivePatterns, ← hBuiltIn, addPatterns_eraseDups, saidPatterns]

end ProjectSettings

/-! ## The format -/

/-- The names of formats, in lower case. -/
def Format.names : List String := ["json", "csv", "text", "txt", "table"]

theorem Format.ofName?_eq_none_iff {name : String} :
    Format.ofName? name = none ↔ Text.lowerCase name ∉ Format.names := by
  unfold Format.ofName?
  split <;> simp_all [Format.names]

theorem Format.ofName?_name (f : Format) : Format.ofName? f.name = some f := by
  cases f <;> decide

namespace Command.Settings

open ProjectSettings

variable {a : Arguments} {p : ProjectSettings} {s : Settings}

/-- The name of a format that applies, if anybody gives one. -/
def formatName? (a : Arguments) (p : ProjectSettings) : Option String :=
  (a.format.map Format.name).or p.format

/-- The patterns that are said, in order. -/
def saidPatterns (a : Arguments) (p : ProjectSettings) : List String :=
  p.saidPatterns ++ a.exclude

theorem runSettings_exclude (a : Arguments) (p : ProjectSettings) :
    (runSettings a p).exclude = (saidPatterns a p).eraseDups := by
  rw [saidPatterns, ← addPatterns_eraseDups, ← effectivePatterns_eq]
  rfl

/-- The settings that a command line and a project have come to, field by field. -/
structure Fields (a : Arguments) (p : ProjectSettings) (s : Settings) : Prop where
  format : a.format.or (p.format.elim (some .json) Format.ofName?) = some s.format
  grouping : s.run.grouping = (a.grouping.or p.grouping).getD .directory
  workers : s.run.workers = (a.workers.or p.workers).getD 8
  includeTests : s.run.includeTests = true ↔ a.includeTests = true ∨ p.includeTests = some true
  statistics : s.statistics = true ↔ a.statistics = true ∨ p.statistics = some true
  respectIgnoreFiles : s.run.respectIgnoreFiles = false ↔
    a.noGitignore = true ∨ p.respectIgnoreFiles = false
  /-- Every later repetition of a pattern is removed. -/
  exclude : s.run.exclude = (saidPatterns a p).eraseDups
  exclude_nodup : s.run.exclude.Nodup
  mem_exclude : ∀ x, x ∈ s.run.exclude ↔
    (p.skipBuiltIn = false ∧ x ∈ RunSettings.builtInPatterns) ∨ x ∈ p.paths ∨ x ∈ a.exclude
  exclude_order : s.run.exclude.Pairwise fun x y =>
    (saidPatterns a p).idxOf x < (saidPatterns a p).idxOf y

theorem mem_saidPatterns {x : String} : x ∈ saidPatterns a p ↔
    (p.skipBuiltIn = false ∧ x ∈ RunSettings.builtInPatterns) ∨ x ∈ p.paths ∨ x ∈ a.exclude := by
  rw [saidPatterns, ProjectSettings.saidPatterns, List.append_assoc, List.mem_append,
    List.mem_append]
  cases p.skipBuiltIn <;> simp

theorem getD_or {α : Type} (given own : Option α) (standard : α) :
    given.getD (own.getD standard) = (given.or own).getD standard := by
  cases given <;> rfl

/-- Of the names of a format, the one of the command line is one. -/
theorem or_ofName?_of_format? {f : Format} (h : format? a p = .ok f) :
    a.format.or (p.format.elim (some .json) Format.ofName?) = some f := by
  unfold format? at h
  split at h
  · rename_i hGiven
    rw [hGiven, ← Except.ok.inj h]
    rfl
  · rename_i hNone hProject
    rw [hNone, hProject, ← Except.ok.inj h]
    rfl
  · rename_i name hNone hProject
    rw [hNone, hProject]
    split at h
    · rename_i hName
      rw [← Except.ok.inj h]
      exact hName
    · cases h

theorem fields_of_resolve (h : resolve a p = .ok s) : Fields a p s := by
  unfold resolve at h
  split at h
  · cases h
  · rename_i hFormat
    obtain rfl := Except.ok.inj h
    have hExclude := runSettings_exclude a p
    exact {
      format := or_ofName?_of_format? hFormat
      grouping := getD_or _ _ _
      workers := getD_or _ _ _
      includeTests := by
        cases hProject : p.includeTests <;>
          simp [runSettings, ProjectSettings.runSettings, hProject, or_comm, RunSettings.standard]
      statistics := by cases p.statistics <;> simp
      respectIgnoreFiles := by
        cases hProject : p.respectIgnoreFiles <;>
          simp [runSettings, ProjectSettings.runSettings, hProject]
      exclude := hExclude
      exclude_nodup := hExclude ▸ nodup_eraseDups _
      mem_exclude := fun x => by rw [hExclude, List.mem_eraseDups, mem_saidPatterns]
      exclude_order := hExclude ▸ pairwise_idxOf_eraseDups _ }

theorem resolve_eq_error_iff : (∃ e, resolve a p = .error e) ↔
    ∃ name, formatName? a p = some name ∧ Text.lowerCase name ∉ Format.names := by
  constructor
  · rintro ⟨e, h⟩
    obtain ⟨name, hNone, hProject, hName, -⟩ := resolve_eq_error h
    exact ⟨name, by simp [formatName?, hNone, hProject], Format.ofName?_eq_none_iff.mp hName⟩
  · rintro ⟨name, hApplies, hName⟩
    have hName := Format.ofName?_eq_none_iff.mpr hName
    cases hGiven : a.format with
    | some f =>
      -- The name of a format that the command line gives is one.
      obtain rfl : f.name = name := by simpa [formatName?, hGiven] using hApplies
      cases (Format.ofName?_name f).symm.trans hName
    | none =>
      have hProject : p.format = some name := by simpa [formatName?, hGiven] using hApplies
      exact ⟨_, by simp [resolve, format?, hGiven, hProject, hName]; rfl⟩

theorem exitCode_of_resolve {e : CommandError} (h : resolve a p = .error e) : e.exitCode = 2 := by
  obtain ⟨name, -, -, -, rfl⟩ := resolve_eq_error h
  rfl

/-- Of the patterns of a command line only the first of each counts. -/
theorem resolve_exclude {again : List String} (h : again.eraseDups = a.exclude.eraseDups) :
    resolve { a with exclude := again } p = resolve a p := by
  have hExclude : (runSettings { a with exclude := again } p).exclude =
      (runSettings a p).exclude := by
    rw [runSettings_exclude, runSettings_exclude]
    exact eraseDups_append_congr _ h
  have hRun : runSettings { a with exclude := again } p = runSettings a p := by
    simpa [runSettings] using hExclude
  simp only [resolve, hRun, format?]

/-- The format of a project does not count if the command line gives one. -/
theorem resolve_format {f : Format} (h : a.format = some f) (name : Option String) :
    resolve a { p with format := name } = resolve a p := by
  simp only [resolve, format?, h]
  rfl

/-- A command line and a project come to settings unless the name of the format that applies is
none, and to the fields that `Fields` says. Neither a wrong name in a project that does not apply
nor saying patterns again makes a difference. -/
theorem resolve_fields (a : Arguments) (p : ProjectSettings) :
    ((∃ e, resolve a p = .error e) ↔
      ∃ name, formatName? a p = some name ∧ Text.lowerCase name ∉ Format.names) ∧
    (∀ e, resolve a p = .error e → e.exitCode = 2) ∧
    (∀ f name, a.format = some f → resolve a { p with format := name } = resolve a p) ∧
    (∀ s, resolve a p = .ok s → Fields a p s) ∧
    (∀ again, again.eraseDups = a.exclude.eraseDups →
      resolve { a with exclude := again } p = resolve a p) ∧
    (∀ n, resolve { a with exclude := (List.replicate (n + 1) a.exclude).flatten } p =
      resolve a p) ∧
    ∀ times : String → Nat, resolve { a with exclude :=
      (a.exclude.flatMap fun x => List.replicate (times x + 1) x) } p = resolve a p :=
  ⟨resolve_eq_error_iff, fun _ => exitCode_of_resolve, fun _ name h => resolve_format h name,
    fun _ => fields_of_resolve, fun _ => resolve_exclude,
    fun n => resolve_exclude (eraseDups_replicate_flatten a.exclude n),
    fun times => resolve_exclude (eraseDups_flatMap_replicate a.exclude times)⟩

end Command.Settings

end FuncSpans
