import FuncSpans.Walk
import Mathlib.Data.List.Basic

/-!
# What decides about an entry

`Walk.LeavesOut` says in terms of single rules when a walk leaves an entry out: some exclude
pattern is about it; or none is, and the winning line of the ignore files says so; or no line
is about it either, and its name is hidden. `Frame.Wins` is the precedence among the lines:
the stronger kind of file, then the inner directory, then the later line.

Which names are hidden is open in this. `Walk.skips_iff` is the main statement: a walk decides in
just this way, with `Walk.Hidden` for the hidden names.
-/

namespace FuncSpans

/-! ## One set of rules -/

namespace RuleSet

/-- Whether a rule of a set is about an entry. -/
def Concerns (s : RuleSet) (path : Path) (isDirectory : Bool) (r : Rule) : Prop :=
  r.applies (relativeTo s.base path) isDirectory = true

/-- No rule of the set is about the entry. -/
def Silent (s : RuleSet) (path : Path) (isDirectory : Bool) : Prop :=
  ∀ r ∈ s.rules, ¬ s.Concerns path isDirectory r

/-- The rule is the last one of the set that is about the entry. -/
def Decides (s : RuleSet) (path : Path) (isDirectory : Bool) (r : Rule) : Prop :=
  ∃ earlier later, s.rules = earlier ++ r :: later ∧ s.Concerns path isDirectory r ∧
    ∀ q ∈ later, ¬ s.Concerns path isDirectory q

theorem verdict?_eq_none {s : RuleSet} {path : Path} {isDirectory : Bool} :
    s.verdict? path isDirectory = none ↔ s.Silent path isDirectory := by
  unfold verdict? Silent Concerns
  simp

theorem verdict?_eq_some {s : RuleSet} {path : Path} {isDirectory : Bool} {v : Verdict} :
    s.verdict? path isDirectory = some v ↔
      ∃ r, s.Decides path isDirectory r ∧ r.verdict = v := by
  unfold verdict? Decides Concerns
  simp only [Option.map_eq_some_iff, List.find?_eq_some_iff_append]
  constructor
  · rintro ⟨r, ⟨hr, later, earlier, hs, hLater⟩, hv⟩
    refine ⟨r, ⟨earlier.reverse, later.reverse, ?_, hr, ?_⟩, hv⟩
    · rw [← List.reverse_reverse s.rules, hs]
      simp
    · simpa using hLater
  · rintro ⟨r, ⟨earlier, later, hs, hr, hLater⟩, hv⟩
    refine ⟨r, ⟨hr, later.reverse, earlier.reverse, ?_, ?_⟩, hv⟩
    · rw [hs]
      simp
    · simpa using hLater

theorem verdict_of_mem_excludeRules {patterns : List String} {rules : List Rule}
    (h : excludeRules patterns = .ok rules) : ∀ r ∈ rules, r.verdict = .skip := by
  induction patterns generalizing rules with
  | nil => cases h; simp
  | cons pattern patterns ih =>
    unfold excludeRules at h
    split at h
    · cases h
    · rename_i rule _
      split at h
      · cases h
      · rename_i rules' hRules
        cases h
        intro r hr
        rcases List.mem_append.mp hr with hr | hr
        · cases rule with
          | none => simp at hr
          | some q =>
            simp only [Option.map_some, Option.toList_some, List.mem_singleton] at hr
            rw [hr]
        · exact ih hRules r hr

theorem ofPatterns_eq_ok {directory : Path} {patterns : List String} {s : RuleSet} :
    ofPatterns directory patterns = .ok s ↔
      ∃ rules, excludeRules patterns = .ok rules ∧ s = ⟨dropDotSlash directory, rules⟩ := by
  unfold ofPatterns
  cases excludeRules patterns with
  | error e => simp
  | ok rules => simp [eq_comm]

theorem ofPatterns_of_rules {patterns : List String} {rules : List Rule}
    (h : excludeRules patterns = .ok rules) (directory : Path) :
    ofPatterns directory patterns = .ok ⟨dropDotSlash directory, rules⟩ :=
  ofPatterns_eq_ok.mpr ⟨rules, h, rfl⟩

/-- Exclude patterns never keep an entry. -/
theorem verdict_of_ofPatterns {directory : Path} {patterns : List String} {s : RuleSet}
    (h : ofPatterns directory patterns = .ok s) : ∀ r ∈ s.rules, r.verdict = .skip := by
  unfold ofPatterns at h
  split at h
  · cases h
  · rename_i rules hRules
    cases h
    exact verdict_of_mem_excludeRules hRules

end RuleSet

/-! ## The ignore files of several directories -/

namespace Frame

/-- No line of a kind of ignore file in any of the frames is about the entry. -/
def Silent (kind : IgnoreKind) (frames : List (Frame × Path)) (isDirectory : Bool) : Prop :=
  ∀ f ∈ frames, (f.1.rules kind).Silent f.2 isDirectory

/-- The line that wins among those about an entry: the stronger kinds of ignore file have none,
nor have the inner directories in files of the same kind, and it is the last one of its file. -/
def Wins (frames : List (Frame × Path)) (isDirectory : Bool) (r : Rule) : Prop :=
  ∃ stronger kind weaker inner f outer,
    IgnoreKind.all = stronger ++ kind :: weaker ∧ frames = inner ++ f :: outer ∧
      (∀ k ∈ stronger, Silent k frames isDirectory) ∧ Silent kind inner isDirectory ∧
      (f.1.rules kind).Decides f.2 isDirectory r

theorem verdict?_eq_none {frames : List (Frame × Path)} {isDirectory : Bool} :
    verdict? frames isDirectory = none ↔ ∀ kind, Silent kind frames isDirectory := by
  unfold verdict? Silent
  simp only [List.findSome?_eq_none_iff, RuleSet.verdict?_eq_none]
  constructor
  · intro h kind
    exact h kind (by cases kind <;> simp [IgnoreKind.all])
  · intro h kind _
    exact h kind

theorem verdict?_eq_some {frames : List (Frame × Path)} {isDirectory : Bool} {v : Verdict} :
    verdict? frames isDirectory = some v ↔ ∃ r, Wins frames isDirectory r ∧ r.verdict = v := by
  unfold verdict? Wins Silent
  simp only [List.findSome?_eq_some_iff, List.findSome?_eq_none_iff, RuleSet.verdict?_eq_none,
    RuleSet.verdict?_eq_some]
  constructor
  · rintro ⟨stronger, kind, weaker, hk, ⟨inner, f, outer, hf, ⟨r, hr, hv⟩, hInner⟩, hs⟩
    exact ⟨r, ⟨stronger, kind, weaker, inner, f, outer, hk, hf, hs, hInner, hr⟩, hv⟩
  · rintro ⟨r, ⟨stronger, kind, weaker, inner, f, outer, hk, hf, hs, hInner, hr⟩, hv⟩
    exact ⟨stronger, kind, weaker, hk, ⟨inner, f, outer, hf, ⟨r, hr, hv⟩, hInner⟩, hs⟩

end Frame

/-! ## A walk -/

namespace Walk

/-- The frames that know of an entry, each with the path by which it does: those from the
directory of the entry up to the root, then those around the root. -/
def framesOf (w : Walk) (inner : List Frame) (path : Path) : List (Frame × Path) :=
  inner.map (·, RuleSet.dropDotSlash path) ++
    w.around.map (·, w.rootPlace.join (w.belowRoot (RuleSet.dropDotSlash path)))

/-- Some exclude pattern is about an entry. -/
def Excludes (w : Walk) (path : Path) (isDirectory : Bool) : Prop :=
  ∃ r ∈ w.excludes.rules, w.excludes.Concerns (RuleSet.dropDotSlash path) isDirectory r

/-- A name is hidden to a walk: it begins with a stop, and does not end in one. -/
def Hidden (name : Bytes) : Prop :=
  name.head? = some Path.stop ∧ name.getLast? ≠ some Path.stop

/-- An entry is left out: by an exclude pattern; else by the winning line of the ignore files,
if these count; else because its name is among the hidden ones. -/
inductive LeavesOut (w : Walk) (hides : Bytes → Prop) (inner : List Frame) (path : Path)
    (name : Bytes) (isDirectory : Bool) : Prop
  | excluded : w.Excludes path isDirectory → LeavesOut w hides inner path name isDirectory
  | ignored {r : Rule} : ¬ w.Excludes path isDirectory → w.respectIgnoreFiles = true →
      Frame.Wins (w.framesOf inner path) isDirectory r → r.verdict = .skip →
      LeavesOut w hides inner path name isDirectory
  | hidden : ¬ w.Excludes path isDirectory →
      (w.respectIgnoreFiles = true →
        ∀ kind, Frame.Silent kind (w.framesOf inner path) isDirectory) →
      hides name → LeavesOut w hides inner path name isDirectory

theorem excludes_iff {w : Walk} (hw : ∀ r ∈ w.excludes.rules, r.verdict = .skip) {path : Path}
    {isDirectory : Bool} : w.Excludes path isDirectory ↔
      w.excludes.verdict? (RuleSet.dropDotSlash path) isDirectory = some .skip := by
  cases h : w.excludes.verdict? (RuleSet.dropDotSlash path) isDirectory with
  | none =>
    rw [RuleSet.verdict?_eq_none] at h
    simp only [reduceCtorEq, iff_false]
    rintro ⟨r, hr, hc⟩
    exact h r hr hc
  | some v =>
    obtain ⟨r, ⟨earlier, later, hs, hc, _⟩, hv⟩ := RuleSet.verdict?_eq_some.mp h
    have hr : r ∈ w.excludes.rules := hs ▸ by simp
    rw [← hv, hw r hr]
    simp only [iff_true]
    exact ⟨r, hr, hc⟩

theorem ignoreVerdict?_eq (w : Walk) (inner : List Frame) (path : Path) (isDirectory : Bool) :
    w.ignoreVerdict? inner path isDirectory =
      if w.respectIgnoreFiles then Frame.verdict? (w.framesOf inner path) isDirectory
      else none := rfl

theorem ignoreVerdict?_eq_none {w : Walk} {inner : List Frame} {path : Path} {isDirectory : Bool} :
    w.ignoreVerdict? inner path isDirectory = none ↔ (w.respectIgnoreFiles = true →
      ∀ kind, Frame.Silent kind (w.framesOf inner path) isDirectory) := by
  rw [ignoreVerdict?_eq, ← Frame.verdict?_eq_none]
  cases w.respectIgnoreFiles <;> simp

theorem ignoreVerdict?_eq_some {w : Walk} {inner : List Frame} {path : Path} {isDirectory : Bool}
    {v : Verdict} : w.ignoreVerdict? inner path isDirectory = some v ↔
      w.respectIgnoreFiles = true ∧
        ∃ r, Frame.Wins (w.framesOf inner path) isDirectory r ∧ r.verdict = v := by
  rw [ignoreVerdict?_eq, ← Frame.verdict?_eq_some]
  cases w.respectIgnoreFiles <;> simp

theorem isHidden_iff {name : Bytes} : isHidden name = true ↔ Hidden name := by
  simp [isHidden, Hidden]

section

variable {w : Walk} {hides : Bytes → Prop} {inner : List Frame} {path : Path} {name : Bytes}
  {isDirectory : Bool}

/-- Where the ignore files are silent about an entry its name decides. -/
theorem leavesOut_of_silent (hex : ¬ w.Excludes path isDirectory)
    (hi : w.ignoreVerdict? inner path isDirectory = none) :
    w.LeavesOut hides inner path name isDirectory ↔ hides name := by
  constructor
  · rintro (h | ⟨_, hr, hWins, hSkip⟩ | ⟨_, _, h⟩)
    · exact (hex h).elim
    · rw [ignoreVerdict?_eq_some.mpr ⟨hr, _, hWins, hSkip⟩] at hi
      cases hi
    · exact h
  · exact .hidden hex (ignoreVerdict?_eq_none.mp hi)

/-- What the ignore files say about an entry goes before its name. -/
theorem leavesOut_of_verdict {v : Verdict} (hex : ¬ w.Excludes path isDirectory)
    (hi : w.ignoreVerdict? inner path isDirectory = some v) :
    w.LeavesOut hides inner path name isDirectory ↔ v = .skip := by
  constructor
  · rintro (h | ⟨_, hr, hWins, hSkip⟩ | ⟨_, h, _⟩)
    · exact (hex h).elim
    · rw [ignoreVerdict?_eq_some.mpr ⟨hr, _, hWins, hSkip⟩] at hi
      exact (Option.some.inj hi).symm
    · rw [ignoreVerdict?_eq_none.mpr h] at hi
      cases hi
  · intro hv
    obtain ⟨hr, r, hWins, hSkip⟩ := ignoreVerdict?_eq_some.mp hi
    exact .ignored hex hr hWins (hSkip.trans hv)

/-- If more names are hidden, more entries are left out. -/
theorem LeavesOut.mono {hides' : Bytes → Prop} (h : w.LeavesOut hides inner path name isDirectory)
    (hMore : hides name → hides' name) : w.LeavesOut hides' inner path name isDirectory := by
  cases h with
  | excluded hex => exact .excluded hex
  | ignored hex hRespect hWins hSkip => exact .ignored hex hRespect hWins hSkip
  | hidden hex hSilent hName => exact .hidden hex hSilent (hMore hName)

/-- A walk skips an entry exactly if the entry is left out. -/
theorem skips_iff (hw : ∀ r ∈ w.excludes.rules, r.verdict = .skip) :
    w.skips inner path name isDirectory = true ↔
      w.LeavesOut Hidden inner path name isDirectory := by
  by_cases hex : w.Excludes path isDirectory
  · have hv := (excludes_iff hw).mp hex
    simp only [skips, hv, true_iff]
    exact .excluded hex
  · unfold skips
    split
    · rename_i hv
      exact (hex ((excludes_iff hw).mpr hv)).elim
    cases hi : w.ignoreVerdict? inner path isDirectory with
    | none => exact isHidden_iff.trans (leavesOut_of_silent hex hi).symm
    | some v =>
      rw [leavesOut_of_verdict hex hi]
      cases v <;> simp

end

end Walk

end FuncSpans
