import FuncSpans.Proofs.Path.Relative
import FuncSpans.Proofs.Walk.Outcome
import Mathlib.Data.List.Forall2

/-!
# What rules see of an entry

The rules of a directory do not know how the directory is written, only the relative paths of the
entries below it. So two directories that are written plainly and have the same ignore files decide
alike of what is below them (`Frame.sameView_read`), and an entry is left out of one walk as of
another one if the frames of both see the same of it (`Walk.leavesOut_congr`).

Two walks that decide alike of all entries in a directory collect the same files there, even if this
is the root of one of them and lies below the root of the other one (`Walk.Enters.collects_iff`).
-/

namespace FuncSpans

open FuncSpans.Path (IsName joinParts)
open RuleSet (dropDotSlash dropSlash dropStart relativeTo here)

/-! ## Ignore files -/

namespace IgnoreKind

/-- The way from a directory to its ignore file of a kind. -/
def way : IgnoreKind → List Bytes
  | .ignore => [Path.ofString ".ignore"]
  | .gitignore => [Path.ofString ".gitignore"]
  | .gitExclude => [Path.ofString ".git", Path.ofString "info", Path.ofString "exclude"]

theorem way_ne_nil (kind : IgnoreKind) : kind.way ≠ [] := by cases kind <;> decide

theorem isName_of_mem_way (kind : IgnoreKind) : ∀ name ∈ kind.way, IsName name := by
  cases kind <;> decide

theorem child_fileName (p : Path) (kind : IgnoreKind) :
    p.child (Path.ofString kind.fileName) = p.below kind.way := by
  have hText : Path.ofString kind.fileName = joinParts kind.way := by cases kind <;> rfl
  rw [Path.child_eq, hText, Path.below_eq kind.isName_of_mem_way kind.way_ne_nil]

end IgnoreKind

/-! ## Frames -/

namespace Frame

/-- Two frames see the same of an entry: they have the same rules, and the same relative path. -/
def SameView (f g : Frame × Path) : Prop :=
  ∀ kind, (f.1.rules kind).rules = (g.1.rules kind).rules ∧
    relativeTo (f.1.rules kind).base f.2 = relativeTo (g.1.rules kind).base g.2

theorem SameView.refl (f : Frame × Path) : SameView f f := fun _ => ⟨rfl, rfl⟩

theorem SameView.verdict?_eq {f g : Frame × Path} (h : SameView f g) (kind : IgnoreKind)
    (isDirectory : Bool) :
    (f.1.rules kind).verdict? f.2 isDirectory = (g.1.rules kind).verdict? g.2 isDirectory := by
  obtain ⟨hRules, hPath⟩ := h kind
  rw [RuleSet.verdict?, RuleSet.verdict?, hRules, hPath]

/-- Frames that see the same decide alike. -/
theorem verdict?_congr {frames frames' : List (Frame × Path)}
    (h : List.Forall₂ SameView frames frames') (isDirectory : Bool) :
    verdict? frames isDirectory = verdict? frames' isDirectory := by
  refine congrArg (IgnoreKind.all.findSome? ·) (funext fun kind => ?_)
  induction h with
  | nil => rfl
  | cons hView _ ih =>
    rw [List.findSome?_cons, List.findSome?_cons, ih]
    dsimp only
    rw [hView.verdict?_eq]

variable {fs : FileSystem} {p q : Path}

theorem rules_read (fs : FileSystem) (p : Path) (kind : IgnoreKind) :
    (read fs p).rules kind = readRules fs p kind := by
  cases kind <;> rfl

theorem base_readRules (fs : FileSystem) (p : Path) (kind : IgnoreKind) :
    (readRules fs p kind).base = dropDotSlash p := by
  unfold readRules
  split <;> rfl

theorem rules_readRules_congr {kind : IgnoreKind}
    (h : fs.readBytes (p.below kind.way) = fs.readBytes (q.below kind.way)) :
    (readRules fs p kind).rules = (readRules fs q kind).rules := by
  rw [readRules, readRules, IgnoreKind.child_fileName, IgnoreKind.child_fileName, h]
  split <;> rfl

/-- Directories that are written plainly and have the same ignore files see the same below them. -/
theorem sameView_read (hp : p.Plain) (hq : q.Plain)
    (hRead : ∀ kind : IgnoreKind, fs.readBytes (p.below kind.way) = fs.readBytes (q.below kind.way))
    {way : List Bytes} (hNames : ∀ n ∈ way, IsName n) (hNe : way ≠ []) :
    SameView (read fs p, dropDotSlash (p.below way)) (read fs q, dropDotSlash (q.below way)) := by
  intro kind
  simp only [rules_read, base_readRules]
  refine ⟨rules_readRules_congr (hRead kind), ?_⟩
  rw [RuleSet.relativeTo_below hp hNames hNe, RuleSet.relativeTo_below hq hNames hNe]

end Frame

/-! ## Walks -/

namespace Walk

/-- The walk of a root at a place with the rules of some exclude patterns. -/
abbrev rooted (fs : FileSystem) (settings : RunSettings) (rules : List Rule) (root : Path)
    (place : Location) : Walk :=
  start fs settings ⟨dropDotSlash root, rules⟩ root place

/-- An entry is left out of two walks alike if exclude patterns of both are about it or of none, and
the ignore files of both decide the same of it. -/
theorem leavesOut_congr {w w' : Walk} {hides : Bytes → Prop} {inner inner' : List Frame}
    {path path' : Path} {name : Bytes} {isDirectory : Bool}
    (hExcludes : w.Excludes path isDirectory ↔ w'.Excludes path' isDirectory)
    (hFrames : w.respectIgnoreFiles = true →
      List.Forall₂ Frame.SameView (w.framesOf inner path) (w'.framesOf inner' path'))
    (hRespect : w.respectIgnoreFiles = w'.respectIgnoreFiles) :
    w.LeavesOut hides inner path name isDirectory ↔
      w'.LeavesOut hides inner' path' name isDirectory := by
  have hIgnore : w.ignoreVerdict? inner path isDirectory =
      w'.ignoreVerdict? inner' path' isDirectory := by
    rw [ignoreVerdict?_eq, ignoreVerdict?_eq, ← hRespect]
    split_ifs with hOn
    · rw [Frame.verdict?_congr (hFrames hOn)]
    · rfl
  by_cases hex : w.Excludes path isDirectory
  · exact iff_of_true (.excluded hex) (.excluded (hExcludes.mp hex))
  have hex' : ¬ w'.Excludes path' isDirectory := mt hExcludes.mpr hex
  cases hVerdict : w.ignoreVerdict? inner path isDirectory with
  | none =>
    rw [leavesOut_of_silent hex hVerdict, leavesOut_of_silent hex' (hIgnore.symm.trans hVerdict)]
  | some v =>
    rw [leavesOut_of_verdict hex hVerdict, leavesOut_of_verdict hex' (hIgnore.symm.trans hVerdict)]

/-- The path below a root that is written plainly has the names on the way. -/
theorem belowRoot_below {w : Walk} (hRoot : w.root.Plain) {way : List Bytes}
    (hNames : ∀ n ∈ way, IsName n) (hNe : way ≠ []) :
    w.belowRoot (dropDotSlash (w.root.below way)) = joinParts way := by
  have hFollows := Path.follows_joinParts hNames
  rw [belowRoot, Path.dropDotSlash_below hNames hNe]
  by_cases hHere : w.root = here
  · rw [if_pos hHere, hHere]
    rfl
  rw [if_neg hHere]
  rcases hRoot with h | h | ⟨hNot, -⟩
  · exact (hHere h).elim
  · rw [h]
    rfl
  · rw [hNot, if_neg Bool.false_ne_true, dropStart,
      if_pos (List.isPrefixOf_iff_prefix.mpr (RuleSet.prefix_opened _ _)),
      RuleSet.dropSlash_drop_opened hFollows]

/-- Exclude patterns know an entry below a plain root by the names on the way. -/
theorem excludes_below_iff {w : Walk} {rules : List Rule}
    (hRules : w.excludes = ⟨dropDotSlash w.root, rules⟩) (hRoot : w.root.Plain) {way : List Bytes}
    (hNames : ∀ n ∈ way, IsName n) (hNe : way ≠ []) {isDirectory : Bool} :
    w.Excludes (w.root.below way) isDirectory ↔
      ∃ r ∈ rules, r.applies (joinParts way) isDirectory = true := by
  simp only [Excludes, hRules, RuleSet.Concerns, RuleSet.relativeTo_below hRoot hNames hNe]

/-! ## Walks that decide alike -/

theorem enters_nil (w : Walk) (es : Entries) : w.Enters es [] es :=
  ⟨.nil, fun _ _ _ h => by simp at h⟩

theorem enters_singleton {w : Walk} (hw : ∀ r ∈ w.excludes.rules, r.verdict = .skip)
    {es inner : Entries} {name : Bytes} (hMem : (name, .directory inner) ∈ es)
    (hKept : w.skips (w.framesAbove []) (w.root.below [name]) name true = false)
    (hName : name ≠ testDataName) : w.Enters es [name] inner := by
  refine ⟨.cons hMem .nil, fun above last rest he => ?_⟩
  obtain ⟨rfl, hLast⟩ := List.append_eq_singleton_iff.mp he.symm |>.resolve_right (by simp)
  obtain ⟨rfl, -⟩ := List.cons.inj hLast
  refine ⟨?_, hName⟩
  rw [LeavesOutIn, List.nil_append, ← skips_iff hw, Bool.not_eq_true]
  exact hKept

/-- Two walks decide alike of all entries in a directory: it is the root of the one, and a way leads
to it from the root of the other. -/
def DecidesAlike (w w' : Walk) (front : List Bytes) (inner : Entries) : Prop :=
  ∀ above es name node isDirectory, inner.Opens above es → (name, node) ∈ es →
    (w'.LeavesOutIn Hidden above name isDirectory ↔
      w.LeavesOutIn Hidden (front ++ above) name isDirectory)

section

variable {w w' : Walk} {es inner last : Entries} {front way above rest : List Bytes} {name : Bytes}

theorem DecidesAlike.leavesOutIn_iff (h : DecidesAlike w w' front inner) {node : Node}
    (hHolds : inner.Holds (above ++ name :: rest) node) (isDirectory : Bool) :
    w'.LeavesOutIn Hidden above name isDirectory ↔
      w.LeavesOutIn Hidden (front ++ above) name isDirectory := by
  rw [Entries.holds_append (List.cons_ne_nil name rest)] at hHolds
  obtain ⟨es', hOpens, hIn⟩ := hHolds
  cases hIn with
  | entry hMem => exact h above es' name _ isDirectory hOpens hMem
  | inside hMem _ => exact h above es' name _ isDirectory hOpens hMem

theorem goesInto_congr {above' : List Bytes}
    (h : w'.LeavesOutIn Hidden above' name true ↔ w.LeavesOutIn Hidden above name true) :
    w'.GoesInto Hidden above' name ↔ w.GoesInto Hidden above name :=
  ⟨fun ⟨hKept, hName⟩ => ⟨mt h.mpr hKept, hName⟩, fun ⟨hKept, hName⟩ => ⟨mt h.mp hKept, hName⟩⟩

theorem DecidesAlike.goesInto_iff (h : DecidesAlike w w' front inner)
    (hOpens : inner.Opens (above ++ name :: rest) last) :
    w'.GoesInto Hidden above name ↔ w.GoesInto Hidden (front ++ above) name := by
  obtain ⟨es', hAbove, hIn⟩ := Entries.opens_append.mp hOpens
  cases hIn with
  | cons hMem _ => exact goesInto_congr (h above es' name _ true hAbove hMem)

/-- Once a directory is gone into, only the directories below it are left to ask about. -/
theorem Enters.goesInto_append_iff (h : w.Enters es front inner) (way : List Bytes)
    (condition : List Bytes → Prop) :
    (∀ above name rest, front ++ way = above ++ name :: rest → condition rest →
      w.GoesInto Hidden above name) ↔
    ∀ above name rest, way = above ++ name :: rest → condition rest →
      w.GoesInto Hidden (front ++ above) name := by
  constructor
  · intro hAll above name rest he hRest
    exact hAll (front ++ above) name rest (by rw [he, List.append_assoc]) hRest
  · intro hBelow above name rest he hRest
    rcases List.append_eq_append_iff.mp he with ⟨above', rfl, hWay⟩ | ⟨between, hFront, hWay⟩
    · exact hBelow above' name rest hWay hRest
    · cases between with
      | nil =>
        rw [List.append_nil] at hFront
        subst hFront
        simpa using hBelow [] name rest hWay.symm hRest
      | cons first between =>
        obtain ⟨rfl, -⟩ := List.cons.inj hWay
        exact h.entered above name between hFront

/-- What one walk collects in a directory that another one goes into, if both decide alike there. -/
theorem Enters.collects_iff {takes : Bytes → Prop} (h : w.Enters es front inner)
    (hes : es.WellFormed) (hAlike : DecidesAlike w w' front inner) (hNe : way ≠ []) :
    w'.Collects ⟨takes, Hidden⟩ inner way ↔ w.Collects ⟨takes, Hidden⟩ es (front ++ way) := by
  have hHolds {node : Node} : inner.Holds way node ↔ es.Holds (front ++ way) node := by
    rw [Entries.holds_append hNe]
    exact ⟨fun hIn => ⟨inner, h.opens, hIn⟩,
      fun ⟨inner', hOpens, hIn⟩ => h.opens.unique hOpens hes ▸ hIn⟩
  have hEnteredIff := h.goesInto_append_iff way (· ≠ [])
  have hGoes {content : Bytes} (hFile : inner.Holds way (.file content)) {above : List Bytes}
      {name : Bytes} {rest : List Bytes} (he : way = above ++ name :: rest) :
      w'.GoesInto Hidden above name ↔ w.GoesInto Hidden (front ++ above) name :=
    goesInto_congr (hAlike.leavesOutIn_iff (he ▸ hFile) true)
  constructor
  · rintro ⟨⟨content, hFile⟩, hTaken, hEntered⟩
    refine ⟨⟨content, hHolds.mp hFile⟩, fun above name he => ?_, hEnteredIff.mpr ?_⟩
    · obtain ⟨above', last, rfl⟩ := way.eq_nil_or_concat'.resolve_left hNe
      rw [← List.append_assoc] at he
      obtain ⟨rfl, hLast⟩ := List.append_inj' he rfl
      obtain rfl := (List.cons.inj hLast).1
      exact (hTaken above' last rfl).imp_right (mt (hAlike.leavesOutIn_iff hFile false).mpr)
    · intro above name rest he hRest
      exact (hGoes hFile he).mp (hEntered above name rest he hRest)
  · rintro ⟨⟨content, hFile⟩, hTaken, hEntered⟩
    have hFile := hHolds.mpr hFile
    refine ⟨⟨content, hFile⟩, fun above name he => ?_, fun above name rest he hRest => ?_⟩
    · exact (hTaken (front ++ above) name (by rw [he, List.append_assoc])).imp_right
        (mt (hAlike.leavesOutIn_iff (he ▸ hFile) false).mp)
    · exact (hGoes hFile he).mpr (hEnteredIff.mp hEntered above name rest he hRest)

/-- Into which directories one walk goes in a directory that another one goes into, if both decide
alike there. -/
theorem Enters.enters_iff (h : w.Enters es front inner) (hes : es.WellFormed)
    (hAlike : DecidesAlike w w' front inner) :
    w'.Enters inner way last ↔ w.Enters es (front ++ way) last := by
  have hOpens : inner.Opens way last ↔ es.Opens (front ++ way) last := by
    rw [Entries.opens_append]
    exact ⟨fun hIn => ⟨inner, h.opens, hIn⟩,
      fun ⟨inner', hFront, hIn⟩ => h.opens.unique hFront hes ▸ hIn⟩
  have hBelow := h.goesInto_append_iff way fun _ => True
  simp only [forall_const] at hBelow
  constructor
  · rintro ⟨hWay, hEntered⟩
    refine ⟨hOpens.mp hWay, hBelow.mpr fun above name rest he => ?_⟩
    exact (hAlike.goesInto_iff (he ▸ hWay)).mp (hEntered above name rest he)
  · rintro ⟨hWay, hEntered⟩
    have hWay := hOpens.mpr hWay
    refine ⟨hWay, fun above name rest he => ?_⟩
    exact (hAlike.goesInto_iff (he ▸ hWay)).mpr (hBelow.mp hEntered above name rest he)

end

/-! ## The order of the ways -/

theorem Precedes.asymm {way way' : List Bytes} (h : Precedes way way') : ¬ Precedes way' way := by
  induction h with
  | nil => exact fun h' => by cases h'
  | cons _ ih =>
    intro h'
    cases h' with
    | cons h' => exact ih h'
    | rel h' => rw [Bytes.not_before_self] at h'; cases h'
  | rel hBefore =>
    intro h'
    cases h' with
    | cons _ => rw [Bytes.not_before_self] at hBefore; cases hBefore
    | rel h' =>
      have hSelf := Bytes.before_trans hBefore h'
      rw [Bytes.not_before_self] at hSelf
      cases hSelf

/-- Ways in their order are known by their members. -/
theorem ways_eq_of_mem_iff {ways ways' : List (List Bytes)} (h : ways.Pairwise Precedes)
    (h' : ways'.Pairwise Precedes) (hMem : ∀ way, way ∈ ways ↔ way ∈ ways') : ways = ways' := by
  have hNodup {ways : List (List Bytes)} (h : ways.Pairwise Precedes) : ways.Nodup :=
    h.imp fun hLt he => by
      rw [he] at hLt
      exact hLt.irrefl
  have hPerm : ways.Perm ways' := (List.perm_ext_iff_of_nodup (hNodup h) (hNodup h')).mpr hMem
  exact hPerm.eq_of_pairwise (fun way way' _ _ hLt hGt => (hLt.asymm hGt).elim) h h'

end Walk

end FuncSpans
