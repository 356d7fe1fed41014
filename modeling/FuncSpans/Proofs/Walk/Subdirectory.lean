import FuncSpans.Proofs.Ignore.Pattern
import FuncSpans.Proofs.Walk.View
import Mathlib.Data.List.Lex

/-!
# Walks of subdirectories

A directory that the walk of a root goes into may be a root itself. Its walk decides of the entries
in it as the walk of the outer root does (`Walk.leavesOutIn_below`), one step down after the other.
In each step all that changes are the rules of the outer root: for the inner walk they are among
those around its root, read by an absolute path (`Walk.sameView_child`). So the inner walk collects
just the files that the outer one collects there (`Walk.collect_below`), unless it fails: ignore
files that the outer walk finds at its root and below stand around the inner one, where a line with
an invalid glob makes a walk fail (`Walk.fails_below_iff`).
-/

namespace FuncSpans

open FuncSpans.Path (IsName joinParts)
open RuleSet (dropDotSlash)
open FuncSpans.FileSystem (Leads Reached textOf longestPath)

/-! ## The frames around a directory -/

theorem FileSystem.plain_textOf (place : Location) : (textOf place).Plain :=
  Path.plain_of_isAbsolute rfl

theorem FileSystem.dropDotSlash_textOf_below (place : Location) {way : List Bytes}
    (hNames : ∀ n ∈ way, IsName n) :
    dropDotSlash ((textOf place).below way) = (textOf place).below way :=
  RuleSet.dropDotSlash_of_not_dotted
    (Path.not_dotted_of_isAbsolute (Path.isAbsolute_below hNames))

namespace Walk

/-- Exclude patterns about names depend on the name of an entry. -/
theorem excludes_iff_of_aboutNames {w : Walk} {rules : List Rule}
    (hRules : w.excludes = ⟨dropDotSlash w.root, rules⟩)
    (hNames : ∀ r ∈ rules, r.glob.AboutNames) {above : List Bytes} {name : Bytes}
    (hAll : ∀ n ∈ above ++ [name], IsName n) {isDirectory : Bool} :
    w.Excludes (w.root.below (above ++ [name])) isDirectory ↔
      ∃ r ∈ rules, r.applies name isDirectory = true := by
  have hName : IsName name := hAll name (by simp)
  rw [Excludes, hRules]
  refine exists_congr fun r => and_congr_right fun hr => ?_
  rw [RuleSet.Concerns, Rule.applies, Rule.applies, Bool.and_eq_true, Bool.and_eq_true,
    (hNames r hr).matchesText_iff hName (RuleSet.endOf_relativeTo hAll)]

section

variable {fs : FileSystem} {settings : RunSettings} {rules : List Rule} {root : Path}
  {place : Location}

theorem framesAbove_cons (name : Bytes) (es : Entries) (above : List Bytes) :
    (rooted fs settings rules root place).framesAbove (name :: above) =
      (rooted fs settings rules (root.child name) ((name, es) :: place)).framesAbove above ++
        [Frame.read fs root] := by
  rw [framesAbove, framesAbove, List.inits_cons, List.reverse_cons, List.map_append,
    ← List.map_reverse, List.map_map]
  rfl

theorem framesAround_eq (fs : FileSystem) (hPlace : (textOf place).length ≤ longestPath) :
    framesAround fs place = Frame.around fs place :=
  if_neg (Nat.not_lt.mpr hPlace)

/-- The frames of a plain root: those around it know an entry by the absolute path. -/
theorem framesOf_rooted (hRoot : root.Plain) (hPlace : (textOf place).length ≤ longestPath)
    {way : List Bytes} (hNames : ∀ n ∈ way, IsName n) (hNe : way ≠ []) (inner : List Frame) :
    (rooted fs settings rules root place).framesOf inner (root.below way) =
      inner.map (·, dropDotSlash (root.below way)) ++
        (Frame.around fs place).map (·, (textOf place).below way) := by
  have hBelow : (rooted fs settings rules root place).belowRoot (dropDotSlash (root.below way)) =
      joinParts way := belowRoot_below hRoot hNames hNe
  have hJoin : (textOf place).join (joinParts way) = (textOf place).below way :=
    Path.join_joinParts hNames hNe
  rw [framesOf, hBelow, ← hJoin, ← framesAround_eq fs hPlace]
  rfl

section

variable {first name : Bytes} {es : Entries} {above : List Bytes} (hFirst : IsName first)
  (hText : textOf ((first, es) :: place) = (textOf place).below [first])
  (hAll : ∀ n ∈ above ++ [name], IsName n)

include hFirst hText hAll

/-- All that differs between the frames of a root and those of a directory in it are the rules of
the root, which stand around the directory and know an entry by its absolute path. -/
theorem sameView_child (hRoot : root.Plain) (hRead : ∀ kind : IgnoreKind,
      fs.readBytes (root.below kind.way) = fs.readBytes ((textOf place).below kind.way))
    (hPlace : (textOf ((first, es) :: place)).length ≤ longestPath) :
    List.Forall₂ Frame.SameView
      ((rooted fs settings rules (root.child first) ((first, es) :: place)).framesOf
        ((rooted fs settings rules (root.child first) ((first, es) :: place)).framesAbove above)
        ((root.child first).below (above ++ [name])))
      ((rooted fs settings rules root place).framesOf
        ((rooted fs settings rules root place).framesAbove (first :: above))
        (root.below (first :: above ++ [name]))) := by
  have hAll' : ∀ n ∈ first :: above ++ [name], IsName n := List.forall_mem_cons.mpr ⟨hFirst, hAll⟩
  have hSingle : ∀ n ∈ [first], IsName n := List.forall_mem_singleton.mpr hFirst
  have hChild : (root.child first).Plain := hRoot.below hSingle
  have hAbsolute : (textOf ((first, es) :: place)).below (above ++ [name]) =
      (textOf place).below (first :: above ++ [name]) := by
    rw [hText, ← Path.below_append]
    rfl
  have hView := Frame.sameView_read (FileSystem.plain_textOf place) hRoot
    (fun kind => (hRead kind).symm) hAll' (by simp)
  rw [FileSystem.dropDotSlash_textOf_below place hAll'] at hView
  have hOuter : (textOf place).length ≤ longestPath :=
    Nat.le_trans (Path.length_le_below _ [first]) (hText ▸ hPlace)
  rw [framesOf_rooted hChild hPlace hAll (by simp), framesOf_rooted hRoot hOuter hAll' (by simp),
    framesAbove_cons first es, List.map_append, List.append_assoc, hAbsolute]
  refine List.rel_append (List.forall₂_same.mpr fun f _ => .refl f) ?_
  exact .cons hView (List.forall₂_same.mpr fun f _ => .refl f)

/-- One step down: a walk of a directory in the root decides as the walk of the root. -/
theorem leavesOutIn_child (hAbout : ∀ r ∈ rules, r.glob.AboutNames)
    (hIgnore : settings.respectIgnoreFiles = true → root.Plain ∧ (∀ kind : IgnoreKind,
      fs.readBytes (root.below kind.way) = fs.readBytes ((textOf place).below kind.way)) ∧
      (textOf ((first, es) :: place)).length ≤ longestPath) (isDirectory : Bool) :
    (rooted fs settings rules (root.child first) ((first, es) :: place)).LeavesOutIn Hidden above
        name isDirectory ↔
      (rooted fs settings rules root place).LeavesOutIn Hidden (first :: above) name
        isDirectory := by
  have hExcludes {p : Path} {loc : Location} {way : List Bytes}
      (hWay : ∀ n ∈ way ++ [name], IsName n) :
      (rooted fs settings rules p loc).Excludes (p.below (way ++ [name])) isDirectory ↔
        ∃ r ∈ rules, r.applies name isDirectory = true :=
    excludes_iff_of_aboutNames rfl hAbout hWay
  have hBoth : (rooted fs settings rules (root.child first) ((first, es) :: place)).Excludes
      ((root.child first).below (above ++ [name])) isDirectory ↔
      (rooted fs settings rules root place).Excludes (root.below (first :: above ++ [name]))
        isDirectory :=
    (hExcludes hAll).trans (hExcludes (List.forall_mem_cons.mpr ⟨hFirst, hAll⟩)).symm
  refine leavesOut_congr hBoth (fun hRespect => ?_) rfl
  obtain ⟨hPlain, hRead, hPlace⟩ := hIgnore hRespect
  exact sameView_child hFirst hText hAll hPlain hRead hPlace

end

/-- The ignore files that stand around a directory below a root but not around the root are read
alike by the paths that the walk of the root knows them by and by absolute ones, and the absolute
path of the directory is not too long. -/
structure ReadsAlike (fs : FileSystem) (root : Path) (place : Location) (way : List Bytes) :
    Prop where
  plain : root.Plain
  readBytes : ∀ front rest, way = front ++ rest → rest ≠ [] → ∀ kind : IgnoreKind,
    fs.readBytes ((root.below front).below kind.way) =
      fs.readBytes (((textOf place).below front).below kind.way)
  length_le : ((textOf place).below way).length ≤ longestPath

theorem ReadsAlike.front {front rest : List Bytes} (h : ReadsAlike fs root place (front ++ rest)) :
    ReadsAlike fs root place front where
  plain := h.plain
  readBytes front' rest' he hRest := h.readBytes front' (rest' ++ rest)
    (by rw [he, List.append_assoc]) (List.append_ne_nil_of_left_ne_nil hRest rest)
  length_le := by
    have hLength := h.length_le
    rw [Path.below_append] at hLength
    exact Nat.le_trans (Path.length_le_below _ rest) hLength

section

variable (hReached : Reached fs place) {way : List Bytes} {loc : Location}
  (hLeads : Leads fs place way loc)

include hReached hLeads

/-- All steps down: a walk of a directory decides as the walk of a root above it. -/
theorem leavesOutIn_below (hAbout : ∀ r ∈ rules, r.glob.AboutNames)
    (hIgnore : settings.respectIgnoreFiles = true → ReadsAlike fs root place way)
    {above : List Bytes} {name : Bytes} (hAll : ∀ n ∈ above ++ [name], IsName n)
    (isDirectory : Bool) :
    (rooted fs settings rules (root.below way) loc).LeavesOutIn Hidden above name isDirectory ↔
      (rooted fs settings rules root place).LeavesOutIn Hidden (way ++ above) name
        isDirectory := by
  induction hLeads generalizing above with
  | nil => exact Iff.rfl
  | @concat way loc first es hWay hFirst hLength hLookup ih =>
    have hText : textOf ((first, es) :: loc) = (textOf loc).below [first] :=
      Leads.textOf_eq (hReached.trans hWay) (.concat .nil hFirst hLength hLookup)
    have hLast : settings.respectIgnoreFiles = true → (root.below way).Plain ∧
        (∀ kind : IgnoreKind, fs.readBytes ((root.below way).below kind.way) =
          fs.readBytes ((textOf loc).below kind.way)) ∧
        (textOf ((first, es) :: loc)).length ≤ longestPath := by
      intro hRespect
      obtain ⟨hPlain, hRead, hPlace⟩ := hIgnore hRespect
      rw [hText, hWay.textOf_eq hReached, ← Path.below_append]
      exact ⟨hPlain.below hWay.isName, hRead way [first] rfl (by simp), hPlace⟩
    have hStep : (rooted fs settings rules ((root.below way).child first)
        ((first, es) :: loc)).LeavesOutIn Hidden above name isDirectory ↔
        (rooted fs settings rules (root.below way) loc).LeavesOutIn Hidden (first :: above) name
          isDirectory :=
      leavesOutIn_child hFirst hText hAll hAbout hLast isDirectory
    have hAll' : ∀ n ∈ first :: above ++ [name], IsName n :=
      List.forall_mem_cons.mpr ⟨hFirst, hAll⟩
    rw [Path.below_append, List.append_assoc]
    exact hStep.trans (ih (fun hRespect => (hIgnore hRespect).front) hAll')

/-- Around a directory below a root there are the frames around the root, those of the root itself
and those of the directories in between. -/
theorem mem_around_below {f : Frame} : f ∈ Frame.around fs loc ↔ f ∈ Frame.around fs place ∨
    ∃ front rest, way = front ++ rest ∧ rest ≠ [] ∧
      f = Frame.read fs ((textOf place).below front) := by
  induction hLeads with
  | nil =>
    refine (or_iff_left ?_).symm
    rintro ⟨front, rest, he, hRest, -⟩
    exact hRest (List.append_eq_nil_iff.mp he.symm).2
  | @concat way loc first es hWay hFirst hLength hLookup ih =>
    rw [Frame.around, List.mem_cons, ih, hWay.textOf_eq hReached]
    constructor
    · rintro (rfl | hOuter | ⟨front, rest, rfl, -, rfl⟩)
      · exact Or.inr ⟨way, [first], rfl, List.cons_ne_nil _ _, rfl⟩
      · exact Or.inl hOuter
      · exact Or.inr ⟨front, rest ++ [first], by rw [List.append_assoc], by simp, rfl⟩
    · rintro (hOuter | ⟨front, rest, he, hRest, rfl⟩)
      · exact Or.inr (Or.inl hOuter)
      · obtain ⟨rest, last, rfl⟩ := rest.eq_nil_or_concat'.resolve_left hRest
        rw [← List.append_assoc] at he
        obtain ⟨rfl, -⟩ := List.append_inj' he rfl
        by_cases hNone : rest = []
        · subst hNone
          exact Or.inl (by rw [List.append_nil])
        · exact Or.inr (Or.inr ⟨front, rest, rfl, hNone, rfl⟩)

end

end

end Walk

/-! ## What is collected -/

namespace Walk

theorem not_equivalent_standardInput {root : Path} (hRoot : root ≠ []) {way : List Bytes}
    (hNames : ∀ n ∈ way, IsName n) (hNe : way ≠ []) :
    (root.below way).equivalent standardInput = false := by
  rw [← Bool.not_eq_true]
  intro h
  have hComponents : (root.below way).components = [.normal [0x2D]] := beq_iff_eq.mp h
  have hSteps : (root.below way).steps = [.normal [0x2D]] := by
    rcases Path.components_eq (root.below way) with he | he
    · rw [← he, hComponents]
    · cases he.symm.trans hComponents
  rw [Path.steps_eq, Path.isAbsolute_below hNames, Path.names_below hNames] at hSteps
  have hRelative : root.isAbsolute = false := by
    rw [← Bool.not_eq_true]
    intro hAbsolute
    rw [hAbsolute] at hSteps
    cases hSteps
  rw [hRelative] at hSteps
  have hRootNames : root.names = [] := by
    have hLength := congrArg List.length hSteps
    have hPos := List.length_pos_of_ne_nil hNe
    simp only [Bool.false_eq_true, if_false, List.nil_append, List.length_append, List.length_map,
      List.length_singleton] at hLength
    exact List.length_eq_zero_iff.mp (by omega)
  obtain ⟨rest, hDotted⟩ := (Path.dotted_below hRoot hRelative hRootNames hNames hNe).eq
  rw [hDotted, RuleSet.components_dotted] at hComponents
  cases hComponents

/-- The ways from a directory, put after a way to it, are those that begin with that one. -/
theorem map_append_eq_filter {way : List Bytes} {ways ways' : List (List Bytes)}
    (hSorted : ways.Pairwise Precedes) (hSorted' : ways'.Pairwise Precedes) (hNil : [] ∉ ways')
    (hWay : way ∉ ways) (hAlike : ∀ rest, rest ≠ [] → (way ++ rest ∈ ways ↔ rest ∈ ways')) :
    ways'.map (way ++ ·) = ways.filter fun w => way <+: w := by
  refine ways_eq_of_mem_iff ?_ (hSorted.filter _) fun w => ?_
  · exact List.pairwise_map.mpr (hSorted'.imp fun h => List.Lex.append_left _ h way)
  rw [List.mem_map, List.mem_filter, decide_eq_true_eq]
  constructor
  · rintro ⟨rest, hRest, rfl⟩
    have hNe : rest ≠ [] := fun he => hNil (he ▸ hRest)
    exact ⟨(hAlike rest hNe).mpr hRest, List.prefix_append way rest⟩
  · rintro ⟨hMem, rest, rfl⟩
    have hNe : rest ≠ [] := by
      rintro rfl
      exact hWay (List.append_nil way ▸ hMem)
    exact ⟨rest, (hAlike rest hNe).mp hMem, rfl⟩

/-- Of the paths along some ways those under a directory go along the ways that begin with the
way to it. -/
theorem filter_under_eq (root : Path) {way : List Bytes} (hNames : ∀ n ∈ way, IsName n)
    {ways ways' : List (List Bytes)} (hWays : ∀ w ∈ ways, ∀ n ∈ w, IsName n)
    (h : ways'.map (way ++ ·) = ways.filter fun w => way <+: w) :
    (ways.map fun w => (root.below w).clean).filter
        (fun path => Path.Under (root.below way) path) =
      ways'.map fun rest => ((root.below way).below rest).clean := by
  have hFilter : ways.filter ((fun path => decide (Path.Under (root.below way) path)) ∘
      fun w => (root.below w).clean) = ways.filter fun w => way <+: w :=
    List.filter_congr fun w hw =>
      decide_eq_decide.mpr (Path.under_below_iff hNames (hWays w hw))
  rw [List.filter_map, hFilter, ← h, List.map_map]
  exact List.map_congr_left fun rest _ => by rw [Function.comp, Path.below_append]

/-- An ignore file of a root, or of a directory between it and a directory below it, has a line with
an invalid glob. -/
def BadLineBetween (fs : FileSystem) (place : Location) (way : List Bytes) : Prop :=
  ∃ front rest, way = front ++ rest ∧ rest ≠ [] ∧ fs.BadLineIn ((textOf place).below front)

section

variable {fs : FileSystem} (hFs : fs.WellFormed) {settings : RunSettings} {root : Path}
  {place : Location} (hRoot : fs.find root = .ok (.directory place))
  (hInput : root.equivalent standardInput = false) {rules : List Rule}
  (hAbout : ∀ r ∈ rules, r.glob.AboutNames) {way : List Bytes} {loc : Location}
  (hLeads : Leads fs place way loc) (hFind : fs.find (root.below way) = .ok (.directory loc))
  (hEnters : (rooted fs settings rules root place).Enters (fs.entriesAt place) way
    (fs.entriesAt loc))
  (hIgnore : settings.respectIgnoreFiles = true → ReadsAlike fs root place way)

include hRoot hLeads

include hInput in
theorem not_equivalent_below : (root.below way).equivalent standardInput = false := by
  by_cases hNe : way = []
  · rwa [hNe]
  · exact not_equivalent_standardInput (FileSystem.find_directory hRoot).2.1 hLeads.isName hNe

include hFs hFind hAbout hIgnore

/-- The walk of a directory below a root decides as the walk of the root does there. -/
theorem decidesAlike_below : DecidesAlike (rooted fs settings rules root place)
    (rooted fs settings rules (root.below way) loc) way (fs.entriesAt loc) := by
  intro above es name node isDirectory hOpens hEntry
  have hes := FileSystem.entriesAt_find hFs hFind
  have hName := (hOpens.wellFormed hes).isName hEntry
  exact leavesOutIn_below (FileSystem.reached_of_find hFs hRoot) hLeads hAbout hIgnore
    (List.forall_mem_append.mpr ⟨hOpens.isName hes, List.forall_mem_singleton.mpr hName⟩)
    isDirectory

include hEnters hInput

/-- If the walk of a root does not fail, that of a directory it goes into fails only at a line of an
ignore file that stands around this directory and not around the root. -/
theorem fails_below_iff
    (hNot : ¬ (rooted fs settings rules root place).Fails (fs.entriesAt place)) :
    (rooted fs settings rules (root.below way) loc).Fails (fs.entriesAt loc) ↔
      settings.respectIgnoreFiles = true ∧ BadLineBetween fs place way := by
  have hReached := FileSystem.reached_of_find hFs hRoot
  have hAround (hRespect : settings.respectIgnoreFiles = true) :
      (textOf place).length ≤ longestPath ∧ (textOf loc).length ≤ longestPath := by
    have hLength := (hIgnore hRespect).length_le
    exact ⟨Nat.le_trans (Path.length_le_below _ way) hLength, hLeads.textOf_eq hReached ▸ hLength⟩
  constructor
  · rintro (@⟨f, -, hRespect, hf, hBad⟩ | @⟨rest, inner, fault, -, hIn, hClosed⟩)
    · obtain ⟨hOuter, hInner⟩ := hAround hRespect
      have hf : f ∈ Frame.around fs loc := framesAround_eq fs hInner ▸ hf
      rcases (mem_around_below hReached hLeads).mp hf with hf | ⟨front, rest, he, hRest, rfl⟩
      · have hf : f ∈ framesAround fs place := framesAround_eq fs hOuter ▸ hf
        exact (hNot (.badLine hInput hRespect hf hBad)).elim
      · exact ⟨hRespect, front, rest, he, hRest, hBad⟩
    · have hIn := (hEnters.enters_iff (FileSystem.entriesAt_find hFs hRoot)
        (decidesAlike_below hFs hRoot hAbout hLeads hFind hIgnore)).mp hIn
      have hClosed : fs.closed? (root.below (way ++ rest)) = some fault := by
        rwa [Path.below_append]
      exact (hNot (.closed hInput hIn hClosed)).elim
  · rintro ⟨hRespect, front, rest, he, hRest, hBad⟩
    have hf : Frame.read fs ((textOf place).below front) ∈ framesAround fs loc := by
      rw [framesAround_eq fs (hAround hRespect).2]
      exact (mem_around_below hReached hLeads).mpr (Or.inr ⟨front, rest, he, hRest, rfl⟩)
    exact .badLine (not_equivalent_below hRoot hInput hLeads) hRespect hf hBad

/-- The walk of a directory that another walk goes into collects what that one collects there, unless
it fails. -/
theorem collect_below (hRules : RuleSet.excludeRules settings.exclude = .ok rules)
    {paths : List Path} (hCollect : collect fs settings root place = .ok paths) :
    (settings.respectIgnoreFiles = true ∧ BadLineBetween fs place way ∧
      ∃ reason, collect fs settings (root.below way) loc = .error (.walk reason)) ∨
    ¬ (settings.respectIgnoreFiles = true ∧ BadLineBetween fs place way) ∧
      collect fs settings (root.below way) loc =
        .ok (paths.filter fun path => Path.Under (root.below way) path) := by
  have hes := FileSystem.entriesAt_find hFs hRoot
  have hNames := hLeads.isName
  have hOf := RuleSet.ofPatterns_of_rules hRules
  have hInput' := not_equivalent_below hRoot hInput hLeads
  have hNot := (collect_eq_ok_iff hFs hRoot (hOf root)).mp ⟨paths, hCollect⟩
  have hFails := fails_below_iff hFs hRoot hInput hAbout hLeads hFind hEnters hIgnore hNot
  obtain ⟨ways, rfl, hSorted, hMem⟩ := ways_of_collect hFs hRoot (hOf root) hCollect
  rcases outcome_collect hFs hFind (hOf (root.below way)) with
    ⟨hBelow, hFailed⟩ | @⟨ways', hBelow, hCollect', hSorted', hMem'⟩
  · obtain ⟨hRespect, hBad⟩ := hFails.mp hBelow
    exact Or.inl ⟨hRespect, hBad, _, hFailed⟩
  refine Or.inr ⟨mt hFails.mpr hBelow, hCollect'.trans (congrArg Except.ok ?_)⟩
  have hAlike (rest : List Bytes) (hNe : rest ≠ []) : way ++ rest ∈ ways ↔ rest ∈ ways' := by
    rw [hMem, hMem', hInput, hInput']
    exact and_congr_right fun _ => (hEnters.collects_iff hes
      (decidesAlike_below hFs hRoot hAbout hLeads hFind hIgnore) hNe).symm
  have hWays : ways'.map (way ++ ·) = ways.filter fun w => way <+: w := by
    refine map_append_eq_filter hSorted hSorted' (fun hIn => ?_) (fun hIn => ?_) hAlike
    · obtain ⟨content, hFile⟩ := ((hMem' []).mp hIn).2.isFile
      exact hFile.ne_nil rfl
    · obtain ⟨content, hFile⟩ := ((hMem way).mp hIn).2.isFile
      exact hEnters.opens.not_holds_file hes hFile
  refine (filter_under_eq root hNames (fun w hw => ?_) hWays).symm
  obtain ⟨content, hFile⟩ := ((hMem w).mp hw).2.isFile
  exact hFile.isName hes

end

end Walk

end FuncSpans
