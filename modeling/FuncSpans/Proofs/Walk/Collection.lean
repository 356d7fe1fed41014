import FuncSpans.Proofs.Files.Places
import FuncSpans.Proofs.Walk.Decision
import Mathlib.Data.List.Infix

/-!
# What a walk collects

A walk decides about every entry as it comes to it and does not go into what it leaves out. The
files it collects can be told without the descent: `Walk.Collects` is a condition on the way of
names from the root to a file, on the file itself and on each directory on the way. In the same way
`Walk.Enters` tells the directories it goes into.

`filesIn_eq` follows the descent and lists the ways of the files in preorder, unless there is a
directory on it that cannot be opened (`Walk.Blocked`). `collects_iff` and `blocked_iff` give the
conditions on a way in their closed forms.
-/

namespace FuncSpans

namespace Walk

/-! ## Conditions on a way -/

/-- The frames from a directory below the root up to the root, the innermost first. -/
def framesAbove (w : Walk) (way : List Bytes) : List Frame :=
  way.inits.reverse.map fun front => Frame.read w.files (w.root.below front)

theorem framesAbove_concat (w : Walk) (way : List Bytes) (name : Bytes) :
    w.framesAbove (way ++ [name]) =
      Frame.read w.files (w.root.below (way ++ [name])) :: w.framesAbove way := by
  simp [framesAbove, List.inits_append]

/-- The entry of a name in a directory below the root is left out. -/
def LeavesOutIn (w : Walk) (hides : Bytes → Prop) (above : List Bytes) (name : Bytes)
    (isDirectory : Bool) : Prop :=
  w.LeavesOut hides (w.framesAbove above) (w.root.below (above ++ [name])) name isDirectory

/-- A directory below the root is gone into: it is not left out, and not for data of tests. -/
structure GoesInto (w : Walk) (hides : Bytes → Prop) (above : List Bytes) (name : Bytes) : Prop where
  kept : ¬ w.LeavesOutIn hides above name true
  name_ne : name ≠ testDataName

/-! ## Names -/

/-- A name is that of a file to count: its extension is `go`, and it does not end as the name of
a test file does unless test files are asked for. -/
def Counts (w : Walk) (name : Bytes) : Prop :=
  Path.extensionOf name = some Path.goExtension ∧
    (w.includeTests = true ∨ ¬ Path.testSuffix <:+ name)

/-- A name of a test file that is not asked for but goes unnoticed, since it is no text. -/
def Overlooks (w : Walk) (name : Bytes) : Prop :=
  Path.extensionOf name = some Path.goExtension ∧ w.includeTests = false ∧
    Path.testSuffix <:+ name ∧ Utf8.isText name = false

/-- A name by which a walk takes a file. -/
def Takes (w : Walk) (name : Bytes) : Prop := w.Counts name ∨ w.Overlooks name

theorem Counts.not_overlooks {w : Walk} {name : Bytes} (h : w.Counts name) :
    ¬ w.Overlooks name := by
  rintro ⟨_, hTests, hSuffix, _⟩
  rcases h.2 with h | h
  · rw [hTests] at h
    cases h
  · exact h hSuffix

/-- What names say: by which of them files are taken, and which of them are hidden. -/
structure Reading where
  takes : Bytes → Prop
  hides : Bytes → Prop

/-- What names say to a walk. -/
def followed (w : Walk) : Reading := ⟨w.Takes, Hidden⟩

/-! ## Files and directories that are reached -/

/-- A way from a directory below the root leads to a file that is collected. -/
inductive CollectsFrom (w : Walk) (r : Reading) : List Bytes → Entries → List Bytes → Prop
  | file {above : List Bytes} {es : Entries} {name content : Bytes} :
      (name, .file content) ∈ es → r.takes name → ¬ w.LeavesOutIn r.hides above name false →
      CollectsFrom w r above es [name]
  | inside {above : List Bytes} {es inner : Entries} {name : Bytes} {way : List Bytes} :
      (name, .directory inner) ∈ es → w.GoesInto r.hides above name →
      CollectsFrom w r (above ++ [name]) inner way → CollectsFrom w r above es (name :: way)

/-- A way from the root leads to a file that is collected: to a file that is reached through
directories, is taken by its name and is not left out; and all directories on the way are gone
into. -/
structure Collects (w : Walk) (r : Reading) (es : Entries) (way : List Bytes) : Prop where
  isFile : ∃ content, es.Holds way (.file content)
  taken : ∀ above name, way = above ++ [name] →
    r.takes name ∧ ¬ w.LeavesOutIn r.hides above name false
  entered : ∀ above name rest, way = above ++ name :: rest → rest ≠ [] →
    w.GoesInto r.hides above name

/-- A walk goes into a directory: into each directory on the way to it, and into itself. -/
structure Enters (w : Walk) (es : Entries) (way : List Bytes) (inner : Entries) : Prop where
  opens : es.Opens way inner
  entered : ∀ above name rest, way = above ++ name :: rest → w.GoesInto Hidden above name

/-- A walk comes to a directory below the root that cannot be opened. -/
inductive Blocked (w : Walk) : List Bytes → Entries → Prop
  | closed {above : List Bytes} {es inner : Entries} {name : Bytes} {fault : Fault} :
      (name, .directory inner) ∈ es → w.GoesInto Hidden above name →
      w.files.closed? (w.root.below (above ++ [name])) = some fault → Blocked w above es
  | inside {above : List Bytes} {es inner : Entries} {name : Bytes} :
      (name, .directory inner) ∈ es → w.GoesInto Hidden above name →
      Blocked w (above ++ [name]) inner → Blocked w above es

section

variable {w : Walk} {r : Reading} {above : List Bytes} {es : Entries} {way : List Bytes}

theorem CollectsFrom.holds (h : w.CollectsFrom r above es way) :
    ∃ content, es.Holds way (.file content) := by
  induction h with
  | file hMem _ _ => exact ⟨_, .entry hMem⟩
  | inside hMem _ _ ih =>
    obtain ⟨content, hc⟩ := ih
    exact ⟨content, .inside hMem hc⟩

theorem collectsFrom_of_holds {content : Bytes} (h : es.Holds way (.file content))
    (hTaken : ∀ front name, way = front ++ [name] →
      r.takes name ∧ ¬ w.LeavesOutIn r.hides (above ++ front) name false)
    (hEntered : ∀ front name rest, way = front ++ name :: rest → rest ≠ [] →
      w.GoesInto r.hides (above ++ front) name) : w.CollectsFrom r above es way := by
  generalize hNode : Node.file content = node at h
  induction h generalizing above with
  | @entry es name node hMem =>
    subst hNode
    obtain ⟨hc, hl⟩ := hTaken [] name rfl
    rw [List.append_nil] at hl
    exact .file hMem hc hl
  | @inside es inner name way node hMem hIn ih =>
    have hGoes := hEntered [] name way rfl hIn.ne_nil
    rw [List.append_nil] at hGoes
    refine .inside hMem hGoes (ih ?_ ?_ hNode)
    · intro front last he
      rw [List.append_assoc]
      exact hTaken (name :: front) last (by rw [he]; rfl)
    · intro front n rest he hRest
      rw [List.append_assoc]
      exact hEntered (name :: front) n rest (by rw [he]; rfl) hRest

theorem CollectsFrom.closed (h : w.CollectsFrom r above es way) :
    (∀ front name, way = front ++ [name] →
      r.takes name ∧ ¬ w.LeavesOutIn r.hides (above ++ front) name false) ∧
    ∀ front name rest, way = front ++ name :: rest → rest ≠ [] →
      w.GoesInto r.hides (above ++ front) name := by
  induction h with
  | @file above es name content hMem hc hl =>
    constructor
    · intro front last he
      cases front with
      | nil =>
        obtain ⟨rfl, _⟩ := List.cons.inj he
        simpa using ⟨hc, hl⟩
      | cons f front => simp at he
    · intro front n rest he hRest
      cases front with
      | nil => exact (hRest (List.cons.inj he).2.symm).elim
      | cons f front => simp at he
  | @inside above es inner name way hMem hGoes hIn ih =>
    obtain ⟨content, hHolds⟩ := hIn.holds
    constructor
    · intro front last he
      cases front with
      | nil => exact (hHolds.ne_nil (List.cons.inj he).2).elim
      | cons f front =>
        obtain ⟨rfl, hWay⟩ := List.cons.inj he
        simpa using ih.1 front last hWay
    · intro front n rest he hRest
      cases front with
      | nil =>
        obtain ⟨rfl, _⟩ := List.cons.inj he
        simpa using hGoes
      | cons f front =>
        obtain ⟨rfl, hWay⟩ := List.cons.inj he
        simpa using ih.2 front n rest hWay hRest

/-- The conditions that a walk meets one after the other are those on the whole way. -/
theorem collects_iff : w.Collects r es way ↔ w.CollectsFrom r [] es way := by
  constructor
  · rintro ⟨⟨content, hHolds⟩, hTaken, hEntered⟩
    exact collectsFrom_of_holds hHolds hTaken hEntered
  · intro h
    exact ⟨h.holds, h.closed.1, h.closed.2⟩

theorem CollectsFrom.cons_iff {e : Bytes × Node} : w.CollectsFrom r above (e :: es) way ↔
    w.CollectsFrom r above [e] way ∨ w.CollectsFrom r above es way := by
  constructor
  · rintro (⟨hMem, hc, hl⟩ | ⟨hMem, hGoes, hIn⟩)
    · rcases List.mem_cons.mp hMem with rfl | hMem
      · exact Or.inl (.file List.mem_cons_self hc hl)
      · exact Or.inr (.file hMem hc hl)
    · rcases List.mem_cons.mp hMem with rfl | hMem
      · exact Or.inl (.inside List.mem_cons_self hGoes hIn)
      · exact Or.inr (.inside hMem hGoes hIn)
  · rintro ((⟨hMem, hc, hl⟩ | ⟨hMem, hGoes, hIn⟩) | (⟨hMem, hc, hl⟩ | ⟨hMem, hGoes, hIn⟩))
    · exact .file (List.mem_cons.mpr (Or.inl (List.mem_singleton.mp hMem))) hc hl
    · exact .inside (List.mem_cons.mpr (Or.inl (List.mem_singleton.mp hMem))) hGoes hIn
    · exact .file (List.mem_cons_of_mem _ hMem) hc hl
    · exact .inside (List.mem_cons_of_mem _ hMem) hGoes hIn

theorem CollectsFrom.head (h : w.CollectsFrom r above es way) :
    ∃ name rest node, way = name :: rest ∧ (name, node) ∈ es := by
  cases h with
  | file hMem _ _ => exact ⟨_, _, _, rfl, hMem⟩
  | inside hMem _ _ => exact ⟨_, _, _, rfl, hMem⟩

theorem Blocked.mono {es' : Entries} (h : w.Blocked above es) (hSub : es ⊆ es') :
    w.Blocked above es' := by
  cases h with
  | closed hMem hGoes hClosed => exact .closed (hSub hMem) hGoes hClosed
  | inside hMem hGoes hIn => exact .inside (hSub hMem) hGoes hIn

theorem Blocked.exists_way (h : w.Blocked above es) : ∃ way inner fault, es.Opens way inner ∧
    way ≠ [] ∧ (∀ front name rest, way = front ++ name :: rest →
      w.GoesInto Hidden (above ++ front) name) ∧
    w.files.closed? (w.root.below (above ++ way)) = some fault := by
  induction h with
  | @closed above es inner name fault hMem hGoes hClosed =>
    refine ⟨[name], inner, fault, .cons hMem .nil, List.cons_ne_nil _ _, ?_, hClosed⟩
    intro front last rest he
    obtain ⟨rfl, hLast⟩ := (List.append_eq_singleton_iff.mp he.symm).resolve_right (by simp)
    obtain ⟨rfl, -⟩ := List.cons.inj hLast
    rwa [List.append_nil]
  | @inside above es inner name hMem hGoes hIn ih =>
    obtain ⟨way, last, fault, hOpens, -, hEntered, hClosed⟩ := ih
    refine ⟨name :: way, last, fault, .cons hMem hOpens, List.cons_ne_nil _ _, ?_, ?_⟩
    · intro front n rest he
      cases front with
      | nil =>
        obtain ⟨rfl, -⟩ := List.cons.inj he
        rwa [List.append_nil]
      | cons f front =>
        obtain ⟨rfl, hWay⟩ := List.cons.inj he
        simpa using hEntered front n rest hWay
    · simpa using hClosed

theorem blocked_of_opens {inner : Entries} {fault : Fault} (hOpens : es.Opens way inner)
    (hNe : way ≠ []) (hEntered : ∀ front name rest, way = front ++ name :: rest →
      w.GoesInto Hidden (above ++ front) name)
    (hClosed : w.files.closed? (w.root.below (above ++ way)) = some fault) :
    w.Blocked above es := by
  induction hOpens generalizing above with
  | nil => exact (hNe rfl).elim
  | @cons es inner last name way hMem hOpens ih =>
    have hGoes := hEntered [] name way rfl
    rw [List.append_nil] at hGoes
    by_cases hLast : way = []
    · subst hLast
      exact .closed hMem hGoes hClosed
    · refine .inside hMem hGoes (ih hLast (fun front n rest he => ?_) ?_)
      · rw [List.append_assoc]
        exact hEntered (name :: front) n rest (by rw [he]; rfl)
      · rwa [List.append_assoc]

/-- A walk is blocked exactly if it goes into a directory below the root that cannot be opened. -/
theorem blocked_iff : w.Blocked [] es ↔ ∃ way inner fault, w.Enters es way inner ∧ way ≠ [] ∧
    w.files.closed? (w.root.below way) = some fault := by
  constructor
  · intro h
    obtain ⟨way, inner, fault, hOpens, hNe, hEntered, hClosed⟩ := h.exists_way
    exact ⟨way, inner, fault, ⟨hOpens, hEntered⟩, hNe, hClosed⟩
  · rintro ⟨way, inner, fault, ⟨hOpens, hEntered⟩, hNe, hClosed⟩
    exact blocked_of_opens hOpens hNe hEntered hClosed

/-! ## Single entries -/

theorem not_collectsFrom_link {name : Bytes} {target : Path} :
    ¬ w.CollectsFrom r above [(name, .link target)] way := by
  rintro (⟨hMem, _, _⟩ | ⟨hMem, _, _⟩)
  · cases List.mem_singleton.mp hMem
  · cases List.mem_singleton.mp hMem

theorem collectsFrom_file_iff {name content : Bytes} :
    w.CollectsFrom r above [(name, .file content)] way ↔
      way = [name] ∧ ¬ w.LeavesOutIn r.hides above name false ∧ r.takes name := by
  constructor
  · rintro (⟨hMem, hc, hl⟩ | ⟨hMem, _, _⟩)
    · cases List.mem_singleton.mp hMem
      exact ⟨rfl, hl, hc⟩
    · cases List.mem_singleton.mp hMem
  · rintro ⟨rfl, hl, hc⟩
    exact .file List.mem_cons_self hc hl

theorem collectsFrom_directory_iff {name : Bytes} {inner : Entries} :
    w.CollectsFrom r above [(name, .directory inner)] way ↔ w.GoesInto r.hides above name ∧
      ∃ rest, w.CollectsFrom r (above ++ [name]) inner rest ∧ name :: rest = way := by
  constructor
  · rintro (⟨hMem, _, _⟩ | ⟨hMem, hGoes, hIn⟩)
    · cases List.mem_singleton.mp hMem
    · cases List.mem_singleton.mp hMem
      exact ⟨hGoes, _, hIn, rfl⟩
  · rintro ⟨hGoes, rest, hIn, rfl⟩
    exact .inside List.mem_cons_self hGoes hIn

end

/-! ## The descent -/

/-- One way comes before another: at the first name in which they differ its name does. -/
def Precedes : List Bytes → List Bytes → Prop :=
  List.Lex fun a b => Bytes.before a b = true

theorem Precedes.irrefl {way : List Bytes} (h : Precedes way way) : False := by
  induction way with
  | nil => cases h
  | cons name way ih =>
    cases h with
    | cons h => exact ih h
    | rel h => rw [Bytes.not_before_self] at h; cases h

theorem takes_iff {w : Walk} {above : List Bytes} {name : Bytes}
    (hAbove : ∀ n ∈ above, Path.IsName n) (hName : Path.IsName name) :
    w.takes (w.root.below (above ++ [name])) = true ↔ w.Takes name := by
  have hFile : (w.root.below (above ++ [name])).fileName? = some name :=
    Path.fileName?_below (List.forall_mem_append.mpr ⟨hAbove, by simpa using hName⟩)
  have hTakes : w.takes (w.root.below (above ++ [name])) = true ↔
      Path.extensionOf name = some Path.goExtension ∧
        (w.includeTests = true ∨ (Path.testSuffix <:+ name → Utf8.isText name = false)) := by
    simp only [takes, Path.isGoSource, Path.isTestFile, hFile, Bool.and_eq_true,
      Bool.or_eq_true, Bool.not_eq_true', Bool.and_eq_false_imp, beq_iff_eq,
      List.isSuffixOf_iff_suffix]
  rw [hTakes]
  constructor
  · rintro ⟨hExt, hKept⟩
    by_cases hTests : w.includeTests = true
    · exact Or.inl ⟨hExt, Or.inl hTests⟩
    · by_cases hSuffix : Path.testSuffix <:+ name
      · exact Or.inr ⟨hExt, by simpa using hTests, hSuffix, hKept.resolve_left hTests hSuffix⟩
      · exact Or.inl ⟨hExt, Or.inr hSuffix⟩
  · rintro (⟨hExt, hTests | hSuffix⟩ | ⟨hExt, _, _, hText⟩)
    · exact ⟨hExt, Or.inl hTests⟩
    · exact ⟨hExt, Or.inr fun h => (hSuffix h).elim⟩
    · exact ⟨hExt, Or.inr fun _ => hText⟩

/-- The ways to some collected files, in the order of the files. -/
structure Lists (w : Walk) (above : List Bytes) (es : Entries) (paths : List Path)
    (ways : List (List Bytes)) : Prop where
  paths_eq : paths = ways.map fun way => (w.root.below (above ++ way)).clean
  sorted : ways.Pairwise Precedes
  mem_iff : ∀ way, way ∈ ways ↔ w.CollectsFrom w.followed above es way

theorem lists_singleton {w : Walk} {above : List Bytes} {e : Bytes × Node} {path : Path}
    {way : List Bytes} (hPath : path = (w.root.below (above ++ way)).clean)
    (h : ∀ way', w.CollectsFrom w.followed above [e] way' ↔ way' = way) :
    w.Lists above [e] [path] [way] where
  paths_eq := by rw [hPath]; rfl
  sorted := List.pairwise_singleton _ _
  mem_iff way' := by rw [h, List.mem_singleton]

theorem lists_nil {w : Walk} {above : List Bytes} {es : Entries}
    (h : ∀ way, ¬ w.CollectsFrom w.followed above es way) : w.Lists above es [] [] where
  paths_eq := rfl
  sorted := .nil
  mem_iff way := by simpa using h way

theorem Lists.inside {w : Walk} {above : List Bytes} {name : Bytes} {inner : Entries}
    {paths : List Path} {ways : List (List Bytes)}
    (hGoes : w.GoesInto Hidden above name) (h : w.Lists (above ++ [name]) inner paths ways) :
    w.Lists above [(name, .directory inner)] paths (ways.map (name :: ·)) where
  paths_eq := by rw [h.paths_eq, List.map_map]; simp
  sorted := List.pairwise_map.mpr (h.sorted.imp fun hp => List.Lex.cons hp)
  mem_iff way := by
    rw [collectsFrom_directory_iff, List.mem_map]
    simp only [h.mem_iff]
    exact (and_iff_right hGoes).symm

theorem Lists.cons {w : Walk} {above : List Bytes} {e : Bytes × Node} {es : Entries}
    {paths paths' : List Path} {ways ways' : List (List Bytes)}
    (hBefore : ∀ e' ∈ es, Bytes.before e.1 e'.1 = true)
    (h : w.Lists above [e] paths ways) (h' : w.Lists above es paths' ways') :
    w.Lists above (e :: es) (paths ++ paths') (ways ++ ways') where
  paths_eq := by rw [h.paths_eq, h'.paths_eq, List.map_append]
  sorted := by
    refine List.pairwise_append.mpr ⟨h.sorted, h'.sorted, fun way hWay way' hWay' => ?_⟩
    obtain ⟨name, rest, node, rfl, hMem⟩ := ((h.mem_iff way).mp hWay).head
    obtain ⟨name', rest', node', rfl, hMem'⟩ := ((h'.mem_iff way').mp hWay').head
    have he : name = e.1 := by rw [← List.mem_singleton.mp hMem]
    exact List.Lex.rel (he ▸ hBefore _ hMem')
  mem_iff way := by
    rw [List.mem_append, h.mem_iff, h'.mem_iff]
    exact CollectsFrom.cons_iff.symm

/-- What a walk does not take of files is left out or is no file to count. -/
theorem passesOver_file_iff {w : Walk} (hw : ∀ r ∈ w.excludes.rules, r.verdict = .skip)
    {above : List Bytes} {name : Bytes} (hAbove : ∀ n ∈ above, Path.IsName n)
    (hName : Path.IsName name) :
    (w.skips (w.framesAbove above) (w.root.below (above ++ [name])) name false ||
      !w.takes (w.root.below (above ++ [name]))) = true ↔
      ¬ (¬ w.LeavesOutIn Hidden above name false ∧ w.Takes name) := by
  rw [Bool.or_eq_true, skips_iff hw, Bool.not_eq_true', ← Bool.not_eq_true, takes_iff hAbove hName,
    not_and_or, not_not, LeavesOutIn]

/-- What a walk does not go into of directories is left out or holds data of tests. -/
theorem passesOver_directory_iff {w : Walk} (hw : ∀ r ∈ w.excludes.rules, r.verdict = .skip)
    {above : List Bytes} {name : Bytes} :
    (w.skips (w.framesAbove above) (w.root.below (above ++ [name])) name true ||
      name == testDataName) = true ↔ ¬ w.GoesInto Hidden above name := by
  rw [Bool.or_eq_true, skips_iff hw, beq_iff_eq]
  constructor
  · rintro (hOut | hName) hGoes
    · exact hGoes.kept hOut
    · exact hGoes.name_ne hName
  · intro hNot
    by_contra hKept
    obtain ⟨hKept, hName⟩ := not_or.mp hKept
    exact hNot ⟨hKept, hName⟩

mutual

/-- An entry: the file itself, or all that is collected inside the directory. -/
theorem filesAt_eq {w : Walk} (hw : ∀ r ∈ w.excludes.rules, r.verdict = .skip)
    {above : List Bytes} {name : Bytes} (hAbove : ∀ n ∈ above, Path.IsName n)
    (hName : Path.IsName name) : ∀ (node : Node), node.WellFormed →
      ¬ w.Blocked above [(name, node)] → ∃ paths ways,
        filesAt w (w.framesAbove above) (w.root.below (above ++ [name])) name node =
          paths.map .ok ∧ w.Lists above [(name, node)] paths ways
  | .link target, _, _ => ⟨[], [], rfl, lists_nil fun _ => not_collectsFrom_link⟩
  | .file content, _, _ => by
    unfold filesAt
    split
    · rename_i hOut
      refine ⟨[], [], rfl, lists_nil fun way hc => ?_⟩
      exact (passesOver_file_iff hw hAbove hName).mp hOut (collectsFrom_file_iff.mp hc).2
    · rename_i hOut
      rw [passesOver_file_iff hw hAbove hName, not_not] at hOut
      exact ⟨[_], [[name]], rfl, lists_singleton rfl fun way =>
        collectsFrom_file_iff.trans (and_iff_left hOut)⟩
  | .directory inner, hNode, hFree => by
    unfold filesAt
    split
    · rename_i hOut
      refine ⟨[], [], rfl, lists_nil fun way hc => ?_⟩
      exact (passesOver_directory_iff hw).mp hOut (collectsFrom_directory_iff.mp hc).1
    · rename_i hOut
      rw [passesOver_directory_iff hw, not_not] at hOut
      split
      · rename_i hClosed
        exact (hFree (.closed List.mem_cons_self hOut hClosed)).elim
      · have hAbove' : ∀ n ∈ above ++ [name], Path.IsName n :=
          List.forall_mem_append.mpr ⟨hAbove, List.forall_mem_singleton.mpr hName⟩
        obtain ⟨paths, ways, hFiles, hWays⟩ := filesIn_eq hw hAbove' inner hNode
          fun hBlocked => hFree (.inside List.mem_cons_self hOut hBlocked)
        rw [← framesAbove_concat]
        exact ⟨paths, _, hFiles, hWays.inside hOut⟩

/-- The entries of a directory, one after the other. -/
theorem filesIn_eq {w : Walk} (hw : ∀ r ∈ w.excludes.rules, r.verdict = .skip)
    {above : List Bytes} (hAbove : ∀ n ∈ above, Path.IsName n) :
    ∀ (es : List (Bytes × Node)), Entries.WellFormed es → ¬ w.Blocked above es →
      ∃ paths ways, filesIn w (w.framesAbove above) (w.root.below above) es = paths.map .ok ∧
        w.Lists above es paths ways
  | [], _, _ => by
    refine ⟨[], [], rfl, lists_nil fun way hc => ?_⟩
    obtain ⟨_, _, _, _, hMem⟩ := hc.head
    cases hMem
  | (name, node) :: es, hes, hFree => by
    obtain ⟨hName, hBefore, hNode, hes⟩ := hes
    obtain ⟨paths, ways, hFiles, hWays⟩ := filesAt_eq hw hAbove hName node hNode
      fun hBlocked => hFree (hBlocked.mono (by simp))
    obtain ⟨paths', ways', hFiles', hWays'⟩ := filesIn_eq hw hAbove es hes
      fun hBlocked => hFree (hBlocked.mono (List.subset_cons_self _ _))
    have hChild : w.root.below (above ++ [name]) = (w.root.below above).child name := by
      simp [Path.below]
    rw [hChild] at hFiles
    refine ⟨paths ++ paths', _, ?_, hWays.cons hBefore hWays'⟩
    rw [filesIn, hFiles, hFiles', List.map_append]

end

theorem mem_filesIn {w : Walk} {above : List Bytes} {es : Entries} {e : Bytes × Node}
    {found : Except String Path} (he : e ∈ es)
    (h : found ∈ filesAt w (w.framesAbove above) (w.root.below (above ++ [e.1])) e.1 e.2) :
    found ∈ filesIn w (w.framesAbove above) (w.root.below above) es := by
  induction es with
  | nil => cases he
  | cons first es ih =>
    rw [filesIn, List.mem_append]
    rcases List.mem_cons.mp he with rfl | he
    · exact Or.inl (by simpa [Path.below] using h)
    · exact Or.inr (ih he)

section

variable {w : Walk} (hw : ∀ r ∈ w.excludes.rules, r.verdict = .skip) {above : List Bytes}

include hw

theorem error_mem_filesAt {name : Bytes} {inner : Entries} {fault : Fault}
    (hGoes : w.GoesInto Hidden above name)
    (hClosed : w.files.closed? (w.root.below (above ++ [name])) = some fault) :
    .error (closedMessage (w.root.below (above ++ [name])) fault) ∈
      filesAt w (w.framesAbove above) (w.root.below (above ++ [name])) name (.directory inner) := by
  rw [filesAt, if_neg fun hOut => (passesOver_directory_iff hw).mp hOut hGoes, hClosed]
  exact List.mem_cons_self

theorem filesAt_of_open {name : Bytes} {inner : Entries} (hGoes : w.GoesInto Hidden above name)
    (hOpen : w.files.closed? (w.root.below (above ++ [name])) = none) :
    filesAt w (w.framesAbove above) (w.root.below (above ++ [name])) name (.directory inner) =
      filesIn w (w.framesAbove (above ++ [name])) (w.root.below (above ++ [name])) inner := by
  rw [filesAt, if_neg fun hOut => (passesOver_directory_iff hw).mp hOut hGoes, hOpen,
    framesAbove_concat]

/-- A descent that is blocked meets a directory that it cannot open. -/
theorem Blocked.exists_error {es : Entries} (h : w.Blocked above es) :
    ∃ reason, .error reason ∈ filesIn w (w.framesAbove above) (w.root.below above) es := by
  induction h with
  | closed hEntry hGoes hClosed =>
    exact ⟨_, mem_filesIn hEntry (error_mem_filesAt hw hGoes hClosed)⟩
  | @inside above es inner name hEntry hGoes _ ih =>
    obtain ⟨reason, hReason⟩ := ih
    cases hClosed : w.files.closed? (w.root.below (above ++ [name])) with
    | some fault => exact ⟨_, mem_filesIn hEntry (error_mem_filesAt hw hGoes hClosed)⟩
    | none =>
      refine ⟨reason, mem_filesIn hEntry ?_⟩
      rwa [filesAt_of_open hw hGoes hClosed]

end

end Walk

end FuncSpans
