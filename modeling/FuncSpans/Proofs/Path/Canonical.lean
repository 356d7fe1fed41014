import FuncSpans.Proofs.Path.Clean
import FuncSpans.Proofs.Text.Decoding

/-!
# Clean paths

A clean path has one form (`Canonical`), and it is the same for all paths with the same components
apart from every `.`. What is asked of a path by its name has the same answer for the clean path.

The directory of a clean path is clean as well and has all of its steps but the last one
(`steps_directory`), so the path is had again from the directory and the name.
`clean_canonical` puts all of this together.
-/

namespace FuncSpans.Path

/-! ## Components -/

theorem current_notMem_steps (p : Path) : Component.current ∉ p.steps := by
  rw [steps_eq, List.mem_append, not_or]
  refine ⟨by split_ifs <;> simp, fun h => ?_⟩
  have hText := ofPart?_text h
  simp [Component.text, Component.ofPart?] at hText

/-- The steps of a path are its components without a `.`. -/
theorem filter_components (p : Path) : p.components.filter (· ≠ .current) = p.steps := by
  have hSteps : p.steps.filter (· ≠ .current) = p.steps :=
    List.filter_eq_self.mpr fun c hc => decide_eq_true fun he => current_notMem_steps p (he ▸ hc)
  rcases components_eq p with h | h
  · rw [h, hSteps]
  · rw [h, List.filter_cons_of_neg (by simp), hSteps]

theorem clean_eq_of_equivalent {p q : Path} (h : p.equivalent q = true) : p.clean = q.clean := by
  rw [clean_eq_iff, ← filter_components p, ← filter_components q, beq_iff_eq.mp h]

theorem count_parent_components (p : Path) :
    p.components.count .parent = p.steps.count .parent := by
  rw [← filter_components, List.count_filter (by simp)]

/-! ## The form of a clean path -/

/-- A path without anything that does not count. -/
structure Canonical (p : Path) : Prop where
  ne_nil : p ≠ []
  /-- It has no part `.` unless it is nothing else. -/
  stops : p = [stop] ∨ [stop] ∉ p.split
  slashes : ¬ [slash, slash] <:+: p
  ending : p.getLast? = some slash → p = [slash]

/-- Components that are written as names between slashes. -/
def Written (cs : List Component) : Prop :=
  ∀ c ∈ cs, Component.ofPart? c.text = some c ∧ slash ∉ c.text

theorem written_names (p : Path) : Written p.names := fun _ hc =>
  ⟨ofPart?_text hc, slash_notMem_text hc⟩

theorem Written.split_joinParts {cs : List Component} (h : Written cs) (hNe : cs ≠ []) :
    (joinParts (cs.map Component.text)).split = cs.map Component.text := by
  refine Path.split_joinParts (by simpa using hNe) fun part hPart => ?_
  obtain ⟨c, hc, rfl⟩ := List.mem_map.mp hPart
  exact (h c hc).2

theorem Written.names_joinParts {cs : List Component} (h : Written cs) :
    (joinParts (cs.map Component.text)).names = cs := by
  by_cases hNe : cs = []
  · rw [hNe]
    rfl
  · rw [names, h.split_joinParts hNe, List.filterMap_map]
    exact (List.filterMap_congr fun c hc => (h c hc).1).trans List.filterMap_some

theorem Written.text_ne {cs : List Component} (h : Written cs) {part : Bytes}
    (hPart : part ∈ cs.map Component.text) : part ≠ [] ∧ part ≠ [stop] := by
  obtain ⟨c, hc, rfl⟩ := List.mem_map.mp hPart
  refine ⟨Component.ne_nil_of_ofPart? (h c hc).1, fun he => ?_⟩
  have hText := (h c hc).1
  rw [he] at hText
  cases hText

theorem Written.not_isAbsolute {cs : List Component} (h : Written cs) :
    (joinParts (cs.map Component.text)).isAbsolute = false := by
  by_cases hNe : cs = []
  · rw [hNe]
    rfl
  rw [← Bool.not_eq_true]
  intro hAbsolute
  obtain ⟨rest, hRest⟩ : ∃ rest, joinParts (cs.map Component.text) = slash :: rest :=
    List.head?_eq_some_iff.mp (beq_iff_eq.mp hAbsolute)
  have hSplit := h.split_joinParts hNe
  rw [hRest, split_slash] at hSplit
  exact (h.text_ne (hSplit ▸ List.mem_cons_self)).1 rfl

/-- Steps of a path, written in the clean form. -/
def written : List Component → Path
  | [] => [stop]
  | cs => ofComponents cs

theorem clean_eq_written (p : Path) : p.clean = written p.steps := rfl

theorem steps_written {absolute : Bool} {cs : List Component} (h : Written cs) :
    (written ((if absolute then [.root] else []) ++ cs)).steps =
      (if absolute then [.root] else []) ++ cs := by
  cases absolute with
  | true =>
    have hNames : names (slash :: joinParts (cs.map Component.text)) = cs := by
      rw [names, split_slash]
      exact h.names_joinParts
    rw [if_pos rfl, List.singleton_append, written, ofComponents, steps_eq, hNames]
    · rfl
    · exact List.cons_ne_nil _ _
  | false =>
    rw [if_neg Bool.false_ne_true, List.nil_append]
    cases cs with
    | nil => rfl
    | cons c cs =>
      have hRoot : c ≠ .root := Component.ne_root_of_ofPart? (h c List.mem_cons_self).1
      have hWritten : written (c :: cs) = joinParts ((c :: cs).map Component.text) := by
        cases c <;> first | rfl | exact (hRoot rfl).elim
      rw [hWritten, steps_eq, h.not_isAbsolute, h.names_joinParts]
      rfl

/-- No part but the first one of a clean path is empty, unless the path is a slash. -/
theorem ne_nil_of_mem_split_clean {p : Path} (hNe : p.names ≠ []) :
    (∀ part ∈ p.clean.split, part ≠ [stop]) ∧ ∀ part ∈ p.clean.split.tail, part ≠ [] := by
  have hText (part : Bytes) : part ∈ p.body.split → part ≠ [] ∧ part ≠ [stop] := by
    rw [body, (written_names p).split_joinParts hNe]
    exact (written_names p).text_ne
  cases h : p.isAbsolute with
  | true =>
    rw [clean_of_isAbsolute h, split_slash]
    refine ⟨fun part hPart => ?_, fun part hPart => (hText part hPart).1⟩
    rcases List.mem_cons.mp hPart with rfl | hPart
    · simp
    · exact (hText part hPart).2
  | false =>
    rw [clean_of_not_isAbsolute h, if_neg hNe]
    exact ⟨fun part hPart => (hText part hPart).2,
      fun part hPart => (hText part (List.mem_of_mem_tail hPart)).1⟩

theorem nil_mem_tail_split (p q : Path) : [] ∈ (split (p ++ slash :: slash :: q)).tail ∧
    [] ∈ (split (p ++ [slash])).tail := by
  obtain ⟨part, parts, hs⟩ := List.exists_cons_of_ne_nil (split_ne_nil p)
  rw [split_append_slash, split_append_slash, split_slash, hs]
  simp [split]

theorem canonical_clean (p : Path) : Canonical p.clean := by
  by_cases hNe : p.names = []
  · have hClean : p.clean = [slash] ∨ p.clean = [stop] := by
      cases h : p.isAbsolute with
      | true => exact Or.inl (by rw [clean_of_isAbsolute h, body, hNe]; rfl)
      | false => exact Or.inr (by rw [clean_of_not_isAbsolute h, if_pos hNe])
    rcases hClean with h | h
    · exact ⟨clean_ne_nil p, Or.inr (by rw [h]; decide), by rw [h]; decide, fun _ => h⟩
    · exact ⟨clean_ne_nil p, Or.inl h, by rw [h]; decide, by rw [h]; decide⟩
  · obtain ⟨hStop, hTail⟩ := ne_nil_of_mem_split_clean hNe
    refine ⟨clean_ne_nil p, Or.inr fun h => hStop _ h rfl, ?_, fun h => ?_⟩
    · rintro ⟨front, rest, h⟩
      refine hTail [] ?_ rfl
      rw [← h, List.append_assoc]
      exact (nil_mem_tail_split front rest).1
    · obtain ⟨front, he⟩ := List.getLast?_eq_some_iff.mp h
      exact (hTail [] (he ▸ (nil_mem_tail_split front []).2) rfl).elim

/-! ## Names -/

theorem isTestFile_clean (p : Path) : p.clean.isTestFile = p.isTestFile := by
  unfold isTestFile
  rw [fileName?_clean]

/-- A test file is a source file. -/
theorem isGoSource_of_isTestFile {p : Path} (h : p.isTestFile = true) : p.isGoSource = true := by
  unfold isTestFile at h
  unfold isGoSource
  cases hName : p.fileName? with
  | none => simp [hName] at h
  | some name =>
    simp only [hName, Bool.and_eq_true] at h
    obtain ⟨front, rfl⟩ := List.isSuffixOf_iff_suffix.mp h.1
    simp [extensionOf, testSuffix, goExtension, stop]

/-! ## Directories -/

theorem names_append_slash (p q : Path) : names (p ++ slash :: q) = p.names ++ q.names := by
  rw [names, split_append_slash, List.filterMap_append]
  rfl

/-- What stands in a directory has the names on the way to it after those of the directory. -/
theorem names_child_eq_append (p q : Path) : (p.child q).names = p.names ++ q.names := by
  unfold child
  split
  · rfl
  · split
    · rename_i h
      obtain ⟨front, rfl⟩ := List.getLast?_eq_some_iff.mp h
      rw [List.append_assoc, List.singleton_append, names_append_slash, names_append_slash]
      exact congrArg (· ++ q.names) (List.append_nil _).symm
    · exact names_append_slash p q

theorem isAbsolute_child_of_ne_nil {p : Path} (hNe : p ≠ []) (q : Path) :
    (p.child q).isAbsolute = p.isAbsolute := by
  obtain ⟨b, bs, rfl⟩ := List.exists_cons_of_ne_nil hNe
  unfold child isAbsolute
  split_ifs <;> rfl

theorem names_of_fileName? {p : Path} {name : Bytes} (h : p.fileName? = some name) :
    p.names = p.names.dropLast ++ [.normal name] := by
  have hLast := fileName?_eq_some.mp h
  rw [steps_eq] at hLast
  by_cases hNe : p.names = []
  · rw [hNe] at hLast
    split_ifs at hLast <;> cases hLast
  · rw [List.getLast?_append_of_ne_nil _ hNe] at hLast
    exact (List.dropLast_append_getLast? _ hLast).symm

theorem steps_of_fileName? {p : Path} {name : Bytes} (h : p.fileName? = some name) :
    p.steps.dropLast = (if p.isAbsolute then [.root] else []) ++ p.names.dropLast := by
  rw [steps_eq, names_of_fileName? h, ← List.append_assoc, List.dropLast_concat,
    List.dropLast_concat]

theorem parentComponents_eq {cs : List Component} {name : Bytes}
    (h : cs.getLast? = some (.normal name)) : parentComponents cs = some cs.dropLast := by
  unfold parentComponents
  split
  · cases h
  · cases h
  · rfl

theorem directory_clean_eq {p : Path} {name : Bytes} (h : p.fileName? = some name) :
    p.clean.directory = written p.steps.dropLast := by
  have hNames := names_of_fileName? h
  have hNe : p.names ≠ [] := fun hNil => by rw [hNil] at hNames; simp at hNames
  have hComponents : p.clean.components = p.steps := by
    obtain ⟨part, parts, hs⟩ := List.exists_cons_of_ne_nil (split_ne_nil p.clean)
    have hStop : part ≠ [stop] := (ne_nil_of_mem_split_clean hNe).1 part (hs ▸ List.mem_cons_self)
    rw [components, hs]
    dsimp only
    rw [if_neg hStop, steps_clean]
  rw [directory, hComponents, parentComponents_eq (fileName?_eq_some.mp h)]
  cases p.steps.dropLast <;> rfl

/-- The directory of a clean path has all steps but the last one. -/
theorem steps_directory {p : Path} {name : Bytes} (h : p.fileName? = some name) :
    p.clean.directory.steps = p.steps.dropLast := by
  rw [directory_clean_eq h, steps_of_fileName? h]
  exact steps_written fun c hc => written_names p c (List.dropLast_subset _ hc)

theorem clean_directory {p : Path} {name : Bytes} (h : p.fileName? = some name) :
    p.clean.directory.clean = p.clean.directory := by
  rw [clean_eq_written, steps_directory h, directory_clean_eq h]

/-- A name in the directory of a clean path is the path again. -/
theorem clean_join_directory {p : Path} {name : Bytes} (h : p.fileName? = some name) :
    (p.clean.directory.join name).clean = p.clean := by
  have hNames := names_of_fileName? h
  have hLast : Component.normal name ∈ p.names := hNames ▸ by simp
  have hName : names name = [.normal name] ∧ isAbsolute name = false := by
    have hSingle : Written [.normal name] := fun c hc =>
      List.mem_singleton.mp hc ▸ written_names p _ hLast
    exact ⟨hSingle.names_joinParts, hSingle.not_isAbsolute⟩
  have hNe : p.clean.directory ≠ [] := clean_directory h ▸ clean_ne_nil _
  rw [clean_eq_iff, join, hName.2, if_neg Bool.false_ne_true, steps_eq, names_child_eq_append,
    isAbsolute_child_of_ne_nil hNe, ← List.append_assoc, ← steps_eq, steps_directory h, hName.1,
    steps_of_fileName? h, List.append_assoc, ← hNames, ← steps_eq]

/-! ## Texts -/

theorem joinParts_split (p : Path) : joinParts p.split = p := by
  induction p with
  | nil => rfl
  | cons b p ih =>
    obtain ⟨part, parts, hs⟩ := List.exists_cons_of_ne_nil (split_ne_nil p)
    by_cases hb : b = slash
    · have hRest : joinParts (part :: parts) = p := hs ▸ ih
      rw [hb, split_slash, hs]
      exact congrArg (slash :: ·) hRest
    · obtain ⟨first, rest, hs', he⟩ := split_cons hb p
      rw [he, ← ih, hs']
      cases rest <;> rfl

/-- What is joined is a text exactly if the parts are. -/
theorem isText_joinParts {parts : List Bytes} :
    Utf8.isText (joinParts parts) = true ↔ ∀ part ∈ parts, Utf8.isText part = true := by
  have hSlash : slash.toNat < 0x80 := by decide
  induction parts with
  | nil => exact ⟨fun _ _ h => (List.not_mem_nil h).elim, fun _ => rfl⟩
  | cons part rest ih =>
    refine Iff.trans ?_ (List.forall_mem_cons.trans (and_congr_right fun _ => ih.symm)).symm
    cases rest with
    | nil => exact (and_iff_left rfl).symm
    | cons next rest => exact Utf8.isText_append_cons hSlash

/-- A test file is one with a text for a name that ends in `_test.go`. -/
theorem isTestFile_iff {p : Path} : p.isTestFile = true ↔
    ∃ front : String, p.fileName? = some (ofString (front ++ "_test.go")) := by
  have hName (front : String) :
      ofString (front ++ "_test.go") = Utf8.encode front.toList ++ testSuffix := by
    rw [ofString, Utf8.ofString, String.toList_append, Utf8.encode_append]
    rfl
  unfold isTestFile
  cases p.fileName? with
  | none => simp
  | some name =>
    simp only [Bool.and_eq_true, List.isSuffixOf_iff_suffix, Option.some.injEq]
    constructor
    · rintro ⟨⟨front, rfl⟩, hText⟩
      have hFront : Utf8.isText front = true :=
        ((Utf8.isText_append_cons (by decide)).mp hText).1
      obtain ⟨cs, rfl⟩ := Utf8.isText_iff.mp hFront
      exact ⟨String.ofList cs, by rw [hName, String.toList_ofList]⟩
    · rintro ⟨front, rfl⟩
      exact ⟨hName front ▸ List.suffix_append _ _, Utf8.isText_ofString _⟩

/-- All names in a path are texts. -/
def NamesAreTexts (p : Path) : Prop := ∀ c ∈ p.names, Utf8.isText c.text = true

theorem namesAreTexts_of_isText {p : Path} (h : Utf8.isText p = true) : NamesAreTexts p := by
  intro c hc
  obtain ⟨part, hPart, hOf⟩ := exists_part_of_mem_names hc
  rw [Component.text_of_ofPart? hOf]
  exact isText_joinParts.mp ((joinParts_split p).symm ▸ h) part hPart

theorem isText_written {cs : List Component} (h : ∀ c ∈ cs, Utf8.isText c.text = true) :
    Utf8.isText (written cs) = true := by
  have hJoin (ds : List Component) (hSub : ds ⊆ cs) :
      Utf8.isText (joinParts (ds.map Component.text)) = true :=
    isText_joinParts.mpr (List.forall_mem_map.mpr fun d hd => h d (hSub hd))
  unfold written
  split
  · decide
  · unfold ofComponents
    split
    · exact Utf8.isText_append (by decide : Utf8.isText [slash] = true)
        (hJoin _ (List.subset_cons_self _ _))
    · exact hJoin _ (List.Subset.refl _)

theorem isText_directory {p : Path} {name : Bytes} (h : p.fileName? = some name)
    (hTexts : NamesAreTexts p) : Utf8.isText p.clean.directory = true := by
  rw [directory_clean_eq h]
  refine isText_written fun c hc => ?_
  have hStep : c ∈ p.steps := List.dropLast_subset _ hc
  rw [steps_eq, List.mem_append] at hStep
  rcases hStep with hRoot | hName
  · split_ifs at hRoot
    · rw [List.mem_singleton.mp hRoot]
      rfl
    · cases hRoot
  · exact hTexts c hName

/-- A text is shown as it is. -/
theorem ofString_display {p : Path} (h : Utf8.isText p = true) : ofString p.display = p := by
  obtain ⟨cs, rfl⟩ := Utf8.isText_iff.mp h
  rw [ofString, display, Utf8.decodeLossy_encode, Utf8.ofString, String.toList_ofList]

/-! ## The canonical path -/

/-- A clean path is the one path that stands for all paths with the same components apart from every
`.`: it has nothing that does not count and keeps all that does, it answers what is asked of a path
as the path does, and it is had again from its name and its directory as that is shown. -/
theorem clean_canonical (p q : Path) :
    p.clean.clean = p.clean ∧ p.clean.Canonical ∧ p.clean.isAbsolute = p.isAbsolute ∧
    p.clean.components.filter (· ≠ .current) = p.components.filter (· ≠ .current) ∧
    p.clean.components.count .parent = p.components.count .parent ∧
    (p.clean = q.clean ↔
      p.components.filter (· ≠ .current) = q.components.filter (· ≠ .current)) ∧
    (p.equivalent q = true → p.clean = q.clean) ∧
    p.clean.isGoSource = p.isGoSource ∧ p.clean.isTestFile = p.isTestFile ∧
    (p.isTestFile = true → p.isGoSource = true) ∧
    (Utf8.isText p = true → ∀ name, p.fileName? = some name →
      ((ofString p.clean.directory.display).join name).clean = p.clean) := by
  refine ⟨clean_clean p, canonical_clean p, isAbsolute_clean p, ?_, ?_, ?_, clean_eq_of_equivalent,
    isGoSource_clean p, isTestFile_clean p, isGoSource_of_isTestFile, fun hText name hName => ?_⟩
  · rw [filter_components, filter_components, steps_clean]
  · rw [count_parent_components, count_parent_components, steps_clean]
  · rw [filter_components, filter_components, clean_eq_iff]
  · have hDirectory := isText_directory hName (namesAreTexts_of_isText hText)
    rw [ofString_display hDirectory, clean_join_directory hName]

end FuncSpans.Path
