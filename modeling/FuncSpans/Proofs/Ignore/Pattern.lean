import FuncSpans.Proofs.Path.Relative
import FuncSpans.Proofs.Walk.Decision

/-!
# Patterns without slashes

A pattern that has no slash but at its end stands for a glob behind a `**` (`begins_of_pattern`),
whatever else it is made of: nothing that is read behind the `**` takes it away again
(`Begins.readParts`).

If what is behind it matches no slash either, the pattern is about names only
(`Glob.AboutNames`).
-/

namespace FuncSpans

namespace Glob

/-! ## Reading behind a `**` -/

/-- The outermost group of a glob under way. -/
def ReadState.outermost (s : ReadState) : Group := s.outer.getLastD s.group

/-- A glob under way begins with a `**`. -/
def Begins (s : ReadState) : Prop := [.anyPrefix] <:+ s.outermost.present

theorem begins_of_outer {s s' : ReadState} (h : Begins s) (hNe : s.outer ≠ [])
    (hOuter : s'.outer = s.outer) : Begins s' := by
  obtain ⟨g, outer, he⟩ := List.exists_cons_of_ne_nil hNe
  rw [Begins, ReadState.outermost, he, List.getLastD_cons] at h
  rwa [Begins, ReadState.outermost, hOuter, he, List.getLastD_cons]

theorem begins_of_group {s s' : ReadState} (h : Begins s)
    (hPresent : [.anyPrefix] <:+ s.group.present → [.anyPrefix] <:+ s'.group.present)
    (hOuter : s'.outer = s.outer) : Begins s' := by
  by_cases hNe : s.outer = []
  · rw [Begins, ReadState.outermost, hNe] at h
    rw [Begins, ReadState.outermost, hOuter, hNe]
    exact hPresent h
  · exact begins_of_outer h hNe hOuter

theorem Begins.push {s : ReadState} (h : Begins s) (p : GlobPart) : Begins (s.push p) :=
  begins_of_group h (fun hPresent => hPresent.trans (List.suffix_cons p _)) rfl

theorem Begins.replace {s : ReadState} (h : Begins s) {f : Option GlobPart → GlobPart}
    (hf : f (some .anyPrefix) = .anyPrefix) : Begins (s.replace f) := by
  refine begins_of_group h (fun ⟨front, hPresent⟩ => ?_) rfl
  rw [ReadState.replace, ← hPresent]
  cases front with
  | nil => exact ⟨[], by rw [List.nil_append, List.head?_cons, hf]; rfl⟩
  | cons p front => exact ⟨f (some p) :: front, rfl⟩

theorem Begins.readStars {s : ReadState} (h : Begins s) (before : Option Char) (rest : List Char) :
    Begins (readStars s before rest).1 := by
  have hTwo : Begins s.twoStars := (h.push .star).push .star
  unfold Glob.readStars
  dsimp only
  split_ifs
  · cases rest with
    | nil => exact h.push _
    | cons c rest => dsimp only; split_ifs <;> first | exact h.push _ | exact hTwo
  · cases rest with
    | nil => exact h.replace rfl
    | cons c rest => dsimp only; split_ifs <;> first | exact h.replace rfl | exact hTwo
  · exact hTwo

/-- A `**` at the start of a glob stays there. -/
theorem Begins.readParts {lenient : Bool} {fuel : Nat} {s s' : ReadState} {cs : List Char}
    (h : Begins s) (hRead : readParts lenient fuel s cs = .ok s') : Begins s' := by
  fun_induction Glob.readParts lenient fuel s cs with
  | case1 | case2 => exact Except.ok.inj hRead ▸ h
  | case8 | case11 | case13 | case17 => cases hRead
  -- Two stars.
  | case4 fuel s after rest s₁ hStars ih =>
    have hBegins := h.readStars s.before rest
    rw [hStars] at hBegins
    exact ih hBegins hRead
  | case5 fuel s after rest s₁ _ hStars _ ih =>
    have hBegins := h.readStars s.before rest
    rw [hStars] at hBegins
    exact ih hBegins hRead
  -- A group is opened, closed or goes on with its next alternative.
  | case12 fuel s cs after ih =>
    refine ih ?_ hRead
    rwa [Begins, ReadState.outermost, List.getLastD_cons]
  | case14 fuel s cs after g outer hOuter alternatives ih =>
    rw [Begins, ReadState.outermost, hOuter, List.getLastD_cons] at h
    have hClosed : Begins { s with group := g, outer } := h
    exact ih (hClosed.push _) hRead
  | case16 fuel s cs after hOuter group ih =>
    exact ih (begins_of_outer h (by simpa using hOuter) rfl) hRead
  -- A part is added.
  | case10 fuel s cs after _ _ _ ih =>
    have hPlain : Begins { s with plainBrackets := true } := h
    exact ih (hPlain.push _) hRead
  | case3 _ _ _ _ ih | case6 _ _ _ _ _ ih | case7 _ _ _ _ _ ih | case9 _ _ _ _ _ _ _ _ ih
  | case15 _ _ _ _ _ ih | case18 _ _ _ _ _ ih | case19 _ _ _ _ _ _ _ _ _ _ _ _ ih =>
    exact ih (h.push _) hRead

theorem begins_of_read {lenient : Bool} {cs : List Char} {g : Glob}
    (h : Glob.read lenient ('*' :: '*' :: '/' :: cs) = .ok g) :
    ∃ ps, g.parts = .anyPrefix :: ps := by
  have hStart : Glob.readParts lenient (cs.length + 4) ⟨⟨[], []⟩, [], none, false⟩
      ('*' :: '*' :: '/' :: cs) =
      Glob.readParts lenient (cs.length + 3) ⟨⟨[], [.anyPrefix]⟩, [], some '/', false⟩ cs := rfl
  rw [Glob.read] at h
  simp only [List.length_cons] at h
  rw [hStart] at h
  split at h
  · cases h
  · rename_i s hRead
    have hFirst : Begins ⟨⟨[], [.anyPrefix]⟩, [], some '/', false⟩ := List.suffix_refl _
    have hBegins := hFirst.readParts hRead
    split_ifs at h with hOuter
    cases h
    rw [Begins, ReadState.outermost, List.isEmpty_iff.mp hOuter] at hBegins
    obtain ⟨front, hPresent⟩ := hBegins
    have hPresent : s.group.present = front ++ [.anyPrefix] := hPresent.symm
    exact ⟨front.reverse, by rw [hPresent, List.reverse_append]; rfl⟩

/-! ## Globs about names -/

/-- A glob is about names, or matches nothing but the empty text. -/
def AboutNames (g : Glob) : Prop := g.parts = [] ∨ g.ByName

/-- A glob about names depends on the last name of a path. -/
theorem AboutNames.matchesText_iff {g : Glob} (h : g.AboutNames) {bs name : Bytes}
    (hName : Path.IsName name) (hEnd : EndOf bs name) :
    g.matchesText bs = true ↔ g.matchesText name = true := by
  rcases h with hNil | hByName
  · have hNone {text : Bytes} (hText : text ≠ []) : g.matchesText text = false := by
      obtain ⟨b, text, rfl⟩ := List.exists_cons_of_ne_nil hText
      rw [matchesText_eq_any (by simp [hNil]), remainders, hNil]
      rfl
    have hNe : bs ≠ [] := by
      rintro rfl
      rcases hEnd with he | ⟨front, he⟩
      · exact hName.ne_nil he
      · simp at he
    rw [hNone hNe, hNone hName.ne_nil]
  · exact hByName.matchesText_iff hName.slash_notMem hEnd

end Glob

/-! ## Patterns -/

namespace Rule

theorem trimmed_prefix (line : List Char) : trimmed line <+: line := by
  unfold trimmed Text.trimEnd
  split_ifs
  · exact List.prefix_refl line
  · rw [← List.reverse_suffix, List.reverse_reverse]
    exact List.dropWhile_suffix _

namespace Marks

theorem slash_notMem_cutEnd {body : List Char} (h : '/' ∉ body.dropLast) :
    '/' ∉ (cutEnd body).2 := by
  rcases body.eq_nil_or_concat' with rfl | ⟨front, c, rfl⟩
  · exact List.not_mem_nil
  rw [List.dropLast_concat] at h
  unfold cutEnd
  rw [List.reverse_append, List.reverse_singleton, List.singleton_append]
  split
  · rename_i rest he
    obtain ⟨rfl, hFront⟩ := List.cons.inj he
    have hMem : '/' ∈ rest.reverse → '/' ∈ front := fun hx => by
      rw [← List.mem_reverse, hFront]
      exact List.mem_cons_of_mem _ (List.mem_reverse.mp hx)
    exact mt hMem h
  · rename_i rest _ he
    obtain ⟨rfl, hFront⟩ := List.cons.inj he
    rwa [← hFront, List.reverse_reverse]
  · rename_i hc
    have hLast : '/' ≠ c := fun he => hc front.reverse (by rw [he])
    simpa using ⟨h, hLast⟩

/-- The glob of a line with a mark in front and no slash but at its end. -/
theorem ofLine_cases {body : List Char} (h : '/' ∉ body.dropLast) :
    (ofLine ('!' :: body)).anchored = true ∧ (ofLine ('!' :: body)).glob = [] ∨
      (ofLine ('!' :: body)).anchored = false ∧ '/' ∉ (ofLine ('!' :: body)).glob := by
  cases body with
  | nil => exact Or.inr ⟨rfl, List.not_mem_nil⟩
  | cons c body =>
    by_cases hc : c = '/'
    · subst hc
      cases body with
      | nil => exact Or.inl ⟨rfl, rfl⟩
      | cons d body => simp at h
    · have hLine : ofLine ('!' :: c :: body) =
          ⟨.keep, false, (cutEnd (c :: body)).1, (cutEnd (c :: body)).2⟩ := by
        unfold ofLine
        split
        all_goals simp_all
      rw [hLine]
      exact Or.inr ⟨rfl, slash_notMem_cutEnd h⟩

theorem wholeGlob_of_anchored_nil {m : Marks} (hAnchored : m.anchored = true)
    (hNil : m.glob = []) : m.wholeGlob = [] := by
  rw [wholeGlob, hAnchored, hNil]
  rfl

/-- A glob without slashes stands behind a `**`. -/
theorem wholeGlob_cases {m : Marks} (hAnchored : m.anchored = false) (h : '/' ∉ m.glob) :
    m.wholeGlob = ['*', '*'] ∨ m.wholeGlob = '*' :: '*' :: '/' :: m.glob := by
  have hPrefix : ['*', '*', '/'].isPrefixOf m.glob = false := by
    rw [← Bool.not_eq_true, List.isPrefixOf_iff_prefix]
    exact fun hp => h (hp.subset (by simp))
  have hContains : m.glob.contains '/' = false := by simpa using h
  have hSuffix {glob : List Char} (hGlob : '/' ∉ glob) (hNe : glob ≠ ['*', '*']) :
      ['/', '*', '*'].isSuffixOf ('*' :: '*' :: '/' :: glob) = false := by
    rw [← Bool.not_eq_true, List.isSuffixOf_iff_suffix]
    intro hs
    rcases List.suffix_cons_iff.mp hs with he | hs
    · cases he
    rcases List.suffix_cons_iff.mp hs with he | hs
    · cases he
    rcases List.suffix_cons_iff.mp hs with he | hs
    · exact hNe (List.cons.inj he).2.symm
    · exact hGlob (hs.subset List.mem_cons_self)
  unfold wholeGlob startsAnywhere
  rw [hAnchored, hContains, hPrefix]
  by_cases hStars : m.glob = ['*', '*']
  · rw [hStars]
    exact Or.inl rfl
  · right
    simp [hStars, hSuffix h hStars]

end Marks

/-- The rule of a pattern without a slash but at its end. -/
theorem parts_of_pattern {pattern : String} (hSlash : '/' ∉ pattern.toList.dropLast) {r : Rule}
    (hRule : Rule.ofLine? false (RuleSet.excludeLine pattern) = .ok (some r)) :
    r.glob.parts = [] ∨ ∃ ps, r.glob.parts = .anyPrefix :: ps := by
  have hTrimmed := trimmed_prefix (RuleSet.excludeLine pattern)
  rw [Rule.ofLine?, if_neg (by simp [RuleSet.excludeLine])] at hRule
  split at hRule
  · cases hRule
  rename_i line hLine
  obtain ⟨body, hBody, hBodySlash⟩ : ∃ body, trimmed (RuleSet.excludeLine pattern) = '!' :: body ∧
      '/' ∉ body.dropLast := by
    rcases List.prefix_cons_iff.mp hTrimmed with hNil | ⟨body, hBody, hPrefix⟩
    · exact (hLine hNil).elim
    · refine ⟨body, hBody, fun hx => hSlash ?_⟩
      obtain ⟨rest, hRest⟩ := hPrefix
      rw [← hRest]
      cases rest with
      | nil => rwa [List.append_nil]
      | cons c rest =>
        rw [List.dropLast_append_of_ne_nil (List.cons_ne_nil c rest)]
        exact List.mem_append_left _ (List.dropLast_subset body hx)
  rw [hBody] at hRule
  split at hRule
  · cases hRule
  rename_i r' hMarks
  obtain rfl := Option.some.inj (Except.ok.inj hRule)
  obtain ⟨g, hRead, hGlob⟩ : ∃ g,
      Glob.read false (Marks.ofLine ('!' :: body)).wholeGlob = .ok g ∧ r'.glob = g := by
    unfold ofMarks at hMarks
    split at hMarks
    · cases hMarks
    · rename_i g hRead
      cases hMarks
      exact ⟨g, hRead, rfl⟩
  rw [hGlob]
  rcases Marks.ofLine_cases hBodySlash with ⟨hAnchored, hNil⟩ | ⟨hAnchored, hNames⟩
  · rw [Marks.wholeGlob_of_anchored_nil hAnchored hNil] at hRead
    exact Or.inl (by cases hRead; rfl)
  · rcases Marks.wholeGlob_cases hAnchored hNames with hWhole | hWhole <;> rw [hWhole] at hRead
    · exact Or.inr ⟨[], by cases hRead; rfl⟩
    · exact Or.inr (Glob.begins_of_read hRead)

end Rule

namespace RuleSet

/-- The rules of exclude patterns are those of the single patterns, but for their verdict. -/
theorem exists_pattern_of_mem {patterns : List String} {rules : List Rule}
    (h : excludeRules patterns = .ok rules) {r : Rule} (hr : r ∈ rules) :
    ∃ pattern ∈ patterns, ∃ r', Rule.ofLine? false (excludeLine pattern) = .ok (some r') ∧
      r = { r' with verdict := .skip } := by
  induction patterns generalizing rules with
  | nil => cases h; cases hr
  | cons first patterns ih =>
    unfold excludeRules at h
    split at h
    · cases h
    · rename_i rule hRule
      split at h
      · cases h
      · rename_i rest hRest
        cases h
        rcases List.mem_append.mp hr with hr | hr
        · cases rule with
          | none => cases hr
          | some q => exact ⟨first, List.mem_cons_self, q, hRule, List.mem_singleton.mp hr⟩
        · exact (ih hRest hr).imp fun _ h => h.imp_left (List.mem_cons_of_mem _)

/-- Patterns without slashes, but at their ends, that match no slash are about names. -/
theorem aboutNames_of_mem {patterns : List String} {rules : List Rule}
    (h : excludeRules patterns = .ok rules)
    (hSlash : ∀ pattern ∈ patterns, '/' ∉ pattern.toList.dropLast)
    (hFree : ∀ r ∈ rules, GlobPart.ListSlashFree r.glob.parts.tail) :
    ∀ r ∈ rules, r.glob.AboutNames := by
  intro r hr
  obtain ⟨pattern, hPattern, r', hRule, he⟩ := exists_pattern_of_mem h hr
  have hTail := hFree r hr
  subst he
  refine (Rule.parts_of_pattern (hSlash pattern hPattern) hRule).imp_right fun ⟨ps, hParts⟩ => ?_
  rw [hParts] at hTail
  exact ⟨ps, hParts, hTail⟩

end RuleSet

end FuncSpans
