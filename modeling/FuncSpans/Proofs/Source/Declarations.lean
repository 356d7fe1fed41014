import FuncSpans.Proofs.Go.Seam

/-!
# Declarations of a text

The functions that the items of a text declare have names and stand one after the other on its lines
(`SourceFile.lined_declarations`), so that they are not moved when they are sorted. A text comes to a
file if a package clause is among its declarations (`SourceFile.parse_eq_ok`).
-/

namespace FuncSpans.Go

namespace SourceFile

open Lexeme (pastBlanks)

/-! ## Functions on lines -/

/-- Functions with names that stand one after the other between two lines. -/
structure Lined (lo hi : Nat) (fs : List FunctionSpan) : Prop where
  span : ∀ f ∈ fs, f.name ≠ [] ∧ lo ≤ f.first ∧ f.first ≤ f.last ∧ f.last ≤ hi
  ordered : fs.Pairwise fun f g => f.last ≤ g.first

theorem Lined.nil (lo hi : Nat) : Lined lo hi [] := ⟨by simp, .nil⟩

theorem Lined.append {lo mid hi : Nat} {fs gs : List FunctionSpan} (h : Lined lo mid fs)
    (h' : Lined mid hi gs) (hLo : lo ≤ mid) (hHi : mid ≤ hi) : Lined lo hi (fs ++ gs) := by
  refine ⟨fun f hf => ?_, List.pairwise_append.mpr ⟨h.ordered, h'.ordered, fun f hf g hg => ?_⟩⟩
  · rcases List.mem_append.mp hf with hf | hf
    · obtain ⟨hName, hFirst, hLe, hLast⟩ := h.span f hf
      exact ⟨hName, hFirst, hLe, by omega⟩
    · obtain ⟨hName, hFirst, hLe, hLast⟩ := h'.span f hf
      exact ⟨hName, by omega, hLe, hLast⟩
  · obtain ⟨_, _, _, hLast⟩ := h.span f hf
    obtain ⟨_, hFirst, _⟩ := h'.span g hg
    omega

theorem Lined.mono {lo hi hi' : Nat} {fs : List FunctionSpan} (h : Lined lo hi fs)
    (hLe : hi ≤ hi') : Lined lo hi' fs := by
  refine ⟨fun f hf => ?_, h.ordered⟩
  obtain ⟨hName, hFirst, hFl, hLast⟩ := h.span f hf
  exact ⟨hName, hFirst, hFl, by omega⟩

/-- Functions in order are not moved when they are sorted. -/
theorem Lined.sort_eq {lo hi : Nat} {fs : List FunctionSpan} (h : Lined lo hi fs) :
    FunctionSpan.sort fs = fs := by
  have hFirst : fs.Pairwise fun f g => f.first ≤ g.first := by
    refine h.ordered.imp_of_mem fun {f g} hf _ hLe => ?_
    obtain ⟨_, _, hFl, _⟩ := h.span f hf
    omega
  clear h
  induction fs with
  | nil => rfl
  | cons f fs ih =>
    have hSort : FunctionSpan.sort (f :: fs) = FunctionSpan.insert f fs := by
      rw [FunctionSpan.sort, List.foldr_cons, ← FunctionSpan.sort, ih hFirst.of_cons]
    rw [hSort]
    cases fs with
    | nil => rfl
    | cons g fs =>
      rw [FunctionSpan.insert, if_pos (List.rel_of_pairwise_cons hFirst List.mem_cons_self)]

/-! ## Items -/

theorem functionsOf_append (ds ds' : List Declared) :
    functionsOf (ds ++ ds') = functionsOf ds ++ functionsOf ds' := List.filterMap_append

/-- What an item declares lies between its start and its end. -/
theorem lined_of_mem_readings {c : Cursor} {e : Option Declared × Cursor}
    (h : e ∈ Item.readings c) :
    c.Leads e.2 ∧ Lined c.line e.2.line (functionsOf e.1.toList) := by
  obtain ⟨n, f, fs, hFronts, he⟩ := Item.of_mem_readings h
  have hf := Item.fronts_sound c n f (hFronts ▸ List.mem_cons_self)
  obtain ⟨hPlace, p, hp, hFits, hFirst, hLast⟩ := Item.of_mem_ends hf he
  rw [hPlace, hp]
  refine ⟨hf.leads, ?_⟩
  cases hd : p.declared with
  | none => exact Lined.nil _ _
  | some d =>
    cases d with
    | package name => exact Lined.nil _ _
    | function name first last =>
      obtain ⟨hName, hPf, hFl, hPl⟩ := hFits.declared name first last hd
      have hSpan : name ≠ [] ∧ c.line ≤ first ∧ first ≤ last ∧ last ≤ f.place.line :=
        ⟨hName, by omega, hFl, by omega⟩
      exact ⟨List.forall_mem_singleton.mpr hSpan, List.pairwise_singleton _ _⟩

/-- A way to read a text on which the functions stand in order. -/
structure Progress.Lined (c : Cursor) (w : Progress) : Prop where
  leads : c.Leads w.place
  lined : SourceFile.Lined c.line w.place.line (functionsOf w.declared)

/-- One item more on a way. -/
theorem Progress.Lined.item {c : Cursor} {w : Progress} (h : w.Lined c)
    {e : Option Declared × Cursor} (he : e ∈ Item.readings w.place) :
    Progress.Lined c ⟨pastBlanks e.2, w.declared ++ e.1.toList⟩ := by
  obtain ⟨hLeads, hLined⟩ := lined_of_mem_readings he
  have hBlanks := Lexeme.leads_pastBlanks e.2
  refine ⟨h.leads.trans (hLeads.trans hBlanks), ?_⟩
  rw [functionsOf_append]
  exact (h.lined.append hLined h.leads.line_le hLeads.line_le).mono hBlanks.line_le

/-- The functions of all items of a text. -/
theorem lined_items {c : Cursor} {fuel : Nat} {ws : List Progress} (h : ∀ w ∈ ws, w.Lined c)
    {ds : List Declared} (hDs : items fuel ws = some ds) :
    Lined c.line c.lines (functionsOf ds) := by
  induction fuel generalizing ws with
  | zero => cases hDs
  | succ fuel ih =>
    cases ws with
    | nil => cases hDs
    | cons w ws =>
      have hw := h w List.mem_cons_self
      unfold items at hDs
      split at hDs
      · cases hDs
        apply hw.lined.mono
        rw [← hw.leads.total_eq, Cursor.lines]
        exact Nat.le_add_right _ _
      · refine ih ?_ hDs
        refine List.foldlRecOn (motive := fun ws : List Progress => ∀ w ∈ ws, w.Lined c) _ _
          (fun v hv => h v (List.mem_cons_of_mem _ hv)) fun ws' hWs' e he => ?_
        exact forall_insert (hw.item he) hWs'

/-! ## Whole texts -/

/-- The declarations of a text, if all of it can be read. -/
def declarations (text : List Char) : Option (List Declared) :=
  items (text.length + 2) [⟨pastBlanks (.start text), []⟩]

theorem start_line (text : List Char) : (Cursor.start text).line = 1 := by
  unfold Cursor.start
  split <;> rfl

theorem start_lines (text : List Char) : (Cursor.start text).lines = 1 + text.count '\n' := by
  unfold Cursor.start Cursor.lines
  split
  · rw [List.count_cons_of_ne (by decide)]
  · rfl

theorem lined_declarations {text : List Char} {ds : List Declared}
    (h : declarations text = some ds) : Lined 1 (1 + text.count '\n') (functionsOf ds) := by
  have hStart : Progress.Lined (.start text) ⟨pastBlanks (.start text), []⟩ :=
    ⟨Lexeme.leads_pastBlanks _, Lined.nil _ _⟩
  have hLined := lined_items (List.forall_mem_singleton.mpr hStart) h
  rwa [start_line, start_lines] at hLined

theorem parse_eq_ok {text : List Char} {file : SourceFile} : parse text = .ok file ↔
    ∃ ds, declarations text = some ds ∧ packageOf ds = some file.package ∧
      functionsOf ds = file.functions := by
  have hItems : items (text.length + 2) [⟨pastBlanks (.start text), []⟩] = declarations text := rfl
  have hSort (ds : List Declared) (hDs : declarations text = some ds) :
      FunctionSpan.sort (functionsOf ds) = functionsOf ds := (lined_declarations hDs).sort_eq
  unfold parse
  rw [hItems]
  constructor
  · intro h
    split at h
    · cases h
    · rename_i ds hDs
      split at h
      · cases h
      · rename_i package hPackage
        cases h
        exact ⟨ds, hDs, hPackage, (hSort ds hDs).symm⟩
  · rintro ⟨ds, hDs, hPackage, hFunctions⟩
    rw [hDs]
    dsimp only
    rw [hPackage]
    dsimp only
    rw [hSort ds hDs, hFunctions]

theorem parse_ne_ok {text : List Char} (h : declarations text = none) (file : SourceFile) :
    parse text ≠ .ok file := by
  intro hParse
  obtain ⟨ds, hDs, _⟩ := parse_eq_ok.mp hParse
  rw [h] at hDs
  cases hDs

/-- Checks the items from a place on, so many of them at most: no reading of one comes to the end
of the text. -/
def contains (rounds : Nat) : Nat → Cursor → Bool
  | 0, c => c.rest.isEmpty
  | items + 1, c => c.rest.isEmpty || (Item.contains rounds 0 (Item.start c) &&
      (Item.readings c).all fun e => contains rounds items (pastBlanks e.2))

/-! ## Some texts -/

/-- A file of one function. -/
def oneFunction : List Char := "package p\nfunc a()\n".toList

/-- Two functions, of which the second one goes on to another line. -/
def functionsAlone : List Char := "func f()\nfunc g(\n)\n".toList

/-- A file of these two functions. -/
def twoFunctions : List Char := "package q\n".toList ++ functionsAlone

-- The texts are read in one evaluation, as most of the work for each is on the same grammar.
set_option maxRecDepth 100000 in
theorem texts_read :
    (declarations "package q\n".toList = some [.package ['q']] ∧
      declarations oneFunction = some [.package ['p'], .function ['a'] 2 2] ∧
      declarations twoFunctions =
        some [.package ['q'], .function ['f'] 2 2, .function ['g'] 3 4] ∧
      declarations "package p\nfunc f(\n)".toList =
        some [.package ['p'], .function ['f'] 2 3]) ∧
    contains 10 1 (pastBlanks (.start "package q\n".toList)) = true ∧
      contains 10 2 (pastBlanks (.start oneFunction)) = true := by
  decide +kernel

theorem clause_read : declarations "package q\n".toList = some [.package ['q']] :=
  texts_read.1.1

theorem parse_oneFunction : parse oneFunction = .ok ⟨['p'], [⟨['a'], 2, 2⟩]⟩ :=
  parse_eq_ok.mpr ⟨_, texts_read.1.2.1, rfl, rfl⟩

theorem parse_twoFunctions :
    parse twoFunctions = .ok ⟨['q'], [⟨['f'], 2, 2⟩, ⟨['g'], 3, 4⟩]⟩ :=
  parse_eq_ok.mpr ⟨_, texts_read.1.2.2.1, rfl, rfl⟩

end SourceFile

end FuncSpans.Go
