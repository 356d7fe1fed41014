import FuncSpans.Proofs.Go.Below
import FuncSpans.Proofs.Source.Declarations

/-!
# Texts one after the other

What stands after a text is read as if it stood behind a package clause alone
(`SourceFile.parse_append`), unless an item straddles the seam or only the text after it closes a
comment. Neither can be left out (`SourceFile.append_exceptions`).
-/

namespace FuncSpans.Go

namespace SourceFile

open Lexeme (pastBlanks)

/-! ## Where items begin -/

/-- A place where an item begins, or the end of the text, that some items lead to. -/
inductive Reached (text : List Char) : Cursor → Prop
  | start : Reached text (pastBlanks (.start text))
  | item {c : Cursor} {e : Option Declared × Cursor} : Reached text c → e ∈ Item.readings c →
      Reached text (pastBlanks e.2)

/-- Only the text after a text closes a comment in front of which a token is looked for. -/
def LeavesComment (text rest : List Char) : Prop :=
  ∃ c, Reached text c ∧ Item.LeavesComment rest c

/-- An item begins in the first text and ends in the second one. -/
def Straddles (text rest : List Char) : Prop :=
  ∃ c, Reached (text ++ rest) c ∧ rest.length < c.remaining ∧
    ∃ e ∈ Item.readings c, e.2.remaining < rest.length

theorem Reached.leads {text : List Char} {c : Cursor} (h : Reached text c) :
    (Cursor.start text).Leads c := by
  induction h with
  | start => exact Lexeme.leads_pastBlanks _
  | item _ he ih => exact ih.trans ((lined_of_mem_readings he).1.trans (Lexeme.leads_pastBlanks _))

theorem Reached.settled {text : List Char} {c : Cursor} (h : Reached text c) :
    Lexeme.Settled c := by
  cases h <;> exact Lexeme.settled_pastBlanks _

theorem ends_start {text : List Char} (h : text.getLast? = some '\n') :
    (Cursor.start text).Ends := by
  unfold Cursor.start
  split
  · rename_i tail
    have hTail : tail ≠ [] := by
      rintro rfl
      cases h
    rwa [List.getLast?_cons_of_ne_nil hTail] at h
  · exact h

section Seam

variable {text rest : List Char} (hEnd : text.getLast? = some '\n') (hRest : rest ≠ [])

/-- The end of a text. -/
def finish (text : List Char) : Cursor := Cursor.skip text.length (.start text)

theorem leads_finish (text : List Char) : (Cursor.start text).Leads (finish text) := ⟨_, rfl⟩

theorem remaining_start_le (text : List Char) : (Cursor.start text).remaining ≤ text.length := by
  unfold Cursor.start
  split
  · exact Nat.le_succ _
  · exact Nat.le_refl _

theorem rest_finish (text : List Char) : (finish text).rest = [] := by
  rw [finish, Cursor.rest_skip]
  exact List.drop_of_length_le (remaining_start_le text)

theorem remaining_finish (text : List Char) : (finish text).remaining = 0 :=
  Cursor.remaining_eq_zero (rest_finish text)

theorem eq_finish {c : Cursor} (h : (Cursor.start text).Leads c) (hc : c.rest = []) :
    c = finish text := by
  apply h.eq_of_remaining (leads_finish text)
  rw [remaining_finish, Cursor.remaining, hc, List.length_nil]

theorem line_finish (text : List Char) : (finish text).line = 1 + text.count '\n' := by
  have hTotal := (leads_finish text).total_eq
  rw [Cursor.lines, rest_finish, List.count_nil, start_lines] at hTotal
  exact hTotal

/-- The first place behind the seam where an item begins. -/
def behind (text rest : List Char) : Cursor := pastBlanks ((finish text).extend rest)

theorem remaining_behind_le (text rest : List Char) :
    (behind text rest).remaining ≤ rest.length := by
  have hLe := (Lexeme.leads_pastBlanks ((finish text).extend rest)).remaining_le
  rw [Cursor.remaining_extend, remaining_finish, Nat.zero_add] at hLe
  exact hLe

/-- The place in the longer text for a place where an item begins. -/
def across (text rest : List Char) (c : Cursor) : Cursor :=
  if c.rest = [] then behind text rest else c.extend rest

theorem across_cases (text rest : List Char) (c : Cursor) :
    c.rest = [] ∧ across text rest c = behind text rest ∨
      c.rest ≠ [] ∧ across text rest c = c.extend rest := by
  by_cases hNil : c.rest = []
  · exact Or.inl ⟨hNil, if_pos hNil⟩
  · exact Or.inr ⟨hNil, if_neg hNil⟩

include hEnd

theorem Reached.ends {c : Cursor} (h : Reached text c) : c.rest = [] ∨ c.Ends :=
  (ends_start hEnd).leads h.leads

/-- After a place in the text an item begins where it does in the longer text. -/
theorem pastBlanks_extend (hComment : ¬ LeavesComment text rest) {c : Cursor}
    (hc : (Cursor.start text).Leads c) (hReached : Reached text (pastBlanks c)) :
    pastBlanks (c.extend rest) = across text rest (pastBlanks c) := by
  have hCends := (ends_start hEnd).leads hc
  unfold across
  split
  · rename_i hNil
    rw [Lexeme.pastBlanks_extend_end hCends hNil, behind,
      eq_finish (hc.trans (Lexeme.leads_pastBlanks c)) hNil]
  · rename_i hNe
    have hEnds : c.Ends := hCends.resolve_left fun hNil =>
      hNe ((Lexeme.leads_pastBlanks c).rest_eq_nil hNil)
    apply Lexeme.pastBlanks_extend hEnds hNe
    intro hClosed
    refine hComment ⟨_, hReached, 0, ⟨pastBlanks c, true, [⟨.start, []⟩]⟩, [], rfl, ⟨.start, []⟩,
      ?_, ?_⟩
    · simp [Front.going, Item.start_not_whole]
    · dsimp only
      rw [hReached.settled.place_eq]
      exact hClosed

include hRest

/-- Where an item of the text begins, one of the longer text does. -/
theorem Reached.extend (hComment : ¬ LeavesComment text rest) {c : Cursor} (h : Reached text c)
    (hc : c.rest ≠ []) : Reached (text ++ rest) (c.extend rest) := by
  have hText := Scan.ne_nil_of_ends hEnd
  induction h with
  | start =>
    have hStart := pastBlanks_extend hEnd hComment (.refl (.start text)) .start
    rw [across, if_neg hc, ← Cursor.start_extend hText] at hStart
    rw [← hStart]
    exact .start
  | @item c e h he ih =>
    have hLeads := (lined_of_mem_readings he).1
    have hNe : c.rest ≠ [] := fun hNil =>
      hc ((hLeads.trans (Lexeme.leads_pastBlanks e.2)).rest_eq_nil hNil)
    have hEnds := (h.ends hEnd).resolve_left hNe
    have hItem := pastBlanks_extend hEnd hComment (h.leads.trans hLeads) (.item h he)
    rw [across, if_neg hc] at hItem
    rw [← hItem]
    refine .item (ih hNe) (e := (e.1, e.2.extend rest)) ?_
    exact Item.mem_readings_extend hEnds h.settled hRest (fun hl => hComment ⟨c, h, hl⟩) he

/-- If no item straddles the seam, the items that begin before it are those of the text. -/
theorem readings_extend (hComment : ¬ LeavesComment text rest) (hSeam : ¬ Straddles text rest)
    {c : Cursor} (h : Reached text c) (hc : c.rest ≠ []) : Item.readings (c.extend rest) =
      (Item.readings c).map fun e => (e.1, e.2.extend rest) := by
  have hEnds := (h.ends hEnd).resolve_left hc
  refine Item.readings_extend hEnds h.settled hRest (fun hl => hComment ⟨c, h, hl⟩)
    fun e he => ?_
  by_contra hLt
  refine hSeam ⟨_, h.extend hEnd hRest hComment hc, ?_, e, he, Nat.lt_of_not_le hLt⟩
  have hPos := Cursor.remaining_pos hc
  rw [Cursor.remaining_extend]
  omega

end Seam

/-! ## Ways to read both texts -/

/-- Ways to read a text and a longer one: the same before the seam, and at the end of the text a
way that goes on behind the seam. -/
inductive WaysAlike (text rest : List Char) : List Progress → List Progress → Prop
  | nil : WaysAlike text rest [] []
  | seam {w : Progress} : w.place.rest = [] →
      WaysAlike text rest [w] [⟨behind text rest, w.declared⟩]
  | inside {w : Progress} {ws ws' : List Progress} : w.place.rest ≠ [] → Reached text w.place →
      WaysAlike text rest ws ws' →
      WaysAlike text rest (w :: ws) (⟨w.place.extend rest, w.declared⟩ :: ws')

namespace WaysAlike

variable {text rest : List Char} {ws ws' : List Progress}

theorem insert (h : WaysAlike text rest ws ws') {c : Cursor} (hc : Reached text c)
    (ds : List Declared) : WaysAlike text rest (insert ⟨c, ds⟩ ws)
      (SourceFile.insert ⟨across text rest c, ds⟩ ws') := by
  have hBehind := remaining_behind_le text rest
  have hExtend := c.remaining_extend rest
  have hAcross := across_cases text rest c
  induction h with
  | nil =>
    rcases hAcross with ⟨hNil, hEq⟩ | ⟨hNe, hEq⟩
    · rw [hEq]
      exact .seam hNil
    · rw [hEq]
      exact .inside hNe hc .nil
  | @seam w hw =>
    have hZero := Cursor.remaining_eq_zero hw
    rcases hAcross with ⟨hNil, hEq⟩ | ⟨hNe, hEq⟩
    · have hc := Cursor.remaining_eq_zero hNil
      rw [hEq, insert_of_eq (hZero.trans hc.symm), insert_of_eq (by rfl)]
      exact .seam hw
    · have hPos := Cursor.remaining_pos hNe
      rw [hEq, insert_of_lt (by dsimp only; omega), insert_of_lt (by dsimp only; omega)]
      exact .inside hNe hc (.seam hw)
  | @inside w ws ws' hw hReached h ih =>
    have hPos := Cursor.remaining_pos hw
    have hPlace := w.place.remaining_extend rest
    rcases hAcross with ⟨hNil, hEq⟩ | ⟨hNe, hEq⟩
    · have hZero := Cursor.remaining_eq_zero hNil
      rw [insert_of_gt (by dsimp only; omega), insert_of_gt (by rw [hEq]; dsimp only; omega)]
      exact .inside hw hReached ih
    · rw [hEq] at ih ⊢
      rcases Nat.lt_trichotomy w.place.remaining c.remaining with hLt | hSame | hGt
      · rw [insert_of_lt hLt, insert_of_lt (by dsimp only; omega)]
        exact .inside hNe hc (.inside hw hReached h)
      · rw [insert_of_eq hSame, insert_of_eq (by dsimp only; omega)]
        exact .inside hw hReached h
      · rw [insert_of_gt hGt, insert_of_gt (by dsimp only; omega)]
        exact .inside hw hReached ih

variable (hEnd : text.getLast? = some '\n') (hRest : rest ≠ [])
  (hComment : ¬ LeavesComment text rest) (hSeam : ¬ Straddles text rest)

include hEnd hRest hComment hSeam

/-- One item more in both texts. -/
theorem goOn {w : Progress} (h : WaysAlike text rest ws ws') (hw : w.place.rest ≠ [])
    (hReached : Reached text w.place) : WaysAlike text rest (goOn w ws)
      (SourceFile.goOn ⟨w.place.extend rest, w.declared⟩ ws') := by
  unfold SourceFile.goOn
  rw [readings_extend hEnd hRest hComment hSeam hReached hw, List.foldl_map]
  apply List.foldl_rel (r := WaysAlike text rest) h
  intro e he ws ws' h
  have hLeads := hReached.leads.trans (lined_of_mem_readings he).1
  have hItem := Reached.item hReached he
  dsimp only
  rw [pastBlanks_extend hEnd hComment hLeads hItem]
  exact h.insert hItem _

/-- Once all of the text has been read, the longer text is read from behind the seam on. -/
theorem items_eq (h : WaysAlike text rest ws ws') {fuel : Nat} {ds : List Declared}
    (hDs : items fuel ws = some ds) :
    ∃ k, ∀ n, items (n + k) ws' = items n [⟨behind text rest, ds⟩] := by
  induction fuel generalizing ws ws' with
  | zero => cases hDs
  | succ fuel ih =>
    cases h with
    | nil => cases hDs
    | @seam w hw =>
      rw [items_cons, if_pos (by rw [hw]; rfl)] at hDs
      cases hDs
      exact ⟨0, fun n => rfl⟩
    | @inside w ws ws' hw hReached h =>
      rw [items_cons, if_neg (by simpa using hw)] at hDs
      obtain ⟨k, hk⟩ := ih (h.goOn hEnd hRest hComment hSeam hw hReached) hDs
      refine ⟨k + 1, fun n => ?_⟩
      have hNe : (w.place.extend rest).rest ≠ [] := List.append_ne_nil_of_left_ne_nil hw rest
      rw [← Nat.add_assoc, items_cons, if_neg (by simpa using hNe)]
      exact hk n

end WaysAlike

/-- After a text that can be read, what comes behind the seam is read as items too. -/
theorem declarations_append {text rest : List Char} (hEnd : text.getLast? = some '\n')
    (hRest : rest ≠ []) (hComment : ¬ LeavesComment text rest) (hSeam : ¬ Straddles text rest)
    {ds : List Declared} (hDs : declarations text = some ds) :
    declarations (text ++ rest) = items (rest.length + 1) [⟨behind text rest, ds⟩] := by
  have hText := Scan.ne_nil_of_ends hEnd
  have hStart := pastBlanks_extend hEnd hComment (.refl (.start text)) .start
  have hAlike : WaysAlike text rest [⟨pastBlanks (.start text), []⟩]
      [⟨pastBlanks (.start (text ++ rest)), []⟩] := by
    rw [Cursor.start_extend hText, hStart]
    exact WaysAlike.nil.insert .start []
  obtain ⟨k, hk⟩ := hAlike.items_eq hEnd hRest hComment hSeam hDs
  have hStartle := Nat.le_trans (Lexeme.leads_pastBlanks _).remaining_le
    (remaining_start_le (text ++ rest))
  have hBehind := remaining_behind_le text rest
  have hLength : (text ++ rest).length = text.length + rest.length := List.length_append
  calc declarations (text ++ rest)
      = items ((text ++ rest).length + 2 + k) [⟨pastBlanks (.start (text ++ rest)), []⟩] :=
        items_fuel_singleton (by dsimp only; omega) (by dsimp only; omega)
    _ = items ((text ++ rest).length + 2) [⟨behind text rest, ds⟩] := hk _
    _ = items (rest.length + 1) [⟨behind text rest, ds⟩] :=
        items_fuel_singleton (by dsimp only; omega) (by dsimp only; omega)

/-! ## Texts without slashes, and items that leave nothing open -/

theorem head_of_closedBy {s rest : List Char} (h : Scan.ClosedBy rest s) : s.head? = some '/' := by
  obtain ⟨hNe, _, hSome⟩ := h
  obtain ⟨c, s, rfl⟩ := List.exists_cons_of_ne_nil hNe
  rw [List.cons_append] at hSome
  unfold Scan.comment at hSome
  split at hSome
  · rename_i hEq
    rw [(List.cons.inj hEq).1]
    rfl
  · rename_i hEq
    rw [(List.cons.inj hEq).1]
    rfl
  · exact (hSome rfl).elim

theorem not_leavesComment {text : List Char} (h : '/' ∉ text) (rest : List Char) :
    ¬ LeavesComment text rest := by
  rintro ⟨c, hc, n, f, fs, hFronts, top, _, hClosed⟩
  have hf := Item.fronts_sound c n f (hFronts ▸ List.mem_cons_self)
  have hLeads := hc.leads.trans (hf.leads.trans (Lexeme.leads_place top.state.wanted f.place))
  have hStart : (Cursor.start text).rest <:+ text := by
    unfold Cursor.start
    split
    · exact List.suffix_cons _ _
    · exact List.suffix_refl _
  exact h ((hLeads.suffix.trans hStart).subset (List.mem_of_mem_head? (head_of_closedBy hClosed)))

section Contained

variable {text rest : List Char} (hEnd : text.getLast? = some '\n') (hRest : rest ≠ [])
  (hComment : ¬ LeavesComment text rest)
  (hContained : ∀ c, Reached text c → c.rest ≠ [] → Item.Contained c)

include hEnd hRest hComment hContained

theorem exists_reached {c : Cursor} (h : Reached (text ++ rest) c)
    (hc : rest.length < c.remaining) :
    ∃ d, Reached text d ∧ d.rest ≠ [] ∧ c = d.extend rest := by
  have hAcross : ∀ d, Reached text d → rest.length < (across text rest d).remaining →
      d.rest ≠ [] ∧ across text rest d = d.extend rest := by
    intro d hd hLt
    apply (across_cases text rest d).resolve_left
    rintro ⟨_, hEq⟩
    have hLe := remaining_behind_le text rest
    rw [hEq] at hLt
    omega
  induction h with
  | start =>
    have hText := Scan.ne_nil_of_ends hEnd
    rw [Cursor.start_extend hText,
      pastBlanks_extend hEnd hComment (.refl (.start text)) .start] at hc ⊢
    obtain ⟨hNe, hEq⟩ := hAcross _ .start hc
    exact ⟨_, .start, hNe, hEq⟩
  | @item c e h he ih =>
    have hLe := ((lined_of_mem_readings he).1.trans (Lexeme.leads_pastBlanks e.2)).remaining_le
    obtain ⟨d, hd, hNe, rfl⟩ := ih (by omega)
    have hEnds := (hd.ends hEnd).resolve_left hNe
    rw [(hContained d hd hNe).readings_extend hEnds hd.settled hRest
      fun hl => hComment ⟨d, hd, hl⟩] at he
    obtain ⟨e', he', rfl⟩ := List.mem_map.mp he
    have hItem := Reached.item hd he'
    dsimp only at hc ⊢
    rw [pastBlanks_extend hEnd hComment (hd.leads.trans (lined_of_mem_readings he').1) hItem]
      at hc ⊢
    obtain ⟨hNe', hEq⟩ := hAcross _ hItem hc
    exact ⟨_, hItem, hNe', hEq⟩

/-- Items that do not come to the end of the text do not straddle the seam. -/
theorem not_straddles : ¬ Straddles text rest := by
  rintro ⟨c, hc, hLt, e, he, hElt⟩
  obtain ⟨d, hd, hNe, rfl⟩ := exists_reached hEnd hRest hComment hContained hc hLt
  have hEnds := (hd.ends hEnd).resolve_left hNe
  rw [(hContained d hd hNe).readings_extend hEnds hd.settled hRest
    fun hl => hComment ⟨d, hd, hl⟩] at he
  obtain ⟨e', _, rfl⟩ := List.mem_map.mp he
  rw [Cursor.remaining_extend] at hElt
  omega

end Contained

theorem Reached.contained {text : List Char} {c : Cursor} (h : Reached text c) {rounds items : Nat}
    (hContains : contains rounds items (pastBlanks (.start text)) = true) (hc : c.rest ≠ []) :
    Item.Contained c := by
  have hChecked {c : Cursor} {items : Nat} (hItems : contains rounds items c = true)
      (hc : c.rest ≠ []) : ∃ items', Item.contains rounds 0 (Item.start c) = true ∧
        ∀ e ∈ Item.readings c, contains rounds items' (pastBlanks e.2) = true := by
    cases items with
    | zero => exact (hc (List.isEmpty_iff.mp hItems)).elim
    | succ items =>
      rcases Bool.or_eq_true_iff.mp hItems with hNil | hItems
      · exact (hc (List.isEmpty_iff.mp hNil)).elim
      · exact ⟨items, (Bool.and_eq_true_iff.mp hItems).imp_right List.all_eq_true.mp⟩
  have hReached : ∃ items, contains rounds items c = true := by
    clear hc
    induction h with
    | start => exact ⟨items, hContains⟩
    | @item c e h he ih =>
      obtain ⟨items', hItems⟩ := ih
      have hNe : c.rest ≠ [] := by
        intro hNil
        have hLt := Item.remaining_lt_of_mem_readings he
        rw [Cursor.remaining, Cursor.remaining, hNil] at hLt
        cases hLt
      obtain ⟨items'', -, hNext⟩ := hChecked hItems hNe
      exact ⟨items'', hNext e he⟩
  obtain ⟨items', hItems⟩ := hReached
  obtain ⟨-, hContains, -⟩ := hChecked hItems hc
  exact Item.contained_of_contains hContains

/-- A text does not straddle the seam if its items leave nothing open. -/
theorem not_straddles_of_contains {text rest : List Char} (rounds items : Nat)
    (hEnd : text.getLast? = some '\n') (hRest : rest ≠ []) (hSlash : '/' ∉ text)
    (hContains : contains rounds items (pastBlanks (.start text)) = true) : ¬ Straddles text rest :=
  not_straddles hEnd hRest (not_leavesComment hSlash rest) fun _ hc => hc.contained hContains

/-! ## Behind a package clause -/

theorem clause_not_straddles {rest : List Char} (hRest : rest ≠ []) :
    ¬ Straddles "package q\n".toList rest :=
  not_straddles_of_contains 10 1 (by decide) hRest (by decide) texts_read.2.1

/-- The declarations behind a text that can be read are those behind a package clause. -/
theorem declarations_behind {text rest : List Char} (hEnd : text.getLast? = some '\n')
    (hRest : rest ≠ []) (hComment : ¬ LeavesComment text rest) (hSeam : ¬ Straddles text rest)
    {ds : List Declared} (hDs : declarations text = some ds) :
    (declarations ("package q\n".toList ++ rest) = none ∧ declarations (text ++ rest) = none) ∨
      ∃ tail, declarations ("package q\n".toList ++ rest) = some (.package ['q'] :: tail) ∧
        declarations (text ++ rest) =
          some (ds ++ tail.map (Declared.lower (text.count '\n' - 1))) := by
  rw [declarations_append hEnd hRest hComment hSeam hDs,
    declarations_append (by decide) hRest (not_leavesComment (by decide) rest)
      (clause_not_straddles hRest) clause_read]
  have hPos : 0 < text.count '\n' := List.count_pos_iff.mpr (List.mem_of_getLast? hEnd)
  have hLine : (finish "package q\n".toList).line = 2 := by
    rw [line_finish]
    decide
  have hPlace : (behind "package q\n".toList rest).Below (text.count '\n' - 1)
      (behind text rest) := by
    refine Lexeme.pastBlanks_below ⟨?_, ?_⟩
    · simp only [Cursor.extend, rest_finish]
    · simp only [Cursor.extend, line_finish text, hLine]
      omega
  have hWays : WayBelow (text.count '\n' - 1) [.package ['q']] ds
      ⟨behind "package q\n".toList rest, [.package ['q']]⟩ ⟨behind text rest, ds⟩ :=
    ⟨hPlace, [], by simp, by simp⟩
  exact items_below (.cons hWays .nil) _

/-- What stands after a text that can be read is read as it is behind a package clause alone, and
so many lines further down, unless an item straddles the seam or only the text after it closes a
comment. -/
theorem parse_append {text rest : List Char} {file : SourceFile} (hFile : parse text = .ok file)
    (hEnd : text.getLast? = some '\n') (hComment : ¬ LeavesComment text rest)
    (hSeam : ¬ Straddles text rest) :
    ((∃ whole, parse (text ++ rest) = .ok whole) ↔
      ∃ tail, parse ("package q\n".toList ++ rest) = .ok tail) ∧
    ∀ tail, parse ("package q\n".toList ++ rest) = .ok tail →
      parse (text ++ rest) = .ok ⟨file.package,
        file.functions ++ tail.functions.map (FunctionSpan.lower (text.count '\n' - 1))⟩ := by
  obtain ⟨ds, hDs, hPackage, hFunctions⟩ := parse_eq_ok.mp hFile
  by_cases hRest : rest = []
  · have hClause : parse "package q\n".toList = .ok ⟨['q'], []⟩ :=
      parse_eq_ok.mpr ⟨_, clause_read, rfl, rfl⟩
    subst hRest
    rw [List.append_nil, List.append_nil, hFile, hClause]
    refine ⟨⟨fun _ => ⟨_, rfl⟩, fun _ => ⟨_, rfl⟩⟩, fun f hf => ?_⟩
    cases hf
    rw [List.map_nil, List.append_nil]
  rcases declarations_behind hEnd hRest hComment hSeam hDs with ⟨hClause, hWhole⟩ |
    ⟨tail, hClause, hWhole⟩
  · refine ⟨⟨?_, ?_⟩, fun f hf => (parse_ne_ok hClause f hf).elim⟩
    · rintro ⟨f, hf⟩
      exact (parse_ne_ok hWhole f hf).elim
    · rintro ⟨f, hf⟩
      exact (parse_ne_ok hClause f hf).elim
  · have hParse : parse (text ++ rest) = .ok ⟨file.package, file.functions ++
        (functionsOf tail).map (FunctionSpan.lower (text.count '\n' - 1))⟩ := by
      refine parse_eq_ok.mpr ⟨_, hWhole, ?_, ?_⟩
      · rw [packageOf, List.findSome?_append, ← packageOf, hPackage, Option.some_or]
      · rw [functionsOf_append, functionsOf_lower, hFunctions]
    have hBehind : parse ("package q\n".toList ++ rest) = .ok ⟨['q'], functionsOf tail⟩ :=
      parse_eq_ok.mpr ⟨_, hClause, rfl, rfl⟩
    refine ⟨⟨fun _ => ⟨_, hBehind⟩, fun _ => ⟨_, hParse⟩⟩, fun f hf => ?_⟩
    rw [hBehind] at hf
    cases hf
    exact hParse

/-- A text of two functions behind a file with another one. -/
theorem parse_append_function :
    parse oneFunction = .ok ⟨['p'], [⟨['a'], 2, 2⟩]⟩ ∧
    oneFunction.getLast? = some '\n' ∧
    ¬ LeavesComment oneFunction functionsAlone ∧
    ¬ Straddles oneFunction functionsAlone ∧
    parse (oneFunction ++ functionsAlone) =
      .ok ⟨['p'], [⟨['a'], 2, 2⟩, ⟨['f'], 3, 3⟩, ⟨['g'], 4, 5⟩]⟩ := by
  have hEnd : oneFunction.getLast? = some '\n' := by decide
  have hComment : ¬ LeavesComment oneFunction functionsAlone :=
    not_leavesComment (by decide) _
  have hSeam : ¬ Straddles oneFunction functionsAlone :=
    not_straddles_of_contains 10 2 hEnd (by decide) (by decide) texts_read.2.2
  exact ⟨parse_oneFunction, hEnd, hComment, hSeam,
    (parse_append parse_oneFunction hEnd hComment hSeam).2 _ parse_twoFunctions⟩

set_option maxRecDepth 100000 in
/-- Neither condition can be left out: a value in braces goes on with the name before it, though
it is no item behind a package clause, and a string behind a division is the end of a comment. -/
theorem append_exceptions :
    ((∃ file, parse "package p\na.b\n".toList = .ok file) ∧
      (∃ whole, parse ("package p\na.b\n".toList ++ "{1,2}\n".toList) = .ok whole) ∧
      ¬ ∃ tail, parse ("package q\n".toList ++ "{1,2}\n".toList) = .ok tail) ∧
    (∃ file, parse "package p\nx = a /* b\n".toList = .ok file) ∧
      (¬ ∃ whole, parse ("package p\nx = a /* b\n".toList ++ "x = \"*/\"\n".toList) =
        .ok whole) ∧
      ∃ tail, parse ("package q\n".toList ++ "x = \"*/\"\n".toList) = .ok tail := by
  obtain ⟨hName, hValue, hBraces⟩ : declarations "package p\na.b\n".toList =
        some [.package ['p']] ∧
      declarations ("package p\na.b\n".toList ++ "{1,2}\n".toList) =
        some [.package ['p']] ∧
      declarations ("package q\n".toList ++ "{1,2}\n".toList) = none := by decide +kernel
  obtain ⟨hDivision, hComment, hString⟩ : declarations "package p\nx = a /* b\n".toList =
        some [.package ['p']] ∧
      declarations ("package p\nx = a /* b\n".toList ++ "x = \"*/\"\n".toList) = none ∧
      declarations ("package q\n".toList ++ "x = \"*/\"\n".toList) =
        some [.package ['q']] := by decide +kernel
  have hOk : ∀ {text : List Char} {name : List Char},
      declarations text = some [.package name] → ∃ file, parse text = .ok file :=
    fun h => ⟨⟨_, []⟩, parse_eq_ok.mpr ⟨_, h, rfl, rfl⟩⟩
  exact ⟨⟨hOk hName, hOk hValue, fun ⟨f, hf⟩ => parse_ne_ok hBraces f hf⟩, hOk hDivision,
    fun ⟨f, hf⟩ => parse_ne_ok hComment f hf, hOk hString⟩

end SourceFile

end FuncSpans.Go
