import FuncSpans.Proofs.Go.Extension
import FuncSpans.Proofs.Go.Rounds

/-!
# Items of a text that goes on

An item is followed in a text and in a longer one side by side (`Front.Alike`). Before the seam,
where the new text begins, the readings are the same; at the seam the same items are whole. So an
item of the longer text ends where it does in the shorter one, or behind the seam
(`Item.readings_extend`).
-/

namespace FuncSpans.Go

/-! ## States at the end of a text -/

namespace State

/-- Neither a line feed nor the end of the text can come next. -/
structure Shut (s : State) : Prop where
  newline_eq : s.wanted.contains .newline = false
  endOfFile_eq : s.wanted.contains .endOfFile = false

theorem Reached.shut_after {s : State} (h : s.Reached) {t : Token}
    (ht : Grammar.endsLine t = true) : (s.advance (.token t)).Shut :=
  ⟨h.closed_after ht rfl, h.closed_after ht rfl⟩

set_option maxRecDepth 100000 in
theorem getLast_item_ne_raw : ∀ r ∈ Grammar.productionsOf .item,
    r.symbols.getLast? ≠ some (.token .rawContent) := by
  have h : (Grammar.productionsOf .item).all
      (fun r => r.symbols.getLast? != some (.token .rawContent)) = true := by decide +kernel
  intro r hr
  simpa using List.all_eq_true.mp h r hr

/-- No item ends with the content of a raw string. -/
theorem Reached.not_whole_after_raw {s : State} (h : s.Reached) :
    (s.advance (.token .rawContent)).isWhole = false := by
  rw [isWhole, List.any_eq_false]
  intro i hi hEnds
  simp only [Item.endsItem, Bool.and_eq_true, decide_eq_true_eq, List.isEmpty_iff] at hEnds
  obtain ⟨done, hs⟩ := h.symbols_eq hi
  have hMem := ((h.advance _).item hi).mem
  rw [hEnds.1] at hMem
  apply getLast_item_ne_raw _ hMem
  rw [hs, hEnds.2, List.getLast?_concat]

end State

/-! ## Fronts in both texts -/

namespace Front

/-- The front in the text that goes on. -/
def extend (rest : List Char) (f : Front) : Front := { f with place := f.place.extend rest }

/-- A front in the text before its end. -/
structure Inside (f : Front) : Prop where
  ends : f.place.Ends
  tops : ∀ top ∈ f.tops, top.state.Reached ∧ Lexeme.Closes top.state.wanted f.place

/-- The readings at fronts at the end of a text, where no token is left. -/
structure AtEnd (fs : List Front) : Prop where
  place : ∀ f ∈ fs, f.place.rest = []
  tops : ∀ f ∈ fs, ∀ top ∈ f.tops, top.state.Reached ∧ top.state.Shut

/-- The readings at and behind the seam. -/
structure Beyond (rest : List Char) (fs : List Front) : Prop where
  place : ∀ f ∈ fs, f.place.remaining ≤ rest.length
  tops : ∀ f ∈ fs, ∀ top ∈ f.tops, top.state.Reached

/-- Fronts of a text and of a longer one: they are the same before the seam, and the same readings
are whole at the seam. -/
inductive Alike (rest : List Char) : List Front → List Front → Prop
  | inside {f : Front} {fs fs' : List Front} : f.Inside → Alike rest fs fs' →
      Alike rest (f :: fs) (f.extend rest :: fs')
  | seam {fs fs' : List Front} : AtEnd fs → Beyond rest fs' →
      Head.wholes (topsAt rest.length fs') = Head.wholes (topsAt 0 fs) → Alike rest fs fs'

namespace Alike

variable {rest : List Char} {fs fs' : List Front} {c : Cursor} {still : Bool} {s : State}
  {link : Part × Stack}

theorem forall_topsAt {P : State → Prop} {n : Nat} (h : ∀ f ∈ fs, ∀ top ∈ f.tops, P top.state) :
    ∀ top ∈ topsAt n fs, P top.state := by
  cases fs with
  | nil => simp [topsAt]
  | cons f fs =>
    by_cases hf : f.place.remaining = n
    · rw [topsAt_of_eq hf]
      exact h f List.mem_cons_self
    · rw [topsAt_of_ne hf]
      simp

/-- A reading behind the seam, or one that is not whole, does not change what is whole there. -/
theorem wholes_insert {n : Nat} (hs : s.Reached) (hLe : ∀ f ∈ fs, f.place.remaining ≤ n)
    (hReached : ∀ f ∈ fs, ∀ top ∈ f.tops, top.state.Reached)
    (hc : c.remaining < n ∨ s.isWhole = false ∧ c.remaining ≤ n) :
    Head.wholes (topsAt n (insert c still s link fs)) = Head.wholes (topsAt n fs) := by
  by_cases hLt : c.remaining < n
  · rw [topsAt_insert_of_lt hLt]
  · obtain ⟨hWhole, hCle⟩ := hc.resolve_left hLt
    rw [topsAt_insert (Nat.le_antisymm hCle (Nat.le_of_not_lt hLt)) hLe]
    exact Head.wholes_add_of_not_whole hs (forall_topsAt hReached) hWhole

theorem atEnd_insert (h : AtEnd fs) (hs : s.Reached) (hShut : s.Shut) (hc : c.rest = []) :
    AtEnd (insert c still s link fs) :=
  ⟨forall_insert (P := fun d _ => d.rest = []) hc h.place,
    forall_tops_insert (P := fun s => s.Reached ∧ s.Shut) ⟨hs, hShut⟩ h.tops⟩

theorem beyond_insert (h : Beyond rest fs) (hs : s.Reached) (hc : c.remaining ≤ rest.length) :
    Beyond rest (insert c still s link fs) :=
  ⟨forall_insert (P := fun d _ => d.remaining ≤ rest.length) hc h.place,
    forall_tops_insert hs h.tops⟩

/-- A reading that comes to a place in both texts. -/
theorem insert_both (h : Alike rest fs fs') (hs : s.Reached)
    (hc : c.Ends ∧ (s.wanted.contains .endOfFile = true → s.wanted.contains .newline = true) ∨
      c.rest = [] ∧ s.Shut) :
    Alike rest (insert c still s link fs) (insert (c.extend rest) still s link fs') := by
  have hExtend : (c.extend rest).remaining = c.remaining + rest.length := c.remaining_extend rest
  induction h with
  | @inside f fs fs' hf h ih =>
    have hPos := Cursor.remaining_pos hf.ends.rest_ne
    have hPlace : (f.extend rest).place.remaining = f.place.remaining + rest.length :=
      f.place.remaining_extend rest
    rcases Nat.lt_trichotomy f.place.remaining c.remaining with hLt | hEq | hGt
    · rw [insert_of_lt hLt, insert_of_lt (by omega)]
      rcases hc with ⟨hEnds, hCloses⟩ | ⟨hNil, _⟩
      · exact .inside ⟨hEnds, by simpa using ⟨hs, fun _ => hCloses⟩⟩ (.inside hf h)
      · rw [Cursor.remaining, Cursor.remaining, hNil] at hLt
        cases hLt
    · rw [insert_of_eq hEq, insert_of_eq (by omega)]
      rcases hc with ⟨_, hCloses⟩ | ⟨hNil, _⟩
      · refine .inside (f := ⟨f.place, f.still, _⟩) ⟨hf.ends, ?_⟩ h
        exact Head.forall_add (P := fun s => s.Reached ∧ Lexeme.Closes s.wanted f.place)
          ⟨hs, fun _ => hCloses⟩ hf.tops
      · rw [hEq, Cursor.remaining, hNil] at hPos
        cases hPos
    · rw [insert_of_gt hGt, insert_of_gt (by omega)]
      exact .inside hf ih
  | @seam fs fs' hEnd hBeyond hWholes =>
    have hZero : ∀ f ∈ fs, f.place.remaining = 0 := fun f hf =>
      Cursor.remaining_eq_zero (hEnd.place f hf)
    rcases hc with ⟨hEnds, hCloses⟩ | ⟨hNil, hShut⟩
    · have hPos := Cursor.remaining_pos hEnds.rest_ne
      rw [insert_of_forall_lt fun f hf => ?_, insert_of_forall_lt fun f hf => ?_]
      · exact .inside ⟨hEnds, by simpa using ⟨hs, fun _ => hCloses⟩⟩ (.seam hEnd hBeyond hWholes)
      · have hLe := hBeyond.place f hf
        omega
      · have hLe := hZero f hf
        omega
    · have hc := Cursor.remaining_eq_zero hNil
      rw [hc, Nat.zero_add] at hExtend
      refine .seam (atEnd_insert hEnd hs hShut hNil) (beyond_insert hBeyond hs hExtend.le) ?_
      have hLe : ∀ f ∈ fs, f.place.remaining ≤ 0 := fun f hf => (hZero f hf).le
      have hReached : ∀ f ∈ fs, ∀ top ∈ f.tops, top.state.Reached := fun f hf top hTop =>
        (hEnd.tops f hf top hTop).1
      cases hw : s.isWhole with
      | true =>
        rw [topsAt_insert hExtend hBeyond.place, topsAt_insert hc hLe,
          Head.wholes_add hs (forall_topsAt hBeyond.tops) hw,
          Head.wholes_add hs (forall_topsAt hReached) hw, hWholes]
      | false =>
        rw [wholes_insert hs hBeyond.place hBeyond.tops (Or.inr ⟨hw, hExtend.le⟩),
          wholes_insert hs hLe hReached (Or.inr ⟨hw, hc.le⟩), hWholes]

/-- A reading that comes to the end of the shorter text with the content of a raw string. -/
theorem insert_left (h : Alike rest fs fs') (hs : s.Reached) (hShut : s.Shut)
    (hw : s.isWhole = false) (hc : c.rest = []) : Alike rest (insert c still s link fs) fs' := by
  have hZero := Cursor.remaining_eq_zero hc
  induction h with
  | @inside f fs fs' hf h ih =>
    have hPos := Cursor.remaining_pos hf.ends.rest_ne
    rw [insert_of_gt (by omega)]
    exact .inside hf ih
  | @seam fs fs' hEnd hBeyond hWholes =>
    refine .seam (atEnd_insert hEnd hs hShut hc) hBeyond ?_
    rw [wholes_insert hs (fun f hf => (Cursor.remaining_eq_zero (hEnd.place f hf)).le)
      (fun f hf top hTop => (hEnd.tops f hf top hTop).1) (Or.inr ⟨hw, hZero.le⟩), hWholes]

/-- A reading that comes to a place behind the seam of the longer text. -/
theorem insert_right (h : Alike rest fs fs') (hs : s.Reached)
    (hc : c.remaining < rest.length ∨ s.isWhole = false ∧ c.remaining ≤ rest.length) :
    Alike rest fs (insert c still s link fs') := by
  have hLe : c.remaining ≤ rest.length := hc.elim Nat.le_of_lt fun h => h.2
  induction h with
  | @inside f fs fs' hf h ih =>
    have hPos := Cursor.remaining_pos hf.ends.rest_ne
    have hPlace : (f.extend rest).place.remaining = f.place.remaining + rest.length :=
      f.place.remaining_extend rest
    rw [insert_of_gt (by omega)]
    exact .inside hf ih
  | @seam fs fs' hEnd hBeyond hWholes =>
    refine .seam hEnd (beyond_insert hBeyond hs hLe) ?_
    rw [wholes_insert hs hBeyond.place hBeyond.tops hc, hWholes]

/-! ### Steps -/

/-- A token that is not read, or that is the content of a raw string up to the end of the text. -/
theorem step_left {f : Front} {top : Head} {lo hi round : Nat} (h : Alike rest fs fs')
    (hTop : top.Sound lo hi) (hRead : ∀ l, Lexeme.read top.state.wanted f.place = some l →
      l.token = .rawContent ∧ l.next.rest = []) : Alike rest (step round f fs top) fs' := by
  unfold step
  split
  · exact h
  · rename_i l hl
    obtain ⟨hToken, hNext⟩ := hRead l hl
    split
    · exact h
    · apply List.foldlRecOn (motive := fun fs : List Front => Alike rest fs fs') _ _ h
      intro fs hFs head hHead
      have hReached := (Head.before_sound hTop head hHead).reached
      unfold shift
      rw [hToken]
      split
      · exact hFs.insert_left (hReached.advance _) (hReached.shut_after rfl)
          hReached.not_whole_after_raw hNext
      · exact hFs

/-- A token that crosses the seam. -/
theorem step_right {f : Front} {top : Head} {lo hi round : Nat} (h : Alike rest fs fs')
    (hTop : top.Sound lo hi) (hRead : ∀ l, Lexeme.read top.state.wanted f.place = some l →
      l.Crosses rest) : Alike rest fs (step round f fs' top) := by
  unfold step
  split
  · exact h
  · rename_i l hl
    have hCross := hRead l hl
    split
    · exact h
    · apply List.foldlRecOn (motive := fun fs' : List Front => Alike rest fs fs') _ _ h
      intro fs' hFs' head hHead
      have hReached := (Head.before_sound hTop head hHead).reached
      unfold shift
      split
      · refine hFs'.insert_right (hReached.advance _) (hCross.imp_right fun ⟨hToken, hLe⟩ => ?_)
        rw [hToken]
        exact ⟨hReached.not_whole_after_raw, hLe⟩
      · exact hFs'

/-- A token that is read in both texts. -/
theorem step_both {f : Front} {top : Head} {lo hi round : Nat} (h : Alike rest fs fs')
    (hf : f.Inside) (hTop : top.Sound lo hi) (hMem : top ∈ f.tops)
    (hRead : Lexeme.read top.state.wanted (f.place.extend rest) =
      (Lexeme.read top.state.wanted f.place).map (Lexeme.extend rest)) :
    Alike rest (step round f fs top) (step round (f.extend rest) fs' top) := by
  have hRead' : Lexeme.read top.state.wanted (f.extend rest).place =
      (Lexeme.read top.state.wanted f.place).map (Lexeme.extend rest) := hRead
  unfold step
  rw [hRead']
  cases hl : Lexeme.read top.state.wanted f.place with
  | none => exact h
  | some l =>
    dsimp only [Option.map_some]
    have hStill : ((f.extend rest).still && (l.extend rest).text.isEmpty) =
        (f.still && l.text.isEmpty) := rfl
    rw [hStill]
    split
    · exact h
    · apply List.foldl_rel (r := Alike rest) h
      intro head hHead fs fs' hFs
      have hReached := (Head.before_sound hTop head hHead).reached
      have hToken : (l.extend rest).token = l.token := rfl
      unfold shift
      rw [hToken]
      split
      · apply hFs.insert_both (hReached.advance _)
        rcases hf.ends.leads (Lexeme.leads_next hl) with hNil | hEnds
        · right
          have hLine := Lexeme.endsLine_of_end hf.ends (hf.tops top hMem).2 hl hNil
          exact ⟨hNil, hReached.shut_after hLine⟩
        · exact Or.inl ⟨hEnds, hReached.newline_of_endOfFile⟩
      · exact hFs

/-- One round before the seam. -/
theorem advance_inside {f : Front} {lo hi round : Nat} (h : Alike rest fs fs') (hRest : rest ≠ [])
    (hf : f.Inside) (hTops : ∀ top ∈ f.tops, top.Sound lo hi)
    (hClosed : ∀ top ∈ f.going,
      ¬ Scan.ClosedBy rest (Lexeme.place top.state.wanted f.place).2.rest) :
    Alike rest (advance round (f :: fs)) (advance round (f.extend rest :: fs')) := by
  apply List.foldl_rel (r := Alike rest) h
  intro top hGoing fs fs' hFs
  have hMem : top ∈ f.tops := List.mem_of_mem_filter hGoing
  have hSound := hTops top hMem
  rcases Lexeme.read_extend hf.ends hRest (hClosed top hGoing) (hf.tops top hMem).2 with
    hSame | ⟨hLeft, hRight⟩
  · exact hFs.step_both hf hSound hMem hSame
  · exact (hFs.step_left hSound hLeft).step_right hSound hRight

/-- A front where a token is read stands before the end of the text. -/
theorem inside_of_read {f : Front} (h : Alike rest (f :: fs) fs') {top : Head}
    (hTop : top ∈ f.tops) {l : Lexeme}
    (hl : Lexeme.read top.state.wanted f.place = some l) : f.Inside := by
  cases h with
  | inside hf _ => exact hf
  | seam hEnd _ _ =>
    have hShut := (hEnd.tops f List.mem_cons_self top hTop).2
    have hSkips := Lexeme.skips_place top.state.wanted f.place
    have hNil := hSkips.leads.rest_eq_nil (hEnd.place f List.mem_cons_self)
    rw [Lexeme.read_nil hSkips hNil hShut.newline_eq hShut.endOfFile_eq] at hl
    cases hl

/-- No token is read at the end of a text. -/
theorem advance_atEnd {round : Nat} (h : AtEnd fs) (hFs : Ordered fs) : advance round fs = [] := by
  cases fs with
  | nil => rfl
  | cons f fs =>
    have hNil := h.place f List.mem_cons_self
    have hZero := Cursor.remaining_eq_zero hNil
    cases fs with
    | nil =>
      apply List.foldlRecOn (motive := fun fs : List Front => fs = []) _ _ rfl
      intro fs hFs top hTop
      have hShut := (h.tops f List.mem_cons_self top (List.mem_of_mem_filter hTop)).2
      have hSkips := Lexeme.skips_place top.state.wanted f.place
      have hEnd := hSkips.leads.rest_eq_nil hNil
      rw [step, Lexeme.read_nil hSkips hEnd hShut.newline_eq hShut.endOfFile_eq]
      exact hFs
    | cons g fs =>
      have hLt := (List.pairwise_cons.mp hFs).1 g List.mem_cons_self
      omega

/-- One round at or behind the seam. -/
theorem advance_beyond {round : Nat} (hRest : rest ≠ []) (h : Beyond rest fs) (hFs : Ordered fs)
    {d : Cursor} (hSound : ∀ f ∈ fs, f.Sound d) : Alike rest [] (advance round fs) := by
  cases fs with
  | nil => exact .seam ⟨by simp, by simp⟩ ⟨by simp [advance], by simp [advance]⟩ rfl
  | cons f fs =>
    have hLt := (List.pairwise_cons.mp hFs).1
    have hLe := h.place f List.mem_cons_self
    have hBeyond : Beyond rest fs := by
      refine ⟨fun g hg => h.place g (List.mem_cons_of_mem _ hg), fun g hg => ?_⟩
      exact h.tops g (List.mem_cons_of_mem _ hg)
    have hWholes : Head.wholes (topsAt rest.length fs) = Head.wholes (topsAt 0 []) := by
      cases fs with
      | nil => rfl
      | cons g fs =>
        have hg := hLt g List.mem_cons_self
        rw [topsAt_of_ne (by omega)]
        rfl
    apply List.foldlRecOn (motive := Alike rest []) _ _
      (.seam ⟨by simp, by simp⟩ hBeyond hWholes)
    intro fs hFs top hTop
    have hMem : top ∈ f.tops := List.mem_of_mem_filter hTop
    apply hFs.step_right ((hSound f List.mem_cons_self).tops top hMem)
    intro l hl
    refine Lexeme.crosses_of_place ?_ hRest hl
    exact Nat.le_trans (Lexeme.leads_place _ _).remaining_le hLe

theorem ends_eq (f : Front) :
    f.ends = (((Head.wholes f.tops).filterMap Head.whole?).take 1).map (·, f.place) := by
  rw [Head.filterMap_wholes]
  rfl

theorem ends_eq_nil {f : Front} (h : Head.wholes f.tops = []) : f.ends = [] := by
  rw [ends_eq, h]
  rfl

/-- The ends of an item in the longer text: those in the shorter one, or others behind the seam. -/
theorem firstEnds_eq (h : Alike rest fs fs') (hPlace : ∀ f ∈ fs, ∀ f' ∈ fs',
      f'.place.remaining = rest.length → f.place.rest = [] → f'.place = f.place.extend rest) :
    ∃ beyond, firstEnds fs' =
        (firstEnds fs).map (fun e => (e.1, e.2.extend rest)) ++ beyond ∧
      ∀ e ∈ beyond, e.2.remaining < rest.length := by
  cases h with
  | @inside f fs fs' hf h =>
    refine ⟨[], ?_, by simp⟩
    rw [List.append_nil, firstEnds, firstEnds, ends, ends, List.map_map]
    rfl
  | seam hEnd hBeyond hWholes =>
    have hNone : Head.wholes (topsAt 0 fs) = [] → firstEnds fs = [] := by
      intro h
      cases fs with
      | nil => rfl
      | cons f fs =>
        have hZero := Cursor.remaining_eq_zero (hEnd.place f List.mem_cons_self)
        rw [topsAt_of_eq hZero] at h
        exact ends_eq_nil h
    cases fs' with
    | nil =>
      rw [hNone hWholes.symm]
      exact ⟨[], rfl, by simp⟩
    | cons f' fs' =>
      rcases Nat.lt_or_eq_of_le (hBeyond.place f' List.mem_cons_self) with hLt | hEq
      · rw [topsAt_of_ne (Nat.ne_of_lt hLt)] at hWholes
        rw [hNone hWholes.symm]
        refine ⟨f'.ends, rfl, fun e he => ?_⟩
        obtain ⟨d, _, rfl⟩ := List.mem_map.mp he
        exact hLt
      · refine ⟨[], ?_, by simp⟩
        rw [topsAt_of_eq hEq] at hWholes
        rw [List.append_nil]
        cases fs with
        | nil => exact ends_eq_nil hWholes
        | cons f fs =>
          have hNil := hEnd.place f List.mem_cons_self
          rw [topsAt_of_eq (Cursor.remaining_eq_zero hNil)] at hWholes
          rw [firstEnds, firstEnds, ends_eq, ends_eq, hWholes, List.map_map,
            hPlace f List.mem_cons_self f' List.mem_cons_self hEq hNil]
          rfl

end Alike

end Front

/-! ## Items -/

namespace Item

variable {c : Cursor} {rest : List Char}

/-- Only the new text closes a comment in front of which a token of an item is looked for. -/
def LeavesComment (rest : List Char) (c : Cursor) : Prop :=
  ∃ n f fs, fronts c n = f :: fs ∧ ∃ top ∈ f.going,
    Scan.ClosedBy rest (Lexeme.place top.state.wanted f.place).2.rest

theorem not_closedBy (h : ¬ LeavesComment rest c) {n : Nat} {f : Front} {fs : List Front}
    (hFronts : fronts c n = f :: fs) {top : Head} (hTop : top ∈ f.going) :
    ¬ Scan.ClosedBy rest (Lexeme.place top.state.wanted f.place).2.rest := by
  intro hClosed
  exact h ⟨n, f, fs, hFronts, top, hTop, hClosed⟩

/-- The fronts of an item in both texts. -/
theorem fronts_alike (hc : c.Ends) (hSettled : Lexeme.Settled c) (hRest : rest ≠ [])
    (hComment : ¬ LeavesComment rest c) (n : Nat) :
    Front.Alike rest (fronts c n) (fronts (c.extend rest) n) := by
  induction n with
  | zero =>
    have hStart : Front.Inside ⟨c, true, [⟨.start, []⟩]⟩ := by
      refine ⟨hc, List.forall_mem_singleton.mpr ⟨.start, fun hNil => ?_⟩⟩
      rw [hSettled.place_eq] at hNil
      exact (hc.rest_ne hNil).elim
    exact .inside hStart (.seam ⟨by simp, by simp⟩ ⟨by simp, by simp⟩ rfl)
  | succ n ih =>
    have hSound := fronts_sound c n
    have hSound' := fronts_sound (c.extend rest) n
    have hOrdered := fronts_ordered c n
    have hOrdered' := fronts_ordered (c.extend rest) n
    have hClosed : ∀ f fs, fronts c n = f :: fs → ∀ top ∈ f.going,
        ¬ Scan.ClosedBy rest (Lexeme.place top.state.wanted f.place).2.rest :=
      fun f fs hFronts top hTop => not_closedBy hComment hFronts hTop
    rw [fronts, fronts]
    generalize fronts c n = fs at *
    generalize fronts (c.extend rest) n = fs' at *
    cases ih with
    | @inside f fs fs' hf h =>
      exact h.advance_inside hRest hf (hSound f List.mem_cons_self).tops (hClosed f fs rfl)
    | seam hEnd hBeyond _ =>
      rw [Front.Alike.advance_atEnd hEnd hOrdered]
      exact Front.Alike.advance_beyond hRest hBeyond hOrdered' hSound'

theorem firstEnds_extend (hc : c.Ends) (hSettled : Lexeme.Settled c) (hRest : rest ≠ [])
    (hComment : ¬ LeavesComment rest c) (n : Nat) :
    ∃ beyond, Front.firstEnds (fronts (c.extend rest) n) =
        (Front.firstEnds (fronts c n)).map (fun e => (e.1, e.2.extend rest)) ++ beyond ∧
      ∀ e ∈ beyond, e.2.remaining < rest.length := by
  apply (fronts_alike hc hSettled hRest hComment n).firstEnds_eq
  intro f hf f' hf' hEq hNil
  obtain ⟨k, hk, hPlace⟩ := (fronts_sound c n f hf).leads.exists_le
  refine (fronts_sound _ n f' hf').leads.eq_of_remaining ⟨k, ?_⟩ ?_
  · rw [Cursor.skip_extend hk, hPlace]
  · rw [hEq, Cursor.remaining_extend, Cursor.remaining, hNil, List.length_nil, Nat.zero_add]

/-- The readings of an item in the shorter text, with the rounds of the longer one. -/
theorem readings_eq_extend (c : Cursor) (rest : List Char) : readings c =
    (List.range (2 * (c.extend rest).remaining + 2)).flatMap fun n =>
      Front.firstEnds (fronts c n) := by
  apply readings_eq_of_lt
  rw [Cursor.remaining_extend]
  omega

/-- An item of the shorter text is one of the longer text. -/
theorem mem_readings_extend (hc : c.Ends) (hSettled : Lexeme.Settled c) (hRest : rest ≠ [])
    (hComment : ¬ LeavesComment rest c) {e : Option Declared × Cursor} (he : e ∈ readings c) :
    (e.1, e.2.extend rest) ∈ readings (c.extend rest) := by
  rw [readings_eq_extend c rest] at he
  obtain ⟨n, hn, he⟩ := List.mem_flatMap.mp he
  obtain ⟨beyond, hEnds, _⟩ := firstEnds_extend hc hSettled hRest hComment n
  rw [readings_eq]
  refine List.mem_flatMap.mpr ⟨n, hn, ?_⟩
  rw [hEnds]
  exact List.mem_append_left _ (List.mem_map_of_mem he)

/-- If no reading of an item ends behind the seam, its readings are those of the shorter text. -/
theorem readings_extend (hc : c.Ends) (hSettled : Lexeme.Settled c) (hRest : rest ≠ [])
    (hComment : ¬ LeavesComment rest c)
    (hSeam : ∀ e ∈ readings (c.extend rest), rest.length ≤ e.2.remaining) :
    readings (c.extend rest) = (readings c).map fun e => (e.1, e.2.extend rest) := by
  rw [readings_eq] at hSeam ⊢
  rw [readings_eq_extend c rest, List.map_flatMap]
  apply List.flatMap_congr
  intro n hn
  obtain ⟨beyond, hEnds, hLt⟩ := firstEnds_extend hc hSettled hRest hComment n
  have hNil : beyond = [] := by
    apply List.eq_nil_iff_forall_not_mem.mpr
    intro e he
    have hLe := hSeam e (List.mem_flatMap.mpr ⟨n, hn, hEnds ▸ List.mem_append_right _ he⟩)
    have hLt := hLt e he
    omega
  rw [hEnds, hNil, List.append_nil]

/-! ### Items that do not come to the end of the text -/

/-- Every reading of an item that goes on comes to a token in the text, and to no content of a raw
string. -/
def Contained (c : Cursor) : Prop :=
  ∀ n f fs, fronts c n = f :: fs → ∀ top ∈ f.going,
    ∃ l, Lexeme.read top.state.wanted f.place = some l ∧ l.token ≠ .rawContent

/-- Checks the readings from the leftmost front on. -/
def contains : Nat → Nat → List Front → Bool
  | _, _, [] => true
  | 0, _, _ :: _ => false
  | fuel + 1, round, f :: fs =>
    f.going.all (fun top => match Lexeme.read top.state.wanted f.place with
      | some l => l.token != .rawContent
      | none => false) &&
    contains fuel (round + 1) (Front.advance round (f :: fs))

theorem contained_of_contains {fuel : Nat} (h : contains fuel 0 (start c) = true) :
    Contained c := by
  have hAux : ∀ m fuel n, contains fuel n (fronts c n) = true → ∀ f fs,
      fronts c (n + m) = f :: fs → ∀ top ∈ f.going,
        ∃ l, Lexeme.read top.state.wanted f.place = some l ∧ l.token ≠ .rawContent := by
    intro m
    induction m with
    | zero =>
      intro fuel n h f fs hFronts top hTop
      rw [Nat.add_zero] at hFronts
      rw [hFronts] at h
      cases fuel with
      | zero => cases h
      | succ fuel =>
        have hRead := List.all_eq_true.mp (Bool.and_eq_true_iff.mp h).1 top hTop
        split at hRead
        · rename_i l hl
          exact ⟨l, hl, by simpa using hRead⟩
        · cases hRead
    | succ m ih =>
      intro fuel n h f fs hFronts
      cases hn : fronts c n with
      | nil =>
        rw [fronts_eq_nil hn] at hFronts
        cases hFronts
      | cons g gs =>
        rw [hn] at h
        cases fuel with
        | zero => cases h
        | succ fuel =>
          have hNext := (Bool.and_eq_true_iff.mp h).2
          rw [← hn] at hNext
          apply ih fuel (n + 1) hNext f fs
          rw [← hFronts]
          congr 1
          omega
  intro n f fs hFronts
  exact hAux n fuel 0 h f fs (by rw [Nat.zero_add, hFronts])

end Item

namespace Front

variable {rest : List Char} {fs : List Front}

theorem insert_extend (c : Cursor) (still : Bool) (s : State) (link : Part × Stack) :
    insert (c.extend rest) still s link (fs.map (extend rest)) =
      (insert c still s link fs).map (extend rest) := by
  have hc := c.remaining_extend rest
  induction fs with
  | nil => rfl
  | cons f fs ih =>
    have hf : (f.extend rest).place.remaining = f.place.remaining + rest.length :=
      f.place.remaining_extend rest
    rw [List.map_cons]
    rcases Nat.lt_trichotomy f.place.remaining c.remaining with hLt | hEq | hGt
    · rw [insert_of_lt hLt, insert_of_lt (by omega)]
      rfl
    · rw [insert_of_eq hEq, insert_of_eq (by omega)]
      rfl
    · rw [insert_of_gt hGt, insert_of_gt (by omega), ih]
      rfl

theorem step_extend {f : Front} {top : Head} (round : Nat)
    (h : Lexeme.read top.state.wanted (f.extend rest).place =
      (Lexeme.read top.state.wanted f.place).map (Lexeme.extend rest)) :
    step round (f.extend rest) (fs.map (extend rest)) top =
      (step round f fs top).map (extend rest) := by
  unfold step
  rw [h]
  cases Lexeme.read top.state.wanted f.place with
  | none => rfl
  | some l =>
    dsimp only [Option.map_some]
    have hStill : ((f.extend rest).still && (l.extend rest).text.isEmpty) =
        (f.still && l.text.isEmpty) := rfl
    rw [hStill]
    split
    · rfl
    · apply List.foldl_rel (r := fun gs fs : List Front => gs = fs.map (extend rest)) rfl
      intro head _ gs fs hFs
      have hToken : (l.extend rest).token = l.token := rfl
      unfold shift
      rw [hFs, hToken]
      split
      · exact insert_extend ..
      · rfl

end Front

namespace Item

variable {c : Cursor} {rest : List Char}

/-- An item that does not come to the end of the text is the same in the longer one. -/
theorem Contained.fronts_extend (h : Contained c) (hc : c.Ends) (hSettled : Lexeme.Settled c)
    (hRest : rest ≠ []) (hComment : ¬ LeavesComment rest c) (n : Nat) :
    fronts (c.extend rest) n = (fronts c n).map (Front.extend rest) := by
  induction n with
  | zero => rfl
  | succ n ih =>
    have hAlike := fronts_alike hc hSettled hRest hComment n
    have hRead := h n
    rw [fronts, fronts, ih]
    rw [ih] at hAlike
    cases hFronts : fronts c n with
    | nil => rfl
    | cons f fs =>
      rw [hFronts] at hAlike
      apply List.foldl_rel (r := fun gs fs : List Front => gs = fs.map (Front.extend rest)) rfl
      intro top hTop gs fs' hFs
      obtain ⟨l, hl, hRaw⟩ := hRead f fs hFronts top hTop
      have hf := hAlike.inside_of_read (List.mem_of_mem_filter hTop) hl
      rw [hFs]
      apply Front.step_extend n
      rcases Lexeme.read_extend hf.ends hRest (not_closedBy hComment hFronts hTop)
        (hf.tops top (List.mem_of_mem_filter hTop)).2 with hSame | ⟨hLeft, _⟩
      · exact hSame
      · exact (hRaw (hLeft l hl).1).elim

/-- The readings of an item that does not come to the end of the text. -/
theorem Contained.readings_extend (h : Contained c) (hc : c.Ends) (hSettled : Lexeme.Settled c)
    (hRest : rest ≠ []) (hComment : ¬ LeavesComment rest c) :
    readings (c.extend rest) = (readings c).map fun e => (e.1, e.2.extend rest) := by
  rw [readings_eq, readings_eq_extend c rest, List.map_flatMap]
  apply List.flatMap_congr
  intro n _
  rw [h.fronts_extend hc hSettled hRest hComment]
  cases fronts c n with
  | nil => rfl
  | cons f fs =>
    rw [List.map_cons, Front.firstEnds, Front.firstEnds, Front.ends, Front.ends, List.map_map]
    rfl

end Item

end FuncSpans.Go
