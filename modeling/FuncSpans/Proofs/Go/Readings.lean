import FuncSpans.Proofs.Go.Stack

/-!
# The rounds of an item

`Item.fronts` are the fronts after a number of rounds, and `Item.readings_eq` says that the ends
of an item are those met at the leftmost fronts. All fronts are sound (`Item.fronts_sound`): they
come after the start of the item, and so do the parts on their stacks.
-/

namespace FuncSpans.Go

/-! ## Fronts -/

namespace Front

/-- A front on the way from a place, with sound readings. -/
structure Sound (c : Cursor) (f : Front) : Prop where
  leads : c.Leads f.place
  tops : ∀ top ∈ f.tops, top.Sound c.line f.place.line

variable {c d : Cursor}

theorem insert_sound (hd : c.Leads d) {still : Bool} {s : State} {link : Part × Stack}
    (hLink : Head.Sound c.line d.line ⟨s, [link]⟩) {fs : List Front}
    (h : ∀ f ∈ fs, f.Sound c) : ∀ f ∈ insert d still s link fs, f.Sound c := by
  have hNew : Front.Sound c ⟨d, still, [⟨s, [link]⟩]⟩ := ⟨hd, by simpa using hLink⟩
  induction fs with
  | nil => simpa [insert] using hNew
  | cons f fs ih =>
    have hf := h f List.mem_cons_self
    have hFs : ∀ f ∈ fs, f.Sound c := fun f hf => h f (List.mem_cons_of_mem _ hf)
    unfold insert
    split
    · exact List.forall_mem_cons.mpr ⟨hNew, h⟩
    · split
      · rename_i hEq
        obtain rfl := hf.leads.eq_of_remaining hd hEq
        refine List.forall_mem_cons.mpr ⟨⟨hf.leads, fun top hTop => ?_⟩, hFs⟩
        cases hInsert : Head.insert s link f.tops with
        | none =>
          rw [hInsert] at hTop
          exact hf.tops top hTop
        | some tops =>
          rw [hInsert] at hTop
          exact Head.insert_sound hLink hf.tops hInsert top hTop
      · exact List.forall_mem_cons.mpr ⟨hf, ih hFs⟩

/-- The head of a token above a sound head. -/
theorem shifted_sound {wanted : TokenSet} {l : Lexeme} (hd : c.Leads d)
    (hl : Lexeme.read wanted d = some l) {h : Head} (hh : h.Sound c.line d.line) (round : Nat) :
    Head.Sound c.line l.next.line ⟨h.state.advance (.token l.token),
      [(Part.ofLexeme l, .node h.state round h.links)]⟩ := by
  have hFits : (Symbol.token l.token).Fits (Part.ofLexeme l) := by
    refine ⟨(Lexeme.start_leads_next hl).line_le, fun ht => ?_, fun _ _ _ hDeclared => ?_⟩
    · exact Lexeme.text_ne_nil hl (Symbol.token.inj ht)
    · cases hDeclared
  refine Stack.Sound.node (hd.trans (Lexeme.leads_next hl)).line_le (hh.reached.advance _)
    (by simp) ?_ ?_
  · simpa using ⟨_, rfl, hFits, Nat.le_refl _⟩
  · exact List.forall_mem_singleton.mpr ((hh.node round).mono (Lexeme.leads_start hl).line_le)

theorem step_sound {round : Nat} {f : Front} (hf : f.Sound c) {top : Head} (hTop : top ∈ f.tops)
    {fs : List Front} (h : ∀ f ∈ fs, f.Sound c) : ∀ g ∈ step round f fs top, g.Sound c := by
  unfold step
  split
  · exact h
  · rename_i l hl
    split
    · exact h
    · apply List.foldlRecOn (motive := fun fs : List Front => ∀ f ∈ fs, f.Sound c) _ _ h
      intro fs hFs head hHead
      have hSound := Head.before_sound (hf.tops top hTop) head hHead
      unfold shift
      split
      · exact insert_sound (hf.leads.trans (Lexeme.leads_next hl))
          (shifted_sound hf.leads hl hSound round) hFs
      · exact hFs

theorem advance_sound {round : Nat} {fs : List Front} (h : ∀ f ∈ fs, f.Sound c) :
    ∀ f ∈ advance round fs, f.Sound c := by
  unfold advance
  split
  · simp
  · rename_i f fs
    apply List.foldlRecOn (motive := fun fs : List Front => ∀ f ∈ fs, f.Sound c) _ _
      (fun f hf => h f (List.mem_cons_of_mem _ hf))
    intro fs' hFs' top hTop
    exact step_sound (h f List.mem_cons_self) (List.mem_of_mem_filter hTop) hFs'

/-- The ends of an item at the leftmost front. -/
def firstEnds : List Front → List (Option Declared × Cursor)
  | [] => []
  | f :: _ => f.ends

end Front

/-! ## Rounds -/

namespace Item

/-- The fronts of an item after a number of rounds. -/
def fronts (c : Cursor) : Nat → List Front
  | 0 => start c
  | n + 1 => Front.advance n (fronts c n)

theorem start_sound (c : Cursor) : ∀ f ∈ start c, f.Sound c := by
  have h : Front.Sound c ⟨c, true, [⟨.start, []⟩]⟩ := by
    refine ⟨.refl c, List.forall_mem_singleton.mpr ?_⟩
    exact Stack.Sound.node (Nat.le_refl _) .start (fun _ => rfl) (by simp) (by simp)
  simpa [start] using h

theorem fronts_sound (c : Cursor) (n : Nat) : ∀ f ∈ fronts c n, f.Sound c := by
  induction n with
  | zero => exact start_sound c
  | succ n ih => exact Front.advance_sound ih

theorem fronts_eq_nil {c : Cursor} {n : Nat} (h : fronts c n = []) (k : Nat) :
    fronts c (n + k) = [] := by
  induction k with
  | zero => exact h
  | succ k ih => rw [← Nat.add_assoc, fronts, ih, Front.advance]

theorem follow_eq (c : Cursor) (fuel n : Nat) (ends : List (Option Declared × Cursor)) :
    follow fuel n (fronts c n) ends =
      ends ++ (List.range fuel).flatMap fun k => Front.firstEnds (fronts c (n + k)) := by
  induction fuel generalizing n ends with
  | zero => simp [follow]
  | succ fuel ih =>
    cases h : fronts c n with
    | nil =>
      have hNil : ∀ k, Front.firstEnds (fronts c (n + k)) = [] := fun k => by
        rw [fronts_eq_nil h, Front.firstEnds]
      simp [follow, hNil]
    | cons f fs =>
      have hNext : Front.advance n (f :: fs) = fronts c (n + 1) := by rw [fronts, h]
      have hEnds : Front.firstEnds (fronts c (n + 0)) = f.ends := by
        rw [Nat.add_zero, h, Front.firstEnds]
      rw [follow, hNext, ih, List.range_succ_eq_map, List.flatMap_cons, List.flatMap_map, hEnds,
        List.append_assoc]
      have hRound : ∀ k, n + 1 + k = n + k.succ := by omega
      simp only [hRound]

/-- The ends of an item are those at the leftmost fronts. -/
theorem readings_eq (c : Cursor) : readings c =
    (List.range (2 * c.remaining + 2)).flatMap fun n => Front.firstEnds (fronts c n) := by
  unfold readings
  have h := follow_eq c (2 * c.remaining + 2) 0 []
  simp only [Nat.zero_add, List.nil_append] at h
  exact h

theorem of_mem_readings {c : Cursor} {e : Option Declared × Cursor} (h : e ∈ readings c) :
    ∃ n f fs, fronts c n = f :: fs ∧ e ∈ f.ends := by
  rw [readings_eq] at h
  obtain ⟨n, _, he⟩ := List.mem_flatMap.mp h
  cases hFronts : fronts c n with
  | nil =>
    rw [hFronts] at he
    cases he
  | cons f fs =>
    rw [hFronts] at he
    exact ⟨n, f, fs, hFronts, he⟩

/-- What a whole item declares is a part on a sound stack. -/
theorem of_mem_ends {c : Cursor} {f : Front} (hf : f.Sound c) {e : Option Declared × Cursor}
    (he : e ∈ f.ends) : e.2 = f.place ∧ ∃ p : Part, e.1 = p.declared ∧
      (Symbol.phrase .item).Fits p ∧ c.line ≤ p.first ∧ p.last ≤ f.place.line := by
  obtain ⟨d, hd, rfl⟩ := List.mem_map.mp he
  obtain ⟨top, hTop, hWhole⟩ := List.mem_filterMap.mp (List.mem_of_mem_take hd)
  refine ⟨rfl, ?_⟩
  have hSound := hf.tops top hTop
  obtain ⟨i, hi, hItem⟩ := List.exists_of_findSome?_eq_some hWhole
  split at hItem
  · rename_i hEnds
    obtain ⟨parts, hParts, rfl⟩ := Option.map_eq_some_iff.mp hItem
    simp only [endsItem, Bool.and_eq_true, decide_eq_true_eq, List.isEmpty_iff] at hEnds
    obtain ⟨rest, hRest⟩ := List.head?_eq_some_iff.mp hParts
    obtain ⟨hFits, hLast, hBase⟩ := hSound.popped hi hEnds.2 (hRest ▸ List.mem_cons_self)
    exact ⟨_, rfl, hEnds.1 ▸ hFits, hBase.le, hLast⟩
  · cases hItem

end Item

end FuncSpans.Go
