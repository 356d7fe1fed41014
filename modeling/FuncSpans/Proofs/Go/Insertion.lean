import FuncSpans.Proofs.Go.Readings

/-!
# Adding a reading

A reading that comes to a place is added to the front of the place and to the head of its state
there. Fronts stay in order (`Front.insert_ordered`), and what is whole at a place changes only by
a reading that is whole and comes to the place (`Front.topsAt_insert`, `Head.wholes_add`).
-/

namespace FuncSpans.Go

/-! ## Heads -/

namespace Head

/-- Adds a link to the head of a state, unless it is there already. -/
def add (s : State) (link : Part × Stack) (tops : List Head) : List Head :=
  (insert s link tops).getD tops

section Add

variable {s : State} {link : Part × Stack} {top : Head} {tops : List Head}

theorem add_same (link : Part × Stack) (h : top.state.same s = true) : ∃ links,
    ∀ tops, add s link (top :: tops) = ⟨top.state, links⟩ :: tops := by
  by_cases hLink : (top.links.any (·.2.same link.2)) = true
  · exact ⟨top.links, fun tops => by rw [add, insert, if_pos h, if_pos hLink]; rfl⟩
  · exact ⟨top.links ++ [link], fun tops => by rw [add, insert, if_pos h, if_neg hLink]; rfl⟩

theorem add_other (h : top.state.same s = false) :
    add s link (top :: tops) = top :: add s link tops := by
  unfold add
  rw [insert, if_neg (by simp [h])]
  cases insert s link tops <;> rfl

theorem forall_add {P : State → Prop} (hs : P s) (h : ∀ top ∈ tops, P top.state) :
    ∀ top ∈ add s link tops, P top.state := by
  induction tops with
  | nil => simpa [add, insert] using hs
  | cons top tops ih =>
    have hTop := h top List.mem_cons_self
    have hTops : ∀ top ∈ tops, P top.state := fun top ht => h top (List.mem_cons_of_mem _ ht)
    cases hSame : top.state.same s with
    | true =>
      obtain ⟨links, hAdd⟩ := add_same link hSame
      rw [hAdd]
      exact List.forall_mem_cons.mpr ⟨hTop, hTops⟩
    | false =>
      rw [add_other hSame]
      exact List.forall_mem_cons.mpr ⟨hTop, ih hTops⟩

/-- The readings that are whole. -/
def wholes (tops : List Head) : List Head := tops.filter (·.state.isWhole)

theorem wholes_cons_of_pos (h : top.state.isWhole = true) (tops : List Head) :
    wholes (top :: tops) = top :: wholes tops := List.filter_cons_of_pos h

theorem wholes_cons_of_neg (h : top.state.isWhole = false) (tops : List Head) :
    wholes (top :: tops) = wholes tops := List.filter_cons_of_neg (by simp [h])

/-- A reading that is whole is added to those that are. -/
theorem wholes_add (hs : s.Reached) (h : ∀ top ∈ tops, top.state.Reached)
    (hw : s.isWhole = true) : wholes (add s link tops) = add s link (wholes tops) := by
  induction tops with
  | nil => exact wholes_cons_of_pos hw []
  | cons top tops ih =>
    have hTop := h top List.mem_cons_self
    have ih := ih fun top ht => h top (List.mem_cons_of_mem _ ht)
    cases hSame : top.state.same s with
    | true =>
      have hState : top.state = s := hTop.eq_of_same hs hSame
      obtain ⟨links, hAdd⟩ := add_same link hSame
      rw [hAdd, wholes_cons_of_pos (by rw [hState, hw]), wholes_cons_of_pos (by rw [hState, hw]),
        hAdd]
    | false =>
      rw [add_other hSame]
      cases hTw : top.state.isWhole with
      | true => rw [wholes_cons_of_pos hTw, wholes_cons_of_pos hTw, add_other hSame, ih]
      | false => rw [wholes_cons_of_neg hTw, wholes_cons_of_neg hTw, ih]

/-- A reading that is not whole does not change those that are. -/
theorem wholes_add_of_not_whole (hs : s.Reached) (h : ∀ top ∈ tops, top.state.Reached)
    (hw : s.isWhole = false) : wholes (add s link tops) = wholes tops := by
  induction tops with
  | nil => exact wholes_cons_of_neg hw []
  | cons top tops ih =>
    have hTop := h top List.mem_cons_self
    have ih := ih fun top ht => h top (List.mem_cons_of_mem _ ht)
    cases hSame : top.state.same s with
    | true =>
      have hState : top.state = s := hTop.eq_of_same hs hSame
      obtain ⟨links, hAdd⟩ := add_same link hSame
      rw [hAdd, wholes_cons_of_neg (by rw [hState, hw]), wholes_cons_of_neg (by rw [hState, hw])]
    | false =>
      rw [add_other hSame]
      cases hTw : top.state.isWhole with
      | true => rw [wholes_cons_of_pos hTw, wholes_cons_of_pos hTw, ih]
      | false => rw [wholes_cons_of_neg hTw, wholes_cons_of_neg hTw, ih]

end Add

/-- A head that has no whole item ends none. -/
theorem whole?_of_not_whole {h : Head} (hw : h.state.isWhole = false) : h.whole? = none := by
  rw [State.isWhole, List.any_eq_false] at hw
  unfold whole?
  rw [List.findSome?_eq_none_iff]
  intro i hi
  rw [if_neg (hw i hi)]

/-- What whole readings declare. -/
theorem filterMap_wholes (tops : List Head) :
    (wholes tops).filterMap whole? = tops.filterMap whole? := by
  induction tops with
  | nil => rfl
  | cons top tops ih =>
    cases hw : top.state.isWhole with
    | true =>
      rw [wholes_cons_of_pos hw, List.filterMap_cons, List.filterMap_cons, ih]
    | false =>
      rw [wholes_cons_of_neg hw, List.filterMap_cons, whole?_of_not_whole hw, ih]

end Head

/-! ## Fronts -/

namespace Front

/-- The readings at the first front, if so much of the text is left there. -/
def topsAt (remaining : Nat) : List Front → List Head
  | [] => []
  | f :: _ => if f.place.remaining = remaining then f.tops else []

theorem topsAt_of_eq {n : Nat} {f : Front} (h : f.place.remaining = n) (fs : List Front) :
    topsAt n (f :: fs) = f.tops := if_pos h

theorem topsAt_of_ne {n : Nat} {f : Front} (h : f.place.remaining ≠ n) (fs : List Front) :
    topsAt n (f :: fs) = [] := if_neg h

section Insert

variable {c : Cursor} {still : Bool} {s : State} {link : Part × Stack} {fs : List Front}

theorem insert_of_lt {f : Front} (h : f.place.remaining < c.remaining) :
    insert c still s link (f :: fs) = ⟨c, still, [⟨s, [link]⟩]⟩ :: f :: fs := if_pos h

theorem insert_of_eq {f : Front} (h : f.place.remaining = c.remaining) :
    insert c still s link (f :: fs) = ⟨f.place, f.still, Head.add s link f.tops⟩ :: fs := by
  rw [insert, if_neg (by omega), if_pos h]
  rfl

theorem insert_of_gt {f : Front} (h : c.remaining < f.place.remaining) :
    insert c still s link (f :: fs) = f :: insert c still s link fs := by
  rw [insert, if_neg (by omega), if_neg (by omega)]

/-- A reading that comes to the leftmost place. -/
theorem insert_of_forall_lt (h : ∀ f ∈ fs, f.place.remaining < c.remaining) :
    insert c still s link fs = ⟨c, still, [⟨s, [link]⟩]⟩ :: fs := by
  cases fs with
  | nil => rfl
  | cons f fs => exact insert_of_lt (h f List.mem_cons_self)

theorem topsAt_insert {n : Nat} (hc : c.remaining = n) (h : ∀ f ∈ fs, f.place.remaining ≤ n) :
    topsAt n (insert c still s link fs) = Head.add s link (topsAt n fs) := by
  cases fs with
  | nil => exact topsAt_of_eq hc _
  | cons f fs =>
    have hLe := h f List.mem_cons_self
    rcases Nat.lt_or_eq_of_le hLe with hLt | hEq
    · rw [insert_of_lt (by omega), topsAt_of_ne (f := f) (Nat.ne_of_lt hLt)]
      exact topsAt_of_eq hc _
    · rw [insert_of_eq (by omega), topsAt_of_eq (f := f) hEq]
      exact if_pos hEq

theorem topsAt_insert_of_lt {n : Nat} (hc : c.remaining < n) :
    topsAt n (insert c still s link fs) = topsAt n fs := by
  have hNe : c.remaining ≠ n := Nat.ne_of_lt hc
  cases fs with
  | nil => exact topsAt_of_ne hNe _
  | cons f fs =>
    rcases Nat.lt_trichotomy f.place.remaining c.remaining with hLt | hEq | hGt
    · rw [insert_of_lt hLt, topsAt_of_ne (f := f) (by omega)]
      exact topsAt_of_ne hNe _
    · rw [insert_of_eq hEq, topsAt_of_ne (f := f) (by omega)]
      exact if_neg (hEq ▸ hNe)
    · rw [insert_of_gt hGt]
      rfl

theorem forall_insert {P : Cursor → Bool → Prop} (hc : P c still)
    (h : ∀ f ∈ fs, P f.place f.still) : ∀ f ∈ insert c still s link fs, P f.place f.still := by
  induction fs with
  | nil => simpa [insert] using hc
  | cons f fs ih =>
    have hf := h f List.mem_cons_self
    have hFs : ∀ f ∈ fs, P f.place f.still := fun f hf => h f (List.mem_cons_of_mem _ hf)
    rcases Nat.lt_trichotomy f.place.remaining c.remaining with hLt | hEq | hGt
    · rw [insert_of_lt hLt]
      exact List.forall_mem_cons.mpr ⟨hc, h⟩
    · rw [insert_of_eq hEq]
      exact List.forall_mem_cons.mpr ⟨hf, hFs⟩
    · rw [insert_of_gt hGt]
      exact List.forall_mem_cons.mpr ⟨hf, ih hFs⟩

/-- What holds of the states of all readings holds when a reading is added. -/
theorem forall_tops_insert {P : State → Prop} (hs : P s)
    (h : ∀ f ∈ fs, ∀ top ∈ f.tops, P top.state) :
    ∀ f ∈ insert c still s link fs, ∀ top ∈ f.tops, P top.state := by
  have hNew : ∀ top ∈ ([⟨s, [link]⟩] : List Head), P top.state := by simpa using hs
  induction fs with
  | nil => exact List.forall_mem_singleton.mpr hNew
  | cons f fs ih =>
    have hf := h f List.mem_cons_self
    have hFs : ∀ f ∈ fs, ∀ top ∈ f.tops, P top.state := fun f hf => h f (List.mem_cons_of_mem _ hf)
    rcases Nat.lt_trichotomy f.place.remaining c.remaining with hLt | hEq | hGt
    · rw [insert_of_lt hLt]
      exact List.forall_mem_cons.mpr ⟨hNew, h⟩
    · rw [insert_of_eq hEq]
      exact List.forall_mem_cons.mpr ⟨Head.forall_add hs hf, hFs⟩
    · rw [insert_of_gt hGt]
      exact List.forall_mem_cons.mpr ⟨hf, ih hFs⟩

/-- Fronts from left to right, one for each place. -/
def Ordered (fs : List Front) : Prop :=
  fs.Pairwise fun f g => g.place.remaining < f.place.remaining

theorem insert_ordered (h : Ordered fs) : Ordered (insert c still s link fs) := by
  induction fs with
  | nil => exact List.pairwise_singleton _ _
  | cons f fs ih =>
    obtain ⟨hf, hFs⟩ := List.pairwise_cons.mp h
    rcases Nat.lt_trichotomy f.place.remaining c.remaining with hLt | hEq | hGt
    · rw [insert_of_lt hLt]
      refine List.pairwise_cons.mpr ⟨List.forall_mem_cons.mpr ⟨hLt, fun g hg => ?_⟩, h⟩
      have hgf := hf g hg
      dsimp only
      omega
    · rw [insert_of_eq hEq]
      exact List.pairwise_cons.mpr ⟨hf, hFs⟩
    · rw [insert_of_gt hGt]
      refine List.pairwise_cons.mpr ⟨?_, ih hFs⟩
      exact forall_insert (P := fun d _ => d.remaining < f.place.remaining) hGt hf

end Insert

end Front

end FuncSpans.Go
