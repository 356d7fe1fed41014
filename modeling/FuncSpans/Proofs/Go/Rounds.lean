import FuncSpans.Go.File
import FuncSpans.Proofs.Go.Insertion

/-!
# Rounds come to an end

The fronts of an item stand in the order of their places, and the leftmost one weighs more than
all that come from it: two for each character that is left, and one if the next token may be
empty. So an item is over after as many rounds (`Item.fronts_eq_nil_of_lt`), it takes up some of
the text (`Item.remaining_lt_of_mem_readings`), and what the items of a text come to does not
depend on the fuel (`SourceFile.items_fuel`).
-/

namespace FuncSpans.Go

/-! ## Fronts -/

namespace Front

/-- What holds of the fronts so far, and of the places that a token leads to, holds after a step. -/
theorem forall_step {P : Cursor → Bool → Prop} {round : Nat} {f : Front} {top : Head}
    (hl : ∀ l, Lexeme.read top.state.wanted f.place = some l →
      (f.still = true → l.text ≠ []) → P l.next l.text.isEmpty)
    {fs : List Front} (h : ∀ f ∈ fs, P f.place f.still) :
    ∀ g ∈ step round f fs top, P g.place g.still := by
  unfold step
  split
  · exact h
  · rename_i l hRead
    split
    · exact h
    · rename_i hStill
      apply List.foldlRecOn (motive := fun fs : List Front => ∀ f ∈ fs, P f.place f.still) _ _ h
      intro fs hFs head _
      unfold shift
      split
      · refine forall_insert (hl l hRead fun hs hText => hStill ?_) hFs
        rw [hs, hText]
        rfl
      · exact hFs

theorem advance_ordered {round : Nat} {fs : List Front} (h : Ordered fs) :
    Ordered (advance round fs) := by
  unfold advance
  split
  · exact .nil
  · rename_i f fs
    apply List.foldlRecOn (motive := Ordered) _ _ h.of_cons
    intro fs hFs top _
    unfold step
    split
    · exact hFs
    · split
      · exact hFs
      · apply List.foldlRecOn (motive := Ordered) _ _ hFs
        intro fs hFs head _
        unfold shift
        split
        · exact insert_ordered hFs
        · exact hFs

/-- How many rounds may follow. -/
def weight (f : Front) : Nat := 2 * f.place.remaining + if f.still then 0 else 1

/-- A front weighs more than what comes from it and than the fronts to its right. -/
theorem advance_weight_lt {round : Nat} {f : Front} {fs : List Front} (h : Ordered (f :: fs)) :
    ∀ g ∈ advance round (f :: fs), g.weight < f.weight := by
  unfold advance
  apply List.foldlRecOn (motive := fun fs : List Front => ∀ g ∈ fs, g.weight < f.weight)
  · intro g hg
    have hLt := (List.pairwise_cons.mp h).1 g hg
    unfold weight
    split <;> split <;> omega
  · intro fs hFs top _
    apply forall_step
      (P := fun d still => 2 * d.remaining + (if still = true then 0 else 1) < f.weight) _ hFs
    intro l hl hStill
    have hLe := (Lexeme.leads_next hl).remaining_le
    unfold weight
    by_cases hText : l.text = []
    · have hGoes : f.still = false := by
        rw [← Bool.not_eq_true]
        intro hs
        exact hStill hs hText
      rw [hText, hGoes]
      simp only [List.isEmpty_nil, if_true, Bool.false_eq_true, if_false]
      omega
    · have hLt := Lexeme.remaining_next_lt hl hText
      split <;> split <;> omega

end Front

/-! ## Rounds -/

namespace Item

theorem fronts_ordered (c : Cursor) (n : Nat) : Front.Ordered (fronts c n) := by
  induction n with
  | zero => exact List.pairwise_singleton _ _
  | succ n ih => exact Front.advance_ordered ih

theorem fronts_weight (c : Cursor) (n : Nat) :
    ∀ f ∈ fronts c n, f.weight + n ≤ 2 * c.remaining := by
  induction n with
  | zero => simp [fronts, start, Front.weight]
  | succ n ih =>
    intro g hg
    have hOrdered := fronts_ordered c n
    rw [fronts] at hg
    cases hFronts : fronts c n with
    | nil =>
      rw [hFronts] at hg
      cases hg
    | cons f fs =>
      rw [hFronts] at hg hOrdered
      have hLt := Front.advance_weight_lt hOrdered g hg
      have hLe := ih f (hFronts ▸ List.mem_cons_self)
      omega

theorem fronts_eq_nil_of_lt {c : Cursor} {n : Nat} (h : 2 * c.remaining < n) :
    fronts c n = [] := by
  apply List.eq_nil_iff_forall_not_mem.mpr
  intro f hf
  have hLe := fronts_weight c n f hf
  omega

/-- More rounds than an item can have do not matter. -/
theorem readings_eq_of_lt {c : Cursor} {fuel : Nat} (h : 2 * c.remaining < fuel) : readings c =
    (List.range fuel).flatMap fun n => Front.firstEnds (fronts c n) := by
  have hAux : ∀ k, ((List.range (2 * c.remaining + 1 + k)).flatMap fun n =>
      Front.firstEnds (fronts c n)) =
      (List.range (2 * c.remaining + 1)).flatMap fun n => Front.firstEnds (fronts c n) := by
    intro k
    induction k with
    | zero => rfl
    | succ k ih =>
      rw [← Nat.add_assoc, List.range_succ, List.flatMap_append, ih, List.flatMap_singleton,
        fronts_eq_nil_of_lt (by omega), Front.firstEnds, List.append_nil]
  obtain ⟨k, rfl⟩ := Nat.exists_eq_add_of_le (Nat.succ_le_of_lt h)
  rw [readings_eq, hAux 1, hAux k]

set_option maxRecDepth 100000 in
theorem start_not_whole : State.start.isWhole = false := by decide +kernel

/-- An item takes up some of the text. -/
theorem remaining_lt_of_mem_readings {c : Cursor} {e : Option Declared × Cursor}
    (h : e ∈ readings c) : e.2.remaining < c.remaining := by
  obtain ⟨n, f, fs, hFronts, he⟩ := of_mem_readings h
  obtain ⟨d, hd, rfl⟩ := List.mem_map.mp he
  cases n with
  | zero =>
    cases hFronts
    have hNone : ([⟨State.start, []⟩] : List Head).filterMap Head.whole? = [] := by
      rw [List.filterMap_cons, Head.whole?_of_not_whole start_not_whole]
      rfl
    rw [hNone] at hd
    cases hd
  | succ n =>
    have hLe := fronts_weight c (n + 1) f (hFronts ▸ List.mem_cons_self)
    dsimp only
    unfold Front.weight at hLe
    split at hLe <;> omega

end Item

/-! ## Items -/

namespace SourceFile

/-- Ways to read the text from left to right, one for each place. -/
def Ordered (ws : List Progress) : Prop :=
  ws.Pairwise fun w v => v.place.remaining < w.place.remaining

section Insert

variable {w v : Progress} {vs : List Progress}

theorem insert_of_lt (h : v.place.remaining < w.place.remaining) :
    insert w (v :: vs) = w :: v :: vs := if_pos h

theorem insert_of_eq (h : v.place.remaining = w.place.remaining) :
    insert w (v :: vs) = v :: vs := by
  rw [insert, if_neg (by omega), if_pos h]

theorem insert_of_gt (h : w.place.remaining < v.place.remaining) :
    insert w (v :: vs) = v :: insert w vs := by
  rw [insert, if_neg (by omega), if_neg (by omega)]

end Insert

theorem forall_insert {P : Progress → Prop} {w : Progress} (hw : P w) {ws : List Progress}
    (h : ∀ v ∈ ws, P v) : ∀ v ∈ insert w ws, P v := by
  induction ws with
  | nil => simpa [insert] using hw
  | cons v ws ih =>
    have hv := h v List.mem_cons_self
    have hWs : ∀ v ∈ ws, P v := fun v hv => h v (List.mem_cons_of_mem _ hv)
    rcases Nat.lt_trichotomy v.place.remaining w.place.remaining with hLt | hEq | hGt
    · rw [insert_of_lt hLt]
      exact List.forall_mem_cons.mpr ⟨hw, h⟩
    · rw [insert_of_eq hEq]
      exact h
    · rw [insert_of_gt hGt]
      exact List.forall_mem_cons.mpr ⟨hv, ih hWs⟩

theorem insert_ordered {w : Progress} {ws : List Progress} (h : Ordered ws) :
    Ordered (insert w ws) := by
  induction ws with
  | nil => exact List.pairwise_singleton _ _
  | cons v ws ih =>
    obtain ⟨hv, hWs⟩ := List.pairwise_cons.mp h
    rcases Nat.lt_trichotomy v.place.remaining w.place.remaining with hLt | hEq | hGt
    · rw [insert_of_lt hLt]
      refine List.pairwise_cons.mpr ⟨List.forall_mem_cons.mpr ⟨hLt, fun u hu => ?_⟩, h⟩
      have hUv := hv u hu
      omega
    · rw [insert_of_eq hEq]
      exact h
    · rw [insert_of_gt hGt]
      exact List.pairwise_cons.mpr ⟨forall_insert hGt hv, ih hWs⟩

/-- All ways that one item more on a way leads to, besides other ways. -/
def goOn (w : Progress) (ws : List Progress) : List Progress :=
  (Item.readings w.place).foldl
    (fun ws (d, c) => insert ⟨Lexeme.pastBlanks c, w.declared ++ d.toList⟩ ws) ws

theorem items_cons (fuel : Nat) (w : Progress) (ws : List Progress) :
    items (fuel + 1) (w :: ws) =
      if w.place.rest.isEmpty then some w.declared else items fuel (goOn w ws) := rfl

theorem goOn_ordered {w : Progress} {ws : List Progress} (h : Ordered ws) :
    Ordered (goOn w ws) :=
  List.foldlRecOn (motive := Ordered) _ _ h fun _ hWs _ _ => insert_ordered hWs

theorem goOn_lt {w : Progress} {ws : List Progress} (h : Ordered (w :: ws)) :
    ∀ v ∈ goOn w ws, v.place.remaining < w.place.remaining := by
  apply List.foldlRecOn (motive := fun ws : List Progress =>
    ∀ v ∈ ws, v.place.remaining < w.place.remaining) _ _ (List.pairwise_cons.mp h).1
  intro ws hWs e he
  apply forall_insert _ hWs
  exact Nat.lt_of_le_of_lt (Lexeme.leads_pastBlanks e.2).remaining_le
    (Item.remaining_lt_of_mem_readings he)

/-- All fuel that is enough for what is left of the text gives the same. -/
theorem items_fuel {fuel fuel' : Nat} {ws : List Progress} (h : Ordered ws)
    (hFuel : ∀ w ∈ ws, w.place.remaining < fuel) (hFuel' : ∀ w ∈ ws, w.place.remaining < fuel') :
    items fuel ws = items fuel' ws := by
  induction fuel generalizing fuel' ws with
  | zero =>
    cases ws with
    | nil => cases fuel' <;> rfl
    | cons w ws => cases hFuel w List.mem_cons_self
  | succ fuel ih =>
    cases ws with
    | nil => cases fuel' <;> rfl
    | cons w ws =>
      obtain ⟨n, rfl⟩ := Nat.exists_eq_add_of_lt (hFuel' w List.mem_cons_self)
      rw [items_cons, items_cons]
      split
      · rfl
      · have hw := hFuel w List.mem_cons_self
        have hLt := goOn_lt h
        refine ih (goOn_ordered h.of_cons) (fun v hv => ?_) fun v hv => ?_
        · have hv' := hLt v hv
          omega
        · have hv' := hLt v hv
          omega

theorem items_fuel_singleton {fuel fuel' : Nat} {w : Progress} (h : w.place.remaining < fuel)
    (h' : w.place.remaining < fuel') : items fuel [w] = items fuel' [w] :=
  items_fuel (List.pairwise_singleton _ _) (List.forall_mem_singleton.mpr h)
    (List.forall_mem_singleton.mpr h')

end SourceFile

end FuncSpans.Go
