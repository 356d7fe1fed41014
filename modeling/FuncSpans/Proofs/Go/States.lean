import FuncSpans.Go.Automaton
import FuncSpans.Proofs.Go.Productions

/-!
# Reachable states

`State.Reached` are the states that a parser can come to from the start of an item. Their items
are productions under way in earnest (`Reached.item`), each goes on from an item of the state
before or starts a phrase (`Reached.before`), and states that are the same are equal
(`Reached.eq_of_same`).

A line feed may stand for the end of an item wherever the end of the text may
(`Reached.newline_of_endOfFile`). After a token that ends with a line feed neither can stand
(`Reached.closed_after`).
-/

namespace FuncSpans.Go

open Grammar

/-! ## Items -/

namespace Item

/-- What is known of the items of reachable states. -/
structure Sound (i : Item) : Prop where
  mem : i.production ∈ productionsOf i.production.phrase
  suffix : i.rest <:+ i.production.symbols
  symbols_ne : i.production.symbols ≠ []
  ofFile_eq : ofFile i.production.phrase = false
  newline_of_endOfFile : i.ahead.contains .endOfFile = true → i.ahead.contains .newline = true
  inside_eq : inside i.production.phrase = true →
    i.ahead.contains .newline = false ∧ i.ahead.contains .endOfFile = false

/-- Some symbol of the production has been read. -/
def Started (i : Item) : Prop := i.rest.length < i.production.symbols.length

theorem Sound.small {i : Item} (h : i.Sound) :
    i.production.index < 64 ∧ i.production.symbols.length < 16 := by
  obtain ⟨y, rest, hs⟩ := List.exists_cons_of_ne_nil h.symbols_ne
  have hSmall := holds_of_all all_small h.mem [] hs
  simpa using hSmall

/-- An item is told by its key, but for what may follow it. -/
theorem Sound.key_inj {a b : Item} (ha : a.Sound) (hb : b.Sound) (h : a.key = b.key) :
    a.production = b.production ∧ a.rest = b.rest := by
  have hSa := ha.small
  have hSb := hb.small
  have hLa := ha.suffix.length_le
  have hLb := hb.suffix.length_le
  unfold key at h
  have hLength : a.rest.length = b.rest.length := by omega
  have hIndex : a.production.index = b.production.index := by omega
  have hPhrase : a.production.phrase = b.production.phrase := by
    rw [← ofNat_ctorIdx a.production.phrase, ← ofNat_ctorIdx b.production.phrase]
    congr 1
    omega
  have hProduction : a.production = b.production :=
    eq_of_index ha.mem (hPhrase ▸ hb.mem) hIndex
  refine ⟨hProduction, ?_⟩
  have hSuffix : b.rest <:+ a.production.symbols := hProduction ▸ hb.suffix
  exact (List.suffix_of_suffix_length_le ha.suffix hSuffix (by omega)).eq_of_length hLength

/-- A property of items that is kept when items of one key are joined. -/
def Joins (P : Item → Prop) : Prop :=
  ∀ a b, P a → P b → a.key = b.key → P ⟨b.production, b.rest, b.ahead.union a.ahead⟩

theorem Joins.insert {P : Item → Prop} (hP : Joins P) {a : Item} (ha : P a) {l : List Item}
    (hl : ∀ i ∈ l, P i) : ∀ i ∈ insert a l, P i := by
  induction l with
  | nil => simpa [Item.insert] using ha
  | cons b l ih =>
    have hb := hl b List.mem_cons_self
    have hRest : ∀ i ∈ l, P i := fun i hi => hl i (List.mem_cons_of_mem _ hi)
    unfold Item.insert
    split
    · exact List.forall_mem_cons.mpr ⟨ha, hl⟩
    · split
      · rename_i hKey
        exact List.forall_mem_cons.mpr ⟨hP a b ha hb hKey, hRest⟩
      · exact List.forall_mem_cons.mpr ⟨hb, ih hRest⟩

theorem Joins.foldl_insert {P : Item → Prop} (hP : Joins P) {α : Type} {f : α → Item}
    {as : List α} (has : ∀ a ∈ as, P (f a)) {l : List Item} (hl : ∀ i ∈ l, P i) :
    ∀ i ∈ as.foldl (fun acc a => Item.insert (f a) acc) l, P i := by
  apply List.foldlRecOn (motive := fun l : List Item => ∀ i ∈ l, P i) as _ hl
  intro l hl a ha
  exact hP.insert (has a ha) hl

theorem joins_sound : Joins Sound := by
  intro a b ha hb hKey
  obtain ⟨hProduction, _⟩ := ha.key_inj hb hKey
  refine ⟨hb.mem, hb.suffix, hb.symbols_ne, hb.ofFile_eq, fun he => ?_, fun hIn => ?_⟩
  · rw [TokenSet.contains_union, Bool.or_eq_true] at he ⊢
    exact he.imp hb.newline_of_endOfFile ha.newline_of_endOfFile
  · obtain ⟨hBn, hBe⟩ := hb.inside_eq hIn
    obtain ⟨hAn, hAe⟩ := ha.inside_eq (hProduction ▸ hIn)
    rw [TokenSet.contains_union, TokenSet.contains_union, hBn, hBe, hAn, hAe]
    exact ⟨rfl, rfl⟩

end Item

/-! ## Going on -/

namespace State

/-- What may follow the first symbol of what is left of an item. -/
def aheadOf (i : Item) : List Symbol → TokenSet
  | [] => i.ahead
  | y :: _ => firstOfSymbol y

theorem forall_add {Q : Phrase → TokenSet → Prop}
    (hJoin : ∀ x a b, Q x a → Q x b → Q x (a.union b)) {x : Phrase} {ahead : TokenSet}
    (h : Q x ahead) {hs : List (Phrase × TokenSet)} (hHs : ∀ e ∈ hs, Q e.1 e.2) :
    ∀ e ∈ heads.add x ahead hs, Q e.1 e.2 := by
  induction hs with
  | nil => simpa [heads.add] using h
  | cons e hs ih =>
    obtain ⟨y, a⟩ := e
    have he : Q y a := hHs (y, a) List.mem_cons_self
    have hRest : ∀ e ∈ hs, Q e.1 e.2 := fun e he => hHs e (List.mem_cons_of_mem _ he)
    unfold heads.add
    split
    · rename_i hXy
      subst hXy
      exact List.forall_mem_cons.mpr ⟨hJoin _ _ _ he h, hRest⟩
    · exact List.forall_mem_cons.mpr ⟨he, ih hRest⟩

/-- What holds of the phrases that items go on with holds of all heads. -/
theorem forall_heads {s : State} {Q : Phrase → TokenSet → Prop}
    (hJoin : ∀ x a b, Q x a → Q x b → Q x (a.union b))
    (h : ∀ i ∈ s.items, ∀ x rest, i.rest = .phrase x :: rest → Q x (aheadOf i rest)) :
    ∀ e ∈ s.heads, Q e.1 e.2 := by
  apply List.foldlRecOn (motive := fun hs : List (Phrase × TokenSet) => ∀ e ∈ hs, Q e.1 e.2)
  · simp
  · intro hs hHs i hi
    split
    · rename_i x rest hRest
      have hq := h i hi x rest hRest
      apply forall_add hJoin _ hHs
      cases rest <;> exact hq
    · exact hHs

/-- An item that opens a phrase with its first symbol. -/
def opened (o : Opening) (ahead : TokenSet) : Item :=
  ⟨o.production, o.production.symbols.drop 1, if o.atEnd then o.ahead.union ahead else o.ahead⟩

/-- What holds of the items that step over a symbol and of those that it opens holds of all items
of the state after it. -/
theorem forall_advance {s : State} {x : Symbol} {P : Item → Prop} (hP : Item.Joins P)
    (hMoved : ∀ i ∈ s.items, ∀ rest, i.rest = x :: rest → P ⟨i.production, rest, i.ahead⟩)
    (hOpened : ∀ e ∈ s.heads, ∀ o ∈ openingsOf e.1 x, P (opened o e.2)) :
    ∀ i ∈ (s.advance x).items, P i := by
  apply List.foldlRecOn (motive := fun acc : List Item => ∀ i ∈ acc, P i) s.heads
  · apply List.foldlRecOn (motive := fun acc : List Item => ∀ i ∈ acc, P i) s.items
    · simp
    · intro acc hAcc i hi
      split
      · rename_i y rest hRest
        split
        · rename_i hYx
          exact hP.insert (hMoved i hi rest (hYx ▸ hRest)) hAcc
        · exact hAcc
      · exact hAcc
  · intro acc hAcc e he
    exact hP.foldl_insert (hOpened e he) hAcc

theorem wanted_contains {s : State} {t : Token} : s.wanted.contains t = true ↔
    ∃ i ∈ s.items, (match i.rest with
      | [] => i.ahead
      | x :: _ => firstOfSymbol x).contains t = true := by
  unfold wanted
  rw [contains_foldl_union, TokenSet.contains_empty]
  exact ⟨fun h => h.resolve_left Bool.false_ne_true, Or.inr⟩

/-- An opening starts a production of a corner of its head. -/
theorem of_mem_openingsOf {h : Phrase} {x : Symbol} {o : Opening} (ho : o ∈ openingsOf h x) :
    ∃ c ∈ corners h, o.production ∈ productionsOf c.phrase ∧
      o.production.symbols = x :: o.production.symbols.drop 1 ∧ o.ahead = c.ahead ∧
      o.atEnd = c.atEnd := by
  obtain ⟨c, hc, ho⟩ := List.mem_flatMap.mp ho
  obtain ⟨r, hr, ho⟩ := List.mem_filterMap.mp ho
  split at ho
  · rename_i hHead
    cases ho
    obtain ⟨rest, hRest⟩ := List.head?_eq_some_iff.mp hHead
    exact ⟨c, hc, hr, by rw [hRest]; rfl, rfl, rfl⟩
  · cases ho

/-! ## Reachable states -/

/-- A state that a parser can come to from the start of an item. -/
inductive Reached : State → Prop
  | start : Reached start
  | advance {s : State} (x : Symbol) : Reached s → Reached (s.advance x)

/-- The items at the start of an item. -/
theorem forall_start {P : Item → Prop} (hP : Item.Joins P)
    (h : ∀ r ∈ productionsOf .item, P ⟨r, r.symbols, .empty⟩) : ∀ i ∈ start.items, P i :=
  hP.foldl_insert h (by simp)

set_option maxRecDepth 100000 in
theorem item_symbols_ne : ∀ r ∈ productionsOf .item, r.symbols ≠ [] := by
  have h : (productionsOf .item).all (fun r => !r.symbols.isEmpty) = true := by decide +kernel
  intro r hr
  simpa using List.all_eq_true.mp h r hr

theorem sound_start : ∀ i ∈ start.items, i.Sound := by
  apply forall_start Item.joins_sound
  intro r hr
  have hPhrase := phrase_of_mem hr
  exact ⟨hPhrase ▸ hr, List.suffix_refl _, item_symbols_ne r hr, hPhrase ▸ rfl,
    fun h => absurd h (by simp [TokenSet.contains_empty]),
    fun _ => ⟨TokenSet.contains_empty _, TokenSet.contains_empty _⟩⟩

/-- What is known of a head of a reachable state. -/
structure HeadSound (x : Phrase) (ahead : TokenSet) : Prop where
  outer_eq : outer x = false
  newline_of_endOfFile : ahead.contains .endOfFile = true → ahead.contains .newline = true
  inside_eq : inside x = true →
    ahead.contains .newline = false ∧ ahead.contains .endOfFile = false

theorem HeadSound.union {x : Phrase} {a b : TokenSet} (ha : HeadSound x a)
    (hb : HeadSound x b) : HeadSound x (a.union b) := by
  refine ⟨ha.outer_eq, fun he => ?_, fun hIn => ?_⟩
  · rw [TokenSet.contains_union, Bool.or_eq_true] at he ⊢
    exact he.imp ha.newline_of_endOfFile hb.newline_of_endOfFile
  · obtain ⟨hAn, hAe⟩ := ha.inside_eq hIn
    obtain ⟨hBn, hBe⟩ := hb.inside_eq hIn
    rw [TokenSet.contains_union, TokenSet.contains_union, hBn, hBe, hAn, hAe]
    exact ⟨rfl, rfl⟩

set_option maxRecDepth 100000 in
theorem start_heads_newline : ∀ e ∈ start.heads,
    e.2.contains .endOfFile = true → e.2.contains .newline = true := by
  have h : start.heads.all (fun e => !e.2.contains .endOfFile || e.2.contains .newline) = true := by
    decide +kernel
  intro e he hEnd
  simpa [hEnd] using List.all_eq_true.mp h e he

set_option maxRecDepth 100000 in
theorem newline_after_declaration : ∀ r ∈ productionsOf .item, ∀ x,
    r.symbols = [x, .token .endOfFile] → (start.advance x).wanted.contains .newline = true := by
  have h : (productionsOf .item).all (fun r => r.symbols.drop 1 ≠ [.token .endOfFile] ∨
      (r.symbols.take 1).all fun x => (start.advance x).wanted.contains .newline) = true := by
    decide +kernel
  intro r hr x hs
  have hx := List.all_eq_true.mp h r hr
  rw [hs] at hx
  simpa using hx

/-- What stands inside of brackets has neither a line feed nor the end of the text behind it. -/
theorem aheadOf_inside {i : Item} (hi : i.Sound) {x : Phrase} {rest : List Symbol}
    (hRest : i.rest = .phrase x :: rest) (hIn : inside x = true) :
    (aheadOf i rest).contains .newline = false ∧ (aheadOf i rest).contains .endOfFile = false := by
  obtain ⟨done, hs⟩ := hi.suffix
  rw [hRest] at hs
  have hClosed : closed (.phrase x) = true := hIn
  cases rest with
  | nil => exact hi.inside_eq (inside_of_last hi.mem done hi.ofFile_eq hClosed hs.symm)
  | cons z rest =>
    have hz : opens z = false := not_opens_of_next hi.mem done hi.ofFile_eq hClosed hs.symm
    exact ⟨first_of_not_opens hz rfl, first_of_not_opens hz rfl⟩

/-- Behind a symbol that is not the first, a line feed may stand for the end of the text. -/
theorem aheadOf_newline {i : Item} (hi : i.Sound) (hStarted : i.Started) {y : Symbol}
    {rest : List Symbol} (hRest : i.rest = y :: rest)
    (he : (aheadOf i rest).contains .endOfFile = true) :
    (aheadOf i rest).contains .newline = true := by
  obtain ⟨done, hs⟩ := hi.suffix
  rw [hRest] at hs
  cases rest with
  | nil => exact hi.newline_of_endOfFile he
  | cons z rest =>
    exfalso
    have hDone : done ≠ [] := by
      rintro rfl
      rw [Item.Started, hRest, ← hs] at hStarted
      simp at hStarted
    have hs' : i.production.symbols = (done ++ [y]) ++ z :: rest := by
      rw [← hs]
      simp
    apply next_ne_endOfFile hi.mem done hs.symm hDone
    exact eq_endOfFile_of_first hi.mem hi.ofFile_eq (done ++ [y]) hs' he

theorem heads_newline {s : State} (hSound : ∀ i ∈ s.items, i.Sound)
    (hStarted : s = start ∨ ∀ i ∈ s.items, i.Started) : ∀ e ∈ s.heads,
    e.2.contains .endOfFile = true → e.2.contains .newline = true := by
  rcases hStarted with rfl | hStarted
  · exact start_heads_newline
  · apply forall_heads (Q := fun _ a => a.contains .endOfFile = true → a.contains .newline = true)
    · intro x a b ha hb he
      rw [TokenSet.contains_union, Bool.or_eq_true] at he ⊢
      exact he.imp ha hb
    · intro i hi x rest hRest he
      exact aheadOf_newline (hSound i hi) (hStarted i hi) hRest he

theorem heads_sound {s : State} (hSound : ∀ i ∈ s.items, i.Sound)
    (hStarted : s = start ∨ ∀ i ∈ s.items, i.Started) : ∀ e ∈ s.heads, HeadSound e.1 e.2 := by
  intro e he
  have hPart : outer e.1 = false ∧ (inside e.1 = true →
      e.2.contains .newline = false ∧ e.2.contains .endOfFile = false) := by
    apply forall_heads (Q := fun x a => outer x = false ∧
      (inside x = true → a.contains .newline = false ∧ a.contains .endOfFile = false)) _ _ e he
    · intro x a b ha hb
      refine ⟨ha.1, fun hIn => ?_⟩
      rw [TokenSet.contains_union, TokenSet.contains_union, (ha.2 hIn).1, (ha.2 hIn).2,
        (hb.2 hIn).1, (hb.2 hIn).2]
      exact ⟨rfl, rfl⟩
    · intro i hi x rest hRest
      have hi := hSound i hi
      obtain ⟨done, hs⟩ := hi.suffix
      rw [hRest] at hs
      exact ⟨outer_symbol hi.mem done hi.ofFile_eq hs.symm, aheadOf_inside hi hRest⟩
  exact ⟨hPart.1, heads_newline hSound hStarted e he, hPart.2⟩

/-- The items that a head opens. -/
theorem opened_sound {x : Phrase} {ahead : TokenSet} (h : HeadSound x ahead) {y : Symbol}
    {o : Opening} (ho : o ∈ openingsOf x y) : (opened o ahead).Sound := by
  obtain ⟨c, hc, hr, hs, hAhead, hEnd⟩ := of_mem_openingsOf ho
  have hCorner := enclosed_of_mem_corners h.outer_eq c hc
  have hPhrase := phrase_of_mem hr
  refine ⟨?_, List.drop_suffix _ _, ?_, ?_, fun he => ?_, fun hIn => ?_⟩
  · change o.production ∈ productionsOf o.production.phrase
    rw [hPhrase]
    exact hr
  · change o.production.symbols ≠ []
    rw [hs]
    simp
  · change ofFile o.production.phrase = false
    rw [hPhrase]
    exact ofFile_of_outer hCorner.outer_eq
  · unfold opened at he ⊢
    dsimp only at he ⊢
    rw [hAhead] at he ⊢
    split at he
    · rename_i hAtEnd
      rw [TokenSet.contains_union, hCorner.endOfFile_eq, Bool.false_or] at he
      rw [if_pos hAtEnd, TokenSet.contains_union, h.newline_of_endOfFile he, Bool.or_true]
    · rw [hCorner.endOfFile_eq] at he
      cases he
  · change inside o.production.phrase = true at hIn
    rw [hPhrase] at hIn
    unfold opened
    dsimp only
    rw [hAhead]
    split
    · rename_i hAtEnd
      obtain ⟨hn, he⟩ := h.inside_eq (hCorner.inside_eq hIn (hEnd ▸ hAtEnd))
      rw [TokenSet.contains_union, TokenSet.contains_union, hn, he, hCorner.endOfFile_eq,
        hCorner.newline_eq hIn]
      exact ⟨rfl, rfl⟩
    · exact ⟨hCorner.newline_eq hIn, hCorner.endOfFile_eq⟩

theorem sound_advance {s : State} (hSound : ∀ i ∈ s.items, i.Sound)
    (hStarted : s = start ∨ ∀ i ∈ s.items, i.Started) (x : Symbol) :
    ∀ i ∈ (s.advance x).items, i.Sound := by
  apply forall_advance Item.joins_sound
  · intro i hi rest hRest
    have h := hSound i hi
    exact ⟨h.mem, (hRest ▸ List.suffix_cons x rest : rest <:+ i.rest).trans h.suffix,
      h.symbols_ne, h.ofFile_eq, h.newline_of_endOfFile, h.inside_eq⟩
  · intro e he o ho
    exact opened_sound (heads_sound hSound hStarted e he) ho

theorem started_advance {s : State} (hSound : ∀ i ∈ s.items, i.Sound) (x : Symbol) :
    ∀ i ∈ (s.advance x).items, i.Started := by
  apply forall_advance
  · intro a b _ hb _
    exact hb
  · intro i hi rest hRest
    have hLe := (hSound i hi).suffix.length_le
    rw [hRest] at hLe
    exact hLe
  · intro e he o ho
    obtain ⟨c, hc, hr, hs, _⟩ := of_mem_openingsOf ho
    unfold opened Item.Started
    dsimp only
    rw [hs]
    simp

namespace Reached

theorem sound_and_started {s : State} (h : Reached s) :
    (∀ i ∈ s.items, i.Sound) ∧ (s = State.start ∨ ∀ i ∈ s.items, i.Started) := by
  induction h with
  | start => exact ⟨sound_start, Or.inl rfl⟩
  | advance x _ ih => exact ⟨sound_advance ih.1 ih.2 x, Or.inr (started_advance ih.1 x)⟩

theorem item {s : State} (h : Reached s) {i : Item} (hi : i ∈ s.items) : i.Sound :=
  h.sound_and_started.1 i hi

/-- An item of the state after a symbol goes on from an item before, or it opens a phrase. -/
theorem before {s : State} (h : Reached s) {x : Symbol} {i : Item}
    (hi : i ∈ (s.advance x).items) :
    (∃ j ∈ s.items, j.production = i.production ∧ j.rest = x :: i.rest) ∨
      (i.production.symbols = x :: i.rest ∧ i.production.phrase ≠ .item) := by
  apply forall_advance (P := fun i => (∃ j ∈ s.items, j.production = i.production ∧
    j.rest = x :: i.rest) ∨ (i.production.symbols = x :: i.rest ∧ i.production.phrase ≠ .item))
    _ _ _ i hi
  · intro a b _ hb _
    exact hb
  · intro j hj rest hRest
    exact Or.inl ⟨j, hj, rfl, hRest⟩
  · intro e he o ho
    obtain ⟨c, hc, hr, hs, _⟩ := of_mem_openingsOf ho
    have hHead := heads_sound h.sound_and_started.1 h.sound_and_started.2 e he
    have hOuter := (enclosed_of_mem_corners hHead.outer_eq c hc).outer_eq
    refine Or.inr ⟨hs, fun hItem => ?_⟩
    change o.production.phrase = .item at hItem
    rw [← phrase_of_mem hr, hItem] at hOuter
    cases hOuter

theorem symbols_eq {s : State} (h : Reached s) {x : Symbol} {i : Item}
    (hi : i ∈ (s.advance x).items) : ∃ done, i.production.symbols = done ++ x :: i.rest := by
  rcases h.before hi with ⟨j, hj, hProduction, hRest⟩ | ⟨hs, _⟩
  · obtain ⟨done, hDone⟩ := (h.item hj).suffix
    exact ⟨done, by rw [← hProduction, ← hDone, hRest]⟩
  · exact ⟨[], hs⟩

/-- An item of which nothing has been read is one of the start. -/
theorem eq_start {s : State} (h : Reached s) {i : Item} (hi : i ∈ s.items)
    (hRest : i.rest = i.production.symbols) : s = State.start := by
  rcases h.sound_and_started.2 with hStart | hStarted
  · exact hStart
  · have hLt := hStarted i hi
    rw [Item.Started, hRest] at hLt
    exact (Nat.lt_irrefl _ hLt).elim

/-- States that are the same are equal. -/
theorem eq_of_same {s t : State} (hs : Reached s) (ht : Reached t) (h : s.same t = true) :
    s = t := by
  have hAux : ∀ {as bs : List Item}, (∀ a ∈ as, a.Sound) → (∀ b ∈ bs, b.Sound) →
      same.go as bs = true → as = bs := by
    intro as
    induction as with
    | nil =>
      intro bs _ _ hGo
      cases bs with
      | nil => rfl
      | cons b bs => cases hGo
    | cons a as ih =>
      intro bs has hBs hGo
      cases bs with
      | nil => cases hGo
      | cons b bs =>
        simp only [same.go, Bool.and_eq_true, beq_iff_eq] at hGo
        obtain ⟨⟨hKey, hAhead⟩, hGo⟩ := hGo
        obtain ⟨hProduction, hRest⟩ :=
          (has a List.mem_cons_self).key_inj (hBs b List.mem_cons_self) hKey
        have hTail := ih (fun i hi => has i (List.mem_cons_of_mem _ hi))
          (fun i hi => hBs i (List.mem_cons_of_mem _ hi)) hGo
        obtain ⟨pa, ra, aa⟩ := a
        obtain ⟨pb, rb, ab⟩ := b
        cases hProduction
        cases hRest
        cases hAhead
        rw [hTail]
  have hItems := hAux (fun i hi => hs.item hi) (fun i hi => ht.item hi) h
  obtain ⟨items⟩ := s
  obtain ⟨items'⟩ := t
  cases hItems
  rfl

/-! ### Line feeds and the end of the text -/

/-- Where the end of the text may stand, a line feed may. -/
theorem newline_of_endOfFile {s : State} (h : Reached s) {x : Symbol}
    (he : (s.advance x).wanted.contains .endOfFile = true) :
    (s.advance x).wanted.contains .newline = true := by
  obtain ⟨i, hi, he⟩ := wanted_contains.mp he
  have hSound := (h.advance x).item hi
  obtain ⟨done, hs⟩ := h.symbols_eq hi
  cases hRest : i.rest with
  | nil =>
    rw [hRest] at he
    refine wanted_contains.mpr ⟨i, hi, ?_⟩
    rw [hRest]
    exact hSound.newline_of_endOfFile he
  | cons z rest =>
    rw [hRest] at he hs
    have hs' : i.production.symbols = (done ++ [x]) ++ z :: rest := by
      rw [hs]
      simp
    obtain rfl : z = .token .endOfFile :=
      eq_endOfFile_of_first hSound.mem hSound.ofFile_eq (done ++ [x]) hs' he
    have hDone : done = [] := by
      by_contra hDone
      exact next_ne_endOfFile hSound.mem done hs hDone rfl
    subst hDone
    have hItem := eq_item_of_endOfFile hSound.mem [x] hSound.ofFile_eq hs
    rcases h.before hi with ⟨j, hj, hProduction, hJrest⟩ | ⟨_, hNe⟩
    · have hStart : s = State.start := by
        apply h.eq_start hj
        rw [hJrest, hProduction, hs, hRest]
        rfl
      subst hStart
      have hMem := hSound.mem
      rw [hItem] at hMem
      obtain rfl := rest_of_endOfFile hSound.mem [x] hs
      exact newline_after_declaration _ hMem x hs
    · exact (hNe hItem).elim

/-- After a token that ends with a line feed neither a line feed nor the end of the text comes. -/
theorem closed_after {s : State} (h : Reached s) {t : Token} (ht : endsLine t = true) {t' : Token}
    (ht' : opens (.token t') = true) : (s.advance (.token t)).wanted.contains t' = false := by
  rw [← Bool.not_eq_true]
  intro hw
  obtain ⟨i, hi, hc⟩ := wanted_contains.mp hw
  have hSound := (h.advance (.token t)).item hi
  obtain ⟨done, hs⟩ := h.symbols_eq hi
  cases hRest : i.rest with
  | nil =>
    rw [hRest] at hc hs
    have hIn := inside_of_last hSound.mem done hSound.ofFile_eq (y := .token t) ht hs
    obtain ⟨hn, he⟩ := hSound.inside_eq hIn
    rcases Bool.or_eq_true_iff.mp ht' with ht' | ht' <;> rw [beq_iff_eq.mp ht'] at hc
    · rw [hn] at hc
      cases hc
    · rw [he] at hc
      cases hc
  | cons z rest =>
    rw [hRest] at hc hs
    have hz := not_opens_of_next hSound.mem done hSound.ofFile_eq (y := .token t) ht hs
    have hFirst := first_of_not_opens hz ht'
    rw [hFirst] at hc
    cases hc

end Reached

end State

end FuncSpans.Go
