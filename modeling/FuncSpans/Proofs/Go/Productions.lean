import FuncSpans.Go.Corner
import Mathlib.Data.List.Basic

/-!
# Facts about the productions

What is said of single productions is checked by going through all of them (`holds_of_all`); the
rest follows. The main statements are about line feeds and the end of the text: which symbols can
start with them (`opens_of_first`), and that they cannot come after a phrase that stands between
brackets (`enclosed_of_mem_corners`).
-/

namespace FuncSpans.Go

/-! ## Sets of tokens -/

namespace TokenSet

theorem contains_union (s t : TokenSet) (x : Token) :
    (s.union t).contains x = (s.contains x || t.contains x) := by
  simp [union, contains, Nat.testBit_or]

theorem contains_empty (x : Token) : empty.contains x = false := by
  simp [empty, contains]

theorem token_ofNat_ctorIdx (x : Token) : Token.ofNat x.ctorIdx = x := by
  cases x <;> rfl

theorem contains_singleton {t x : Token} : (singleton t).contains x = true ↔ x = t := by
  unfold singleton contains
  rw [Nat.one_shiftLeft, Nat.testBit_two_pow, decide_eq_true_eq]
  constructor
  · intro h
    rw [← token_ofNat_ctorIdx x, ← h, token_ofNat_ctorIdx]
  · intro h
    rw [h]

end TokenSet

namespace Grammar

/-! ## Going through all productions -/

theorem ofNat_ctorIdx (x : Phrase) : Phrase.ofNat x.ctorIdx = x := by
  cases x <;> rfl

theorem ctorIdx_lt (x : Phrase) : x.ctorIdx < phraseCount := by
  cases x <;> decide

theorem tabulate_getD {α : Type} (f : Phrase → α) (d : α) (x : Phrase) :
    (tabulate f).getD x.ctorIdx d = f x := by
  simp [tabulate, Array.getD, ctorIdx_lt, ofNat_ctorIdx]

theorem productionsOf_eq (x : Phrase) : productionsOf x = productions x := tabulate_getD _ _ x

theorem first_eq (x : Phrase) : first x = firstOf x := tabulate_getD _ _ x

theorem corners_eq (x : Phrase) :
    corners x = Corner.close first productionsOf (2 * phraseCount) [⟨x, .empty, true⟩] :=
  tabulate_getD _ _ x

/-- A check of every symbol of a production with the symbols after it. -/
def checks (p : Production → Symbol → List Symbol → Bool) (r : Production) : List Symbol → Bool
  | [] => true
  | y :: rest => p r y rest && checks p r rest

/-- A check of every symbol of every production. -/
def all (p : Production → Symbol → List Symbol → Bool) : Bool :=
  (List.range phraseCount).all fun n =>
    (productions (Phrase.ofNat n)).all fun r => checks p r r.symbols

theorem checks_append {p : Production → Symbol → List Symbol → Bool} {r : Production}
    {done : List Symbol} {y : Symbol} {rest : List Symbol}
    (h : checks p r (done ++ y :: rest) = true) : p r y rest = true := by
  induction done with
  | nil => exact (Bool.and_eq_true_iff.mp h).1
  | cons x done ih => exact ih (Bool.and_eq_true_iff.mp h).2

/-- What holds of all productions holds of each. -/
theorem holds_of_all {p : Production → Symbol → List Symbol → Bool} (h : all p = true)
    {x : Phrase} {r : Production} (hr : r ∈ productionsOf x) (done : List Symbol) {y : Symbol}
    {rest : List Symbol} (hs : r.symbols = done ++ y :: rest) : p r y rest = true := by
  have hx := List.all_eq_true.mp h x.ctorIdx (List.mem_range.mpr (ctorIdx_lt x))
  rw [ofNat_ctorIdx] at hx
  rw [productionsOf_eq] at hr
  have hChecks := List.all_eq_true.mp hx r hr
  rw [hs] at hChecks
  exact checks_append hChecks

/-! ## Single productions -/

theorem phrase_of_mem {x : Phrase} {r : Production} (h : r ∈ productionsOf x) : r.phrase = x := by
  rw [productionsOf_eq, productions] at h
  obtain ⟨⟨⟨rule, symbols⟩, i⟩, _, rfl⟩ := List.mem_map.mp h
  rfl

/-- A production is told by its phrase and its index. -/
theorem eq_of_index {x : Phrase} {r r' : Production} (h : r ∈ productionsOf x)
    (h' : r' ∈ productionsOf x) (hi : r.index = r'.index) : r = r' := by
  rw [productionsOf_eq, productions] at h h'
  obtain ⟨⟨⟨rule, symbols⟩, i⟩, hMem, rfl⟩ := List.mem_map.mp h
  obtain ⟨⟨⟨rule', symbols'⟩, i'⟩, hMem', rfl⟩ := List.mem_map.mp h'
  obtain rfl : i = i' := hi
  have hGet := List.mk_mem_zipIdx_iff_getElem?.mp hMem
  have hGet' := List.mk_mem_zipIdx_iff_getElem?.mp hMem'
  rw [hGet] at hGet'
  obtain ⟨rfl, rfl⟩ := Prod.mk.inj (Option.some.inj hGet')
  rfl

set_option maxRecDepth 100000 in
theorem all_small : all (fun r _ _ => r.index < 64 && r.symbols.length < 16) = true := by
  decide +kernel

/-- Whether a phrase is a whole file or a part of it that only a whole file has. -/
def ofFile (x : Phrase) : Bool := x == .file || x == .fileItems

/-- Whether a phrase is part of no other but those of files. -/
def outer (x : Phrase) : Bool := x == .item || ofFile x

/-- Whether a phrase can start with the line feed that ends what stands before it. -/
def startsLine (x : Phrase) : Bool :=
  [.moreImports, .moreTypeSpecs, .moreFields, .moreInterfaceElements,
    .moreStatements].contains x

/-- Whether a symbol can start with a line feed or with the end of the text. -/
def opens : Symbol → Bool
  | .token x => x == .newline || x == .endOfFile
  | .phrase x => startsLine x || outer x

/-- Whether a phrase only stands where neither a line feed nor the end of the text can come
next: where it is enclosed by brackets or quotes, or has no other phrase around it. -/
def inside (x : Phrase) : Bool :=
  [.item, .constSpecs, .varSpecs, .statementList, .stringParts, .expressionCase, .defaultCase,
    .typeCase, .selectCase, .moreExpressionCases, .moreTypeCases, .moreSelectCases].contains x

/-- Whether a token can end with a line feed. -/
def endsLine : Token → Bool
  | .newline | .escape | .rawContent => true
  | _ => false

/-- Whether neither a line feed nor the end of the text can come after a symbol. -/
def closed : Symbol → Bool
  | .token x => endsLine x
  | .phrase x => inside x

set_option maxRecDepth 100000 in
theorem all_opens : all (fun r y rest => rest.length + 1 != r.symbols.length || !opens y ||
    startsLine r.phrase || outer r.phrase) = true := by
  decide +kernel

set_option maxRecDepth 100000 in
theorem all_closed : all (fun r y rest => ofFile r.phrase || !closed y || match rest with
    | [] => inside r.phrase
    | z :: _ => !opens z) = true := by
  decide +kernel

set_option maxRecDepth 100000 in
theorem all_outer : all (fun r y _ => ofFile r.phrase || match y with
    | .phrase x => !outer x
    | .token x => x != .endOfFile || r.phrase == .item) = true := by
  decide +kernel

set_option maxRecDepth 100000 in
theorem all_endOfFile : all (fun _ y rest => (y != .token .endOfFile || rest.isEmpty) &&
    (rest.drop 1).head? != some (.token .endOfFile)) = true := by
  decide +kernel

section Symbols

variable {x : Phrase} {r : Production} (hr : r ∈ productionsOf x) (done : List Symbol)
  {y z : Symbol} {rest : List Symbol}

include hr

theorem opens_of_head (hs : r.symbols = y :: rest) (hy : opens y = true) :
    opens (.phrase x) = true := by
  have h := holds_of_all all_opens hr [] hs
  rw [hs, phrase_of_mem hr, hy] at h
  simpa [opens] using h

/-- No item is part of anything but a file. -/
theorem outer_symbol {w : Phrase} (hx : ofFile x = false)
    (hs : r.symbols = done ++ .phrase w :: rest) : outer w = false := by
  have h := holds_of_all all_outer hr done hs
  simpa [phrase_of_mem hr, hx] using h

theorem eq_item_of_endOfFile (hx : ofFile x = false)
    (hs : r.symbols = done ++ .token .endOfFile :: rest) : x = .item := by
  have h := holds_of_all all_outer hr done hs
  simpa [phrase_of_mem hr, hx] using h

theorem inside_of_last (hx : ofFile x = false) (hy : closed y = true)
    (hs : r.symbols = done ++ [y]) : inside x = true := by
  have h := holds_of_all all_closed hr done hs
  simpa [phrase_of_mem hr, hx, hy] using h

theorem not_opens_of_next (hx : ofFile x = false) (hy : closed y = true)
    (hs : r.symbols = done ++ y :: z :: rest) : opens z = false := by
  have h := holds_of_all all_closed hr done hs
  simpa [phrase_of_mem hr, hx, hy] using h

theorem rest_of_endOfFile (hs : r.symbols = done ++ .token .endOfFile :: rest) : rest = [] := by
  have h := holds_of_all all_endOfFile hr done hs
  simp only [bne_self_eq_false, Bool.false_or, Bool.and_eq_true, List.isEmpty_iff] at h
  exact h.1

theorem next_ne_endOfFile (hs : r.symbols = done ++ y :: z :: rest) (hDone : done ≠ []) :
    z ≠ .token .endOfFile := by
  rintro rfl
  obtain ⟨front, x', rfl⟩ := done.eq_nil_or_concat'.resolve_left hDone
  rw [List.append_assoc] at hs
  have h := holds_of_all all_endOfFile hr front hs
  simp at h

end Symbols

/-! ## Corners -/

section Corners

variable {P : Corner → Prop} (hJoin : ∀ a b : Corner, P a → P b → a.phrase = b.phrase →
  P ⟨a.phrase, a.ahead.union b.ahead, a.atEnd || b.atEnd⟩)

include hJoin

theorem forall_insert {b : Corner} (hb : P b) {table : List Corner} (h : ∀ a ∈ table, P a) :
    ∀ a ∈ (Corner.insert b table).1, P a := by
  induction table with
  | nil => simpa [Corner.insert] using hb
  | cons a table ih =>
    have ha := h a List.mem_cons_self
    have hTable : ∀ a ∈ table, P a := fun a ha => h a (List.mem_cons_of_mem _ ha)
    unfold Corner.insert
    split
    · rename_i hPhrase
      split
      · exact h
      · exact List.forall_mem_cons.mpr ⟨hJoin a b ha hb hPhrase, hTable⟩
    · exact List.forall_mem_cons.mpr ⟨ha, ih hTable⟩

theorem forall_inserts {bs : List Corner} (hBs : ∀ b ∈ bs, P b) {acc : List Corner × Bool}
    (h : ∀ a ∈ acc.1, P a) : ∀ a ∈ (bs.foldl (fun (table, changed) b =>
      let (table, more) := Corner.insert b table
      (table, changed || more)) acc).1, P a := by
  apply List.foldlRecOn (motive := fun acc : List Corner × Bool => ∀ a ∈ acc.1, P a) bs _ h
  intro acc hAcc b hb
  exact forall_insert hJoin (hBs b hb) hAcc

variable {first : Phrase → TokenSet}
  (hChild : ∀ a, P a → ∀ b ∈ Corner.children first (productionsOf a.phrase) a, P b)

include hChild

theorem forall_grow {table : List Corner} (h : ∀ a ∈ table, P a) :
    ∀ a ∈ (Corner.grow first productionsOf table).1, P a := by
  apply List.foldlRecOn (motive := fun acc : List Corner × Bool => ∀ a ∈ acc.1, P a) table _ h
  intro acc hAcc a ha
  exact forall_inserts hJoin (hChild a (h a ha)) hAcc

/-- What holds of the first corners, and of the children of corners of which it holds, holds of
all corners that are found. -/
theorem forall_close {n : Nat} {table : List Corner} (h : ∀ a ∈ table, P a) :
    ∀ a ∈ Corner.close first productionsOf n table, P a := by
  induction n generalizing table with
  | zero => exact h
  | succ n ih =>
    have hNext := forall_grow hJoin hChild h
    unfold Corner.close
    split
    · rename_i hEq
      rw [hEq] at hNext
      exact ih hNext
    · rename_i hEq
      rw [hEq] at hNext
      exact hNext

end Corners

theorem ofFile_of_outer {x : Phrase} (h : outer x = false) : ofFile x = false :=
  (Bool.or_eq_false_iff.mp h).2

/-- A child of a corner comes from a production that starts with a phrase. -/
theorem of_mem_children {first : Phrase → TokenSet} {rs : List Production} {a b : Corner}
    (h : b ∈ Corner.children first rs a) : ∃ r ∈ rs, ∃ rest,
      r.symbols = .phrase b.phrase :: rest ∧
      ((rest = [] ∧ b.ahead = a.ahead ∧ b.atEnd = a.atEnd) ∨
        ∃ z tail, rest = z :: tail ∧ b.ahead = Corner.starts first z ∧ b.atEnd = false) := by
  obtain ⟨r, hr, hb⟩ := List.mem_filterMap.mp h
  refine ⟨r, hr, ?_⟩
  split at hb
  · rename_i x hs
    cases hb
    exact ⟨[], hs, Or.inl ⟨rfl, rfl, rfl⟩⟩
  · rename_i x z tail hs
    cases hb
    exact ⟨z :: tail, hs, Or.inr ⟨z, tail, rfl, rfl, rfl⟩⟩
  · cases hb

/-! ## Line feeds and the end of the text -/

theorem opens_of_cornersAlone {x : Phrase} {c : Corner} (hc : c ∈ cornersAlone x)
    (h : opens (.phrase c.phrase) = true) : opens (.phrase x) = true := by
  have hAll : ∀ c ∈ cornersAlone x, opens (.phrase c.phrase) = true → opens (.phrase x) = true := by
    apply forall_close
    · intro a b ha _ _
      exact ha
    · intro a ha b hb hOpens
      obtain ⟨r, hr, rest, hs, _⟩ := of_mem_children hb
      exact ha (opens_of_head hr hs hOpens)
    · simp
  exact hAll c hc h

theorem contains_foldl_union {α : Type} {f : α → TokenSet} {l : List α} {s : TokenSet}
    {t : Token} : (l.foldl (fun s a => s.union (f a)) s).contains t = true ↔
      s.contains t = true ∨ ∃ a ∈ l, (f a).contains t = true := by
  induction l generalizing s with
  | nil => simp
  | cons a l ih =>
    rw [List.foldl_cons, ih, TokenSet.contains_union, Bool.or_eq_true, List.exists_mem_cons_iff,
      or_assoc]

/-- What can start a phrase starts a production of one of its corners. -/
theorem exists_of_first {x : Phrase} {t : Token} (h : (first x).contains t = true) :
    ∃ c ∈ cornersAlone x, ∃ r ∈ productionsOf c.phrase, ∃ rest, r.symbols = .token t :: rest := by
  have hFound : (firstOf x).contains t = true →
      ∃ c ∈ cornersAlone x, ∃ r ∈ productionsOf c.phrase, (ownStart r).contains t = true := by
    apply List.foldlRecOn (motive := fun s : TokenSet => s.contains t = true →
      ∃ c ∈ cornersAlone x, ∃ r ∈ productionsOf c.phrase, (ownStart r).contains t = true)
    · intro hs
      rw [TokenSet.contains_empty] at hs
      cases hs
    · intro s ih c hc hs
      rcases contains_foldl_union.mp hs with hs | hr
      · exact ih hs
      · exact ⟨c, hc, hr⟩
  rw [first_eq] at h
  obtain ⟨c, hc, r, hr, ht⟩ := hFound h
  refine ⟨c, hc, r, hr, ?_⟩
  unfold ownStart at ht
  split at ht
  · rename_i t' rest hs
    rw [TokenSet.contains_singleton.mp ht]
    exact ⟨rest, hs⟩
  · rw [TokenSet.contains_empty] at ht
    cases ht

/-- Only symbols of a few kinds can start with a line feed or with the end of the text. -/
theorem opens_of_first {y : Symbol} {t : Token} (ht : opens (.token t) = true)
    (h : (firstOfSymbol y).contains t = true) : opens y = true := by
  cases y with
  | token x => exact TokenSet.contains_singleton.mp h ▸ ht
  | phrase x =>
    obtain ⟨c, hc, r, hr, rest, hs⟩ := exists_of_first h
    exact opens_of_cornersAlone hc (opens_of_head hr hs ht)

theorem first_of_not_opens {y : Symbol} {t : Token} (hy : opens y = false)
    (ht : opens (.token t) = true) : (firstOfSymbol y).contains t = false := by
  rw [← Bool.not_eq_true]
  intro h
  rw [opens_of_first ht h] at hy
  cases hy

/-- No part of an item starts with the end of the text. -/
theorem first_endOfFile {x : Phrase} (hx : outer x = false) :
    (first x).contains .endOfFile = false := by
  have hAll : ∀ c ∈ cornersAlone x, outer c.phrase = false := by
    apply forall_close
    · intro a b ha _ _
      exact ha
    · intro a ha b hb
      obtain ⟨r, hr, rest, hs, _⟩ := of_mem_children hb
      exact outer_symbol hr [] (ofFile_of_outer ha) hs
    · simpa using hx
  rw [← Bool.not_eq_true]
  intro h
  obtain ⟨c, hc, r, hr, rest, hs⟩ := exists_of_first h
  have hItem := eq_item_of_endOfFile hr [] (ofFile_of_outer (hAll c hc)) hs
  have := hAll c hc
  rw [hItem] at this
  cases this

/-- Behind a symbol of a production of an item, only the end of the text starts with it. -/
theorem eq_endOfFile_of_first {x : Phrase} {r : Production} (hr : r ∈ productionsOf x)
    (hx : ofFile x = false) (done : List Symbol) {z : Symbol} {rest : List Symbol}
    (hs : r.symbols = done ++ z :: rest) (h : (firstOfSymbol z).contains .endOfFile = true) :
    z = .token .endOfFile := by
  cases z with
  | token t => rw [TokenSet.contains_singleton.mp h]
  | phrase w =>
    have hw : outer w = false := outer_symbol hr done hx hs
    have hFirst : (firstOfSymbol (.phrase w)).contains .endOfFile = false := first_endOfFile hw
    rw [hFirst] at h
    cases h

/-- What is known of the corners of a phrase that is part of others: they do not stand before the
end of the text by themselves, and if they are inside of brackets, not before a line feed. -/
structure Enclosed (x : Phrase) (c : Corner) : Prop where
  outer_eq : outer c.phrase = false
  endOfFile_eq : c.ahead.contains .endOfFile = false
  newline_eq : inside c.phrase = true → c.ahead.contains .newline = false
  inside_eq : inside c.phrase = true → c.atEnd = true → inside x = true

theorem enclosed_of_mem_corners {x : Phrase} (hx : outer x = false) :
    ∀ c ∈ corners x, Enclosed x c := by
  rw [corners_eq]
  apply forall_close
  · intro a b ha hb he
    refine ⟨ha.outer_eq, ?_, fun hIn => ?_, fun hIn hEnd => ?_⟩
    · rw [TokenSet.contains_union, ha.endOfFile_eq, hb.endOfFile_eq, Bool.or_false]
    · rw [TokenSet.contains_union, ha.newline_eq hIn, hb.newline_eq (he ▸ hIn), Bool.or_false]
    · rcases Bool.or_eq_true_iff.mp hEnd with hEnd | hEnd
      · exact ha.inside_eq hIn hEnd
      · exact hb.inside_eq (he ▸ hIn) hEnd
  · intro a ha b hb
    obtain ⟨r, hr, rest, hs, hRest⟩ := of_mem_children hb
    have hFile := ofFile_of_outer ha.outer_eq
    have hOuter := outer_symbol hr [] hFile hs
    rcases hRest with ⟨rfl, hAhead, hEnd⟩ | ⟨z, tail, rfl, hAhead, hEnd⟩
    · have hIn : inside b.phrase = true → inside a.phrase = true := fun h =>
        inside_of_last hr [] hFile (y := .phrase b.phrase) h hs
      refine ⟨hOuter, hAhead ▸ ha.endOfFile_eq, fun h => ?_, fun h he => ?_⟩
      · rw [hAhead]
        exact ha.newline_eq (hIn h)
      · exact ha.inside_eq (hIn h) (hEnd ▸ he)
    · refine ⟨hOuter, ?_, fun h => ?_, fun _ he => ?_⟩
      · rw [hAhead, ← Bool.not_eq_true]
        intro he
        obtain rfl : z = .token .endOfFile := eq_endOfFile_of_first hr hFile [_] hs he
        have hItem := eq_item_of_endOfFile hr [_] hFile hs
        have hOut := ha.outer_eq
        rw [hItem] at hOut
        cases hOut
      · have hz : opens z = false := not_opens_of_next hr [] hFile (y := .phrase b.phrase) h hs
        rw [hAhead]
        exact first_of_not_opens hz rfl
      · rw [hEnd] at he
        cases he
  · intro a ha
    rw [List.mem_singleton.mp ha]
    exact ⟨hx, TokenSet.contains_empty _, fun _ => TokenSet.contains_empty _, fun h _ => h⟩

end Grammar

end FuncSpans.Go
