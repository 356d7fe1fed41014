import FuncSpans.Proofs.Go.Lexeme
import FuncSpans.Proofs.Go.Scan

/-!
# Reading in a text that goes on

A text that ends with a line feed is read as before when more text is put after it. A token that
is read in the longer text is the same as in the shorter one, or it ends in the new text
(`Lexeme.front_append`, `Lexeme.read_extend`). The exception is a comment that only the new text
closes (`Scan.ClosedBy`).
-/

namespace FuncSpans.Go

/-! ## Places -/

namespace Cursor

/-- The place in the text that goes on. -/
def extend (rest : List Char) (c : Cursor) : Cursor := { c with rest := c.rest ++ rest }

variable {rest : List Char} {c : Cursor}

theorem remaining_extend (rest : List Char) (c : Cursor) :
    (c.extend rest).remaining = c.remaining + rest.length := List.length_append

theorem next_extend (h : c.rest ≠ []) : (c.extend rest).next = c.next.extend rest := by
  obtain ⟨text, line, column, offset⟩ := c
  cases text with
  | nil => exact (h rfl).elim
  | cons x text =>
    unfold next extend
    split
    · rename_i hEq
      cases hEq
    · rename_i hEq
      cases hEq
      rfl
    · rename_i hx hEq
      cases hEq
      split
      · rename_i hEq
        cases hEq
      · rename_i hEq
        cases hEq
        exact (hx rfl).elim
      · rename_i hEq
        cases hEq
        rfl

theorem skip_extend {n : Nat} (h : n ≤ c.remaining) :
    skip n (c.extend rest) = (skip n c).extend rest := by
  induction n generalizing c with
  | zero => rfl
  | succ n ih =>
    have hRest : c.rest ≠ [] := by
      intro hRest
      rw [remaining, hRest] at h
      cases h
    rw [skip, skip, next_extend hRest, ih]
    rw [remaining_next]
    omega

theorem start_extend {text : List Char} (h : text ≠ []) (rest : List Char) :
    start (text ++ rest) = (start text).extend rest := by
  cases text with
  | nil => exact (h rfl).elim
  | cons x text =>
    rw [List.cons_append]
    by_cases hx : x = '\uFEFF'
    · subst hx
      rfl
    · unfold start
      split
      · rename_i hEq
        exact (hx (List.cons.inj hEq).1).elim
      · split
        · rename_i hEq
          exact (hx (List.cons.inj hEq).1).elim
        · rfl

/-- The place stands in a text that ends with a line feed. -/
def Ends (c : Cursor) : Prop := c.rest.getLast? = some '\n'

theorem Ends.rest_ne (h : c.Ends) : c.rest ≠ [] := Scan.ne_nil_of_ends h

theorem Ends.skip (h : c.Ends) {n : Nat} (hn : n < c.remaining) : (skip n c).Ends := by
  rw [Ends, rest_skip]
  exact Scan.ends_drop h hn

/-- A later place stands in the text too, or at its end. -/
theorem Ends.leads (h : c.Ends) {d : Cursor} (hd : c.Leads d) : d.rest = [] ∨ d.Ends := by
  obtain ⟨n, hn, rfl⟩ := hd.exists_le
  rcases Nat.lt_or_eq_of_le hn with hn | rfl
  · exact Or.inr (h.skip hn)
  · left
    rw [rest_skip]
    exact List.drop_length

end Cursor

/-- A comment begins in a text and only what comes after the text closes it. -/
def Scan.ClosedBy (rest s : List Char) : Prop :=
  s ≠ [] ∧ comment s = none ∧ comment (s ++ rest) ≠ none

instance (rest s : List Char) : Decidable (Scan.ClosedBy rest s) := by
  unfold Scan.ClosedBy
  infer_instance

namespace Lexeme

variable {wanted : TokenSet} {stepped : Bool} {s rest : List Char} {t : Token} {n : Nat}

/-! ## The front of a text -/

theorem mark_append (hs : '\n' ∈ s) : mark wanted (s ++ rest) = mark wanted s := by
  have hMarks : ∀ m ∈ Scan.marks, '\n' ∉ m.1 := by decide
  apply List.foldl_ext _ _ _
  intro best m hm
  have hStarts : m.1.isPrefixOf (s ++ rest) = m.1.isPrefixOf s := by
    rw [Bool.eq_iff_iff, List.isPrefixOf_iff_prefix, List.isPrefixOf_iff_prefix]
    constructor
    · intro h
      rcases List.prefix_or_prefix_of_prefix h (List.prefix_append s rest) with h | h
      · exact h
      · exact (hMarks m hm (h.subset hs)).elim
    · intro h
      exact h.trans (List.prefix_append s rest)
  dsimp only
  rw [hStarts]

theorem stringPart_append (wanted : TokenSet) (hs : '\n' ∈ s) (rest : List Char) :
    stringPart wanted (s ++ rest) = stringPart wanted s := by
  unfold stringPart candidate
  rw [(Scan.Local.stringContent s rest hs).1, (Scan.Stable.escape s rest hs).1,
    (Scan.Local.char (by decide) s rest hs).1]

theorem plain_quote (text : List Char) : plain wanted ('\'' :: text) =
    candidate wanted .constant Scan.rune ('\'' :: text) := by
  have hMark : mark wanted ('\'' :: text) = none := by
    have hMarks : ∀ m ∈ Scan.marks, m.1 ≠ [] ∧ m.1.head? ≠ some '\'' := by decide
    rw [← Option.not_isSome_iff_eq_none, Option.isSome_iff_exists]
    rintro ⟨⟨t, n⟩, h⟩
    obtain ⟨spelling, hMem, hStarts, _⟩ := of_mark h
    obtain ⟨hNe, hHead⟩ := hMarks _ hMem
    obtain ⟨x, tail, rfl⟩ := List.exists_cons_of_ne_nil hNe
    obtain ⟨rfl, _⟩ := List.cons_prefix_cons.mp hStarts
    exact hHead rfl
  have hNumber : Scan.number ('\'' :: text) = none := rfl
  unfold plain
  rw [hMark, candidate, hNumber]
  split <;> rfl

set_option maxRecDepth 100000 in
theorem word_quote (text : List Char) : Scan.word ('\'' :: text) = none := by
  have h : Text.isIdentifierStart '\'' = false := by decide +kernel
  simp [Scan.word, h]

theorem raw_append (s rest : List Char) : Scan.rawContent (s ++ rest) = Scan.rawContent s ∨
    Scan.rawContent s = some s.length ∧ ∃ n, Scan.rawContent (s ++ rest) = some n ∧
      s.length ≤ n := by
  unfold Scan.rawContent Scan.atLeast
  by_cases hQuote : '`' ∈ s
  · rw [Scan.takeWhile_append (x := '`') (by decide) rest hQuote]
    exact Or.inl rfl
  · have hAll : ∀ c ∈ s, (c != '`') = true := fun c hc => by
      rw [bne_iff_ne]
      rintro rfl
      exact hQuote hc
    rw [List.takeWhile_append_of_pos hAll, List.takeWhile_eq_self_iff.mpr hAll]
    refine Or.inr ⟨rfl, _, rfl, ?_⟩
    rw [List.length_append]
    exact Nat.le_add_right _ _

/-- What is read of a literal or a mark depends on the text after it only where the text ends
inside of a rune. -/
theorem plain_append (wanted : TokenSet) (hs : s.getLast? = some '\n') (rest : List Char) :
    plain wanted (s ++ rest) = plain wanted s ∨
      plain wanted s = none ∧ s.head? = some '\'' ∧
        ∃ n, plain wanted (s ++ rest) = some (.constant, n) ∧ s.length < n := by
  have hMem := Scan.mem_of_ends hs
  rcases Scan.rune_append hs rest with hRune | ⟨hHead, hNone, hLt⟩
  · left
    unfold plain candidate
    rw [mark_append hMem, (Scan.Local.number s rest hMem).1, hRune]
  · obtain ⟨text, rfl⟩ := List.head?_eq_some_iff.mp hHead
    rw [List.cons_append, plain_quote, plain_quote]
    unfold candidate
    by_cases hWanted : wanted.contains .constant = true
    · rw [if_pos hWanted, if_pos hWanted, hNone]
      rw [List.cons_append] at hLt
      cases hRune : Scan.rune ('\'' :: (text ++ rest)) with
      | none => exact Or.inl rfl
      | some n => exact Or.inr ⟨rfl, rfl, n, rfl, hLt n hRune⟩
    · rw [if_neg hWanted, if_neg hWanted]
      exact Or.inl rfl

/-- The front of a text that goes on is the same, or there is a token that takes up the whole text
and perhaps more. -/
theorem front_append (wanted : TokenSet) (stepped : Bool) (hs : s.getLast? = some '\n')
    (hClosed : ¬ Scan.ClosedBy rest s) :
    front wanted stepped (s ++ rest) = front wanted stepped s ∨
      (front wanted stepped s = .unexpected ∨
        front wanted stepped s = .token .rawContent s.length) ∧
      ∃ t n, front wanted stepped (s ++ rest) = .token t n ∧
        (s.length < n ∨ t = .rawContent ∧ s.length ≤ n) := by
  have hMem := Scan.mem_of_ends hs
  have hPart := stringPart_append wanted hMem rest
  have hComment : Scan.comment (s ++ rest) = Scan.comment s := by
    apply Scan.comment_append hs
    intro hNone
    by_contra hSome
    exact hClosed ⟨List.ne_nil_of_mem hMem, hNone, hSome⟩
  have hRaw := raw_append s rest
  have hPlain := plain_append wanted hs rest
  obtain ⟨hWord, hWordTake⟩ := Scan.Local.word s rest hMem
  obtain ⟨c, text, rfl⟩ := List.exists_cons_of_ne_nil (List.ne_nil_of_mem hMem)
  rw [List.cons_append] at *
  rw [front, front]
  by_cases hNewline : ((c == '\n' || c == '\x00') && wanted.contains .newline) = true
  · rw [if_pos hNewline, if_pos hNewline]
    exact Or.inl rfl
  rw [if_neg hNewline, if_neg hNewline]
  by_cases hWanted : wanted.contains .rawContent = true
  · rw [if_pos hWanted, if_pos hWanted]
    rcases hRaw with hRaw | ⟨hRaw, n, hn, hLe⟩
    · rw [hRaw]
      exact Or.inl rfl
    · rw [hRaw, hn]
      exact Or.inr ⟨Or.inr rfl, _, _, rfl, Or.inr ⟨rfl, hLe⟩⟩
  rw [if_neg hWanted, if_neg hWanted, hPart, hComment]
  split
  · exact Or.inl rfl
  split
  · exact Or.inl rfl
  rcases hPlain with hPlain | ⟨hPlain, hQuote, n, hn, hLt⟩
  · left
    rw [hPlain, hWord]
    split
    · rfl
    split
    · rename_i n hn
      rw [← List.cons_append, List.take_append_of_le_length]
      exact Nat.le_of_lt (Scan.lt_length hMem (hWordTake n hn))
    · rfl
  · right
    obtain rfl : c = '\'' := Option.some.inj hQuote
    rw [hPlain, hn, word_quote]
    exact ⟨Or.inl rfl, _, _, rfl, Or.inl hLt⟩

/-- A token ends before its text does, unless it can end with a line feed. -/
theorem token_lt (hs : s.getLast? = some '\n') (h : front wanted stepped s = .token t n) :
    n < s.length ∨ n = s.length ∧ Grammar.endsLine t = true := by
  have hMem := Scan.mem_of_ends hs
  have hPos := List.length_pos_of_mem hMem
  cases stands_of_front h with
  | atEnd hNil _ _ => exact (List.ne_nil_of_mem hMem hNil).elim
  | newline =>
    rcases Nat.lt_or_eq_of_le (Nat.succ_le_of_lt hPos) with hLt | hEq
    · exact Or.inl hLt
    · exact Or.inr ⟨hEq, rfl⟩
  | raw =>
    have hLe : (s.takeWhile (· != '`')).length ≤ s.length := (List.takeWhile_sublist _).length_le
    rcases Nat.lt_or_eq_of_le hLe with hLt | hEq
    · exact Or.inl hLt
    · exact Or.inr ⟨hEq, rfl⟩
  | part hPart =>
    rcases of_stringPart hPart with ⟨rfl, hn⟩ | ⟨rfl, hn⟩ | ⟨rfl, hn⟩
    · exact Or.inl (Scan.lt_length hMem ((Scan.Local.stringContent s [] hMem).2 n hn))
    · have hLe := (Scan.Stable.escape s [] hMem).2 n hn
      rcases Nat.lt_or_eq_of_le hLe with hLt | hEq
      · exact Or.inl hLt
      · exact Or.inr ⟨hEq, rfl⟩
    · exact Or.inl (Scan.lt_length hMem ((Scan.Local.char (by decide) s [] hMem).2 n hn))
  | plain hPlain =>
    left
    rcases of_plain hPlain with ⟨spelling, hMark, hStarts, rfl⟩ | ⟨rfl, hn | hn⟩
    · have hMarks : ∀ m ∈ Scan.marks, '\n' ∉ m.1 := by decide
      apply Nat.lt_of_le_of_ne hStarts.length_le
      intro hEq
      exact hMarks _ hMark (hStarts.eq_of_length hEq ▸ hMem)
    · exact Scan.lt_length hMem ((Scan.Local.number s [] hMem).2 n hn)
    · exact Scan.rune_lt hs hn
  | word hn _ => exact Or.inl (Scan.lt_length hMem ((Scan.Local.word s [] hMem).2 n hn))

/-- Only the content of a raw string can be empty where text is left. -/
theorem eq_raw_of_zero (hs : s ≠ []) (h : front wanted stepped s = .token t 0) :
    t = .rawContent := by
  generalize hn : 0 = n at h
  cases stands_of_front h with
  | atEnd hNil _ _ => exact (hs hNil).elim
  | newline => cases hn
  | raw => rfl
  | part hPart =>
    subst hn
    rcases of_stringPart hPart with ⟨_, hn⟩ | ⟨_, hn⟩ | ⟨_, hn⟩
    · cases Scan.Positive.stringContent _ _ hn
    · cases Scan.Positive.escape _ _ hn
    · cases Scan.Positive.one _ _ _ hn
  | plain hPlain =>
    subst hn
    rcases of_plain hPlain with ⟨spelling, hMark, _, hn⟩ | ⟨_, hn | hn⟩
    · have hMarks : ∀ m ∈ Scan.marks, m.1.length ≠ 0 := by decide
      exact (hMarks _ hMark hn.symm).elim
    · cases Scan.Positive.number _ _ hn
    · cases Scan.Positive.rune _ _ hn
  | word hWord _ =>
    have hPos := word_pos hWord
    omega

/-! ## Blanks and comments -/

theorem comment_of_blank {c : Char} {text : List Char} (h : isBlank c = true) :
    Scan.comment (c :: text) = none := by
  have hc : c ≠ '/' := by
    rintro rfl
    cases h
  unfold Scan.comment
  split
  · rename_i hEq
    exact (hc (List.cons.inj hEq).1).elim
  · rename_i hEq
    exact (hc (List.cons.inj hEq).1).elim
  · rfl

/-- What is stepped over in the shorter text is stepped over in the longer one. -/
theorem Skips.extend {b : Bool} {c d : Cursor} (hc : c.Ends) (h : Skips wanted stepped c b d) :
    Skips wanted stepped (c.extend rest) b (d.extend rest) := by
  induction h with
  | refl => exact .refl _ _
  | @comment stepped b c d n hFront hSkips ih =>
    have hComment := comment_of_front hFront
    have hLt : n < c.remaining := Scan.comment_lt hc hComment
    refine .comment (n := n) ?_ ?_
    · have hClosed : ¬ Scan.ClosedBy rest c.rest := fun h => by
        rw [h.2.1] at hComment
        cases hComment
      rcases front_append wanted stepped hc hClosed with hEq | ⟨hOr, _⟩
      · exact hEq.trans hFront
      · rw [hFront] at hOr
        rcases hOr with hOr | hOr <;> cases hOr
    · rw [Cursor.skip_extend (Nat.le_of_lt hLt)]
      exact ih (hc.skip hLt)
  | @blank stepped b c d hFront hSkips ih =>
    refine .blank ?_ ?_
    · obtain ⟨x, text, hRest, hBlank, _⟩ := blank_of_front hFront
      have hClosed : ¬ Scan.ClosedBy rest c.rest := fun h => h.2.2 (by
        rw [hRest, List.cons_append, comment_of_blank hBlank])
      rcases front_append wanted stepped hc hClosed with hEq | ⟨hOr, _⟩
      · exact hEq.trans hFront
      · rw [hFront] at hOr
        rcases hOr with hOr | hOr <;> cases hOr
    · rw [Cursor.next_extend hc.rest_ne]
      rcases hc.leads (.next c) with hNil | hEnds
      · cases hSkips with
        | refl => exact .refl _ _
        | comment hFront' _ =>
          exact ((comment_pos (comment_of_front hFront')).1 hNil).elim
        | blank hFront' _ =>
          obtain ⟨x, text, hRest, _⟩ := blank_of_front hFront'
          rw [hNil] at hRest
          cases hRest
      · exact ih hEnds

/-- Where the text ends after blanks, the last one is a line feed that is not wanted. -/
theorem Skips.newline_of_end {b : Bool} {c d : Cursor} (hc : c.Ends)
    (h : Skips wanted stepped c b d) (hd : d.rest = []) :
    wanted.contains .newline = false := by
  induction h with
  | refl => exact (hc.rest_ne hd).elim
  | comment hFront _ ih =>
    exact ih (hc.skip (Scan.comment_lt hc (comment_of_front hFront))) hd
  | @blank stepped b c d hFront hSkips ih =>
    rcases hc.leads (.next c) with hNil | hEnds
    · obtain ⟨x, text, hRest, _, _, _, hNewline⟩ := blank_of_front hFront
      rw [Cursor.rest_next, hRest, List.drop_succ_cons, List.drop_zero] at hNil
      rw [Cursor.Ends, hRest, hNil, List.getLast?_singleton, Option.some.injEq] at hc
      exact hNewline hc
    · exact ih hEnds hd

/-! ## Tokens -/

/-- A token that has been read in the text that goes on. -/
def extend (rest : List Char) (l : Lexeme) : Lexeme :=
  ⟨l.token, l.text, l.start.extend rest, l.next.extend rest⟩

/-- A token that ends in the new text, or the content of a raw string that takes up all of the old
one. -/
def Crosses (rest : List Char) (l : Lexeme) : Prop :=
  l.next.remaining < rest.length ∨ l.token = .rawContent ∧ l.next.remaining ≤ rest.length

/-- The token that stands where blanks and comments end. -/
theorem read_of_skips {b : Bool} {c p : Cursor} (h : Skips wanted false c b p)
    (hp : Stops wanted b p) : read wanted c = match front wanted b p.rest with
      | .token t n => some ⟨t, p.rest.take n, p, p.skip n⟩
      | .comment _ | .blank | .unexpected => none := by
  have hRead : ∀ q, place wanted c = q → read wanted c = match front wanted q.1 q.2.rest with
      | .token t n => some ⟨t, q.2.rest.take n, q.2, q.2.skip n⟩
      | .comment _ | .blank | .unexpected => none := by
    rintro _ rfl
    rfl
  exact hRead _ (place_eq h hp)

theorem read_nil {b : Bool} {c p : Cursor} (h : Skips wanted false c b p) (hp : p.rest = [])
    (hNewline : wanted.contains .newline = false) (hEnd : wanted.contains .endOfFile = false) :
    read wanted c = none := by
  have hFront : front wanted b p.rest = .unexpected := by
    rw [hp, front, hEnd, hNewline]
    rfl
  rw [read_of_skips h ⟨by simp [hFront], by simp [hFront]⟩, hFront]

/-- Where only blanks are left of the text, its end is wanted only where a line feed is. -/
def Closes (wanted : TokenSet) (c : Cursor) : Prop :=
  (place wanted c).2.rest = [] → wanted.contains .endOfFile = true →
    wanted.contains .newline = true

/-- No token stands for blanks at the end of a text. -/
theorem Closes.read_eq_none {c : Cursor} (h : Closes wanted c) (hc : c.Ends)
    (hNil : (place wanted c).2.rest = []) : read wanted c = none := by
  have hNewline := (skips_place wanted c).newline_of_end hc hNil
  apply read_nil (skips_place wanted c) hNil hNewline
  rw [← Bool.not_eq_true]
  intro hEnd
  rw [h hNil hEnd] at hNewline
  cases hNewline

/-- A token that is looked for behind the shorter text crosses the end of that. -/
theorem crosses_of_place {c : Cursor} (hc : (place wanted c).2.remaining ≤ rest.length)
    (hRest : rest ≠ []) {l : Lexeme} (hl : read wanted c = some l) : l.Crosses rest := by
  obtain ⟨n, hFront, _, _, hNext⟩ := read_eq_some.mp hl
  have hPos := List.length_pos_iff.mpr hRest
  unfold Crosses
  rw [hNext, Cursor.remaining_skip]
  by_cases hn : n = 0
  · subst hn
    by_cases hNil : (place wanted c).2.rest = []
    · left
      rw [Cursor.remaining, hNil, List.length_nil]
      omega
    · exact Or.inr ⟨eq_raw_of_zero hNil hFront, hc⟩
  · left
    omega

/-- The front of a text decides whether anything is stepped over there. -/
theorem Stops.of_front_eq {b b' : Bool} {p p' : Cursor} (h : Stops wanted b p)
    (hSame : front wanted b' p'.rest = front wanted b p.rest) : Stops wanted b' p' := by
  constructor
  · intro n
    rw [hSame]
    exact h.not_comment n
  · rw [hSame]
    exact h.not_blank

/-- No token is stepped over. -/
theorem stops_of_token {b : Bool} {p : Cursor} (h : front wanted b p.rest = .token t n) :
    Stops wanted b p := by
  constructor <;> simp [h]

/-- Where the front of the longer text is that of the shorter one, the same token is read. -/
theorem read_extend_of_front {b : Bool} {c p : Cursor} (hc : c.Ends)
    (hSkips : Skips wanted false c b p) (hStops : Stops wanted b p) (hp : p.Ends)
    (hSame : front wanted b (p.extend rest).rest = front wanted b p.rest) :
    read wanted (c.extend rest) = (read wanted c).map (extend rest) := by
  rw [read_of_skips (hSkips.extend hc) (hStops.of_front_eq hSame), read_of_skips hSkips hStops,
    hSame]
  cases hFront : front wanted b p.rest with
  | token t n =>
    have hLe : n ≤ p.rest.length := by
      rcases token_lt hp hFront with hLt | ⟨hEq, _⟩
      · exact Nat.le_of_lt hLt
      · exact Nat.le_of_eq hEq
    have hTake : (p.extend rest).rest.take n = p.rest.take n :=
      List.take_append_of_le_length hLe
    simp only [Option.map_some, extend]
    rw [hTake, Cursor.skip_extend hLe]
  | comment n => rfl
  | blank => rfl
  | unexpected => rfl

/-- Where the front of the longer text goes beyond the shorter one, the token crosses its end. -/
theorem crosses_of_front {b : Bool} {c p : Cursor} (hRest : rest ≠ [])
    (hSkips : Skips wanted false (c.extend rest) b (p.extend rest))
    (hFront : front wanted b (p.extend rest).rest = .token t n)
    (hLong : p.rest.length < n ∨ t = .rawContent ∧ p.rest.length ≤ n) {l : Lexeme}
    (hl : read wanted (c.extend rest) = some l) : l.Crosses rest := by
  rw [read_of_skips hSkips (stops_of_token hFront), hFront] at hl
  cases hl
  unfold Crosses
  dsimp only
  rw [Cursor.remaining_skip, Cursor.remaining_extend, Cursor.remaining]
  rcases hLong with hLt | ⟨rfl, hLe⟩
  · have hPos := List.length_pos_iff.mpr hRest
    left
    omega
  · exact Or.inr ⟨rfl, by omega⟩

/-- In the longer text a token is read as in the shorter one, or it crosses the end of that, and
the shorter text has no such token but perhaps the content of a raw string. -/
theorem read_extend {c : Cursor} (hc : c.Ends) (hRest : rest ≠ [])
    (hClosed : ¬ Scan.ClosedBy rest (place wanted c).2.rest) (hEnd : Closes wanted c) :
    read wanted (c.extend rest) = (read wanted c).map (extend rest) ∨
      (∀ l, read wanted c = some l → l.token = .rawContent ∧ l.next.rest = []) ∧
        ∀ l, read wanted (c.extend rest) = some l → l.Crosses rest := by
  have hNone := hEnd.read_eq_none hc
  have hSkips := skips_place wanted c
  have hStops := stops_place wanted c
  generalize (place wanted c).1 = b at hSkips hStops
  generalize (place wanted c).2 = p at hSkips hStops hClosed hNone
  have hLonger : Skips wanted false (c.extend rest) b (p.extend rest) := hSkips.extend hc
  rcases hc.leads hSkips.leads with hNil | hEnds
  · right
    refine ⟨fun l hl => ?_, fun l hl => crosses_of_place ?_ hRest hl⟩
    · rw [hNone hNil] at hl
      cases hl
    · obtain ⟨b', q, hSkips', hStops'⟩ := exists_skips wanted b (p.extend rest)
      have hp := Cursor.remaining_eq_zero hNil
      have hLe := hSkips'.leads.remaining_le
      rw [Cursor.remaining_extend, hp, Nat.zero_add] at hLe
      rw [place_eq (hLonger.trans hSkips') hStops']
      exact hLe
  · rcases front_append wanted b hEnds hClosed with hSame | ⟨hOr, t, n, hFront, hLong⟩
    · exact Or.inl (read_extend_of_front hc hSkips hStops hEnds hSame)
    · refine Or.inr ⟨fun l hl => ?_, fun l hl => crosses_of_front hRest hLonger hFront hLong hl⟩
      rw [read_of_skips hSkips hStops] at hl
      rcases hOr with hOr | hOr
      · rw [hOr] at hl
        cases hl
      · rw [hOr] at hl
        cases hl
        refine ⟨rfl, ?_⟩
        dsimp only
        rw [Cursor.rest_skip, List.drop_length]

/-- A token up to the end of the shorter text can end with a line feed. -/
theorem endsLine_of_end {c : Cursor} (hc : c.Ends) (hEnd : Closes wanted c) {l : Lexeme}
    (hl : read wanted c = some l) (hNext : l.next.rest = []) :
    Grammar.endsLine l.token = true := by
  obtain ⟨n, hFront, _, _, hl'⟩ := read_eq_some.mp hl
  rcases hc.leads (leads_place wanted c) with hNil | hEnds
  · rw [hEnd.read_eq_none hc hNil] at hl
    cases hl
  · rcases token_lt hEnds hFront with hLt | ⟨_, hLine⟩
    · rw [hl', Cursor.rest_skip, List.drop_eq_nil_iff] at hNext
      omega
    · exact hLine

/-! ## Between items -/

theorem front_empty_congr (b b' : Bool) (cs : List Char) :
    front .empty b cs = front .empty b' cs := by
  cases cs with
  | nil => rfl
  | cons c text => rw [front_empty, front_empty]

/-- Where no token is wanted it does not matter whether a blank has been stepped over. -/
theorem pastBlanks_of_skips {b b' : Bool} {c p : Cursor} (h : Skips .empty b c b' p)
    (hp : Stops .empty b' p) : pastBlanks c = p := by
  unfold pastBlanks
  cases h with
  | refl =>
    rw [place_eq (.refl _ _) (hp.of_front_eq (front_empty_congr false b c.rest))]
  | comment hFront h =>
    rw [front_empty_congr b false] at hFront
    rw [place_eq (.comment hFront h) hp]
  | blank hFront h =>
    rw [front_empty_congr b false] at hFront
    rw [place_eq (.blank hFront h) hp]

/-- In the longer text an item begins where it does in the shorter one. -/
theorem pastBlanks_extend {c : Cursor} (hc : c.Ends) (hp : (pastBlanks c).rest ≠ [])
    (hClosed : ¬ Scan.ClosedBy rest (pastBlanks c).rest) :
    pastBlanks (c.extend rest) = (pastBlanks c).extend rest := by
  have hSkips := skips_place .empty c
  have hStops := stops_place .empty c
  apply pastBlanks_of_skips (hSkips.extend hc)
  have hEnds := (hc.leads hSkips.leads).resolve_left hp
  rcases front_append .empty _ hEnds hClosed with hSame | ⟨_, t, n, hFront, _⟩
  · exact hStops.of_front_eq hSame
  · exact stops_of_token hFront

/-- Where no item begins any more the first one begins in the new text. -/
theorem pastBlanks_extend_end {c : Cursor} (hc : c.rest = [] ∨ c.Ends)
    (hp : (pastBlanks c).rest = []) :
    pastBlanks (c.extend rest) = pastBlanks ((pastBlanks c).extend rest) := by
  rcases hc with hNil | hEnds
  · have hEq : (pastBlanks c).remaining = c.remaining := by
      rw [Cursor.remaining_eq_zero hp, Cursor.remaining_eq_zero hNil]
    rw [Cursor.Leads.eq_of_remaining (leads_pastBlanks c) (.refl c) hEq]
  · have hSkips : Skips .empty _ (c.extend rest) _ ((pastBlanks c).extend rest) :=
      (skips_place .empty c).extend hEnds
    obtain ⟨b, p, hSkips', hStops⟩ :=
      exists_skips .empty (place .empty c).1 ((pastBlanks c).extend rest)
    rw [pastBlanks_of_skips (hSkips.trans hSkips') hStops, pastBlanks_of_skips hSkips' hStops]

end Lexeme

end FuncSpans.Go
