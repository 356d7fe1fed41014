import FuncSpans.Go.Lexeme
import FuncSpans.Proofs.Go.Cursor
import FuncSpans.Proofs.Go.Productions

/-!
# Reading a token

A token is read at a place after the blanks and comments in front of it (`Lexeme.read_eq_some`).
It moves on exactly if its text is not empty (`remaining_next_lt`).
-/

namespace FuncSpans.Go.Lexeme

/-! ## The front of a text -/

/-- A token at the front of a text, with the scan that finds it. -/
inductive Stands (wanted : TokenSet) (cs : List Char) : Token → Nat → Prop
  | atEnd {t : Token} : cs = [] → t = .endOfFile ∨ t = .newline → wanted.contains t = true →
      Stands wanted cs t 0
  | newline : cs ≠ [] → Stands wanted cs .newline 1
  | raw : cs ≠ [] → wanted.contains .rawContent = true →
      Stands wanted cs .rawContent ((Scan.rawContent cs).getD 0)
  | part {t : Token} {n : Nat} : stringPart wanted cs = some (t, n) → Stands wanted cs t n
  | plain {t : Token} {n : Nat} : plain wanted cs = some (t, n) → Stands wanted cs t n
  | word {t : Token} {n : Nat} : Scan.word cs = some n →
      classOfWord wanted (cs.take n) = some t → Stands wanted cs t n

/-- What the front of a text is taken for, and why. A blank is no comment and no word, and no line
feed that is wanted. -/
inductive Shows (wanted : TokenSet) (cs : List Char) : Front → Prop
  | token {t : Token} {n : Nat} : Stands wanted cs t n → Shows wanted cs (.token t n)
  | comment {n : Nat} : Scan.comment cs = some n → Shows wanted cs (.comment n)
  | blank {c : Char} {text : List Char} : cs = c :: text → isBlank c = true →
      Scan.comment cs = none → Scan.word cs = none →
      (c = '\n' → wanted.contains .newline = false) → Shows wanted cs .blank
  | unexpected : Shows wanted cs .unexpected

theorem shows_front (wanted : TokenSet) (stepped : Bool) (cs : List Char) :
    Shows wanted cs (front wanted stepped cs) := by
  unfold front
  split
  · split
    · rename_i hw
      exact .token (.atEnd rfl (Or.inl rfl) hw)
    · split
      · rename_i hw
        exact .token (.atEnd rfl (Or.inr rfl) (Bool.and_eq_true_iff.mp hw).1)
      · exact .unexpected
  · rename_i c text
    split
    · exact .token (.newline (by simp))
    · rename_i hNewline
      split
      · rename_i hRaw
        exact .token (.raw (by simp) hRaw)
      · split
        · rename_i hPart
          split at hPart
          · cases hPart
          · exact .token (.part hPart)
        · split
          · rename_i hComment
            exact .comment hComment
          · rename_i hComment
            split
            · rename_i hPlain
              exact .token (.plain hPlain)
            · split
              · rename_i hWord
                split
                · split
                  · rename_i hClass
                    exact .token (.word hWord hClass)
                  · exact .unexpected
                · exact .unexpected
              · rename_i hWord
                split
                · rename_i hBlank
                  apply Shows.blank rfl hBlank hComment hWord
                  rintro rfl
                  simpa using hNewline
                · exact .unexpected

section Front

variable {wanted : TokenSet} {stepped : Bool} {cs : List Char}

theorem stands_of_front {t : Token} {n : Nat} (h : front wanted stepped cs = .token t n) :
    Stands wanted cs t n := by
  have hShows := shows_front wanted stepped cs
  rw [h] at hShows
  cases hShows with
  | token hStands => exact hStands

theorem comment_of_front {n : Nat} (h : front wanted stepped cs = .comment n) :
    Scan.comment cs = some n := by
  have hShows := shows_front wanted stepped cs
  rw [h] at hShows
  cases hShows with
  | comment hComment => exact hComment

theorem blank_of_front (h : front wanted stepped cs = .blank) :
    ∃ c text, cs = c :: text ∧ isBlank c = true ∧ Scan.comment cs = none ∧
      Scan.word cs = none ∧ (c = '\n' → wanted.contains .newline = false) := by
  have hShows := shows_front wanted stepped cs
  rw [h] at hShows
  cases hShows with
  | blank hCs hBlank hComment hWord hNewline =>
    exact ⟨_, _, hCs, hBlank, hComment, hWord, hNewline⟩

end Front

/-! ## Where a token is looked for -/

theorem comment_pos {cs : List Char} {n : Nat} (h : Scan.comment cs = some n) :
    cs ≠ [] ∧ 0 < n := by
  unfold Scan.comment at h
  split at h
  · cases h
    exact ⟨by simp, Nat.succ_pos _⟩
  · obtain ⟨m, _, rfl⟩ := Option.map_eq_some_iff.mp h
    exact ⟨by simp, Nat.succ_pos _⟩
  · cases h

/-- Blanks and comments lead from one place to another. With each place stands whether a blank has
been stepped over since the token or comment before. -/
inductive Skips (wanted : TokenSet) : Bool → Cursor → Bool → Cursor → Prop
  | refl (stepped : Bool) (c : Cursor) : Skips wanted stepped c stepped c
  | comment {stepped b : Bool} {c d : Cursor} {n : Nat} :
      front wanted stepped c.rest = .comment n → Skips wanted false (c.skip n) b d →
      Skips wanted stepped c b d
  | blank {stepped b : Bool} {c d : Cursor} : front wanted stepped c.rest = .blank →
      Skips wanted true c.next b d → Skips wanted stepped c b d

/-- Neither a blank nor a comment stands at a place. -/
structure Stops (wanted : TokenSet) (stepped : Bool) (c : Cursor) : Prop where
  not_comment : ∀ n, front wanted stepped c.rest ≠ .comment n
  not_blank : front wanted stepped c.rest ≠ .blank

theorem Skips.leads {wanted : TokenSet} {stepped b : Bool} {c d : Cursor}
    (h : Skips wanted stepped c b d) : c.Leads d := by
  induction h with
  | refl => exact .refl _
  | comment _ _ ih => exact (Cursor.Leads.skip _ _).trans ih
  | blank _ _ ih => exact (Cursor.Leads.next _).trans ih

theorem Skips.trans {wanted : TokenSet} {stepped b b' : Bool} {c d e : Cursor}
    (h : Skips wanted stepped c b d) (h' : Skips wanted b d b' e) : Skips wanted stepped c b' e := by
  induction h with
  | refl => exact h'
  | comment hFront _ ih => exact .comment hFront (ih h')
  | blank hFront _ ih => exact .blank hFront (ih h')

/-- There is one place where blanks and comments end. -/
theorem Skips.unique {wanted : TokenSet} {stepped b b' : Bool} {c d d' : Cursor}
    (h : Skips wanted stepped c b d) (hd : Stops wanted b d) (h' : Skips wanted stepped c b' d')
    (hd' : Stops wanted b' d') : b = b' ∧ d = d' := by
  induction h with
  | refl =>
    cases h' with
    | refl => exact ⟨rfl, rfl⟩
    | comment hFront _ => exact (hd.not_comment _ hFront).elim
    | blank hFront _ => exact (hd.not_blank hFront).elim
  | comment hFront _ ih =>
    cases h' with
    | refl => exact (hd'.not_comment _ hFront).elim
    | comment hFront' h' =>
      rw [hFront] at hFront'
      cases hFront'
      exact ih hd h'
    | blank hFront' _ =>
      rw [hFront] at hFront'
      cases hFront'
  | blank hFront _ ih =>
    cases h' with
    | refl => exact (hd'.not_blank hFront).elim
    | comment hFront' _ =>
      rw [hFront] at hFront'
      cases hFront'
    | blank _ h' => exact ih hd h'

theorem skips_seek {wanted : TokenSet} {fuel : Nat} {stepped : Bool} {c : Cursor}
    (hFuel : c.remaining < fuel) :
    Skips wanted stepped c (seek wanted fuel stepped c).1 (seek wanted fuel stepped c).2 ∧
      Stops wanted (seek wanted fuel stepped c).1 (seek wanted fuel stepped c).2 := by
  induction fuel generalizing stepped c with
  | zero => cases hFuel
  | succ fuel ih =>
    unfold seek
    split
    · rename_i n hFront
      obtain ⟨hNe, hn⟩ := comment_pos (comment_of_front hFront)
      have hPos := Cursor.remaining_pos hNe
      have hFuel' : (c.skip n).remaining < fuel := by
        rw [Cursor.remaining_skip]
        omega
      obtain ⟨hSkips, hStops⟩ := ih hFuel'
      exact ⟨.comment hFront hSkips, hStops⟩
    · rename_i hFront
      obtain ⟨x, text, hRest, _⟩ := blank_of_front hFront
      have hPos : 0 < c.remaining := Cursor.remaining_pos (by simp [hRest])
      have hFuel' : c.next.remaining < fuel := by
        rw [Cursor.remaining_next]
        omega
      obtain ⟨hSkips, hStops⟩ := ih hFuel'
      exact ⟨.blank hFront hSkips, hStops⟩
    · rename_i hFront
      exact ⟨.refl _ _, by simp [hFront], by simp [hFront]⟩
    · rename_i hFront
      exact ⟨.refl _ _, by simp [hFront], by simp [hFront]⟩

theorem exists_skips (wanted : TokenSet) (stepped : Bool) (c : Cursor) :
    ∃ b d, Skips wanted stepped c b d ∧ Stops wanted b d :=
  ⟨_, _, skips_seek (Nat.lt_succ_self c.remaining)⟩

theorem skips_place (wanted : TokenSet) (c : Cursor) :
    Skips wanted false c (place wanted c).1 (place wanted c).2 :=
  (skips_seek (Nat.lt_succ_self _)).1

theorem stops_place (wanted : TokenSet) (c : Cursor) :
    Stops wanted (place wanted c).1 (place wanted c).2 :=
  (skips_seek (Nat.lt_succ_self _)).2

theorem place_eq {wanted : TokenSet} {b : Bool} {c d : Cursor} (h : Skips wanted false c b d)
    (hd : Stops wanted b d) : place wanted c = (b, d) := by
  obtain ⟨h₁, h₂⟩ := (skips_place wanted c).unique (stops_place wanted c) h hd
  exact Prod.ext h₁ h₂

theorem leads_place (wanted : TokenSet) (c : Cursor) : c.Leads (place wanted c).2 :=
  (skips_place wanted c).leads

theorem leads_pastBlanks (c : Cursor) : c.Leads (pastBlanks c) := leads_place ..

/-! ### Places where an item begins -/

/-- Neither a blank nor a comment stands at a place, whatever is wanted there. -/
def Settled (c : Cursor) : Prop := ∀ wanted stepped, Stops wanted stepped c

theorem stringPart_empty (cs : List Char) : stringPart .empty cs = none := by
  simp [stringPart, candidate, TokenSet.contains_empty, better]

theorem plain_empty (cs : List Char) : plain .empty cs = none := by
  have hMark : mark .empty cs = none := by
    apply List.foldlRecOn (motive := fun best : Option (Token × Nat) => best = none) _ _ rfl
    intro best hBest m _
    simpa [TokenSet.contains_empty] using hBest
  simp [plain, hMark, candidate, TokenSet.contains_empty, better]

/-- Where no token is wanted there are only blanks and comments. -/
theorem front_empty (stepped : Bool) (c : Char) (text : List Char) :
    front .empty stepped (c :: text) = match Scan.comment (c :: text) with
      | some n => .comment n
      | none => match Scan.word (c :: text) with
        | some _ => .unexpected
        | none => if isBlank c then .blank else .unexpected := by
  have hWords : TokenSet.empty.meets words = false := by decide
  rw [front, TokenSet.contains_empty, TokenSet.contains_empty, stringPart_empty, plain_empty,
    hWords]
  cases Scan.comment (c :: text) with
  | some n => simp
  | none => cases Scan.word (c :: text) <;> simp

theorem settled_pastBlanks (c : Cursor) : Settled (pastBlanks c) := by
  intro wanted stepped
  have hStops : Stops .empty _ (pastBlanks c) := stops_place .empty c
  refine ⟨fun n hFront => ?_, fun hFront => ?_⟩
  · have hComment := comment_of_front hFront
    obtain ⟨x, text, hRest⟩ := List.exists_cons_of_ne_nil (comment_pos hComment).1
    apply hStops.not_comment n
    rw [hRest, front_empty, ← hRest, hComment]
  · obtain ⟨x, text, hRest, hBlank, hComment, hWord, _⟩ := blank_of_front hFront
    apply hStops.not_blank
    rw [hRest, front_empty, ← hRest, hComment, hWord]
    exact if_pos hBlank

theorem Settled.place_eq {c : Cursor} (h : Settled c) (wanted : TokenSet) :
    place wanted c = (false, c) :=
  Lexeme.place_eq (.refl _ _) (h wanted false)

/-- A token is what stands at the place where it is looked for. -/
theorem read_eq_some {wanted : TokenSet} {c : Cursor} {l : Lexeme} :
    read wanted c = some l ↔ ∃ n, front wanted (place wanted c).1 (place wanted c).2.rest =
      .token l.token n ∧ l.text = (place wanted c).2.rest.take n ∧ l.start = (place wanted c).2 ∧
      l.next = Cursor.skip n (place wanted c).2 := by
  unfold read
  cases hPlace : place wanted c with
  | mk stepped p =>
    dsimp only
    constructor
    · intro h
      split at h
      · rename_i t n hFront
        cases h
        exact ⟨n, hFront, rfl, rfl, rfl⟩
      · cases h
      · cases h
      · cases h
    · rintro ⟨n, hFront, hText, hStart, hNext⟩
      rw [hFront]
      obtain ⟨t, text, start, next⟩ := l
      dsimp only at hText hStart hNext ⊢
      rw [hText, hStart, hNext]

section Read

variable {wanted : TokenSet} {c : Cursor} {l : Lexeme} (h : read wanted c = some l)

include h

theorem leads_start : c.Leads l.start := by
  obtain ⟨n, _, _, hStart, _⟩ := read_eq_some.mp h
  rw [hStart]
  exact leads_place wanted c

theorem start_leads_next : l.start.Leads l.next := by
  obtain ⟨n, _, _, hStart, hNext⟩ := read_eq_some.mp h
  rw [hStart, hNext]
  exact .skip n _

theorem leads_next : c.Leads l.next := (leads_start h).trans (start_leads_next h)

/-- A token that is not empty takes up some of the text. -/
theorem remaining_next_lt (hText : l.text ≠ []) : l.next.remaining < c.remaining := by
  obtain ⟨n, _, ht, _, hNext⟩ := read_eq_some.mp h
  have hLe := (leads_place wanted c).remaining_le
  rw [ht, ne_eq, List.take_eq_nil_iff, not_or] at hText
  have hPos := Cursor.remaining_pos hText.2
  have hn : 0 < n := Nat.pos_of_ne_zero hText.1
  rw [hNext, Cursor.remaining_skip]
  omega

end Read

/-! ## Where tokens come from -/

theorem of_better {a b : Option (Token × Nat)} {e : Token × Nat} (h : better a b = some e) :
    a = some e ∨ b = some e := by
  unfold better at h
  split at h
  · exact Or.inr h
  · exact Or.inl h
  · split at h
    · exact Or.inr h
    · exact Or.inl h

theorem of_mark {wanted : TokenSet} {cs : List Char} {t : Token} {n : Nat}
    (h : mark wanted cs = some (t, n)) :
    ∃ spelling, (spelling, t) ∈ Scan.marks ∧ spelling <+: cs ∧ n = spelling.length := by
  have hAll : ∀ t n, mark wanted cs = some (t, n) →
      ∃ spelling, (spelling, t) ∈ Scan.marks ∧ spelling <+: cs ∧ n = spelling.length := by
    apply List.foldlRecOn (motive := fun best : Option (Token × Nat) => ∀ t n,
      best = some (t, n) →
        ∃ spelling, (spelling, t) ∈ Scan.marks ∧ spelling <+: cs ∧ n = spelling.length)
    · intro t n hNone
      cases hNone
    · rintro best ih ⟨spelling, t'⟩ hm t n hBest
      dsimp only at hBest
      split at hBest
      · rename_i hIf
        rcases of_better hBest with hBest | hBest
        · exact ih t n hBest
        · cases hBest
          exact ⟨spelling, hm, List.isPrefixOf_iff_prefix.mp (Bool.and_eq_true_iff.mp hIf).2, rfl⟩
      · exact ih t n hBest
  exact hAll t n h

theorem of_candidate {wanted : TokenSet} {t : Token} {s : Scan} {cs : List Char}
    {e : Token × Nat} (h : candidate wanted t s cs = some e) :
    e.1 = t ∧ wanted.contains t = true ∧ s cs = some e.2 := by
  unfold candidate at h
  split at h
  · rename_i hWanted
    obtain ⟨n, hn, rfl⟩ := Option.map_eq_some_iff.mp h
    exact ⟨rfl, hWanted, hn⟩
  · cases h

/-- A literal or a mark stands for itself. -/
theorem of_plain {wanted : TokenSet} {cs : List Char} {t : Token} {n : Nat}
    (h : plain wanted cs = some (t, n)) :
    (∃ spelling, (spelling, t) ∈ Scan.marks ∧ spelling <+: cs ∧ n = spelling.length) ∨
      t = .constant ∧ (Scan.number cs = some n ∨ Scan.rune cs = some n) := by
  rcases of_better h with h | h
  · exact Or.inl (of_mark h)
  · right
    rcases of_better h with h | h
    · obtain ⟨ht, _, hn⟩ := of_candidate h
      exact ⟨ht, Or.inl hn⟩
    · obtain ⟨ht, _, hn⟩ := of_candidate h
      exact ⟨ht, Or.inr hn⟩

theorem of_stringPart {wanted : TokenSet} {cs : List Char} {t : Token} {n : Nat}
    (h : stringPart wanted cs = some (t, n)) :
    t = .stringContent ∧ Scan.stringContent cs = some n ∨ t = .escape ∧ Scan.escape cs = some n ∨
      t = .closeQuote ∧ Scan.char '"' cs = some n := by
  rcases of_better h with h | h
  · obtain ⟨ht, _, hn⟩ := of_candidate h
    exact Or.inl ⟨ht, hn⟩
  · right
    rcases of_better h with h | h
    · obtain ⟨ht, _, hn⟩ := of_candidate h
      exact Or.inl ⟨ht, hn⟩
    · obtain ⟨ht, _, hn⟩ := of_candidate h
      exact Or.inr ⟨ht, hn⟩

/-! ## Names -/

theorem word_pos {cs : List Char} {n : Nat} (h : Scan.word cs = some n) : 0 < n := by
  unfold Scan.word at h
  split at h
  · split at h
    · cases h
      omega
    · cases h
  · cases h

theorem front_identifier {wanted : TokenSet} {stepped : Bool} {cs : List Char} {n : Nat}
    (h : front wanted stepped cs = .token .identifier n) : cs ≠ [] ∧ 0 < n := by
  cases stands_of_front h with
  | atEnd _ ht => rcases ht with ht | ht <;> cases ht
  | part hPart => rcases of_stringPart hPart with ⟨ht, _⟩ | ⟨ht, _⟩ | ⟨ht, _⟩ <;> cases ht
  | plain hPlain =>
    rcases of_plain hPlain with ⟨spelling, hMem, _⟩ | ⟨ht, _⟩
    · have hAll : ∀ m ∈ Scan.marks, m.2 ≠ .identifier := by decide
      exact (hAll _ hMem rfl).elim
    · cases ht
  | word hWord _ =>
    refine ⟨?_, word_pos hWord⟩
    rintro rfl
    cases hWord

/-- A name is never empty. -/
theorem text_ne_nil {wanted : TokenSet} {c : Cursor} {l : Lexeme} (h : read wanted c = some l)
    (ht : l.token = .identifier) : l.text ≠ [] := by
  obtain ⟨n, hFront, hText, _⟩ := read_eq_some.mp h
  rw [ht] at hFront
  obtain ⟨hNe, hn⟩ := front_identifier hFront
  rw [hText, ne_eq, List.take_eq_nil_iff, not_or]
  exact ⟨by omega, hNe⟩

end FuncSpans.Go.Lexeme
