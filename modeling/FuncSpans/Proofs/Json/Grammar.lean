import FuncSpans.Json.Reader
import FuncSpans.Proofs.Number.Notation
import Mathlib.Data.List.DropRight

/-!
# The grammar of JSON

The grammar is told without a reader: `Json.Element cs v` says that the text `cs` is a value with
white space around it and that the value is `v`. `Element.read` says that the reader accepts all
such texts and answers with their values, so that no text has two of them (`Element.unique`).

The reader is given what follows a value as well. Only a number has to end in front of it (`Ends`).
The length of a text is fuel enough to read it (`reads`).
-/

namespace FuncSpans.Json

open Decimal

/-! ## The grammar -/

/-- White space. -/
def Blanks (cs : List Char) : Prop := ∀ c ∈ cs, c = ' ' ∨ c = '\t' ∨ c = '\n' ∨ c = '\r'

/-- A number, which may have a minus. -/
def Numeric (cs : List Char) : Prop := ∃ ds, Numeral ds ∧ (cs = ds ∨ cs = '-' :: ds)

/-- The letters behind a backslash, with what they stand for. -/
def shortEscapes : List (Char × Char) :=
  [('"', '"'), ('\\', '\\'), ('/', '/'), ('b', '\x08'), ('f', '\x0c'), ('n', '\n'), ('r', '\r'),
    ('t', '\t')]

/-- What stands between two quotes, with the text that it spells. -/
inductive Quoted : List Char → List Char → Prop
  | nil : Quoted [] []
  | plain {c : Char} {cs ds : List Char} (hQuote : c ≠ '"') (hSlash : c ≠ '\\')
      (hControl : ¬ c.toNat < 0x20) (h : Quoted cs ds) : Quoted (c :: cs) (c :: ds)
  | short {c d : Char} {cs ds : List Char} (hEscape : (c, d) ∈ shortEscapes) (h : Quoted cs ds) :
      Quoted ('\\' :: c :: cs) (d :: ds)
  | code {a b c d x : Char} {cs ds : List Char}
      (hCode : Text.hexNumber? [a, b, c, d] = some x.toNat) (h : Quoted cs ds) :
      Quoted ('\\' :: 'u' :: a :: b :: c :: d :: cs) (x :: ds)
  /-- A character in two halves. -/
  | pair {a b c d a' b' c' d' : Char} {n : Nat} {cs ds : List Char} (hn : n < 0x100000)
      (hHigh : Text.hexNumber? [a, b, c, d] = some (0xD800 + n / 0x400))
      (hLow : Text.hexNumber? [a', b', c', d'] = some (0xDC00 + n % 0x400)) (h : Quoted cs ds) :
      Quoted ('\\' :: 'u' :: a :: b :: c :: d :: '\\' :: 'u' :: a' :: b' :: c' :: d' :: cs)
        (Char.ofNat (0x10000 + n) :: ds)

mutual

/-- The text of a value. -/
inductive Value : List Char → Json → Prop
  | null : Value ['n', 'u', 'l', 'l'] .null
  | yes : Value ['t', 'r', 'u', 'e'] (.bool true)
  | no : Value ['f', 'a', 'l', 's', 'e'] (.bool false)
  | number {cs : List Char} (h : Numeric cs) : Value cs (.number cs)
  | string {cs ds : List Char} (h : Quoted cs ds) : Value ('"' :: cs ++ ['"']) (.string ds)
  | emptyArray {cs : List Char} (h : Blanks cs) : Value ('[' :: cs ++ [']']) (.array [])
  | array {cs : List Char} {vs : List Json} (h : Elements cs vs) :
      Value ('[' :: cs ++ [']']) (.array vs)
  | emptyObject {cs : List Char} (h : Blanks cs) : Value ('{' :: cs ++ ['}']) (.object [])
  | object {cs : List Char} {ms : List (List Char × Json)} (h : Members cs ms) :
      Value ('{' :: cs ++ ['}']) (.object ms)

/-- The text of a value with white space around it. -/
inductive Element : List Char → Json → Prop
  | mk {before cs behind : List Char} {v : Json} (hBefore : Blanks before) (h : Value cs v)
      (hBehind : Blanks behind) : Element (before ++ (cs ++ behind)) v

/-- Elements with commas between them. -/
inductive Elements : List Char → List Json → Prop
  | last {cs : List Char} {v : Json} (h : Element cs v) : Elements cs [v]
  | more {cs rest : List Char} {v : Json} {vs : List Json} (h : Element cs v)
      (hMore : Elements rest vs) : Elements (cs ++ ',' :: rest) (v :: vs)

/-- A name, a colon and an element. -/
inductive Member : List Char → List Char → Json → Prop
  | mk {before key name behind cs : List Char} {v : Json} (hBefore : Blanks before)
      (hKey : Quoted key name) (hBehind : Blanks behind) (h : Element cs v) :
      Member (before ++ '"' :: key ++ '"' :: behind ++ ':' :: cs) name v

/-- Members with commas between them. -/
inductive Members : List Char → List (List Char × Json) → Prop
  | last {cs name : List Char} {v : Json} (h : Member cs name v) : Members cs [(name, v)]
  | more {cs name rest : List Char} {v : Json} {ms : List (List Char × Json)}
      (h : Member cs name v) (hMore : Members rest ms) :
      Members (cs ++ ',' :: rest) ((name, v) :: ms)

end

/-! ## White space -/

theorem isBlank_iff {c : Char} : isBlank c = true ↔ c = ' ' ∨ c = '\t' ∨ c = '\n' ∨ c = '\r' := by
  simp [isBlank, or_assoc]

theorem Blanks.skip {cs : List Char} (h : Blanks cs) (ds : List Char) :
    skipBlank (cs ++ ds) = skipBlank ds :=
  List.dropWhile_append_of_pos fun c hc => isBlank_iff.mpr (h c hc)

theorem skipBlank_cons {c : Char} (h : isBlank c = false) (cs : List Char) :
    skipBlank (c :: cs) = c :: cs :=
  List.dropWhile_cons_of_neg (by rw [h]; decide)

theorem skipBlank_skipBlank (cs : List Char) : skipBlank (skipBlank cs) = skipBlank cs :=
  List.dropWhile_idempotent _ _

section

variable {cs ds : List Char}

theorem readValue_congr (h : skipBlank cs = skipBlank ds) (fuel : Nat) :
    readValue fuel cs = readValue fuel ds := by
  cases fuel with
  | zero => rfl
  | succ fuel => rw [readValue, readValue, h]

theorem readElements_congr (h : skipBlank cs = skipBlank ds) (fuel : Nat) :
    readElements fuel cs = readElements fuel ds := by
  cases fuel with
  | zero => rfl
  | succ fuel => rw [readElements, readElements, readValue_congr h]

theorem readMembers_congr (h : skipBlank cs = skipBlank ds) (fuel : Nat) :
    readMembers fuel cs = readMembers fuel ds := by
  cases fuel with
  | zero => rfl
  | succ fuel => rw [readMembers, readMembers, h]

end

/-! ## Strings -/

theorem readCodes_cons {c : Char} (hQuote : c ≠ '"') (hSlash : c ≠ '\\')
    (hControl : ¬ c.toNat < 0x20) (cs : List Char) :
    readCodes (c :: cs) = consCode (some c.toNat) (readCodes cs) := by
  rw [readCodes.eq_def]
  split
  · rename_i h
    cases h
  · rename_i h
    cases h
    exact (hQuote rfl).elim
  · rename_i h
    cases h
    exact (hSlash rfl).elim
  · rename_i h
    cases h
    exact (hSlash rfl).elim
  · rename_i h
    cases h
    rw [if_neg hControl]

theorem readCodes_short {c d : Char} (h : (c, d) ∈ shortEscapes) (cs : List Char) :
    readCodes ('\\' :: c :: cs) = consCode (some d.toNat) (readCodes cs) := by
  simp only [shortEscapes, List.mem_cons, Prod.mk.injEq, List.not_mem_nil, or_false] at h
  rcases h with ⟨rfl, rfl⟩ | ⟨rfl, rfl⟩ | ⟨rfl, rfl⟩ | ⟨rfl, rfl⟩ | ⟨rfl, rfl⟩ | ⟨rfl, rfl⟩ |
    ⟨rfl, rfl⟩ | ⟨rfl, rfl⟩ <;> rfl

/-- No character is half of a pair. -/
theorem textOf?_cons (c : Char) (ns : List Nat) :
    textOf? (c.toNat :: ns) = (textOf? ns).map (c :: ·) := by
  have hValid : c.toNat.isValidChar := c.valid
  unfold Nat.isValidChar at hValid
  have hHigh : isHighHalf c.toNat = false := by
    simp only [isHighHalf, Bool.and_eq_false_iff, decide_eq_false_iff_not]
    omega
  have hLow : isLowHalf c.toNat = false := by
    simp only [isLowHalf, Bool.and_eq_false_iff, decide_eq_false_iff_not]
    omega
  rw [textOf?.eq_def]
  simp only [hHigh, hLow, Bool.false_eq_true, if_false, Char.ofNat_toNat]

theorem textOf?_pair {n : Nat} (hn : n < 0x100000) (ns : List Nat) :
    textOf? ((0xD800 + n / 0x400) :: (0xDC00 + n % 0x400) :: ns) =
      (textOf? ns).map (Char.ofNat (0x10000 + n) :: ·) := by
  have hHigh : isHighHalf (0xD800 + n / 0x400) = true := by
    simp only [isHighHalf, Bool.and_eq_true, decide_eq_true_eq]
    omega
  have hLow : isLowHalf (0xDC00 + n % 0x400) = true := by
    simp only [isLowHalf, Bool.and_eq_true, decide_eq_true_eq]
    omega
  have hWhole : 0x10000 + (0xD800 + n / 0x400 - 0xD800) * 0x400 + (0xDC00 + n % 0x400 - 0xDC00) =
      0x10000 + n := by omega
  rw [textOf?.eq_def]
  simp only [hHigh, hLow, if_true, hWhole]

/-- A string is read up to its quote. -/
theorem Quoted.read {cs ds : List Char} (h : Quoted cs ds) (rest : List Char) :
    readString (cs ++ '"' :: rest) = some (some ds, rest) := by
  have hCodes : ∃ ns, readCodes (cs ++ '"' :: rest) = some (ns, rest) ∧ textOf? ns = some ds := by
    induction h with
    | nil => exact ⟨[], rfl, rfl⟩
    | plain hQuote hSlash hControl _ ih =>
      obtain ⟨ns, hRead, hText⟩ := ih
      refine ⟨_, ?_, (textOf?_cons _ ns).trans (by rw [hText]; rfl)⟩
      rw [List.cons_append, readCodes_cons hQuote hSlash hControl, hRead]
      rfl
    | short hEscape _ ih =>
      obtain ⟨ns, hRead, hText⟩ := ih
      refine ⟨_, ?_, (textOf?_cons _ ns).trans (by rw [hText]; rfl)⟩
      rw [List.cons_append, List.cons_append, readCodes_short hEscape, hRead]
      rfl
    | code hCode _ ih =>
      obtain ⟨ns, hRead, hText⟩ := ih
      refine ⟨_, ?_, (textOf?_cons _ ns).trans (by rw [hText]; rfl)⟩
      simp only [List.cons_append, readCodes, hCode, hRead, consCode]
    | pair hn hHigh hLow _ ih =>
      obtain ⟨ns, hRead, hText⟩ := ih
      refine ⟨_, ?_, (textOf?_pair hn ns).trans (by rw [hText]; rfl)⟩
      simp only [List.cons_append, readCodes, hHigh, hLow, hRead, consCode]
  obtain ⟨ns, hRead, hText⟩ := hCodes
  simp only [readString, hRead, Option.map_some, hText]

/-! ## Numbers -/

/-- No digit comes next. -/
def NoDigit (cs : List Char) : Prop := ∀ c ∈ cs.head?, c.isDigit = false

/-- A number ends in front of the text. -/
def Ends (cs : List Char) : Prop :=
  ∀ c ∈ cs.head?, c.isDigit = false ∧ c ≠ '.' ∧ c ≠ 'e' ∧ c ≠ 'E'

theorem ends_nil : Ends [] := fun _ hc => nomatch hc

theorem Ends.noDigit {cs : List Char} (h : Ends cs) : NoDigit cs := fun c hc => (h c hc).1

theorem readDigits_append {ds rest : List Char} (h : Digits ds) (hRest : NoDigit rest) :
    readDigits (ds ++ rest) = some (ds, rest) := by
  have hTake : rest.takeWhile Char.isDigit = [] ∧ rest.dropWhile Char.isDigit = rest := by
    cases rest with
    | nil => exact ⟨rfl, rfl⟩
    | cons c rest =>
      have hc := hRest c rfl
      exact ⟨List.takeWhile_cons_of_neg (by simp [hc]), List.dropWhile_cons_of_neg (by simp [hc])⟩
  obtain ⟨d, ds, rfl⟩ := List.exists_cons_of_ne_nil h.1
  rw [readDigits, List.takeWhile_append_of_pos h.2, List.dropWhile_append_of_pos h.2, hTake.1,
    hTake.2, List.append_nil]

theorem readWhole_append {ds rest : List Char} (h : Whole ds) (hRest : NoDigit rest) :
    readWhole (ds ++ rest) = some (ds, rest) := by
  by_cases hZero : ds.head? = some '0'
  · have hHead : rest.head?.any Char.isDigit = false := by
      cases rest with
      | nil => rfl
      | cons c rest => exact hRest c rfl
    rw [h.eq_zero hZero]
    simp only [List.singleton_append, readWhole, hHead, Bool.false_eq_true, if_false]
  · rw [readWhole.eq_2, readDigits_append h.digits hRest]
    intro rest' he
    rw [← h.digits.head?_append rest, he] at hZero
    exact hZero rfl

theorem readFraction_append {ds rest : List Char} (h : Fraction ds) (hRest : NoDigit rest)
    (hPoint : '.' ∉ rest.head?) : readFraction (ds ++ rest) = some (ds, rest) := by
  rcases h with rfl | ⟨ds, hDigits, rfl⟩
  · rw [List.nil_append, readFraction.eq_2]
    rintro _ rfl
    exact hPoint rfl
  · rw [List.cons_append, readFraction, readDigits_append hDigits hRest, Option.map_some]

theorem readExponent_append {ds rest : List Char} (h : Exponent ds) (hRest : Ends rest) :
    readExponent (ds ++ rest) = some (ds, rest) := by
  rcases h with rfl | ⟨mark, sign, ds, hMark, hSign, hDigits, rfl⟩
  · cases rest with
    | nil => rfl
    | cons c rest =>
      obtain ⟨_, _, he, hE⟩ := hRest c rfl
      rw [List.nil_append, readExponent.eq_def]
      exact if_neg (by simp [he, hE])
  · have hRead := readDigits_append hDigits hRest.noDigit
    rw [List.cons_append, List.append_assoc, readExponent.eq_def]
    refine (if_pos hMark).trans ?_
    rcases hSign with rfl | rfl | rfl
    · -- Without a sign a digit comes at once.
      obtain ⟨d, ds, rfl⟩ := List.exists_cons_of_ne_nil hDigits.1
      have hDigit := hDigits.2 d List.mem_cons_self
      rw [List.cons_append] at hRead
      rw [List.nil_append, List.cons_append]
      split
      · rename_i he
        cases he
        cases hDigit
      · rename_i he
        cases he
        cases hDigit
      · rw [hRead]
        rfl
    · simp only [List.singleton_append, hRead, Option.map_some]
    · simp only [List.singleton_append, hRead, Option.map_some]

theorem readUnsigned_append {ds rest : List Char} (h : Numeral ds) (hRest : Ends rest) :
    readUnsigned (ds ++ rest) = some (ds, rest) := by
  obtain ⟨whole, fraction, exponent, hWhole, hFraction, hExponent, rfl⟩ := h
  have hBehind : ∀ c ∈ (exponent ++ rest).head?, c.isDigit = false ∧ c ≠ '.' := by
    rcases hExponent with rfl | ⟨_, _, _, hMark, _, _, rfl⟩
    · exact fun c hc => ⟨(hRest c hc).1, (hRest c hc).2.1⟩
    · rintro c hc
      cases hc
      rcases hMark with rfl | rfl <;> decide
  have hNoDigit : NoDigit (exponent ++ rest) := fun c hc => (hBehind c hc).1
  have hNoDigit' : NoDigit (fraction ++ (exponent ++ rest)) := by
    rcases hFraction with rfl | ⟨_, _, rfl⟩
    · exact hNoDigit
    · rintro c hc
      cases hc
      rfl
  have hPoint : '.' ∉ (exponent ++ rest).head? := fun hc => (hBehind _ hc).2 rfl
  simp only [readUnsigned, List.append_assoc, readWhole_append hWhole hNoDigit',
    readFraction_append hFraction hNoDigit hPoint, readExponent_append hExponent hRest,
    Option.bind_some, Option.map_some]

theorem exists_digit_of_numeral {cs : List Char} (h : Numeral cs) :
    ∃ c ds, cs = c :: ds ∧ c.isDigit = true := by
  obtain ⟨whole, fraction, exponent, hWhole, _, _, rfl⟩ := h
  obtain ⟨c, ds, rfl⟩ := List.exists_cons_of_ne_nil hWhole.digits.1
  exact ⟨c, _, rfl, hWhole.digits.2 c List.mem_cons_self⟩

theorem Numeric.eq_cons {cs : List Char} (h : Numeric cs) :
    ∃ c ds, cs = c :: ds ∧ (c.isDigit = true ∨ c = '-') := by
  obtain ⟨ds, hNumeral, rfl | rfl⟩ := h
  · obtain ⟨c, ds, he, hDigit⟩ := exists_digit_of_numeral hNumeral
    exact ⟨c, ds, he, Or.inl hDigit⟩
  · exact ⟨'-', ds, rfl, Or.inr rfl⟩

/-- The first character of a number stands in front of no other value. -/
theorem ne_of_digit_or_minus {c d : Char} (h : c.isDigit = true ∨ c = '-')
    (hd : ¬ (d.isDigit = true ∨ d = '-')) : c ≠ d :=
  fun he => hd (he ▸ h)

theorem isBlank_of_digit_or_minus {c : Char} (h : c.isDigit = true ∨ c = '-') :
    isBlank c = false := by
  simp only [isBlank, Bool.or_eq_false_iff, beq_eq_false_iff_ne]
  refine ⟨⟨⟨?_, ?_⟩, ?_⟩, ?_⟩ <;> exact ne_of_digit_or_minus h (by decide)

theorem readNumber_append {cs rest : List Char} (h : Numeric cs) (hRest : Ends rest) :
    readNumber (cs ++ rest) = some (cs, rest) := by
  obtain ⟨ds, hNumeral, rfl | rfl⟩ := h
  · rw [readNumber.eq_2, readUnsigned_append hNumeral hRest]
    obtain ⟨c, ds, rfl, hDigit⟩ := exists_digit_of_numeral hNumeral
    rintro _ he
    cases he
    cases hDigit
  · rw [List.cons_append, readNumber, readUnsigned_append hNumeral hRest, Option.map_some]

theorem Numeric.read {cs rest : List Char} (h : Numeric cs) (hRest : Ends rest) (fuel : Nat) :
    readValue (fuel + 1) (cs ++ rest) = some (.number cs, rest) := by
  obtain ⟨c, ds, he, hFirst⟩ := h.eq_cons
  have hNumber := readNumber_append h hRest
  rw [he, List.cons_append] at hNumber ⊢
  rw [readValue, skipBlank_cons (isBlank_of_digit_or_minus hFirst)]
  split
  case h_7 => rw [hNumber, Option.map_some]
  all_goals
    rename_i hHead
    exact (ne_of_digit_or_minus hFirst (by decide) (List.cons.inj hHead).1).elim

/-! ## Values -/

theorem Blanks.ends {cs rest : List Char} (h : Blanks cs) (hRest : Ends rest) :
    Ends (cs ++ rest) := by
  cases cs with
  | nil => exact hRest
  | cons c cs =>
    rintro d hd
    cases hd
    rcases h c List.mem_cons_self with rfl | rfl | rfl | rfl <;> decide

theorem ends_cons {c : Char} (hc : c = ',' ∨ c = ']' ∨ c = '}') (cs : List Char) :
    Ends (c :: cs) := by
  rintro d hd
  cases hd
  rcases hc with rfl | rfl | rfl <;> decide

/-- A value begins with a character that is neither white space nor a closing bracket. -/
theorem Value.eq_cons {cs : List Char} {v : Json} (h : Value cs v) :
    ∃ c ds, cs = c :: ds ∧ isBlank c = false ∧ c ≠ ']' := by
  cases h with
  | number h =>
    obtain ⟨c, ds, rfl, hFirst⟩ := h.eq_cons
    exact ⟨c, ds, rfl, isBlank_of_digit_or_minus hFirst,
      ne_of_digit_or_minus hFirst (by decide)⟩
  | _ => exact ⟨_, _, rfl, rfl, by decide⟩

theorem Element.skip {cs : List Char} {v : Json} (h : Element cs v) (rest : List Char) :
    ∃ c ds, skipBlank (cs ++ rest) = c :: ds ∧ c ≠ ']' := by
  obtain ⟨hBefore, hValue, _⟩ := h
  obtain ⟨c, ds, rfl, hBlank, hBracket⟩ := hValue.eq_cons
  rw [List.append_assoc, hBefore.skip, List.cons_append, List.cons_append, skipBlank_cons hBlank]
  exact ⟨c, _, rfl, hBracket⟩

theorem Elements.skip {cs : List Char} {vs : List Json} (h : Elements cs vs) (rest : List Char) :
    ∃ c ds, skipBlank (cs ++ rest) = c :: ds ∧ c ≠ ']' := by
  cases h with
  | last h => exact h.skip rest
  | more h _ =>
    rw [List.append_assoc]
    exact h.skip _

theorem Member.skip {cs name : List Char} {v : Json} (h : Member cs name v) (rest : List Char) :
    ∃ ds, skipBlank (cs ++ rest) = '"' :: ds := by
  obtain ⟨hBefore, _, _, _⟩ := h
  simp only [List.append_assoc, List.cons_append, hBefore.skip, skipBlank_cons (c := '"') rfl]
  exact ⟨_, rfl⟩

theorem Members.skip {cs : List Char} {ms : List (List Char × Json)} (h : Members cs ms)
    (rest : List Char) : ∃ ds, skipBlank (cs ++ rest) = '"' :: ds := by
  cases h with
  | last h => exact h.skip rest
  | more h _ =>
    rw [List.append_assoc]
    exact h.skip _

/-! ## Fuel

Each of the three readers is said to have fuel enough for all texts up to a length, and each of them
calls the others for shorter texts only, or for the same text in the order in which they stand here.
-/

def ReadsValues (n : Nat) : Prop :=
  ∀ {cs : List Char} {v : Json} {rest : List Char}, Value cs v → cs.length ≤ n → Ends rest →
    readValue (n + 1) (cs ++ rest) = some (v, rest)

def ReadsElements (n : Nat) : Prop :=
  ∀ {cs : List Char} {vs : List Json} {rest : List Char}, Elements cs vs → cs.length ≤ n →
    readElements (n + 2) (cs ++ ']' :: rest) = some (vs, rest)

def ReadsMembers (n : Nat) : Prop :=
  ∀ {cs : List Char} {ms : List (List Char × Json)} {rest : List Char}, Members cs ms →
    cs.length ≤ n → readMembers (n + 2) (cs ++ '}' :: rest) = some (.object ms, rest)

variable {n : Nat}

theorem ReadsValues.element (hValues : ReadsValues n) {cs rest : List Char} {v : Json}
    (h : Element cs v) (hn : cs.length ≤ n) (hRest : Ends rest) :
    ∃ left, readValue (n + 1) (cs ++ rest) = some (v, left) ∧ skipBlank left = skipBlank rest := by
  obtain ⟨hBefore, hValue, hBehind⟩ := h
  rw [List.length_append, List.length_append] at hn
  refine ⟨_, ?_, hBehind.skip rest⟩
  rw [List.append_assoc, readValue_congr (hBefore.skip _), List.append_assoc]
  exact hValues hValue (by omega) (hBehind.ends hRest)

theorem ReadsValues.elements (hValues : ReadsValues n) (hShorter : ∀ m < n, ReadsElements m) :
    ReadsElements n := by
  intro cs vs rest h hn
  cases h with
  | last h =>
    obtain ⟨left, hRead, hLeft⟩ :=
      hValues.element h hn (ends_cons (c := ']') (Or.inr (Or.inl rfl)) rest)
    rw [skipBlank_cons rfl] at hLeft
    simp only [readElements, hRead, hLeft]
  | @more cs more _ _ h hMore =>
    rw [List.length_append, List.length_cons] at hn
    obtain ⟨n, rfl⟩ : ∃ m, n = m + 1 := Nat.exists_eq_add_one.mpr (by omega)
    obtain ⟨left, hRead, hLeft⟩ :=
      hValues.element h (by omega) (ends_cons (c := ',') (Or.inl rfl) (more ++ ']' :: rest))
    rw [skipBlank_cons rfl] at hLeft
    rw [List.append_assoc, List.cons_append, readElements, hRead]
    simp only [hLeft, hShorter n (Nat.lt_succ_self n) hMore (by omega), Option.map_some]

/-- The steps in which a member is read. -/
theorem ReadsValues.member (hValues : ReadsValues n) {cs name rest : List Char} {v : Json}
    (h : Member cs name v) (hn : cs.length ≤ n) (hRest : Ends rest) :
    ∃ key colon value left, skipBlank (cs ++ rest) = '"' :: key ∧
      readString key = some (some name, colon) ∧ skipBlank colon = ':' :: value ∧
      readValue (n + 1) value = some (v, left) ∧ skipBlank left = skipBlank rest := by
  obtain ⟨hBefore, hKey, hBehind, hElement⟩ := h
  simp only [List.length_append, List.length_cons] at hn
  obtain ⟨left, hRead, hLeft⟩ := hValues.element hElement (by omega) hRest
  simp only [List.append_assoc, List.cons_append, hBefore.skip, skipBlank_cons (c := '"') rfl]
  exact ⟨_, _, _, left, rfl, hKey.read _, (hBehind.skip _).trans (skipBlank_cons rfl _), hRead,
    hLeft⟩

theorem ReadsValues.members (hValues : ReadsValues n) (hShorter : ∀ m < n, ReadsMembers m) :
    ReadsMembers n := by
  intro cs ms rest h hn
  cases h with
  | last h =>
    obtain ⟨key, colon, value, left, hQuote, hName, hColon, hRead, hLeft⟩ :=
      hValues.member h hn (ends_cons (c := '}') (Or.inr (Or.inr rfl)) rest)
    rw [skipBlank_cons rfl] at hLeft
    simp only [readMembers, hQuote, hName, hColon, hRead, hLeft, consMember]
  | @more cs _ more _ _ h hMore =>
    rw [List.length_append, List.length_cons] at hn
    obtain ⟨n, rfl⟩ : ∃ m, n = m + 1 := Nat.exists_eq_add_one.mpr (by omega)
    obtain ⟨key, colon, value, left, hQuote, hName, hColon, hRead, hLeft⟩ :=
      hValues.member h (by omega) (ends_cons (c := ',') (Or.inl rfl) (more ++ '}' :: rest))
    rw [skipBlank_cons rfl] at hLeft
    rw [List.append_assoc, List.cons_append, readMembers, hQuote]
    simp only [hName, hColon, hRead, hLeft, hShorter n (Nat.lt_succ_self n) hMore (by omega),
      Option.map_some, consMember]

theorem readsValues (hShorter : ∀ m < n, ReadsElements m ∧ ReadsMembers m) : ReadsValues n := by
  intro cs v rest h hn hRest
  cases h with
  | null => rfl
  | yes => rfl
  | no => rfl
  | number h => exact h.read hRest n
  | string h =>
    simp only [List.cons_append, List.append_assoc, List.nil_append, readValue,
      skipBlank_cons (c := '"') rfl, h.read, Option.map_some, Option.getD_some]
  | emptyArray h =>
    simp only [List.cons_append, List.append_assoc, List.nil_append, readValue,
      skipBlank_cons (c := '[') rfl, h.skip, skipBlank_cons (c := ']') rfl]
  | emptyObject h =>
    simp only [List.cons_append, List.append_assoc, List.nil_append, readValue,
      skipBlank_cons (c := '{') rfl, h.skip, skipBlank_cons (c := '}') rfl]
  | @array cs vs h =>
    rw [List.length_append, List.length_cons, List.length_singleton] at hn
    obtain ⟨n, rfl⟩ : ∃ m, n = m + 2 := ⟨n - 2, by omega⟩
    have hElements : readElements (n + 2) (cs ++ ']' :: rest) = some (vs, rest) :=
      (hShorter n (by omega)).1 h (by omega)
    obtain ⟨c, ds, hSkip, hBracket⟩ := h.skip (']' :: rest)
    rw [readElements_congr (skipBlank_skipBlank _).symm, hSkip] at hElements
    simp only [List.cons_append, List.append_assoc, List.nil_append, readValue,
      skipBlank_cons (c := '[') rfl, hSkip]
    split
    · rename_i hHead
      exact (hBracket (List.cons.inj hHead).1).elim
    · rw [hElements, Option.map_some]
  | @object cs ms h =>
    rw [List.length_append, List.length_cons, List.length_singleton] at hn
    obtain ⟨n, rfl⟩ : ∃ m, n = m + 2 := ⟨n - 2, by omega⟩
    have hMembers : readMembers (n + 2) (cs ++ '}' :: rest) = some (.object ms, rest) :=
      (hShorter n (by omega)).2 h (by omega)
    obtain ⟨ds, hSkip⟩ := h.skip ('}' :: rest)
    rw [readMembers_congr (skipBlank_skipBlank _).symm, hSkip] at hMembers
    simp only [List.cons_append, List.append_assoc, List.nil_append, readValue,
      skipBlank_cons (c := '{') rfl, hSkip]
    exact hMembers

/-- The length of a text is fuel enough. -/
theorem reads (n : Nat) : ReadsValues n ∧ ReadsElements n ∧ ReadsMembers n := by
  induction n using Nat.strongRecOn with
  | ind n ih =>
    have hValues : ReadsValues n := readsValues fun m hm => (ih m hm).2
    exact ⟨hValues, hValues.elements fun m hm => (ih m hm).2.1,
      hValues.members fun m hm => (ih m hm).2.2⟩

theorem Value.readValue {cs : List Char} {v : Json} (h : Value cs v) {rest : List Char}
    (hRest : Ends rest) {fuel : Nat} (hFuel : cs.length < fuel) :
    readValue fuel (cs ++ rest) = some (v, rest) := by
  obtain ⟨n, rfl⟩ : ∃ m, fuel = m + 1 := Nat.exists_eq_add_one.mpr (by omega)
  exact (reads n).1 h (by omega) hRest

/-- The reader accepts every text of the grammar and answers with its value. -/
theorem Element.read {cs : List Char} {v : Json} (h : Element cs v) : Json.read cs = some v := by
  have hValues : ReadsValues (2 * cs.length + 1) := (reads _).1
  obtain ⟨left, hRead, hLeft⟩ := hValues.element h (by omega) ends_nil
  rw [List.append_nil] at hRead
  have hEnd : skipBlank left = [] := hLeft
  simp only [Json.read, hRead, hEnd, if_true]

/-- A text has one value. -/
theorem Element.unique {cs : List Char} {v w : Json} (hv : Element cs v) (hw : Element cs w) :
    v = w :=
  Option.some.inj (hv.read.symm.trans hw.read)

end FuncSpans.Json
