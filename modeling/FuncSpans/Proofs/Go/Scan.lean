import FuncSpans.Go.Lexeme
import Mathlib.Data.List.TakeWhile

/-!
# Scans and the text after them

Most scans never take a line feed: what they read of a text with a line feed does not depend on
what comes after it (`Scan.Local`). Escapes may take the line feed itself, but nothing after it
(`Scan.Stable`). Only a rune, a raw string and a block comment can go on past the last line feed
(`Scan.rune_append`, `Scan.comment_append`).
-/

namespace FuncSpans.Go.Scan

/-! ## Kinds of scans -/

/-- The scan takes no line feed, and does not look past the first one. -/
def Local (a : Scan) : Prop :=
  ∀ s rest : List Char, '\n' ∈ s → a (s ++ rest) = a s ∧ ∀ n, a s = some n → '\n' ∉ s.take n

/-- The scan does not look past some line feed. -/
def Stable (a : Scan) : Prop :=
  ∀ s rest : List Char, '\n' ∈ s → a (s ++ rest) = a s ∧ ∀ n, a s = some n → n ≤ s.length

/-- The scan never takes nothing. -/
def Positive (a : Scan) : Prop := ∀ s n, a s = some n → 0 < n

theorem mem_drop {s : List Char} {n : Nat} (hs : '\n' ∈ s) (hn : '\n' ∉ s.take n) :
    '\n' ∈ s.drop n := by
  rw [← List.take_append_drop n s, List.mem_append] at hs
  exact hs.resolve_left hn

theorem lt_length {s : List Char} {n : Nat} (hs : '\n' ∈ s) (hn : '\n' ∉ s.take n) :
    n < s.length := by
  by_contra hLe
  rw [List.take_of_length_le (by omega)] at hn
  exact hn hs

theorem ne_of_class {p : Char → Bool} {x c : Char} (hp : p x = false) (hc : p c = true) :
    x ≠ c := by
  rintro rfl
  rw [hp] at hc
  cases hc

theorem takeWhile_append {p : Char → Bool} {x : Char} (hp : p x = false) {s : List Char}
    (rest : List Char) (hs : x ∈ s) : (s ++ rest).takeWhile p = s.takeWhile p := by
  induction s with
  | nil => cases hs
  | cons c s ih =>
    rw [List.cons_append, List.takeWhile_cons, List.takeWhile_cons]
    split
    · rename_i hc
      rw [ih ((List.mem_cons.mp hs).resolve_left (ne_of_class hp hc))]
    · rfl

theorem notMem_takeWhile {p : Char → Bool} (hp : p '\n' = false) (s : List Char) :
    '\n' ∉ s.takeWhile p := by
  intro h
  have hNewline := List.mem_takeWhile_imp h
  rw [hp] at hNewline
  cases hNewline

theorem take_takeWhile {p : Char → Bool} {s : List Char} {n : Nat}
    (hn : n ≤ (s.takeWhile p).length) : s.take n = (s.takeWhile p).take n := by
  obtain ⟨rest, hRest⟩ := List.takeWhile_prefix (l := s) p
  calc s.take n = (s.takeWhile p ++ rest).take n := by rw [hRest]
    _ = (s.takeWhile p).take n := List.take_append_of_le_length hn

/-- The longer of two spellings is one of them. -/
theorem of_longer {a b : Scan} {s : List Char} {k : Nat} (h : a.longer b s = some k) :
    a s = some k ∨ b s = some k := by
  unfold longer at h
  split at h
  · rename_i m n hm hn
    cases h
    rcases Nat.le_total m n with hLe | hLe
    · rw [Nat.max_eq_right hLe]
      exact Or.inr hn
    · rw [Nat.max_eq_left hLe]
      exact Or.inl hm
  · rename_i m hm _
    cases h
    exact Or.inl hm
  · exact Or.inr h

theorem of_longest {as : List Scan} {s : List Char} {k : Nat} (h : longest as s = some k) :
    ∃ a ∈ as, a s = some k := by
  induction as with
  | nil => cases h
  | cons a as ih =>
    rcases of_longer h with h | h
    · exact ⟨a, List.mem_cons_self, h⟩
    · obtain ⟨b, hb, hk⟩ := ih h
      exact ⟨b, List.mem_cons_of_mem _ hb, hk⟩

theorem andThen_eq_some {a b : Scan} {s : List Char} {k : Nat} : a.andThen b s = some k ↔
    ∃ m n, a s = some m ∧ b (s.drop m) = some n ∧ k = m + n := by
  unfold andThen
  rw [Option.bind_eq_some_iff]
  constructor
  · rintro ⟨m, hm, hk⟩
    obtain ⟨n, hn, rfl⟩ := Option.map_eq_some_iff.mp hk
    exact ⟨m, n, hm, hn, rfl⟩
  · rintro ⟨m, n, hm, hn, rfl⟩
    exact ⟨m, hm, by rw [hn]; rfl⟩

/-! ## Local scans -/

namespace Local

variable {a b : Scan} {p : Char → Bool}

theorem one (hp : p '\n' = false) : Local (one p) := by
  intro s rest hs
  cases s with
  | nil => cases hs
  | cons c s =>
    refine ⟨rfl, fun n hn => ?_⟩
    by_cases hc : p c = true
    · have hNe : '\n' ≠ c := ne_of_class hp hc
      simp only [Scan.one, hc, if_true, Option.some.injEq] at hn
      subst hn
      simpa using hNe
    · simp [Scan.one, hc] at hn

theorem char {x : Char} (hx : x ≠ '\n') : Local (char x) :=
  one (by simpa using hx.symm)

theorem oneOf {cs : List Char} (hCs : '\n' ∉ cs) : Local (oneOf cs) := one (by simpa using hCs)

theorem andThen (ha : Local a) (hb : Local b) : Local (a.andThen b) := by
  intro s rest hs
  obtain ⟨hAeq, hAtake⟩ := ha s rest hs
  unfold Scan.andThen
  rw [hAeq]
  cases hn : a s with
  | none => simp
  | some n =>
    have hTake := hAtake n hn
    obtain ⟨hBeq, hBtake⟩ := hb (s.drop n) rest (mem_drop hs hTake)
    have hDrop : (s ++ rest).drop n = s.drop n ++ rest :=
      List.drop_append_of_le_length (Nat.le_of_lt (lt_length hs hTake))
    simp only [Option.bind_some]
    rw [hDrop, hBeq]
    refine ⟨rfl, fun k hk => ?_⟩
    obtain ⟨m, hm, rfl⟩ := Option.map_eq_some_iff.mp hk
    rw [List.take_add, List.mem_append]
    exact not_or.mpr ⟨hTake, hBtake m hm⟩

theorem optional (ha : Local a) : Local (optional a) := by
  intro s rest hs
  obtain ⟨hAeq, hAtake⟩ := ha s rest hs
  unfold Scan.optional
  rw [hAeq]
  refine ⟨rfl, fun k hk => ?_⟩
  cases hn : a s with
  | none =>
    rw [hn] at hk
    cases hk
    simp
  | some n =>
    rw [hn] at hk
    cases hk
    exact hAtake n hn

theorem longer (ha : Local a) (hb : Local b) : Local (a.longer b) := by
  intro s rest hs
  obtain ⟨hAeq, hAtake⟩ := ha s rest hs
  obtain ⟨hBeq, hBtake⟩ := hb s rest hs
  refine ⟨by unfold Scan.longer; rw [hAeq, hBeq], fun k hk => ?_⟩
  rcases of_longer hk with hk | hk
  · exact hAtake k hk
  · exact hBtake k hk

theorem all {as : List Scan} (h : ∀ a ∈ as, Local a) : Local (all as) := by
  induction as with
  | nil =>
    intro s rest _
    refine ⟨rfl, fun n hn => ?_⟩
    cases hn
    simp
  | cons a as ih =>
    exact (h a List.mem_cons_self).andThen (ih fun a ha => h a (List.mem_cons_of_mem _ ha))

theorem longest {as : List Scan} (h : ∀ a ∈ as, Local a) : Local (longest as) := by
  induction as with
  | nil =>
    intro s rest _
    exact ⟨rfl, fun n hn => by cases hn⟩
  | cons a as ih =>
    exact (h a List.mem_cons_self).longer (ih fun a ha => h a (List.mem_cons_of_mem _ ha))

theorem between (hp : p '\n' = false) (low high : Nat) : Local (between low high p) := by
  intro s rest hs
  unfold Scan.between
  rw [takeWhile_append hp rest hs]
  refine ⟨rfl, fun n hn => ?_⟩
  dsimp only at hn
  split at hn
  · cases hn
    rw [take_takeWhile (Nat.min_le_right _ _)]
    intro h
    exact notMem_takeWhile hp s (List.mem_of_mem_take h)
  · cases hn

theorem exactly (hp : p '\n' = false) (n : Nat) : Local (exactly n p) := between hp n n

theorem atLeast (hp : p '\n' = false) (low : Nat) : Local (atLeast low p) := by
  intro s rest hs
  unfold Scan.atLeast
  rw [takeWhile_append hp rest hs]
  refine ⟨rfl, fun n hn => ?_⟩
  dsimp only at hn
  split at hn
  · cases hn
    rw [take_takeWhile (Nat.le_refl _)]
    intro h
    exact notMem_takeWhile hp s (List.mem_of_mem_take h)
  · cases hn

theorem moreDigits (hp : p '\n' = false) (s rest : List Char) (hs : '\n' ∈ s) :
    moreDigits p (s ++ rest) = moreDigits p s ∧ '\n' ∉ s.take (moreDigits p s) := by
  fun_induction Scan.moreDigits p s with
  | case1 d cs hd ih =>
    have hNe : '\n' ≠ d := ne_of_class hp hd
    have hCs : '\n' ∈ cs := by simpa [hNe] using hs
    obtain ⟨hEq, hTake⟩ := ih hCs
    refine ⟨by simp [Scan.moreDigits, hd, hEq], ?_⟩
    simpa [hNe] using hTake
  | case2 d cs hd => exact ⟨by simp [Scan.moreDigits, hd], by simp⟩
  | case3 d cs hFirst hd ih =>
    have hNe : '\n' ≠ d := ne_of_class hp hd
    have hCs : '\n' ∈ cs := by simpa [hNe] using hs
    obtain ⟨hEq, hTake⟩ := ih hCs
    have hd' : d ≠ '_' := fun h => by
      cases cs with
      | nil => cases hCs
      | cons d' cs => exact hFirst d' cs h rfl
    refine ⟨by simp [Scan.moreDigits, hd, hEq, hd'], ?_⟩
    simpa [hNe] using hTake
  | case4 d cs hFirst hd =>
    have hd' : d ≠ '_' := by
      rintro rfl
      cases cs with
      | nil => simp at hs
      | cons d' cs => exact hFirst d' cs rfl rfl
    exact ⟨by simp [Scan.moreDigits, hd, hd'], by simp⟩
  | case5 => cases hs

theorem digits (hp : p '\n' = false) : Local (digits p) := by
  intro s rest hs
  cases s with
  | nil => cases hs
  | cons d s =>
    by_cases hd : p d = true
    · have hNe : '\n' ≠ d := ne_of_class hp hd
      obtain ⟨hEq, hTake⟩ := moreDigits hp s rest (by simpa [hNe] using hs)
      refine ⟨by simp [Scan.digits, hd, hEq], fun n hn => ?_⟩
      simp only [Scan.digits, hd, if_true, Option.some.injEq] at hn
      subst hn
      simpa [hNe] using hTake
    · simp [Scan.digits, hd]

theorem decimalDigits : Local decimalDigits := digits (by decide)

theorem hexDigits : Local hexDigits := digits (by decide)

theorem underscore : Local underscore := optional (char (by decide))

theorem integer : Local integer := by
  have hZero : Local (Scan.char '0') := char (by decide)
  apply longest
  simp only [List.forall_mem_cons, List.not_mem_nil, false_implies, implies_true, and_true]
  refine ⟨all ?_, hZero, all ?_, all ?_, all ?_⟩ <;>
    simp only [List.forall_mem_cons, List.not_mem_nil, false_implies, implies_true, and_true]
  · exact ⟨hZero, oneOf (by decide), underscore, digits (by decide)⟩
  · refine ⟨one (by decide), optional (all ?_)⟩
    simpa using ⟨underscore, decimalDigits⟩
  · exact ⟨hZero, optional (oneOf (by decide)), underscore, digits (by decide)⟩
  · exact ⟨hZero, oneOf (by decide), underscore, hexDigits⟩

theorem exponent {mark : List Char} (hMark : '\n' ∉ mark) : Local (exponent mark) := by
  apply all
  simpa using ⟨oneOf hMark, optional (oneOf (by decide)), decimalDigits⟩

theorem float : Local float := by
  have hDot : Local (Scan.char '.') := char (by decide)
  have hExp : Local decimalExponent := exponent (by decide)
  have hMantissa : Local hexMantissa := by
    apply longest
    simp only [List.forall_mem_cons, List.not_mem_nil, false_implies, implies_true, and_true]
    refine ⟨all ?_, all ?_, all ?_⟩
    · simpa using ⟨underscore, hexDigits, hDot, optional hexDigits⟩
    · simpa using ⟨underscore, hexDigits⟩
    · simpa using ⟨hDot, hexDigits⟩
  apply longest
  simp only [List.forall_mem_cons, List.not_mem_nil, false_implies, implies_true, and_true]
  refine ⟨all ?_, all ?_, all ?_, all ?_⟩
  · simpa using ⟨decimalDigits, hDot, optional decimalDigits, optional hExp⟩
  · simpa using ⟨decimalDigits, hExp⟩
  · simpa using ⟨hDot, decimalDigits, optional hExp⟩
  · simpa using ⟨char (by decide), oneOf (by decide), hMantissa, exponent (by decide)⟩

theorem number : Local number := by
  have hImaginary : Local imaginary := by
    apply all
    simp only [List.forall_mem_cons, List.not_mem_nil, false_implies, implies_true, and_true]
    refine ⟨longest ?_, char (by decide)⟩
    simpa using ⟨decimalDigits, integer, float⟩
  apply longest
  simpa using ⟨integer, float, hImaginary⟩

theorem stringContent : Local stringContent := atLeast (by decide) 1

set_option maxRecDepth 100000 in
theorem word : Local word := by
  have hStart : Text.isIdentifierStart '\n' = false := by decide +kernel
  have hGoes : Text.isIdentifierContinue '\n' = false := by decide +kernel
  intro s rest hs
  cases s with
  | nil => cases hs
  | cons c s =>
    by_cases hc : Text.isIdentifierStart c = true
    · have hNe : '\n' ≠ c := ne_of_class hStart hc
      have hs' : '\n' ∈ s := by simpa [hNe] using hs
      have hEq := takeWhile_append hGoes rest hs'
      refine ⟨by simp [Scan.word, hc, hEq], fun n hn => ?_⟩
      simp only [Scan.word, hc, if_true, Option.some.injEq] at hn
      rw [← hn, List.take_succ_cons, take_takeWhile (Nat.le_refl _), List.mem_cons]
      refine not_or.mpr ⟨hNe, fun h => ?_⟩
      exact notMem_takeWhile hGoes s (List.mem_of_mem_take h)
    · simp [Scan.word, hc]

end Local

/-! ## Scans that may take a line feed -/

theorem all_singleton (a : Scan) : all [a] = a := by
  funext s
  unfold all andThen
  cases a s <;> rfl

namespace Stable

variable {a b : Scan}

theorem of_local (ha : Local a) : Stable a := by
  intro s rest hs
  obtain ⟨hAeq, hAtake⟩ := ha s rest hs
  exact ⟨hAeq, fun n hn => Nat.le_of_lt (lt_length hs (hAtake n hn))⟩

theorem one (p : Char → Bool) : Stable (one p) := by
  intro s rest hs
  cases s with
  | nil => cases hs
  | cons c s =>
    refine ⟨rfl, fun n hn => ?_⟩
    by_cases hc : p c = true
    · simp only [Scan.one, hc, if_true, Option.some.injEq] at hn
      simp [← hn]
    · simp [Scan.one, hc] at hn

theorem andThen (ha : Local a) (hb : Stable b) : Stable (a.andThen b) := by
  intro s rest hs
  obtain ⟨hAeq, hAtake⟩ := ha s rest hs
  unfold Scan.andThen
  rw [hAeq]
  cases hn : a s with
  | none => simp
  | some n =>
    have hTake := hAtake n hn
    have hLt := lt_length hs hTake
    obtain ⟨hBeq, hBle⟩ := hb (s.drop n) rest (mem_drop hs hTake)
    simp only [Option.bind_some]
    rw [List.drop_append_of_le_length (Nat.le_of_lt hLt), hBeq]
    refine ⟨rfl, fun k hk => ?_⟩
    obtain ⟨m, hm, rfl⟩ := Option.map_eq_some_iff.mp hk
    have hLe := hBle m hm
    rw [List.length_drop] at hLe
    omega

theorem longest {as : List Scan} (h : ∀ a ∈ as, Stable a) : Stable (longest as) := by
  induction as with
  | nil =>
    intro s rest _
    exact ⟨rfl, fun n hn => by cases hn⟩
  | cons a as ih =>
    intro s rest hs
    obtain ⟨hAeq, hAle⟩ := h a List.mem_cons_self s rest hs
    obtain ⟨hBeq, hBle⟩ := ih (fun a ha => h a (List.mem_cons_of_mem _ ha)) s rest hs
    refine ⟨by unfold Scan.longest longer; rw [hAeq, hBeq], fun k hk => ?_⟩
    rcases of_longer hk with hk | hk
    · exact hAle k hk
    · exact hBle k hk

theorem escape : Stable escape := by
  have hHex : ∀ n, Local (Scan.exactly n isHexDigit) := Local.exactly (by decide)
  apply andThen (Local.char (by decide))
  rw [all_singleton]
  apply longest
  simp only [List.forall_mem_cons, List.not_mem_nil, false_implies, implies_true, and_true]
  refine ⟨one _, of_local (Local.between (by decide) 2 3), of_local (Local.all ?_),
    of_local (Local.all ?_), of_local (Local.all ?_)⟩
  · simpa using ⟨Local.char (by decide), Local.atLeast (by decide) 2⟩
  · simpa using ⟨Local.char (by decide), hHex 4⟩
  · simpa using ⟨Local.char (by decide), hHex 8⟩

theorem runeBody : Stable runeBody := by
  have hHex : ∀ n, Local (Scan.exactly n isHexDigit) := Local.exactly (by decide)
  apply longest
  simp only [List.forall_mem_cons, List.not_mem_nil, false_implies, implies_true, and_true]
  refine ⟨one _, of_local (Local.all ?_)⟩
  simp only [List.forall_mem_cons, List.not_mem_nil, false_implies, implies_true, and_true]
  refine ⟨Local.char (by decide), Local.longest ?_⟩
  simp only [List.forall_mem_cons, List.not_mem_nil, false_implies, implies_true, and_true]
  refine ⟨Local.all ?_, Local.exactly (by decide) 3, Local.all ?_, Local.all ?_,
    Local.oneOf (by decide)⟩
  · simpa using ⟨Local.char (by decide), hHex 2⟩
  · simpa using ⟨Local.char (by decide), hHex 4⟩
  · simpa using ⟨Local.char (by decide), hHex 8⟩

end Stable

/-! ## Scans that take something -/

namespace Positive

variable {a b : Scan}

theorem one (p : Char → Bool) : Positive (one p) := by
  intro s n h
  unfold Scan.one at h
  split at h
  · cases h
  · split at h
    · cases h
      exact Nat.one_pos
    · cases h

theorem digits (p : Char → Bool) : Positive (digits p) := by
  intro s n h
  unfold Scan.digits at h
  split at h
  · split at h
    · cases h
      exact Nat.succ_pos _
    · cases h
  · cases h

theorem atLeast {low : Nat} (hLow : 0 < low) (p : Char → Bool) : Positive (atLeast low p) := by
  intro s n h
  unfold Scan.atLeast at h
  dsimp only at h
  split at h
  · cases h
    omega
  · cases h

theorem all (ha : Positive a) (as : List Scan) : Positive (all (a :: as)) := by
  intro s n h
  obtain ⟨m, k, hm, _, rfl⟩ := andThen_eq_some.mp h
  have hPos := ha s m hm
  omega

theorem longest {as : List Scan} (h : ∀ a ∈ as, Positive a) : Positive (longest as) := by
  intro s n hn
  obtain ⟨a, ha, hn⟩ := of_longest hn
  exact h a ha s n hn

theorem number : Positive number := by
  have hInteger : Positive integer := by
    apply longest
    simp only [List.forall_mem_cons, List.not_mem_nil, false_implies, implies_true, and_true]
    exact ⟨all (one _) _, one _, all (one _) _, all (one _) _, all (one _) _⟩
  have hFloat : Positive float := by
    apply longest
    simp only [List.forall_mem_cons, List.not_mem_nil, false_implies, implies_true, and_true]
    exact ⟨all (digits _) _, all (digits _) _, all (one _) _, all (one _) _⟩
  apply longest
  simp only [List.forall_mem_cons, List.not_mem_nil, false_implies, implies_true, and_true]
  refine ⟨hInteger, hFloat, all (longest ?_) _⟩
  simpa using ⟨digits _, hInteger, hFloat⟩

theorem rune : Positive rune := all (one _) _

theorem escape : Positive escape := all (one _) _

theorem stringContent : Positive stringContent := atLeast Nat.one_pos _

end Positive

/-- With a character after it a stable scan reads as without the text after it, or it takes all of
the text and finds the character only behind that. -/
theorem Stable.andThen_char {a : Scan} (ha : Stable a) (x : Char) {s : List Char} (hs : '\n' ∈ s)
    (rest : List Char) : a.andThen (char x) (s ++ rest) = a.andThen (char x) s ∨
      a.andThen (char x) s = none ∧
        ∀ n, a.andThen (char x) (s ++ rest) = some n → s.length < n := by
  obtain ⟨hSame, hLe⟩ := ha s rest hs
  unfold Scan.andThen
  rw [hSame]
  cases hn : a s with
  | none => exact Or.inl rfl
  | some n =>
    have hn' := hLe n hn
    simp only [Option.bind_some]
    rcases Nat.lt_or_eq_of_le hn' with hLt | rfl
    · left
      rw [List.drop_append_of_le_length hn']
      obtain ⟨y, t, ht⟩ := List.exists_cons_of_ne_nil (l := s.drop n) (by simpa using hLt)
      rw [ht]
      rfl
    · right
      rw [List.drop_length]
      refine ⟨rfl, fun k hk => ?_⟩
      obtain ⟨j, hj, rfl⟩ := Option.map_eq_some_iff.mp hk
      have hPos := Positive.one _ _ _ hj
      omega

/-! ## Texts that end with a line feed -/

section Ends

variable {s : List Char} (hs : s.getLast? = some '\n')

include hs

theorem mem_of_ends : '\n' ∈ s := List.mem_of_getLast? hs

theorem ne_nil_of_ends : s ≠ [] := by
  rintro rfl
  cases hs

theorem ends_drop {n : Nat} (hn : n < s.length) : (s.drop n).getLast? = some '\n' := by
  rw [List.getLast?_drop, if_neg (by omega), hs]

/-- The closing quote of a rune is not the last character. -/
theorem char_drop_lt {x : Char} (hx : x ≠ '\n') {n k : Nat} (h : char x (s.drop n) = some k) :
    n + k < s.length := by
  cases hDrop : s.drop n with
  | nil =>
    rw [hDrop] at h
    cases h
  | cons c t =>
    have hn : n < s.length := by
      have hLength := congrArg List.length hDrop
      rw [List.length_drop, List.length_cons] at hLength
      omega
    have hEnds := ends_drop hs hn
    rw [hDrop] at h hEnds
    by_cases hc : c = x
    · subst hc
      simp only [char, one, beq_self_eq_true, if_true, Option.some.injEq] at h
      have ht : t ≠ [] := by
        rintro rfl
        simp only [List.getLast?_singleton, Option.some.injEq] at hEnds
        exact hx hEnds
      have hLength := congrArg List.length hDrop
      rw [List.length_drop, List.length_cons] at hLength
      have hPos := List.length_pos_iff.mpr ht
      omega
    · simp [char, one, hc] at h

theorem rune_lt {n : Nat} (h : rune s = some n) : n < s.length := by
  unfold rune all at h
  obtain ⟨m, k, hm, hk, rfl⟩ := andThen_eq_some.mp h
  obtain ⟨m', k', hm', hk', rfl⟩ := andThen_eq_some.mp hk
  rw [all_singleton, List.drop_drop] at hk'
  have hLt := char_drop_lt hs (by decide) hk'
  omega

omit hs in
theorem ends_of_cons {c : Char} {t : List Char} (hc : c ≠ '\n')
    (h : (c :: t).getLast? = some '\n') : t.getLast? = some '\n' := by
  have ht : t ≠ [] := by
    rintro rfl
    exact hc (Option.some.inj h)
  rwa [List.getLast?_cons_of_ne_nil ht] at h

omit hs in
theorem rune_quote (t : List Char) :
    rune ('\'' :: t) = (runeBody.andThen (char '\'') t).map (1 + ·) := by
  unfold rune all
  rw [all, all_singleton]
  rfl

/-- A rune is read as without the text after it, unless it takes the last line feed. -/
theorem rune_append (rest : List Char) : rune (s ++ rest) = rune s ∨
    s.head? = some '\'' ∧ rune s = none ∧ ∀ n, rune (s ++ rest) = some n → s.length < n := by
  cases s with
  | nil => cases hs
  | cons c t =>
    by_cases hc : c = '\''
    · subst hc
      have ht := mem_of_ends (ends_of_cons (by decide) hs)
      rw [List.cons_append, rune_quote, rune_quote]
      rcases Stable.runeBody.andThen_char '\'' ht rest with hSame | ⟨hNone, hLt⟩
      · exact Or.inl (by rw [hSame])
      · refine Or.inr ⟨rfl, by rw [hNone]; rfl, fun k hk => ?_⟩
        obtain ⟨n, hn, rfl⟩ := Option.map_eq_some_iff.mp hk
        have := hLt n hn
        rw [List.length_cons]
        omega
    · left
      simp [rune, all, andThen, char, one, hc]

omit hs in
theorem throughClose_append {t : List Char} {n : Nat} (h : throughClose t = some n)
    (rest : List Char) : throughClose (t ++ rest) = some n := by
  fun_induction throughClose t generalizing n with
  | case1 t => exact h
  | case2 c t hFirst ih =>
    obtain ⟨m, hm, rfl⟩ := Option.map_eq_some_iff.mp h
    rw [List.cons_append, throughClose, ih hm]
    · rfl
    · rintro u rfl hu
      cases t with
      | nil => cases hm
      | cons d t =>
        obtain ⟨rfl, _⟩ := List.cons.inj hu
        exact hFirst t rfl rfl
  | case3 => cases h

theorem throughClose_lt {n : Nat} (h : throughClose s = some n) : n < s.length := by
  fun_induction throughClose s generalizing n with
  | case1 t =>
    cases h
    cases t with
    | nil => cases hs
    | cons c t => simp
  | case2 c t hFirst ih =>
    obtain ⟨m, hm, rfl⟩ := Option.map_eq_some_iff.mp h
    have ht : t ≠ [] := by
      rintro rfl
      cases hm
    have hLt := ih (by rwa [List.getLast?_cons_of_ne_nil ht] at hs) hm
    rw [List.length_cons]
    omega
  | case3 => cases h

theorem comment_lt {n : Nat} (h : comment s = some n) : n < s.length := by
  unfold comment at h
  split at h
  · rename_i t
    have hEnds := ends_of_cons (by decide) (ends_of_cons (by decide) hs)
    have hLt := lt_length (mem_of_ends hEnds) (n := (t.takeWhile (· != '\n')).length) (by
      rw [take_takeWhile (Nat.le_refl _)]
      exact fun h => notMem_takeWhile (by decide) t (List.mem_of_mem_take h))
    cases h
    rw [List.length_cons, List.length_cons]
    omega
  · rename_i t
    obtain ⟨m, hm, rfl⟩ := Option.map_eq_some_iff.mp h
    have ht : t ≠ [] := by
      rintro rfl
      cases hs
    have hEnds : t.getLast? = some '\n' := by
      rwa [List.getLast?_cons_cons, List.getLast?_cons_of_ne_nil ht] at hs
    have hLt := throughClose_lt hEnds hm
    rw [List.length_cons, List.length_cons]
    omega
  · cases h

/-- A comment is read as without the text after it, unless it is only closed there. -/
theorem comment_append {rest : List Char} (h : comment s = none → comment (s ++ rest) = none) :
    comment (s ++ rest) = comment s := by
  by_cases hNone : comment s = none
  · rw [h hNone, hNone]
  · obtain ⟨n, hn⟩ := Option.ne_none_iff_exists'.mp hNone
    rw [hn]
    unfold comment at hn
    split at hn
    · rename_i t
      have ht : '\n' ∈ t := by simpa using mem_of_ends hs
      rw [← hn, List.cons_append, List.cons_append, comment,
        takeWhile_append (x := '\n') (by decide) rest ht]
    · rename_i t
      obtain ⟨m, hm, rfl⟩ := Option.map_eq_some_iff.mp hn
      rw [List.cons_append, List.cons_append, comment, throughClose_append hm]
      rfl
    · cases hn

end Ends

end FuncSpans.Go.Scan
