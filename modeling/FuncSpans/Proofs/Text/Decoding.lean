import FuncSpans.Proofs.Text.Utf8

/-!
# Reading UTF-8

Some bytes are a text exactly if they are the bytes of some characters (`isText_iff`), and these
characters are what is read (`decode?_eq_some_iff`). For one character this goes by what its bytes
may be (`Spells`): `front` takes just such bytes off, and `String.utf8EncodeChar` makes just such
bytes.

A text that is shown loses nothing (`decodeLossy_encode`).
-/

namespace FuncSpans.Utf8

/-! ## Single bytes -/

theorem toNat_ofNat {n : Nat} (h : n < 256) : (UInt8.ofNat n).toNat = n :=
  UInt8.toNat_ofNat_of_lt' h

theorem ofNat_eq {n : Nat} {b : UInt8} (h : n = b.toNat) : UInt8.ofNat n = b := by
  rw [h, UInt8.ofNat_toNat]

theorem isContinuation_iff {b : UInt8} :
    isContinuation b = true ↔ 0x80 ≤ b.toNat ∧ b.toNat ≤ 0xBF := by
  simp [isContinuation, UInt8.le_iff_toNat_le]

/-- After a first byte of three or four the second one is a continuation, but not every one. -/
theorem follows_iff {b b1 : UInt8} : follows b b1 = true ↔ 0x80 ≤ b1.toNat ∧ b1.toNat ≤ 0xBF ∧
    (b.toNat = 0xE0 → 0xA0 ≤ b1.toNat) ∧ (b.toNat = 0xED → b1.toNat ≤ 0x9F) ∧
    (b.toNat = 0xF0 → 0x90 ≤ b1.toNat) ∧ (b.toNat = 0xF4 → b1.toNat ≤ 0x8F) := by
  simp only [follows, secondRange, beq_iff_eq, ← UInt8.toNat_inj, Bool.and_eq_true,
    decide_eq_true_eq, UInt8.le_iff_toNat_le]
  split_ifs <;> simp_all <;> omega

/-! ## One character -/

/-- Bytes that spell the character of a number. -/
inductive Spells : Bytes → Nat → Prop
  | one {b : UInt8} : b.toNat < 0x80 → Spells [b] b.toNat
  | two {b b1 : UInt8} : 0xC2 ≤ b.toNat → b.toNat ≤ 0xDF → isContinuation b1 = true →
      Spells [b, b1] (b.toNat % 32 * 64 + b1.toNat % 64)
  | three {b b1 b2 : UInt8} : 0xE0 ≤ b.toNat → b.toNat ≤ 0xEF → follows b b1 = true →
      isContinuation b2 = true →
      Spells [b, b1, b2] ((b.toNat % 16 * 64 + b1.toNat % 64) * 64 + b2.toNat % 64)
  | four {b b1 b2 b3 : UInt8} : 0xF0 ≤ b.toNat → b.toNat ≤ 0xF4 → follows b b1 = true →
      isContinuation b2 = true → isContinuation b3 = true →
      Spells [b, b1, b2, b3]
        (((b.toNat % 8 * 64 + b1.toNat % 64) * 64 + b2.toNat % 64) * 64 + b3.toNat % 64)

theorem front_of_spells {bs : Bytes} {n : Nat} (h : Spells bs n) (rest : Bytes) :
    ∃ b more, bs = b :: more ∧ front b (more ++ rest) = .char (Char.ofNat n) rest := by
  cases h with
  | @one b h =>
    have hb : b < 0x80 := UInt8.lt_iff_toNat_lt.mpr h
    exact ⟨b, [], rfl, if_pos hb⟩
  | @two b b1 hLow hHigh h1 =>
    have hb : ¬ b < 0x80 ∧ 0xC2 ≤ b ∧ b ≤ 0xDF := by
      simp only [UInt8.lt_iff_toNat_lt, UInt8.le_iff_toNat_le, UInt8.reduceToNat]
      omega
    exact ⟨b, [b1], rfl, by simp [front, hb, h1, assemble]⟩
  | @three b b1 b2 hLow hHigh h1 h2 =>
    have hb : ¬ b < 0x80 ∧ ¬ b ≤ 0xDF ∧ 0xE0 ≤ b ∧ b ≤ 0xEF := by
      simp only [UInt8.lt_iff_toNat_lt, UInt8.le_iff_toNat_le, UInt8.reduceToNat]
      omega
    exact ⟨b, [b1, b2], rfl, by simp [front, hb, h1, h2, assemble]⟩
  | @four b b1 b2 b3 hLow hHigh h1 h2 h3 =>
    have hb : ¬ b < 0x80 ∧ ¬ b ≤ 0xDF ∧ ¬ b ≤ 0xEF ∧ 0xF0 ≤ b ∧ b ≤ 0xF4 := by
      simp only [UInt8.lt_iff_toNat_lt, UInt8.le_iff_toNat_le, UInt8.reduceToNat]
      omega
    exact ⟨b, [b1, b2, b3], rfl, by simp [front, hb, h1, h2, h3, assemble]⟩

theorem spells_of_front {b : UInt8} {bs rest : Bytes} {c : Char} (h : front b bs = .char c rest) :
    ∃ n spelt, Spells spelt n ∧ c = Char.ofNat n ∧ b :: bs = spelt ++ rest := by
  have hRange {low high : UInt8} (h : (decide (low ≤ b) && decide (b ≤ high)) = true) :
      low.toNat ≤ b.toNat ∧ b.toNat ≤ high.toNat := by
    simpa only [Bool.and_eq_true, decide_eq_true_eq, UInt8.le_iff_toNat_le] using h
  revert h
  -- In all other cases the sequence is broken.
  fun_cases front b bs
  all_goals
    intro h
    try cases h
  case case1 hb => exact ⟨_, _, .one (UInt8.lt_iff_toNat_lt.mp hb), rfl, rfl⟩
  case case2 _ hLead b1 h1 =>
    exact ⟨_, _, .two (hRange hLead).1 (hRange hLead).2 h1, rfl, rfl⟩
  case case5 _ _ hLead b1 h1 b2 h2 =>
    exact ⟨_, _, .three (hRange hLead).1 (hRange hLead).2 h1 h2, rfl, rfl⟩
  case case10 _ _ _ hLead b1 h1 b2 h2 b3 h3 =>
    exact ⟨_, _, .four (hRange hLead).1 (hRange hLead).2 h1 h2 h3, rfl, rfl⟩

theorem spells_encodeChar (c : Char) : Spells (String.utf8EncodeChar c) c.toNat := by
  have hc := c.valid
  simp only [UInt32.isValidChar, Nat.isValidChar] at hc
  rw [← Char.toNat_val]
  simp only [String.utf8EncodeChar]
  generalize c.val.toNat = v at *
  split_ifs with h1 h2 h3
  · have h := @Spells.one (.ofNat v)
    rw [toNat_ofNat (by omega)] at h
    exact h (by omega)
  · have h := @Spells.two (.ofNat (v / 64 % 32 + 192)) (.ofNat (v % 64 + 128))
    rw [isContinuation_iff, toNat_ofNat (by omega), toNat_ofNat (by omega)] at h
    convert h (by omega) (by omega) (by omega) using 1
    omega
  · have h := @Spells.three (.ofNat (v / 4096 % 16 + 224)) (.ofNat (v / 64 % 64 + 128))
      (.ofNat (v % 64 + 128))
    rw [follows_iff, isContinuation_iff, toNat_ofNat (by omega), toNat_ofNat (by omega),
      toNat_ofNat (by omega)] at h
    convert h (by omega) (by omega) (by omega) (by omega) using 1
    omega
  · have h := @Spells.four (.ofNat (v / 262144 % 8 + 240)) (.ofNat (v / 4096 % 64 + 128))
      (.ofNat (v / 64 % 64 + 128)) (.ofNat (v % 64 + 128))
    rw [follows_iff, isContinuation_iff, isContinuation_iff, toNat_ofNat (by omega),
      toNat_ofNat (by omega), toNat_ofNat (by omega), toNat_ofNat (by omega)] at h
    convert h (by omega) (by omega) (by omega) (by omega) (by omega) using 1
    omega

/-- The number is that of a character: what `follows` leaves out are the surrogates and what is
too large, and also what fewer bytes spell. -/
theorem Spells.isValidChar {bs : Bytes} {n : Nat} (h : Spells bs n) : n.isValidChar := by
  cases h with
  | one h => exact Or.inl (by omega)
  | two hLow hHigh h1 => exact Or.inl (by omega)
  | three hLow hHigh h1 h2 =>
    rw [follows_iff] at h1
    unfold Nat.isValidChar
    omega
  | four hLow hHigh h1 h2 h3 =>
    rw [follows_iff] at h1
    unfold Nat.isValidChar
    omega

theorem encodeChar_of_spells {bs : Bytes} {n : Nat} (h : Spells bs n) :
    String.utf8EncodeChar (Char.ofNat n) = bs := by
  have hNat : (Char.ofNat n).val.toNat = n := by
    rw [Char.ofNat, dif_pos h.isValidChar]
    rfl
  simp only [String.utf8EncodeChar, hNat]
  cases h with
  | one h => rw [if_pos (by omega), UInt8.ofNat_toNat]
  | @two b b1 hLow hHigh h1 =>
    rw [isContinuation_iff] at h1
    rw [if_neg (by omega), if_pos (by omega), @ofNat_eq _ b (by omega), @ofNat_eq _ b1 (by omega)]
  | @three b b1 b2 hLow hHigh h1 h2 =>
    rw [follows_iff] at h1
    rw [isContinuation_iff] at h2
    rw [if_neg (by omega), if_neg (by omega), if_pos (by omega), @ofNat_eq _ b (by omega),
      @ofNat_eq _ b1 (by omega), @ofNat_eq _ b2 (by omega)]
  | @four b b1 b2 b3 hLow hHigh h1 h2 h3 =>
    rw [follows_iff] at h1
    rw [isContinuation_iff] at h2 h3
    rw [if_neg (by omega), if_neg (by omega), if_neg (by omega), @ofNat_eq _ b (by omega),
      @ofNat_eq _ b1 (by omega), @ofNat_eq _ b2 (by omega), @ofNat_eq _ b3 (by omega)]

/-- A byte of ASCII is a character of its own. -/
theorem Spells.eq_of_mem {bs : Bytes} {n : Nat} (h : Spells bs n) {x : UInt8} (hx : x ∈ bs)
    (hAscii : x.toNat < 0x80) : n = x.toNat := by
  cases h with
  | one h => rw [List.mem_singleton.mp hx]
  | two hLow hHigh h1 =>
    rw [isContinuation_iff] at h1
    simp only [List.mem_cons, List.not_mem_nil, or_false] at hx
    rcases hx with rfl | rfl <;> omega
  | three hLow hHigh h1 h2 =>
    rw [follows_iff] at h1
    rw [isContinuation_iff] at h2
    simp only [List.mem_cons, List.not_mem_nil, or_false] at hx
    rcases hx with rfl | rfl | rfl <;> omega
  | four hLow hHigh h1 h2 h3 =>
    rw [follows_iff] at h1
    rw [isContinuation_iff] at h2 h3
    simp only [List.mem_cons, List.not_mem_nil, or_false] at hx
    rcases hx with rfl | rfl | rfl | rfl <;> omega

theorem encodeChar_of_ascii {b : UInt8} (hAscii : b.toNat < 0x80) :
    String.utf8EncodeChar (Char.ofNat b.toNat) = [b] := encodeChar_of_spells (.one hAscii)

/-- No other character has a byte of ASCII among its bytes. -/
theorem encodeChar_eq_of_mem {c : Char} {b : UInt8} (hb : b ∈ String.utf8EncodeChar c)
    (hAscii : b.toNat < 0x80) : String.utf8EncodeChar c = [b] := by
  have hNat := (spells_encodeChar c).eq_of_mem hb hAscii
  rw [← encodeChar_of_ascii hAscii, ← hNat, Char.ofNat_toNat]

/-- A character is taken off the front exactly if its bytes stand there. -/
theorem front_eq_char_iff {b : UInt8} {bs rest : Bytes} {c : Char} :
    front b bs = .char c rest ↔ b :: bs = String.utf8EncodeChar c ++ rest := by
  constructor
  · intro h
    obtain ⟨n, spelt, hSpells, rfl, he⟩ := spells_of_front h
    rw [encodeChar_of_spells hSpells, he]
  · intro h
    obtain ⟨b', more, he, hFront⟩ := front_of_spells (spells_encodeChar c) rest
    rw [he] at h
    obtain ⟨rfl, rfl⟩ := List.cons.inj h
    rwa [Char.ofNat_toNat] at hFront

/-! ## Texts -/

theorem encode_append (cs ds : List Char) : encode (cs ++ ds) = encode cs ++ encode ds :=
  List.flatMap_append

theorem read_encode (lossy : Bool) {fuel : Nat} {cs : List Char} (h : (encode cs).length ≤ fuel) :
    read lossy fuel (encode cs) = some cs := by
  induction cs generalizing fuel with
  | nil => cases fuel <;> rfl
  | cons c cs ih =>
    obtain ⟨b, bs, he⟩ : ∃ b bs, encode (c :: cs) = b :: bs :=
      List.exists_cons_of_ne_nil (by simp [encode_cons, String.utf8EncodeChar_ne_nil])
    have hFront : front b bs = .char c (encode cs) := by
      rw [front_eq_char_iff, ← he, encode_cons]
    have hShorter : (encode cs).length < (encode (c :: cs)).length := by
      rw [encode_cons, List.length_append]
      exact Nat.lt_add_of_pos_left (List.length_pos_of_ne_nil String.utf8EncodeChar_ne_nil)
    rw [he] at h hShorter ⊢
    cases fuel with
    | zero => cases h
    | succ fuel =>
      have hFuel : (encode cs).length ≤ fuel := by omega
      simp only [read, hFront, ih hFuel, Option.map_some]

theorem eq_encode_of_read {fuel : Nat} {bs : Bytes} {cs : List Char}
    (h : read false fuel bs = some cs) : bs = encode cs := by
  induction fuel generalizing bs cs with
  | zero =>
    cases bs with
    | nil => cases h; rfl
    | cons b bs => cases h
  | succ fuel ih =>
    cases bs with
    | nil => cases h; rfl
    | cons b bs =>
      unfold read at h
      split at h
      · rename_i c rest hFront
        obtain ⟨ds, hRest, rfl⟩ := Option.map_eq_some_iff.mp h
        rw [front_eq_char_iff.mp hFront, ih hRest, encode_cons]
      · cases h

/-- What is read of some bytes are the characters that they are the bytes of. -/
theorem decode?_eq_some_iff {bs : Bytes} {cs : List Char} :
    decode? bs = some cs ↔ bs = encode cs := by
  constructor
  · exact eq_encode_of_read
  · rintro rfl
    exact read_encode false (Nat.le_refl _)

/-- Some bytes are a text exactly if they are the bytes of some characters. -/
theorem isText_iff {bs : Bytes} : isText bs = true ↔ ∃ cs, bs = encode cs := by
  rw [isText, Option.isSome_iff_exists]
  exact exists_congr fun cs => decode?_eq_some_iff

theorem isText_append {as bs : Bytes} (ha : isText as = true) (hb : isText bs = true) :
    isText (as ++ bs) = true := by
  obtain ⟨cs, rfl⟩ := isText_iff.mp ha
  obtain ⟨ds, rfl⟩ := isText_iff.mp hb
  exact isText_iff.mpr ⟨cs ++ ds, (encode_append cs ds).symm⟩

theorem isText_encodeChar (c : Char) : isText (String.utf8EncodeChar c) = true :=
  isText_iff.mpr ⟨[c], (List.append_nil _).symm⟩

/-- At a byte of ASCII a text falls apart into texts. -/
theorem isText_append_cons {front rest : Bytes} {b : UInt8} (hAscii : b.toNat < 0x80) :
    isText (front ++ b :: rest) = true ↔ isText front = true ∧ isText rest = true := by
  constructor
  · intro h
    obtain ⟨cs, he⟩ := isText_iff.mp h
    clear h
    induction cs generalizing front with
    | nil => simp [encode] at he
    | cons c cs ih =>
      rw [encode_cons] at he
      rcases List.append_eq_append_iff.mp he with ⟨more, hChar, hRest⟩ | ⟨more, hFront, hRest⟩
      · cases more with
        | nil =>
          -- The character ends in front of the byte.
          rw [List.append_nil] at hChar
          exact ⟨hChar ▸ isText_encodeChar c, (@ih [] hRest).2⟩
        | cons b' more =>
          obtain ⟨rfl, hBehind⟩ := List.cons.inj hRest
          rw [encodeChar_eq_of_mem (hChar ▸ by simp) hAscii] at hChar
          obtain ⟨rfl, rfl⟩ : front = [] ∧ more = [] := by
            have hLength := congrArg List.length hChar
            simp only [List.length_append, List.length_cons, List.length_nil] at hLength
            exact ⟨List.eq_nil_of_length_eq_zero (by omega),
              List.eq_nil_of_length_eq_zero (by omega)⟩
          exact ⟨rfl, isText_iff.mpr ⟨cs, hBehind⟩⟩
      · obtain ⟨hMore, hRest⟩ := ih hRest.symm
        exact ⟨hFront ▸ isText_append (isText_encodeChar c) hMore, hRest⟩
  · rintro ⟨hFront, hRest⟩
    have hByte : isText [b] = true := encodeChar_of_ascii hAscii ▸ isText_encodeChar _
    exact isText_append hFront (isText_append hByte hRest)

theorem isText_ofString (s : String) : isText (ofString s) = true := isText_iff.mpr ⟨_, rfl⟩

/-- A text is shown as it is. -/
theorem decodeLossy_encode (cs : List Char) : decodeLossy (encode cs) = cs := by
  rw [decodeLossy, read_encode true (Nat.le_refl _), Option.getD_some]

end FuncSpans.Utf8
