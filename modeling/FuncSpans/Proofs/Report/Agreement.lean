import FuncSpans.Proofs.Number.Reading
import FuncSpans.Proofs.Report.Csv
import FuncSpans.Proofs.Report.Document
import FuncSpans.Report.Table

/-!
# Agreement of the formats

`summaries_agree` compares what the three formats show of a statistic. Comma-separated values and
JSON denote a shortest decimal, which is rounded to the number that was printed and to no other one.
It is the same decimal in both, unless the number lies in the middle between two of them: the one
goes up there, the other one to the even digit (`formats_disagree`). A table shows the nearest
hundredth.
-/

namespace FuncSpans.Report

open Decimal Binary64

/-! ## Finite statistics -/

section

variable {x : Binary64} {m : Nat} {q : ℤ}

theorem signedValue_csv (h : x.parts = .finite m q) :
    signedValue (Csv.cell (some x)) = (x.isNegative, (Shortest.shortest m q false).value) := by
  rw [Csv.cell, Csv.numbers.signedValue_write h,
    Csv.numbers.numeralValue_shortest (by simp [Csv.numbers])]
  rfl

theorem signedValue_document (h : x.parts = .finite m q) :
    signedValue (Document.numbers.write x) =
      (x.isNegative, (Shortest.shortest m q true).value) := by
  rw [Document.numbers.signedValue_write h,
    Document.numbers.numeralValue_shortest (by simp [Document.numbers])]
  rfl

theorem signedValue_table (h : x.parts = .finite m q) : signedValue (Table.cell (some x)) =
    (x.isNegative, (NumberFormat.roundPlaces 2 m q : ℚ) / 10 ^ 2) := by
  rw [Table.cell, Table.numbers.signedValue_write h, NumberFormat.numeralValue_fixed rfl]

/-- A size is rounded to a number only if it is rounded to this one. -/
theorem roundsTo_iff_eq {r : ℚ} (h : RoundsTo x.isNegative r x) (y : Binary64) :
    RoundsTo x.isNegative r y ↔ y = x :=
  ⟨fun hy => hy.unique h, fun he => he ▸ h⟩

/-- The cell of a number has no exponent. -/
theorem isMark_csv (h : x.parts = .finite m q) : ∀ c ∈ Csv.cell (some x), isMark c = false := by
  obtain ⟨hPointed, -⟩ := pointed_positional (Shortest.shortest m q false)
  have hMark : ∀ c ∈ Csv.numbers.finite m q, isMark c = false := fun c hc => by
    simpa using hPointed.not_isMark c hc
  rw [Csv.cell, NumberFormat.write, h]
  dsimp only
  split_ifs
  · exact List.forall_mem_cons.mpr ⟨rfl, hMark⟩
  · exact hMark

theorem ofStatistic_finite (h : x.parts = .finite m q) :
    Document.ofStatistic (some x) = .number (Document.numbers.write x) := by
  simp only [Document.ofStatistic, h]

theorem table_finite (h : x.parts = .finite m q) : Table.cell (some x) =
    (if x.isNegative then ['-'] else []) ++
      positional ⟨NumberFormat.roundPlaces 2 m q, -2⟩ := by
  rw [Table.cell, NumberFormat.write, h]
  dsimp only
  split_ifs <;> rfl

end

/-- What the three formats show of a finite number. -/
structure Agree (x : Binary64) (csv json table : List Char) : Prop where
  csv_numeric : Json.Numeric csv
  /-- All digits are written out. -/
  csv_positional : ∀ c ∈ csv, isMark c = false
  json_numeric : Json.Numeric json
  csv_shortest : ∃ d, x.IsShortest d ∧ signedValue csv = (x.isNegative, d.value)
  json_shortest : ∃ d, x.IsShortest d ∧ signedValue json = (x.isNegative, d.value)
  /-- What is denoted is rounded to the number, bit by bit. -/
  csv_reads : ∀ y, RoundsTo (signedValue csv).1 (signedValue csv).2 y ↔ y = x
  json_reads : ∀ y, RoundsTo (signedValue json).1 (signedValue json).2 y ↔ y = x
  same : (∀ d, ¬ x.Midway d) → signedValue csv = signedValue json
  midway : ∀ d, x.Midway d →
    signedValue csv = (x.isNegative, d.next.value) ∧ signedValue json = (x.isNegative, d.value)
  /-- The table shows the nearest hundredth, the even one of two, behind the same sign. -/
  hundredths : ∃ n : Nat, table = (if x.isNegative then ['-'] else []) ++ positional ⟨n, -2⟩ ∧
    signedValue table = (x.isNegative, (n : ℚ) / 100) ∧
    NumberFormat.Nearest (100 * size x.magnitude) n

theorem agree_of_finite {x : Binary64} {m : Nat} {q : ℤ} (h : x.parts = .finite m q) :
    Agree x (Csv.cell (some x)) (Document.numbers.write x) (Table.cell (some x)) := by
  have hx := placed_of_parts h
  have hCsv := Shortest.shortest_isShortest hx false
  have hJson := Shortest.shortest_isShortest hx true
  have hSize : 100 * size x.magnitude = (m * 2 ^ q * 10 ^ 2 : ℚ) := by
    rw [hx.size_eq]
    ring
  have hTable : signedValue (Table.cell (some x)) =
      (x.isNegative, (NumberFormat.roundPlaces 2 m q : ℚ) / 100) := by
    rw [signedValue_table h]
    norm_num
  refine ⟨Document.numeric_write _ h, isMark_csv h, Document.numeric_write _ h,
    ⟨_, hCsv, signedValue_csv h⟩, ⟨_, hJson, signedValue_document h⟩, ?_, ?_, fun hTie => ?_,
    fun d hd => ?_, ⟨_, table_finite h, hTable, hSize ▸ NumberFormat.roundPlaces_nearest 2 m q⟩⟩
  · rw [signedValue_csv h]
    exact roundsTo_iff_eq hCsv.rounds
  · rw [signedValue_document h]
    exact roundsTo_iff_eq hJson.rounds
  · rcases Shortest.shortest_eq_or_midway hx with he | ⟨d, hd⟩
    · rw [signedValue_csv h, signedValue_document h, he]
    · exact (hTie d hd).elim
  · obtain ⟨hLower, hUpper⟩ := Shortest.shortest_of_midway hx hd
    rw [signedValue_csv h, signedValue_document h, hLower, hUpper]
    exact ⟨rfl, rfl⟩

/-! ## Reports -/

/-- The formats show the same statistics. A finite one is shown by the same shortest decimal as
comma-separated value and in JSON, in whatever notation, unless it lies in the middle between two of
them; each of them is rounded to the number with all its bits. A table shows the nearest hundredth.
Of a number that is not finite JSON has `null` and the others its name; an undefined statistic is
`null`, an empty cell or a dash. -/
theorem summaries_agree :
    (∀ gs : List (String × Summary Binary64),
      Csv.read (Csv.render (.summaries gs)) = some (Csv.headers.summaries ::
        gs.map fun g => g.1.toList :: g.2.fields.map Csv.cell) ∧
      Json.read (Document.render (.summaries gs)) = some (.object (gs.map fun g => (g.1.toList,
        .object ((["mean", "median", "95%ile", "99%ile"].map String.toList).zip
          (g.2.fields.map Document.ofStatistic))))) ∧
      Table.render (.summaries gs) = Table.layout (Table.headers.summaries ::
        gs.map fun g => g.1.toList :: g.2.fields.map Table.cell)) ∧
    (∀ (x : Binary64) (m : Nat) (q : ℤ), x.parts = .finite m q →
      size x.magnitude = m * 2 ^ q ∧
      ∃ json, Document.ofStatistic (some x) = .number json ∧
        Agree x (Csv.cell (some x)) json (Table.cell (some x))) ∧
    (∀ x : Binary64, x.parts = .nan → Document.ofStatistic (some x) = .null ∧
      Csv.cell (some x) = "NaN".toList ∧ Table.cell (some x) = "NaN".toList) ∧
    (∀ x : Binary64, x.parts = .infinite → Document.ofStatistic (some x) = .null ∧
      Csv.cell (some x) = (if x.isNegative then "-inf" else "inf").toList ∧
      Table.cell (some x) = (if x.isNegative then "-inf" else "inf").toList) ∧
    Document.ofStatistic none = .null ∧ Csv.cell none = [] ∧ Table.cell none = "-".toList := by
  refine ⟨fun gs => ⟨Csv.read_render_rows _, (Document.reads_ofReport (.summaries gs)).read, rfl⟩,
    fun x m q h => ⟨(placed_of_parts h).size_eq, _, ofStatistic_finite h, agree_of_finite h⟩,
    fun x h => ?_, fun x h => ?_, rfl, rfl, rfl⟩
  · simp only [Document.ofStatistic, Csv.cell, Table.cell, NumberFormat.write, h]
    exact ⟨trivial, rfl, rfl⟩
  · simp only [Document.ofStatistic, Csv.cell, Table.cell, NumberFormat.write, h]
    cases x.isNegative <;> exact ⟨trivial, rfl, rfl⟩

/-- A number in the middle is shown by two decimals. -/
theorem formats_disagree :
    let x : Binary64 := ⟨0x4310000000000001⟩
    x.parts = .finite 0x10000000000001 (-2) ∧ (∃ d, x.Midway d) ∧
      Csv.cell (some x) = "1125899906842624.3".toList ∧
      Document.ofStatistic (some x) = .number "1125899906842624.2".toList ∧
      signedValue "1125899906842624.3".toList ≠ signedValue "1125899906842624.2".toList := by
  intro x
  have hParts : x.parts = .finite 0x10000000000001 (-2) := by cbv
  have hMidway := (Shortest.shortest_eq_or_midway (placed_of_parts hParts)).resolve_left
    (by decide +kernel)
  have hDigits : Document.numbers.write x = "1125899906842624.2".toList := by decide +kernel
  exact ⟨hParts, hMidway, by decide +kernel, (ofStatistic_finite hParts).trans (congrArg _ hDigits),
    by decide +kernel⟩

end FuncSpans.Report
