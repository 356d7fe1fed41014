import FuncSpans.Proofs.Json.RoundTrip
import FuncSpans.Proofs.Record.Log
import FuncSpans.Report.Document

/-!
# Reading reports as JSON

The value that shows a report is plain (`plain_ofReport`), so the text of the report is one of the
grammar and has just this value, with nothing behind it but the end of the line (`reads_ofReport`).
`reads_back` says what the value is, and that reports of records have different texts if they differ
in anything that they show.
-/

namespace FuncSpans.Report.Document

open Json

/-! ## The value of a report -/

theorem numeric_natDigits (n : Nat) : Numeric (Decimal.natDigits n) :=
  ⟨_, .of_shape ⟨_, [], Decimal.whole_natDigits n, Or.inl rfl, (List.append_nil _).symm⟩,
    Or.inl rfl⟩

theorem numeric_write (f : NumberFormat) {x : Binary64} {m : Nat} {q : Int}
    (h : x.parts = .finite m q) : Numeric (f.write x) := by
  refine ⟨f.finite m q, f.numeral_finite m q, ?_⟩
  unfold NumberFormat.write
  rw [h]
  dsimp only
  split_ifs
  · exact Or.inr rfl
  · exact Or.inl rfl

/-- Whether a statistic is defined and finite. -/
def IsFinite (x : Option Binary64) : Prop := ∃ y m q, x = some y ∧ y.parts = .finite m q

theorem ofStatistic_of_isFinite {x : Option Binary64} (h : IsFinite x) :
    ∃ cs, Numeric cs ∧ ofStatistic x = .number cs := by
  obtain ⟨y, m, q, rfl, hParts⟩ := h
  exact ⟨_, numeric_write numbers hParts, by simp only [ofStatistic, hParts]⟩

theorem ofStatistic_of_not_isFinite {x : Option Binary64} (h : ¬ IsFinite x) :
    ofStatistic x = .null := by
  cases x with
  | none => rfl
  | some y =>
    unfold ofStatistic
    split
    · cases ‹some y = none›
    · rename_i z he
      cases he
      split
      · exact (h ⟨_, _, _, rfl, ‹_›⟩).elim
      · rfl

theorem ofStatistic_eq_null_iff (x : Option Binary64) : ofStatistic x = .null ↔ ¬ IsFinite x := by
  refine ⟨fun hNull h => ?_, ofStatistic_of_not_isFinite⟩
  obtain ⟨cs, _, hNumber⟩ := ofStatistic_of_isFinite h
  cases hNull.symm.trans hNumber

theorem plain_ofStatistic (x : Option Binary64) : (ofStatistic x).Plain := by
  by_cases h : IsFinite x
  · obtain ⟨cs, hNumeric, he⟩ := ofStatistic_of_isFinite h
    rw [he]
    exact .number hNumeric
  · rw [ofStatistic_of_not_isFinite h]
    exact .null

theorem plain_ofRecord (r : Record) : (ofRecord r).Plain := by
  refine .object ?_
  simp only [List.forall_mem_cons]
  exact ⟨.string _, .string _, .string _, .string _, .number (numeric_natDigits _),
    .number (numeric_natDigits _), .number (numeric_natDigits _), by simp⟩

theorem plain_ofSummary (s : Summary Binary64) : (ofSummary s).Plain := by
  refine .object ?_
  simp only [List.forall_mem_cons]
  exact ⟨plain_ofStatistic _, plain_ofStatistic _, plain_ofStatistic _, plain_ofStatistic _,
    by simp⟩

theorem plain_ofReport (r : Report) : (ofReport r).Plain := by
  cases r with
  | records s =>
    refine .object fun m hm => ?_
    obtain ⟨g, _, rfl⟩ := List.mem_map.mp hm
    refine .array fun v hv => ?_
    obtain ⟨r, _, rfl⟩ := List.mem_map.mp hv
    exact plain_ofRecord r
  | summaries gs =>
    refine .object fun m hm => ?_
    obtain ⟨g, _, rfl⟩ := List.mem_map.mp hm
    exact plain_ofSummary g.2

/-! ## Reading -/

/-- The text of a report has this value. -/
structure Reads (r : Report) (v : Json) : Prop where
  /-- The text is in the grammar, with the end of a line behind the value and nothing else. -/
  line : ∃ cs, render r = cs ++ ['\n'] ∧ Value cs v
  /-- The grammar gives the text no other value. -/
  unique : ∀ w, Element (render r) w ↔ w = v
  readValue : Json.readValue (2 * (render r).length + 2) (render r) = some (v, ['\n'])
  read : Json.read (render r) = some v

theorem reads_ofReport (r : Report) : Reads r (ofReport r) := by
  have hValue : Value ((ofReport r).print 0) (ofReport r) := (plain_ofReport r).value_print 0
  have hElement : Element (render r) (ofReport r) := .mk blanks_nil hValue (blanks_lineStart 0)
  have hEnds : Ends ['\n'] := (blanks_lineStart 0).ends ends_nil
  refine ⟨⟨_, rfl, hValue⟩, fun w => ⟨fun hw => hw.unique hElement, fun he => he ▸ hElement⟩,
    hValue.readValue hEnds ?_, hElement.read⟩
  rw [render, List.length_append]
  omega

theorem render_inj {r r' : Report} : render r = render r' ↔ ofReport r = ofReport r' := by
  refine ⟨fun h => ?_, fun h => by rw [render, render, h]⟩
  have hRead := (reads_ofReport r).read
  rw [h, (reads_ofReport r').read] at hRead
  exact (Option.some.inj hRead).symm

/-! ## What is shown -/

/-- The number that digits stand for. -/
theorem ofDigitChars_natDigits (n : Nat) : Nat.ofDigitChars 10 (Decimal.natDigits n) 0 = n :=
  Nat.ofDigitChars_toDigits (by decide) (by decide)

theorem natDigits_inj {m n : Nat} : Decimal.natDigits m = Decimal.natDigits n ↔ m = n := by
  refine ⟨fun h => ?_, congrArg _⟩
  rw [← ofDigitChars_natDigits m, h, ofDigitChars_natDigits]

/-- All that is shown of a record. -/
def shown (r : Record) : String × String × String × String × Nat × Nat × Nat :=
  (r.group, r.package, r.name, r.fileText, r.startsAt, r.endsAt, r.lines)

theorem ofRecord_inj {r r' : Record} : ofRecord r = ofRecord r' ↔ shown r = shown r' := by
  simp only [ofRecord, ofNat, shown, object.injEq, string.injEq, number.injEq, List.cons.injEq,
    Prod.mk.injEq, String.toList_inj, natDigits_inj, true_and, and_true]

/-- Lists have equal images under functions that tell the same elements apart. -/
theorem map_eq_map_iff {α β γ : Type} {f : α → β} {g : α → γ} (h : ∀ a b, f a = f b ↔ g a = g b)
    {l l' : List α} : l.map f = l'.map f ↔ l.map g = l'.map g := by
  induction l generalizing l' with
  | nil => cases l' <;> simp
  | cons a l ih =>
    cases l' with
    | nil => simp
    | cons b l' => simp only [List.map_cons, List.cons.injEq, h, ih]

theorem ofReport_records_inj {s t : Store} : ofReport (.records s) = ofReport (.records t) ↔
    s.groups.map (fun g => (g.1, g.2.map shown)) = t.groups.map fun g => (g.1, g.2.map shown) := by
  rw [ofReport, ofReport, object.injEq]
  refine map_eq_map_iff fun g g' => ?_
  rw [Prod.mk.injEq, Prod.mk.injEq, String.toList_inj, array.injEq,
    map_eq_map_iff fun _ _ => ofRecord_inj]

/-- A report is read back from its text as the value that shows it, by the grammar of JSON and by
the reader, with nothing behind it but the end of the line. For records this is an object whose
names are the groups, in the order of their bytes and each once, with all records of a group in the
order in which they have been inserted; a record has its seven members with their exact texts and
numbers. For summaries each group has its four statistics; a statistic is `null` where it is
undefined or not finite, and a number elsewhere. Reports of records have one text only if they show
the same records in the same groups. -/
theorem reads_back :
    (∀ b : Store.Build, ∃ names : List String,
      (names.Pairwise fun m n => Utf8.ofString m < Utf8.ofString n) ∧
      (∀ name, name ∈ names ↔ ∃ e ∈ b.log, e.group = name) ∧
      Reads (.records b.store) (.object (names.map fun name =>
        (name.toList, .array ((Store.insertedInto b.log name).map fun r => .object [
          ("group".toList, .string r.group.toList),
          ("package".toList, .string r.package.toList),
          ("function_name".toList, .string r.name.toList),
          ("file_name".toList, .string r.fileText.toList),
          ("starts_at".toList, .number (Decimal.natDigits r.startsAt)),
          ("ends_at".toList, .number (Decimal.natDigits r.endsAt)),
          ("lines".toList, .number (Decimal.natDigits r.lines))]))))) ∧
    (∀ n, Nat.ofDigitChars 10 (Decimal.natDigits n) 0 = n) ∧
    (∀ gs : List (String × Summary Binary64),
      Reads (.summaries gs) (.object (gs.map fun g => (g.1.toList, .object [
        ("mean".toList, ofStatistic g.2.mean),
        ("median".toList, ofStatistic g.2.median),
        ("95%ile".toList, ofStatistic g.2.p95),
        ("99%ile".toList, ofStatistic g.2.p99)])))) ∧
    (∀ x : Option Binary64, (ofStatistic x = .null ↔ ¬ IsFinite x) ∧
      (IsFinite x → ∃ cs, Numeric cs ∧ ofStatistic x = .number cs)) ∧
    ∀ s t : Store, render (.records s) = render (.records t) ↔
      s.groups.map (fun g => (g.1, g.2.map shown)) =
        t.groups.map fun g => (g.1, g.2.map shown) := by
  refine ⟨fun b => ?_, ofDigitChars_natDigits, fun gs => reads_ofReport (.summaries gs),
    fun x => ⟨ofStatistic_eq_null_iff x, ofStatistic_of_isFinite⟩,
    fun s t => render_inj.trans ofReport_records_inj⟩
  have hReplay := b.isReplay
  have hReads := reads_ofReport (.records b.store)
  rw [ofReport, hReplay.groups_eq, List.map_map] at hReads
  exact ⟨b.store.names, b.store.ordered.names.imp Utf8.ofString_lt_iff.mpr,
    fun _ => hReplay.mem_names_iff, hReads⟩

end FuncSpans.Report.Document
