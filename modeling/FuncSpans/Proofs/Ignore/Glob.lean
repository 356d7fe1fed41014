import FuncSpans.Ignore.Glob
import Mathlib.Data.List.Infix
import Mathlib.Tactic.SplitIfs

/-!
# What globs match

What can be left of a text after a part of a glob is an end of the text (`suffix_of_mem_afterPart`).
So an end is known by its length, ends can be followed one by one (`mem_afterParts_cons`), and a
glob that begins with `**` matches a text if the rest of it matches an end that is a path of its own
(`matchesText_anyPrefix`).

A part is free of slashes if nothing that it matches has one (`GlobPart.SlashFree`). A glob of such
parts behind a `**` is about names only: it depends on the last name of a path
(`Glob.ByName.matchesText_iff`).
-/

namespace FuncSpans

namespace Glob

/-! ## Ends -/

theorem mem_suffixes {bs e : Bytes} : e ∈ suffixes bs ↔ e <:+ bs := by
  induction bs with
  | nil => simp [suffixes]
  | cons b bs ih => rw [suffixes, List.mem_cons, ih, List.suffix_cons_iff]

theorem suffix_of_mem_afterStar {bs e : Bytes} (h : e ∈ afterStar bs) : e <:+ bs := by
  induction bs with
  | nil => simpa [afterStar] using h
  | cons b bs ih =>
    rw [afterStar, List.mem_cons] at h
    rcases h with rfl | h
    · exact List.suffix_refl _
    · split_ifs at h
      · cases h
      · exact (ih h).trans (List.suffix_cons b bs)

/-- What is left after a slash. -/
theorem mem_afterSlash {bs e : Bytes} : e ∈ afterSlash bs ↔ ∃ front, bs = front ++ slash :: e := by
  induction bs with
  | nil => simp [afterSlash]
  | cons b bs ih =>
    have hCons : (∃ front, b :: bs = front ++ slash :: e) ↔
        (b = slash ∧ bs = e) ∨ ∃ front, bs = front ++ slash :: e := by
      constructor
      · rintro ⟨front, he⟩
        cases front with
        | nil => exact Or.inl (List.cons.inj he)
        | cons c front => exact Or.inr ⟨front, (List.cons.inj he).2⟩
      · rintro (⟨rfl, rfl⟩ | ⟨front, rfl⟩)
        · exact ⟨[], rfl⟩
        · exact ⟨b :: front, rfl⟩
    rw [afterSlash, hCons, ← ih]
    split_ifs with hb
    · rw [List.mem_cons, and_iff_right hb, eq_comm]
    · simp [hb]

theorem mem_afterByte {p : UInt8 → Bool} {bs e : Bytes} :
    e ∈ afterByte p bs ↔ ∃ b, p b = true ∧ bs = b :: e := by
  cases bs with
  | nil => simp [afterByte]
  | cons b bs =>
    rw [afterByte]
    split_ifs with hb
    · simp only [List.mem_singleton, List.cons.injEq]
      exact ⟨fun he => ⟨b, hb, rfl, he.symm⟩, fun ⟨_, _, _, he⟩ => he.symm⟩
    · simp only [List.not_mem_nil, List.cons.injEq, false_iff, not_exists, not_and]
      rintro c hc rfl
      exact (hb hc).elim

theorem mem_afterText {ts bs e : Bytes} : e ∈ afterText ts bs ↔ bs = ts ++ e := by
  induction ts generalizing bs with
  | nil => simp [afterText, eq_comm]
  | cons t ts ih =>
    cases bs with
    | nil => simp [afterText]
    | cons b bs =>
      rw [afterText]
      split_ifs with ht
      · rw [ih, ht, List.cons_append, List.cons.injEq, and_iff_right rfl]
      · simp only [List.not_mem_nil, List.cons_append, List.cons.injEq, false_iff, not_and]
        exact fun he => (ht he.symm).elim

theorem distinct_cons (e : Bytes) (ends : List Bytes) : distinct (e :: ends) =
    if (distinct ends).any (·.length == e.length) then distinct ends else e :: distinct ends := rfl

theorem mem_of_mem_distinct {ends : List Bytes} {e : Bytes} (h : e ∈ distinct ends) : e ∈ ends := by
  induction ends with
  | nil => exact h
  | cons f ends ih =>
    rw [distinct_cons] at h
    split_ifs at h
    · exact List.mem_cons_of_mem _ (ih h)
    · exact (List.mem_cons.mp h).elim (fun he => he ▸ List.mem_cons_self)
        fun h => List.mem_cons_of_mem _ (ih h)

/-- Ends of one text are told apart by their lengths. -/
theorem mem_distinct {text : Bytes} {ends : List Bytes} (h : ∀ e ∈ ends, e <:+ text) {e : Bytes} :
    e ∈ distinct ends ↔ e ∈ ends := by
  refine ⟨mem_of_mem_distinct, fun he => ?_⟩
  induction ends with
  | nil => exact he
  | cons f ends ih =>
    have ih := ih fun e he => h e (List.mem_cons_of_mem _ he)
    rw [distinct_cons]
    split_ifs with hAny
    · rcases List.mem_cons.mp he with rfl | he
      · obtain ⟨g, hg, hLength⟩ := List.any_eq_true.mp hAny
        have hLength := beq_iff_eq.mp hLength
        have hEnd : g <:+ text := h g (List.mem_cons_of_mem _ (mem_of_mem_distinct hg))
        have hSuffix : g <:+ e :=
          List.suffix_of_suffix_length_le hEnd (h e List.mem_cons_self) hLength.le
        exact hSuffix.eq_of_length hLength ▸ hg
      · exact ih he
    · exact List.mem_cons.mpr ((List.mem_cons.mp he).imp_right ih)

mutual

/-- What is left after a part is an end of the text. -/
theorem suffix_of_mem_afterPart : ∀ (p : GlobPart) {bs e : Bytes}, e ∈ afterPart p bs → e <:+ bs
  | .literal c, bs, e, h => ⟨_, (mem_afterText.mp h).symm⟩
  | .anyByte, bs, e, h | .byteClass _ _, bs, e, h => by
    obtain ⟨b, _, rfl⟩ := mem_afterByte.mp h
    exact List.suffix_cons b e
  | .star, bs, e, h => suffix_of_mem_afterStar h
  | .anyPrefix, bs, e, h => by
    rw [afterPart, List.mem_cons, List.mem_append, mem_afterByte, mem_afterSlash] at h
    rcases h with rfl | ⟨b, _, rfl⟩ | ⟨front, rfl⟩
    · exact List.suffix_refl _
    · exact List.suffix_cons b e
    · exact (List.suffix_cons slash e).trans (List.suffix_append front _)
  | .anySuffix, bs, e, h => by
    obtain ⟨f, hf, he⟩ := List.mem_flatMap.mp h
    obtain ⟨b, _, rfl⟩ := mem_afterByte.mp hf
    exact (mem_suffixes.mp he).trans (List.suffix_cons b f)
  | .anyMiddle, bs, e, h => by
    obtain ⟨f, hf, he⟩ := List.mem_flatMap.mp h
    obtain ⟨b, _, rfl⟩ := mem_afterByte.mp hf
    rw [List.mem_cons, mem_afterSlash] at he
    rcases he with rfl | ⟨front, rfl⟩
    · exact List.suffix_cons b e
    · exact (List.suffix_cons slash e).trans (List.suffix_append (b :: front) _)
  | .choice alternatives, bs, e, h => by
    rw [afterPart] at h
    split_ifs at h
    · rw [List.mem_singleton.mp h]
    · exact suffix_of_mem_afterChoice alternatives h

theorem suffix_of_mem_afterParts : ∀ (ps : List GlobPart) {ends : List Bytes} {e : Bytes},
    e ∈ afterParts ps ends → ∃ bs ∈ ends, e <:+ bs
  | [], ends, e, h => ⟨e, h, List.suffix_refl e⟩
  | p :: ps, ends, e, h => by
    obtain ⟨f, hf, he⟩ := suffix_of_mem_afterParts ps h
    obtain ⟨bs, hbs, hf⟩ := List.mem_flatMap.mp (mem_of_mem_distinct hf)
    exact ⟨bs, hbs, he.trans (suffix_of_mem_afterPart p hf)⟩

theorem suffix_of_mem_afterChoice : ∀ (alternatives : List (List GlobPart)) {bs e : Bytes},
    e ∈ afterChoice alternatives bs → e <:+ bs
  | [], bs, e, h => by cases h
  | a :: as, bs, e, h => by
    rw [afterChoice, List.mem_append] at h
    rcases h with h | h
    · split_ifs at h
      · cases h
      · obtain ⟨f, hf, he⟩ := suffix_of_mem_afterParts a h
        rwa [List.mem_singleton.mp hf] at he
    · exact suffix_of_mem_afterChoice as h

end

/-! ## Following ends -/

/-- Ends of one text are followed one by one. -/
theorem mem_afterParts {text : Bytes} {ps : List GlobPart} {ends : List Bytes}
    (h : ∀ e ∈ ends, e <:+ text) {e : Bytes} :
    e ∈ afterParts ps ends ↔ ∃ bs ∈ ends, e ∈ afterParts ps [bs] := by
  induction ps generalizing text ends with
  | nil => simp [afterParts]
  | cons p ps ih =>
    have hStep {ends : List Bytes} (h : ∀ e ∈ ends, e <:+ text) : e ∈ afterParts (p :: ps) ends ↔
        ∃ bs ∈ ends, ∃ f ∈ afterPart p bs, e ∈ afterParts ps [f] := by
      have hEnds : ∀ f ∈ ends.flatMap (afterPart p), f <:+ text := fun f hf => by
        obtain ⟨bs, hbs, hf⟩ := List.mem_flatMap.mp hf
        exact (suffix_of_mem_afterPart p hf).trans (h bs hbs)
      rw [afterParts, ih fun f hf => hEnds f (mem_of_mem_distinct hf)]
      simp only [mem_distinct hEnds, List.mem_flatMap]
      exact ⟨fun ⟨f, ⟨bs, hbs, hf⟩, he⟩ => ⟨bs, hbs, f, hf, he⟩,
        fun ⟨bs, hbs, f, hf, he⟩ => ⟨f, ⟨bs, hbs, hf⟩, he⟩⟩
    rw [hStep h]
    refine exists_congr fun bs => and_congr_right fun hbs => ?_
    rw [hStep fun f hf => List.mem_singleton.mp hf ▸ h bs hbs]
    simp

theorem mem_afterParts_cons {p : GlobPart} {ps : List GlobPart} {bs e : Bytes} :
    e ∈ afterParts (p :: ps) [bs] ↔ ∃ f ∈ afterPart p bs, e ∈ afterParts ps [f] := by
  have hEnds : ∀ f ∈ afterPart p bs, f <:+ bs := fun f hf => suffix_of_mem_afterPart p hf
  rw [afterParts, List.flatMap_singleton,
    mem_afterParts fun f hf => hEnds f (mem_of_mem_distinct hf)]
  simp only [mem_distinct hEnds]

theorem matchesText_eq_any {g : Glob} (h : g.parts ≠ [.anyPrefix]) (bs : Bytes) :
    g.matchesText bs = (g.remainders bs).any List.isEmpty := by
  unfold matchesText
  split
  · rename_i he
    exact (h he).elim
  · rfl

/-- A text is all of a path, or what is behind some slash of it. -/
def EndOf (bs e : Bytes) : Prop := e = bs ∨ ∃ front, bs = front ++ slash :: e

/-- What is behind a `**` has to match the text or what is behind one of its slashes. -/
theorem matchesText_anyPrefix {ps : List GlobPart} (hps : ps ≠ []) {bs : Bytes} :
    Glob.matchesText ⟨.anyPrefix :: ps⟩ bs = true ↔
      ∃ e, EndOf bs e ∧ [] ∈ afterParts ps [e] := by
  have hEnds {e : Bytes} : e ∈ afterPart .anyPrefix bs ↔ EndOf bs e := by
    rw [afterPart, List.mem_cons, List.mem_append, mem_afterByte, mem_afterSlash]
    refine or_congr_right ⟨?_, Or.inr⟩
    rintro (⟨b, hb, rfl⟩ | h)
    · exact ⟨[], by rw [beq_iff_eq.mp hb]; rfl⟩
    · exact h
  rw [matchesText_eq_any (by simpa using hps), List.any_eq_true]
  simp only [List.isEmpty_iff, exists_eq_right, remainders, mem_afterParts_cons, hEnds]

end Glob

/-! ## Names -/

mutual

/-- Nothing that the part matches has a slash. -/
def GlobPart.SlashFree : GlobPart → Prop
  | .literal c => Glob.slash ∉ String.utf8EncodeChar c
  | .anyByte | .star => True
  | .anyPrefix | .anySuffix | .anyMiddle => False
  | .byteClass negated ranges => Glob.inClass negated ranges Glob.slash = false
  | .choice alternatives => GlobPart.AllSlashFree alternatives

/-- All parts are free of slashes. -/
def GlobPart.ListSlashFree : List GlobPart → Prop
  | [] => True
  | p :: ps => p.SlashFree ∧ ListSlashFree ps

/-- All parts of all alternatives are free of slashes. -/
def GlobPart.AllSlashFree : List (List GlobPart) → Prop
  | [] => True
  | a :: as => ListSlashFree a ∧ AllSlashFree as

end

mutual

/-- Whether a part is free of slashes. -/
def GlobPart.decideSlashFree : (p : GlobPart) → Decidable p.SlashFree
  | .literal c => inferInstanceAs (Decidable (Glob.slash ∉ String.utf8EncodeChar c))
  | .anyByte | .star => .isTrue trivial
  | .anyPrefix | .anySuffix | .anyMiddle => .isFalse id
  | .byteClass negated ranges =>
    inferInstanceAs (Decidable (Glob.inClass negated ranges Glob.slash = false))
  | .choice alternatives => GlobPart.decideAllSlashFree alternatives

/-- Whether all parts are free of slashes. -/
def GlobPart.decideListSlashFree : (ps : List GlobPart) → Decidable (GlobPart.ListSlashFree ps)
  | [] => .isTrue trivial
  | p :: ps =>
    have := GlobPart.decideSlashFree p
    have := GlobPart.decideListSlashFree ps
    inferInstanceAs (Decidable (_ ∧ _))

/-- Whether all parts of all alternatives are free of slashes. -/
def GlobPart.decideAllSlashFree :
    (alternatives : List (List GlobPart)) → Decidable (GlobPart.AllSlashFree alternatives)
  | [] => .isTrue trivial
  | a :: as =>
    have := GlobPart.decideListSlashFree a
    have := GlobPart.decideAllSlashFree as
    inferInstanceAs (Decidable (_ ∧ _))

end

instance (ps : List GlobPart) : Decidable (GlobPart.ListSlashFree ps) :=
  GlobPart.decideListSlashFree ps

namespace Glob

open GlobPart

/-- A text without a slash stands in front of an end. -/
def Consumes (bs e : Bytes) : Prop := ∃ taken, bs = taken ++ e ∧ slash ∉ taken

theorem Consumes.refl (bs : Bytes) : Consumes bs bs := ⟨[], rfl, by simp⟩

theorem Consumes.trans {bs f e : Bytes} (h : Consumes bs f) (h' : Consumes f e) :
    Consumes bs e := by
  obtain ⟨taken, rfl, hTaken⟩ := h
  obtain ⟨taken', rfl, hTaken'⟩ := h'
  exact ⟨taken ++ taken', by rw [List.append_assoc], by simp [hTaken, hTaken']⟩

theorem Consumes.cons {b : UInt8} (hb : b ≠ slash) (bs : Bytes) : Consumes (b :: bs) bs :=
  ⟨[b], rfl, by simpa using hb.symm⟩

theorem consumes_of_mem_afterStar {bs e : Bytes} (h : e ∈ afterStar bs) : Consumes bs e := by
  induction bs with
  | nil => exact List.mem_singleton.mp h ▸ Consumes.refl []
  | cons b bs ih =>
    rw [afterStar, List.mem_cons] at h
    rcases h with rfl | h
    · exact .refl _
    · split_ifs at h with hb
      · cases h
      · exact (Consumes.cons hb bs).trans (ih h)

mutual

/-- A part that is free of slashes takes none off the text. -/
theorem SlashFree.consumes : ∀ {p : GlobPart}, p.SlashFree → ∀ {bs e : Bytes},
    e ∈ afterPart p bs → Consumes bs e
  | .literal c, hp, bs, e, h => ⟨_, mem_afterText.mp h, hp⟩
  | .anyByte, _, bs, e, h => by
    obtain ⟨b, hb, rfl⟩ := mem_afterByte.mp h
    exact .cons (bne_iff_ne.mp hb) e
  | .byteClass negated ranges, hp, bs, e, h => by
    obtain ⟨b, hb, rfl⟩ := mem_afterByte.mp h
    refine .cons (fun he => ?_) e
    rw [he, hp] at hb
    cases hb
  | .star, _, bs, e, h => consumes_of_mem_afterStar h
  | .choice alternatives, hp, bs, e, h => by
    rw [afterPart] at h
    split_ifs at h
    · exact List.mem_singleton.mp h ▸ .refl bs
    · exact AllSlashFree.consumes hp h

theorem ListSlashFree.consumes : ∀ {ps : List GlobPart}, ListSlashFree ps → ∀ {bs e : Bytes},
    e ∈ afterParts ps [bs] → Consumes bs e
  | [], _, bs, e, h => List.mem_singleton.mp h ▸ .refl bs
  | p :: ps, hps, bs, e, h => by
    obtain ⟨f, hf, he⟩ := mem_afterParts_cons.mp h
    exact (SlashFree.consumes hps.1 hf).trans (ListSlashFree.consumes hps.2 he)

theorem AllSlashFree.consumes : ∀ {alternatives : List (List GlobPart)},
    AllSlashFree alternatives → ∀ {bs e : Bytes}, e ∈ afterChoice alternatives bs → Consumes bs e
  | [], _, bs, e, h => by cases h
  | a :: as, has, bs, e, h => by
    rw [afterChoice, List.mem_append] at h
    rcases h with h | h
    · split_ifs at h
      · cases h
      · exact ListSlashFree.consumes has.1 h
    · exact AllSlashFree.consumes has.2 h

end

/-- A glob is about names: behind a `**` nothing matches a slash. -/
def ByName (g : Glob) : Prop := ∃ ps, g.parts = .anyPrefix :: ps ∧ ListSlashFree ps

/-- A path has one end without a slash. -/
theorem EndOf.unique {bs e f : Bytes} (he : EndOf bs e) (hf : EndOf bs f) (heName : slash ∉ e)
    (hfName : slash ∉ f) : e = f := by
  rcases he with rfl | ⟨front, hbs⟩
  · rcases hf with rfl | ⟨front, rfl⟩
    · rfl
    · simp at heName
  · rcases hf with rfl | ⟨front', hbs'⟩
    · simp [hbs] at hfName
    · rcases List.suffix_or_suffix_of_suffix ⟨front, hbs.symm⟩ ⟨front', hbs'.symm⟩ with h | h
      · rcases List.suffix_cons_iff.mp h with h | h
        · exact (List.cons.inj h).2
        · exact (hfName (h.subset List.mem_cons_self)).elim
      · rcases List.suffix_cons_iff.mp h with h | h
        · exact (List.cons.inj h).2.symm
        · exact (heName (h.subset List.mem_cons_self)).elim

/-- A glob about names depends on the last name of a path. -/
theorem ByName.matchesText_iff {g : Glob} (h : g.ByName) {bs name : Bytes} (hName : slash ∉ name)
    (hEnd : EndOf bs name) : g.matchesText bs = true ↔ g.matchesText name = true := by
  obtain ⟨parts⟩ := g
  obtain ⟨ps, rfl, hps⟩ := h
  by_cases hNil : ps = []
  · subst hNil
    exact Iff.rfl
  have hOnly {text : Bytes} (hText : EndOf text name) :
      Glob.matchesText ⟨.anyPrefix :: ps⟩ text = true ↔ [] ∈ afterParts ps [name] := by
    rw [matchesText_anyPrefix hNil]
    refine ⟨fun ⟨e, he, hMatch⟩ => ?_, fun hMatch => ⟨name, hText, hMatch⟩⟩
    obtain ⟨taken, hTaken, hSlash⟩ := ListSlashFree.consumes hps hMatch
    rw [List.append_nil] at hTaken
    exact EndOf.unique he hText (hTaken ▸ hSlash) hName ▸ hMatch
  rw [hOnly hEnd, hOnly (Or.inl rfl)]

end Glob

end FuncSpans
