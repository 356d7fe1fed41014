import FuncSpans.Ignore.RuleSet
import FuncSpans.Proofs.Ignore.Glob
import FuncSpans.Proofs.Path.Clean

/-!
# Paths below a directory

The path of a way of names below a directory is the path of the directory with a slash at its end,
and the names with slashes between them (`Path.below_eq`).

Rules know the entries below a directory by relative paths. However the directory is written, such a
path ends in the name of the entry (`RuleSet.endOf_relativeTo`). If the directory is written plainly
(`Path.Plain`), it consists of just the names on the way (`RuleSet.relativeTo_below`).
-/

namespace FuncSpans

namespace Path

/-! ## The text of a way -/

/-- A path with a slash at its end, where something may follow. -/
def opened (p : Path) : Path :=
  if p = [] then [] else if p.getLast? = some slash then p else p ++ [slash]

theorem child_eq (p : Path) (name : Bytes) : p.child name = p.opened ++ name := by
  unfold child opened
  split
  · rfl
  · rename_i hNe
    rw [if_neg hNe]
    split_ifs
    · rfl
    · rw [List.append_assoc, List.singleton_append]

theorem opened_append {p q : Path} (hNe : q ≠ []) (hLast : q.getLast? ≠ some slash) :
    (p ++ q).opened = p ++ q ++ [slash] := by
  rw [opened, if_neg (by simp [hNe]), List.getLast?_append_of_ne_nil _ hNe, if_neg hLast]

theorem IsName.getLast?_ne {name : Bytes} (h : IsName name) : name.getLast? ≠ some slash :=
  fun he => h.slash_notMem (List.mem_of_getLast? he)

theorem below_cons (p : Path) (name : Bytes) (way : List Bytes) :
    p.below (name :: way) = (p.child name).below way := rfl

theorem below_append (p : Path) (way way' : List Bytes) :
    p.below (way ++ way') = (p.below way).below way' := List.foldl_append

theorem joinParts_cons (part : Bytes) {parts : List Bytes} (h : parts ≠ []) :
    joinParts (part :: parts) = part ++ slash :: joinParts parts := by
  cases parts with
  | nil => exact (h rfl).elim
  | cons => rfl

/-- The names on the way stand behind the directory. -/
theorem below_eq {p : Path} {way : List Bytes} (h : ∀ name ∈ way, IsName name) (hNe : way ≠ []) :
    p.below way = p.opened ++ joinParts way := by
  induction way generalizing p with
  | nil => exact (hNe rfl).elim
  | cons name way ih =>
    have hName := h name List.mem_cons_self
    rw [below_cons]
    by_cases hWay : way = []
    · rw [hWay]
      exact child_eq p name
    · rw [ih (fun n hn => h n (List.mem_cons_of_mem _ hn)) hWay, child_eq,
        opened_append hName.ne_nil hName.getLast?_ne, joinParts_cons name hWay]
      simp

theorem length_le_below (p : Path) (way : List Bytes) : p.length ≤ (p.below way).length := by
  induction way generalizing p with
  | nil => exact Nat.le_refl _
  | cons name way ih =>
    refine Nat.le_trans ?_ (ih (p.child name))
    rw [child_eq, List.length_append, opened]
    split_ifs with hNil
    · rw [hNil]
      exact Nat.zero_le _
    · exact Nat.le_add_right _ _
    · rw [List.length_append]
      exact Nat.le_add_right_of_le (Nat.le_add_right _ _)

/-- The names on a way begin and end in a name. -/
theorem endOf_joinParts {way : List Bytes} {name : Bytes} :
    Glob.EndOf (joinParts (way ++ [name])) name := by
  induction way with
  | nil => exact Or.inl rfl
  | cons first way ih =>
    rw [List.cons_append, joinParts_cons first (by simp)]
    rcases ih with he | ⟨front, hFront⟩
    · exact Or.inr ⟨first, by rw [← he]; rfl⟩
    · exact Or.inr ⟨first ++ slash :: front, by rw [hFront, List.append_assoc]; rfl⟩


/-! ## A `./` in front -/

/-- A path begins with `./`. -/
def Dotted (p : Path) : Prop := [stop, slash] <+: p

instance (p : Path) : Decidable (Dotted p) := inferInstanceAs (Decidable ([stop, slash] <+: p))

theorem dotted_cons (p : Path) : Dotted (stop :: slash :: p) := ⟨p, rfl⟩

theorem Dotted.eq {p : Path} (h : Dotted p) : ∃ rest, p = stop :: slash :: rest :=
  h.imp fun _ he => he.symm

/-- What follows a path with a slash at its end: it does not begin with a slash or `./`. -/
structure Follows (q : Path) : Prop where
  head : q.head? ≠ some slash
  not_dotted : ¬ Dotted q

theorem follows_joinParts {way : List Bytes} (h : ∀ name ∈ way, IsName name) :
    Follows (joinParts way) := by
  cases way with
  | nil => exact ⟨by simp [joinParts], by simp [Dotted, joinParts]⟩
  | cons name way =>
    have hName := h name List.mem_cons_self
    obtain ⟨rest, he⟩ : ∃ rest, joinParts (name :: way) = name ++ rest := by
      by_cases hWay : way = []
      · exact ⟨[], by rw [hWay, List.append_nil]; rfl⟩
      · exact ⟨_, joinParts_cons name hWay⟩
    obtain ⟨b, bs, rfl⟩ := List.exists_cons_of_ne_nil hName.ne_nil
    have hb : b ≠ slash := fun he => hName.slash_notMem (he ▸ List.mem_cons_self)
    rw [he]
    refine ⟨by simpa using hb, fun hDotted => ?_⟩
    obtain ⟨tail, hTail⟩ := hDotted.eq
    obtain ⟨hStop, hTail⟩ := List.cons.inj hTail
    cases bs with
    | nil => exact hName.ne_stop (by rw [hStop])
    | cons c bs => exact hName.slash_notMem (by rw [(List.cons.inj hTail).1]; simp)

end Path

namespace RuleSet

open FuncSpans.Path

@[simp]
theorem dropDotSlash_cons (p : Path) : dropDotSlash (stop :: slash :: p) = p := rfl

theorem dropDotSlash_of_not_dotted {p : Path} (h : ¬ Dotted p) : dropDotSlash p = p :=
  if_neg fun hp => h (List.isPrefixOf_iff_prefix.mp hp)

theorem dropSlash_of_head {p : Path} (h : p.head? ≠ some slash) : dropSlash p = p := by
  refine if_neg fun hp => h ?_
  obtain ⟨q, rfl⟩ := List.isPrefixOf_iff_prefix.mp hp
  rfl

theorem opened_here : opened here = [stop, slash] := rfl

theorem dotted_opened_append {p q : Path} (hq : Follows q) (h : Dotted (p.opened ++ q)) :
    p = here ∨ Dotted p := by
  obtain ⟨rest, hRest⟩ : ∃ rest, p.opened ++ q = p ++ rest := by
    unfold opened
    split_ifs with hNil
    · exact ⟨q, by rw [hNil]⟩
    · exact ⟨q, rfl⟩
    · exact ⟨slash :: q, by simp⟩
  match p with
  | [] => exact (hq.not_dotted h).elim
  | [b] =>
    rw [hRest] at h
    obtain ⟨tail, hTail⟩ := h.eq
    exact Or.inl (by rw [(List.cons.inj hTail).1]; rfl)
  | b :: c :: bs =>
    rw [hRest] at h
    exact Or.inr (List.prefix_of_prefix_length_le h (List.prefix_append _ rest) (by simp))

theorem opened_cons_cons (b c : UInt8) (bs : Path) :
    opened (b :: c :: bs) = b :: opened (c :: bs) := by
  simp only [opened, reduceCtorEq, if_false, List.getLast?_cons_cons]
  split_ifs <;> rfl

theorem opened_slash (p : Path) : opened (slash :: p) = slash :: p.opened := by
  cases p with
  | nil => rfl
  | cons b bs => exact opened_cons_cons slash b bs

theorem opened_dotted (p : Path) : opened (stop :: slash :: p) = stop :: slash :: p.opened := by
  rw [opened_cons_cons, opened_slash]

theorem exists_opened_cons (b : UInt8) (bs : Path) : ∃ rest, opened (b :: bs) = b :: rest := by
  rw [opened, if_neg (by simp)]
  split_ifs
  · exact ⟨bs, rfl⟩
  · exact ⟨bs ++ [slash], rfl⟩

theorem opened_cases (p : Path) : p.opened = [] ∨ ∃ front, p.opened = front ++ [slash] := by
  unfold opened
  split_ifs with hNil hLast
  · exact Or.inl rfl
  · exact Or.inr (List.getLast?_eq_some_iff.mp hLast)
  · exact Or.inr ⟨p, rfl⟩

/-- A `./` in front of a directory is in front of what is below it. -/
theorem dropDotSlash_opened {p q : Path} (hq : Follows q) : dropDotSlash (p.opened ++ q) =
    if p = here then q else (dropDotSlash p).opened ++ q := by
  split_ifs with hp
  · rw [hp, opened_here]
    rfl
  by_cases hDotted : Dotted p
  · obtain ⟨rest, rfl⟩ := hDotted.eq
    rw [opened_dotted, dropDotSlash_cons]
    rfl
  · rw [dropDotSlash_of_not_dotted hDotted,
      dropDotSlash_of_not_dotted fun h => (dotted_opened_append hq h).elim hp hDotted]

/-- What follows a directory is what is left when the directory is taken off. -/
theorem dropSlash_drop_opened {p q : Path} (hq : Follows q) :
    dropSlash ((p.opened ++ q).drop p.length) = q := by
  unfold opened
  split_ifs with hNil
  · rw [hNil]
    exact dropSlash_of_head hq.head
  · rw [List.drop_left]
    exact dropSlash_of_head hq.head
  · rw [List.append_assoc, List.drop_left]
    rfl

theorem prefix_opened (p q : Path) : p <+: p.opened ++ q := by
  unfold opened
  split_ifs with hNil
  · rw [hNil]
    exact List.nil_prefix
  · exact List.prefix_append p q
  · rw [List.append_assoc]
    exact List.prefix_append p _

theorem slash_mem_opened {p : Path} (h : p ≠ []) : slash ∈ p.opened := by
  unfold opened
  rw [if_neg h]
  split_ifs with hLast
  · exact List.mem_of_getLast? hLast
  · simp

/-! ## Relative paths -/

theorem relativeTo_of_here {base path : Path} (h : base.equivalent here = true) :
    relativeTo base path = dropDotSlash path := by
  rw [relativeTo, h, Bool.true_or, if_pos rfl]

/-- What follows a directory is relative to it. -/
theorem relativeTo_opened {base q : Path} (hq : Follows q) (hDotted : ¬ Dotted base)
    (hHere : base.equivalent here = false) : relativeTo base (base.opened ++ q) = q := by
  have hNe : base ≠ here := by
    rintro rfl
    cases hHere
  rw [relativeTo, dropDotSlash_opened hq, if_neg hNe, dropDotSlash_of_not_dotted hDotted, hHere,
    Bool.false_or, if_pos (List.isPrefixOf_iff_prefix.mpr (prefix_opened base q)),
    dropSlash_drop_opened hq]
  split_ifs with hSlash
  · by_cases hNil : base = []
    · rw [hNil]
      rfl
    · have hMem : slash ∈ base.opened ++ q := List.mem_append_left _ (slash_mem_opened hNil)
      simp [hMem] at hSlash
  · rfl

theorem names_of_equivalent_here {p : Path} (h : p.equivalent here = true) : p.names = [] := by
  have hComponents : p.components = [.current] := beq_iff_eq.mp h
  have hSteps : p.steps ≠ [.current] := fun he => by
    have hMem : .current ∈ p.names := by
      rw [steps_eq] at he
      split_ifs at he
      · cases he
      · simp_all
    cases ofPart?_text hMem
  rcases components_eq p with he | he
  · exact (hSteps (he.symm.trans hComponents)).elim
  · have hNil : p.steps = [] := (List.cons.inj (he.symm.trans hComponents)).2
    rw [steps_eq] at hNil
    exact (List.append_eq_nil_iff.mp hNil).2

theorem split_dotted (p : Path) : split (stop :: slash :: p) = [stop] :: p.split := by
  obtain ⟨part, parts, hs, he⟩ := split_cons (by decide : stop ≠ slash) (slash :: p)
  rw [split_slash] at hs
  obtain ⟨rfl, rfl⟩ := List.cons.inj hs
  exact he

theorem names_dotted (p : Path) : names (stop :: slash :: p) = p.names := by
  rw [names, split_dotted]
  rfl

theorem components_dotted (p : Path) : components (stop :: slash :: p) = .current :: p.names := by
  have hSteps : steps (stop :: slash :: p) = p.names := names_dotted p
  rw [components, split_dotted, hSteps]
  rfl

theorem equivalent_here_dotted (p : Path) :
    equivalent (stop :: slash :: p) here = true ↔ p.names = [] := by
  rw [equivalent, components_dotted, beq_iff_eq]
  exact ⟨fun h => (List.cons.inj h).2, fun h => by rw [h]; rfl⟩

/-- Nothing but `.` parts can stand in front of a directory and in front of what is below it. -/
theorem names_of_dotted_prefix {q : Path} : ∀ {b : Path},
    stop :: slash :: b <+: b.opened ++ q → b.names = []
  | [], _ => rfl
  | [c], h => by
    obtain ⟨rest, hOpened⟩ := exists_opened_cons c []
    rw [hOpened, List.cons_append, List.cons_prefix_cons] at h
    rw [← h.1]
    rfl
  | c :: d :: b, h => by
    obtain ⟨rest, hOpened⟩ := exists_opened_cons d b
    rw [opened_cons_cons, hOpened, List.cons_append, List.cons_append, List.cons_prefix_cons,
      List.cons_prefix_cons] at h
    obtain ⟨rfl, rfl, h⟩ := h
    rw [opened_slash] at hOpened
    rw [← (List.cons.inj hOpened).2] at h
    rw [names_dotted]
    exact names_of_dotted_prefix h

theorem endOf_opened {q name : Bytes} (h : Glob.EndOf q name) (p : Path) :
    Glob.EndOf (p.opened ++ q) name := by
  rcases opened_cases p with hp | ⟨front, hp⟩
  · rwa [hp]
  · rcases h with rfl | ⟨front', rfl⟩
    · exact Or.inr ⟨front, by rw [hp, List.append_assoc]; rfl⟩
    · exact Or.inr ⟨p.opened ++ front', (List.append_assoc ..).symm⟩

/-- However a directory is written, the relative path of an entry below it ends in its name. -/
theorem endOf_relativeTo {p : Path} {above : List Bytes} {name : Bytes}
    (hNames : ∀ n ∈ above ++ [name], IsName n) :
    Glob.EndOf (relativeTo (dropDotSlash p) (dropDotSlash (p.below (above ++ [name])))) name := by
  have hFollows := follows_joinParts hNames
  have hEnd : Glob.EndOf (joinParts (above ++ [name])) name := endOf_joinParts
  rw [below_eq hNames (by simp), dropDotSlash_opened hFollows]
  generalize joinParts (above ++ [name]) = q at *
  have hHere : dropDotSlash here = here := rfl
  split_ifs with hp
  · rw [hp, hHere, relativeTo_of_here rfl, dropDotSlash_of_not_dotted hFollows.not_dotted]
    exact hEnd
  generalize dropDotSlash p = base
  unfold relativeTo
  rw [dropDotSlash_opened hFollows]
  by_cases hBase : base = here
  · rw [hBase, if_pos rfl]
    exact hEnd
  rw [if_neg hBase]
  by_cases hDotted : Dotted base
  · obtain ⟨b, rfl⟩ := hDotted.eq
    rw [dropDotSlash_cons]
    dsimp only
    split_ifs with hShort hPrefix
    · exact endOf_opened hEnd b
    · have hNames := names_of_dotted_prefix (List.isPrefixOf_iff_prefix.mp hPrefix)
      rw [(equivalent_here_dotted b).mpr hNames, Bool.true_or] at hShort
      exact (hShort rfl).elim
    · exact endOf_opened hEnd b
  · rw [dropDotSlash_of_not_dotted hDotted]
    dsimp only
    rw [dropSlash_drop_opened hFollows]
    split_ifs
    · exact endOf_opened hEnd base
    · exact hEnd
    · exact endOf_opened hEnd base

end RuleSet

/-! ## Plain paths -/

namespace Path

open RuleSet

/-- A path is written plainly: it is `.` or `./`, or it leads elsewhere and has no second `./` in
front. -/
def Plain (p : Path) : Prop :=
  p = here ∨ p = [stop, slash] ∨ p.equivalent here = false ∧ ¬ Dotted (dropDotSlash p)

instance (p : Path) : Decidable (Plain p) := inferInstanceAs (Decidable (_ ∨ _))

/-- The directory of a plain path as rules know it. -/
theorem Plain.base {p : Path} (h : Plain p) (hNe : p ≠ here) :
    ¬ Dotted (dropDotSlash p) ∧ (dropDotSlash p).equivalent here = false := by
  rcases h with h | rfl | ⟨hHere, hDotted⟩
  · exact (hNe h).elim
  · exact ⟨by decide, rfl⟩
  · refine ⟨hDotted, ?_⟩
    by_cases hp : Dotted p
    · obtain ⟨rest, rfl⟩ := hp.eq
      rw [dropDotSlash_cons, ← Bool.not_eq_true]
      intro h
      rw [(equivalent_here_dotted rest).mpr (names_of_equivalent_here h)] at hHere
      cases hHere
    · rwa [dropDotSlash_of_not_dotted hp]

theorem not_dotted_of_isAbsolute {p : Path} (h : p.isAbsolute = true) : ¬ Dotted p := by
  intro hp
  obtain ⟨rest, rfl⟩ := hp.eq
  cases h

theorem plain_of_isAbsolute {p : Path} (h : p.isAbsolute = true) : Plain p := by
  have hSteps : p.steps = .root :: p.names := by
    rw [steps_eq, h]
    rfl
  have hHere : p.equivalent here = false := by
    rw [← Bool.not_eq_true]
    intro he
    have hComponents : p.components = [.current] := beq_iff_eq.mp he
    rcases components_eq p with hp | hp <;> rw [hp, hSteps] at hComponents <;> cases hComponents
  have hDotted := not_dotted_of_isAbsolute h
  exact Or.inr (Or.inr ⟨hHere, by rwa [dropDotSlash_of_not_dotted hDotted]⟩)

section

variable {p : Path} {way : List Bytes}

theorem dropDotSlash_below (hNames : ∀ n ∈ way, IsName n) (hNe : way ≠ []) :
    dropDotSlash (p.below way) =
      if p = here then joinParts way else (dropDotSlash p).opened ++ joinParts way := by
  rw [below_eq hNames hNe, dropDotSlash_opened (follows_joinParts hNames)]

/-- Below a plain path there are plain paths only. -/
theorem Plain.below (h : Plain p) (hNames : ∀ n ∈ way, IsName n) : Plain (p.below way) := by
  by_cases hNe : way = []
  · rwa [hNe]
  refine Or.inr (Or.inr ⟨?_, ?_⟩)
  · rw [← Bool.not_eq_true]
    intro hHere
    have hNil := names_of_equivalent_here hHere
    rw [names_below hNames] at hNil
    exact hNe (List.map_eq_nil_iff.mp (List.append_eq_nil_iff.mp hNil).2)
  · have hFollows := follows_joinParts hNames
    rw [dropDotSlash_below hNames hNe]
    split_ifs with hp
    · exact hFollows.not_dotted
    · obtain ⟨hDotted, hHere⟩ := h.base hp
      refine fun hAll => (dotted_opened_append hFollows hAll).elim (fun he => ?_) hDotted
      rw [he] at hHere
      cases hHere

end

end Path

namespace RuleSet

open FuncSpans.Path

variable {p : Path} {way : List Bytes}

/-- The relative path of an entry below a plain path has the names on the way. -/
theorem relativeTo_below (h : Plain p) (hNames : ∀ n ∈ way, IsName n) (hNe : way ≠ []) :
    relativeTo (dropDotSlash p) (dropDotSlash (p.below way)) = joinParts way := by
  have hFollows := follows_joinParts hNames
  rw [dropDotSlash_below hNames hNe]
  split_ifs with hp
  · have hHere : dropDotSlash here = here := rfl
    rw [hp, hHere, relativeTo_of_here rfl, dropDotSlash_of_not_dotted hFollows.not_dotted]
  · obtain ⟨hDotted, hHere⟩ := h.base hp
    exact relativeTo_opened hFollows hDotted hHere

end RuleSet

namespace Path

open RuleSet

/-! ## Paths below others -/

/-- A path leads to where another one does, or further down. -/
def Under (p q : Path) : Prop := p.steps <+: q.steps

instance (p q : Path) : Decidable (Under p q) := inferInstanceAs (Decidable (_ <+: _))

theorem under_below_iff {p : Path} {way way' : List Bytes} (h : ∀ n ∈ way, IsName n)
    (h' : ∀ n ∈ way', IsName n) : Under (p.below way) (p.below way').clean ↔ way <+: way' := by
  have hInj : Function.Injective Component.normal := fun a b hab => by cases hab; rfl
  rw [Under, steps_clean, steps_eq, steps_eq, names_below h, names_below h', isAbsolute_below h,
    isAbsolute_below h', List.prefix_append_right_inj, List.prefix_append_right_inj,
    List.prefix_map_iff_of_injective hInj]

/-- From a directory on, the names on a way lead down that way. -/
theorem join_joinParts {p : Path} {way : List Bytes} (hNames : ∀ n ∈ way, IsName n)
    (hNe : way ≠ []) : p.join (joinParts way) = p.below way := by
  have hRelative : (joinParts way).isAbsolute = false := by
    simpa [isAbsolute] using (follows_joinParts hNames).head
  rw [join, hRelative, if_neg Bool.false_ne_true, child_eq, below_eq hNames hNe]

/-- A path of nothing but `.` parts. -/
theorem here_or_dotted {p : Path} (hNe : p ≠ []) (hRelative : p.isAbsolute = false)
    (hNames : p.names = []) : p = here ∨ Dotted p := by
  obtain ⟨b, bs, rfl⟩ := List.exists_cons_of_ne_nil hNe
  have hb : b ≠ slash := by
    rintro rfl
    cases hRelative
  obtain ⟨part, parts, hs, he⟩ := split_cons hb bs
  have hPart : Component.ofPart? (b :: part) = none :=
    List.filterMap_eq_nil_iff.mp hNames _ (he ▸ List.mem_cons_self)
  have hStop : b :: part = [stop] := by
    by_contra hStop
    rw [Component.ofPart?, if_neg (by simp [hStop])] at hPart
    split_ifs at hPart
  obtain ⟨rfl, rfl⟩ := List.cons.inj hStop
  cases bs with
  | nil => exact Or.inl rfl
  | cons c bs =>
    by_cases hc : c = slash
    · exact Or.inr (hc ▸ dotted_cons bs)
    · obtain ⟨part, parts', -, he'⟩ := split_cons hc bs
      cases hs.symm.trans he'

/-- Below a directory that is written as the current one paths begin with a `./`. -/
theorem dotted_below {p : Path} (hNe : p ≠ []) (hRelative : p.isAbsolute = false)
    (hNames : p.names = []) {way : List Bytes} (hWay : ∀ n ∈ way, IsName n) (hWayNe : way ≠ []) :
    Dotted (p.below way) := by
  rw [below_eq hWay hWayNe]
  rcases here_or_dotted hNe hRelative hNames with rfl | hDotted
  · exact dotted_cons (joinParts way)
  · obtain ⟨rest, rfl⟩ := hDotted.eq
    rw [opened_dotted]
    exact dotted_cons (opened rest ++ joinParts way)

end Path

end FuncSpans
