import FuncSpans.Path.Basic
import Mathlib.Data.List.Basic

/-!
# The steps of a path

`clean` writes a path in the one form of all paths with the same steps: `steps_clean` says that
nothing of the path is lost, and `clean_clean` that a second cleaning changes nothing. What is
asked of a path by its name alone is the same for the clean path (`fileName?_clean`).

`steps_child` adds a name of a directory entry to a path: the steps of the directory, then the
name. `below` goes down a whole way of names, and `clean_below_injective` says that different
ways lead to different clean paths.
-/

namespace FuncSpans.Path

/-! ## Parts -/

theorem split_ne_nil (p : Path) : p.split ≠ [] := by
  unfold split
  split
  · simp
  · split
    · simp
    · split <;> simp

theorem split_slash (p : Path) : split (slash :: p) = [] :: p.split := by
  rw [split, if_pos rfl]

theorem split_cons {b : UInt8} (hb : b ≠ slash) (bs : Path) :
    ∃ part parts, bs.split = part :: parts ∧ split (b :: bs) = (b :: part) :: parts := by
  cases h : bs.split with
  | nil => exact (split_ne_nil bs h).elim
  | cons part parts => exact ⟨part, parts, rfl, by rw [split, if_neg hb, h]⟩

theorem slash_notMem_of_mem_split {p : Path} : ∀ part ∈ p.split, slash ∉ part := by
  induction p with
  | nil => simp [split]
  | cons b bs ih =>
    intro q hq
    by_cases hb : b = slash
    · subst hb
      rw [split_slash] at hq
      rcases List.mem_cons.mp hq with rfl | hq
      · simp
      · exact ih q hq
    · obtain ⟨part, parts, hs, he⟩ := split_cons hb bs
      rw [he] at hq
      rw [hs] at ih
      rcases List.mem_cons.mp hq with rfl | hq
      · simp only [List.mem_cons, not_or]
        exact ⟨fun h => hb h.symm, ih part List.mem_cons_self⟩
      · exact ih q (List.mem_cons_of_mem _ hq)

theorem mem_of_mem_split {p : Path} {x : UInt8} : ∀ part ∈ p.split, x ∈ part → x ∈ p := by
  induction p with
  | nil => simp [split]
  | cons b bs ih =>
    intro q hq hx
    by_cases hb : b = slash
    · subst hb
      rw [split_slash] at hq
      rcases List.mem_cons.mp hq with rfl | hq
      · cases hx
      · exact List.mem_cons_of_mem _ (ih q hq hx)
    · obtain ⟨part, parts, hs, he⟩ := split_cons hb bs
      rw [he] at hq
      rw [hs] at ih
      rcases List.mem_cons.mp hq with rfl | hq
      · rcases List.mem_cons.mp hx with rfl | hx
        · exact List.mem_cons_self
        · exact List.mem_cons_of_mem _ (ih part List.mem_cons_self hx)
      · exact List.mem_cons_of_mem _ (ih q (List.mem_cons_of_mem _ hq) hx)

theorem split_append_slash (p q : Path) :
    split (p ++ slash :: q) = p.split ++ q.split := by
  induction p with
  | nil => simp [split_slash, split]
  | cons b bs ih =>
    by_cases hb : b = slash
    · subst hb
      simp [split_slash, ih]
    · obtain ⟨part, parts, hs, he⟩ := split_cons hb bs
      obtain ⟨part', parts', hs', he'⟩ := split_cons hb (bs ++ slash :: q)
      rw [ih, hs, List.cons_append] at hs'
      obtain ⟨rfl, rfl⟩ := List.cons.inj hs'
      rw [List.cons_append, he', he, List.cons_append]

theorem split_eq_singleton {p : Path} (h : slash ∉ p) : p.split = [p] := by
  induction p with
  | nil => rfl
  | cons b bs ih =>
    simp only [List.mem_cons, not_or] at h
    obtain ⟨part, parts, hs, he⟩ := split_cons (fun hb => h.1 hb.symm) bs
    rw [ih h.2] at hs
    obtain ⟨rfl, rfl⟩ := List.cons.inj hs
    exact he

theorem split_joinParts {parts : List Bytes} (hNe : parts ≠ [])
    (h : ∀ part ∈ parts, slash ∉ part) : (joinParts parts).split = parts := by
  induction parts with
  | nil => exact (hNe rfl).elim
  | cons part rest ih =>
    have hPart := split_eq_singleton (h part List.mem_cons_self)
    cases rest with
    | nil => exact hPart
    | cons next rest =>
      have hRest := ih (by simp) (fun q hq => h q (List.mem_cons_of_mem _ hq))
      rw [joinParts, split_append_slash, hPart, hRest, List.singleton_append]
      simp

theorem mem_joinParts {parts : List Bytes} {x : UInt8} (h : x ∈ joinParts parts) :
    x = slash ∨ ∃ part ∈ parts, x ∈ part := by
  induction parts with
  | nil => cases h
  | cons part rest ih =>
    cases rest with
    | nil => exact Or.inr ⟨part, List.mem_cons_self, h⟩
    | cons next rest =>
      rw [joinParts, List.mem_append, List.mem_cons] at h
      · rcases h with h | rfl | h
        · exact Or.inr ⟨part, List.mem_cons_self, h⟩
        · exact Or.inl rfl
        · rcases ih h with rfl | ⟨q, hq, hx⟩
          · exact Or.inl rfl
          · exact Or.inr ⟨q, List.mem_cons_of_mem _ hq, hx⟩
      · simp

/-! ## Steps -/

namespace Component

theorem text_of_ofPart? {part : Bytes} {c : Component} (h : ofPart? part = some c) :
    c.text = part := by
  unfold ofPart? at h
  split at h
  · cases h
  · split at h
    · rename_i hp
      cases h
      exact hp.symm
    · cases h
      rfl

theorem ne_root_of_ofPart? {part : Bytes} {c : Component} (h : ofPart? part = some c) :
    c ≠ .root := by
  unfold ofPart? at h
  split at h
  · cases h
  · split at h <;> cases h <;> simp

theorem ne_nil_of_ofPart? {part : Bytes} {c : Component} (h : ofPart? part = some c) :
    part ≠ [] := by
  rintro rfl
  simp [ofPart?] at h

end Component

/-- The steps of a path after its root. -/
def names (p : Path) : List Component := p.split.filterMap Component.ofPart?

theorem steps_eq (p : Path) : p.steps = (if p.isAbsolute then [.root] else []) ++ p.names := rfl

theorem exists_part_of_mem_names {p : Path} {c : Component} (h : c ∈ p.names) :
    ∃ part ∈ p.split, Component.ofPart? part = some c := List.mem_filterMap.mp h

/-- The text of a step is the part that it was read from. -/
theorem ofPart?_text {p : Path} {c : Component} (h : c ∈ p.names) :
    Component.ofPart? c.text = some c := by
  obtain ⟨part, _, hc⟩ := exists_part_of_mem_names h
  rw [Component.text_of_ofPart? hc, hc]

theorem slash_notMem_text {p : Path} {c : Component} (h : c ∈ p.names) : slash ∉ c.text := by
  obtain ⟨part, hPart, hc⟩ := exists_part_of_mem_names h
  rw [Component.text_of_ofPart? hc]
  exact slash_notMem_of_mem_split part hPart

theorem filterMap_map_text (p : Path) :
    (p.names.map Component.text).filterMap Component.ofPart? = p.names := by
  rw [List.filterMap_map]
  refine (List.filterMap_congr fun c hc => ?_).trans List.filterMap_some
  exact ofPart?_text hc

/-- The texts of the steps after the root with slashes between them. -/
def body (p : Path) : Path := joinParts (p.names.map Component.text)

theorem names_body (p : Path) : p.body.names = p.names := by
  unfold body
  cases hn : p.names with
  | nil => rfl
  | cons c cs =>
    rw [names, split_joinParts (by simp), ← hn, filterMap_map_text]
    intro part hPart
    rw [← hn] at hPart
    obtain ⟨d, hd, rfl⟩ := List.mem_map.mp hPart
    exact slash_notMem_text hd

theorem body_isAbsolute (p : Path) : p.body.isAbsolute = false := by
  unfold body isAbsolute
  cases hn : p.names with
  | nil => rfl
  | cons c cs =>
    have hc : c ∈ p.names := hn ▸ List.mem_cons_self
    have hSlash := slash_notMem_text hc
    have hNe : c.text ≠ [] := Component.ne_nil_of_ofPart? (ofPart?_text hc)
    obtain ⟨b, bs, hb⟩ := List.exists_cons_of_ne_nil hNe
    have hHead : (joinParts ((c :: cs).map Component.text)).head? = some b := by
      cases cs <;> simp [joinParts, hb]
    rw [hHead]
    have : b ≠ slash := fun h => hSlash (by rw [hb, h]; exact List.mem_cons_self)
    simpa using this

theorem clean_of_isAbsolute {p : Path} (h : p.isAbsolute = true) : p.clean = slash :: p.body := by
  simp [clean, steps_eq, h, ofComponents, body]

theorem clean_of_not_isAbsolute {p : Path} (h : p.isAbsolute = false) :
    p.clean = if p.names = [] then [stop] else p.body := by
  cases hn : p.names with
  | nil => simp [clean, steps_eq, h, hn]
  | cons c cs =>
    have hc : c ≠ .root := by
      obtain ⟨part, _, hp⟩ := exists_part_of_mem_names (hn ▸ List.mem_cons_self : c ∈ p.names)
      exact Component.ne_root_of_ofPart? hp
    cases c <;> simp_all [clean, steps_eq, ofComponents, body]

theorem isAbsolute_clean (p : Path) : p.clean.isAbsolute = p.isAbsolute := by
  cases h : p.isAbsolute with
  | true => rw [clean_of_isAbsolute h]; rfl
  | false =>
    rw [clean_of_not_isAbsolute h]
    split
    · rfl
    · exact body_isAbsolute p

theorem names_clean (p : Path) : p.clean.names = p.names := by
  cases h : p.isAbsolute with
  | true =>
    rw [clean_of_isAbsolute h, names, split_slash]
    exact names_body p
  | false =>
    rw [clean_of_not_isAbsolute h]
    split
    · rename_i hn
      rw [hn]
      rfl
    · exact names_body p

/-- Cleaning a path keeps its steps. -/
theorem steps_clean (p : Path) : p.clean.steps = p.steps := by
  rw [steps_eq, steps_eq, isAbsolute_clean, names_clean]

theorem clean_eq_iff {p q : Path} : p.clean = q.clean ↔ p.steps = q.steps := by
  constructor
  · intro h
    rw [← steps_clean p, ← steps_clean q, h]
  · intro h
    unfold clean
    rw [h]

/-- A clean path is clean. -/
theorem clean_clean (p : Path) : p.clean.clean = p.clean := clean_eq_iff.mpr (steps_clean p)

theorem clean_ne_nil (p : Path) : p.clean ≠ [] := by
  cases h : p.isAbsolute with
  | true => simp [clean_of_isAbsolute h]
  | false =>
    rw [clean_of_not_isAbsolute h]
    split
    · simp
    · rename_i hn
      intro hb
      apply hn
      rw [← names_body, hb]
      rfl

theorem mem_of_mem_clean {p : Path} {x : UInt8} (h : x ∈ p.clean) :
    x = slash ∨ x = stop ∨ x ∈ p := by
  have hBody : x ∈ p.body → x = slash ∨ x = stop ∨ x ∈ p := by
    intro hx
    rcases mem_joinParts hx with rfl | ⟨part, hPart, hx⟩
    · exact Or.inl rfl
    · obtain ⟨c, hc, rfl⟩ := List.mem_map.mp hPart
      obtain ⟨part, hPart, hp⟩ := exists_part_of_mem_names hc
      rw [Component.text_of_ofPart? hp] at hx
      exact Or.inr (Or.inr (mem_of_mem_split part hPart hx))
  cases ha : p.isAbsolute with
  | true =>
    rw [clean_of_isAbsolute ha] at h
    rcases List.mem_cons.mp h with rfl | h
    · exact Or.inl rfl
    · exact hBody h
  | false =>
    rw [clean_of_not_isAbsolute ha] at h
    split at h
    · exact Or.inr (Or.inl (List.mem_singleton.mp h))
    · exact hBody h

/-! ## Names of files -/

theorem components_eq (p : Path) :
    p.components = p.steps ∨ p.components = .current :: p.steps := by
  unfold components
  split
  · split
    · exact Or.inr rfl
    · exact Or.inl rfl
  · exact Or.inl rfl

/-- The name of a file is its last step. -/
theorem fileName?_eq_some {p : Path} {name : Bytes} :
    p.fileName? = some name ↔ p.steps.getLast? = some (.normal name) := by
  have hLast : p.components.getLast? = some (.normal name) ↔
      p.steps.getLast? = some (.normal name) := by
    rcases components_eq p with h | h
    · rw [h]
    · rw [h]
      cases p.steps with
      | nil => simp
      | cons c cs => rw [List.getLast?_cons_cons]
  rw [← hLast]
  unfold fileName?
  split
  · rename_i h
    simp [h]
  · rename_i h
    simp only [reduceCtorEq, false_iff]
    exact h name

theorem fileName?_clean (p : Path) : p.clean.fileName? = p.fileName? := by
  apply Option.ext
  intro name
  simp only [fileName?_eq_some, steps_clean]

theorem isGoSource_clean (p : Path) : p.clean.isGoSource = p.isGoSource := by
  unfold isGoSource
  rw [fileName?_clean]

theorem names_ne_nil_of_isGoSource {p : Path} (hGo : p.isGoSource = true) : p.names ≠ [] := by
  intro hNames
  rw [isGoSource] at hGo
  split at hGo
  · rename_i name hName
    rw [fileName?_eq_some, steps_eq, hNames] at hName
    split_ifs at hName <;> cases hName
  · cases hGo

/-! ## Going down -/

/-- What the name of an entry of a directory is like. -/
structure IsName (name : Bytes) : Prop where
  ne_nil : name ≠ []
  slash_notMem : slash ∉ name
  nul_notMem : 0 ∉ name
  ne_stop : name ≠ [stop]
  ne_parent : name ≠ [stop, stop]

instance (name : Bytes) : Decidable (IsName name) :=
  decidable_of_iff (name ≠ [] ∧ slash ∉ name ∧ 0 ∉ name ∧ name ≠ [stop] ∧ name ≠ [stop, stop])
    ⟨fun ⟨h1, h2, h3, h4, h5⟩ => ⟨h1, h2, h3, h4, h5⟩,
      fun ⟨h1, h2, h3, h4, h5⟩ => ⟨h1, h2, h3, h4, h5⟩⟩

theorem IsName.ofPart? {name : Bytes} (h : IsName name) :
    Component.ofPart? name = some (.normal name) := by
  simp [Component.ofPart?, h.ne_nil, h.ne_stop, h.ne_parent]

theorem split_child {p : Path} {name : Bytes} (h : IsName name) :
    ∃ parts, p.split.filter (· ≠ []) = parts.filter (· ≠ []) ∧
      (p.child name).split = parts ++ [name] := by
  have hName := split_eq_singleton h.slash_notMem
  unfold child
  split
  · exact ⟨[], by simp [split], hName⟩
  · split
    · rename_i hLast
      obtain ⟨q, rfl⟩ := List.getLast?_eq_some_iff.mp hLast
      refine ⟨split q, ?_, ?_⟩
      · rw [split_append_slash]
        simp [split]
      · rw [List.append_assoc, List.singleton_append, split_append_slash, hName]
    · exact ⟨p.split, rfl, by rw [split_append_slash, hName]⟩

theorem names_child {p : Path} {name : Bytes} (h : IsName name) :
    (p.child name).names = p.names ++ [.normal name] := by
  obtain ⟨parts, hParts, hs⟩ := split_child (p := p) h
  have hFilter : ∀ l : List Bytes,
      l.filterMap Component.ofPart? = (l.filter (· ≠ [])).filterMap Component.ofPart? := by
    intro l
    rw [List.filterMap_filter]
    apply List.filterMap_congr
    intro part _
    by_cases hp : part = [] <;> simp [hp, Component.ofPart?]
  rw [names, hs, List.filterMap_append, hFilter parts, ← hParts, ← hFilter]
  simp [names, h.ofPart?]

theorem isAbsolute_child {p : Path} {name : Bytes} (h : IsName name) :
    (p.child name).isAbsolute = p.isAbsolute := by
  unfold child isAbsolute
  split
  · obtain ⟨b, bs, rfl⟩ := List.exists_cons_of_ne_nil h.ne_nil
    have : b ≠ slash := fun hb => h.slash_notMem (hb ▸ List.mem_cons_self)
    simpa using this
  · rename_i hNe
    obtain ⟨b, bs, rfl⟩ := List.exists_cons_of_ne_nil hNe
    split <;> rfl

theorem mem_child {p : Path} {name : Bytes} {x : UInt8} (hx : x ∈ p.child name) :
    x = slash ∨ x ∈ p ∨ x ∈ name := by
  unfold child at hx
  split at hx
  · exact Or.inr (Or.inr hx)
  · split at hx
    · rcases List.mem_append.mp hx with h | h
      · exact Or.inr (Or.inl h)
      · exact Or.inr (Or.inr h)
    · rcases List.mem_append.mp hx with h | h
      · exact Or.inr (Or.inl h)
      · rcases List.mem_cons.mp h with h | h
        · exact Or.inl h
        · exact Or.inr (Or.inr h)

/-- The path that a way of names leads to. -/
def below (p : Path) (way : List Bytes) : Path := way.foldl child p

theorem names_below {p : Path} {way : List Bytes} (h : ∀ name ∈ way, IsName name) :
    (p.below way).names = p.names ++ way.map .normal := by
  induction way generalizing p with
  | nil => simp [below]
  | cons name way ih =>
    have hName := h name List.mem_cons_self
    have hWay := ih (p := p.child name) fun n hn => h n (List.mem_cons_of_mem _ hn)
    rw [below, List.foldl_cons, ← below, hWay, names_child hName]
    simp

theorem isAbsolute_below {p : Path} {way : List Bytes} (h : ∀ name ∈ way, IsName name) :
    (p.below way).isAbsolute = p.isAbsolute := by
  induction way generalizing p with
  | nil => rfl
  | cons name way ih =>
    have hWay := ih (p := p.child name) fun n hn => h n (List.mem_cons_of_mem _ hn)
    rw [below, List.foldl_cons, ← below, hWay, isAbsolute_child (h name List.mem_cons_self)]

theorem fileName?_below {p : Path} {way : List Bytes} {name : Bytes}
    (h : ∀ n ∈ way ++ [name], IsName n) : (p.below (way ++ [name])).fileName? = some name := by
  rw [fileName?_eq_some, steps_eq, names_below h]
  simp

theorem fileName?_child {p : Path} {name : Bytes} (h : IsName name) :
    (p.child name).fileName? = some name :=
  @fileName?_below p [] name fun _ hn => List.mem_singleton.mp hn ▸ h

theorem nul_notMem_below {p : Path} {way : List Bytes} (h : ∀ name ∈ way, IsName name)
    (hp : 0 ∉ p) : 0 ∉ p.below way := by
  induction way generalizing p with
  | nil => exact hp
  | cons name way ih =>
    apply ih (fun n hn => h n (List.mem_cons_of_mem _ hn))
    intro hx
    rcases mem_child hx with hx | hx | hx
    · exact absurd hx (by decide)
    · exact hp hx
    · exact (h name List.mem_cons_self).nul_notMem hx

/-- Different ways lead to different clean paths. -/
theorem clean_below_injective {p : Path} {way way' : List Bytes}
    (h : ∀ name ∈ way, IsName name) (h' : ∀ name ∈ way', IsName name)
    (he : (p.below way).clean = (p.below way').clean) : way = way' := by
  have hn : (p.below way).names = (p.below way').names := by
    rw [← names_clean (p.below way), ← names_clean (p.below way'), he]
  rw [names_below h, names_below h'] at hn
  have hInj : Function.Injective Component.normal := fun a b hAb => by cases hAb; rfl
  exact hInj.list_map (List.append_cancel_left hn)

end FuncSpans.Path
