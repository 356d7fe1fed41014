import FuncSpans.Proofs.Files.Spelling

/-!
# The directories of a tree

A way of names leads through directories to the entries of one (`Entries.Opens`), or from one place
to another (`FileSystem.Leads`). The place that a path leads to is reached from the top in this way
(`reached_of_find`), so its absolute path leads to it as well, through no link at all
(`find_textOf`).

What is in a directory is found by any path to the directory (`find_child_eq`). Only the limits of
an operating system are in the way: on the length of a path and on the number of links, of which one
path may have followed more than the other.
-/

namespace FuncSpans

open FuncSpans.Path (slash stop IsName joinParts)

/-! ## Ways through entries -/

namespace Entries

/-- A way of names leads through directories to the entries of a directory. -/
inductive Opens : Entries → List Bytes → Entries → Prop
  | nil {es : Entries} : Opens es [] es
  | cons {es inner last : Entries} {name : Bytes} {way : List Bytes} :
      (name, .directory inner) ∈ es → Opens inner way last → Opens es (name :: way) last

variable {es last : Entries} {front rest way : List Bytes}

theorem holds_append {node : Node} (hRest : rest ≠ []) :
    es.Holds (front ++ rest) node ↔ ∃ inner, es.Opens front inner ∧ inner.Holds rest node := by
  induction front generalizing es with
  | nil => exact ⟨fun h => ⟨es, .nil, h⟩, fun ⟨_, hNil, h⟩ => by cases hNil; exact h⟩
  | cons name front ih =>
    constructor
    · intro h
      cases hWay : front ++ rest with
      | nil => exact (hRest (List.append_eq_nil_iff.mp hWay).2).elim
      | cons next way =>
        rw [List.cons_append, hWay] at h
        cases h with
        | inside hMem h =>
          obtain ⟨inner, hOpens, hHolds⟩ := ih.mp (hWay ▸ h)
          exact ⟨inner, .cons hMem hOpens, hHolds⟩
    · rintro ⟨inner, hOpens, hHolds⟩
      cases hOpens with
      | cons hMem hOpens => exact .inside hMem (ih.mpr ⟨inner, hOpens, hHolds⟩)

theorem opens_append :
    es.Opens (front ++ rest) last ↔ ∃ inner, es.Opens front inner ∧ inner.Opens rest last := by
  induction front generalizing es with
  | nil => exact ⟨fun h => ⟨es, .nil, h⟩, fun ⟨_, hNil, h⟩ => by cases hNil; exact h⟩
  | cons name front ih =>
    constructor
    · intro h
      cases h with
      | cons hMem h =>
        obtain ⟨inner, hOpens, hRest⟩ := ih.mp h
        exact ⟨inner, .cons hMem hOpens, hRest⟩
    · rintro ⟨inner, hOpens, hRest⟩
      cases hOpens with
      | cons hMem hOpens => exact .cons hMem (ih.mpr ⟨inner, hOpens, hRest⟩)

theorem Opens.wellFormed (h : es.Opens way last) (hes : es.WellFormed) : last.WellFormed := by
  induction h with
  | nil => exact hes
  | cons hMem _ ih => exact ih (hes.node hMem)

theorem Opens.isName (h : es.Opens way last) (hes : es.WellFormed) :
    ∀ name ∈ way, IsName name := by
  induction h with
  | nil => exact fun _ h => by cases h
  | cons hMem _ ih =>
    intro name hName
    rcases List.mem_cons.mp hName with rfl | hName
    · exact hes.isName hMem
    · exact ih (hes.node hMem) name hName

theorem Opens.unique {last' : Entries} (h : es.Opens way last) (h' : es.Opens way last')
    (hes : es.WellFormed) : last = last' := by
  induction h with
  | nil => cases h'; rfl
  | cons hMem _ ih =>
    cases h' with
    | cons hMem' h' =>
      obtain rfl : _ = _ := Node.directory.inj (Option.some.inj
        ((hes.lookup hMem).symm.trans (hes.lookup hMem')))
      exact ih h' (hes.node hMem)

theorem Opens.not_holds_file {content : Bytes} (h : es.Opens way last) (hes : es.WellFormed) :
    ¬ es.Holds way (.file content) := by
  induction h with
  | nil => exact fun hFile => hFile.ne_nil rfl
  | cons hMem _ ih =>
    intro hFile
    cases hFile with
    | entry hMem' => cases (hes.lookup hMem).symm.trans (hes.lookup hMem')
    | inside hMem' hFile =>
      cases (hes.lookup hMem).symm.trans (hes.lookup hMem')
      exact ih (hes.node hMem) hFile

end Entries

namespace FileSystem

/-! ## Ways from place to place -/

/-- A way of names, none of them too long, leads from a place through directories to a place. -/
inductive Leads (fs : FileSystem) (start : Location) : List Bytes → Location → Prop
  | nil : Leads fs start [] start
  | concat {way : List Bytes} {loc : Location} {name : Bytes} {es : Entries} :
      Leads fs start way loc → IsName name → name.length ≤ longestName →
      (fs.entriesAt loc).lookup name = some (.directory es) →
      Leads fs start (way ++ [name]) ((name, es) :: loc)

section

variable {fs : FileSystem} {start loc : Location} {way : List Bytes}

theorem Leads.isName (h : Leads fs start way loc) : ∀ name ∈ way, IsName name := by
  induction h with
  | nil => exact fun _ h => by cases h
  | concat _ hName _ _ ih =>
    intro n hn
    rcases List.mem_append.mp hn with hn | hn
    · exact ih n hn
    · exact List.mem_singleton.mp hn ▸ hName

/-- A way leads through the places on it. -/
theorem Leads.exists_middle {front rest : List Bytes} (h : Leads fs start (front ++ rest) loc) :
    ∃ mid, Leads fs start front mid := by
  generalize hWay : front ++ rest = way at h
  induction h generalizing rest with
  | nil => exact ⟨start, (List.append_eq_nil_iff.mp hWay).1 ▸ .nil⟩
  | @concat way loc name es hLeads hName hLength hLookup ih =>
    rcases rest.eq_nil_or_concat' with rfl | ⟨rest, last, rfl⟩
    · rw [List.append_nil] at hWay
      exact ⟨_, hWay ▸ hLeads.concat hName hLength hLookup⟩
    · rw [← List.append_assoc] at hWay
      exact ih (List.append_inj' hWay rfl).1

/-- Names that lead from place to place are followed so, through no link. -/
theorem Leads.follow_eq (h : Leads fs start way loc)
    (next : List Bytes → Location → Except Fault Target) (rest : List Bytes) :
    follow fs next (way ++ rest) start = follow fs next rest loc := by
  induction h generalizing rest with
  | nil => rfl
  | concat _ hName hLength hLookup ih =>
    rw [List.append_assoc, ih, List.singleton_append, follow_cons, if_neg hName.ne_stop,
      if_neg hName.ne_parent, if_neg (Nat.not_lt.mpr hLength), hLookup]

theorem Leads.entriesAt (h : Leads fs start way loc) (hStart : (fs.entriesAt start).WellFormed) :
    (fs.entriesAt loc).WellFormed := by
  induction h with
  | nil => exact hStart
  | concat _ _ _ hLookup ih => exact ih.node (Entries.mem_of_lookup hLookup)

/-- Directories on a way are places, unless a name on it is too long to be followed. -/
theorem leads_of_opens {es inner : Entries} (h : es.Opens way inner)
    (hStart : es = fs.entriesAt start) (hes : es.WellFormed) :
    (∃ loc, Leads fs start way loc ∧ fs.entriesAt loc = inner) ∨
      ∀ next rest, follow fs next (way ++ rest) start = .error .nameTooLong := by
  induction way using List.reverseRecOn generalizing inner with
  | nil =>
    cases h
    exact Or.inl ⟨start, .nil, hStart.symm⟩
  | append_singleton way name ih =>
    obtain ⟨outer, hOuter, hLast⟩ := Entries.opens_append.mp h
    have hMem : (name, .directory inner) ∈ outer := by
      cases hLast with
      | cons hMem hNil =>
        cases hNil
        exact hMem
    have hOuterFormed := hOuter.wellFormed hes
    have hName := hOuterFormed.isName hMem
    rcases ih hOuter with ⟨loc, hLeads, rfl⟩ | hLong
    · by_cases hLength : name.length ≤ longestName
      · exact Or.inl ⟨_, hLeads.concat hName hLength (hOuterFormed.lookup hMem), rfl⟩
      · refine Or.inr fun next rest => ?_
        rw [List.append_assoc, hLeads.follow_eq, List.singleton_append, follow_cons,
          if_neg hName.ne_stop, if_neg hName.ne_parent, if_pos (Nat.lt_of_not_le hLength)]
    · exact Or.inr fun next rest => by rw [List.append_assoc]; exact hLong next _

/-! ## Places that are reached from the top -/

/-- A place is reached from the top. -/
def Reached (fs : FileSystem) (loc : Location) : Prop := ∃ way, Leads fs [] way loc

theorem Reached.entriesAt (h : Reached fs loc) (hFs : fs.WellFormed) :
    (fs.entriesAt loc).WellFormed :=
  h.elim fun _ hLeads => hLeads.entriesAt hFs

theorem Reached.tail (h : Reached fs loc) : Reached fs loc.tail := by
  obtain ⟨way, hLeads⟩ := h
  cases hLeads with
  | nil => exact ⟨[], .nil⟩
  | concat hLeads => exact ⟨_, hLeads⟩

theorem Leads.append {way' : List Bytes} {loc' : Location} (h : Leads fs start way loc)
    (h' : Leads fs loc way' loc') : Leads fs start (way ++ way') loc' := by
  induction h' with
  | nil => rwa [List.append_nil]
  | concat _ hName hLength hLookup ih =>
    rw [← List.append_assoc]
    exact ih.concat hName hLength hLookup

theorem Reached.trans (h : Reached fs start) (hLeads : Leads fs start way loc) : Reached fs loc :=
  h.elim fun _ hStart => ⟨_, hStart.append hLeads⟩

theorem Leads.reverse_map (h : Leads fs [] way loc) : loc.reverse.map (·.1) = way := by
  induction h with
  | nil => rfl
  | concat _ _ _ _ ih => rw [List.reverse_cons, List.map_append, ih]; rfl

theorem Leads.textOf_eq_below (h : Leads fs [] way loc) : textOf loc = Path.below [slash] way := by
  rw [textOf, h.reverse_map]
  by_cases hNe : way = []
  · rw [hNe]
    rfl
  · rw [Path.below_eq h.isName hNe]
    rfl

/-- The absolute path of a place that another one leads to has the names on the way. -/
theorem Leads.textOf_eq (hStart : Reached fs start) (h : Leads fs start way loc) :
    textOf loc = (textOf start).below way := by
  obtain ⟨front, hFront⟩ := hStart
  rw [(hFront.append h).textOf_eq_below, hFront.textOf_eq_below, Path.below_append]

/-- From places that are reached only such places are reached. -/
def KeepsReached (fs : FileSystem) (next : List Bytes → Location → Except Fault Target) : Prop :=
  ∀ parts loc loc', Reached fs loc → next parts loc = .ok (.directory loc') → Reached fs loc'

theorem KeepsReached.follow (hFs : fs.WellFormed)
    {next : List Bytes → Location → Except Fault Target} (hNext : KeepsReached fs next) :
    KeepsReached fs (follow fs next) := by
  intro parts
  induction parts with
  | nil =>
    intro loc loc' hLoc h
    cases h
    exact hLoc
  | cons part parts ih =>
    intro loc loc' hLoc h
    cases firstStep_of_follow h with
    | stay _ h => exact ih loc loc' hLoc h
    | up _ h => exact ih loc.tail loc' hLoc.tail h
    | enter hLength hLookup h =>
      have hName := (hLoc.entriesAt hFs).isName (Entries.mem_of_lookup hLookup)
      refine ih _ loc' ?_ h
      exact hLoc.elim fun _ hLeads => ⟨_, hLeads.concat hName hLength hLookup⟩
    | link _ h =>
      refine hNext _ _ loc' ?_ h
      split
      · exact ⟨[], .nil⟩
      · exact hLoc
    | file _ _ h => cases h
    | missing _ _ h => cases h

theorem keepsReached_followLinks (hFs : fs.WellFormed) (n : Nat) :
    KeepsReached fs (followLinks fs n) := by
  induction n with
  | zero => exact KeepsReached.follow hFs fun _ _ _ _ h => by cases h
  | succ n ih => exact ih.follow hFs

/-- Every directory that a path leads to is reached from the top. -/
theorem reached_of_find (hFs : fs.WellFormed) {p : Path} (h : fs.find p = .ok (.directory loc)) :
    Reached fs loc :=
  keepsReached_followLinks hFs _ _ _ _ ⟨[], .nil⟩ (find_directory h).2.2

end

/-! ## More links -/

/-- What comes of a way does not depend on how many links more could have been followed. -/
def Extends (next next' : List Bytes → Location → Except Fault Target) : Prop :=
  ∀ parts loc, next parts loc ≠ .error .tooManyLinks → next' parts loc = next parts loc

theorem Extends.follow {fs : FileSystem}
    {next next' : List Bytes → Location → Except Fault Target} (h : Extends next next') :
    Extends (follow fs next) (follow fs next') := by
  intro parts
  induction parts with
  | nil => exact fun _ _ => rfl
  | cons part parts ih =>
    intro loc hLimit
    simp only [follow_cons] at hLimit ⊢
    by_cases hStop : part = [stop]
    · simp only [if_pos hStop] at hLimit ⊢
      exact ih loc hLimit
    simp only [if_neg hStop] at hLimit ⊢
    by_cases hParent : part = [stop, stop]
    · simp only [if_pos hParent] at hLimit ⊢
      exact ih loc.tail hLimit
    simp only [if_neg hParent] at hLimit ⊢
    by_cases hLength : longestName < part.length
    · simp only [if_pos hLength]
    simp only [if_neg hLength] at hLimit ⊢
    cases hLookup : (fs.entriesAt loc).lookup part with
    | none => rfl
    | some node =>
      rw [hLookup] at hLimit
      cases node with
      | file content => rfl
      | directory es => exact ih _ hLimit
      | link target => exact h _ _ hLimit

theorem extends_followLinks (fs : FileSystem) {m n : Nat} (h : m ≤ n) :
    Extends (followLinks fs m) (followLinks fs n) := by
  have hSucc (n : Nat) : Extends (followLinks fs n) (followLinks fs (n + 1)) := by
    induction n with
    | zero => exact Extends.follow fun _ _ hLimit => (hLimit rfl).elim
    | succ n ih => exact ih.follow
  induction h with
  | refl => exact fun _ _ _ => rfl
  | @step n _ ih =>
    intro parts loc hLimit
    have hSame := ih parts loc hLimit
    rw [hSucc n parts loc (by rwa [hSame]), hSame]

/-! ## What is in a directory -/

/-- A path does not meet the limits of an operating system. -/
def WithinLimits (fs : FileSystem) (p : Path) : Prop :=
  fs.find p ≠ .error .nameTooLong ∧ fs.find p ≠ .error .tooManyLinks

instance (fs : FileSystem) (p : Path) : Decidable (fs.WithinLimits p) :=
  match h : fs.find p with
  | .ok _ => .isTrue ⟨by simp [h], by simp [h]⟩
  | .error e => decidable_of_iff (e ≠ .nameTooLong ∧ e ≠ .tooManyLinks) (by simp [WithinLimits, h])

section

variable {fs : FileSystem} {p : Path} {start loc : Location} {way : List Bytes}

theorem not_open_below (hNames : ∀ n ∈ way, IsName n) (hNe : way ≠ []) : ¬ Open (p.below way) := by
  obtain ⟨front, name, rfl⟩ := way.eq_nil_or_concat'.resolve_left hNe
  refine not_open_of_endOf (hNames name (by simp)) ?_
  rw [Path.below_eq hNames hNe]
  exact RuleSet.endOf_opened Path.endOf_joinParts p

/-- What is below a directory is followed from there, through no more links than there may be. -/
theorem exists_target_below (hp : fs.find p = .ok (.directory loc)) (hNames : ∀ n ∈ way, IsName n)
    (hNe : way ≠ []) (hLength : (p.below way).length ≤ longestPath) :
    ∃ m ≤ mostLinks, fs.target (p.below way) = followLinks fs m way loc := by
  obtain ⟨h0, -, hLinks⟩ := find_directory hp
  rw [ignoresStops_followLinks, List.filter_append, filter_partsOf] at hLinks
  obtain ⟨m, hm, hSplit⟩ := splits_followLinks fs _ _ _ _ hLinks
  have hFits : Fits (p.below way) := by
    refine ⟨fun hNil => ?_, hLength⟩
    have hSteps := Path.names_below (p := p) hNames
    rw [hNil] at hSteps
    exact hNe (List.map_eq_nil_iff.mp (List.append_eq_nil_iff.mp hSteps.symm).2)
  have hNul : (p.below way).contains 0 = false := by
    simpa using Path.nul_notMem_below hNames h0
  refine ⟨m, hm, ?_⟩
  rw [target_of_fits hFits, hNul, if_neg Bool.false_ne_true,
    ignoresInnerStops_followLinks fs _ _ _ ?_, List.filter_append, filter_partsOf,
    Path.names_below hNames, Path.isAbsolute_below hNames, List.map_append, List.map_map,
    ← List.append_assoc, ← hSplit]
  · simp [Function.comp_def, Path.Component.text]
  · rw [List.getLast?_append_of_ne_nil _ (partsOf_ne_nil _)]
    exact not_open_below hNames hNe

/-- A path below a directory is not too long if it is not found to be. -/
theorem length_below_le (hp : fs.find p = .ok (.directory start)) (hNames : ∀ n ∈ way, IsName n)
    (h : fs.find (p.below way) ≠ .error .nameTooLong) : (p.below way).length ≤ longestPath := by
  by_contra hLong
  have hNul : (p.below way).contains 0 = false := by
    simpa using Path.nul_notMem_below hNames (find_directory hp).1
  have hNe : p.below way ≠ [] := by
    intro hNil
    rw [hNil] at hLong
    exact hLong (Nat.zero_le _)
  rw [find, target, hNul, if_neg Bool.false_ne_true, if_neg hNe,
    if_pos (Nat.lt_of_not_le hLong)] at h
  exact h rfl

/-- What is below a place is followed from there, if the limits allow it. -/
theorem target_below {front : List Bytes} (hp : fs.find p = .ok (.directory start))
    (hLeads : Leads fs start front loc) (hNames : ∀ n ∈ way, IsName n) (hNe : way ≠ [])
    (hLimits : fs.WithinLimits (p.below (front ++ way))) :
    fs.target (p.below (front ++ way)) = followLinks fs mostLinks way loc := by
  have hAll : ∀ n ∈ front ++ way, IsName n := fun n hn =>
    (List.mem_append.mp hn).elim (hLeads.isName n) (hNames n)
  obtain ⟨m, hm, hTarget⟩ :=
    exists_target_below hp hAll (by simp [hNe]) (length_below_le hp hAll hLimits.1)
  obtain ⟨next, hNext⟩ := exists_followLinks_eq fs m
  rw [hNext, hLeads.follow_eq, ← hNext] at hTarget
  have hLinks : followLinks fs m way loc ≠ .error .tooManyLinks := fun h =>
    hLimits.2 (by rw [find, hTarget, h])
  rw [hTarget, extends_followLinks fs hm _ _ hLinks]

theorem find_top (fs : FileSystem) : fs.find [slash] = .ok (.directory []) := rfl

/-- Below a directory the same is found under the absolute path. -/
theorem find_below_eq_absolute (hFs : fs.WellFormed) (hp : fs.find p = .ok (.directory loc))
    (hNames : ∀ n ∈ way, IsName n) (hNe : way ≠ []) (hLimits : fs.WithinLimits (p.below way))
    (hAbsolute : fs.WithinLimits ((textOf loc).below way)) :
    fs.find (p.below way) = fs.find ((textOf loc).below way) := by
  obtain ⟨front, hLeads⟩ := reached_of_find hFs hp
  rw [hLeads.textOf_eq_below, ← Path.below_append] at hAbsolute ⊢
  have hTarget : fs.target (p.below way) = followLinks fs mostLinks way loc :=
    target_below hp .nil hNames hNe hLimits
  rw [find, find, target_below (find_top fs) hLeads hNames hNe hAbsolute, hTarget]

/-- A place that another one leads to is found below it. -/
theorem find_below_of_leads (hp : fs.find p = .ok (.directory start))
    (hLeads : Leads fs start way loc) (hLength : (p.below way).length ≤ longestPath) :
    fs.find (p.below way) = .ok (.directory loc) := by
  by_cases hNe : way = []
  · subst hNe
    generalize hWay : ([] : List Bytes) = way at hLeads
    cases hLeads with
    | nil => exact hp
    | concat => simp at hWay
  obtain ⟨m, -, hTarget⟩ := exists_target_below hp hLeads.isName hNe hLength
  obtain ⟨next, hNext⟩ := exists_followLinks_eq fs m
  rw [hNext, ← List.append_nil way, hLeads.follow_eq, List.append_nil] at hTarget
  rw [find, hTarget]
  rfl

/-- A directory below another one is found, unless its path or a name in it is too long. -/
theorem exists_leads_of_opens (hFs : fs.WellFormed) (hp : fs.find p = .ok (.directory start))
    {inner : Entries} (hOpens : (fs.entriesAt start).Opens way inner)
    (hLimits : fs.find (p.below way) ≠ .error .nameTooLong) :
    ∃ loc, Leads fs start way loc ∧ fs.entriesAt loc = inner := by
  have hes := entriesAt_find hFs hp
  rcases leads_of_opens hOpens rfl hes with h | hLong
  · exact h
  have hNe : way ≠ [] := by
    rintro rfl
    cases hLong (fun _ _ => .error .notFound) []
  have hNames := hOpens.isName hes
  obtain ⟨m, -, hTarget⟩ := exists_target_below hp hNames hNe (length_below_le hp hNames hLimits)
  obtain ⟨next, hNext⟩ := exists_followLinks_eq fs m
  rw [hNext, ← List.append_nil way, hLong, List.append_nil] at hTarget
  exact (hLimits (by rw [find, hTarget])).elim

/-- A directory below another one is found to be one, or its path is too long. -/
theorem find_below_of_opens (hFs : fs.WellFormed) (hp : fs.find p = .ok (.directory start))
    {inner : Entries} (hOpens : (fs.entriesAt start).Opens way inner) :
    (∃ loc, fs.find (p.below way) = .ok (.directory loc)) ∨
      fs.find (p.below way) = .error .nameTooLong := by
  by_cases hLimits : fs.find (p.below way) = .error .nameTooLong
  · exact Or.inr hLimits
  · obtain ⟨loc, hLeads, -⟩ := exists_leads_of_opens hFs hp hOpens hLimits
    have hLength := length_below_le hp (hOpens.isName (entriesAt_find hFs hp)) hLimits
    exact Or.inl ⟨loc, find_below_of_leads hp hLeads hLength⟩

end

end FileSystem

end FuncSpans
