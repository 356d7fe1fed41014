import FuncSpans.Proofs.Files.WellFormed

/-!
# Where paths lead

A path that leads to a directory leads on below it: a way of names through real directories is
followed as it stands, whatever links the path itself goes through (`find_clean_below`). This is
said of the clean path, so that neither `.` nor slashes matter on the way to a directory
(`followLinks_filter`).

The only thing that can get in the way is length: names and paths may be too long.
-/

namespace FuncSpans.FileSystem

open FuncSpans.Path (slash stop)

/-! ## Following names in two steps -/

theorem follow_cons (fs : FileSystem) (next : List Bytes → Location → Except Fault Target)
    (part : Bytes) (rest : List Bytes) (loc : Location) :
    follow fs next (part :: rest) loc =
      if part = [stop] then follow fs next rest loc
      else if part = [stop, stop] then follow fs next rest loc.tail
      else if longestName < part.length then .error .nameTooLong
      else match (fs.entriesAt loc).lookup part with
        | none => if rest = [] then .ok (.missing loc part) else .error .notFound
        | some (.directory es) => follow fs next rest ((part, es) :: loc)
        | some (.file content) =>
          if rest = [] then .ok (.file loc part content) else .error .notADirectory
        | some (.link target) =>
          next (partsOf target ++ rest) (if target.isAbsolute then [] else loc) := rfl

/-- What the first part of a way that leads to a target does. -/
inductive FirstStep (fs : FileSystem) (next : List Bytes → Location → Except Fault Target)
    (part : Bytes) (rest : List Bytes) (loc : Location) (t : Target) : Prop
  | stay : part = [stop] → follow fs next rest loc = .ok t → FirstStep fs next part rest loc t
  | up : part = [stop, stop] → follow fs next rest loc.tail = .ok t →
      FirstStep fs next part rest loc t
  | enter {es : Entries} : part.length ≤ longestName →
      (fs.entriesAt loc).lookup part = some (.directory es) →
      follow fs next rest ((part, es) :: loc) = .ok t → FirstStep fs next part rest loc t
  | link {target : Path} : (fs.entriesAt loc).lookup part = some (.link target) →
      next (partsOf target ++ rest) (if target.isAbsolute then [] else loc) = .ok t →
      FirstStep fs next part rest loc t
  /-- It is the last one, and what it names is a file. -/
  | file {content : Bytes} : rest = [] → (fs.entriesAt loc).lookup part = some (.file content) →
      t = .file loc part content → FirstStep fs next part rest loc t
  /-- It is the last one, and there is nothing of its name. -/
  | missing : rest = [] → (fs.entriesAt loc).lookup part = none → t = .missing loc part →
      FirstStep fs next part rest loc t

theorem firstStep_of_follow {fs : FileSystem} {next : List Bytes → Location → Except Fault Target}
    {part : Bytes} {rest : List Bytes} {loc : Location} {t : Target}
    (h : follow fs next (part :: rest) loc = .ok t) : FirstStep fs next part rest loc t := by
  rw [follow_cons] at h
  by_cases hStop : part = [stop]
  · rw [if_pos hStop] at h
    exact .stay hStop h
  rw [if_neg hStop] at h
  by_cases hParent : part = [stop, stop]
  · rw [if_pos hParent] at h
    exact .up hParent h
  rw [if_neg hParent] at h
  by_cases hLength : longestName < part.length
  · rw [if_pos hLength] at h
    cases h
  rw [if_neg hLength] at h
  cases hLookup : (fs.entriesAt loc).lookup part with
  | none =>
    rw [hLookup] at h
    dsimp only at h
    split_ifs at h with hRest
    exact .missing hRest hLookup (Except.ok.inj h).symm
  | some node =>
    rw [hLookup] at h
    cases node with
    | file content =>
      dsimp only at h
      split_ifs at h with hRest
      exact .file hRest hLookup (Except.ok.inj h).symm
    | directory es => exact .enter (Nat.le_of_not_lt hLength) hLookup h
    | link target => exact .link hLookup h

/-- What comes of a way to a directory is what is followed from that directory on, through no more
links than before. -/
def Splits (fs : FileSystem) (next : List Bytes → Location → Except Fault Target) (n : Nat) :
    Prop :=
  ∀ parts loc loc', next parts loc = .ok (.directory loc') →
    ∃ m ≤ n, ∀ rest, next (parts ++ rest) loc = followLinks fs m rest loc'

theorem Splits.follow {fs : FileSystem} {next : List Bytes → Location → Except Fault Target}
    {n : Nat} (hFollow : follow fs next = followLinks fs n) (hNext : Splits fs next n) :
    Splits fs (follow fs next) n := by
  intro parts
  induction parts with
  | nil =>
    intro loc loc' h
    cases h
    exact ⟨n, Nat.le_refl n, fun rest => by rw [hFollow]; rfl⟩
  | cons part parts ih =>
    intro loc loc' h
    simp only [List.cons_append, follow_cons] at h ⊢
    split at h
    · rename_i hp
      simp only [if_pos hp]
      exact ih loc loc' h
    · rename_i hp
      simp only [if_neg hp]
      split at h
      · rename_i hPp
        simp only [if_pos hPp]
        exact ih loc.tail loc' h
      · rename_i hPp
        simp only [if_neg hPp]
        split at h
        · cases h
        · rename_i hLen
          simp only [if_neg hLen]
          cases hl : (fs.entriesAt loc).lookup part with
          | none => rw [hl] at h; dsimp only at h; split at h <;> cases h
          | some node =>
            rw [hl] at h
            cases node with
            | file content => dsimp only at h; split at h <;> cases h
            | directory es => exact ih _ loc' h
            | link target =>
              obtain ⟨m, hm, hn⟩ := hNext _ _ _ h
              exact ⟨m, hm, fun rest => by rw [← hn rest, List.append_assoc]⟩

theorem splits_followLinks (fs : FileSystem) (n : Nat) : Splits fs (followLinks fs n) n := by
  induction n with
  | zero => exact Splits.follow rfl fun _ _ _ h => by cases h
  | succ n ih =>
    refine Splits.follow rfl fun parts loc loc' h => ?_
    obtain ⟨m, hm, hn⟩ := ih parts loc loc' h
    exact ⟨m, Nat.le_succ_of_le hm, hn⟩

theorem exists_followLinks_eq (fs : FileSystem) (n : Nat) :
    ∃ next, followLinks fs n = follow fs next := by
  cases n with
  | zero => exact ⟨_, rfl⟩
  | succ n => exact ⟨_, rfl⟩

/-! ## Parts that do not count -/

/-- Parts `.` do not count on the way to a directory. -/
def IgnoresStops (next : List Bytes → Location → Except Fault Target) : Prop :=
  ∀ parts loc loc', next parts loc = .ok (.directory loc') ↔
    next (parts.filter (· ≠ [stop])) loc = .ok (.directory loc')

theorem IgnoresStops.follow {fs : FileSystem}
    {next : List Bytes → Location → Except Fault Target} (hNext : IgnoresStops next) :
    IgnoresStops (follow fs next) := by
  intro parts
  induction parts with
  | nil => simp
  | cons part parts ih =>
    intro loc loc'
    by_cases hp : part = [stop]
    · rw [List.filter_cons_of_neg (by simp [hp]), ← ih, follow_cons, if_pos hp]
    · rw [List.filter_cons_of_pos (by simp [hp]), follow_cons, follow_cons,
        if_neg hp, if_neg hp]
      split
      · exact ih loc.tail loc'
      · split
        · simp
        · cases (fs.entriesAt loc).lookup part with
          | none => dsimp only; split <;> split <;> simp
          | some node =>
            cases node with
            | file content => dsimp only; split <;> split <;> simp
            | directory es => exact ih _ loc'
            | link target =>
              dsimp only
              rw [hNext (partsOf target ++ parts), hNext (partsOf target ++ parts.filter _)]
              simp only [List.filter_append, List.filter_filter, Bool.and_self]

theorem ignoresStops_followLinks (fs : FileSystem) (n : Nat) :
    IgnoresStops (followLinks fs n) := by
  induction n with
  | zero => exact IgnoresStops.follow fun _ _ _ => by simp
  | succ n ih => exact ih.follow

/-! ## Well-formed places -/

/-- All directories on the way to a place are well-formed. -/
def Location.WellFormed (loc : Location) : Prop := ∀ e ∈ loc, e.2.WellFormed

theorem entriesAt_wellFormed {fs : FileSystem} (hFs : fs.WellFormed) {loc : Location}
    (hLoc : Location.WellFormed loc) : (fs.entriesAt loc).WellFormed := by
  cases loc with
  | nil => exact hFs
  | cons e loc => exact hLoc e List.mem_cons_self

/-- From well-formed places only well-formed places are reached. -/
def KeepsWellFormed (next : List Bytes → Location → Except Fault Target) : Prop :=
  ∀ parts loc loc', Location.WellFormed loc → next parts loc = .ok (.directory loc') →
    Location.WellFormed loc'

theorem KeepsWellFormed.follow {fs : FileSystem} (hFs : fs.WellFormed)
    {next : List Bytes → Location → Except Fault Target} (hNext : KeepsWellFormed next) :
    KeepsWellFormed (follow fs next) := by
  intro parts
  induction parts with
  | nil =>
    intro loc loc' hLoc h
    cases h
    exact hLoc
  | cons part parts ih =>
    intro loc loc' hLoc h
    cases firstStep_of_follow h with
    | stay _ h => exact ih loc loc' hLoc h
    | up _ h => exact ih _ loc' (fun e he => hLoc e (List.mem_of_mem_tail he)) h
    | enter _ hLookup h =>
      refine ih _ loc' (fun e he => ?_) h
      rcases List.mem_cons.mp he with rfl | he
      · exact (entriesAt_wellFormed hFs hLoc).node (Entries.mem_of_lookup hLookup)
      · exact hLoc e he
    | link _ h =>
      refine hNext _ _ loc' (fun e he => ?_) h
      split at he
      · cases he
      · exact hLoc e he
    | file _ _ h => cases h
    | missing _ _ h => cases h

theorem keepsWellFormed_followLinks {fs : FileSystem} (hFs : fs.WellFormed) (n : Nat) :
    KeepsWellFormed (followLinks fs n) := by
  induction n with
  | zero => exact KeepsWellFormed.follow hFs fun _ _ _ _ h => by cases h
  | succ n ih => exact ih.follow hFs

/-- What a path has to be to lead to a directory. -/
theorem find_directory {fs : FileSystem} {p : Path} {place : Location}
    (h : fs.find p = .ok (.directory place)) :
    0 ∉ p ∧ p ≠ [] ∧ followLinks fs mostLinks
      ((if p.isAbsolute then [] else fs.current) ++ partsOf p) [] = .ok (.directory place) := by
  unfold find at h
  have ht : fs.target p = .ok (.directory place) := by
    split at h <;> cases h
    assumption
  unfold target at ht
  split at ht
  · cases ht
  · rename_i h0
    split at ht
    · cases ht
    · rename_i hNe
      split at ht
      · cases ht
      · exact ⟨by simpa using h0, hNe, ht⟩

theorem entriesAt_find {fs : FileSystem} (hFs : fs.WellFormed) {p : Path} {place : Location}
    (h : fs.find p = .ok (.directory place)) : (fs.entriesAt place).WellFormed :=
  entriesAt_wellFormed hFs
    (keepsWellFormed_followLinks hFs _ _ _ _ (by simp [Location.WellFormed]) (find_directory h).2.2)

/-! ## Below a directory -/

theorem follow_holds {fs : FileSystem} {next : List Bytes → Location → Except Fault Target}
    {es : Entries} {way : List Bytes} {content : Bytes} (h : es.Holds way (.file content))
    {loc : Location} (hLoc : es = fs.entriesAt loc) (hes : es.WellFormed) :
    (∃ loc' name, follow fs next way loc = .ok (.file loc' name content)) ∨
      follow fs next way loc = .error .nameTooLong := by
  generalize hNode : Node.file content = node at h
  induction h generalizing loc with
  | @entry es name node hMem =>
    subst hNode hLoc
    have hName := hes.isName hMem
    rw [follow_cons, if_neg hName.ne_stop, if_neg hName.ne_parent, hes.lookup hMem]
    split
    · exact Or.inr rfl
    · exact Or.inl ⟨loc, name, rfl⟩
  | @inside es inner name way node hMem _ ih =>
    subst hLoc
    have hName := hes.isName hMem
    rw [follow_cons, if_neg hName.ne_stop, if_neg hName.ne_parent, hes.lookup hMem]
    split
    · exact Or.inr rfl
    · exact ih rfl (hes.node hMem) hNode

theorem texts_names (p : Path) :
    p.names.map Path.Component.text = p.split.filter fun part => part ≠ [] ∧ part ≠ [stop] := by
  unfold Path.names
  induction p.split with
  | nil => rfl
  | cons part parts ih =>
    by_cases hp : part = [] ∨ part = [stop]
    · rw [List.filterMap_cons_none (by simp [Path.Component.ofPart?, hp]), ih,
        List.filter_cons_of_neg (by simpa using or_iff_not_imp_left.mp hp)]
    · have hc : ∃ c, Path.Component.ofPart? part = some c := by
        unfold Path.Component.ofPart?
        rw [if_neg hp]
        split <;> exact ⟨_, rfl⟩
      obtain ⟨c, hc⟩ := hc
      rw [List.filterMap_cons_some hc, List.map_cons, ih, Path.Component.text_of_ofPart? hc,
        List.filter_cons_of_pos (by simpa using not_or.mp hp)]

theorem filter_partsOf (p : Path) :
    (partsOf p).filter (· ≠ [stop]) = p.names.map Path.Component.text := by
  rw [texts_names, partsOf, List.filter_append, List.filter_filter]
  have hTail : (if p.split.getLast? = some [] then [[stop]] else []).filter
      (fun part : Bytes => decide (part ≠ [stop])) = [] := by
    split <;> simp
  rw [hTail, List.append_nil]
  apply List.filter_congr
  intro part _
  simp [Bool.and_comm]

/-- The parts of a clean path that ends in a name are its steps as they are written. -/
theorem partsOf_clean {p : Path} (h : p.names ≠ []) :
    partsOf p.clean = p.names.map Path.Component.text := by
  have hSplit : p.body.split = p.names.map Path.Component.text := by
    apply Path.split_joinParts (by simpa using h)
    intro part hPart
    obtain ⟨c, hc, rfl⟩ := List.mem_map.mp hPart
    exact Path.slash_notMem_text hc
  have hNe : ∀ part ∈ p.names.map Path.Component.text, part ≠ [] := by
    intro part hPart
    obtain ⟨c, hc, rfl⟩ := List.mem_map.mp hPart
    exact Path.Component.ne_nil_of_ofPart? (Path.ofPart?_text hc)
  have hFilter : (p.names.map Path.Component.text).filter (· ≠ []) =
      p.names.map Path.Component.text := List.filter_eq_self.mpr fun part hPart => by
    simpa using hNe part hPart
  have hLast : (p.names.map Path.Component.text).getLast? ≠ some [] := fun hl =>
    hNe _ (List.mem_of_getLast? hl) rfl
  obtain ⟨front, hFront, hs⟩ : ∃ front : List Bytes, (∀ part ∈ front, part = []) ∧
      p.clean.split = front ++ p.names.map Path.Component.text := by
    cases ha : p.isAbsolute with
    | true =>
      refine ⟨[[]], by simp, ?_⟩
      rw [Path.clean_of_isAbsolute ha, Path.split_slash, hSplit]
      rfl
    | false => exact ⟨[], by simp, by rw [Path.clean_of_not_isAbsolute ha, if_neg h, hSplit]; rfl⟩
  have hFront' : front.filter (· ≠ []) = [] :=
    List.filter_eq_nil_iff.mpr fun part hPart => by simp [hFront part hPart]
  have hLast' : p.clean.split.getLast? ≠ some [] := by
    rw [hs, List.getLast?_append_of_ne_nil _ (by simpa using h)]
    exact hLast
  rw [partsOf, if_neg hLast', hs, List.filter_append, hFront', hFilter, List.nil_append,
    List.append_nil]

/-- A way of names below a directory is found under the clean path, unless that is too long. -/
theorem find_clean_below {fs : FileSystem} (hFs : fs.WellFormed) {root : Path}
    {place : Location} (hRoot : fs.find root = .ok (.directory place)) {way : List Bytes}
    {content : Bytes} (hWay : (fs.entriesAt place).Holds way (.file content)) :
    fs.find (root.below way).clean = .ok (.file content) ∨
      fs.find (root.below way).clean = .error .nameTooLong := by
  have hes := entriesAt_find hFs hRoot
  have hNames := hWay.isName hes
  obtain ⟨h0, hNe, hLinks⟩ := find_directory hRoot
  have hParts : partsOf (root.below way).clean =
      (partsOf root).filter (· ≠ [stop]) ++ way := by
    rw [partsOf_clean, Path.names_below hNames, filter_partsOf, List.map_append, List.map_map]
    · simp [Function.comp_def, Path.Component.text]
    · rw [Path.names_below hNames]
      simpa using fun _ => hWay.ne_nil
  have hRoot' : followLinks fs mostLinks ((if root.isAbsolute then [] else fs.current) ++
      (partsOf root).filter (· ≠ [stop])) [] = .ok (.directory place) := by
    rw [ignoresStops_followLinks] at hLinks ⊢
    simpa only [List.filter_append, List.filter_filter, Bool.and_self] using hLinks
  obtain ⟨m, -, hNext⟩ := splits_followLinks fs _ _ _ _ hRoot'
  obtain ⟨next, hm⟩ := exists_followLinks_eq fs m
  have hNul : 0 ∉ (root.below way).clean := by
    intro hx
    rcases Path.mem_of_mem_clean hx with hx | hx | hx
    · exact absurd hx (by decide)
    · exact absurd hx (by decide)
    · exact Path.nul_notMem_below hNames h0 hx
  have hContains : (root.below way).clean.contains 0 = false := by simpa using hNul
  unfold find target
  rw [hContains, if_neg (by simp), if_neg (Path.clean_ne_nil _)]
  by_cases hLen : longestPath < (root.below way).clean.length
  · rw [if_pos hLen]
    exact Or.inr rfl
  · rw [if_neg hLen, Path.isAbsolute_clean, Path.isAbsolute_below hNames, hParts,
      ← List.append_assoc, hNext, hm]
    have hFollow : (∃ loc' name, follow fs next way place = .ok (.file loc' name content)) ∨
        follow fs next way place = .error .nameTooLong := follow_holds hWay rfl hes
    rcases hFollow with ⟨loc', name, h⟩ | h
    · rw [h]
      exact Or.inl rfl
    · rw [h]
      exact Or.inr rfl

end FuncSpans.FileSystem
