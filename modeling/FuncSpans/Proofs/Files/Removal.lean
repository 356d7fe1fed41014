import FuncSpans.Proofs.Files.Places

/-!
# Trees without a file

Taking one file out of a tree changes where paths lead in one way only (`target_without`): a path
to the file leads to a name that nothing stands under, and a path that leads on behind the file
fails for another reason. All other paths lead where they led.
-/

namespace FuncSpans

/-! ## Taking a node away -/

mutual

/-- A node at the end of a way, without what stands at a place. -/
def Node.without (place way : List Bytes) : Node → Node
  | .directory entries => .directory (Entries.without place way entries)
  | .file content => .file content
  | .link target => .link target

/-- The entries at the end of a way, without what stands at a place. -/
def Entries.without (place way : List Bytes) : List (Bytes × Node) → List (Bytes × Node)
  | [] => []
  | (name, node) :: entries =>
    if way ++ [name] = place then Entries.without place way entries
    else (name, node.without place (way ++ [name])) :: Entries.without place way entries

end

namespace Entries

variable {place way : List Bytes} {name : Bytes} {node : Node} {es : Entries}

theorem lookup_without (es : Entries) (name : Bytes) :
    (without place way es).lookup name =
      if way ++ [name] = place then none
      else (es.lookup name).map (Node.without place (way ++ [name])) := by
  induction es with
  | nil => simp [without]
  | cons e es ih =>
    obtain ⟨m, node⟩ := e
    rw [without]
    by_cases hName : name = m
    · subst hName
      by_cases hPlace : way ++ [name] = place
      · rw [if_pos hPlace, ih, if_pos hPlace, if_pos hPlace]
      · rw [if_neg hPlace, if_neg hPlace, List.lookup_cons_self, List.lookup_cons_self]
        rfl
    · rw [List.lookup_cons, beq_false_of_ne hName, ← ih]
      split_ifs
      · rfl
      · rw [List.lookup_cons, beq_false_of_ne hName]

theorem mem_without {e : Bytes × Node} (h : e ∈ without place way es) :
    ∃ node, (e.1, node) ∈ es ∧ e.2 = node.without place (way ++ [e.1]) := by
  induction es with
  | nil => cases h
  | cons e' es ih =>
    obtain ⟨m, node⟩ := e'
    rw [without] at h
    split_ifs at h
    · exact (ih h).imp fun _ hMem => ⟨List.mem_cons_of_mem _ hMem.1, hMem.2⟩
    · rcases List.mem_cons.mp h with rfl | h
      · exact ⟨node, List.mem_cons_self, rfl⟩
      · exact (ih h).imp fun _ hMem => ⟨List.mem_cons_of_mem _ hMem.1, hMem.2⟩

end Entries

mutual

theorem Node.WellFormed.without {place way : List Bytes} :
    ∀ {node : Node}, node.WellFormed → (node.without place way).WellFormed
  | .directory entries, h => @Entries.WellFormed.without place way entries h
  | .file _, _ => trivial
  | .link _, _ => trivial

theorem Entries.WellFormed.without {place way : List Bytes} :
    ∀ {es : List (Bytes × Node)}, Entries.WellFormed es →
      Entries.WellFormed (Entries.without place way es)
  | [], _ => trivial
  | (name, node) :: es, ⟨hName, hBefore, hNode, hes⟩ => by
    rw [Entries.without]
    split_ifs
    · exact Entries.WellFormed.without hes
    · refine ⟨hName, fun e he => ?_, Node.WellFormed.without hNode, Entries.WellFormed.without hes⟩
      obtain ⟨node', hMem, -⟩ := Entries.mem_without he
      exact hBefore (e.1, node') hMem

end

/-! ## Nodes at places -/

/-- The node at the end of a way of names through directories. -/
def Entries.node? : List Bytes → Entries → Option Node
  | [], _ => none
  | [name], es => es.lookup name
  | name :: next :: way, es =>
    match es.lookup name with
    | some (.directory inner) => Entries.node? (next :: way) inner
    | _ => none

theorem Entries.node?_cons {es inner : Entries} {name : Bytes} {way : List Bytes} (hNe : way ≠ [])
    (h : es.lookup name = some (.directory inner)) : es.node? (name :: way) = inner.node? way := by
  cases way with
  | nil => exact (hNe rfl).elim
  | cons next way => rw [Entries.node?, h]

theorem Entries.Holds.node?_eq {es : Entries} {way : List Bytes} {node : Node} (h : es.Holds way node)
    (hes : es.WellFormed) : es.node? way = some node := by
  induction h with
  | entry hMem => exact hes.lookup hMem
  | inside hMem h ih => rw [Entries.node?_cons h.ne_nil (hes.lookup hMem), ih (hes.node hMem)]

/-- The names on the way to a place, the outermost first. -/
def Location.way (loc : Location) : List Bytes := loc.reverse.map (·.1)

theorem Location.way_cons (name : Bytes) (es : Entries) (loc : Location) :
    Location.way ((name, es) :: loc) = Location.way loc ++ [name] := by
  simp [Location.way]

/-- A place without what stands at a place inside it. -/
def Location.without (place : List Bytes) : Location → Location
  | [] => []
  | (name, es) :: loc =>
    (name, Entries.without place (Location.way loc ++ [name]) es) :: Location.without place loc

@[simp]
theorem Location.way_without (place : List Bytes) (loc : Location) :
    Location.way (Location.without place loc) = Location.way loc := by
  induction loc with
  | nil => rfl
  | cons e loc ih => rw [Location.without, Location.way_cons, Location.way_cons, ih]

@[simp]
theorem Location.tail_without (place : List Bytes) (loc : Location) :
    (Location.without place loc).tail = Location.without place loc.tail := by
  cases loc <;> rfl

namespace FileSystem

/-- The tree without what stands at a place. -/
def without (fs : FileSystem) (place : List Bytes) : FileSystem :=
  { fs with top := Entries.without place [] fs.top }

/-- The node at a place. -/
def node? (fs : FileSystem) (place : List Bytes) : Option Node := fs.top.node? place

/-- If anything stands at a place, it is a file. -/
def FileOrNothing (fs : FileSystem) (place : List Bytes) : Prop :=
  ∀ node, fs.node? place = some node → ∃ content, node = .file content

/-- A location is a directory of the tree. -/
def IsPlace (fs : FileSystem) : Location → Prop
  | [] => True
  | (name, es) :: loc => IsPlace fs loc ∧ (fs.entriesAt loc).lookup name = some (.directory es)

variable {fs : FileSystem} {place : List Bytes} {loc : Location}

theorem WellFormed.without (h : fs.WellFormed) : (fs.without place).WellFormed :=
  @Entries.WellFormed.without place [] fs.top h

theorem entriesAt_without (fs : FileSystem) (place : List Bytes) (loc : Location) :
    (fs.without place).entriesAt (Location.without place loc) =
      Entries.without place loc.way (fs.entriesAt loc) := by
  cases loc with
  | nil => rfl
  | cons e loc => rw [Location.way_cons]; rfl

theorem textOf_without (place : List Bytes) (loc : Location) :
    textOf (Location.without place loc) = textOf loc :=
  congrArg (fun way => Path.slash :: Path.joinParts way) (Location.way_without place loc)

theorem IsPlace.tail (h : fs.IsPlace loc) : fs.IsPlace loc.tail := by
  cases loc with
  | nil => exact h
  | cons e loc => exact h.1

theorem IsPlace.entriesAt (h : fs.IsPlace loc) (hFs : fs.WellFormed) :
    (fs.entriesAt loc).WellFormed := by
  induction loc with
  | nil => exact hFs
  | cons e loc ih => exact (ih h.1).node (Entries.mem_of_lookup h.2)

/-- A way that goes on from a directory of the tree is a way from there. -/
theorem IsPlace.node?_append (h : fs.IsPlace loc) {rest : List Bytes} (hNe : rest ≠ []) :
    fs.node? (loc.way ++ rest) = (fs.entriesAt loc).node? rest := by
  induction loc generalizing rest with
  | nil => rfl
  | cons e loc ih =>
    rw [Location.way_cons, List.append_assoc, List.singleton_append, ih h.1 (by simp)]
    exact Entries.node?_cons hNe h.2

theorem IsPlace.node?_concat (h : fs.IsPlace loc) (name : Bytes) :
    fs.node? (loc.way ++ [name]) = (fs.entriesAt loc).lookup name :=
  h.node?_append (by simp)

theorem IsPlace.without (hPlace : fs.FileOrNothing place) (h : fs.IsPlace loc) :
    (fs.without place).IsPlace (Location.without place loc) := by
  induction loc with
  | nil => exact trivial
  | cons e loc ih =>
    obtain ⟨name, es⟩ := e
    refine ⟨ih h.1, ?_⟩
    have hElsewhere : Location.way loc ++ [name] ≠ place := by
      rintro rfl
      obtain ⟨content, hContent⟩ := hPlace _ ((h.1.node?_concat name).trans h.2)
      cases hContent
    rw [entriesAt_without, Entries.lookup_without, if_neg hElsewhere, h.2]
    rfl

/-- All directories of the tree without a node come from directories of the tree. -/
theorem IsPlace.of_without {loc' : Location} (h : (fs.without place).IsPlace loc') :
    ∃ loc, fs.IsPlace loc ∧ Location.without place loc = loc' := by
  induction loc' with
  | nil => exact ⟨[], trivial, rfl⟩
  | cons e loc' ih =>
    obtain ⟨name, es'⟩ := e
    obtain ⟨loc, hLoc, rfl⟩ := ih h.1
    have hLookup := h.2
    rw [entriesAt_without, Entries.lookup_without] at hLookup
    split_ifs at hLookup
    obtain ⟨node, hNode, hDirectory⟩ := Option.map_eq_some_iff.mp hLookup
    cases node with
    | directory es => cases hDirectory; exact ⟨(name, es) :: loc, ⟨hLoc, hNode⟩, rfl⟩
    | file content => cases hDirectory
    | link target => cases hDirectory

/-! ## Where paths lead -/

namespace Target

/-- The place of the entry that a path leads to. -/
def place? : Target → Option (List Bytes)
  | .directory _ => none
  | .file loc name _ | .missing loc name => some (loc.way ++ [name])

/-- Where a path leads that led to a target, without what stands at a place. -/
def without (place : List Bytes) : Target → Target
  | .directory loc => .directory (Location.without place loc)
  | .file loc name content =>
    if loc.way ++ [name] = place then .missing (Location.without place loc) name
    else .file (Location.without place loc) name content
  | .missing loc name => .missing (Location.without place loc) name

@[simp]
theorem place?_without (place : List Bytes) (t : Target) :
    (t.without place).place? = t.place? := by
  cases t with
  | directory loc => rfl
  | file loc name content => rw [without]; split_ifs <;> simp [place?]
  | missing loc name => simp [without, place?]

/-- A target is in the tree as it says. -/
def Stands (fs : FileSystem) : Target → Prop
  | .directory loc => fs.IsPlace loc
  | .file loc name content =>
    fs.IsPlace loc ∧ (fs.entriesAt loc).lookup name = some (.file content)
  | .missing loc name => fs.IsPlace loc ∧ (fs.entriesAt loc).lookup name = none

end Target

/-- From places of the tree paths lead to what stands there. -/
def LeadsSoundly (fs : FileSystem) (next : List Bytes → Location → Except Fault Target) : Prop :=
  ∀ parts loc t, fs.IsPlace loc → next parts loc = .ok t → t.Stands fs

theorem LeadsSoundly.follow {next : List Bytes → Location → Except Fault Target}
    (hNext : LeadsSoundly fs next) : LeadsSoundly fs (follow fs next) := by
  intro parts
  induction parts with
  | nil =>
    intro loc t hLoc h
    cases h
    exact hLoc
  | cons part parts ih =>
    intro loc t hLoc h
    cases firstStep_of_follow h with
    | stay _ h => exact ih loc t hLoc h
    | up _ h => exact ih loc.tail t hLoc.tail h
    | @enter es _ hLookup h => exact ih ((part, es) :: loc) t ⟨hLoc, hLookup⟩ h
    | link _ h =>
      refine hNext _ _ t ?_ h
      split
      · exact trivial
      · exact hLoc
    | file _ hLookup ht => exact ht ▸ ⟨hLoc, hLookup⟩
    | missing _ hLookup ht => exact ht ▸ ⟨hLoc, hLookup⟩

theorem leadsSoundly_followLinks (fs : FileSystem) (n : Nat) : LeadsSoundly fs (followLinks fs n) := by
  induction n with
  | zero => exact LeadsSoundly.follow fun _ _ _ _ h => by cases h
  | succ n ih => exact ih.follow

/-- What a path has to be to lead somewhere. -/
theorem target_eq_ok {p : Path} {t : Target} (h : fs.target p = .ok t) :
    followLinks fs mostLinks ((if p.isAbsolute then [] else fs.current) ++ partsOf p) [] = .ok t := by
  unfold target at h
  split at h
  · cases h
  split at h
  · cases h
  split at h
  · cases h
  · exact h

theorem stands_of_target {p : Path} {t : Target} (h : fs.target p = .ok t) : t.Stands fs :=
  leadsSoundly_followLinks fs _ _ [] _ trivial (target_eq_ok h)

/-- Only a file stands where a path leads to an entry. -/
theorem fileOrNothing_of_target {p : Path} {t : Target} (h : fs.target p = .ok t)
    (hPlace : t.place? = some place) : fs.FileOrNothing place := by
  have hStands := stands_of_target h
  intro node hNode
  cases t with
  | directory loc => cases hPlace
  | file loc name content =>
    cases hPlace
    rw [hStands.1.node?_concat, hStands.2] at hNode
    exact ⟨content, (Option.some.inj hNode).symm⟩
  | missing loc name =>
    cases hPlace
    rw [hStands.1.node?_concat, hStands.2] at hNode
    cases hNode

/-- What comes of a path in a tree, and in the tree without the file at a place. -/
inductive Removes (place : List Bytes) (before after : Except Fault Target) : Prop
  | leads {t : Target} : before = .ok t → after = .ok (t.without place) →
      Removes place before after
  | fails {e : Fault} : before = .error e → after = .error e → Removes place before after
  /-- The path leads on behind the file. -/
  | behind : before = .error .notADirectory → after = .error .notFound →
      Removes place before after

/-- A name that leads to the same node leads there if it is the last one, and fails alike else. -/
theorem Removes.of_name (rest : List Bytes) (t : Target) (e : Fault) :
    Removes place (if rest = [] then .ok t else .error e)
      (if rest = [] then .ok (t.without place) else .error e) := by
  split_ifs
  · exact .leads rfl rfl
  · exact .fails rfl rfl

theorem Removes.follow {next next' : List Bytes → Location → Except Fault Target}
    (hPlace : fs.FileOrNothing place) (hNext : ∀ parts loc, fs.IsPlace loc →
      Removes place (next parts loc) (next' parts (Location.without place loc))) :
    ∀ parts loc, fs.IsPlace loc → Removes place (follow fs next parts loc)
      (follow (fs.without place) next' parts (Location.without place loc)) := by
  intro parts
  induction parts with
  | nil => exact fun loc _ => .leads rfl rfl
  | cons part parts ih =>
    intro loc hLoc
    rw [follow_cons, follow_cons]
    split
    · exact ih loc hLoc
    split
    · rw [Location.tail_without]
      exact ih loc.tail hLoc.tail
    split
    · exact .fails rfl rfl
    rw [entriesAt_without, Entries.lookup_without]
    by_cases hAt : loc.way ++ [part] = place
    · -- The file, if there is one, is the only node that is not found any more.
      rw [if_pos hAt]
      have hFile := hPlace
      rw [FileOrNothing, ← hAt, hLoc.node?_concat] at hFile
      cases hLookup : (fs.entriesAt loc).lookup part with
      | none => exact .of_name parts (.missing loc part) _
      | some node =>
        obtain ⟨content, rfl⟩ := hFile node hLookup
        dsimp only
        split_ifs
        · exact .leads rfl (by rw [Target.without, if_pos hAt])
        · exact .behind rfl rfl
    · rw [if_neg hAt]
      cases hLookup : (fs.entriesAt loc).lookup part with
      | none => exact .of_name parts (.missing loc part) _
      | some node =>
        cases node with
        | file content =>
          have hFile : Removes place _ _ :=
            .of_name parts (.file loc part content) .notADirectory
          rwa [Target.without, if_neg hAt] at hFile
        | directory es => exact ih ((part, es) :: loc) ⟨hLoc, hLookup⟩
        | link target =>
          dsimp only [Option.map_some, Node.without]
          split_ifs
          · exact hNext _ [] trivial
          · exact hNext _ loc hLoc

theorem removes_followLinks (hPlace : fs.FileOrNothing place) (n : Nat) :
    ∀ parts loc, fs.IsPlace loc → Removes place (followLinks fs n parts loc)
      (followLinks (fs.without place) n parts (Location.without place loc)) := by
  induction n with
  | zero => exact Removes.follow hPlace fun _ _ _ => .fails rfl rfl
  | succ n ih => exact Removes.follow hPlace ih

/-- Without a file, paths lead where they led, but for the file itself and what is behind it. -/
theorem target_without (hPlace : fs.FileOrNothing place) (p : Path) :
    Removes place (fs.target p) ((fs.without place).target p) := by
  unfold target
  split
  · exact .fails rfl rfl
  split
  · exact .fails rfl rfl
  split
  · exact .fails rfl rfl
  · exact removes_followLinks hPlace _ _ [] trivial

theorem find_directory_without (hPlace : fs.FileOrNothing place) {p : Path}
    (h : fs.find p = .ok (.directory loc)) :
    (fs.without place).find p = .ok (.directory (Location.without place loc)) := by
  have hTarget := find_eq_directory.mp h
  rw [find_eq_directory]
  cases target_without hPlace p with
  | leads hBefore hAfter =>
    obtain rfl := Except.ok.inj (hTarget.symm.trans hBefore)
    exact hAfter
  | fails hBefore => cases hTarget.symm.trans hBefore
  | behind hBefore => cases hTarget.symm.trans hBefore

theorem find_directory_of_without (hPlace : fs.FileOrNothing place) {p : Path} {loc' : Location}
    (h : (fs.without place).find p = .ok (.directory loc')) :
    ∃ loc, fs.find p = .ok (.directory loc) := by
  have hTarget := find_eq_directory.mp h
  cases target_without hPlace p with
  | fails _ hAfter => cases hTarget.symm.trans hAfter
  | behind _ hAfter => cases hTarget.symm.trans hAfter
  | @leads t hBefore hAfter =>
    have ht := Except.ok.inj (hTarget.symm.trans hAfter)
    cases t with
    | directory loc => exact ⟨loc, find_eq_directory.mpr hBefore⟩
    | missing loc name => cases ht
    | file loc name content =>
      rw [Target.without] at ht
      split_ifs at ht

theorem find_nameTooLong_without (hPlace : fs.FileOrNothing place) {p : Path}
    (h : fs.find p = .error .nameTooLong) : (fs.without place).find p = .error .nameTooLong := by
  rw [find] at h ⊢
  cases target_without hPlace p with
  | fails hBefore hAfter => rwa [hBefore, ← hAfter] at h
  | behind hBefore _ =>
    rw [hBefore] at h
    cases h
  | @leads t hBefore _ =>
    rw [hBefore] at h
    cases t <;> cases h

/-- What can be read without a file is what could be read before. -/
theorem readBytes_of_without (hPlace : fs.FileOrNothing place) {p : Path} {content : Bytes}
    (h : (fs.without place).readBytes p = .ok content) : fs.readBytes p = .ok content := by
  rw [readBytes, find] at h ⊢
  cases target_without hPlace p with
  | fails hBefore hAfter => rwa [hBefore, ← hAfter]
  | behind _ hAfter =>
    rw [hAfter] at h
    cases h
  | @leads t hBefore hAfter =>
    rw [hAfter] at h
    rw [hBefore]
    cases t with
    | directory loc => cases h
    | missing loc name => cases h
    | file loc name content' =>
      rw [Target.without] at h
      split_ifs at h
      exact h

end FileSystem

end FuncSpans
