import FuncSpans.Proofs.Files.Removal

/-!
# Written files

A file that is written is read back by the path that it was written by (`readBytes_write`), and
nothing else in the tree changes: without what stands at its place, the tree is the one before
(`write_eq_ok`).
-/

namespace FuncSpans

/-! ## Putting nodes in the place of others -/

namespace Entries

variable {place way : List Bytes} {name : Bytes} {node node' : Node} {es : Entries}

theorem lookup_put_self (es : Entries) (name : Bytes) (node : Node) :
    (es.put name node).lookup name = some node := by
  induction es with
  | nil => simp [put]
  | cons e es ih =>
    obtain ⟨m, x⟩ := e
    rw [put]
    split_ifs with hName
    · exact List.lookup_cons_self
    · exact List.lookup_cons_self
    · rw [List.lookup_cons, beq_false_of_ne hName]
      exact ih

theorem without_put_of_eq (hPlace : way ++ [name] = place) (es : Entries) (node : Node) :
    without place way (es.put name node) = without place way es := by
  induction es with
  | nil => simp only [put, without, if_pos hPlace]
  | cons e es ih =>
    obtain ⟨m, x⟩ := e
    rw [put]
    split_ifs with hName
    · rw [← hName, without, without, if_pos hPlace, if_pos hPlace]
    · rw [without, if_pos hPlace]
    · rw [without, without, ih]

/-- A node in the place of one that is the same but for what stands at a place. -/
theorem without_put_of_lookup (hes : es.WellFormed) (hLookup : es.lookup name = some node)
    (hNode : node'.without place (way ++ [name]) = node.without place (way ++ [name])) :
    without place way (es.put name node') = without place way es := by
  induction es with
  | nil => cases hLookup
  | cons e es ih =>
    obtain ⟨m, x⟩ := e
    obtain ⟨-, hBefore, -, hTail⟩ := hes
    rw [put]
    split_ifs with hName hFirst
    · rw [hName, List.lookup_cons_self] at hLookup
      cases hLookup
      rw [without, without, ← hName, hNode]
    · -- A name that comes before the first one is not in the directory.
      have hMem := mem_of_lookup hLookup
      rcases List.mem_cons.mp hMem with h | hMem
      · exact (hName (congrArg Prod.fst h)).elim
      · have hLoop := Bytes.before_trans hFirst (hBefore _ hMem)
        rw [Bytes.not_before_self] at hLoop
        cases hLoop
    · rw [List.lookup_cons, beq_false_of_ne hName] at hLookup
      rw [without, without, ih hTail hLookup]

end Entries

namespace FileSystem

variable {fs fs' : FileSystem} {place : List Bytes} {loc : Location} {es : Entries}

/-! ## Trees with new entries at a place -/

theorem node?_rebuild (fs : FileSystem) (loc : Location) (es : Entries) {rest : List Bytes}
    (hNe : rest ≠ []) : Entries.node? (loc.way ++ rest) (fs.rebuild loc es) = es.node? rest := by
  induction loc generalizing es rest with
  | nil => rfl
  | cons e loc ih =>
    rw [Location.way_cons, List.append_assoc, List.singleton_append, rebuild, ih _ (by simp)]
    exact Entries.node?_cons hNe (Entries.lookup_put_self ..)

theorem without_rebuild (hFs : fs.WellFormed) (hLoc : fs.IsPlace loc)
    (hSame : Entries.without place loc.way es =
      Entries.without place loc.way (fs.entriesAt loc)) :
    Entries.without place [] (fs.rebuild loc es) = Entries.without place [] fs.top := by
  induction loc generalizing es with
  | nil => exact hSame
  | cons e loc ih =>
    obtain ⟨name, es'⟩ := e
    refine ih hLoc.1 (Entries.without_put_of_lookup (hLoc.1.entriesAt hFs) hLoc.2 ?_)
    rw [Location.way_cons] at hSame
    exact congrArg Node.directory hSame

/-! ## Writing -/

/-- Writing puts a file where a path leads, and changes nothing else. -/
theorem write_eq_ok (hFs : fs.WellFormed) {p : Path} {content : Bytes}
    (h : fs.write p content = .ok fs') :
    ∃ t place, fs.target p = .ok t ∧ t.place? = some place ∧
      fs'.node? place = some (.file content) ∧ fs'.without place = fs.without place := by
  have hPut {loc : Location} (hLoc : fs.IsPlace loc) (name : Bytes) :
      let fs' := { fs with top := fs.rebuild loc ((fs.entriesAt loc).put name (.file content)) }
      fs'.node? (loc.way ++ [name]) = some (.file content) ∧
        fs'.without (loc.way ++ [name]) = fs.without (loc.way ++ [name]) := by
    refine ⟨?_, ?_⟩
    · exact (node?_rebuild fs loc _ (by simp)).trans (Entries.lookup_put_self ..)
    · exact congrArg (FileSystem.mk · fs.current)
        (without_rebuild hFs hLoc (Entries.without_put_of_eq rfl _ _))
  cases ht : fs.target p with
  | error e => rw [write, ht] at h; cases h
  | ok t =>
    have hStands := stands_of_target ht
    rw [write, ht] at h
    cases t with
    | directory loc => cases h
    | file loc name content' => cases h; exact ⟨_, _, rfl, rfl, hPut hStands.1 name⟩
    | missing loc name => cases h; exact ⟨_, _, rfl, rfl, hPut hStands.1 name⟩

/-- A file that is written is read back by the same path. -/
theorem readBytes_write (hFs : fs.WellFormed) {p : Path} {content : Bytes}
    (h : fs.write p content = .ok fs') : fs'.readBytes p = .ok content := by
  obtain ⟨t, place, hTarget, hAt, hNode, hSame⟩ := write_eq_ok hFs h
  have hOnly : fs'.FileOrNothing place := fun node hn =>
    ⟨content, Option.some.inj (hn.symm.trans hNode)⟩
  -- Both trees lead by the path to the same place, as the tree without the file does.
  have hWithout : (fs.without place).target p = .ok (t.without place) := by
    cases target_without (fileOrNothing_of_target hTarget hAt) p with
    | leads hBefore hAfter => rwa [← Except.ok.inj (hTarget.symm.trans hBefore)] at hAfter
    | fails hBefore => cases hTarget.symm.trans hBefore
    | behind hBefore => cases hTarget.symm.trans hBefore
  rw [← hSame] at hWithout
  cases target_without hOnly p with
  | fails _ hAfter => cases hWithout.symm.trans hAfter
  | behind _ hAfter => cases hWithout.symm.trans hAfter
  | @leads t' ht hAfter =>
    have hAt' : t'.place? = some place := by
      rw [← Target.place?_without place, ← Except.ok.inj (hWithout.symm.trans hAfter),
        Target.place?_without, hAt]
    have hStands := stands_of_target ht
    rw [readBytes, find, ht]
    cases t' with
    | directory loc => cases hAt'
    | file loc name content' =>
      cases hAt'
      rw [hStands.1.node?_concat, hStands.2] at hNode
      cases hNode
      rfl
    | missing loc name =>
      cases hAt'
      rw [hStands.1.node?_concat, hStands.2] at hNode
      cases hNode

/-- Without a file, the same paths can be written to. -/
theorem isOk_write_without (hPlace : fs.FileOrNothing place) (p : Path) (content : Bytes) :
    ((fs.without place).write p content).isOk = (fs.write p content).isOk := by
  rw [write, write]
  cases target_without hPlace p with
  | fails hBefore hAfter => rw [hBefore, hAfter]
  | behind hBefore hAfter => rw [hBefore, hAfter]; rfl
  | @leads t hBefore hAfter =>
    rw [hBefore, hAfter]
    cases t with
    | directory loc => rfl
    | missing loc name => rfl
    | file loc name content' =>
      rw [Target.without]
      split_ifs <;> rfl

end FileSystem

end FuncSpans
