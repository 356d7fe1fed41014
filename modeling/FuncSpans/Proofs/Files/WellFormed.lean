import FuncSpans.Files.Basic
import FuncSpans.Proofs.Path.Clean

/-!
# Well-formed trees

In a well-formed tree the entries of every directory have proper names and stand in the strict
order of the bytes of these names. Trees that are made by putting nodes under proper names into
well-formed trees are well-formed (`Entries.WellFormed.putAt`).

`Entries.Holds` says that a way of names leads to a node through directories only; no link is
followed on it.
-/

namespace FuncSpans

/-! ## The order of names -/

namespace Bytes

theorem before_iff_lt {a b : Bytes} : before a b = true ↔ a < b := by
  induction a generalizing b with
  | nil => cases b <;> simp [before]
  | cons x xs ih =>
    cases b with
    | nil => simp [before]
    | cons y ys => simp [before, ih, List.cons_lt_cons_iff]

theorem not_before_self (a : Bytes) : before a a = false := by
  rw [Bool.eq_false_iff, ne_eq, before_iff_lt]
  exact List.lt_irrefl a

theorem before_trans {a b c : Bytes} (hAb : before a b = true) (hBc : before b c = true) :
    before a c = true := by
  rw [before_iff_lt] at hAb hBc ⊢
  exact List.lt_trans hAb hBc

theorem before_of_not_before {a b : Bytes} (h : before a b = false) (hNe : a ≠ b) :
    before b a = true := by
  rw [before_iff_lt]
  rw [Bool.eq_false_iff, ne_eq, before_iff_lt] at h
  rcases List.le_iff_lt_or_eq.mp (List.not_lt.mp h) with hLt | he
  · exact hLt
  · exact (hNe he.symm).elim

end Bytes

/-! ## Well-formed nodes -/

mutual

/-- Every directory in the node has proper entries. -/
def Node.WellFormed : Node → Prop
  | .directory entries => Entries.WellFormed entries
  | .file _ | .link _ => True

/-- The entries have proper names in their strict order, and what stands under the names is
well-formed. -/
def Entries.WellFormed : Entries → Prop
  | [] => True
  | (name, node) :: entries =>
    Path.IsName name ∧ (∀ e ∈ entries, Bytes.before name e.1 = true) ∧ node.WellFormed ∧
      Entries.WellFormed entries

end

mutual

/-- Whether a node is well-formed. -/
def Node.decideWellFormed : (node : Node) → Decidable node.WellFormed
  | .directory entries => Entries.decideWellFormed entries
  | .file _ | .link _ => .isTrue trivial

/-- Whether entries are well-formed. -/
def Entries.decideWellFormed : (entries : List (Bytes × Node)) →
    Decidable (Entries.WellFormed entries)
  | [] => .isTrue trivial
  | (_, node) :: entries =>
    have := Node.decideWellFormed node
    have := Entries.decideWellFormed entries
    inferInstanceAs (Decidable (_ ∧ _))

end

instance (entries : Entries) : Decidable entries.WellFormed := Entries.decideWellFormed entries

namespace Entries

theorem WellFormed.isName {es : Entries} (h : es.WellFormed) {name : Bytes} {node : Node}
    (hMem : (name, node) ∈ es) : Path.IsName name := by
  induction es with
  | nil => cases hMem
  | cons e es ih =>
    obtain ⟨hName, _, _, hes⟩ := h
    rcases List.mem_cons.mp hMem with rfl | hMem
    · exact hName
    · exact ih hes hMem

theorem WellFormed.node {es : Entries} (h : es.WellFormed) {name : Bytes} {node : Node}
    (hMem : (name, node) ∈ es) : node.WellFormed := by
  induction es with
  | nil => cases hMem
  | cons e es ih =>
    obtain ⟨_, _, hNode, hes⟩ := h
    rcases List.mem_cons.mp hMem with rfl | hMem
    · exact hNode
    · exact ih hes hMem

theorem WellFormed.lookup {es : Entries} (h : es.WellFormed) {name : Bytes} {node : Node}
    (hMem : (name, node) ∈ es) : es.lookup name = some node := by
  induction es with
  | nil => cases hMem
  | cons e es ih =>
    obtain ⟨_, hBefore, _, hes⟩ := h
    rcases List.mem_cons.mp hMem with rfl | hMem
    · simp
    · have hNe : name ≠ e.1 := by
        intro he
        have := hBefore (name, node) hMem
        rw [he, Bytes.not_before_self] at this
        cases this
      rw [List.lookup_cons, beq_eq_false_iff_ne.mpr hNe]
      exact ih hes hMem

theorem mem_of_lookup {es : Entries} {name : Bytes} {node : Node}
    (h : es.lookup name = some node) : (name, node) ∈ es := by
  obtain ⟨l₁, l₂, rfl, _⟩ := List.lookup_eq_some_iff.mp h
  simp

/-! ## Making trees -/

theorem mem_put {es : Entries} {name : Bytes} {node : Node} {e : Bytes × Node}
    (h : e ∈ es.put name node) : e = (name, node) ∨ e ∈ es := by
  induction es with
  | nil => exact Or.inl (List.mem_singleton.mp h)
  | cons f es ih =>
    unfold put at h
    split at h
    · rcases List.mem_cons.mp h with h | h
      · exact Or.inl h
      · exact Or.inr (List.mem_cons_of_mem _ h)
    · split at h
      · rcases List.mem_cons.mp h with h | h
        · exact Or.inl h
        · exact Or.inr h
      · rcases List.mem_cons.mp h with h | h
        · exact Or.inr (h ▸ List.mem_cons_self)
        · exact (ih h).imp id (List.mem_cons_of_mem _)

theorem WellFormed.put {es : Entries} (h : es.WellFormed) {name : Bytes} {node : Node}
    (hName : Path.IsName name) (hNode : node.WellFormed) :
    (es.put name node).WellFormed := by
  induction es with
  | nil => exact ⟨hName, by simp, hNode, trivial⟩
  | cons e es ih =>
    obtain ⟨m, x⟩ := e
    obtain ⟨hm, hBefore, hx, hes⟩ := h
    unfold Entries.put
    split
    · rename_i he
      exact ⟨hName, he ▸ hBefore, hNode, hes⟩
    · rename_i hNe
      split
      · rename_i hLt
        refine ⟨hName, ?_, hNode, hm, hBefore, hx, hes⟩
        intro e he
        rcases List.mem_cons.mp he with rfl | he
        · exact hLt
        · exact Bytes.before_trans hLt (hBefore e he)
      · rename_i hLt
        refine ⟨hm, ?_, hx, ih hes⟩
        intro e he
        rcases mem_put he with rfl | he
        · exact Bytes.before_of_not_before (Bool.eq_false_iff.mpr hLt) hNe
        · exact hBefore e he

/-- Putting a well-formed node at the end of a way of proper names keeps a tree well-formed. -/
theorem WellFormed.putAt {es : Entries} (h : es.WellFormed) {way : List Bytes}
    {node : Node} (hWay : ∀ name ∈ way, Path.IsName name) (hNode : node.WellFormed) :
    (Entries.putAt way node es).WellFormed := by
  induction way generalizing es with
  | nil => exact h
  | cons name way ih =>
    have hName := hWay name List.mem_cons_self
    cases way with
    | nil => exact h.put hName hNode
    | cons next way =>
      refine h.put hName (ih ?_ fun n hn => hWay n (List.mem_cons_of_mem _ hn))
      split
      · rename_i inner hl
        exact h.node (mem_of_lookup hl)
      · exact trivial

/-! ## Ways -/

/-- A way of names leads to a node through directories. -/
inductive Holds : Entries → List Bytes → Node → Prop
  | entry {es : Entries} {name : Bytes} {node : Node} :
      (name, node) ∈ es → Holds es [name] node
  | inside {es inner : Entries} {name : Bytes} {way : List Bytes} {node : Node} :
      (name, .directory inner) ∈ es → Holds inner way node → Holds es (name :: way) node

theorem Holds.ne_nil {es : Entries} {way : List Bytes} {node : Node} (h : es.Holds way node) :
    way ≠ [] := by
  cases h <;> simp

theorem Holds.cons {e : Bytes × Node} {es : Entries} {way : List Bytes} {node : Node}
    (h : es.Holds way node) : Holds (e :: es) way node := by
  cases h with
  | entry hMem => exact .entry (List.mem_cons_of_mem _ hMem)
  | inside hMem h => exact .inside (List.mem_cons_of_mem _ hMem) h

theorem Holds.isName {es : Entries} {way : List Bytes} {node : Node} (h : es.Holds way node)
    (hes : es.WellFormed) : ∀ name ∈ way, Path.IsName name := by
  induction h with
  | entry hMem =>
    intro name hName
    rw [List.mem_singleton.mp hName]
    exact hes.isName hMem
  | inside hMem _ ih =>
    intro name hName
    rcases List.mem_cons.mp hName with rfl | hName
    · exact hes.isName hMem
    · exact ih (hes.node hMem) name hName

end Entries

/-- A tree of files whose directories are all well-formed. -/
def FileSystem.WellFormed (fs : FileSystem) : Prop := fs.top.WellFormed

instance (fs : FileSystem) : Decidable fs.WellFormed := inferInstanceAs (Decidable fs.top.WellFormed)

end FuncSpans
