import FuncSpans.Record.Store
import Mathlib.Data.List.Dedup
import Mathlib.Data.String.Basic

/-!
# Stores in order

A store keeps its groups in the order of their names, each name once. So it is known by what `get?`
finds in it (`Store.ext_get?`), and of a merge that is said at once: the records that the one store
has in a group, then those of the other one (`get?_merge`). To insert a record or to make a group is
to merge a store of one group, so nothing has to be said of these two.
-/

namespace FuncSpans

namespace Groups

variable {α β : Type} {gs hs : List (String × α)} {name : String}

theorem Ordered.names (h : Ordered gs) : (gs.map Prod.fst).Pairwise (· < ·) :=
  List.pairwise_map.mpr h

theorem lookup_cons (g : String × α) (gs : List (String × α)) (name : String) :
    (g :: gs).lookup name = if name = g.1 then some g.2 else gs.lookup name := by
  rw [List.lookup_cons]
  by_cases h : name = g.1
  · rw [if_pos h, h, beq_self_eq_true]
  · rw [if_neg h, beq_eq_false_iff_ne.mpr h]

theorem lookup_of_forall_lt (h : ∀ g ∈ gs, name < g.1) : gs.lookup name = none :=
  List.lookup_eq_none_iff.mpr fun g hg => by simpa using (h g hg).ne

/-- What stands in an ordered list is what is found in it. -/
theorem Ordered.mem_iff (h : Ordered gs) {a : α} : (name, a) ∈ gs ↔ gs.lookup name = some a := by
  induction gs with
  | nil => simp
  | cons g gs ih =>
    obtain ⟨n, b⟩ := g
    obtain ⟨hFirst, hRest⟩ := List.pairwise_cons.mp h
    rw [List.mem_cons, Prod.mk.injEq, lookup_cons]
    by_cases he : name = n
    · have hAbsent : (name, a) ∉ gs := fun hMem => (hFirst _ hMem).ne he.symm
      simp [he ▸ hAbsent, he, eq_comm]
    · simp [he, ih hRest]

/-- Ordered lists in which the same is found are the same. -/
theorem Ordered.ext (hg : Ordered gs) (hh : Ordered hs)
    (h : ∀ name, gs.lookup name = hs.lookup name) : gs = hs := by
  have hNodup {ks : List (String × α)} (hk : Ordered ks) : ks.Nodup :=
    List.Pairwise.imp (fun hLt he => hLt.ne (congrArg Prod.fst he)) hk
  have hPerm : gs.Perm hs := (List.perm_ext_iff_of_nodup (hNodup hg) (hNodup hh)).mpr
    fun g => by rw [← Prod.mk.eta (p := g), hg.mem_iff, hh.mem_iff, h]
  exact hPerm.eq_of_pairwise (fun _ _ _ _ hLt hGt => (lt_asymm hLt hGt).elim) hg hh

theorem Ordered.map (h : Ordered gs) (f : α → β) :
    Ordered (gs.map fun g => (g.1, f g.2)) := List.pairwise_map.mpr h

theorem lookup_map (f : α → β) :
    (gs.map fun g => (g.1, f g.2)).lookup name = (gs.lookup name).map f := by
  induction gs with
  | nil => rfl
  | cons g gs ih =>
    rw [List.map_cons, lookup_cons, lookup_cons, ih]
    split_ifs <;> rfl

end Groups

namespace Store

variable {gs : List (String × List Record)} {s t u : Store} {name : String}

/-! ## Groups -/

theorem lookup_appendTo (h : Groups.Ordered gs) (rs : List Record) (n : String) :
    (appendTo name rs gs).lookup n =
      (gs.lookup n).merge (· ++ ·) (if n = name then some rs else none) := by
  induction gs with
  | nil => rw [appendTo, Groups.lookup_cons, List.lookup_nil, Option.merge_none_left]
  | cons g gs ih =>
    obtain ⟨hFirst, hRest⟩ := List.pairwise_cons.mp h
    rw [appendTo]
    by_cases hLt : name < g.1
    · have hNone (hn : n = name) : (g :: gs).lookup n = none :=
        Groups.lookup_of_forall_lt fun g' hg' => by
          rcases List.mem_cons.mp hg' with rfl | hg'
          · exact hn ▸ hLt
          · exact hn ▸ hLt.trans (hFirst g' hg')
      rw [if_pos hLt, Groups.lookup_cons]
      by_cases hn : n = name
      · rw [if_pos hn, if_pos hn, hNone hn, Option.merge_none_left]
      · rw [if_neg hn, if_neg hn, Option.merge_none_right]
    · rw [if_neg hLt, Groups.lookup_cons g]
      by_cases he : name = g.1
      · rw [if_pos he, Groups.lookup_cons, he]
        by_cases hn : n = g.1
        · rw [if_pos hn, if_pos hn, if_pos hn, Option.merge_some_some]
        · rw [if_neg hn, if_neg hn, if_neg hn, Option.merge_none_right]
      · rw [if_neg he, Groups.lookup_cons, ih hRest]
        by_cases hn : n = g.1
        · rw [if_pos hn, if_pos hn, if_neg fun hName => he (hName.symm.trans hn),
            Option.merge_none_right]
        · rw [if_neg hn, if_neg hn]

/-! ## Stores -/

/-- The names of the groups. -/
def names (s : Store) : List String := s.groups.map Prod.fst

theorem ext_groups (h : s.groups = t.groups) : s = t := by
  cases s
  cases t
  cases h
  rfl

theorem ext_get? (h : ∀ name, s.get? name = t.get? name) : s = t :=
  ext_groups (s.ordered.ext t.ordered h)

theorem mem_names_iff : name ∈ s.names ↔ s.get? name ≠ none := by
  rw [get?, ne_eq, List.lookup_eq_none_iff, names, List.mem_map]
  constructor
  · rintro ⟨g, hg, rfl⟩ hAll
    simpa using hAll g hg
  · intro h
    by_contra hAbsent
    exact h fun g hg => by simpa using fun he => hAbsent ⟨g, hg, he.symm⟩

theorem get?_append (s : Store) (name : String) (rs : List Record) (n : String) :
    (s.append name rs).get? n =
      (s.get? n).merge (· ++ ·) (if n = name then some rs else none) :=
  lookup_appendTo s.ordered rs n

/-- A merge has the records of the one store, then those of the other one. -/
theorem get?_merge (s t : Store) (name : String) :
    (s.merge t).get? name = (s.get? name).merge (· ++ ·) (t.get? name) := by
  obtain ⟨hs, ht⟩ := t
  rw [merge]
  induction hs generalizing s with
  | nil => exact (Option.merge_none_right ..).symm
  | cons h hs ih =>
    obtain ⟨hFirst, hRest⟩ := List.pairwise_cons.mp ht
    refine (ih (s.append h.1 h.2) hRest).trans ?_
    rw [get?_append]
    simp only [get?]
    by_cases hn : name = h.1
    · have hNone : hs.lookup name = none :=
        Groups.lookup_of_forall_lt fun g hg => hn ▸ hFirst g hg
      rw [if_pos hn, hNone, Option.merge_none_right, Groups.lookup_cons, if_pos hn]
    · rw [if_neg hn, Option.merge_none_right, Groups.lookup_cons, if_neg hn]

theorem merge_assoc (s t u : Store) : (s.merge t).merge u = s.merge (t.merge u) := by
  refine ext_get? fun name => ?_
  simp only [get?_merge]
  exact (Option.associative_merge _).assoc _ _ _

theorem merge_empty (s : Store) : s.merge empty = s := rfl

theorem empty_merge (s : Store) : empty.merge s = s := by
  refine ext_get? fun name => ?_
  rw [get?_merge]
  exact Option.merge_none_left ..

theorem total_append (s : Store) (name : String) (rs : List Record) :
    (s.append name rs).total = s.total + rs.length := by
  obtain ⟨gs, hs⟩ := s
  simp only [append, total, records]
  clear hs
  induction gs with
  | nil => simp [appendTo]
  | cons g gs ih =>
    simp only [List.length_flatMap] at ih ⊢
    rw [appendTo]
    split_ifs <;> simp [ih] <;> omega

theorem total_merge (s t : Store) : (s.merge t).total = s.total + t.total := by
  obtain ⟨hs, ht⟩ := t
  rw [merge]
  induction hs generalizing s with
  | nil => rfl
  | cons h hs ih =>
    refine (ih (s.append h.1 h.2) ht.of_cons).trans ?_
    rw [total_append]
    simp only [total, records, List.flatMap_cons, List.length_append]
    omega

end Store

end FuncSpans
