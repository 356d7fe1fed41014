import FuncSpans.Record.Store

/-!
# Adding records to a store

Records that come to one group one after the other might as well come all at once
(`Store.foldl_insert`). So a store in which only one group has been made is merged into another
store by the steps that have made it (`Store.merge_foldl_insert`).
-/

namespace FuncSpans.Store

theorem appendTo_appendTo (name : String) (rs rs' : List Record)
    (gs : List (String × List Record)) :
    appendTo name rs' (appendTo name rs gs) = appendTo name (rs ++ rs') gs := by
  induction gs with
  | nil => simp [appendTo]
  | cons g gs ih =>
    obtain ⟨n, rs₀⟩ := g
    by_cases hLt : name < n
    · simp [appendTo, hLt]
    · by_cases he : name = n
      · subst he
        simp [appendTo]
      · simp [appendTo, hLt, he, ih]

theorem append_append (s : Store) (name : String) (rs rs' : List Record) :
    (s.append name rs).append name rs' = s.append name (rs ++ rs') := by
  simp only [append, appendTo_appendTo]

/-- Records of one group, added one after the other. -/
theorem foldl_insert {name : String} {rs : List Record} (h : ∀ r ∈ rs, r.group = name)
    (s : Store) : rs.foldl insert (s.ensure name) = s.append name rs := by
  have hAux : ∀ earlier : List Record, rs.foldl insert (s.append name earlier) =
      s.append name (earlier ++ rs) := by
    induction rs with
    | nil => simp
    | cons r rs ih =>
      intro earlier
      rw [List.foldl_cons, insert, h r List.mem_cons_self, append_append,
        ih fun q hq => h q (List.mem_cons_of_mem _ hq), List.append_assoc, List.singleton_append]
  exact hAux []

/-- A store that holds one group is merged by adding the records of the group. -/
theorem merge_foldl_insert {name : String} {rs : List Record} (h : ∀ r ∈ rs, r.group = name)
    (s : Store) : s.merge (rs.foldl insert (empty.ensure name)) =
      rs.foldl insert (s.ensure name) := by
  rw [foldl_insert h, foldl_insert h]
  rfl

end FuncSpans.Store
