import FuncSpans.Proofs.Number.Order
import FuncSpans.Proofs.Record.Order
import FuncSpans.Proofs.Record.Store
import Mathlib.Data.List.Forall2

/-!
# Statistics of multisets

A sample is sorted by a total order, so of its values only their multiset counts
(`Sample.ofList_congr`), and all that is said of a sample is the same for any order in which they
come, sums of machine numbers included. `Store.summaries_congr` takes this to stores: their
summaries are told by the spans of each group, in any order, and so a merge has the same summaries
from either side.
-/

namespace FuncSpans

namespace Sample

/-! ## Samples -/

theorem ofList_perm (xs : List Binary64) : (ofList xs).values.Perm xs := List.mergeSort_perm _ _

/-- Sorting forgets the order in which values come: no two of them stand at the same place. -/
theorem ofList_congr {xs ys : List Binary64} (h : xs.Perm ys) : ofList xs = ofList ys := by
  have hPerm : (ofList xs).values.Perm (ofList ys).values :=
    (ofList_perm xs).trans (h.trans (ofList_perm ys).symm)
  have hValues : (ofList xs).values = (ofList ys).values := by
    refine hPerm.eq_of_pairwise (fun x y _ _ hxy hyx => ?_) (ofList xs).sorted (ofList ys).sorted
    exact Binary64.place_inj (Int.le_antisymm (of_decide_eq_true hxy) (of_decide_eq_true hyx))
  cases hx : ofList xs
  cases hy : ofList ys
  simpa [hx, hy] using hValues

theorem rank_le (x : Binary64) (cap : Nat) : Quantity.rank x cap ≤ cap := by
  change Binary64.rank x cap ≤ cap
  unfold Binary64.rank
  split
  · exact Nat.zero_le _
  · split
    · exact Nat.zero_le _
    · exact Nat.le_refl _
    · exact Nat.min_le_left _ _

theorem mean_eq_none_iff {s : Sample Binary64} : s.mean = none ↔ s.values = [] := by
  simp [mean, isEmpty]

/-- A quantile is defined where there are values: two of them stand from the rank on. -/
theorem quantile_eq_none_iff {s : Sample Binary64} {p : Binary64} :
    s.quantile p = none ↔ s.values = [] := by
  unfold quantile
  split
  · rename_i h
    simp [h]
  · rename_i h
    simp [h]
  · rename_i x y rest h
    dsimp only
    split
    · simp [h]
    · rename_i hShort
      have hRank := rank_le (p * Quantity.ofNat (rest.length + 1)) rest.length
      generalize Quantity.rank (p * Quantity.ofNat (rest.length + 1)) rest.length = lower at *
      have hLength : ((x :: y :: rest).drop lower).length = rest.length + 2 - lower :=
        List.length_drop
      cases hDrop : (x :: y :: rest).drop lower with
      | nil =>
        rw [hDrop, List.length_nil] at hLength
        omega
      | cons a tail => cases tail with
        | nil =>
          rw [hDrop, List.length_singleton] at hLength
          omega
        | cons b tail => exact (hShort a b tail hDrop).elim

end Sample

/-! ## Summaries -/

namespace Summary

theorem fields_of_nil {s : Sample Binary64} (h : s.values = []) :
    (ofSample s).fields = [none, none, none, none] := by
  simp only [ofSample, fields, Sample.median, Sample.percentile, Sample.mean_eq_none_iff.mpr h,
    Sample.quantile_eq_none_iff.mpr h]

theorem fields_of_ne_nil {s : Sample Binary64} (h : s.values ≠ []) :
    ∀ field ∈ (ofSample s).fields, field ≠ none := by
  simp only [ofSample, fields, Sample.median, Sample.percentile, List.forall_mem_cons, ne_eq,
    Sample.mean_eq_none_iff, Sample.quantile_eq_none_iff]
  exact ⟨h, h, h, h, fun _ hMem => nomatch hMem⟩

end Summary

namespace Store

variable {s t : Store}

theorem sampleOf_values_eq_nil_iff {rs : List Record} : (sampleOf rs).values = [] ↔ rs = [] := by
  rw [← List.length_eq_zero_iff, sampleOf, (Sample.ofList_perm _).length_eq, List.length_map,
    List.length_eq_zero_iff]

theorem sampleOf_congr {rs qs : List Record}
    (h : (rs.map Record.lines).Perm (qs.map Record.lines)) : sampleOf rs = sampleOf qs := by
  have hMap (ps : List Record) : (ps.map fun r => (Quantity.ofNat r.lines : Binary64)) =
      (ps.map Record.lines).map Quantity.ofNat := by rw [List.map_map]; rfl
  rw [sampleOf, sampleOf, hMap, hMap]
  exact Sample.ofList_congr (h.map _)

/-- Stores with the same groups that have the same spans in each, in any order, have the same
summaries. -/
theorem summaries_congr (hNames : ∀ name, name ∈ s.names ↔ name ∈ t.names)
    (hSpans : ∀ name rs qs, s.get? name = some rs → t.get? name = some qs →
      (rs.map Record.lines).Perm (qs.map Record.lines)) : s.summaries = t.summaries := by
  have hOrdered (u : Store) : Groups.Ordered u.summaries :=
    u.ordered.map fun rs => Summary.ofSample (sampleOf rs)
  have hLookup (u : Store) (name : String) : u.summaries.lookup name =
      (u.get? name).map fun rs => Summary.ofSample (sampleOf rs) :=
    Groups.lookup_map fun rs => Summary.ofSample (sampleOf rs)
  refine (hOrdered s).ext (hOrdered t) fun name => ?_
  rw [hLookup, hLookup]
  have hName := hNames name
  rw [mem_names_iff, mem_names_iff] at hName
  cases hRs : s.get? name with
  | none => rw [not_not.mp fun hQs => hName.mpr hQs hRs]
  | some rs => cases hQs : t.get? name with
    | none => exact (hName.mp (by simp [hRs]) hQs).elim
    | some qs => rw [Option.map_some, Option.map_some, sampleOf_congr (hSpans name rs qs hRs hQs)]

/-- From which side two stores are merged makes no difference to the summaries. -/
theorem summaries_merge_comm (s t : Store) :
    (s.merge t).summaries = (t.merge s).summaries := by
  refine summaries_congr (fun name => ?_) fun name rs qs hRs hQs => ?_
  · rw [mem_names_iff, mem_names_iff, get?_merge, get?_merge]
    cases s.get? name <;> cases t.get? name <;> simp
  · rw [get?_merge] at hRs
    rw [get?_merge] at hQs
    cases hA : s.get? name <;> cases hB : t.get? name <;> rw [hA, hB] at hRs hQs <;>
      simp at hRs hQs <;> subst hRs hQs
    · exact .refl _
    · exact .refl _
    · rw [List.map_append, List.map_append]
      exact List.perm_append_comm

/-- Each group has its summary, which is undefined in all fields if the group is empty and in none
if it is not. -/
theorem summaries_defined (s : Store) : List.Forall₂ (fun group summary =>
    summary.1 = group.1 ∧ (group.2 = [] → summary.2.fields = [none, none, none, none]) ∧
    (group.2 ≠ [] → ∀ field ∈ summary.2.fields, field ≠ none)) s.groups s.summaries := by
  refine List.forall₂_map_right_iff.mpr (List.forall₂_same.mpr ?_)
  exact fun group _ => ⟨rfl,
    fun h => Summary.fields_of_nil (sampleOf_values_eq_nil_iff.mpr h),
    fun h => Summary.fields_of_ne_nil (mt sampleOf_values_eq_nil_iff.mp h)⟩

end Store

/-- Statistics see only the multiset of the spans of each group. A sample has its values in the
total order of IEEE 754, bit for bit, and so none of its statistics tells in what order they came;
stores with the same groups and the same spans in each have the same summaries, and a merge has the
same ones from either side; each group has its summary, with all fields undefined or none. -/
theorem statistics_of_multisets :
    (∀ xs : List Binary64, (Sample.ofList xs).values.Perm xs ∧
      (Sample.ofList xs).values.Pairwise fun x y => x = y ∨ x.Precedes y) ∧
    (∀ xs ys : List Binary64, xs.Perm ys →
      (Sample.ofList xs).values = (Sample.ofList ys).values ∧
      (Sample.ofList xs).mean = (Sample.ofList ys).mean ∧
      ∀ p, (Sample.ofList xs).quantile p = (Sample.ofList ys).quantile p) ∧
    (∀ s t : Store, (∀ name, name ∈ s.names ↔ name ∈ t.names) →
      (∀ name rs qs, s.get? name = some rs → t.get? name = some qs →
        (rs.map Record.lines).Perm (qs.map Record.lines)) → s.summaries = t.summaries) ∧
    (∀ s t : Store, (s.merge t).summaries = (t.merge s).summaries) ∧
    ∀ s : Store, List.Forall₂ (fun group summary =>
      summary.1 = group.1 ∧ (group.2 = [] → summary.2.fields = [none, none, none, none]) ∧
      (group.2 ≠ [] → ∀ field ∈ summary.2.fields, field ≠ none)) s.groups s.summaries := by
  refine ⟨fun xs => ⟨Sample.ofList_perm xs, ?_⟩, fun xs ys h => ?_,
    fun s t => Store.summaries_congr, Store.summaries_merge_comm,
    Store.summaries_defined⟩
  · exact (Sample.ofList xs).sorted.imp fun h => (Binary64.le_iff _ _).mp h
  · rw [Sample.ofList_congr h]
    exact ⟨rfl, rfl, fun _ => rfl⟩

/-- A group of two records with these spans. -/
def pairStore (first second : Nat) : Store :=
  (Store.empty.insert ⟨"g", "p", "f", [], 1, 1 + first⟩).insert ⟨"g", "p", "h", [], 10, 10 + second⟩

theorem get?_pairStore (first second : Nat) (name : String) :
    (pairStore first second).get? name = if name = "g" then
      some [⟨"g", "p", "f", [], 1, 1 + first⟩, ⟨"g", "p", "h", [], 10, 10 + second⟩] else none := by
  rw [pairStore, Store.insert, Store.insert, Store.append_append]
  exact Groups.lookup_cons ("g", _) [] name

/-- Two zeros of either sign, and two stores with the same spans, come to the same in any order. -/
theorem statistics_of_swapped_pairs :
    (Sample.ofList [(⟨0⟩ : Binary64), ⟨0x8000000000000000⟩]).values =
      (Sample.ofList [(⟨0x8000000000000000⟩ : Binary64), ⟨0⟩]).values ∧
    (pairStore 7 2).summaries = (pairStore 2 7).summaries ∧
    ((pairStore 7 2).merge (pairStore 3 1)).summaries =
      ((pairStore 3 1).merge (pairStore 7 2)).summaries := by
  obtain ⟨_, hSamples, hStores, hMerge, _⟩ := statistics_of_multisets
  refine ⟨(hSamples _ _ (List.Perm.swap _ _ [])).1,
    hStores _ _ (fun _ => Iff.rfl) fun name rs qs hRs hQs => ?_, hMerge _ _⟩
  rw [get?_pairStore] at hRs hQs
  split_ifs at hRs hQs
  obtain rfl := Option.some.inj hRs
  obtain rfl := Option.some.inj hQs
  exact List.Perm.swap _ _ []

end FuncSpans
