import FuncSpans.Proofs.Record.Order
import FuncSpans.Proofs.Text.Utf8

/-!
# The log of a store

A store is made from nothing by inserting records, by making groups and by merging stores that have
been made in the same way (`Build`). The log of all that is a list of events, in which a merge
stands for the log of the merged store. `Build.isReplay` says that the log tells the whole store:
its groups are those that an event names, and the records of a group are those inserted into it, in
the order of the log. `Build.replays_log` lists what follows for the store.
-/

namespace FuncSpans.Store

/-- What happens to a store: a record is put into its group, or a group is made if it is missing. -/
inductive Event where
  | insert (r : Record)
  | ensure (name : String)

namespace Event

/-- The group that is named. -/
def group : Event → String
  | insert r => r.group
  | ensure name => name

/-- The record that is inserted, if there is one. -/
def record? : Event → Option Record
  | insert r => some r
  | ensure _ => none

/-- The store to which nothing else has happened. -/
def single : Event → Store
  | insert r => empty.insert r
  | ensure name => empty.ensure name

end Event

/-- The records that are inserted, in the order of the log. -/
def inserted (log : List Event) : List Record := log.filterMap Event.record?

/-- The records that are inserted into one group. -/
def insertedInto (log : List Event) (name : String) : List Record :=
  (inserted log).filter (·.group = name)

/-- How a store is made. -/
inductive Build where
  | new
  | insert (b : Build) (r : Record)
  | ensure (b : Build) (name : String)
  /-- A store that has been made on its own is merged. -/
  | merge (b c : Build)

namespace Build

/-- The store that is made. -/
def store : Build → Store
  | new => .empty
  | insert b r => b.store.insert r
  | ensure b name => b.store.ensure name
  | merge b c => b.store.merge c.store

/-- All that happens, a merge being all that has happened to the merged store. -/
def log : Build → List Event
  | new => []
  | insert b r => b.log ++ [.insert r]
  | ensure b name => b.log ++ [.ensure name]
  | merge b c => b.log ++ c.log

end Build

/-! ## The store that a log tells -/

/-- The store holds just what the log tells. -/
structure IsReplay (s : Store) (log : List Event) : Prop where
  get?_eq : ∀ name, s.get? name =
    if name ∈ log.map Event.group then some (insertedInto log name) else none

namespace IsReplay

variable {s t : Store} {log log' : List Event}

theorem insertedInto_append (log log' : List Event) (name : String) :
    insertedInto (log ++ log') name = insertedInto log name ++ insertedInto log' name := by
  simp only [insertedInto, inserted, List.filterMap_append, List.filter_append]

theorem insertedInto_of_notMem {name : String} (h : name ∉ log.map Event.group) :
    insertedInto log name = [] := by
  refine List.filter_eq_nil_iff.mpr fun r hr he => h ?_
  obtain ⟨e, hMem, hRecord⟩ := List.mem_filterMap.mp hr
  refine List.mem_map.mpr ⟨e, hMem, ?_⟩
  cases e with
  | insert q =>
    cases hRecord
    exact of_decide_eq_true he
  | ensure _ => cases hRecord

protected theorem empty : IsReplay .empty [] := ⟨fun _ => rfl⟩

protected theorem single (e : Event) : IsReplay e.single [e] := by
  have hEmpty (name : String) : empty.get? name = none := rfl
  cases e with
  | insert r =>
    refine ⟨fun name => ?_⟩
    rw [Event.single, insert, get?_append, hEmpty, Option.merge_none_left]
    by_cases h : name = r.group
    · simp [Event.group, insertedInto, inserted, Event.record?, h]
    · simp [Event.group, h]
  | ensure n =>
    refine ⟨fun name => ?_⟩
    rw [Event.single, ensure, get?_append, hEmpty, Option.merge_none_left]
    by_cases h : name = n
    · simp [Event.group, insertedInto, inserted, Event.record?, h]
    · simp [Event.group, h]

/-- A merge is told by the one log with the other one behind it. Group by group the records come in
the order of the logs, whatever the order in which the groups are merged. -/
theorem merge (hs : IsReplay s log) (ht : IsReplay t log') :
    IsReplay (s.merge t) (log ++ log') := by
  refine ⟨fun name => ?_⟩
  rw [get?_merge, hs.get?_eq, ht.get?_eq, insertedInto_append]
  simp only [List.map_append, List.mem_append]
  by_cases h : name ∈ log.map Event.group <;> by_cases h' : name ∈ log'.map Event.group
  · simp [h, h']
  · simp [h, h', insertedInto_of_notMem h']
  · simp [h, h', insertedInto_of_notMem h]
  · simp [h, h']

theorem mem_names_iff (h : IsReplay s log) {name : String} :
    name ∈ s.names ↔ ∃ e ∈ log, e.group = name := by
  rw [Store.mem_names_iff, h.get?_eq, ← List.mem_map]
  by_cases hMem : name ∈ log.map Event.group <;> simp [hMem]

theorem eq_of_mem (h : IsReplay s log) {name : String} {rs : List Record}
    (hMem : (name, rs) ∈ s.groups) : rs = insertedInto log name := by
  have hGet : s.get? name = some rs := s.ordered.mem_iff.mp hMem
  rw [h.get?_eq] at hGet
  split_ifs at hGet
  exact (Option.some.inj hGet).symm

/-- The groups with their records. -/
theorem groups_eq (h : IsReplay s log) :
    s.groups = s.names.map fun name => (name, insertedInto log name) := by
  rw [names, List.map_map]
  conv_lhs => rw [← List.map_id s.groups]
  refine List.map_congr_left fun g hg => ?_
  exact congrArg (g.1, ·) (h.eq_of_mem hg)

theorem size_eq (h : IsReplay s log) : s.size = (log.map Event.group).dedup.length := by
  have hNodup : s.names.Nodup := List.Pairwise.imp (fun hLt => hLt.ne) s.ordered.names
  have hPerm : s.names.Perm (log.map Event.group).dedup :=
    (List.perm_ext_iff_of_nodup hNodup (List.nodup_dedup _)).mpr fun name => by
      rw [h.mem_names_iff, List.mem_dedup, List.mem_map]
  rw [← hPerm.length_eq, names, List.length_map, size]

end IsReplay

/-! ## The store that is made -/

namespace Build

theorem isReplay (b : Build) : IsReplay b.store b.log := by
  induction b with
  | new => exact .empty
  | insert b r ih => exact ih.merge (.single (.insert r))
  | ensure b name ih => exact ih.merge (.single (.ensure name))
  | merge b c hb hc => exact hb.merge hc

theorem total_eq (b : Build) : b.store.total = (inserted b.log).length := by
  have hLog (log log' : List Event) :
      (inserted (log ++ log')).length = (inserted log).length + (inserted log').length := by
    rw [inserted, List.filterMap_append, List.length_append, inserted, inserted]
  induction b with
  | new => rfl
  | insert b r ih =>
    rw [log, hLog, ← ih]
    exact total_merge b.store (Event.single (.insert r))
  | ensure b name ih =>
    rw [log, hLog, ← ih]
    exact total_merge b.store (Event.single (.ensure name))
  | merge b c hb hc =>
    rw [log, hLog, ← hb, ← hc]
    exact total_merge b.store c.store

/-- The grouped store is the replay of its log: it has the groups that an event names, in the order
of their bytes and each once, and in a group all the records that have been inserted into it, in the
order of the log and just as they were. So every record is in its own group, and none is counted
twice or lost. Stores are merged associatively, and the empty one changes nothing. -/
theorem replays_log (b c d : Build) :
    (∀ name, name ∈ b.store.names ↔ ∃ e ∈ b.log, e.group = name) ∧
    (b.store.names.Pairwise fun m n => Utf8.ofString m < Utf8.ofString n) ∧
    b.store.groups = (b.store.names.map fun name =>
      (name, (b.log.filterMap Event.record?).filter (·.group = name))) ∧
    (∀ name, b.store.get? name = if name ∈ b.store.names then
      some ((b.log.filterMap Event.record?).filter (·.group = name)) else none) ∧
    (∀ name rs, (name, rs) ∈ b.store.groups → ∀ r ∈ rs, r.group = name) ∧
    b.store.total = (b.log.filterMap Event.record?).length ∧
    b.store.size = (b.log.map Event.group).dedup.length ∧
    (b.store.merge c.store).merge d.store = b.store.merge (c.store.merge d.store) ∧
    Store.empty.merge b.store = b.store ∧ b.store.merge .empty = b.store := by
  have hReplay := b.isReplay
  refine ⟨fun _ => hReplay.mem_names_iff, ?_, hReplay.groups_eq, fun name => ?_,
    fun name rs hMem r hr => ?_, b.total_eq, hReplay.size_eq,
    merge_assoc _ _ _, empty_merge _, merge_empty _⟩
  · exact b.store.ordered.names.imp Utf8.ofString_lt_iff.mpr
  · simp only [hReplay.get?_eq, hReplay.mem_names_iff, List.mem_map]
    rfl
  · rw [hReplay.eq_of_mem hMem] at hr
    exact of_decide_eq_true (List.mem_filter.mp hr).2

end Build

end FuncSpans.Store
