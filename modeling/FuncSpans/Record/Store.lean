import FuncSpans.Record.Basic
import FuncSpans.Number.Binary64
import FuncSpans.Statistics.Sample

/-!
# The grouped store

A `Store` holds records under the names of their groups. Groups are in the order of their
names; the records of a group are in the order in which they came. A group may be empty.
-/

namespace FuncSpans

/-- The names come in order, each of them once. -/
def Groups.Ordered {α : Type} (gs : List (String × α)) : Prop := gs.Pairwise fun g h => g.1 < h.1

instance {α : Type} (gs : List (String × α)) : Decidable (Groups.Ordered gs) :=
  inferInstanceAs (Decidable (gs.Pairwise fun g h => g.1 < h.1))

/-- Records by group. -/
structure Store where
  groups : List (String × List Record)
  ordered : Groups.Ordered groups
  deriving DecidableEq

namespace Store

def empty : Store := ⟨[], .nil⟩

instance : Inhabited Store := ⟨empty⟩

/-- Appends records to a group among others, which is made if it is missing. -/
def appendTo (name : String) (rs : List Record) :
    List (String × List Record) → List (String × List Record)
  | [] => [(name, rs)]
  | (n, rs') :: gs =>
    if name < n then (name, rs) :: (n, rs') :: gs
    else if name = n then (n, rs' ++ rs) :: gs
    else (n, rs') :: appendTo name rs gs

section

variable {gs : List (String × List Record)} {name : String}

theorem mem_names_appendTo {rs : List Record} {g : String × List Record}
    (h : g ∈ appendTo name rs gs) : g.1 = name ∨ ∃ g' ∈ gs, g'.1 = g.1 := by
  induction gs with
  | nil => exact Or.inl (by simpa [appendTo] using congrArg Prod.fst (List.mem_singleton.mp h))
  | cons g₀ gs ih =>
    rw [appendTo] at h
    split at h
    · rcases List.mem_cons.mp h with rfl | h
      · exact Or.inl rfl
      · exact Or.inr ⟨g, h, rfl⟩
    split at h
    · rename_i he
      rcases List.mem_cons.mp h with rfl | h
      · exact Or.inl he.symm
      · exact Or.inr ⟨g, List.mem_cons_of_mem _ h, rfl⟩
    · rcases List.mem_cons.mp h with rfl | h
      · exact Or.inr ⟨g₀, List.mem_cons_self, rfl⟩
      · exact (ih h).imp_right fun ⟨g', hg', he'⟩ => ⟨g', List.mem_cons_of_mem _ hg', he'⟩

theorem ordered_appendTo (h : Groups.Ordered gs) (rs : List Record) :
    Groups.Ordered (appendTo name rs gs) := by
  induction gs with
  | nil => exact List.pairwise_singleton _ _
  | cons g gs ih =>
    obtain ⟨hFirst, hRest⟩ := List.pairwise_cons.mp h
    rw [appendTo]
    split
    · rename_i hLt
      refine h.cons fun g' hg' => ?_
      rcases List.mem_cons.mp hg' with rfl | hg'
      · exact hLt
      · exact String.lt_trans hLt (hFirst g' hg')
    rename_i hLt
    split
    · exact hRest.cons hFirst
    · rename_i he
      refine (ih hRest).cons fun g' hg' => ?_
      rcases mem_names_appendTo hg' with he' | ⟨g'', hg'', he'⟩
      · exact he' ▸ Std.lt_of_le_of_ne (String.not_lt.mp hLt) (Ne.symm he)
      · exact he' ▸ hFirst g'' hg''

end

/-- Appends records to a group, which is made if it is missing. -/
def append (s : Store) (name : String) (rs : List Record) : Store :=
  ⟨appendTo name rs s.groups, ordered_appendTo s.ordered rs⟩

/-- Adds a record to its group. -/
def insert (s : Store) (r : Record) : Store := s.append r.group [r]

/-- Makes a group if it is missing. -/
def ensure (s : Store) (name : String) : Store := s.append name []

/-- Appends every group of another store. -/
def merge (s t : Store) : Store := t.groups.foldl (fun s (name, rs) => s.append name rs) s

/-- The records of a group, if there is such a group. -/
def get? (s : Store) (name : String) : Option (List Record) := s.groups.lookup name

/-- How many groups there are. -/
def size (s : Store) : Nat := s.groups.length

def isEmpty (s : Store) : Bool := s.groups.isEmpty

/-- All records, group by group. -/
def records (s : Store) : List Record := s.groups.flatMap (·.2)

/-- How many records there are. -/
def total (s : Store) : Nat := s.records.length

/-- The spans of some records as a sample. -/
def sampleOf (rs : List Record) : Sample Binary64 :=
  Sample.ofList (rs.map fun r => Quantity.ofNat r.lines)

/-- The summary of every group. -/
def summaries (s : Store) : List (String × Summary Binary64) :=
  s.groups.map fun (name, rs) => (name, Summary.ofSample (sampleOf rs))

/-- Whether two stores have the same groups with records that agree. -/
def agrees (s t : Store) : Bool :=
  s.groups.length == t.groups.length &&
    (s.groups.zip t.groups).all fun (g, h) =>
      g.1 == h.1 && g.2.length == h.2.length && (g.2.zip h.2).all fun (r, q) => r.agrees q

end Store

end FuncSpans
