import FuncSpans.Proofs.Files.Removal
import FuncSpans.Proofs.Files.Spelling
import FuncSpans.Proofs.Path.Canonical

/-!
# Trees whose names are texts

A path that leads to something in a tree asks for names that stand there. So if all names in the
tree are texts, all names in the path are (`FileSystem.namesAreTexts_of_find`), and it is shown as
it is. Links do not matter: they are followed, but they are not written into the path.
-/

namespace FuncSpans

namespace Entries

/-- All names in a directory and below it are texts. -/
def NamesAreTexts (es : Entries) : Prop :=
  ∀ way node, es.Holds way node → ∀ name ∈ way, Utf8.isText name = true

theorem namesAreTexts_iff {es : Entries} : es.NamesAreTexts ↔
    ∀ name node, (name, node) ∈ es → Utf8.isText name = true ∧
      ∀ inner, node = .directory inner → Entries.NamesAreTexts inner := by
  constructor
  · intro h name node hMem
    refine ⟨h [name] node (.entry hMem) name List.mem_cons_self, ?_⟩
    rintro inner rfl way node hHolds n hn
    exact h (name :: way) node (.inside hMem hHolds) n (List.mem_cons_of_mem _ hn)
  · intro h way node hHolds
    cases hHolds with
    | entry hMem => exact List.forall_mem_singleton.mpr (h _ _ hMem).1
    | inside hMem hIn =>
      exact List.forall_mem_cons.mpr ⟨(h _ _ hMem).1, (h _ _ hMem).2 _ rfl _ _ hIn⟩

theorem namesAreTexts_nil : Entries.NamesAreTexts [] :=
  namesAreTexts_iff.mpr fun _ _ h => (List.not_mem_nil h).elim

theorem NamesAreTexts.cons {es : Entries} {name : Bytes} {node : Node}
    (hName : Utf8.isText name = true)
    (hNode : ∀ inner, node = .directory inner → Entries.NamesAreTexts inner)
    (h : es.NamesAreTexts) : Entries.NamesAreTexts ((name, node) :: es) := by
  refine namesAreTexts_iff.mpr fun name' node' hMem => ?_
  rcases List.mem_cons.mp hMem with he | hMem
  · cases he
    exact ⟨hName, hNode⟩
  · exact namesAreTexts_iff.mp h name' node' hMem

theorem NamesAreTexts.isText {es : Entries} (h : es.NamesAreTexts) {name : Bytes} {node : Node}
    (hLookup : es.lookup name = some node) : Utf8.isText name = true :=
  (namesAreTexts_iff.mp h name node (mem_of_lookup hLookup)).1

end Entries

namespace FileSystem

variable {fs : FileSystem}

/-- All names in a tree are texts. -/
def NamesAreTexts (fs : FileSystem) : Prop := Entries.NamesAreTexts fs.top

theorem IsPlace.namesAreTexts (hTexts : fs.NamesAreTexts) {loc : Location} (h : fs.IsPlace loc) :
    (fs.entriesAt loc).NamesAreTexts := by
  induction loc with
  | nil => exact hTexts
  | cons e loc ih =>
    exact (Entries.namesAreTexts_iff.mp (ih h.1) _ _ (Entries.mem_of_lookup h.2)).2 _ rfl

theorem isPlace_of_find {p : Path} {place : Location} (h : fs.find p = .ok (.directory place)) :
    fs.IsPlace place := stands_of_target (find_eq_directory.mp h)

/-- A way that leads to something asks for texts. -/
def AsksForTexts (fs : FileSystem) (next : List Bytes → Location → Except Fault Target) : Prop :=
  ∀ parts loc t, fs.IsPlace loc → next parts loc = .ok t → (∀ loc' name, t ≠ .missing loc' name) →
    ∀ part ∈ parts, Utf8.isText part = true

theorem AsksForTexts.follow (hTexts : fs.NamesAreTexts)
    {next : List Bytes → Location → Except Fault Target} (hNext : AsksForTexts fs next) :
    AsksForTexts fs (follow fs next) := by
  intro parts
  induction parts with
  | nil => exact fun _ _ _ _ _ part hPart => (List.not_mem_nil hPart).elim
  | cons part parts ih =>
    intro loc t hLoc h hThere
    have hName {node : Node} (hLookup : (fs.entriesAt loc).lookup part = some node) :
        Utf8.isText part = true := (hLoc.namesAreTexts hTexts).isText hLookup
    rw [List.forall_mem_cons]
    cases firstStep_of_follow h with
    | stay hPart h => exact ⟨hPart ▸ rfl, ih loc t hLoc h hThere⟩
    | up hPart h => exact ⟨hPart ▸ rfl, ih loc.tail t hLoc.tail h hThere⟩
    | @enter es _ hLookup h =>
      exact ⟨hName hLookup, ih ((part, es) :: loc) t ⟨hLoc, hLookup⟩ h hThere⟩
    | link hLookup h =>
      have hAll := hNext _ _ t (by split_ifs; exacts [trivial, hLoc]) h hThere
      exact ⟨hName hLookup, fun p hp => hAll p (List.mem_append_right _ hp)⟩
    | file hLast hLookup => exact ⟨hName hLookup, by simp [hLast]⟩
    | missing _ _ ht => exact (hThere _ _ ht).elim

theorem asksForTexts_followLinks (hTexts : fs.NamesAreTexts) (n : Nat) :
    AsksForTexts fs (followLinks fs n) := by
  induction n with
  | zero => exact AsksForTexts.follow hTexts fun _ _ _ _ h => by cases h
  | succ n ih => exact ih.follow hTexts

/-- The names in a path that leads to something in a tree of texts are texts. -/
theorem namesAreTexts_of_find (hTexts : fs.NamesAreTexts) {p : Path} {found : Found}
    (h : fs.find p = .ok found) : Path.NamesAreTexts p := by
  obtain ⟨t, hTarget, hThere⟩ : ∃ t, fs.target p = .ok t ∧ ∀ loc name, t ≠ .missing loc name := by
    unfold find at h
    split at h
    · cases h
    · cases h
    · exact ⟨_, by assumption, fun _ _ he => by cases he⟩
    · exact ⟨_, by assumption, fun _ _ he => by cases he⟩
  have hParts := asksForTexts_followLinks hTexts _ _ [] t trivial (target_eq_ok hTarget) hThere
  intro c hc
  have hMem : c.text ∈ (partsOf p).filter (· ≠ [Path.stop]) :=
    filter_partsOf p ▸ List.mem_map_of_mem hc
  exact hParts _ (List.mem_append_right _ (List.mem_filter.mp hMem).1)

end FileSystem

/-- Names below a path whose names are texts. -/
theorem Path.NamesAreTexts.below {p : Path} (h : p.NamesAreTexts) {way : List Bytes}
    (hNames : ∀ name ∈ way, IsName name) (hTexts : ∀ name ∈ way, Utf8.isText name = true) :
    Path.NamesAreTexts (p.below way) := by
  intro c hc
  rw [names_below hNames, List.mem_append] at hc
  rcases hc with hc | hc
  · exact h c hc
  · obtain ⟨name, hName, rfl⟩ := List.mem_map.mp hc
    exact hTexts name hName

end FuncSpans
