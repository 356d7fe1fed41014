import FuncSpans.Proofs.Files.Resolution
import FuncSpans.Proofs.Path.Relative

/-!
# Paths that lead to one place

Paths with the same steps lead to the same place, however they are written (`find_eq_ok_iff`): `.`
and repeated slashes do not count. Only at the end of a path they say that there has to be a
directory (`Open`).
-/

namespace FuncSpans

namespace Path

/-! ## Steps and bytes -/

theorem mem_split {p : Path} {x : UInt8} (hx : x ∈ p) : x = slash ∨ ∃ part ∈ p.split, x ∈ part := by
  induction p with
  | nil => cases hx
  | cons b bs ih =>
    by_cases hb : b = slash
    · subst hb
      rw [split_slash]
      rcases List.mem_cons.mp hx with rfl | hx
      · exact Or.inl rfl
      · exact (ih hx).imp_right fun ⟨part, hPart, hx⟩ => ⟨part, List.mem_cons_of_mem _ hPart, hx⟩
    · obtain ⟨part, parts, hs, he⟩ := split_cons hb bs
      rw [he]
      rw [hs] at ih
      rcases List.mem_cons.mp hx with rfl | hx
      · exact Or.inr ⟨_, List.mem_cons_self, List.mem_cons_self⟩
      · refine (ih hx).imp_right fun ⟨q, hq, hx⟩ => ?_
        rcases List.mem_cons.mp hq with rfl | hq
        · exact ⟨_, List.mem_cons_self, List.mem_cons_of_mem _ hx⟩
        · exact ⟨q, List.mem_cons_of_mem _ hq, hx⟩

/-- All bytes but slashes and stops are those of the steps. -/
theorem nul_mem_iff (p : Path) : 0 ∈ p ↔ ∃ c ∈ p.names, 0 ∈ c.text := by
  constructor
  · intro h
    obtain ⟨part, hPart, hx⟩ := (mem_split h).resolve_left (by decide)
    have hNone : ¬ (part = [] ∨ part = [stop]) := by
      rintro (rfl | rfl)
      · cases hx
      · exact absurd hx (by decide)
    obtain ⟨c, hc⟩ : ∃ c, Component.ofPart? part = some c := by
      unfold Component.ofPart?
      rw [if_neg hNone]
      split_ifs <;> exact ⟨_, rfl⟩
    exact ⟨c, List.mem_filterMap.mpr ⟨part, hPart, hc⟩, by rwa [Component.text_of_ofPart? hc]⟩
  · rintro ⟨c, hc, hx⟩
    obtain ⟨part, hPart, hp⟩ := exists_part_of_mem_names hc
    rw [Component.text_of_ofPart? hp] at hx
    exact mem_of_mem_split part hPart hx

theorem steps_eq_iff {p q : Path} :
    p.steps = q.steps ↔ p.isAbsolute = q.isAbsolute ∧ p.names = q.names := by
  have hRoot (r : Path) : .root ∉ r.names := fun h => by
    obtain ⟨part, _, hp⟩ := exists_part_of_mem_names h
    exact Component.ne_root_of_ofPart? hp rfl
  rw [steps_eq, steps_eq]
  refine ⟨fun h => ?_, fun ⟨ha, hn⟩ => by rw [ha, hn]⟩
  cases hp : p.isAbsolute <;> cases hq : q.isAbsolute <;> rw [hp, hq] at h
  · exact ⟨rfl, h⟩
  · exact (hRoot p ((List.nil_append p.names ▸ h : p.names = _) ▸ List.mem_cons_self)).elim
  · exact (hRoot q ((List.nil_append q.names ▸ h : _ = q.names) ▸ List.mem_cons_self)).elim
  · exact ⟨rfl, (List.cons.inj h).2⟩

end Path

namespace FileSystem

open FuncSpans.Path (slash stop)

/-! ## The end of a path -/

/-- A path says at its end that there has to be a directory. -/
def Open (p : Path) : Prop := (partsOf p).getLast? = some [stop]

instance (p : Path) : Decidable (Open p) := inferInstanceAs (Decidable (_ = _))

/-- A path that ends in a name says nothing of a directory. -/
theorem not_open_of_endOf {p : Path} {name : Bytes} (hName : Path.IsName name)
    (h : Glob.EndOf p name) : ¬ Open p := by
  obtain ⟨parts, hSplit⟩ : ∃ parts, p.split = parts ++ [name] := by
    have hLast := Path.split_eq_singleton hName.slash_notMem
    rcases h with rfl | ⟨front, rfl⟩
    · exact ⟨[], hLast⟩
    · exact ⟨Path.split front, by rw [← hLast]; exact Path.split_append_slash front name⟩
  rw [Open, partsOf, hSplit, List.getLast?_concat, if_neg (by simpa using hName.ne_nil),
    List.append_nil, List.filter_append, List.filter_cons_of_pos (by simpa using hName.ne_nil),
    List.filter_nil, List.getLast?_concat, Option.some.injEq]
  exact hName.ne_stop

/-- Before the end of a way parts `.` do not count. -/
def IgnoresInnerStops (next : List Bytes → Location → Except Fault Target) : Prop :=
  ∀ parts loc, parts.getLast? ≠ some [stop] →
    next parts loc = next (parts.filter (· ≠ [stop])) loc

theorem IgnoresInnerStops.follow {fs : FileSystem}
    {next : List Bytes → Location → Except Fault Target} (hNext : IgnoresInnerStops next) :
    IgnoresInnerStops (follow fs next) := by
  intro parts
  induction parts with
  | nil => exact fun _ _ => rfl
  | cons part parts ih =>
    intro loc hLast
    by_cases hNil : parts = []
    · subst hNil
      rw [List.filter_cons_of_pos (by simpa using hLast), List.filter_nil]
    have hLast : parts.getLast? ≠ some [stop] := by
      rwa [List.getLast?_cons_of_ne_nil hNil] at hLast
    have hFilter : parts.filter (· ≠ [stop]) ≠ [] := fun h => by
      have hMem := List.getLast?_eq_some_getLast hNil
      refine hLast (hMem.trans (congrArg some ?_))
      simpa using List.filter_eq_nil_iff.mp h _ (List.getLast_mem hNil)
    by_cases hp : part = [stop]
    · rw [List.filter_cons_of_neg (by simp [hp]), follow_cons, if_pos hp]
      exact ih loc hLast
    · rw [List.filter_cons_of_pos (by simp [hp]), follow_cons, follow_cons, if_neg hp, if_neg hp]
      split_ifs
      · exact ih loc.tail hLast
      · rfl
      · cases (fs.entriesAt loc).lookup part with
        | none => rfl
        | some node =>
          cases node with
          | file content => rfl
          | directory es => exact ih _ hLast
          | link target =>
            have hLast' : (parts.filter (· ≠ [stop])).getLast? ≠ some [stop] := fun h => by
              simpa using List.mem_of_getLast? h
            dsimp only
            rw [hNext _ _ (by rwa [List.getLast?_append_of_ne_nil _ hNil]),
              hNext (partsOf target ++ _) _ (by rwa [List.getLast?_append_of_ne_nil _ hFilter])]
            simp only [List.filter_append, List.filter_filter, Bool.and_self]

theorem ignoresInnerStops_followLinks (fs : FileSystem) (n : Nat) :
    IgnoresInnerStops (followLinks fs n) := by
  induction n with
  | zero => exact IgnoresInnerStops.follow fun _ _ _ => rfl
  | succ n ih => exact ih.follow

/-- A way that ends in a `.` leads to directories only. -/
def EndsInDirectories (next : List Bytes → Location → Except Fault Target) : Prop :=
  ∀ parts loc t, parts.getLast? = some [stop] → next parts loc = .ok t → ∃ loc', t = .directory loc'

theorem EndsInDirectories.follow {fs : FileSystem}
    {next : List Bytes → Location → Except Fault Target} (hNext : EndsInDirectories next) :
    EndsInDirectories (follow fs next) := by
  intro parts
  induction parts with
  | nil => exact fun _ _ h => by cases h
  | cons part parts ih =>
    intro loc t hLast h
    by_cases hNil : parts = []
    · subst hNil
      rw [List.getLast?_singleton, Option.some.injEq] at hLast
      rw [follow_cons, if_pos hLast] at h
      cases h
      exact ⟨loc, rfl⟩
    have hLast : parts.getLast? = some [stop] := by
      rwa [List.getLast?_cons_of_ne_nil hNil] at hLast
    cases firstStep_of_follow h with
    | stay _ h => exact ih loc t hLast h
    | up _ h => exact ih loc.tail t hLast h
    | enter _ _ h => exact ih _ t hLast h
    | link _ h => exact hNext _ _ t (by rwa [List.getLast?_append_of_ne_nil _ hNil]) h
    | file h => exact (hNil h).elim
    | missing h => exact (hNil h).elim

theorem endsInDirectories_followLinks (fs : FileSystem) (n : Nat) :
    EndsInDirectories (followLinks fs n) := by
  induction n with
  | zero => exact EndsInDirectories.follow fun _ _ _ _ h => by cases h
  | succ n ih => exact ih.follow

/-! ## Paths with the same steps -/

theorem partsOf_ne_nil (p : Path) : partsOf p ≠ [] := by
  intro h
  obtain ⟨hFilter, hEnd⟩ := List.append_eq_nil_iff.mp h
  have hLast := List.getLast_mem (Path.split_ne_nil p)
  have hNil : p.split.getLast (Path.split_ne_nil p) = [] := by
    simpa using List.filter_eq_nil_iff.mp hFilter _ hLast
  rw [List.getLast?_eq_some_getLast (Path.split_ne_nil p), hNil, if_pos rfl] at hEnd
  cases hEnd

theorem contains_nul_congr {p q : Path} (h : p.names = q.names) : p.contains 0 = q.contains 0 := by
  rw [Bool.eq_iff_iff, List.contains_iff_mem, List.contains_iff_mem, Path.nul_mem_iff,
    Path.nul_mem_iff, h]

/-- What an operating system takes for a path: it is not empty and not too long. -/
structure Fits (p : Path) : Prop where
  ne_nil : p ≠ []
  length_le : p.length ≤ longestPath

theorem target_of_fits {fs : FileSystem} {p : Path} (h : Fits p) : fs.target p =
    if p.contains 0 then .error .nulByte
    else followLinks fs mostLinks ((if p.isAbsolute then [] else fs.current) ++ partsOf p) [] := by
  rw [target, if_neg h.ne_nil, if_neg (Nat.not_lt.mpr h.length_le)]

section

variable {fs : FileSystem} {p q : Path} (hSteps : p.steps = q.steps) (hp : Fits p) (hq : Fits q)

include hSteps hp hq

/-- Two paths that end in names are followed alike. -/
theorem target_eq_of_steps (hpOpen : ¬ Open p) (hqOpen : ¬ Open q) :
    fs.target p = fs.target q := by
  obtain ⟨ha, hn⟩ := Path.steps_eq_iff.mp hSteps
  have hLast {r : Path} (hr : ¬ Open r) (front : List Bytes) :
      (front ++ partsOf r).getLast? ≠ some [stop] := by
    rwa [List.getLast?_append_of_ne_nil _ (partsOf_ne_nil r)]
  rw [target_of_fits hp, target_of_fits hq, contains_nul_congr hn, ha,
    ignoresInnerStops_followLinks fs _ _ _ (hLast hpOpen _),
    ignoresInnerStops_followLinks fs _ _ _ (hLast hqOpen _), List.filter_append,
    List.filter_append, filter_partsOf, filter_partsOf, hn]

/-- Two paths lead to the same directories. -/
theorem target_directory_iff {loc : Location} :
    fs.target p = .ok (.directory loc) ↔ fs.target q = .ok (.directory loc) := by
  obtain ⟨ha, hn⟩ := Path.steps_eq_iff.mp hSteps
  rw [target_of_fits hp, target_of_fits hq, contains_nul_congr hn, ha]
  split_ifs
  · rfl
  all_goals
    rw [ignoresStops_followLinks, ignoresStops_followLinks fs _ (_ ++ partsOf q),
      List.filter_append, List.filter_append, filter_partsOf, filter_partsOf, hn]

end

theorem find_eq_directory {fs : FileSystem} {p : Path} {loc : Location} :
    fs.find p = .ok (.directory loc) ↔ fs.target p = .ok (.directory loc) := by
  rw [find]
  cases fs.target p with
  | error e => simp
  | ok t => cases t <;> simp

/-- A path that asks for a directory leads to nothing else. -/
theorem directory_of_open {fs : FileSystem} {p : Path} (hOpen : Open p) {f : Found}
    (h : fs.find p = .ok f) : ∃ loc, f = .directory loc := by
  obtain ⟨t, ht⟩ : ∃ t, fs.target p = .ok t := by
    cases ht : fs.target p with
    | error e => rw [find, ht] at h; cases h
    | ok t => exact ⟨t, rfl⟩
  have hLinks : followLinks fs mostLinks
      ((if p.isAbsolute then [] else fs.current) ++ partsOf p) [] = .ok t := by
    unfold target at ht
    split at ht
    · cases ht
    · split at ht
      · cases ht
      · split at ht
        · cases ht
        · exact ht
  obtain ⟨loc, rfl⟩ := endsInDirectories_followLinks fs _ _ _ t
    (by rwa [List.getLast?_append_of_ne_nil _ (partsOf_ne_nil p)]) hLinks
  rw [find, ht] at h
  exact ⟨loc, (Except.ok.inj h).symm⟩

/-- Paths with the same steps lead to the same file or directory. If this is a file, neither path
may ask for a directory at its end, or both do. -/
theorem find_eq_ok_iff {fs : FileSystem} {p q : Path} (hSteps : p.steps = q.steps) (hp : Fits p)
    (hq : Fits q) (hEnd : (Open p ↔ Open q) ∨ ∃ loc, fs.find p = .ok (.directory loc)) (f : Found) :
    fs.find p = .ok f ↔ fs.find q = .ok f := by
  have hDirectory (loc : Location) :
      fs.find p = .ok (.directory loc) ↔ fs.find q = .ok (.directory loc) := by
    rw [find_eq_directory, find_eq_directory]
    exact target_directory_iff hSteps hp hq
  rcases hEnd with hEnd | ⟨loc, hLoc⟩
  · by_cases hOpen : Open p
    · constructor <;> intro h
      · obtain ⟨loc, rfl⟩ := directory_of_open hOpen h
        exact (hDirectory loc).mp h
      · obtain ⟨loc, rfl⟩ := directory_of_open (hEnd.mp hOpen) h
        exact (hDirectory loc).mpr h
    · rw [find, find, target_eq_of_steps hSteps hp hq hOpen (mt hEnd.mpr hOpen)]
  · rw [hLoc, (hDirectory loc).mp hLoc]

/-- Files with names of their own are read alike. -/
theorem readBytes_eq_of_steps {fs : FileSystem} {p q : Path} (hSteps : p.steps = q.steps)
    (hp : Fits p) (hq : Fits q) (hpOpen : ¬ Open p) (hqOpen : ¬ Open q) :
    fs.readBytes p = fs.readBytes q := by
  rw [readBytes, readBytes, find, find, target_eq_of_steps hSteps hp hq hpOpen hqOpen]

theorem not_open_clean {p : Path} (hNames : p.names ≠ []) : ¬ Open p.clean := by
  rw [Open, partsOf_clean hNames]
  intro hLast
  obtain ⟨c, hc, hText⟩ := List.mem_map.mp (List.mem_of_getLast? hLast)
  have hPart := Path.ofPart?_text hc
  rw [hText] at hPart
  cases hPart

/-- A file is found under its clean path, unless that is too long. -/
theorem find_clean_of_file {fs : FileSystem} {p : Path} {content : Bytes} (hNames : p.names ≠ [])
    (h : fs.find p = .ok (.file content)) :
    fs.find p.clean = .ok (.file content) ∨ fs.find p.clean = .error .nameTooLong := by
  obtain ⟨hNul, hFits⟩ : p.contains 0 = false ∧ Fits p := by
    rw [find, target] at h
    split_ifs at h with hNul hNil hLong <;>
      exact ⟨Bool.eq_false_iff.mpr hNul, hNil, Nat.not_lt.mp hLong⟩
  have hOpen : ¬ Open p := fun hOpen => by
    obtain ⟨loc, hLoc⟩ := directory_of_open hOpen h
    cases hLoc
  by_cases hLength : p.clean.length ≤ longestPath
  · have hClean : Fits p.clean := ⟨Path.clean_ne_nil p, hLength⟩
    refine Or.inl ?_
    rw [find, target_eq_of_steps (Path.steps_clean p) hClean hFits (not_open_clean hNames) hOpen]
    exact h
  · refine Or.inr ?_
    rw [find, target, contains_nul_congr (Path.names_clean p), hNul, if_neg Bool.false_ne_true,
      if_neg (Path.clean_ne_nil p), if_pos (Nat.lt_of_not_le hLength)]

end FileSystem

end FuncSpans
