import FuncSpans.Proofs.Files.Removal

/-!
# Files that no link leads to

If no link of a tree leads to a place, only paths that end in its name lead there
(`fileName?_of_target`). Taking a file away from such a place leaves what is read by all other
paths (`readBytes_without`).
-/

namespace FuncSpans.FileSystem

open FuncSpans.Path (IsName)

variable {fs : FileSystem} {place : List Bytes}

/-! ## Links -/

/-- Some link of the tree leads to a place. -/
def LinksTo (fs : FileSystem) (place : List Bytes) : Prop :=
  ∃ loc name target t, fs.IsPlace loc ∧ (fs.entriesAt loc).lookup name = some (.link target) ∧
    followLinks fs mostLinks (partsOf target) (if target.isAbsolute then [] else loc) = .ok t ∧
      t.place? = some place

theorem linksTo_without (hPlace : fs.FileOrNothing place) :
    (fs.without place).LinksTo place ↔ fs.LinksTo place := by
  have hFollowed (target : Path) {loc : Location} (hLoc : fs.IsPlace loc) :
      (∃ t, followLinks (fs.without place) mostLinks (partsOf target)
          (if target.isAbsolute then [] else Location.without place loc) = .ok t ∧
            t.place? = some place) ↔
        ∃ t, followLinks fs mostLinks (partsOf target)
          (if target.isAbsolute then [] else loc) = .ok t ∧ t.place? = some place := by
    have hSame := removes_followLinks hPlace mostLinks (partsOf target)
      (if target.isAbsolute then [] else loc) (by split_ifs; exacts [trivial, hLoc])
    rw [apply_ite (Location.without place), Location.without] at hSame
    cases hSame with
    | leads hBefore hAfter => simp [hBefore, hAfter]
    | fails hBefore hAfter => simp [hBefore, hAfter]
    | behind hBefore hAfter => simp [hBefore, hAfter]
  constructor
  · rintro ⟨loc', name, target, t, hLoc', hLink, hTarget⟩
    obtain ⟨loc, hLoc, rfl⟩ := hLoc'.of_without
    rw [entriesAt_without, Entries.lookup_without] at hLink
    split_ifs at hLink
    obtain ⟨node, hNode, hLink⟩ := Option.map_eq_some_iff.mp hLink
    cases node with
    | directory es => cases hLink
    | file content => cases hLink
    | link target' =>
      cases hLink
      obtain ⟨t', hTarget'⟩ := (hFollowed target hLoc).mp ⟨t, hTarget⟩
      exact ⟨loc, name, target, t', hLoc, hNode, hTarget'⟩
  · rintro ⟨loc, name, target, t, hLoc, hLink, hTarget⟩
    obtain ⟨t', hTarget'⟩ := (hFollowed target hLoc).mpr ⟨t, hTarget⟩
    refine ⟨Location.without place loc, name, target, t', hLoc.without hPlace, ?_, hTarget'⟩
    have hElsewhere : loc.way ++ [name] ≠ place := by
      rintro rfl
      obtain ⟨content, hContent⟩ := hPlace _ ((hLoc.node?_concat name).trans hLink)
      cases hContent
    rw [entriesAt_without, Entries.lookup_without, if_neg hElsewhere, hLink]
    rfl

/-- Ways to a place end in its name. -/
def EndsInNameOf (fs : FileSystem) (place : List Bytes)
    (next : List Bytes → Location → Except Fault Target) : Prop :=
  ∀ parts loc t, fs.IsPlace loc → next parts loc = .ok t → t.place? = some place →
    parts.getLast? = place.getLast?

theorem EndsInNameOf.follow {next : List Bytes → Location → Except Fault Target}
    (hNext : EndsInNameOf fs place next)
    (hLinks : ∀ loc name target t, fs.IsPlace loc →
      (fs.entriesAt loc).lookup name = some (.link target) →
      next (partsOf target) (if target.isAbsolute then [] else loc) = .ok t →
      t.place? ≠ some place) :
    EndsInNameOf fs place (follow fs next) := by
  intro parts
  induction parts with
  | nil =>
    intro loc t _ h hAt
    cases h
    cases hAt
  | cons part parts ih =>
    intro loc t hLoc h hAt
    have hNe : place.getLast? ≠ none := by
      cases t with
      | directory loc => cases hAt
      | file loc name content => cases hAt; simp
      | missing loc name => cases hAt; simp
    have hTail (hEnd : parts.getLast? = place.getLast?) :
        (part :: parts).getLast? = place.getLast? := by
      have hParts : parts ≠ [] := fun hNil => hNe (by rw [← hEnd, hNil]; rfl)
      rw [← hEnd]
      exact List.getLast?_append_of_ne_nil [part] hParts
    cases firstStep_of_follow h with
    | stay _ h => exact hTail (ih loc t hLoc h hAt)
    | up _ h => exact hTail (ih loc.tail t hLoc.tail h hAt)
    | @enter es _ hLookup h =>
      exact hTail (ih ((part, es) :: loc) t ⟨hLoc, hLookup⟩ h hAt)
    | @link target hLookup h =>
      by_cases hLast : parts = []
      · -- The path ends in the link, so the link itself leads to the place.
        rw [hLast, List.append_nil] at h
        exact (hLinks loc part target t hLoc hLookup h hAt).elim
      · have hEnd := hNext _ _ t (by split_ifs; exacts [trivial, hLoc]) h hAt
        rw [List.getLast?_append_of_ne_nil _ hLast] at hEnd
        exact hTail hEnd
    | file hLast _ ht =>
      subst hLast ht
      cases hAt
      simp
    | missing hLast _ ht =>
      subst hLast ht
      cases hAt
      simp

theorem endsInNameOf_followLinks (hLinks : ¬ fs.LinksTo place) {n : Nat} (hn : n ≤ mostLinks) :
    EndsInNameOf fs place (followLinks fs n) := by
  induction n with
  | zero => exact EndsInNameOf.follow (fun _ _ _ _ h => by cases h) fun _ _ _ _ _ _ h => by cases h
  | succ n ih =>
    have hn' : n ≤ mostLinks := Nat.le_of_succ_le hn
    refine (ih hn').follow fun loc name target t hLoc hLink h hAt => ?_
    refine hLinks ⟨loc, name, target, t, hLoc, hLink, ?_, hAt⟩
    rw [extends_followLinks fs hn' _ _ (by rw [h]; simp), h]

/-- If no link leads to a place, only paths that end in its name do. -/
theorem fileName?_of_target (hLinks : ¬ fs.LinksTo place) {name : Bytes} (hName : IsName name)
    (hLast : place.getLast? = some name) {p : Path} {t : Target} (h : fs.target p = .ok t)
    (hAt : t.place? = some place) : p.fileName? = some name := by
  have hEnd := endsInNameOf_followLinks hLinks (Nat.le_refl _) _ [] _ trivial (target_eq_ok h) hAt
  rw [List.getLast?_append_of_ne_nil _ (partsOf_ne_nil p), hLast] at hEnd
  obtain ⟨front, hFront⟩ := List.getLast?_eq_some_iff.mp hEnd
  have hNames := filter_partsOf p
  rw [hFront, List.filter_append, List.filter_cons_of_pos (by simpa using hName.ne_stop),
    List.filter_nil] at hNames
  have hText : (p.names.map Path.Component.text).getLast? = some name := by rw [← hNames]; simp
  rw [List.getLast?_map] at hText
  obtain ⟨c, hc, rfl⟩ := Option.map_eq_some_iff.mp hText
  have hComponent := hName.ofPart?
  rw [Path.ofPart?_text (List.mem_of_getLast? hc)] at hComponent
  rw [Path.fileName?_eq_some, Path.steps_eq,
    List.getLast?_append_of_ne_nil _ (List.ne_nil_of_mem (List.mem_of_getLast? hc)), hc, hComponent]

/-! ## What is read -/

theorem readBytes_eq_ok {p : Path} {content : Bytes} :
    fs.readBytes p = .ok content ↔ fs.find p = .ok (.file content) := by
  rw [readBytes]
  cases fs.find p with
  | error e => simp
  | ok found => cases found <;> simp

/-- Without a file to which no link leads, all paths with other names are read as before, but for
the reason for which they may fail. -/
theorem readBytes_without (hPlace : fs.FileOrNothing place) (hLinks : ¬ fs.LinksTo place)
    {name : Bytes} (hName : IsName name) (hLast : place.getLast? = some name) {p : Path}
    (hOther : p.fileName? ≠ some name) :
    (fs.without place).readBytes p = fs.readBytes p ∨
      fs.readBytes p = .error .notADirectory ∧
        (fs.without place).readBytes p = .error .notFound := by
  simp only [readBytes, find]
  cases target_without hPlace p with
  | fails hBefore hAfter => exact Or.inl (by rw [hBefore, hAfter])
  | behind hBefore hAfter => exact Or.inr ⟨by rw [hBefore], by rw [hAfter]⟩
  | @leads t hBefore hAfter =>
    have hAway : t.place? ≠ some place := fun hAt =>
      hOther (fileName?_of_target hLinks hName hLast hBefore hAt)
    refine Or.inl ?_
    rw [hBefore, hAfter]
    cases t with
    | directory loc => rfl
    | missing loc name => rfl
    | file loc name content => rw [Target.without, if_neg fun hAt => hAway (congrArg some hAt)]

end FuncSpans.FileSystem
