import FuncSpans.Go.Stack
import FuncSpans.Proofs.Go.Lexeme
import FuncSpans.Proofs.Go.States
import Mathlib.Data.List.Forall2
import Mathlib.Data.List.Induction

/-!
# Sound stacks

In a sound stack every link holds a part of the symbol by which its state has been come to, and
the parts of every way down follow each other in the text. So the parts that are taken off when a
production ends are those of its symbols (`Stack.Sound.pop`), what is put in their place is
again a part of its phrase (`Part.fits_ofProduction`), and ending productions keeps heads sound
(`Head.before_sound`).
-/

namespace FuncSpans.Go

/-! ## Parts -/

/-- A part that has been read for a symbol. -/
structure Symbol.Fits (x : Symbol) (p : Part) : Prop where
  ordered : p.first ≤ p.last
  named : x = .token .identifier → p.text ≠ []
  declared : ∀ name first last, p.declared = some (.function name first last) →
    name ≠ [] ∧ p.first ≤ first ∧ first ≤ last ∧ last ≤ p.last

namespace Part

/-- Parts stand one after the other between two lines. -/
def Lined : Nat → Nat → List Part → Prop
  | lo, hi, [] => lo ≤ hi
  | lo, hi, p :: ps => lo ≤ p.first ∧ p.first ≤ p.last ∧ Lined p.last hi ps

theorem Lined.le {lo hi : Nat} {ps : List Part} (h : Lined lo hi ps) : lo ≤ hi := by
  induction ps generalizing lo with
  | nil => exact h
  | cons p ps ih =>
    obtain ⟨hLo, hp, hPs⟩ := h
    have hRest := ih hPs
    omega

theorem lined_concat {lo hi : Nat} {ps : List Part} {p : Part} :
    Lined lo hi (ps ++ [p]) ↔ Lined lo p.first ps ∧ p.first ≤ p.last ∧ p.last ≤ hi := by
  induction ps generalizing lo with
  | nil => rfl
  | cons q ps ih => simp only [List.cons_append, Lined, ih, and_assoc]

/-- The lines of a phrase, from those of its symbols. -/
theorem Lined.ends {lo hi : Nat} {ps : List Part} (h : Lined lo hi ps) (hNe : ps ≠ []) :
    ∃ p q, ps.head? = some p ∧ ps.getLast? = some q ∧ lo ≤ p.first ∧ p.first ≤ q.last ∧
      p.last ≤ q.last ∧ q.last ≤ hi := by
  obtain ⟨front, q, rfl⟩ := ps.eq_nil_or_concat'.resolve_left hNe
  obtain ⟨hFront, hq, hHi⟩ := lined_concat.mp h
  cases front with
  | nil => exact ⟨q, q, rfl, rfl, hFront, hq, Nat.le_refl _, hHi⟩
  | cons p front =>
    obtain ⟨hLo, hp, hRest⟩ := hFront
    have hLe := hRest.le
    exact ⟨p, q, rfl, List.getLast?_concat, hLo, by omega, by omega, hHi⟩

theorem ofProduction_first {r : Production} {parts : List Part} {p : Part}
    (h : parts.head? = some p) : (ofProduction r parts).first = p.first := by
  unfold ofProduction
  split <;> simp [h]

theorem ofProduction_last {r : Production} {parts : List Part} {p : Part}
    (h : parts.getLast? = some p) : (ofProduction r parts).last = p.last := by
  unfold ofProduction
  split <;> simp [h]

end Part

namespace Grammar

set_option maxRecDepth 100000 in
/-- Functions and methods are named by one of their tokens. -/
theorem named_by_identifier {x : Phrase} (hx : x = .functionDeclaration ∨ x = .methodDeclaration)
    {r : Production} (hr : r ∈ productionsOf x) :
    ∃ i, r.namedBy = some i ∧ r.symbols[i]? = some (.token .identifier) := by
  have h : (productionsOf .functionDeclaration ++ productionsOf .methodDeclaration).all (fun r =>
      r.namedBy.bind (r.symbols[·]?) == some (.token .identifier)) = true := by decide +kernel
  have hMem : r ∈ productionsOf .functionDeclaration ++ productionsOf .methodDeclaration := by
    rcases hx with rfl | rfl
    · exact List.mem_append_left _ hr
    · exact List.mem_append_right _ hr
  have hName := List.all_eq_true.mp h r hMem
  rw [beq_iff_eq, Option.bind_eq_some_iff] at hName
  exact hName

end Grammar

namespace Part

/-- What is declared by a phrase is the phrase itself, or is declared by its first part. -/
theorem declared_ofProduction {r : Production} {parts : List Part} {name : List Char}
    {first last : Nat} (h : (ofProduction r parts).declared = some (.function name first last)) :
    ((r.phrase = .functionDeclaration ∨ r.phrase = .methodDeclaration) ∧
      first = (ofProduction r parts).first ∧ last = (ofProduction r parts).last ∧
      ∀ i, r.namedBy = some i → name = (parts[i]?.map (·.text)).getD []) ∨
    ∃ p, parts.head? = some p ∧ p.declared = some (.function name first last) := by
  unfold ofProduction at h ⊢
  cases hName : r.namedBy with
  | some i =>
    rw [hName] at h
    dsimp only at h ⊢
    left
    unfold declares at h
    split at h
    · cases h
    · rename_i hPhrase
      cases h
      exact ⟨Or.inl hPhrase, rfl, rfl, fun j hj => by cases hj; rfl⟩
    · rename_i hPhrase
      cases h
      exact ⟨Or.inr hPhrase, rfl, rfl, fun j hj => by cases hj; rfl⟩
    · cases h
  | none =>
    rw [hName] at h
    dsimp only at h
    right
    split at h
    · exact Option.bind_eq_some_iff.mp h
    · cases h

/-- The parts of a production make up a part of its phrase. -/
theorem fits_ofProduction {r : Production} (hr : r ∈ Grammar.productionsOf r.phrase)
    (hNe : r.symbols ≠ []) {parts : List Part} (hFits : List.Forall₂ Symbol.Fits r.symbols parts)
    {lo hi : Nat} (hLined : Lined lo hi parts) :
    (Symbol.phrase r.phrase).Fits (ofProduction r parts) ∧ lo ≤ (ofProduction r parts).first ∧
      (ofProduction r parts).last ≤ hi := by
  have hParts : parts ≠ [] := by
    rintro rfl
    exact hNe (List.forall₂_nil_right_iff.mp hFits)
  obtain ⟨p, q, hp, hq, hLo, hPq, hPl, hHi⟩ := hLined.ends hParts
  rw [ofProduction_first hp, ofProduction_last hq]
  refine ⟨⟨?_, (by intro h; cases h), fun name first last hd => ?_⟩, hLo, hHi⟩
  · rw [ofProduction_first hp, ofProduction_last hq]
    exact hPq
  · rw [ofProduction_first hp, ofProduction_last hq]
    rcases declared_ofProduction hd with ⟨hPhrase, rfl, rfl, hName⟩ | ⟨p', hp', hd'⟩
    · rw [ofProduction_first hp, ofProduction_last hq]
      refine ⟨?_, Nat.le_refl _, hPq, Nat.le_refl _⟩
      obtain ⟨i, hi, hSymbol⟩ := Grammar.named_by_identifier hPhrase hr
      rw [hName i hi]
      obtain ⟨hLen, hGet⟩ := List.getElem?_eq_some_iff.mp hSymbol
      have hLen' : i < parts.length := hFits.length_eq ▸ hLen
      have hFit := hFits.get hLen hLen'
      rw [List.getElem?_eq_getElem hLen']
      exact hFit.named (by simpa using hGet)
    · rw [hp] at hp'
      cases hp'
      obtain ⟨rest, rfl⟩ := List.head?_eq_some_iff.mp hp
      obtain ⟨y, symbols, hFit, _, _⟩ := List.forall₂_cons_right_iff.mp hFits
      obtain ⟨hName, hFirst, hLe, hLast⟩ := hFit.declared name first last hd'
      exact ⟨hName, hFirst, hLe, by omega⟩

end Part

/-! ## Stacks -/

namespace Stack

/-- A stack in a reachable state whose parts stand between two lines, and each of which has been
read for the symbol after which its state comes. -/
inductive Sound (lo : Nat) : Nat → Stack → Prop
  | node {hi : Nat} {state : State} {round : Nat} {links : List (Part × Stack)} :
      lo ≤ hi → state.Reached → (links = [] → state = .start) →
      (∀ link ∈ links, ∃ x : Symbol, state = link.2.state.advance x ∧ x.Fits link.1 ∧
        link.1.last ≤ hi) →
      (∀ link ∈ links, Sound lo link.1.first link.2) → Sound lo hi (.node state round links)

namespace Sound

variable {lo hi : Nat} {s : Stack}

theorem le (h : s.Sound lo hi) : lo ≤ hi := by
  cases h
  assumption

theorem reached (h : s.Sound lo hi) : s.state.Reached := by
  cases h
  assumption

theorem link (h : s.Sound lo hi) {link : Part × Stack} (hLink : link ∈ s.links) :
    (∃ x : Symbol, s.state = link.2.state.advance x ∧ x.Fits link.1 ∧ link.1.last ≤ hi) ∧
      link.2.Sound lo link.1.first := by
  cases h with
  | node _ _ _ hLinks hSound => exact ⟨hLinks link hLink, hSound link hLink⟩

theorem mono (h : s.Sound lo hi) {hi' : Nat} (hLe : hi ≤ hi') : s.Sound lo hi' := by
  cases h with
  | node hLo hReached hEmpty hLinks hSound =>
    apply Sound.node (Nat.le_trans hLo hLe) hReached hEmpty _ hSound
    intro link hLink
    obtain ⟨x, hx, hFits, hLast⟩ := hLinks link hLink
    exact ⟨x, hx, hFits, Nat.le_trans hLast hLe⟩

end Sound

theorem mem_pop_succ {n : Nat} {s : Stack} {e : List Part × Stack} :
    e ∈ s.pop (n + 1) ↔ ∃ link ∈ s.links, e ∈ popLink n link := by
  simp [pop, popLink, List.mem_flatMap]

theorem mem_popLink {n : Nat} {link : Part × Stack} {e : List Part × Stack} :
    e ∈ popLink n link ↔ ∃ parts, (parts, e.2) ∈ link.2.pop n ∧ e.1 = parts ++ [link.1] := by
  unfold popLink
  rw [List.mem_map]
  constructor
  · rintro ⟨⟨parts, base⟩, hMem, rfl⟩
    exact ⟨parts, hMem, rfl⟩
  · rintro ⟨parts, hMem, he⟩
    refine ⟨(parts, e.2), hMem, ?_⟩
    dsimp only
    rw [← he]

/-- The parts above some place on a sound stack are those of the symbols that an item has
behind it. -/
theorem Sound.pop {lo hi : Nat} {s : Stack} (h : s.Sound lo hi) {done : List Symbol}
    (hDone : done = [] ∨ ∃ i ∈ s.state.items, i.production.symbols = done ++ i.rest)
    {e : List Part × Stack} (he : e ∈ s.pop done.length) :
    ∃ mid, e.2.Sound lo mid ∧ Part.Lined mid hi e.1 ∧ List.Forall₂ Symbol.Fits done e.1 := by
  induction done using List.reverseRecOn generalizing hi s e with
  | nil =>
    rw [List.length_nil, Stack.pop, List.mem_singleton] at he
    subst he
    exact ⟨hi, h, Nat.le_refl _, .nil⟩
  | append_singleton done x ih =>
    obtain ⟨i, hi', hs⟩ := hDone.resolve_left (by simp)
    rw [List.length_append, List.length_singleton, mem_pop_succ] at he
    obtain ⟨link, hLink, he⟩ := he
    obtain ⟨parts, hParts, hEq⟩ := mem_popLink.mp he
    obtain ⟨⟨y, hState, hFits, hLast⟩, hBelow⟩ := h.link hLink
    rw [hState] at hi'
    rw [List.append_assoc, List.singleton_append] at hs
    have hXy : x = y := by
      obtain ⟨done', hDone'⟩ := hBelow.reached.symbols_eq hi'
      have hRest := List.append_inj' (hs.symm.trans hDone') rfl
      exact (List.cons.inj hRest.2).1
    subst hXy
    have hPrev : done = [] ∨ ∃ j ∈ link.2.state.items, j.production.symbols = done ++ j.rest := by
      rcases hBelow.reached.before hi' with ⟨j, hj, hProduction, hRest⟩ | ⟨hSymbols, _⟩
      · exact Or.inr ⟨j, hj, by rw [hProduction, hs, hRest]⟩
      · rw [hSymbols] at hs
        exact Or.inl (by simpa using hs)
    obtain ⟨mid, hBase, hLined, hAll⟩ := ih hBelow hPrev hParts
    refine ⟨mid, hBase, ?_, ?_⟩
    · rw [hEq]
      exact Part.lined_concat.mpr ⟨hLined, hFits.ordered, hLast⟩
    · rw [hEq]
      exact List.rel_append hAll (.cons hFits .nil)

end Stack

/-! ## Heads -/

namespace State

/-- A production that ends before a token is all read. -/
theorem of_mem_ended {s : State} {t : Token} {r : Production} (h : r ∈ (s.choose t).ended) :
    ∃ i ∈ s.items, i.rest = [] ∧ i.production = r := by
  have hMem : r ∈ tightest (s.endings t) := by
    unfold choose at h
    dsimp only at h
    split at h
    · cases h
    · exact h
    · rename_i e es he _
      rw [he]
      split at h
      · cases h
      · split at h
        · exact h
        · split at h
          · exact h
          · split at h
            · exact h
            · split at h
              · cases h
              · exact h
  obtain ⟨i, hi, hr⟩ := List.mem_filterMap.mp (List.mem_of_mem_filter hMem)
  split at hr
  · rename_i hRest
    cases hr
    exact ⟨i, hi, by simpa using (Bool.and_eq_true_iff.mp hRest).1, rfl⟩
  · cases hr

end State

namespace Head

/-- A head whose readings make up a sound stack. -/
def Sound (lo hi : Nat) (h : Head) : Prop := (Stack.node h.state 0 h.links).Sound lo hi

theorem Sound.node {lo hi : Nat} {h : Head} (hs : h.Sound lo hi) (round : Nat) :
    (Stack.node h.state round h.links).Sound lo hi := by
  cases hs with
  | node hLo hReached hEmpty hLinks hSound =>
    exact Stack.Sound.node hLo hReached hEmpty hLinks hSound

theorem Sound.reached {lo hi : Nat} {h : Head} (hs : h.Sound lo hi) : h.state.Reached :=
  Stack.Sound.reached hs

/-- The links of two heads in one state. -/
theorem Sound.append {lo hi : Nat} {s : State} {links links' : List (Part × Stack)}
    (h : Sound lo hi ⟨s, links⟩) (h' : Sound lo hi ⟨s, links'⟩) :
    Sound lo hi ⟨s, links ++ links'⟩ := by
  cases h with
  | node hLo hReached hEmpty hLinks hSound =>
    cases h' with
    | node _ _ _ hLinks' hSound' =>
      refine Stack.Sound.node hLo hReached (fun h => hEmpty (List.append_eq_nil_iff.mp h).1) ?_ ?_
      · exact List.forall_mem_append.mpr ⟨hLinks, hLinks'⟩
      · exact List.forall_mem_append.mpr ⟨hSound, hSound'⟩

theorem insert_sound {lo hi : Nat} {s : State} {link : Part × Stack}
    (hLink : Sound lo hi ⟨s, [link]⟩) {hs hs' : List Head} (hAll : ∀ h ∈ hs, h.Sound lo hi)
    (h : insert s link hs = some hs') : ∀ h ∈ hs', h.Sound lo hi := by
  induction hs generalizing hs' with
  | nil =>
    cases h
    simpa using hLink
  | cons top hs ih =>
    have hTop := hAll top List.mem_cons_self
    have hRest : ∀ h ∈ hs, h.Sound lo hi := fun h hh => hAll h (List.mem_cons_of_mem _ hh)
    unfold insert at h
    split at h
    · rename_i hSame
      split at h
      · cases h
      · cases h
        have hState : top.state = s := hTop.reached.eq_of_same hLink.reached hSame
        refine List.forall_mem_cons.mpr ⟨?_, hRest⟩
        rw [← hState] at hLink
        exact hTop.append hLink
    · obtain ⟨hs'', hHs'', rfl⟩ := Option.map_eq_some_iff.mp h
      exact List.forall_mem_cons.mpr ⟨hTop, ih hRest hHs''⟩

/-- What is taken off a sound head when a production ends makes up a part of its phrase. -/
theorem Sound.popped {lo hi : Nat} {h : Head} (hs : h.Sound lo hi) {i : Item}
    (hi' : i ∈ h.state.items) (hRest : i.rest = []) {e : List Part × Stack}
    (he : e ∈ h.links.flatMap (Stack.popLink (i.production.symbols.length - 1))) :
    (Symbol.phrase i.production.phrase).Fits (Part.ofProduction i.production e.1) ∧
      (Part.ofProduction i.production e.1).last ≤ hi ∧
      e.2.Sound lo (Part.ofProduction i.production e.1).first := by
  have hItem := hs.reached.item hi'
  have hLength : i.production.symbols.length - 1 + 1 = i.production.symbols.length :=
    Nat.sub_add_cancel (List.length_pos_iff.mpr hItem.symbols_ne)
  have hPop : e ∈ (Stack.node h.state 0 h.links).pop i.production.symbols.length := by
    rw [← hLength, Stack.mem_pop_succ]
    exact List.mem_flatMap.mp he
  have hBehind : i.production.symbols = i.production.symbols ++ i.rest := by
    rw [hRest, List.append_nil]
  obtain ⟨mid, hBase, hLined, hFits⟩ := Stack.Sound.pop hs (Or.inr ⟨i, hi', hBehind⟩) hPop
  obtain ⟨hPart, hFirst, hLast⟩ := Part.fits_ofProduction hItem.mem hItem.symbols_ne hFits hLined
  exact ⟨hPart, hLast, hBase.mono hFirst⟩

/-- Ending a production on a sound head gives a sound head. -/
theorem Sound.reduce {lo hi : Nat} {s : State} {link : Part × Stack}
    (h : Sound lo hi ⟨s, [link]⟩) {i : Item} (hi' : i ∈ s.items) (hRest : i.rest = [])
    {e : List Part × Stack} (he : e ∈ Stack.popLink (i.production.symbols.length - 1) link) :
    Sound lo hi ⟨e.2.state.advance (.phrase i.production.phrase),
      [(Part.ofProduction i.production e.1, e.2)]⟩ := by
  obtain ⟨hPart, hLast, hBase⟩ := h.popped hi' hRest (e := e) (by simpa using he)
  refine Stack.Sound.node (Stack.Sound.le h) (hBase.reached.advance _) (by simp) ?_ ?_
  · simpa using ⟨_, rfl, hPart, hLast⟩
  · simpa using hBase

theorem settle_sound {lo hi : Nat} {t : Token} {fuel : Nat} {s : State} {link : Part × Stack}
    (hLink : Sound lo hi ⟨s, [link]⟩) {heads : List Head} (hAll : ∀ h ∈ heads, h.Sound lo hi) :
    ∀ h ∈ settle t fuel s link heads, h.Sound lo hi := by
  induction fuel generalizing s link heads with
  | zero => exact hAll
  | succ fuel ih =>
    unfold settle
    split
    · exact hAll
    · rename_i heads' hInsert
      apply List.foldlRecOn (motive := fun heads : List Head => ∀ h ∈ heads, h.Sound lo hi) _ _
        (insert_sound hLink hAll hInsert)
      intro heads hHeads r hr
      obtain ⟨i, hi', hRest, rfl⟩ := State.of_mem_ended hr
      apply List.foldlRecOn (motive := fun heads : List Head => ∀ h ∈ heads, h.Sound lo hi) _ _
        hHeads
      intro heads hHeads e he
      exact ih (hLink.reduce hi' hRest he) hHeads

/-- Ending productions before a token keeps the heads sound. -/
theorem before_sound {lo hi round : Nat} {t : Token} {top : Head} (h : top.Sound lo hi) :
    ∀ h ∈ top.before round t, h.Sound lo hi := by
  unfold before
  split
  · simpa using h
  · apply List.foldlRecOn (motive := fun heads : List Head => ∀ h ∈ heads, h.Sound lo hi) _ _
      (by simp)
    intro heads hHeads link hLink
    apply settle_sound _ hHeads
    cases h with
    | node hLo hReached _ hLinks hSound =>
      refine Stack.Sound.node hLo hReached (by simp) ?_ ?_
      · simpa using hLinks link hLink
      · simpa using hSound link hLink

end Head

end FuncSpans.Go
