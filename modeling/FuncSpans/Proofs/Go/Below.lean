import FuncSpans.Proofs.Go.Rounds
import Mathlib.Data.List.Forall2

/-!
# Texts further down

What is read of a text does not depend on the line where the text begins: further down the same is
read, and only the lines are others (`Item.readings_below`, `SourceFile.items_below`). Columns and
offsets do not matter.
-/

namespace FuncSpans.Go

/-! ## Places -/

namespace Cursor

/-- The same text, so many lines further down. -/
structure Below (k : Nat) (c d : Cursor) : Prop where
  rest_eq : d.rest = c.rest
  line_eq : d.line = c.line + k

namespace Below

variable {k : Nat} {c d : Cursor}

theorem remaining_eq (h : Below k c d) : d.remaining = c.remaining :=
  congrArg List.length h.rest_eq

theorem next (h : Below k c d) : Below k c.next d.next := by
  refine ⟨by rw [rest_next, rest_next, h.rest_eq], ?_⟩
  unfold Cursor.next
  rw [h.rest_eq]
  split
  · exact h.line_eq
  · have hLine := h.line_eq
    dsimp only
    omega
  · exact h.line_eq

theorem skip (h : Below k c d) (n : Nat) : Below k (skip n c) (skip n d) := by
  induction n generalizing c d with
  | zero => exact h
  | succ n ih => exact ih h.next

end Below

end Cursor

namespace Lexeme

/-- The same token, so many lines further down. -/
structure Below (k : Nat) (l m : Lexeme) : Prop where
  token_eq : m.token = l.token
  text_eq : m.text = l.text
  start : l.start.Below k m.start
  next : l.next.Below k m.next

variable {k : Nat} {c d : Cursor} {wanted : TokenSet}

theorem seek_below (h : c.Below k d) (fuel : Nat) (stepped : Bool) :
    (seek wanted fuel stepped d).1 = (seek wanted fuel stepped c).1 ∧
      (seek wanted fuel stepped c).2.Below k (seek wanted fuel stepped d).2 := by
  induction fuel generalizing stepped c d with
  | zero => exact ⟨rfl, h⟩
  | succ fuel ih =>
    unfold seek
    rw [h.rest_eq]
    split
    · exact ih (h.skip _) false
    · exact ih h.next true
    · exact ⟨rfl, h⟩
    · exact ⟨rfl, h⟩

theorem place_below (h : c.Below k d) (wanted : TokenSet) :
    (place wanted d).1 = (place wanted c).1 ∧ (place wanted c).2.Below k (place wanted d).2 := by
  unfold place
  rw [h.remaining_eq]
  exact seek_below h _ _

theorem pastBlanks_below (h : c.Below k d) : (pastBlanks c).Below k (pastBlanks d) :=
  (place_below h .empty).2

theorem read_below (h : c.Below k d) (wanted : TokenSet) :
    Option.Rel (Below k) (read wanted c) (read wanted d) := by
  obtain ⟨hStepped, hPlace⟩ := place_below h wanted
  unfold read
  dsimp only
  rw [hStepped, hPlace.rest_eq]
  split
  · exact .some ⟨rfl, rfl, hPlace, hPlace.skip _⟩
  · exact .none
  · exact .none
  · exact .none

end Lexeme

/-! ## Parts and stacks -/

/-- A declaration so many lines further down. -/
def Declared.lower (k : Nat) : Declared → Declared
  | .package name => .package name
  | .function name first last => .function name (first + k) (last + k)

namespace Part

/-- A part so many lines further down. -/
def lower (k : Nat) (p : Part) : Part :=
  ⟨p.text, p.first + k, p.last + k, p.declared.map (Declared.lower k)⟩

theorem ofLexeme_lower {k : Nat} {l m : Lexeme} (h : l.Below k m) :
    ofLexeme m = (ofLexeme l).lower k := by
  unfold ofLexeme lower
  rw [h.text_eq, h.start.line_eq, h.next.line_eq]
  rfl

theorem declares_lower (k : Nat) (x : Phrase) (name : List Char) (first last : Nat) :
    declares x name (first + k) (last + k) =
      (declares x name first last).map (Declared.lower k) := by
  unfold declares
  split <;> rfl

theorem ofProduction_lower (k : Nat) (r : Production) {parts : List Part} (h : parts ≠ []) :
    ofProduction r (parts.map (lower k)) = (ofProduction r parts).lower k := by
  obtain ⟨p, tail, rfl⟩ := List.exists_cons_of_ne_nil h
  obtain ⟨q, hq⟩ := Option.isSome_iff_exists.mp (List.getLast?_isSome.mpr h)
  unfold ofProduction
  simp only [List.head?_map, List.getLast?_map, hq, List.head?_cons, Option.map_some,
    Option.getD_some, List.getElem?_map, Option.map_map]
  split
  · have hName : (fun p : Part => p.text) ∘ lower k = fun p => p.text := rfl
    rw [hName]
    unfold lower
    rw [← declares_lower]
  · unfold lower
    split
    · rfl
    · rfl

end Part

namespace Stack

mutual

/-- A stack whose parts are so many lines further down. -/
def lower (k : Nat) : Stack → Stack
  | .node state round links => .node state round (lowerLinks k links)

/-- Links whose parts are so many lines further down. -/
def lowerLinks (k : Nat) : List (Part × Stack) → List (Part × Stack)
  | [] => []
  | link :: links => lowerLink k link :: lowerLinks k links

/-- A link whose parts are so many lines further down. -/
def lowerLink (k : Nat) : Part × Stack → Part × Stack
  | (p, s) => (p.lower k, s.lower k)

end

theorem lowerLink_fst (k : Nat) (link : Part × Stack) : (lowerLink k link).1 = link.1.lower k := by
  cases link
  rfl

theorem lowerLink_snd (k : Nat) (link : Part × Stack) : (lowerLink k link).2 = link.2.lower k := by
  cases link
  rfl

theorem lowerLinks_eq (k : Nat) (links : List (Part × Stack)) :
    lowerLinks k links = links.map (lowerLink k) := by
  induction links with
  | nil => rfl
  | cons link links ih => rw [lowerLinks, ih, List.map_cons]

theorem lowerLink_node (k : Nat) (p : Part) (state : State) (round : Nat)
    (links : List (Part × Stack)) : lowerLink k (p, .node state round links) =
      (p.lower k, .node state round (links.map (lowerLink k))) := by
  rw [lowerLink, lower, lowerLinks_eq]

theorem links_lower (k : Nat) (s : Stack) :
    (s.lower k).links = s.links.map (lowerLink k) := by
  cases s
  exact lowerLinks_eq k _

theorem state_lower (k : Nat) (s : Stack) : (s.lower k).state = s.state := by
  cases s
  rfl

theorem same_lower (k : Nat) (s t : Stack) : (s.lower k).same (t.lower k) = s.same t := by
  cases s
  cases t
  rfl

/-- What has been taken off a stack, so many lines further down. -/
def lowerPopped (k : Nat) (e : List Part × Stack) : List Part × Stack :=
  (e.1.map (Part.lower k), e.2.lower k)

theorem popLink_lower_of {k n : Nat} {link : Part × Stack}
    (h : (link.2.lower k).pop n = (link.2.pop n).map (lowerPopped k)) :
    popLink n (lowerLink k link) = (popLink n link).map (lowerPopped k) := by
  unfold popLink
  rw [lowerLink_fst, lowerLink_snd, h, List.map_map, List.map_map]
  apply List.map_congr_left
  intro e _
  simp [lowerPopped]

theorem pop_lower (k n : Nat) (s : Stack) :
    (s.lower k).pop n = (s.pop n).map (lowerPopped k) := by
  induction n generalizing s with
  | zero => rfl
  | succ n ih =>
    have hPop : ∀ t : Stack, t.pop (n + 1) = t.links.flatMap (popLink n) := fun _ => rfl
    rw [hPop, hPop, links_lower, List.flatMap_map, List.map_flatMap]
    exact List.flatMap_congr fun link _ => popLink_lower_of (ih link.2)

theorem popLink_lower (k n : Nat) (link : Part × Stack) :
    popLink n (lowerLink k link) = (popLink n link).map (lowerPopped k) :=
  popLink_lower_of (pop_lower k n link.2)

theorem parts_ne_nil {n : Nat} {link : Part × Stack} {e : List Part × Stack}
    (h : e ∈ popLink n link) : e.1 ≠ [] := by
  obtain ⟨parts, _, he⟩ := mem_popLink.mp h
  rw [he]
  simp

end Stack

/-! ## Heads -/

namespace Head

/-- A head whose parts are so many lines further down. -/
def lower (k : Nat) (h : Head) : Head := ⟨h.state, h.links.map (Stack.lowerLink k)⟩

theorem insert_lower (k : Nat) (s : State) (link : Part × Stack) (hs : List Head) :
    insert s (Stack.lowerLink k link) (hs.map (lower k)) =
      (insert s link hs).map (List.map (lower k)) := by
  induction hs with
  | nil => rfl
  | cons h hs ih =>
    have hAny : (h.lower k).links.any (·.2.same (Stack.lowerLink k link).2) =
        h.links.any (·.2.same link.2) := by
      rw [lower, List.any_map]
      refine congrArg h.links.any (funext fun l => ?_)
      rw [Function.comp_apply, Stack.lowerLink_snd, Stack.lowerLink_snd, Stack.same_lower]
    rw [List.map_cons, insert, insert]
    by_cases hSame : h.state.same s = true
    · rw [if_pos hSame, if_pos (show (h.lower k).state.same s = true from hSame)]
      by_cases hLink : (h.links.any (·.2.same link.2)) = true
      · rw [if_pos hLink, if_pos (hAny.trans hLink)]
        rfl
      · rw [if_neg hLink, if_neg (hAny ▸ hLink)]
        simp [lower]
    · rw [if_neg hSame, if_neg (show ¬(h.lower k).state.same s = true from hSame), ih,
        Option.map_map, Option.map_map]
      rfl

theorem settle_lower (k : Nat) (t : Token) (fuel : Nat) (s : State) (link : Part × Stack)
    (heads : List Head) : settle t fuel s (Stack.lowerLink k link) (heads.map (lower k)) =
      (settle t fuel s link heads).map (lower k) := by
  induction fuel generalizing s link heads with
  | zero => rfl
  | succ fuel ih =>
    unfold settle
    rw [insert_lower]
    cases insert s link heads with
    | none => rfl
    | some heads =>
      dsimp only [Option.map_some]
      apply List.foldl_rel (r := fun hs hs' : List Head => hs = hs'.map (lower k)) rfl
      intro r _ hs hs' h
      rw [h, Stack.popLink_lower, List.foldl_map]
      apply List.foldl_rel (r := fun hs hs' : List Head => hs = hs'.map (lower k)) rfl
      intro e he hs hs' h
      dsimp only [Stack.lowerPopped]
      rw [h, Stack.state_lower, Part.ofProduction_lower k r (Stack.parts_ne_nil he)]
      exact ih _ (Part.ofProduction r e.1, e.2) hs'

theorem before_lower (k round : Nat) (t : Token) (top : Head) :
    (top.lower k).before round t = (top.before round t).map (lower k) := by
  have hLinks : (top.lower k).links = top.links.map (Stack.lowerLink k) := rfl
  have hEmpty : (top.lower k).links.isEmpty = top.links.isEmpty := by
    rw [hLinks, List.isEmpty_map]
  unfold before
  by_cases h : top.links.isEmpty = true
  · rw [if_pos h, if_pos (hEmpty.trans h)]
    rfl
  · rw [if_neg h, if_neg (hEmpty ▸ h), hLinks, List.foldl_map]
    refine List.foldl_rel (r := fun hs hs' : List Head => hs = hs'.map (lower k)) rfl
      fun link _ hs hs' h => ?_
    rw [h]
    exact settle_lower ..

theorem whole?_lower (k : Nat) (h : Head) :
    (h.lower k).whole? = h.whole?.map (Option.map (Declared.lower k)) := by
  have hItem : ∀ i : Item, (((h.lower k).links.flatMap
        (Stack.popLink (i.production.symbols.length - 1))).head?.map
        fun e => (Part.ofProduction i.production e.1).declared) =
      ((h.links.flatMap (Stack.popLink (i.production.symbols.length - 1))).head?.map
        fun e => (Part.ofProduction i.production e.1).declared).map
          (Option.map (Declared.lower k)) := by
    intro i
    have hPop : (h.lower k).links.flatMap (Stack.popLink (i.production.symbols.length - 1)) =
        (h.links.flatMap (Stack.popLink (i.production.symbols.length - 1))).map
          (Stack.lowerPopped k) := by
      rw [lower, List.flatMap_map, List.map_flatMap]
      exact List.flatMap_congr fun link _ => Stack.popLink_lower k _ link
    rw [hPop, List.head?_map, Option.map_map, Option.map_map]
    cases he : (h.links.flatMap (Stack.popLink (i.production.symbols.length - 1))).head? with
    | none => rfl
    | some e =>
      obtain ⟨link, _, hMem⟩ := List.mem_flatMap.mp (List.mem_of_mem_head? he)
      simp only [Option.map_some, Function.comp_apply, Stack.lowerPopped]
      rw [Part.ofProduction_lower k _ (Stack.parts_ne_nil hMem)]
      rfl
  unfold whole?
  rw [List.map_findSome?]
  have hState : (h.lower k).state.items = h.state.items := rfl
  rw [hState]
  congr 1
  funext i
  rw [Function.comp_apply]
  split
  · exact hItem i
  · rfl

end Head

/-! ## Fronts -/

namespace Front

/-- The same readings, so many lines further down. -/
structure Below (k : Nat) (f g : Front) : Prop where
  place : f.place.Below k g.place
  still_eq : g.still = f.still
  tops_eq : g.tops = f.tops.map (Head.lower k)

variable {k : Nat} {fs gs : List Front} {c d : Cursor}

theorem insert_below (h : List.Forall₂ (Below k) fs gs) (hc : c.Below k d) (still : Bool)
    (s : State) (link : Part × Stack) : List.Forall₂ (Below k) (insert c still s link fs)
      (insert d still s (Stack.lowerLink k link) gs) := by
  have hNew : Below k ⟨c, still, [⟨s, [link]⟩]⟩ ⟨d, still, [⟨s, [Stack.lowerLink k link]⟩]⟩ :=
    ⟨hc, rfl, rfl⟩
  induction h with
  | nil => exact .cons hNew .nil
  | cons hf h ih =>
    unfold insert
    rw [hf.place.remaining_eq, hc.remaining_eq]
    split
    · exact .cons hNew (.cons hf h)
    · split
      · refine .cons ⟨hf.place, hf.still_eq, ?_⟩ h
        dsimp only
        rw [hf.tops_eq, Head.insert_lower]
        cases Head.insert s link _ <;> rfl
      · exact .cons hf ih

theorem step_below {f g : Front} (hf : Below k f g) (h : List.Forall₂ (Below k) fs gs)
    (round : Nat) (top : Head) :
    List.Forall₂ (Below k) (step round f fs top) (step round g gs (top.lower k)) := by
  have hRead := Lexeme.read_below hf.place top.state.wanted
  have hState : (top.lower k).state = top.state := rfl
  unfold step
  rw [hState]
  cases hl : Lexeme.read top.state.wanted f.place with
  | none =>
    rw [hl] at hRead
    cases hm : Lexeme.read top.state.wanted g.place with
    | none => exact h
    | some m =>
      rw [hm] at hRead
      cases hRead
  | some l =>
    rw [hl] at hRead
    cases hm : Lexeme.read top.state.wanted g.place with
    | none =>
      rw [hm] at hRead
      cases hRead
    | some m =>
      rw [hm] at hRead
      cases hRead with
      | some hLm =>
        dsimp only
        rw [hf.still_eq, hLm.text_eq, hLm.token_eq]
        split
        · exact h
        · rw [Head.before_lower, List.foldl_map]
          apply List.foldl_rel (r := List.Forall₂ (Below k)) h
          intro head _ fs gs hFs
          have hState : (head.lower k).state = head.state := rfl
          unfold shift
          rw [hLm.token_eq, hLm.text_eq, hState, Part.ofLexeme_lower hLm]
          split
          · have hInsert := insert_below hFs hLm.next l.text.isEmpty
              (head.state.advance (.token l.token))
              (Part.ofLexeme l, .node head.state round head.links)
            rw [Stack.lowerLink_node] at hInsert
            exact hInsert
          · exact hFs

theorem advance_below (h : List.Forall₂ (Below k) fs gs) (round : Nat) :
    List.Forall₂ (Below k) (advance round fs) (advance round gs) := by
  cases h with
  | nil => exact .nil
  | @cons f g fs gs hf h =>
    have hGoing : g.going = f.going.map (Head.lower k) := by
      unfold going
      rw [hf.tops_eq, List.filter_map]
      rfl
    unfold advance
    dsimp only
    rw [hGoing, List.foldl_map]
    apply List.foldl_rel (r := List.Forall₂ (Below k)) h
    intro top _ fs gs h
    exact step_below hf h round top

end Front

/-! ## Items -/

namespace Item

/-- The end of an item with what it declares, so many lines further down. -/
structure EndBelow (k : Nat) (e e' : Option Declared × Cursor) : Prop where
  declared_eq : e'.1 = e.1.map (Declared.lower k)
  place : e.2.Below k e'.2

variable {k : Nat} {c d : Cursor}

theorem ends_below {f g : Front} (h : f.Below k g) :
    List.Forall₂ (EndBelow k) f.ends g.ends := by
  have hDeclared : g.tops.filterMap Head.whole? =
      (f.tops.filterMap Head.whole?).map (Option.map (Declared.lower k)) := by
    rw [h.tops_eq, List.filterMap_map, List.map_filterMap]
    exact List.filterMap_congr fun top _ => Head.whole?_lower k top
  unfold Front.ends
  rw [hDeclared, ← List.map_take, List.map_map, List.forall₂_map_left_iff,
    List.forall₂_map_right_iff]
  exact List.forall₂_same.mpr fun d _ => ⟨rfl, h.place⟩

theorem firstEnds_below {fs gs : List Front} (h : List.Forall₂ (Front.Below k) fs gs) :
    List.Forall₂ (EndBelow k) (Front.firstEnds fs) (Front.firstEnds gs) := by
  cases h with
  | nil => exact .nil
  | cons hf _ => exact ends_below hf

theorem fronts_below (h : c.Below k d) (n : Nat) :
    List.Forall₂ (Front.Below k) (fronts c n) (fronts d n) := by
  induction n with
  | zero => exact .cons ⟨h, rfl, rfl⟩ .nil
  | succ n ih => exact Front.advance_below ih n

/-- Further down the same readings of an item end at the same places. -/
theorem readings_below (h : c.Below k d) :
    List.Forall₂ (EndBelow k) (readings c) (readings d) := by
  rw [readings_eq, readings_eq, h.remaining_eq]
  apply List.rel_flatMap (R := Eq) (List.forall₂_same.mpr fun _ _ => rfl)
  rintro n _ rfl
  exact firstEnds_below (fronts_below h n)

end Item

/-! ## Files -/

/-- A function so many lines further down. -/
def FunctionSpan.lower (k : Nat) (f : FunctionSpan) : FunctionSpan :=
  ⟨f.name, f.first + k, f.last + k⟩

namespace SourceFile

theorem functionsOf_lower (k : Nat) (ds : List Declared) :
    functionsOf (ds.map (Declared.lower k)) = (functionsOf ds).map (FunctionSpan.lower k) := by
  unfold functionsOf
  rw [List.filterMap_map, List.map_filterMap]
  apply List.filterMap_congr
  intro d _
  cases d <;> rfl

/-- Two ways to read texts with the same rest, so many lines further down in the second text, after
some declarations that may differ. -/
structure WayBelow (k : Nat) (ds ds' : List Declared) (w v : Progress) : Prop where
  place : w.place.Below k v.place
  declared : ∃ tail, w.declared = ds ++ tail ∧ v.declared = ds' ++ tail.map (Declared.lower k)

variable {k : Nat} {ds ds' : List Declared} {ws vs : List Progress}

theorem insert_below {w v : Progress} (hw : WayBelow k ds ds' w v)
    (h : List.Forall₂ (WayBelow k ds ds') ws vs) :
    List.Forall₂ (WayBelow k ds ds') (insert w ws) (insert v vs) := by
  induction h with
  | nil => exact .cons hw .nil
  | cons hWv h ih =>
    unfold insert
    rw [hw.place.remaining_eq, hWv.place.remaining_eq]
    split
    · exact .cons hw (.cons hWv h)
    · split
      · exact .cons hWv h
      · exact .cons hWv ih

theorem goOn_below {w v : Progress} (hw : WayBelow k ds ds' w v)
    (h : List.Forall₂ (WayBelow k ds ds') ws vs) :
    List.Forall₂ (WayBelow k ds ds') (goOn w ws) (goOn v vs) := by
  apply List.rel_foldl (P := List.Forall₂ (WayBelow k ds ds')) (R := Item.EndBelow k) _ h
    (Item.readings_below hw.place)
  intro ws vs h e e' he
  refine insert_below ⟨Lexeme.pastBlanks_below he.place, ?_⟩ h
  obtain ⟨tail, hWs, hVs⟩ := hw.declared
  refine ⟨tail ++ e.1.toList, ?_, ?_⟩
  · dsimp only
    rw [hWs, List.append_assoc]
  · dsimp only
    rw [hVs, he.declared_eq, List.append_assoc, List.map_append]
    cases e.1 <;> rfl

/-- Further down the same declarations are read from the rest of a text. -/
theorem items_below (h : List.Forall₂ (WayBelow k ds ds') ws vs) (fuel : Nat) :
    (items fuel ws = none ∧ items fuel vs = none) ∨ ∃ tail, items fuel ws = some (ds ++ tail) ∧
      items fuel vs = some (ds' ++ tail.map (Declared.lower k)) := by
  induction fuel generalizing ws vs with
  | zero => exact Or.inl ⟨rfl, rfl⟩
  | succ fuel ih =>
    cases h with
    | nil => exact Or.inl ⟨rfl, rfl⟩
    | @cons w v ws vs hw h =>
      rw [items_cons, items_cons, hw.place.rest_eq]
      split
      · obtain ⟨tail, hWs, hVs⟩ := hw.declared
        exact Or.inr ⟨tail, by rw [hWs], by rw [hVs]⟩
      · exact ih (goOn_below hw h)

end SourceFile

end FuncSpans.Go
