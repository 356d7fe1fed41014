import FuncSpans.Json.Printer
import FuncSpans.Proofs.Json.Grammar

/-!
# Printed values are texts of the grammar

A value whose numbers are in the notation of JSON and whose strings have a text (`Json.Plain`) is
printed as a text of the grammar for just this value, however it is nested and whatever characters
its strings hold (`Plain.value_print`). Any reader of the grammar gets it back.
-/

namespace FuncSpans.Json

/-! ## Strings -/

/-- The two digits of a control character. -/
theorem hexNumber?_hexDigit : ∀ n < 0x20,
    Text.hexNumber? ['0', '0', hexDigit (n / 16), hexDigit (n % 16)] = some n := by
  decide

/-- Every character is escaped where it has to be. -/
theorem Quoted.escapeChar (c : Char) {cs ds : List Char} (h : Quoted cs ds) :
    Quoted (Json.escapeChar c ++ cs) (c :: ds) := by
  unfold Json.escapeChar
  split_ifs with hQuote hSlash h1 h2 h3 h4 h5 hControl
  iterate 7
    subst c
    exact .short (by decide) h
  · exact .code (hexNumber?_hexDigit c.toNat hControl) h
  · exact .plain hQuote hSlash hControl h

theorem quoted_flatMap (cs : List Char) : Quoted (cs.flatMap escapeChar) cs := by
  induction cs with
  | nil => exact .nil
  | cons c cs ih => exact .escapeChar c ih

/-! ## Values -/

/-- A value whose numbers are in the notation and whose strings have a text. -/
inductive Plain : Json → Prop
  | null : Plain .null
  | bool (b : Bool) : Plain (.bool b)
  | number {cs : List Char} (h : Numeric cs) : Plain (.number cs)
  | string (cs : List Char) : Plain (.string cs)
  | array {vs : List Json} (h : ∀ v ∈ vs, Plain v) : Plain (.array vs)
  | object {ms : List (List Char × Json)} (h : ∀ m ∈ ms, Plain m.2) : Plain (.object ms)

theorem blanks_nil : Blanks [] := fun _ hc => nomatch hc

theorem blanks_lineStart (depth : Nat) : Blanks (lineStart depth) := by
  intro c hc
  rcases List.mem_cons.mp hc with rfl | hc
  · decide
  · exact Or.inl (List.eq_of_mem_replicate hc)

/-- The elements of an array with the line breaks around them. -/
theorem elements_print {e : Json} {es : List Json} {depth : Nat}
    (h : ∀ v ∈ e :: es, Value (print depth v) v) (outer : Nat) :
    Elements (lineStart depth ++ print depth e ++ printElements depth es ++ lineStart outer)
      (e :: es) := by
  induction es generalizing e with
  | nil =>
    have hLast := Element.mk (blanks_lineStart depth) (h e List.mem_cons_self)
      (blanks_lineStart outer)
    simpa [printElements] using Elements.last hLast
  | cons e' es ih =>
    have hFirst := Element.mk (blanks_lineStart depth) (h e List.mem_cons_self) blanks_nil
    have hMore := ih fun v hv => h v (List.mem_cons_of_mem _ hv)
    simpa [printElements] using Elements.more hFirst hMore

theorem member_print {k : List Char} {v : Json} {depth : Nat} {behind : List Char}
    (h : Value (print depth v) v) (hBehind : Blanks behind) :
    Member (lineStart depth ++ quote k ++ [':', ' '] ++ print depth v ++ behind) k v := by
  have hBlank : Blanks [' '] := fun c hc => Or.inl (List.mem_singleton.mp hc)
  have hElement := Element.mk hBlank h hBehind
  simpa [quote] using Member.mk (blanks_lineStart depth) (quoted_flatMap k) blanks_nil hElement

/-- The members of an object with the line breaks around them. -/
theorem members_print {k : List Char} {v : Json} {ms : List (List Char × Json)} {depth : Nat}
    (h : ∀ m ∈ (k, v) :: ms, Value (print depth m.2) m.2) (outer : Nat) :
    Members (lineStart depth ++ quote k ++ [':', ' '] ++ print depth v ++ printMembers depth ms ++
      lineStart outer) ((k, v) :: ms) := by
  have hFirst : Value (print depth v) v := h (k, v) List.mem_cons_self
  induction ms generalizing k v with
  | nil => simpa [printMembers] using Members.last (member_print hFirst (blanks_lineStart outer))
  | cons m ms ih =>
    have hMore := ih (fun m hm => h m (List.mem_cons_of_mem _ hm))
      (h m (List.mem_cons_of_mem _ List.mem_cons_self))
    simpa [printMembers] using Members.more (member_print hFirst blanks_nil) hMore

/-- A value is printed as a text of its own. -/
theorem Plain.value_print {v : Json} (h : v.Plain) (depth : Nat) : Value (print depth v) v := by
  induction h generalizing depth with
  | null => exact .null
  | bool b =>
    cases b
    · exact .no
    · exact .yes
  | number h => exact .number h
  | string cs => exact .string (quoted_flatMap cs)
  | @array vs _ ih =>
    cases vs with
    | nil => exact .emptyArray blanks_nil
    | cons e es =>
      have hElements := elements_print (fun v hv => ih v hv (depth + 1)) depth
      simpa [print] using Value.array hElements
  | @object ms _ ih =>
    cases ms with
    | nil => exact .emptyObject blanks_nil
    | cons m ms =>
      have hMembers := members_print (fun m hm => ih m hm (depth + 1)) depth
      simpa [print] using Value.object hMembers

end FuncSpans.Json
