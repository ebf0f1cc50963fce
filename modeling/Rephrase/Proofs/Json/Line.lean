import Mathlib.Data.List.Basic
import Rephrase.Proofs.Json.Normal
import Rephrase.Proofs.Text.RawLine

/-! The text of a value is one line, whatever characters its strings hold. Several such texts, each on
a line of its own, can be told apart. A text with one member a line has no line that starts with a
letter, so no line of words is ever a part of it. -/

namespace Rephrase

namespace Text

/-- A line that no carriage return ends is told by its line feed. -/
theorem lines_append {body : List Char} (hfeed : '\n' ∉ body) (hreturn : body.getLast? ≠ some '\r')
    (rest : List Char) : lines (body ++ '\n' :: rest) = body :: lines rest := by
  have hbody : lineBody (body ++ ['\n']) = body := by
    have hreverse : (body ++ ['\n']).reverse = '\n' :: body.reverse := by simp
    unfold lineBody
    rw [hreverse]
    split
    · rename_i more hmore
      rw [← List.head?_reverse, (List.cons.inj hmore).2] at hreturn
      exact absurd rfl hreturn
    · rename_i more _ hmore
      rw [← (List.cons.inj hmore).2, List.reverse_reverse]
    · rename_i hmore
      exact absurd rfl (hmore body.reverse)
  unfold lines rawLines
  rw [rawLinesFrom_line hfeed, List.reverse_nil, List.nil_append, List.map_cons, hbody]

end Text

namespace Json

theorem newline_not_mem_escapeChar (c : Char) : '\n' ∉ escapeChar c := by
  have hhex : ∀ n < 32, '\n' ∉ ['\\', 'u', '0', '0', Decimal.hexChar (n / 16),
      Decimal.hexChar (n % 16)] := by decide
  unfold escapeChar
  split
  iterate 7 decide
  rename_i hnewline _ _
  split
  · rename_i hcontrol
    exact hhex c.toNat hcontrol
  · rw [List.mem_singleton]
    exact fun heq => hnewline heq.symm

theorem newline_not_mem_quote (s : String) : '\n' ∉ quote s := by
  unfold quote
  simp only [List.mem_append, List.mem_cons, List.mem_flatMap, List.not_mem_nil, or_false, not_or,
    not_exists, not_and]
  exact ⟨⟨by decide, fun c _ => newline_not_mem_escapeChar c⟩, by decide⟩

theorem newline_not_mem_digits {digits : List Char} (h : Decimal.AreDigits digits) :
    '\n' ∉ digits := fun hmem => absurd (h.2 _ hmem) (by decide)

theorem newline_not_mem_text {numeral : Numeral} (h : numeral.IsProper) :
    '\n' ∉ numeral.text := by
  have hfraction : '\n' ∉ Numeral.fractionText numeral.fraction := by
    cases hdigits : numeral.fraction with
    | none => exact List.not_mem_nil
    | some digits =>
      simpa [Numeral.fractionText] using newline_not_mem_digits (h.fraction _ hdigits)
  have hexponent : '\n' ∉ Numeral.exponentText numeral.exponent := by
    cases he : numeral.exponent with
    | none => exact List.not_mem_nil
    | some e =>
      obtain ⟨negative, digits⟩ := e
      have hdigits := newline_not_mem_digits (h.exponent _ he)
      cases negative <;> simpa [Numeral.exponentText] using hdigits
  unfold Numeral.text
  cases numeral.negative <;> simp [newline_not_mem_digits h.whole, hfraction, hexponent]

theorem newline_not_mem_writeNumber (n : Number) : '\n' ∉ writeNumber n := by
  cases n with
  | integer n =>
    rw [writeNumber, ← text_ofInt]
    exact newline_not_mem_text (isProper_ofInt n)
  | float x =>
    unfold writeNumber
    dsimp only
    split
    · rw [writeFloat_eq]
      exact newline_not_mem_text (isProper_numeralOf _ _)
    · decide

/-- What holds of texts that are put together, and of a comma, holds of texts with commas between
them. -/
theorem intercalate_of_append {p : List Char → Prop} (nil : p []) (comma : p [','])
    (append : ∀ cs ds, p cs → p ds → p (cs ++ ds)) {parts : List (List Char)}
    (h : ∀ part ∈ parts, p part) : p ([','].intercalate parts) := by
  induction parts with
  | nil => exact nil
  | cons part rest ih =>
    obtain ⟨hpart, hrest⟩ := List.forall_mem_cons.mp h
    cases rest with
    | nil => rwa [List.intercalate_singleton]
    | cons next more =>
      rw [List.intercalate_cons_cons]
      exact append _ _ (append _ _ hpart comma) (ih hrest)

theorem newline_not_mem_intercalate {parts : List (List Char)} (h : ∀ part ∈ parts, '\n' ∉ part) :
    '\n' ∉ [','].intercalate parts :=
  intercalate_of_append (p := fun cs => '\n' ∉ cs) List.not_mem_nil (by decide)
    (fun _ _ hcs hds hmem => (List.mem_append.mp hmem).elim hcs hds) h

theorem compactItems_eq_map (items : List Json) : compactItems items = items.map compact := by
  induction items with
  | nil => rfl
  | cons item rest ih => rw [compactItems, ih, List.map_cons]

theorem compactMembers_eq_map (members : List (String × Json)) :
    compactMembers members = members.map fun m => quote m.1 ++ ':' :: compact m.2 := by
  induction members with
  | nil => rfl
  | cons member rest ih => rw [compactMembers, ih, List.map_cons]

/-- No part of a value's text ends its line. -/
theorem newline_not_mem_compact (json : Json) : '\n' ∉ compact json := by
  induction json using rec_parts with
  | null => decide
  | bool b => cases b <;> decide
  | string s => exact newline_not_mem_quote s
  | number n => exact newline_not_mem_writeNumber n
  | array items ih =>
    have hparts : ∀ part ∈ items.map compact, '\n' ∉ part := by
      intro part hpart
      obtain ⟨item, hitem, rfl⟩ := List.mem_map.mp hpart
      exact ih item hitem
    rw [compact, compactItems_eq_map]
    simpa using newline_not_mem_intercalate hparts
  | object members ih =>
    have hparts : ∀ part ∈ members.map (fun m => quote m.1 ++ ':' :: compact m.2),
        '\n' ∉ part := by
      intro part hpart
      obtain ⟨m, hm, rfl⟩ := List.mem_map.mp hpart
      simp [newline_not_mem_quote m.1, ih m hm]
    rw [compact, compactMembers_eq_map]
    simpa using newline_not_mem_intercalate hparts

/-! ## Texts of several lines -/

/-- Whether something other than a letter stands behind each line feed. -/
def BreaksPlainly : List Char → Prop
  | [] => True
  | c :: cs => (c = '\n' → ∃ d ∈ cs.head?, d.isAlpha = false) ∧ BreaksPlainly cs

namespace BreaksPlainly

theorem of_not_mem {cs : List Char} (h : '\n' ∉ cs) : BreaksPlainly cs := by
  induction cs with
  | nil => trivial
  | cons c cs ih =>
    rw [List.mem_cons, not_or] at h
    exact ⟨fun heq => absurd heq.symm h.1, ih h.2⟩

theorem append {cs ds : List Char} (h : BreaksPlainly cs) (h' : BreaksPlainly ds) :
    BreaksPlainly (cs ++ ds) := by
  induction cs with
  | nil => exact h'
  | cons c cs ih =>
    obtain ⟨hc, hcs⟩ := h
    refine ⟨fun heq => ?_, ih hcs⟩
    obtain ⟨d, hd, hplain⟩ := hc heq
    exact ⟨d, List.mem_head?_append_of_mem_head? hd, hplain⟩

/-- Behind a line feed within such a text there is no letter. -/
theorem isAlpha_of_append {front back : List Char} {c : Char}
    (h : BreaksPlainly (front ++ '\n' :: c :: back)) : c.isAlpha = false := by
  induction front with
  | nil =>
    obtain ⟨d, hd, hplain⟩ := h.1 rfl
    obtain rfl : c = d := Option.some.inj hd
    exact hplain
  | cons _ front ih => exact ih h.2

theorem intercalate {parts : List (List Char)} (h : ∀ part ∈ parts, BreaksPlainly part) :
    BreaksPlainly ([','].intercalate parts) :=
  intercalate_of_append trivial (of_not_mem (by decide)) (fun _ _ => append) h

theorem newLine_append (level : Nat) {right : Char} (hright : right ≠ '\n')
    (hplain : right.isAlpha = false) : BreaksPlainly (newLine level ++ [right]) := by
  refine ⟨fun _ => ?_, of_not_mem ?_⟩
  · cases level with
    | zero => exact ⟨right, rfl, hplain⟩
    | succ level => exact ⟨' ', rfl, rfl⟩
  · have hspaces : '\n' ∉ List.replicate (2 * level) ' ' := fun hmem =>
      absurd (List.eq_of_mem_replicate hmem) (by decide)
    simpa [hspaces] using hright.symm

theorem block {parts : List (List Char)} (h : ∀ part ∈ parts, BreaksPlainly part)
    {left right : Char} (hleft : left ≠ '\n') (hright : right ≠ '\n')
    (hplain : right.isAlpha = false) (level : Nat) :
    BreaksPlainly (block left right level parts) := by
  by_cases hparts : parts = []
  · subst hparts
    exact of_not_mem (by simp [Json.block, hleft.symm, hright.symm])
  · rw [block_eq hparts, List.cons_append, List.append_assoc]
    refine ⟨fun heq => absurd heq hleft, append (intercalate fun part hpart => ?_)
      (newLine_append level hright hplain)⟩
    obtain ⟨inner, hinner, rfl⟩ := List.mem_map.mp hpart
    -- The line end one level further in has space behind it, whatever the part starts with.
    refine append ⟨fun _ => ⟨' ', rfl, rfl⟩, of_not_mem fun hmem => ?_⟩ (h inner hinner)
    exact absurd (List.eq_of_mem_replicate hmem) (by decide)

end BreaksPlainly

mutual

theorem breaksPlainly_prettyAt (level : Nat) : ∀ json : Json, BreaksPlainly (prettyAt level json)
  | .null => .of_not_mem (newline_not_mem_compact .null)
  | .bool b => .of_not_mem (newline_not_mem_compact (.bool b))
  | .number n => .of_not_mem (newline_not_mem_compact (.number n))
  | .string s => .of_not_mem (newline_not_mem_compact (.string s))
  | .array items => .block (breaksPlainly_prettyItems (level + 1) items) (by decide) (by decide)
      (by decide) level
  | .object members => .block (breaksPlainly_prettyMembers (level + 1) members) (by decide)
      (by decide) (by decide) level

theorem breaksPlainly_prettyItems (level : Nat) : ∀ items : List Json,
    ∀ part ∈ prettyItems level items, BreaksPlainly part
  | [] => List.forall_mem_nil _
  | item :: rest => List.forall_mem_cons.mpr
      ⟨breaksPlainly_prettyAt level item, breaksPlainly_prettyItems level rest⟩

theorem breaksPlainly_prettyMembers (level : Nat) : ∀ members : List (String × Json),
    ∀ part ∈ prettyMembers level members, BreaksPlainly part
  | [] => List.forall_mem_nil _
  | (key, value) :: rest => by
    have hcolon : BreaksPlainly [':', ' '] := .of_not_mem (by decide)
    have hmember := (BreaksPlainly.of_not_mem (newline_not_mem_quote key)).append
      (hcolon.append (breaksPlainly_prettyAt level value))
    exact List.forall_mem_cons.mpr ⟨hmember, breaksPlainly_prettyMembers level rest⟩

end

end Json

end Rephrase
