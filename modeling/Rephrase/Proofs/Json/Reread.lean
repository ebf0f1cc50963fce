import Mathlib
import Rephrase.Json.Reader
import Rephrase.Proofs.Json.Numeral

/-! A string is read back from its quoted form, whatever characters it holds. A text of a value is
read to its end, whatever space is between its parts, and what it is read as follows from the value:
all of it stays but for its floats. -/

namespace Rephrase.Json

/-! ## Strings -/

theorem hexUnit?_hexChar : ∀ n < 32,
    hexUnit? '0' '0' (Decimal.hexChar (n / 16)) (Decimal.hexChar (n % 16)) = some n := by decide

/-- A character is read as one part of a string, and this part stands for it. -/
theorem exists_piece (c : Char) : ∃ piece,
    (∀ done rest, readPieces done (escapeChar c ++ rest) = readPieces (piece :: done) rest) ∧
      ∀ done rest, joinPieces done (piece :: rest) = joinPieces (c :: done) rest := by
  unfold escapeChar
  split
  iterate 7 exact ⟨.char _, fun _ _ => rfl, fun _ _ => rfl⟩
  rename_i hquote hbackslash _ _ _ _ _
  split
  · rename_i hcontrol
    refine ⟨.unit c.toNat, fun done rest => ?_, fun done rest => ?_⟩
    · have hunit := hexUnit?_hexChar c.toNat hcontrol
      rw [List.cons_append, List.cons_append, List.cons_append, List.cons_append, List.cons_append,
        List.cons_append, List.nil_append, readPieces, hunit]
    -- A control character is no half of a pair.
    · rw [joinPieces.eq_def]
      dsimp only
      rw [if_neg (by simp; omega), if_neg (by simp; omega), Char.ofNat_toNat]
  · rename_i hplain
    refine ⟨.char c, fun done rest => ?_, fun _ _ => rfl⟩
    rw [List.singleton_append, readPieces.eq_4 _ _ _ hquote (fun _ _ _ _ _ h _ => hbackslash h)
      (fun _ _ h _ => hbackslash h), if_neg hplain]

theorem exists_pieces (cs : List Char) : ∃ pieces,
    (∀ done rest, readPieces done (cs.flatMap escapeChar ++ '"' :: rest) =
      some (done.reverse ++ pieces, rest)) ∧
      ∀ done, joinPieces done pieces = some (done.reverse ++ cs) := by
  induction cs with
  | nil =>
    refine ⟨[], fun done rest => ?_, fun done => ?_⟩
    · rw [List.append_nil]
      rfl
    · rw [List.append_nil]
      rfl
  | cons c cs ih =>
    obtain ⟨piece, hread, hjoin⟩ := exists_piece c
    obtain ⟨pieces, hreads, hjoins⟩ := ih
    refine ⟨piece :: pieces, fun done rest => ?_, fun done => ?_⟩
    · rw [List.flatMap_cons, List.append_assoc, hread, hreads, List.reverse_cons, List.append_assoc,
        List.singleton_append]
    · rw [hjoin, hjoins, List.reverse_cons, List.append_assoc, List.singleton_append]

/-- What follows the first quote of a string is the string and the rest. -/
theorem readString_quote (s : String) (rest : List Char) :
    readString (s.toList.flatMap escapeChar ++ '"' :: rest) = some (some s, rest) := by
  obtain ⟨pieces, hread, hjoin⟩ := exists_pieces s.toList
  rw [readString, hread, Option.map_some, List.reverse_nil, List.nil_append]
  dsimp only
  rw [hjoin, List.reverse_nil, List.nil_append, Option.map_some, String.ofList_toList]

/-! ## What a text is read as -/

/-- The document of a number's text. -/
def Number.reread : Number → Document
  | .integer n => .number (Numeral.ofInt n).value?
  | .float x =>
    if x.isFinite then
      .number (numeralOf (Decimal.isNegative x) (Decimal.Binary.ofFloat x).shortest).value?
    else .null

mutual

/-- The document of a value's text. -/
def reread : Json → Document
  | .null => .null
  | .bool b => .bool b
  | .number n => n.reread
  | .string s => .string (some s)
  | .array items => .array (rereadItems items)
  | .object members => .object (rereadMembers members)

def rereadItems : List Json → List Document
  | [] => []
  | item :: rest => reread item :: rereadItems rest

def rereadMembers : List (String × Json) → List (Option String × Document)
  | [] => []
  | (key, value) :: rest => (some key, reread value) :: rereadMembers rest

end

theorem rereadItems_eq_map (items : List Json) : rereadItems items = items.map reread := by
  induction items with
  | nil => rfl
  | cons item rest ih => rw [rereadItems, ih, List.map_cons]

theorem rereadMembers_eq_map (members : List (String × Json)) :
    rereadMembers members = members.map fun m => (some m.1, m.2.reread) := by
  induction members with
  | nil => rfl
  | cons member rest ih => rw [rereadMembers, ih, List.map_cons]

/-! ## Fronts of texts -/

theorem skipSpace_of_isSpace {c : Char} (h : isSpace c = false) (cs : List Char) :
    skipSpace (c :: cs) = c :: cs := List.dropWhile_cons_of_neg (by rw [h]; exact Bool.false_ne_true)

theorem isSpace_of_isDigit {c : Char} (h : c.isDigit = true ∨ c = '-') : isSpace c = false := by
  cases hspace : isSpace c with
  | false => rfl
  | true =>
    simp only [isSpace, Bool.or_eq_true, beq_iff_eq] at hspace
    obtain ((rfl | rfl) | rfl) | rfl := hspace <;> exact absurd h (by decide)

/-- A number starts with a digit or a sign. -/
theorem Numeral.exists_text {numeral : Numeral} (h : numeral.IsProper) :
    ∃ c cs, numeral.text = c :: cs ∧ (c.isDigit = true ∨ c = '-') := by
  obtain ⟨c, more, hwhole⟩ := List.exists_cons_of_ne_nil h.whole.1
  unfold text
  split
  · exact ⟨_, _, rfl, .inr rfl⟩
  · rw [hwhole]
    exact ⟨c, _, rfl, .inl (h.whole.2 c (hwhole ▸ List.mem_cons_self))⟩

theorem readValue_number {c : Char} (h : c.isDigit = true ∨ c = '-') (fuel : Nat) (cs : List Char) :
    readValue (fuel + 1) (c :: cs) =
      (readNumeral (c :: cs)).map fun (n, rest) => (.number n.value?, rest) := by
  have hne : ∀ d : Char, (d.isDigit = true ∨ d = '-') = False → ∀ rest, c :: cs ≠ d :: rest := by
    intro d hd rest heq
    rw [(List.cons.inj heq).1] at h
    exact hd.mp h
  rw [readValue, skipSpace_of_isSpace (isSpace_of_isDigit h)]
  split
  all_goals first | rfl | (rename_i heq; exact absurd heq (hne _ (by decide) _))

/-! ## Numbers -/

theorem readValue_numeral {numeral : Numeral} (h : numeral.IsProper) (fuel : Nat) {rest : List Char}
    (hrest : Ends rest) :
    readValue (fuel + 1) (numeral.text ++ rest) = some (.number numeral.value?, rest) := by
  have hread := readNumeral_text h hrest
  obtain ⟨c, cs, htext, hc⟩ := Numeral.exists_text h
  rw [htext, List.cons_append] at hread ⊢
  rw [readValue_number hc, hread]
  rfl

theorem readValue_writeNumber (n : Number) (fuel : Nat) {rest : List Char} (hrest : Ends rest) :
    readValue (fuel + 1) (writeNumber n ++ rest) = some (n.reread, rest) := by
  cases n with
  | integer n =>
    have hread := readValue_numeral (isProper_ofInt n) fuel hrest
    rwa [text_ofInt] at hread
  | float x =>
    unfold writeNumber Number.reread
    dsimp only
    split
    · rw [writeFloat_eq]
      exact readValue_numeral (isProper_numeralOf _ _) fuel hrest
    · rfl

/-- A character that the text of a value may start with. -/
def Opens (c : Char) : Prop := isSpace c = false ∧ c ≠ ']'

instance : DecidablePred Opens := fun _ => inferInstanceAs (Decidable (_ ∧ _))

theorem exists_writeNumber (n : Number) : ∃ c cs, writeNumber n = c :: cs ∧ Opens c := by
  have hdigit : ∀ {numeral : Numeral}, numeral.IsProper →
      ∃ c cs, numeral.text = c :: cs ∧ Opens c := by
    intro numeral h
    obtain ⟨c, cs, htext, hc⟩ := Numeral.exists_text h
    refine ⟨c, cs, htext, isSpace_of_isDigit hc, ?_⟩
    rintro rfl
    exact absurd hc (by decide)
  cases n with
  | integer n =>
    rw [writeNumber, ← text_ofInt]
    exact hdigit (isProper_ofInt n)
  | float x =>
    unfold writeNumber
    dsimp only
    split
    · rw [writeFloat_eq]
      exact hdigit (isProper_numeralOf _ _)
    · exact ⟨'n', "ull".toList, rfl, by decide⟩

/-! ## Space -/

/-- A text that is nothing but space. -/
def AreSpaces (cs : List Char) : Prop := ∀ c ∈ cs, isSpace c = true

theorem AreSpaces.nil : AreSpaces [] := List.forall_mem_nil _

theorem AreSpaces.skipSpace_append {space : List Char} (h : AreSpaces space) (cs : List Char) :
    skipSpace (space ++ cs) = skipSpace cs := List.dropWhile_append_of_pos h

/-- Space ends a number, and so does what comes behind it. -/
theorem AreSpaces.ends_append {space cs : List Char} (h : AreSpaces space) (hcs : Ends cs) :
    Ends (space ++ cs) := by
  cases space with
  | nil => exact hcs
  | cons c space =>
    have hc := h c List.mem_cons_self
    simp only [isSpace, Bool.or_eq_true, beq_iff_eq] at hc
    obtain ((rfl | rfl) | rfl) | rfl := hc <;> exact .cons (by decide) _

theorem skipSpace_skipSpace (cs : List Char) : skipSpace (skipSpace cs) = skipSpace cs :=
  List.dropWhile_idempotent _ cs

theorem readValue_skipSpace (fuel : Nat) (cs : List Char) :
    readValue fuel (skipSpace cs) = readValue fuel cs := by
  cases fuel with
  | zero => rfl
  | succ fuel => rw [readValue, readValue, skipSpace_skipSpace]

theorem readValue_spaces {space : List Char} (h : AreSpaces space) (fuel : Nat) (cs : List Char) :
    readValue fuel (space ++ cs) = readValue fuel cs := by
  rw [← readValue_skipSpace, h.skipSpace_append, readValue_skipSpace]

theorem readItems_skipSpace (fuel : Nat) (done : List Document) (cs : List Char) :
    readItems fuel done (skipSpace cs) = readItems fuel done cs := by
  cases fuel with
  | zero => rfl
  | succ fuel => rw [readItems, readItems, readValue_skipSpace]

theorem readMembers_skipSpace (fuel : Nat) (done : List (Option String × Document))
    (cs : List Char) : readMembers fuel done (skipSpace cs) = readMembers fuel done cs := by
  cases fuel with
  | zero => rfl
  | succ fuel => rw [readMembers, readMembers, skipSpace_skipSpace]

theorem readMembers_spaces {space : List Char} (h : AreSpaces space) (fuel : Nat)
    (done : List (Option String × Document)) (cs : List Char) :
    readMembers fuel done (space ++ cs) = readMembers fuel done cs := by
  rw [← readMembers_skipSpace, h.skipSpace_append, readMembers_skipSpace]

/-! ## Texts of values -/

mutual

/-- A text of a value. There may be space in front of each part and behind the last one. -/
inductive IsText : Json → List Char → Prop
  | null : IsText .null "null".toList
  | bool (b : Bool) : IsText (.bool b) (compact (.bool b))
  | number (n : Number) : IsText (.number n) (writeNumber n)
  | string (s : String) : IsText (.string s) (quote s)
  | array {items : List Json} {parts : List (List Char)} {after : List Char}
    (h : AreItems items parts) (hafter : AreSpaces after) :
    IsText (.array items) ('[' :: ([','].intercalate parts ++ after) ++ [']'])
  | object {members : List (String × Json)} {parts : List (List Char)} {after : List Char}
    (h : AreMembers members parts) (hafter : AreSpaces after) :
    IsText (.object members) ('\x7b' :: ([','].intercalate parts ++ after) ++ ['\x7d'])

inductive AreItems : List Json → List (List Char) → Prop
  | nil : AreItems [] []
  | cons {item : Json} {rest : List Json} {text before : List Char} {parts : List (List Char)}
    (hbefore : AreSpaces before) (h : IsText item text) (hrest : AreItems rest parts) :
    AreItems (item :: rest) ((before ++ text) :: parts)

inductive AreMembers : List (String × Json) → List (List Char) → Prop
  | nil : AreMembers [] []
  | cons {key : String} {value : Json} {rest : List (String × Json)} {text before gap : List Char}
    {parts : List (List Char)} (hbefore : AreSpaces before) (hgap : AreSpaces gap)
    (h : IsText value text) (hrest : AreMembers rest parts) :
    AreMembers ((key, value) :: rest) ((before ++ (quote key ++ ':' :: (gap ++ text))) :: parts)

end

theorem IsText.exists_cons {json : Json} {text : List Char} (h : IsText json text) :
    ∃ c cs, text = c :: cs ∧ Opens c := by
  cases h with
  | null => exact ⟨'n', "ull".toList, rfl, by decide⟩
  | bool b =>
    cases b with
    | true => exact ⟨'t', "rue".toList, rfl, by decide⟩
    | false => exact ⟨'f', "alse".toList, rfl, by decide⟩
  | number n => exact exists_writeNumber n
  | string s => exact ⟨'"', _, rfl, by decide⟩
  | array h hafter => exact ⟨'[', _, rfl, by decide⟩
  | object h hafter => exact ⟨'\x7b', _, rfl, by decide⟩

mutual

theorem isText_compact : ∀ json : Json, IsText json (compact json)
  | .null => .null
  | .bool b => .bool b
  | .number n => .number n
  | .string s => .string s
  | .array items => by
    have harray := IsText.array (areItems_compact items) .nil
    rwa [List.append_nil] at harray
  | .object members => by
    have hobject := IsText.object (areMembers_compact members) .nil
    rwa [List.append_nil] at hobject

theorem areItems_compact : ∀ items : List Json, AreItems items (compactItems items)
  | [] => .nil
  | item :: rest => .cons .nil (isText_compact item) (areItems_compact rest)

theorem areMembers_compact : ∀ members : List (String × Json),
    AreMembers members (compactMembers members)
  | [] => .nil
  | (_, value) :: rest => .cons .nil .nil (isText_compact value) (areMembers_compact rest)

end

theorem areSpaces_newLine (level : Nat) : AreSpaces (newLine level) := by
  intro c hc
  obtain rfl | hc := List.mem_cons.mp hc
  · rfl
  · rw [List.eq_of_mem_replicate hc]
    rfl

/-- A block is its parts with a line end in front of each of them and behind them all. -/
theorem block_eq {parts : List (List Char)} (h : parts ≠ []) (left right : Char) (level : Nat) :
    block left right level parts = left :: ([','].intercalate
      (parts.map fun part => newLine (level + 1) ++ part) ++ newLine level) ++ [right] := by
  have hparts : newLine (level + 1) ++ (',' :: newLine (level + 1)).intercalate parts =
      [','].intercalate (parts.map fun part => newLine (level + 1) ++ part) := by
    induction parts with
    | nil => exact absurd rfl h
    | cons part rest ih =>
      cases rest with
      | nil => rw [List.map_singleton, List.intercalate_singleton, List.intercalate_singleton]
      | cons next more =>
        rw [List.map_cons, List.map_cons, List.intercalate_cons_cons, List.intercalate_cons_cons,
          ← List.map_cons, ← ih (List.cons_ne_nil next more)]
        simp
  rw [block, if_neg (by simpa using h), ← hparts]
  simp

mutual

theorem isText_prettyAt (level : Nat) : ∀ json : Json, IsText json (prettyAt level json)
  | .null => .null
  | .bool b => .bool b
  | .number n => .number n
  | .string s => .string s
  | .array [] => .array .nil .nil
  | .array (item :: items) => by
    rw [prettyAt, block_eq (by rw [prettyItems]; exact List.cons_ne_nil _ _)]
    exact .array (areItems_pretty (level + 1) (item :: items)) (areSpaces_newLine level)
  | .object [] => .object .nil .nil
  | .object ((key, value) :: members) => by
    rw [prettyAt, block_eq (by rw [prettyMembers]; exact List.cons_ne_nil _ _)]
    exact .object (areMembers_pretty (level + 1) ((key, value) :: members))
      (areSpaces_newLine level)

theorem areItems_pretty (level : Nat) : ∀ items : List Json,
    AreItems items ((prettyItems level items).map fun part => newLine level ++ part)
  | [] => .nil
  | item :: rest =>
    .cons (areSpaces_newLine level) (isText_prettyAt level item) (areItems_pretty level rest)

theorem areMembers_pretty (level : Nat) : ∀ members : List (String × Json),
    AreMembers members ((prettyMembers level members).map fun part => newLine level ++ part)
  | [] => .nil
  | (_, value) :: rest =>
    .cons (areSpaces_newLine level) (List.forall_mem_singleton.mpr rfl)
      (isText_prettyAt level value) (areMembers_pretty level rest)

end

/-! ## Values -/

theorem quote_append (s : String) (rest : List Char) :
    quote s ++ rest = '"' :: (s.toList.flatMap escapeChar ++ '"' :: rest) := by
  simp [quote]

theorem readValue_quote (fuel : Nat) (s : String) (rest : List Char) :
    readValue (fuel + 1) (quote s ++ rest) = some (.string (some s), rest) := by
  have hread : ∀ cs, readValue (fuel + 1) ('"' :: cs) =
      (readString cs).map fun found => (.string found.1, found.2) := fun _ => rfl
  rw [quote_append, hread, readString_quote]
  rfl

section

variable {fuel : Nat} {cs rest after : List Char} {item : Document}

theorem readValue_array : readValue (fuel + 1) ('[' :: cs) = match skipSpace cs with
    | ']' :: rest => some (.array [], rest)
    | rest => readItems fuel [] rest := rfl

theorem readValue_object : readValue (fuel + 1) ('\x7b' :: cs) = match skipSpace cs with
    | '\x7d' :: rest => some (.object [], rest)
    | rest => readMembers fuel [] rest := rfl

theorem readValue_brackets (hafter : AreSpaces after) :
    readValue (fuel + 1) ('[' :: (after ++ ']' :: rest)) = some (.array [], rest) := by
  rw [readValue_array, hafter.skipSpace_append]
  rfl

theorem readValue_braces (hafter : AreSpaces after) :
    readValue (fuel + 1) ('\x7b' :: (after ++ '\x7d' :: rest)) = some (.object [], rest) := by
  rw [readValue_object, hafter.skipSpace_append]
  rfl

theorem readValue_bracket (h : (skipSpace cs).head? ≠ some ']') :
    readValue (fuel + 1) ('[' :: cs) = readItems fuel [] cs := by
  rw [readValue_array]
  split
  · rename_i heq
    rw [heq] at h
    exact absurd rfl h
  · exact readItems_skipSpace fuel [] cs

theorem readValue_brace (h : (skipSpace cs).head? ≠ some '\x7d') :
    readValue (fuel + 1) ('\x7b' :: cs) = readMembers fuel [] cs := by
  rw [readValue_object]
  split
  · rename_i heq
    rw [heq] at h
    exact absurd rfl h
  · exact readMembers_skipSpace fuel [] cs

theorem readItems_comma (h : readValue fuel cs = some (item, ',' :: rest)) (done : List Document) :
    readItems (fuel + 1) done cs = readItems fuel (item :: done) rest := by
  rw [readItems, h]
  rfl

theorem readItems_bracket (h : readValue fuel cs = some (item, after ++ ']' :: rest))
    (hafter : AreSpaces after) (done : List Document) :
    readItems (fuel + 1) done cs = some (.array (done.reverse ++ [item]), rest) := by
  rw [readItems, h, ← List.reverse_cons]
  dsimp only
  rw [hafter.skipSpace_append]
  rfl

variable (key : String) (done : List (Option String × Document))

theorem readMembers_quote : readMembers (fuel + 1) done (quote key ++ ':' :: cs) =
    match readValue fuel cs with
    | none => none
    | some (item, rest) =>
      match skipSpace rest with
      | ',' :: rest => readMembers fuel ((some key, item) :: done) rest
      | '\x7d' :: rest => some (.object ((some key, item) :: done).reverse, rest)
      | _ => none := by
  rw [quote_append, readMembers, skipSpace_of_isSpace rfl]
  simp only [readString_quote]
  rfl

theorem readMembers_comma (h : readValue fuel cs = some (item, ',' :: rest)) :
    readMembers (fuel + 1) done (quote key ++ ':' :: cs) =
      readMembers fuel ((some key, item) :: done) rest := by
  rw [readMembers_quote, h]
  rfl

theorem readMembers_brace (h : readValue fuel cs = some (item, after ++ '\x7d' :: rest))
    (hafter : AreSpaces after) : readMembers (fuel + 1) done (quote key ++ ':' :: cs) =
      some (.object (done.reverse ++ [(some key, item)]), rest) := by
  rw [readMembers_quote, h, ← List.reverse_cons]
  dsimp only
  rw [hafter.skipSpace_append]
  rfl

end

theorem ends_comma (rest : List Char) : Ends (',' :: rest) := .cons (by decide) rest

theorem ends_bracket (rest : List Char) : Ends (']' :: rest) := .cons (by decide) rest

theorem ends_brace (rest : List Char) : Ends ('\x7d' :: rest) := .cons (by decide) rest

theorem intercalate_comma (part next : List Char) (parts : List (List Char)) :
    [','].intercalate (part :: next :: parts) =
      part ++ ',' :: [','].intercalate (next :: parts) := by
  rw [List.intercalate_cons_cons, List.append_assoc, List.singleton_append]

theorem exists_intercalate (part : List Char) (parts : List (List Char)) :
    ∃ more, [','].intercalate (part :: parts) = part ++ more := by
  cases parts with
  | nil => exact ⟨[], by rw [List.intercalate_singleton, List.append_nil]⟩
  | cons next parts => exact ⟨_, intercalate_comma part next parts⟩

theorem AreItems.exists_cons {item : Json} {items : List Json} {parts : List (List Char)}
    (h : AreItems (item :: items) parts) : ∃ part more, parts = part :: more := by
  cases h
  exact ⟨_, _, rfl⟩

theorem AreMembers.exists_cons {member : String × Json} {members : List (String × Json)}
    {parts : List (List Char)} (h : AreMembers (member :: members) parts) :
    ∃ part more, parts = part :: more := by
  cases h
  exact ⟨_, _, rfl⟩

/-- What is between the brackets of an array starts with an item. -/
theorem AreItems.head?_skipSpace {item : Json} {items : List Json} {parts : List (List Char)}
    (h : AreItems (item :: items) parts) (rest : List Char) :
    (skipSpace ([','].intercalate parts ++ rest)).head? ≠ some ']' := by
  cases h with
  | @cons _ _ text before parts hbefore h hrest =>
    obtain ⟨c, cs, rfl, hspace, hc⟩ := h.exists_cons
    obtain ⟨more, hmore⟩ := exists_intercalate (before ++ c :: cs) parts
    rw [hmore, List.append_assoc, List.append_assoc, hbefore.skipSpace_append, List.cons_append,
      skipSpace_of_isSpace hspace]
    exact fun heq => hc (Option.some.inj heq)

/-- What is between the braces of an object starts with a key. -/
theorem AreMembers.head?_skipSpace {member : String × Json} {members : List (String × Json)}
    {parts : List (List Char)} (h : AreMembers (member :: members) parts) (rest : List Char) :
    (skipSpace ([','].intercalate parts ++ rest)).head? ≠ some '\x7d' := by
  cases h with
  | @cons key _ _ text before gap parts hbefore hgap h hrest =>
    obtain ⟨more, hmore⟩ :=
      exists_intercalate (before ++ (quote key ++ ':' :: (gap ++ text))) parts
    rw [hmore, List.append_assoc, List.append_assoc, hbefore.skipSpace_append, List.append_assoc,
      quote_append, skipSpace_of_isSpace rfl]
    exact fun heq => absurd (Option.some.inj heq) (by decide)

mutual

/-- A text of a value is taken as a whole, if there is fuel for two parts a character. The brackets
around the items and members, and the commas between them, pay for the steps from one to another. -/
theorem readValue_of_isText (json : Json) {text : List Char} (h : IsText json text) {fuel : Nat}
    {rest : List Char} (hfuel : 2 * text.length ≤ fuel) (hrest : Ends rest) :
    readValue fuel (text ++ rest) = some (json.reread, rest) := by
  obtain ⟨fuel, rfl⟩ : ∃ less, fuel = less + 1 := by
    obtain ⟨c, cs, rfl, -⟩ := h.exists_cons
    refine Nat.exists_eq_succ_of_ne_zero ?_
    rw [List.length_cons] at hfuel
    omega
  cases json with
  | null =>
    cases h
    rfl
  | bool b =>
    cases h
    cases b <;> rfl
  | number n =>
    cases h
    exact readValue_writeNumber n fuel hrest
  | string s =>
    cases h
    exact readValue_quote fuel s rest
  | array items =>
    cases h with
    | @array _ parts after h hafter =>
      -- The two brackets leave what the steps from item to item need.
      have hlength : 2 * ([','].intercalate parts ++ after).length + 1 ≤ fuel := by
        rw [List.length_append, List.length_cons, List.length_singleton] at hfuel
        omega
      rw [List.append_assoc, List.cons_append, List.singleton_append, List.append_assoc]
      cases items with
      | nil =>
        cases h
        exact readValue_brackets hafter
      | cons item items =>
        rw [readValue_bracket (h.head?_skipSpace _),
          readItems_of_areItems (item :: items) h (List.cons_ne_nil _ _) hafter [] hlength rest]
        rfl
  | object members =>
    cases h with
    | @object _ parts after h hafter =>
      have hlength : 2 * ([','].intercalate parts ++ after).length + 1 ≤ fuel := by
        rw [List.length_append, List.length_cons, List.length_singleton] at hfuel
        omega
      rw [List.append_assoc, List.cons_append, List.singleton_append, List.append_assoc]
      cases members with
      | nil =>
        cases h
        exact readValue_braces hafter
      | cons member members =>
        rw [readValue_brace (h.head?_skipSpace _),
          readMembers_of_areMembers (member :: members) h (List.cons_ne_nil _ _) hafter [] hlength
            rest]
        rfl

theorem readItems_of_areItems (items : List Json) {parts : List (List Char)} {after : List Char}
    (h : AreItems items parts) (hne : items ≠ []) (hafter : AreSpaces after)
    (done : List Document) {fuel : Nat}
    (hfuel : 2 * ([','].intercalate parts ++ after).length + 1 ≤ fuel) (rest : List Char) :
    readItems fuel done ([','].intercalate parts ++ (after ++ ']' :: rest)) =
      some (.array (done.reverse ++ rereadItems items), rest) := by
  obtain ⟨fuel, rfl⟩ : ∃ less, fuel = less + 1 := Nat.exists_eq_succ_of_ne_zero (by omega)
  obtain _ | ⟨item, items⟩ := items
  · exact absurd rfl hne
  obtain _ | ⟨hbefore, h, hrest⟩ := h
  rename_i text before parts
  rw [List.length_append] at hfuel
  cases items with
  | nil =>
    cases hrest
    rw [List.intercalate_singleton, List.length_append] at hfuel
    rw [List.intercalate_singleton, List.append_assoc]
    refine readItems_bracket ?_ hafter done
    rw [readValue_spaces hbefore]
    exact readValue_of_isText item h (by omega) (hafter.ends_append (ends_bracket rest))
  | cons next items =>
    obtain ⟨part, parts, rfl⟩ := hrest.exists_cons
    rw [intercalate_comma, List.length_append, List.length_append, List.length_cons] at hfuel
    -- The comma behind the item pays for the step to the next one.
    have hitem : ∀ more, readValue fuel (before ++ (text ++ ',' :: more)) =
        some (item.reread, ',' :: more) := by
      intro more
      rw [readValue_spaces hbefore]
      exact readValue_of_isText item h (by omega) (ends_comma more)
    rw [intercalate_comma, List.append_assoc, List.append_assoc, List.cons_append,
      readItems_comma (hitem _) done,
      readItems_of_areItems (next :: items) hrest (List.cons_ne_nil _ _) hafter _
        (by rw [List.length_append]; omega), List.reverse_cons, List.append_assoc]
    rfl

theorem readMembers_of_areMembers (members : List (String × Json)) {parts : List (List Char)}
    {after : List Char} (h : AreMembers members parts) (hne : members ≠ [])
    (hafter : AreSpaces after) (done : List (Option String × Document)) {fuel : Nat}
    (hfuel : 2 * ([','].intercalate parts ++ after).length + 1 ≤ fuel) (rest : List Char) :
    readMembers fuel done ([','].intercalate parts ++ (after ++ '\x7d' :: rest)) =
      some (.object (done.reverse ++ rereadMembers members), rest) := by
  obtain ⟨fuel, rfl⟩ : ∃ less, fuel = less + 1 := Nat.exists_eq_succ_of_ne_zero (by omega)
  obtain _ | ⟨⟨key, value⟩, members⟩ := members
  · exact absurd rfl hne
  obtain _ | ⟨hbefore, hgap, h, hrest⟩ := h
  rename_i text before gap parts
  -- The quotes around the key pay for the step to the next member.
  have hquote : 2 ≤ (quote key).length := by simp [quote]
  rw [List.length_append] at hfuel
  cases members with
  | nil =>
    cases hrest
    rw [List.intercalate_singleton] at hfuel ⊢
    simp only [List.length_append, List.length_cons] at hfuel
    rw [List.append_assoc, readMembers_spaces hbefore, List.append_assoc, List.cons_append,
      List.append_assoc]
    refine readMembers_brace key done ?_ hafter
    rw [readValue_spaces hgap]
    exact readValue_of_isText value h (by omega) (hafter.ends_append (ends_brace rest))
  | cons next members =>
    obtain ⟨part, parts, rfl⟩ := hrest.exists_cons
    rw [intercalate_comma] at hfuel ⊢
    simp only [List.length_append, List.length_cons] at hfuel
    have hvalue : ∀ more, readValue fuel (gap ++ (text ++ ',' :: more)) =
        some (value.reread, ',' :: more) := by
      intro more
      rw [readValue_spaces hgap]
      exact readValue_of_isText value h (by omega) (ends_comma more)
    rw [List.append_assoc, List.append_assoc, readMembers_spaces hbefore, List.append_assoc,
      List.cons_append, List.cons_append, List.append_assoc, readMembers_comma key done (hvalue _),
      readMembers_of_areMembers (next :: members) hrest (List.cons_ne_nil _ _) hafter _
        (by rw [List.length_append]; omega), List.reverse_cons, List.append_assoc]
    rfl

end

/-- A value is read back from any of its texts. -/
theorem IsText.ofText? {json : Json} {text : List Char} (h : IsText json text) :
    Document.ofText? text = some json.reread := by
  have hread := readValue_of_isText json h (Nat.le_succ (2 * text.length)) .nil
  rw [List.append_nil] at hread
  unfold Document.ofText?
  rw [hread]
  rfl

theorem ofText?_compact (json : Json) : Document.ofText? (compact json) = some json.reread :=
  (isText_compact json).ofText?

theorem ofText?_pretty (json : Json) : Document.ofText? (pretty json) = some json.reread :=
  (isText_prettyAt 0 json).ofText?

/-- Nothing but blanks may stand behind a value. -/
theorem ofText?_compact_append (json : Json) {c : Char} {rest : List Char} (hc : isSpace c = false)
    (hends : Ends (c :: rest)) : Document.ofText? (compact json ++ c :: rest) = none := by
  have hfuel : 2 * (compact json).length ≤ 2 * (compact json ++ c :: rest).length + 1 := by
    rw [List.length_append]
    omega
  unfold Document.ofText?
  rw [readValue_of_isText json (isText_compact json) hfuel hends]
  dsimp only
  rw [skipSpace_of_isSpace hc]
  rfl

end Rephrase.Json
