import Rephrase.Json.Reader
import Rephrase.Proofs.Oracle.Bracket

/-! What the reader of JSON takes for a value keeps the bracket scans where they are, so an object
is taken by both from its first brace to the brace that closes it. -/

namespace Rephrase.Oracle

open Json

/-- A text that the scan passes with the same brackets open after it as before. -/
def Neutral (w : List Char) : Prop :=
  ∀ taken due outer rest, balancedFrom taken (due :: outer) .outside (w ++ rest) =
    balancedFrom (w.reverse ++ taken) (due :: outer) .outside rest

/-- A text inside quotes up to the closing quote, which is its last character. -/
def Closing (w : List Char) : Prop :=
  ∀ taken due outer rest, balancedFrom taken (due :: outer) .inside (w ++ rest) =
    balancedFrom (w.reverse ++ taken) (due :: outer) .outside rest

theorem Neutral.nil : Neutral [] := by
  intro taken due outer rest
  rfl

theorem Neutral.append {v w : List Char} (hv : Neutral v) (hw : Neutral w) :
    Neutral (v ++ w) := by
  intro taken due outer rest
  rw [List.append_assoc, hv, hw, List.reverse_append, List.append_assoc]

/-- A character that means nothing to the scan outside of quotes. -/
def IsPlain (c : Char) : Prop := c ≠ '"' ∧ isOpening c = false ∧ isClosing c = false

instance : DecidablePred IsPlain := fun _ => inferInstanceAs (Decidable (_ ∧ _))

theorem Neutral.of_forall {w : List Char} (h : ∀ c ∈ w, IsPlain c) : Neutral w := by
  induction w with
  | nil => exact .nil
  | cons c w ih =>
    obtain ⟨hquote, hopening, hclosing⟩ := h c List.mem_cons_self
    intro taken due outer rest
    rw [List.cons_append, balancedFrom_plain hquote hopening hclosing,
      ih fun d hd => h d (List.mem_cons_of_mem _ hd)]
    simp

/-- Brackets of one kind around a neutral text make a neutral text. -/
theorem Neutral.enclose {w : List Char} {c : Char} (hw : Neutral w)
    (hopening : isOpening c = true) : Neutral (c :: (w ++ [closingOf c])) := by
  intro taken due outer rest
  rw [List.cons_append, balancedFrom_opening hopening, List.append_assoc, hw,
    List.singleton_append,
    balancedFrom_closing (isClosing_closingOf c) (List.cons_ne_nil due outer)]
  simp

theorem Closing.quote : Closing ['"'] := by
  intro taken due outer rest
  rw [List.singleton_append, balancedFrom_quoted (by decide)]
  rfl

theorem Closing.cons {c : Char} {w : List Char} (hw : Closing w) (hquote : c ≠ '"')
    (hbackslash : c ≠ '\\') : Closing (c :: w) := by
  intro taken due outer rest
  have hnext : Quoting.next c .inside = .inside := by simp [Quoting.next, hquote, hbackslash]
  rw [List.cons_append, balancedFrom_quoted (by decide), hnext, hw]
  simp

theorem Closing.escape {c : Char} {w : List Char} (hw : Closing w) :
    Closing ('\\' :: c :: w) := by
  intro taken due outer rest
  rw [List.cons_append, balancedFrom_quoted (by decide)]
  show balancedFrom ('\\' :: taken) (due :: outer) .escaped (c :: (w ++ rest)) = _
  rw [balancedFrom_quoted (by decide)]
  show balancedFrom (c :: '\\' :: taken) (due :: outer) .inside (w ++ rest) = _
  rw [hw]
  simp

theorem Closing.neutral {w : List Char} (hw : Closing w) : Neutral ('"' :: w) := by
  intro taken due outer rest
  rw [List.cons_append, balancedFrom_quote, hw]
  simp

/-- From a text to what is left of it, over a neutral front. -/
def Passes (cs rest : List Char) : Prop := ∃ w, cs = w ++ rest ∧ Neutral w

namespace Passes

theorem refl (cs : List Char) : Passes cs cs := ⟨[], rfl, .nil⟩

theorem trans {cs mid rest : List Char} (h : Passes cs mid) (h' : Passes mid rest) :
    Passes cs rest := by
  obtain ⟨v, rfl, hv⟩ := h
  obtain ⟨w, rfl, hw⟩ := h'
  exact ⟨v ++ w, (List.append_assoc v w rest).symm, hv.append hw⟩

theorem length_le {cs rest : List Char} (h : Passes cs rest) : rest.length ≤ cs.length := by
  obtain ⟨w, rfl, -⟩ := h
  simp

theorem plain {c : Char} (hc : IsPlain c) (rest : List Char) : Passes (c :: rest) rest := by
  refine ⟨[c], rfl, .of_forall fun d hd => ?_⟩
  obtain rfl := List.mem_singleton.mp hd
  exact hc

theorem enclose {c : Char} {inner rest : List Char} (h : Passes inner (closingOf c :: rest))
    (hopening : isOpening c = true) : Passes (c :: inner) rest := by
  obtain ⟨w, rfl, hw⟩ := h
  exact ⟨c :: (w ++ [closingOf c]), by simp, hw.enclose hopening⟩

end Passes

/-! ## The parts of a text -/

theorem passes_dropWhile {p : Char → Bool} (cs : List Char) (h : ∀ c, p c = true → IsPlain c) :
    Passes cs (cs.dropWhile p) := by
  refine ⟨cs.takeWhile p, List.takeWhile_append_dropWhile.symm, .of_forall fun c hc => ?_⟩
  exact h c (List.all_eq_true.mp List.all_takeWhile c hc)

theorem passes_skipSpace (cs : List Char) : Passes cs (skipSpace cs) := by
  refine passes_dropWhile cs fun c hc => ?_
  simp only [isSpace, Bool.or_eq_true, beq_iff_eq] at hc
  obtain ((rfl | rfl) | rfl) | rfl := hc <;> decide

theorem ne_of_hexDigit? {c : Char} {n : Nat} (h : hexDigit? c = some n) :
    c ≠ '"' ∧ c ≠ '\\' := by
  constructor <;> rintro rfl <;> simp [hexDigit?] at h

theorem closing_of_readPieces {done pieces : List Piece} {cs rest : List Char}
    (h : readPieces done cs = some (pieces, rest)) : ∃ w, cs = w ++ rest ∧ Closing w := by
  fun_induction readPieces done cs with
  | case1 done rest =>
    obtain ⟨-, rfl⟩ : _ ∧ _ := by simpa using h
    exact ⟨['"'], rfl, .quote⟩
  | case2 done a b c d rest n hunit ih =>
    obtain ⟨w, rfl, hw⟩ := ih h
    simp only [hexUnit?, Option.bind_eq_bind, Option.bind_eq_some_iff] at hunit
    -- Four hexadecimal digits are neither quotes nor backslashes.
    obtain ⟨_, ha, _, hb, _, hc, _, hd, -⟩ := hunit
    obtain ⟨⟨ha, ha'⟩, hb, hb'⟩ := And.intro (ne_of_hexDigit? ha) (ne_of_hexDigit? hb)
    obtain ⟨⟨hc, hc'⟩, hd, hd'⟩ := And.intro (ne_of_hexDigit? hc) (ne_of_hexDigit? hd)
    exact ⟨'\\' :: 'u' :: a :: b :: c :: d :: w, rfl,
      ((((hw.cons hd hd').cons hc hc').cons hb hb').cons ha ha').escape⟩
  | case3 => simp at h
  | case4 done c rest _ e he ih =>
    obtain ⟨w, rfl, hw⟩ := ih h
    exact ⟨'\\' :: c :: w, rfl, hw.escape⟩
  | case5 => simp at h
  | case6 => simp at h
  | case7 done c rest hquote hunit hescape hcontrol ih =>
    obtain ⟨w, rfl, hw⟩ := ih h
    -- A backslash at the end of the text leaves nothing to read a closing quote from.
    by_cases hbackslash : c = '\\'
    · cases w with
      | nil =>
        cases rest with
        | nil => simp [readPieces] at h
        | cons d rest => exact (hescape d rest hbackslash rfl).elim
      | cons d w => exact (hescape d _ hbackslash rfl).elim
    · exact ⟨c :: w, rfl, hw.cons hquote hbackslash⟩
  | case8 => simp at h

theorem passes_of_readString {s : Option String} {cs rest : List Char}
    (h : readString cs = some (s, rest)) :
    Passes ('"' :: cs) rest ∧ rest.length ≤ cs.length := by
  unfold readString at h
  obtain ⟨⟨pieces, rest'⟩, hpieces, hpair⟩ := Option.map_eq_some_iff.mp h
  obtain ⟨-, rfl⟩ := Prod.mk.inj hpair
  obtain ⟨w, rfl, hw⟩ := closing_of_readPieces hpieces
  exact ⟨⟨'"' :: w, rfl, hw.neutral⟩, by simp⟩

/-! ## Numbers and words -/

theorem isPlain_of_isDigit {c : Char} (h : c.isDigit = true) : IsPlain c := by
  refine ⟨?_, ?_, ?_⟩
  · rintro rfl
    exact absurd h (by decide)
  · refine Bool.eq_false_iff.mpr fun hopening => ?_
    simp only [isOpening, Bool.or_eq_true, beq_iff_eq] at hopening
    obtain rfl | rfl := hopening <;> exact absurd h (by decide)
  · refine Bool.eq_false_iff.mpr fun hclosing => ?_
    simp only [isClosing, Bool.or_eq_true, beq_iff_eq] at hclosing
    obtain rfl | rfl := hclosing <;> exact absurd h (by decide)

theorem passes_of_readDigits {digits cs rest : List Char}
    (h : readDigits cs = some (digits, rest)) : Passes cs rest ∧ rest.length < cs.length := by
  unfold readDigits at h
  dsimp only at h
  split at h
  · simp at h
  · rename_i hdigits
    obtain ⟨-, rfl⟩ : _ ∧ _ := by simpa using h
    refine ⟨passes_dropWhile cs fun c => isPlain_of_isDigit, ?_⟩
    have hsplit := congrArg List.length
      (List.takeWhile_append_dropWhile (p := Char.isDigit) (l := cs))
    have hpos := List.length_pos_iff.mpr (mt List.isEmpty_iff.mpr hdigits)
    rw [List.length_append] at hsplit
    omega

theorem passes_of_readWhole {digits cs rest : List Char}
    (h : readWhole cs = some (digits, rest)) : Passes cs rest ∧ rest.length < cs.length := by
  unfold readWhole at h
  split at h
  · rename_i tail
    have hrest : rest = tail := by
      split at h
      · split at h
        · simp at h
        · simp_all
      · simp_all
    subst hrest
    exact ⟨.plain (by decide) rest, by simp⟩
  · exact passes_of_readDigits h

theorem passes_of_readFraction {digits : Option (List Char)} {cs rest : List Char}
    (h : readFraction cs = some (digits, rest)) : Passes cs rest := by
  unfold readFraction at h
  split at h
  · rename_i tail
    obtain ⟨⟨digits', rest'⟩, hdigits, hpair⟩ := Option.map_eq_some_iff.mp h
    obtain ⟨-, rfl⟩ := Prod.mk.inj hpair
    exact (Passes.plain (by decide) tail).trans (passes_of_readDigits hdigits).1
  · obtain ⟨-, rfl⟩ : _ ∧ _ := by simpa using h
    exact .refl _

theorem passes_readExponentSign (cs : List Char) : Passes cs (readExponentSign cs).2 := by
  unfold readExponentSign
  split
  · exact .plain (by decide) _
  · exact .plain (by decide) _
  · exact .refl _

theorem passes_of_readExponent {exponent : Option (Bool × List Char)} {cs rest : List Char}
    (h : readExponent cs = some (exponent, rest)) : Passes cs rest := by
  unfold readExponent at h
  split at h
  · rename_i c tail
    split at h
    · rename_i hc
      obtain ⟨⟨digits', rest'⟩, hdigits, hpair⟩ := Option.map_eq_some_iff.mp h
      obtain ⟨-, rfl⟩ := Prod.mk.inj hpair
      have hplain : Passes (c :: tail) tail := by
        simp only [Bool.or_eq_true, decide_eq_true_eq] at hc
        obtain rfl | rfl := hc <;> exact .plain (by decide) tail
      exact (hplain.trans (passes_readExponentSign tail)).trans (passes_of_readDigits hdigits).1
    · obtain ⟨-, rfl⟩ : _ ∧ _ := by simpa using h
      exact .refl _
  · obtain ⟨-, rfl⟩ : _ ∧ _ := by simpa using h
    exact .refl _

theorem passes_of_readNumeral {numeral : Numeral} {cs rest : List Char}
    (h : readNumeral cs = some (numeral, rest)) : Passes cs rest ∧ rest.length < cs.length := by
  unfold readNumeral at h
  split at h
  rename_i negative tail heq
  simp only [Option.bind_eq_bind, Option.bind_eq_some_iff, Prod.exists, Option.pure_def,
    Option.some.injEq, Prod.mk.injEq] at h
  obtain ⟨_, mid, hwhole, _, mid', hfraction, _, stop, hexponent, -, rfl⟩ := h
  -- With the sign read, the rest of a number is the same for both signs.
  have hsign : Passes tail stop ∧ stop.length < tail.length := by
    have hfraction := passes_of_readFraction hfraction
    have hexponent := passes_of_readExponent hexponent
    obtain ⟨hwhole, hlength⟩ := passes_of_readWhole hwhole
    have hle := (hfraction.trans hexponent).length_le
    exact ⟨(hwhole.trans hfraction).trans hexponent, by omega⟩
  split at heq
  · rename_i tail'
    obtain ⟨rfl, rfl⟩ := Prod.mk.inj heq
    exact ⟨(Passes.plain (by decide) tail').trans hsign.1, Nat.lt_succ_of_lt hsign.2⟩
  · obtain ⟨rfl, rfl⟩ := Prod.mk.inj heq
    exact hsign

theorem passes_of_readWord {word : List Char} {value document : Document} {cs rest : List Char}
    (hword : ∀ c ∈ word, IsPlain c)
    (h : readWord word value cs = some (document, rest)) : Passes cs rest := by
  unfold readWord at h
  split at h
  · rename_i hfront
    obtain ⟨-, rfl⟩ : _ ∧ _ := by simpa using h
    obtain ⟨tail, rfl⟩ := List.isPrefixOf_iff_prefix.mp hfront
    rw [List.drop_left]
    exact ⟨word, rfl, .of_forall hword⟩
  · simp at h

theorem passes_of_readWord_cons {c : Char} {word inner rest : List Char} {value document : Document}
    (hc : IsPlain c) (hplain : word.all (fun d => decide (IsPlain d)) = true)
    (h : readWord word value inner = some (document, rest)) :
    Passes (c :: inner) rest ∧ rest.length < (c :: inner).length := by
  have hword : ∀ d ∈ word, IsPlain d := fun d hd =>
    of_decide_eq_true (List.all_eq_true.mp hplain d hd)
  have hinner := passes_of_readWord hword h
  exact ⟨(Passes.plain hc inner).trans hinner, Nat.lt_succ_of_le hinner.length_le⟩

/-- What is read up to the bracket that is due is passed with both brackets. -/
theorem Passes.enclosed {c : Char} {inner rest : List Char} (hc : isOpening c = true)
    (h : Passes inner (closingOf c :: rest)) :
    Passes (c :: inner) rest ∧ rest.length < (c :: inner).length := by
  have hlength := h.length_le
  refine ⟨h.enclose hc, ?_⟩
  simp only [List.length_cons] at hlength ⊢
  omega

/-! ## Values -/

/-- What the reader takes at each of its three entries, and that a value is never empty. -/
structure Keeps (fuel : Nat) : Prop where
  value : ∀ {cs document rest}, readValue fuel cs = some (document, rest) →
    Passes cs rest ∧ rest.length < cs.length
  items : ∀ {done cs document rest}, readItems fuel done cs = some (document, rest) →
    Passes cs (']' :: rest)
  members : ∀ {done cs document rest}, readMembers fuel done cs = some (document, rest) →
    Passes cs ('\x7d' :: rest)

theorem Keeps.zero : Keeps 0 := by
  constructor <;> intros <;> simp_all [readValue, readItems, readMembers]

theorem Keeps.value_succ {fuel : Nat} (ih : Keeps fuel) {cs rest : List Char}
    {document : Document} (h : readValue (fuel + 1) cs = some (document, rest)) :
    Passes cs rest ∧ rest.length < cs.length := by
  have hspace := passes_skipSpace cs
  have hle := hspace.length_le
  suffices Passes (skipSpace cs) rest ∧ rest.length < (skipSpace cs).length from
    ⟨hspace.trans this.1, by omega⟩
  unfold readValue at h
  split at h
  -- A string.
  · rename_i inner heq
    rw [heq]
    obtain ⟨⟨s, rest'⟩, hstring, hpair⟩ := Option.map_eq_some_iff.mp h
    obtain ⟨-, rfl⟩ := Prod.mk.inj hpair
    obtain ⟨hpass, hlength⟩ := passes_of_readString hstring
    exact ⟨hpass, Nat.lt_succ_of_le hlength⟩
  · rename_i inner heq
    rw [heq]
    have hinner := passes_skipSpace inner
    split at h
    · rename_i tail htail
      obtain ⟨-, rfl⟩ : _ ∧ _ := by simpa using h
      exact Passes.enclosed rfl (htail ▸ hinner)
    · exact Passes.enclosed rfl (hinner.trans (ih.items h))
  · rename_i inner heq
    rw [heq]
    have hinner := passes_skipSpace inner
    split at h
    · rename_i tail htail
      obtain ⟨-, rfl⟩ : _ ∧ _ := by simpa using h
      exact Passes.enclosed rfl (htail ▸ hinner)
    · exact Passes.enclosed rfl (hinner.trans (ih.members h))
  · rename_i inner heq
    rw [heq]
    exact passes_of_readWord_cons (by decide) (by decide) h
  · rename_i inner heq
    rw [heq]
    exact passes_of_readWord_cons (by decide) (by decide) h
  · rename_i inner heq
    rw [heq]
    exact passes_of_readWord_cons (by decide) (by decide) h
  · obtain ⟨⟨numeral, rest'⟩, hnumeral, hpair⟩ := Option.map_eq_some_iff.mp h
    obtain ⟨-, rfl⟩ := Prod.mk.inj hpair
    exact passes_of_readNumeral hnumeral

theorem Keeps.items_succ {fuel : Nat} (ih : Keeps fuel) {done : List Document}
    {cs rest : List Char} {document : Document}
    (h : readItems (fuel + 1) done cs = some (document, rest)) : Passes cs (']' :: rest) := by
  unfold readItems at h
  split at h
  · simp at h
  · rename_i item tail hitem
    have hpass := (ih.value hitem).1.trans (passes_skipSpace tail)
    split at h
    · rename_i tail' heq
      rw [heq] at hpass
      exact hpass.trans ((Passes.plain (by decide) tail').trans (ih.items h))
    · rename_i tail' heq
      obtain ⟨-, rfl⟩ : _ ∧ _ := by simpa using h
      exact heq ▸ hpass
    · simp at h

theorem Keeps.members_succ {fuel : Nat} (ih : Keeps fuel)
    {done : List (Option String × Document)} {cs rest : List Char} {document : Document}
    (h : readMembers (fuel + 1) done cs = some (document, rest)) :
    Passes cs ('\x7d' :: rest) := by
  unfold readMembers at h
  split at h
  · rename_i inner hquote
    split at h
    · simp at h
    · rename_i key tail hkey
      have hkey := (passes_of_readString hkey).1.trans (passes_skipSpace tail)
      rw [← hquote] at hkey
      split at h
      · rename_i tail' hcolon
        rw [hcolon] at hkey
        split at h
        · simp at h
        · rename_i item after hitem
          -- Blanks, the key, the colon and the value are passed one after another.
          have hpass := ((passes_skipSpace cs).trans hkey).trans
            ((Passes.plain (by decide) tail').trans
              ((ih.value hitem).1.trans (passes_skipSpace after)))
          split at h
          · rename_i after' heq
            rw [heq] at hpass
            exact hpass.trans ((Passes.plain (by decide) after').trans (ih.members h))
          · rename_i after' heq
            obtain ⟨-, rfl⟩ : _ ∧ _ := by simpa using h
            exact heq ▸ hpass
          · simp at h
      · simp at h
  · simp at h

theorem keeps (fuel : Nat) : Keeps fuel := by
  induction fuel with
  | zero => exact .zero
  | succ fuel ih => exact ⟨ih.value_succ, ih.items_succ, ih.members_succ⟩

theorem readValue_brace (fuel : Nat) (inner : List Char) :
    readValue (fuel + 1) ('\x7b' :: inner) =
      match skipSpace inner with
      | '\x7d' :: rest => some (.object [], rest)
      | rest => readMembers fuel [] rest := by
  rw [readValue]
  rfl

/-- An object that the reader takes is a block, and nothing of the text after it counts. -/
theorem isBlock_of_readValue {fuel : Nat} {cs rest : List Char} {document : Document}
    (hhead : cs.head? = some '\x7b') (h : readValue fuel cs = some (document, rest)) :
    ∃ block, cs = block ++ rest ∧ IsBlock block := by
  obtain ⟨inner, rfl⟩ : ∃ inner, cs = '\x7b' :: inner := by
    cases cs with
    | nil => simp at hhead
    | cons c inner => exact ⟨inner, by simpa using hhead⟩
  cases fuel with
  | zero => simp [readValue] at h
  | succ fuel =>
    -- What is inside the braces keeps the scan at one open bracket.
    have hinner : Passes inner ('\x7d' :: rest) := by
      have hspace := passes_skipSpace inner
      rw [readValue_brace] at h
      split at h
      · rename_i tail htail
        obtain ⟨-, rfl⟩ : _ ∧ _ := by simpa using h
        exact htail ▸ hspace
      · exact hspace.trans ((keeps fuel).members h)
    obtain ⟨w, rfl, hw⟩ := hinner
    refine ⟨'\x7b' :: (w ++ ['\x7d']), by simp, rfl, ?_⟩
    rw [balanced?, balancedFrom_opening rfl]
    show balancedFrom ['\x7b'] ['\x7d'] .outside (w ++ ['\x7d']) = _
    rw [hw, balancedFrom_last rfl]
    simp

end Rephrase.Oracle
