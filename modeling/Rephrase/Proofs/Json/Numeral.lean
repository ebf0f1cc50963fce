import Mathlib
import Rephrase.Json.Number
import Rephrase.Json.Printer
import Rephrase.Proofs.Decimal.Digits

/-! A numeral is read back from its digits as long as nothing follows that could go on with it, and
an integer of 64 bits is the value of its numeral. A float is written as a numeral, whose digits are
those of its shortest decimal form. -/

namespace Rephrase.Json

open Decimal (AreDigits Scaled)

/-! ## What may follow -/

/-- A text that does not go on with a number in front of it. -/
def Ends (rest : List Char) : Prop :=
  ∀ c ∈ rest.head?, c.isDigit = false ∧ c ≠ '.' ∧ c ≠ 'e' ∧ c ≠ 'E'

theorem Ends.nil : Ends [] := nofun

theorem Ends.cons {c : Char} (h : c.isDigit = false ∧ c ≠ '.' ∧ c ≠ 'e' ∧ c ≠ 'E')
    (rest : List Char) : Ends (c :: rest) := by
  rintro d ⟨⟩
  exact h

theorem readDigits_append {digits rest : List Char} (h : AreDigits digits)
    (hrest : ∀ c ∈ rest.head?, c.isDigit = false) :
    readDigits (digits ++ rest) = some (digits, rest) := by
  obtain ⟨htake, hdrop⟩ := h.takeWhile_append hrest
  unfold readDigits
  rw [htake, hdrop]
  dsimp only
  rw [List.isEmpty_eq_false_iff.mpr h.1, if_neg Bool.false_ne_true]

/-! ## Numerals -/

namespace Numeral

/-- A numeral that is well formed: there are digits wherever there is a place for them, and a zero
in front stands alone. -/
structure IsProper (numeral : Numeral) : Prop where
  whole : AreDigits numeral.whole
  leading : numeral.whole.head? = some '0' → numeral.whole = ['0']
  fraction : ∀ digits ∈ numeral.fraction, AreDigits digits
  exponent : ∀ e ∈ numeral.exponent, AreDigits e.2

def fractionText : Option (List Char) → List Char
  | some digits => '.' :: digits
  | none => []

def exponentText : Option (Bool × List Char) → List Char
  | some (down, digits) => 'e' :: (if down then '-' :: digits else digits)
  | none => []

/-- A numeral as it is written. -/
def text (numeral : Numeral) : List Char :=
  (if numeral.negative then ['-'] else []) ++
    (numeral.whole ++ (fractionText numeral.fraction ++ exponentText numeral.exponent))

end Numeral

theorem readWhole_append {digits rest : List Char} (h : AreDigits digits)
    (hleading : digits.head? = some '0' → digits = ['0'])
    (hrest : ∀ c ∈ rest.head?, c.isDigit = false) :
    readWhole (digits ++ rest) = some (digits, rest) := by
  obtain ⟨c, more, rfl⟩ := List.exists_cons_of_ne_nil h.1
  by_cases hzero : c = '0'
  · subst hzero
    obtain rfl : more = [] := (List.cons.inj (hleading rfl)).2
    cases rest with
    | nil => rfl
    | cons d rest =>
      show (if d.isDigit then none else some (['0'], d :: rest)) = _
      rw [hrest d rfl, if_neg Bool.false_ne_true]
  · rw [List.cons_append, readWhole.eq_3 _ fun _ heq => hzero (List.cons.inj heq).1,
      ← List.cons_append, readDigits_append h hrest]

theorem readFraction_append {fraction : Option (List Char)} {rest : List Char}
    (h : ∀ digits ∈ fraction, AreDigits digits)
    (hrest : ∀ c ∈ rest.head?, c.isDigit = false ∧ c ≠ '.') :
    readFraction (Numeral.fractionText fraction ++ rest) = some (fraction, rest) := by
  cases fraction with
  | some digits =>
    show (readDigits (digits ++ rest)).map _ = _
    rw [readDigits_append (h digits rfl) fun c hc => (hrest c hc).1]
    rfl
  | none =>
    refine readFraction.eq_2 rest ?_
    rintro more rfl
    exact (hrest '.' rfl).2 rfl

theorem readExponent_append {exponent : Option (Bool × List Char)} {rest : List Char}
    (h : ∀ e ∈ exponent, AreDigits e.2) (hrest : Ends rest) :
    readExponent (Numeral.exponentText exponent ++ rest) = some (exponent, rest) := by
  have hend : ∀ c ∈ rest.head?, c.isDigit = false := fun c hc => (hrest c hc).1
  cases exponent with
  | none =>
    cases rest with
    | nil => rfl
    | cons c rest =>
      obtain ⟨-, -, he, hE⟩ := hrest c rfl
      show (if (c = 'e' || c = 'E') then _ else some (none, c :: rest)) = _
      rw [if_neg (by simp [he, hE])]
  | some e =>
    obtain ⟨down, digits⟩ := e
    have hdigits : AreDigits digits := h _ rfl
    have hread := readDigits_append hdigits hend
    -- Digits do not start with a sign, so a missing one is not read from them.
    have hsign : readExponentSign ((if down then '-' :: digits else digits) ++ rest) =
        (down, digits ++ rest) := by
      cases down with
      | true => rfl
      | false =>
        obtain ⟨c, more, rfl⟩ := List.exists_cons_of_ne_nil hdigits.1
        have hc := hdigits.2 c List.mem_cons_self
        refine readExponentSign.eq_3 _ ?_ ?_ <;>
        · rintro _ heq
          rw [(List.cons.inj heq).1] at hc
          exact absurd hc (by decide)
    have hshape : readExponent (Numeral.exponentText (some (down, digits)) ++ rest) =
        (readDigits (readExponentSign ((if down then '-' :: digits else digits) ++ rest)).2).map
          fun found => (some ((readExponentSign
            ((if down then '-' :: digits else digits) ++ rest)).1, found.1), found.2) := rfl
    rw [hshape, hsign, hread]
    rfl

/-- A sign is taken off a numeral first. -/
theorem readNumeral_signed (negative : Bool) {cs : List Char} (h : cs.head? ≠ some '-') :
    readNumeral ((if negative then ['-'] else []) ++ cs) = (do
      let (whole, cs) ← readWhole cs
      let (fraction, cs) ← readFraction cs
      let (exponent, cs) ← readExponent cs
      return (⟨negative, whole, fraction, exponent⟩, cs)) := by
  cases negative with
  | true => rfl
  | false =>
    unfold readNumeral
    rw [if_neg Bool.false_ne_true, List.nil_append]
    split
    rename_i down rest hsigned
    split at hsigned
    · exact absurd rfl h
    · cases hsigned
      rfl

/-- A numeral is read back. -/
theorem readNumeral_text {numeral : Numeral} {rest : List Char} (h : numeral.IsProper)
    (hrest : Ends rest) : readNumeral (numeral.text ++ rest) = some (numeral, rest) := by
  obtain ⟨negative, whole, fraction, exponent⟩ := numeral
  obtain ⟨hwhole, hleading, hfraction, hexponent⟩ := h
  dsimp only at hwhole hleading hfraction hexponent
  -- Each part ends where the next one cannot be a continuation of it.
  have hafter : ∀ c ∈ (Numeral.exponentText exponent ++ rest).head?, c.isDigit = false ∧ c ≠ '.' := by
    cases exponent with
    | none => exact fun c hc => ⟨(hrest c hc).1, (hrest c hc).2.1⟩
    | some e => rintro _ ⟨⟩; decide
  have hbehind : ∀ c ∈ (Numeral.fractionText fraction ++
      (Numeral.exponentText exponent ++ rest)).head?, c.isDigit = false := by
    cases fraction with
    | none => exact fun c hc => (hafter c hc).1
    | some digits => rintro _ ⟨⟩; decide
  have hreadWhole := readWhole_append hwhole hleading hbehind
  have hreadFraction := readFraction_append hfraction hafter
  have hreadExponent := readExponent_append hexponent hrest
  have hminus : (whole ++ (Numeral.fractionText fraction ++
      (Numeral.exponentText exponent ++ rest))).head? ≠ some '-' := by
    obtain ⟨c, more, rfl⟩ := List.exists_cons_of_ne_nil hwhole.1
    intro hhead
    have hc := hwhole.2 c List.mem_cons_self
    rw [Option.some.inj hhead] at hc
    exact absurd hc (by decide)
  unfold Numeral.text
  rw [List.append_assoc, List.append_assoc, List.append_assoc, readNumeral_signed _ hminus,
    hreadWhole]
  show (do
    let (fraction, cs) ← readFraction _
    let (exponent, cs) ← readExponent cs
    return (Numeral.mk negative whole fraction exponent, cs) : Option _) = _
  rw [hreadFraction]
  show (do
    let (exponent, cs) ← readExponent _
    return (Numeral.mk negative whole fraction exponent, cs) : Option _) = _
  rw [hreadExponent]
  rfl

/-! ## Integers -/

/-- The numeral of an integer. -/
def Numeral.ofInt (n : Int) : Numeral := ⟨n < 0, Decimal.natural n.natAbs, none, none⟩

theorem text_ofInt (n : Int) : (Numeral.ofInt n).text = Decimal.integer n := by
  cases n with
  | ofNat n => simp [Numeral.ofInt, Numeral.text, Numeral.fractionText, Numeral.exponentText,
      Decimal.integer]
  | negSucc n => simp [Numeral.ofInt, Numeral.text, Numeral.fractionText, Numeral.exponentText,
      Decimal.integer]

theorem isProper_ofInt (n : Int) : (Numeral.ofInt n).IsProper where
  whole := Decimal.areDigits_natural _
  leading := Decimal.natural_eq_of_head?
  fraction := nofun
  exponent := nofun

/-- An integer of 64 bits, signed or not. -/
def IsWord (n : Int) : Prop := -0x8000000000000000 ≤ n ∧ n < 0x10000000000000000

instance (n : Int) : Decidable (IsWord n) := inferInstanceAs (Decidable (_ ∧ _))

theorem value?_ofInt {n : Int} (h : IsWord n) :
    (Numeral.ofInt n).value? = some (.integer n) := by
  obtain ⟨hlow, hhigh⟩ := h
  unfold Numeral.value? Numeral.ofInt
  dsimp only
  rw [Decimal.ofDigits_natural]
  by_cases hneg : n < 0
  · rw [decide_eq_true hneg, if_pos rfl, if_pos rfl, if_pos (by simp; omega)]
    congr 2
    omega
  · rw [decide_eq_false hneg, if_neg Bool.false_ne_true, if_neg Bool.false_ne_true,
      if_pos (by simp; omega)]
    congr 2
    omega

/-! ## The digits of a float -/

/-- The numeral that a scaled number is written as. -/
def numeralOf (negative : Bool) (s : Scaled) : Numeral :=
  let digits := Decimal.natural s.digits
  let point : Int := digits.length + s.exponent
  if s.digits = 0 then ⟨negative, ['0'], some ['0'], none⟩
  else if 0 ≤ s.exponent ∧ point ≤ 16 then
    ⟨negative, digits ++ List.replicate s.exponent.toNat '0', some ['0'], none⟩
  else if 0 < point ∧ point ≤ 16 then
    ⟨negative, digits.take point.toNat, some (digits.drop point.toNat), none⟩
  else if -5 < point ∧ point ≤ 0 then
    ⟨negative, ['0'], some (List.replicate (-point).toNat '0' ++ digits), none⟩
  else
    ⟨negative, digits.take 1, if digits.length = 1 then none else some (digits.drop 1),
      some (point - 1 < 0, Decimal.natural (point - 1).natAbs)⟩

theorem integer_eq_exponent (n : Int) : 'e' :: Decimal.integer n =
    Numeral.exponentText (some (n < 0, Decimal.natural n.natAbs)) := by
  cases n with
  | ofNat n => simp [Numeral.exponentText, Decimal.integer]
  | negSucc n => simp [Numeral.exponentText, Decimal.integer]

theorem writeFloat_eq (x : Float) : writeFloat x =
    (numeralOf (Decimal.isNegative x) (Decimal.Binary.ofFloat x).shortest).text := by
  unfold writeFloat
  generalize (Decimal.Binary.ofFloat x).shortest = s
  generalize Decimal.isNegative x = negative
  have hsign : ∀ cs : List Char, (if negative = true then '-' :: cs else cs) =
      (if negative then ['-'] else []) ++ cs := by
    intro cs
    cases negative <;> rfl
  dsimp only
  rw [hsign]
  unfold numeralOf
  dsimp only
  simp only [Bool.and_eq_true, decide_eq_true_eq]
  -- Both sides decide by the same four questions, in the same order.
  by_cases hzero : s.digits = 0
  · rw [if_pos hzero, if_pos hzero]
    rfl
  rw [if_neg hzero, if_neg hzero]
  by_cases hwhole : 0 ≤ s.exponent ∧ ((Decimal.natural s.digits).length : Int) + s.exponent ≤ 16
  · rw [if_pos hwhole, if_pos hwhole]
    rfl
  rw [if_neg hwhole, if_neg hwhole]
  by_cases hinside : 0 < ((Decimal.natural s.digits).length : Int) + s.exponent ∧
      ((Decimal.natural s.digits).length : Int) + s.exponent ≤ 16
  · rw [if_pos hinside, if_pos hinside]
    simp [Numeral.text, Numeral.fractionText, Numeral.exponentText]
  rw [if_neg hinside, if_neg hinside]
  by_cases hfront : -5 < ((Decimal.natural s.digits).length : Int) + s.exponent ∧
      ((Decimal.natural s.digits).length : Int) + s.exponent ≤ 0
  · rw [if_pos hfront, if_pos hfront]
    simp [Numeral.text, Numeral.fractionText, Numeral.exponentText]
  rw [if_neg hfront, if_neg hfront, integer_eq_exponent]
  unfold Numeral.text
  dsimp only
  rw [List.append_assoc]
  congr 3
  split <;> rfl

theorem areDigits_zero : AreDigits ['0'] :=
  ⟨List.cons_ne_nil _ _, List.forall_mem_singleton.mpr rfl⟩

theorem isProper_numeralOf (negative : Bool) (s : Scaled) : (numeralOf negative s).IsProper := by
  have hdigits := Decimal.areDigits_natural s.digits
  have hlength : 0 < (Decimal.natural s.digits).length := List.length_pos_iff.mpr hdigits.1
  unfold numeralOf
  dsimp only
  split
  · exact ⟨areDigits_zero, fun _ => rfl, by rintro _ ⟨⟩; exact areDigits_zero, nofun⟩
  rename_i hpos
  -- Only zero starts with a zero, so no other number has one in front of its digits.
  have hhead : (Decimal.natural s.digits).head? ≠ some '0' := by
    intro hhead
    have hread := Decimal.ofDigits_natural s.digits
    rw [Decimal.natural_eq_of_head? hhead] at hread
    exact hpos hread.symm
  have htake : ∀ {n : Nat}, 0 < n → ((Decimal.natural s.digits).take n).head? ≠ some '0' := by
    intro n hn hhead'
    rw [List.head?_take, if_neg (by omega)] at hhead'
    exact hhead hhead'
  split
  · refine ⟨(hdigits.append_zeros _).1, fun hhead' => absurd ?_ hhead,
      by rintro _ ⟨⟩; exact areDigits_zero, nofun⟩
    rwa [List.head?_append_of_ne_nil _ hdigits.1] at hhead'
  split
  · rename_i hexponent hpoint
    refine ⟨hdigits.take (by omega), fun hhead' => absurd hhead' (htake (by omega)), ?_, nofun⟩
    rintro _ ⟨⟩
    exact hdigits.drop (by omega)
  split
  · refine ⟨areDigits_zero, fun _ => rfl, ?_, nofun⟩
    rintro _ ⟨⟩
    exact (hdigits.append_zeros _).2
  · refine ⟨hdigits.take Nat.one_pos, fun hhead' => absurd hhead' (htake Nat.one_pos), ?_, ?_⟩
    · intro digits hfraction
      split at hfraction
      · cases hfraction
      · cases hfraction
        exact hdigits.drop (by omega)
    · rintro _ ⟨⟩
      exact Decimal.areDigits_natural _

end Rephrase.Json
