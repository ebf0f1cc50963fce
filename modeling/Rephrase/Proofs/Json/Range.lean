import Mathlib
import Rephrase.Proofs.Decimal.Round
import Rephrase.Proofs.Decimal.Shortest
import Rephrase.Proofs.Json.Numeral

/-! The numeral of a finite float is in range: what is read back of it is rounded several times on
the way, but never as far as to infinity. -/

namespace Rephrase.Json

open Decimal (Scaled Binary Rounds IsShort largest)
open Float.Model Float.Model.UnpackedFloat

/-! ## Powers of ten -/

/-- Where the largest float lies among the powers of two and of ten. -/
theorem bounds_of_largest : (∀ n < 309, 10 ^ n ≤ largest) ∧ 2 ^ 1023 < 10 ^ 309 ∧ 2 ^ 64 ≤ 2 ^ 1023 ∧
    2 ^ 53 * 2 ^ 970 ≤ 2 ^ 1023 ∧ 2 ^ 53 * 2 ^ 971 < 10 ^ 309 ∧
    2 ^ 1023 * (2 ^ 52 + 1) ^ 2 ≤ largest * (2 ^ 52) ^ 2 := by
  decide +kernel

theorem powerOfTen_toModel (n : Nat) :
    (powerOfTen n).toModel = Float.Model.ofScientific 1 n := by
  by_cases hsmall : n ≤ 22
  · have hall : ∀ n < 23, (powerOfTen n).toModel = Float.Model.ofScientific 1 n := by
      decide +kernel
    exact hall n (Nat.lt_succ_of_le hsmall)
  · unfold powerOfTen Float.ofScientific
    rw [dif_neg fun h => hsmall h.2]
    rfl

theorem rounds_powerOfTen {n : Nat} (h : n ≤ 308) :
    Rounds (powerOfTen n).toModel.unpack ((10 ^ n : ℕ) : ℚ) := by
  have hlarge := bounds_of_largest.1 n (Nat.lt_succ_of_le h)
  rw [powerOfTen_toModel]
  show Rounds (UnpackedFloat.unpack Format.binary64
    (UnpackedFloat.pack Format.binary64 (UnpackedFloat.ofScientific Format.binary64 1 n))) _
  unfold UnpackedFloat.ofScientific
  rw [dif_neg Nat.one_ne_zero, if_neg (by simp; omega), if_neg (by simp; omega), if_pos (by omega)]
  have hsize : ((1 <<< 53 * 10 ^ n : ℕ) : ℚ) * 2 ^ (-53 + 0 : ℤ) = (10 ^ n : ℕ) := by
    rw [Nat.one_shiftLeft, show (2 : ℚ) ^ (-53 + 0 : ℤ) = 1 / 2 ^ 53 by norm_num]
    push_cast
    ring
  have hone : 1 ≤ 10 ^ n := Nat.one_le_pow n 10 (by decide)
  have hrounds := Decimal.rounds_roundWithAccuracy (.positive * .positive)
    (m := 1 <<< 53 * 10 ^ n) (e := -53 + 0) ?_ ?_
  · rw [hsize] at hrounds
    refine hrounds.packed ?_
    exact_mod_cast hlarge
  · exact (by decide : 2 ^ 52 ≤ 1 <<< 53).trans (Nat.le_mul_of_pos_right _ hone)
  · rw [hsize]
    exact_mod_cast hone

/-! ## Scaling -/

/-- A negative power of ten takes nothing out of range. -/
theorem isSome_scaleByTen_of_neg (x : Float) {exponent : Int} (h : exponent < 0) :
    (scaleByTen x exponent).isSome = true := by
  fun_induction scaleByTen x exponent with
  | case1 => omega
  | case2 => omega
  | case3 => rfl
  | case4 => rfl
  | case5 => omega
  | case6 x exponent hfar _ _ ih => exact ih (by omega)

theorem isSome_scaleByTen {n exponent : Nat} {v w r : ℚ} (hn : 0 < n) (hn' : n < 2 ^ 64)
    (hexponent : exponent ≤ 308) (hv : IsShort v) (hnv : n ≤ v) (hw : IsShort w) (hrw : r ≤ w)
    (hpower : Rounds (powerOfTen exponent).toModel.unpack r) (h : v * w ≤ largest) :
    (scaleByTen n.toUInt64.toFloat exponent).isSome = true := by
  have hfinite : (n.toUInt64.toFloat * powerOfTen exponent).isFinite = true :=
    (Decimal.rounds_toFloat hn hn').isFinite_mul hpower hv hw hnv hrw h
  rw [scaleByTen, if_pos (by omega), if_pos (by omega), Int.natAbs_natCast]
  dsimp only
  rw [if_pos hfinite]
  rfl

theorem exponent_lt {n exponent limit : Nat} (bound : Nat) (hn : 0 < n)
    (h : n * 10 ^ exponent ≤ limit) (hlimit : limit < 10 ^ bound) : exponent < bound :=
  (Nat.pow_lt_pow_iff_right (by decide)).mp
    (Nat.lt_of_le_of_lt ((Nat.le_mul_of_pos_left _ hn).trans h) hlimit)

/-- Two roundings do not double a number. -/
theorem isSome_scaleByTen_of_le {n exponent : Nat} (hn : 0 < n) (hn' : n < 2 ^ 64)
    (h : n * 10 ^ exponent ≤ 2 ^ 1023) : (scaleByTen n.toUInt64.toFloat exponent).isSome = true := by
  obtain ⟨-, hbound, -, -, -, hlarge⟩ := bounds_of_largest
  have hexponent := exponent_lt 309 hn h hbound
  obtain ⟨v, hv, hnv, hvn⟩ := Decimal.exists_isShort hn
  obtain ⟨w, hw, htw, hwt⟩ := Decimal.exists_isShort (n := 10 ^ exponent) (Nat.pow_pos (by decide))
  refine isSome_scaleByTen hn hn' (Nat.le_of_lt_succ hexponent) hv hnv hw htw
    (rounds_powerOfTen (Nat.le_of_lt_succ hexponent)) ?_
  have hlarge' : ((n * 10 ^ exponent : ℕ) : ℚ) * (2 ^ 52 + 1) ^ 2 ≤ largest * (2 ^ 52) ^ 2 := by
    exact_mod_cast (Nat.mul_le_mul_right _ h).trans hlarge
  have hpos : (0 : ℚ) < (2 ^ 52) ^ 2 := by positivity
  have hproduct : v * 2 ^ 52 * (w * 2 ^ 52) ≤
      n * (2 ^ 52 + 1) * ((10 ^ exponent : ℕ) * (2 ^ 52 + 1)) :=
    mul_le_mul hvn hwt (mul_nonneg ((Nat.cast_nonneg _).trans htw) (by positivity)) (by positivity)
  refine le_of_mul_le_mul_right ?_ hpos
  push_cast at hlarge' hproduct ⊢
  linarith

/-! ## The largest floats -/

/-- The size of a float, of a small one a number above it. -/
def sizeAbove : UnpackedFloat → Nat
  | .finite _ m e _ => m * 2 ^ e.toNat
  | _ => 0

theorem rounds_sizeAbove {x : UnpackedFloat} {r : ℚ} (h : Rounds x r) :
    Rounds x (sizeAbove x) ∧ IsShort (sizeAbove x) := by
  obtain ⟨sign, m, e, hm, rfl, hlow, hhigh, he, -⟩ := h
  refine ⟨⟨sign, m, e, hm, rfl, hlow, hhigh, he, fun v _ hv => le_trans ?_ hv⟩,
    Decimal.isShort_natCast e.toNat hhigh.le⟩
  show (m : ℚ) * 2 ^ e ≤ (m * 2 ^ e.toNat : ℕ)
  rw [Nat.cast_mul, Nat.cast_pow, Nat.cast_ofNat, ← zpow_natCast]
  gcongr
  · norm_num
  · exact Int.self_le_toNat e

/-- A number with up to 54 bits, or the next one if it takes a bit less. -/
def shortAbove (n : Nat) : Nat :=
  if n ≤ 2 ^ 53 then n else (n + 1) / 2 * 2

theorem shortAbove_spec {n : Nat} (h : n ≤ 2 ^ 54) :
    n ≤ shortAbove n ∧ IsShort (shortAbove n) := by
  unfold shortAbove
  split
  · rename_i hsmall
    exact ⟨le_rfl, by simpa using Decimal.isShort_natCast 0 hsmall⟩
  · exact ⟨by omega, by simpa using Decimal.isShort_natCast 1 (m := (n + 1) / 2) (by omega)⟩

/-- What lies half a step below the largest float. -/
@[irreducible] def nearLargest : Nat := largest - 2 ^ 970

theorem near_largest : nearLargest < 10 ^ 309 ∧ (2 ^ 54 - 3) * 2 ^ 971 = nearLargest * 2 ∧
    ∀ i < 17, nearLargest / 10 ^ (292 + i) ≤ 2 ^ 54 ∧
      shortAbove (nearLargest / 10 ^ (292 + i)) * sizeAbove (powerOfTen (292 + i)).toModel.unpack ≤
        largest := by
  decide +kernel

/-- Near the largest float the powers of ten are few, and none of them is rounded up too far. -/
theorem isSome_scaleByTen_of_large {n exponent : Nat} (hn : 0 < n) (hn' : n < 2 ^ 64)
    (hlow : 292 ≤ exponent) (h : n * 10 ^ exponent ≤ nearLargest) :
    (scaleByTen n.toUInt64.toFloat exponent).isSome = true := by
  obtain ⟨hbound, -, hnear⟩ := near_largest
  have hexponent := exponent_lt 309 hn h hbound
  obtain ⟨i, rfl⟩ := Nat.exists_eq_add_of_le hlow
  obtain ⟨hlimit, hlarge⟩ := hnear i (by omega)
  obtain ⟨habove, hshort⟩ := shortAbove_spec hlimit
  obtain ⟨hpower, hpower'⟩ := rounds_sizeAbove (rounds_powerOfTen (Nat.le_of_lt_succ hexponent))
  have hle : n ≤ nearLargest / 10 ^ (292 + i) :=
    (Nat.le_div_iff_mul_le (Nat.pow_pos (by decide))).mpr h
  exact isSome_scaleByTen hn hn' (Nat.le_of_lt_succ hexponent) hshort
    (by exact_mod_cast hle.trans habove) hpower' le_rfl hpower (by exact_mod_cast hlarge)

/-! ## Digits that fit in 64 bits -/

/-- As many digits are taken as fit, and they are not more than all of them. -/
theorem absorb_spec {n : Nat} (cs : List Char) (h : n < 2 ^ 64) :
    n ≤ (absorb n cs).1 ∧ (absorb n cs).1 < 2 ^ 64 ∧ (absorb n cs).2.length ≤ cs.length ∧
      (absorb n cs).1 * 10 ^ (absorb n cs).2.length ≤ cs.foldl Decimal.appendDigit n := by
  induction cs generalizing n with
  | nil => exact ⟨le_rfl, h, le_rfl, Nat.le_of_eq (Nat.mul_one n)⟩
  | cons c cs ih =>
    unfold absorb
    split
    · rename_i hfits
      obtain ⟨hle, hlt, hlength, hall⟩ := ih hfits
      refine ⟨le_trans ?_ hle, hlt, Nat.le_succ_of_le hlength, hall⟩
      unfold Decimal.appendDigit
      omega
    · exact ⟨le_rfl, h, le_rfl, Decimal.le_foldl_appendDigit n (c :: cs)⟩

theorem absorb_of_lt {n : Nat} {cs : List Char} (h : cs.foldl Decimal.appendDigit n < 2 ^ 64) :
    (absorb n cs).2 = [] := by
  induction cs generalizing n with
  | nil => rfl
  | cons c cs ih =>
    have hle := Decimal.le_foldl_appendDigit (Decimal.appendDigit n c) cs
    have hfits : Decimal.appendDigit n c < 2 ^ 64 :=
      Nat.lt_of_le_of_lt ((Nat.le_mul_of_pos_right _ (Nat.pow_pos (by decide))).trans hle) h
    unfold absorb
    rw [if_pos (show _ < 0x10000000000000000 from hfits)]
    exact ih h

/-! ## Numerals -/

/-- Without an exponent a number that fits in 64 bits before the point is in range. -/
theorem Numeral.isSome_magnitude {numeral : Numeral} (hexponent : numeral.exponent = none)
    (h : Decimal.ofDigits numeral.whole < 2 ^ 64) : numeral.magnitude.isSome = true := by
  obtain ⟨-, hwhole, -, -⟩ := absorb_spec (n := 0) numeral.whole (by decide)
  obtain ⟨-, hfits, -, -⟩ := absorb_spec (numeral.fraction.getD []) hwhole
  have hbeyond := absorb_of_lt h
  unfold magnitude
  dsimp only
  rw [hexponent, hbeyond]
  dsimp only
  generalize (absorb 0 numeral.whole).1 = whole at *
  generalize (absorb whole (numeral.fraction.getD [])).1 = significand at *
  generalize (numeral.fraction.getD []).length - (absorb whole _).2.length = places
  rw [List.length_nil]
  obtain rfl | hpos := Nat.eq_zero_or_pos places
  · obtain rfl | hsignificand := Nat.eq_zero_or_pos significand
    · decide +kernel
    · refine @isSome_scaleByTen_of_le _ 0 hsignificand hfits ?_
      rw [Nat.pow_zero, Nat.mul_one]
      obtain ⟨-, -, hbound, -⟩ := bounds_of_largest
      exact hfits.le.trans hbound
  · exact isSome_scaleByTen_of_neg _ (by omega)

/-- A scaled number that stays in range however many of its last digits are left out. -/
structure InRange (s : Scaled) : Prop where
  limit : (s.digits : ℚ) * 10 ^ s.exponent < 10 ^ 309
  scaled : ∀ n exponent : ℕ, 0 < n → n < 2 ^ 64 → s.exponent ≤ exponent →
    (n : ℚ) * 10 ^ exponent ≤ s.digits * 10 ^ s.exponent →
      (scaleByTen n.toUInt64.toFloat exponent).isSome = true

/-- The exponent that its first digit gets is far from its own limit. -/
theorem InRange.places_lt {s : Scaled} (h : InRange s) {places : Nat}
    (hlead : 10 ^ places ≤ s.digits) : places + s.exponent < 309 := by
  have hlead' : ((10 ^ places : ℕ) : ℚ) ≤ s.digits := by exact_mod_cast hlead
  have hpow : (10 : ℚ) ^ (places + s.exponent) < 10 ^ (309 : ℤ) := by
    refine lt_of_le_of_lt ?_ h.limit
    rw [zpow_add₀ (by norm_num), zpow_natCast]
    push_cast at hlead'
    gcongr
  exact (zpow_lt_zpow_iff_right₀ (by norm_num)).mp hpow

/-- Its first digits stay in range where they stand. -/
theorem InRange.isSome_scaleByTen {s : Scaled} (h : InRange s) {n dropped : Nat} (hn : 0 < n)
    (hn' : n < 2 ^ 64) (hall : n * 10 ^ dropped ≤ s.digits) :
    (scaleByTen n.toUInt64.toFloat (s.exponent + dropped)).isSome = true := by
  by_cases hneg : s.exponent + dropped < 0
  · exact isSome_scaleByTen_of_neg _ hneg
  obtain ⟨exponent, hexponent⟩ := Int.eq_ofNat_of_zero_le (Int.not_lt.mp hneg)
  rw [hexponent]
  refine h.scaled n exponent hn hn' (by omega) ?_
  have hall' : ((n * 10 ^ dropped : ℕ) : ℚ) ≤ s.digits := by exact_mod_cast hall
  rw [← zpow_natCast, ← hexponent, zpow_add₀ (by norm_num), zpow_natCast]
  push_cast at hall'
  calc (n : ℚ) * (10 ^ s.exponent * 10 ^ dropped) = n * 10 ^ dropped * 10 ^ s.exponent := by ring
    _ ≤ s.digits * 10 ^ s.exponent := by gcongr

/-- The first digit of a number other than zero. -/
theorem exists_natural {n : Nat} (h : n ≠ 0) :
    ∃ c rest, Decimal.natural n = c :: rest ∧ 0 < Decimal.appendDigit 0 c ∧
      Decimal.appendDigit 0 c < 10 := by
  obtain ⟨c, rest, heq, hzero⟩ := Decimal.exists_naturalFrom [] n
  replace heq : Decimal.natural n = c :: rest := heq
  have hdigit : c.isDigit = true :=
    Decimal.isDigit_of_mem_natural (heq ▸ List.mem_cons_self)
  refine ⟨c, rest, heq, Nat.pos_of_ne_zero fun hfirst => hzero h ?_,
    Decimal.appendDigit_lt Nat.one_pos hdigit⟩
  have hrange : 48 ≤ c.toNat ∧ c.toNat ≤ 57 := by
    simpa [Char.isDigit, UInt32.le_iff_toNat_le] using hdigit
  rw [Decimal.appendDigit, show '0'.toNat = 48 from rfl] at hfirst
  exact Char.toNat_inj.mp (by rw [show '0'.toNat = 48 from rfl]; omega)

/-- With its first digit set apart a number in range is read in range. -/
theorem isSome_magnitude_exponent (negative : Bool) {s : Scaled} (h : InRange s)
    (hpos : s.digits ≠ 0) {fraction : Option (List Char)} {point : Int}
    (hfraction : fraction.getD [] = (Decimal.natural s.digits).drop 1)
    (hpoint : point = (Decimal.natural s.digits).length + s.exponent) :
    (Numeral.mk negative ((Decimal.natural s.digits).take 1) fraction
      (some (decide (point - 1 < 0), Decimal.natural (point - 1).natAbs))).magnitude.isSome
      = true := by
  obtain ⟨c, rest, hnatural, hfirst, hfirst'⟩ := exists_natural hpos
  have hvalue : rest.foldl Decimal.appendDigit (Decimal.appendDigit 0 c) = s.digits := by
    rw [← Decimal.ofDigits_natural s.digits, hnatural]
    rfl
  rw [hnatural] at hfraction hpoint ⊢
  replace hpoint : point - 1 = rest.length + s.exponent := by
    rw [hpoint, List.length_cons]
    omega
  -- A number below 10 ^ 309 has at most 309 places in front of its point.
  have hsmall : point - 1 < 309 := by
    have hlead := Decimal.le_foldl_appendDigit (Decimal.appendDigit 0 c) rest
    rw [hvalue] at hlead
    rw [hpoint]
    exact h.places_lt ((Nat.le_mul_of_pos_left _ hfirst).trans hlead)
  obtain ⟨hle, hfits, hlength, hall⟩ :=
    absorb_spec rest (Nat.lt_trans hfirst' (by decide : 10 < 2 ^ 64))
  rw [hvalue] at hall
  have hwhole : absorb 0 [c] = (Decimal.appendDigit 0 c, []) := by
    unfold absorb
    rw [if_pos (Nat.lt_trans hfirst' (by decide))]
    rfl
  unfold Numeral.magnitude
  dsimp only
  rw [hfraction, List.take_succ_cons, List.take_zero, List.drop_succ_cons, List.drop_zero, hwhole,
    Decimal.ofDigits_natural]
  dsimp only
  generalize hread : absorb (Decimal.appendDigit 0 c) rest = read at *
  obtain ⟨significand, dropped⟩ := read
  dsimp only at *
  split
  · rename_i hlimit
    -- An exponent over the limit can only be a negative one, and the number is read as zero.
    have hdown : point - 1 < 0 := by
      unfold exponentLimit at hlimit
      omega
    rw [decide_eq_true hdown, Bool.or_true, if_pos rfl]
    rfl
  · have hexponent : (if decide (point - 1 < 0) = true then
        (([] : List Char).length : Int) - (rest.length - dropped.length : Nat) - (point - 1).natAbs
        else (([] : List Char).length : Int) - (rest.length - dropped.length : Nat) +
          (point - 1).natAbs) = s.exponent + dropped.length := by
      rw [List.length_nil]
      split
      · rename_i hdown
        have hdown' := of_decide_eq_true hdown
        omega
      · rename_i hup
        have hup' : ¬point - 1 < 0 := fun hlt => hup (decide_eq_true hlt)
        omega
    rw [hexponent]
    exact h.isSome_scaleByTen (Nat.lt_of_lt_of_le hfirst hle) hfits hall

theorem ofDigits_lt_of_length {digits : List Char} (h : Decimal.AreDigits digits)
    (hlength : digits.length ≤ 16) : Decimal.ofDigits digits < 2 ^ 64 :=
  calc Decimal.ofDigits digits < 10 ^ digits.length := Decimal.ofDigits_lt h.2
    _ ≤ 10 ^ 16 := Nat.pow_le_pow_right (by decide) hlength
    _ < 2 ^ 64 := by decide

theorem isSome_magnitude_numeralOf (negative : Bool) {s : Scaled} (h : InRange s) :
    (numeralOf negative s).magnitude.isSome = true := by
  have hproper := (isProper_numeralOf negative s).whole
  revert hproper
  unfold numeralOf
  dsimp only
  split
  · exact fun hproper => Numeral.isSome_magnitude rfl (by decide : Decimal.ofDigits ['0'] < 2 ^ 64)
  rename_i hpos
  split
  -- Digits without an exponent are at most 16, which fit in a word.
  · rename_i hwhole
    refine fun hproper => Numeral.isSome_magnitude rfl (ofDigits_lt_of_length hproper ?_)
    rw [List.length_append, List.length_replicate]
    omega
  split
  · rename_i hinside
    refine fun hproper => Numeral.isSome_magnitude rfl (ofDigits_lt_of_length hproper ?_)
    rw [List.length_take]
    omega
  split
  · exact fun hproper => Numeral.isSome_magnitude rfl (by decide : Decimal.ofDigits ['0'] < 2 ^ 64)
  · refine fun _ => isSome_magnitude_exponent negative h hpos ?_ rfl
    split
    · rename_i hone
      rw [List.drop_eq_nil_of_le hone.le]
      rfl
    · rfl

/-! ## Floats -/

/-- The shortest forms of finite floats stay in range, but for the largest float: with 17 digits
its form is above it. -/
theorem inRange_shortest {b : Binary} (hpos : b.significand ≠ 0) (hhigh : b.significand < 2 ^ 53)
    (he : b.exponent ≤ 971) (hlow : b.exponent = 971 → 2 ^ 52 ≤ b.significand)
    (hne : b ≠ ⟨2 ^ 53 - 1, 971⟩) : InRange b.shortest := by
  have hle := Binary.shortest_le hpos
  have hhigh' : (b.significand : ℚ) + 1 ≤ 2 ^ 53 := by exact_mod_cast hhigh
  refine ⟨?_, fun n exponent hn hn' hexponent hscaled => ?_⟩
  · have hbelow : (b.significand + 1 / 2 : ℚ) * 2 ^ b.exponent ≤ 2 ^ 53 * 2 ^ (971 : ℤ) := by
      gcongr
      · linarith
      · norm_num
    refine lt_of_le_of_lt (hle.trans hbelow) ?_
    obtain ⟨-, -, -, -, hlimit, -⟩ := bounds_of_largest
    show (2 ^ 53 * 2 ^ ((971 : ℕ) : ℤ) : ℚ) < 10 ^ 309
    rw [zpow_natCast]
    exact_mod_cast hlimit
  replace hscaled := hscaled.trans hle
  -- Among the largest floats the step to the next one is as large as the room that is left, so what
  -- the last one is followed by is counted out.
  by_cases hlast : b.exponent = 971
  · have hexponent' := Binary.le_shortest_exponent (hlow hlast) hhigh hlast
    refine isSome_scaleByTen_of_large hn hn' (by omega) ?_
    have hne' : b.significand ≠ 2 ^ 53 - 1 := by
      rintro heq
      exact hne (by rw [← heq, ← hlast])
    have hdouble : n * 10 ^ exponent * 2 ≤ (2 * b.significand + 1) * 2 ^ 971 := by
      rw [hlast, show (971 : ℤ) = ((971 : ℕ) : ℤ) from rfl, zpow_natCast] at hscaled
      have hscaled' : (n : ℚ) * 10 ^ exponent * 2 ≤ (2 * b.significand + 1) * 2 ^ 971 := by
        generalize (2 : ℚ) ^ 971 = step at hscaled ⊢
        linarith
      exact_mod_cast hscaled'
    obtain ⟨-, hnear, -⟩ := near_largest
    refine Nat.le_of_mul_le_mul_right (hdouble.trans ?_) Nat.two_pos
    rw [← hnear]
    exact Nat.mul_le_mul_right _ (by omega)
  · refine isSome_scaleByTen_of_le hn hn' ?_
    have hbelow : (b.significand + 1 / 2 : ℚ) * 2 ^ b.exponent ≤ 2 ^ 53 * 2 ^ (970 : ℤ) := by
      gcongr
      · linarith
      · norm_num
      · omega
    have hsmall := hscaled.trans hbelow
    rw [show (970 : ℤ) = ((970 : ℕ) : ℤ) from rfl, zpow_natCast] at hsmall
    have hsmall' : n * 10 ^ exponent ≤ 2 ^ 53 * 2 ^ 970 := by exact_mod_cast hsmall
    obtain ⟨-, -, -, hlimit, -⟩ := bounds_of_largest
    exact hsmall'.trans hlimit

theorem value?_numeralOf {x : Float} (h : x.isFinite = true) :
    ∃ n, (numeralOf (Decimal.isNegative x) (Decimal.Binary.ofFloat x).shortest).value? = some n := by
  obtain ⟨hhigh, he, hlow⟩ := Binary.bounds_of_isFinite h
  generalize Decimal.isNegative x = negative
  generalize Binary.ofFloat x = b at *
  have hmagnitude : (numeralOf negative b.shortest).magnitude.isSome = true := by
    by_cases hlast : b = ⟨2 ^ 53 - 1, 971⟩
    · rw [hlast]
      revert negative
      decide +kernel
    by_cases hzero : b.significand = 0
    · unfold Binary.shortest
      rw [if_pos hzero]
      revert negative
      decide +kernel
    · exact isSome_magnitude_numeralOf negative (inRange_shortest hzero hhigh he hlow hlast)
  obtain ⟨y, hy⟩ := Option.isSome_iff_exists.mp hmagnitude
  unfold Numeral.value?
  dsimp only
  rw [hy, Option.map_some]
  split <;> split <;> exact ⟨_, rfl⟩

end Rephrase.Json
