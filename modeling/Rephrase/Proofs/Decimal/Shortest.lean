import Mathlib
import Rephrase.Decimal.Shortest

/-! The shortest decimal form of a float lies among the reals that round to it, and it has no more
digits than the width of their interval calls for. -/

namespace Rephrase.Decimal

/-! ## The interval of a float -/

namespace Rounding

variable {r : Rounding} {n : Nat}

theorem le_high_of_admits (h : r.admits n = true) : n * r.scale ≤ r.high := by
  unfold admits at h
  split at h <;>
  · rw [Bool.and_eq_true, decide_eq_true_eq, decide_eq_true_eq] at h
    omega

theorem outside_of_admits (h : r.admits n = false) : n * r.scale ≤ r.low ∨ r.high ≤ n * r.scale := by
  unfold admits at h
  split at h <;>
  · rw [Bool.and_eq_false_iff, decide_eq_false_iff_not, decide_eq_false_iff_not] at h
    omega

theorem admits_of_nearest? (h : r.nearest? = some n) : r.admits n = true := by
  unfold nearest? at h
  dsimp only at h
  split at h
  · cases h
  · rename_i hbelow _
    cases h
    exact hbelow
  · rename_i habove
    cases h
    exact habove
  · rename_i hbelow habove
    split at h <;> cases h
    · exact hbelow
    · exact habove

/-- A whole number of units lies in the interval if it is wider than a unit. -/
theorem isSome_nearest? (hlow : r.low < r.value) (hhigh : r.value < r.high) (hscale : 0 < r.scale)
    (hwidth : r.low + r.scale < r.high) : r.nearest?.isSome = true := by
  have hbelow : r.value / r.scale * r.scale ≤ r.value := Nat.div_mul_le_self _ _
  have habove : r.value < (r.value / r.scale + 1) * r.scale := by
    rw [Nat.mul_comm]
    exact Nat.lt_mul_div_succ _ hscale
  rw [Nat.add_mul, Nat.one_mul] at habove
  by_contra hnone
  rw [Bool.not_eq_true, Option.isSome_eq_false_iff, Option.isNone_iff_eq_none] at hnone
  unfold nearest? at hnone
  dsimp only at hnone
  split at hnone
  · rename_i hleft hright
    have hleft' := outside_of_admits hleft
    have hright' := outside_of_admits hright
    rw [Nat.add_mul, Nat.one_mul] at hright'
    omega
  · cases hnone
  · cases hnone
  · split at hnone <;> cases hnone

theorem value_onGrid_le (h : r.value ≤ r.high) (power : Int) :
    (r.onGrid power).value ≤ (r.onGrid power).high :=
  Nat.mul_le_mul_right _ h

end Rounding

/-! ## The search -/

theorem shortestFrom_le_high {r : Rounding} (h : r.value ≤ r.high) (power : Int) (tries : Nat) :
    (shortestFrom r power tries).digits * (r.onGrid (shortestFrom r power tries).exponent).scale ≤
      (r.onGrid (shortestFrom r power tries).exponent).high := by
  induction tries generalizing power with
  | zero => exact (Nat.div_mul_le_self _ _).trans (Rounding.value_onGrid_le h power)
  | succ tries ih =>
    unfold shortestFrom
    split
    · rename_i n hn
      exact Rounding.le_high_of_admits (Rounding.admits_of_nearest? hn)
    · exact ih (power - 1)

/-- The search does not go below a power of ten where it would find a number. -/
theorem le_shortestFrom_exponent {r : Rounding} {least power : Int} {tries : Nat}
    (h : (r.onGrid least).nearest?.isSome = true) (hle : least ≤ power)
    (htries : power < least + tries) : least ≤ (shortestFrom r power tries).exponent := by
  induction tries generalizing power with
  | zero => omega
  | succ tries ih =>
    unfold shortestFrom
    split
    · exact hle
    · rename_i hnone
      have hne : power ≠ least := by
        rintro rfl
        rw [hnone] at h
        cases h
      exact ih (by omega) (by omega)

namespace Binary

variable {b : Binary}

theorem value_lt_high (b : Binary) : b.rounding.value < b.rounding.high :=
  Nat.mul_lt_mul_of_pos_right (by omega) (by rw [Nat.one_shiftLeft]; exact Nat.two_pow_pos _)

/-! ## The forms of floats -/

open Float.Model Float.Model.UnpackedFloat in
theorem biased_lt {x : Float} (h : x.isFinite = true) :
    x.toBits.toNat >>> 52 % (1 <<< 11) < 2047 := by
  have hne : @unpackExponent .binary64 x.toModel.toBits.toBitVec ≠ -1#11 := by
    intro heq
    replace h : (UnpackedFloat.unpack .binary64 x.toModel.toBits.toBitVec).isFinite = true := h
    unfold UnpackedFloat.unpack at h
    dsimp only at h
    rw [if_pos heq] at h
    split at h <;> cases h
  have hread : (@unpackExponent .binary64 x.toModel.toBits.toBitVec).toNat =
      x.toBits.toNat >>> 52 % (1 <<< 11) := by
    unfold unpackExponent
    rw [BitVec.toNat_cast, BitVec.extractLsb_toNat]
    rfl
  rw [← hread]
  have hlt := (@unpackExponent .binary64 x.toModel.toBits.toBitVec).isLt
  have hne' : (@unpackExponent .binary64 x.toModel.toBits.toBitVec).toNat ≠ 2047 :=
    fun heq => hne (BitVec.eq_of_toNat_eq heq)
  change _ < 2048 at hlt
  omega

/-- The significand of a finite float has up to 53 bits, and as many if the float is large. -/
theorem bounds_of_isFinite {x : Float} (h : x.isFinite = true) :
    (ofFloat x).significand < 2 ^ 53 ∧ (ofFloat x).exponent ≤ 971 ∧
      ((ofFloat x).exponent = 971 → 2 ^ 52 ≤ (ofFloat x).significand) := by
  have hbiased := biased_lt h
  have hfraction : x.toBits.toNat % (1 <<< 52) < 2 ^ 52 := Nat.mod_lt _ (by decide)
  unfold ofFloat
  dsimp only
  generalize x.toBits.toNat >>> 52 % (1 <<< 11) = biased at *
  generalize x.toBits.toNat % (1 <<< 52) = fraction at *
  rw [Nat.one_shiftLeft]
  split
  · dsimp only
    omega
  · dsimp only
    omega

/-- The shortest form is at most half a step above the float. -/
theorem shortest_le (hpos : b.significand ≠ 0) :
    (b.shortest.digits : ℚ) * 10 ^ b.shortest.exponent ≤ (b.significand + 1 / 2) * 2 ^ b.exponent := by
  have hle : b.shortest.digits * (b.rounding.onGrid b.shortest.exponent).scale ≤
      (b.rounding.onGrid b.shortest.exponent).high := by
    unfold shortest
    rw [if_neg hpos]
    exact shortestFrom_le_high b.value_lt_high.le _ _
  generalize b.shortest = s at *
  -- The bound is one of natural numbers, where a negative exponent stands on the other side.
  have hten : (10 : ℚ) ^ s.exponent = 10 ^ s.exponent.toNat / 10 ^ (-s.exponent).toNat := by
    rw [← zpow_natCast, ← zpow_natCast, ← zpow_sub₀ (by norm_num)]
    congr 1
    omega
  have htwo : (2 : ℚ) ^ b.exponent = 2 ^ b.exponent.toNat / 2 ^ (-b.exponent).toNat := by
    rw [← zpow_natCast, ← zpow_natCast, ← zpow_sub₀ (by norm_num)]
    congr 1
    omega
  rw [hten, htwo, mul_div_assoc', mul_div_assoc', div_le_div_iff₀ (by positivity) (by positivity)]
  have hle' : s.digits * (4 * 2 ^ (-b.exponent).toNat * 10 ^ s.exponent.toNat) ≤
      (4 * b.significand + 2) * 2 ^ b.exponent.toNat * 10 ^ (-s.exponent).toNat := by
    simpa only [Rounding.onGrid, rounding, Nat.shiftLeft_eq, Nat.one_mul, Nat.pow_eq] using hle
  have hle'' : (s.digits : ℚ) * (4 * 2 ^ (-b.exponent).toNat * 10 ^ s.exponent.toNat) ≤
      (4 * b.significand + 2) * 2 ^ b.exponent.toNat * 10 ^ (-s.exponent).toNat := by
    exact_mod_cast hle'
  linarith

/-- The interval of a large float holds a multiple of a power of ten that is narrower. -/
theorem isSome_nearest?_onGrid (power : Nat) (hpos : 0 < b.significand) (he : 0 ≤ b.exponent)
    (h : 4 * 10 ^ power < 3 * 2 ^ b.exponent.toNat) :
    (b.rounding.onGrid power).nearest?.isSome = true := by
  -- Neither exponent is negative, so all bounds are whole multiples of the same power of two.
  have hdown : Nat.pow 10 (-(power : Int)).toNat = 1 := by
    rw [show (-(power : Int)).toNat = 0 by omega, Nat.pow_eq, Nat.pow_zero]
  have hscale : (b.rounding.onGrid power).scale = 4 * 10 ^ power := by
    show 4 <<< (-b.exponent).toNat * Nat.pow 10 (power : Int).toNat = _
    rw [show (-b.exponent).toNat = 0 by omega, Int.toNat_natCast]
    rfl
  have hvalue : (b.rounding.onGrid power).value = 4 * b.significand * 2 ^ b.exponent.toNat := by
    show 4 * b.significand * (1 <<< b.exponent.toNat) * Nat.pow 10 (-(power : Int)).toNat = _
    rw [hdown, Nat.mul_one, Nat.one_shiftLeft]
  have hhigh : (b.rounding.onGrid power).high =
      (4 * b.significand + 2) * 2 ^ b.exponent.toNat := by
    show (4 * b.significand + 2) * (1 <<< b.exponent.toNat) * Nat.pow 10 (-(power : Int)).toNat = _
    rw [hdown, Nat.mul_one, Nat.one_shiftLeft]
  have hlow : (b.rounding.onGrid power).low ≤ (4 * b.significand - 1) * 2 ^ b.exponent.toNat := by
    show (4 * b.significand - _) * (1 <<< b.exponent.toNat) * Nat.pow 10 (-(power : Int)).toNat ≤ _
    rw [hdown, Nat.mul_one, Nat.one_shiftLeft b.exponent.toNat]
    refine Nat.mul_le_mul_right _ (Nat.sub_le_sub_left ?_ _)
    split <;> decide
  obtain ⟨m, hm⟩ := Nat.exists_eq_add_of_lt hpos
  rw [show 4 * b.significand - 1 = 4 * m + 3 by omega] at hlow
  rw [show 4 * b.significand = 4 * m + 4 by omega] at hvalue hhigh
  have hup : 0 < 2 ^ b.exponent.toNat := Nat.two_pow_pos _
  generalize 2 ^ b.exponent.toNat = up at *
  refine Rounding.isSome_nearest? ?_ ?_ ?_ ?_
  · rw [hvalue]
    linarith
  · rw [hvalue, hhigh]
    linarith
  · rw [hscale]
    exact Nat.mul_pos (by decide) (Nat.pow_pos (by decide))
  · rw [hscale, hhigh]
    linarith

/-- The largest floats stand so far apart that their shortest forms end in many zeros. -/
theorem le_shortest_exponent (hlow : 2 ^ 52 ≤ b.significand) (hhigh : b.significand < 2 ^ 53)
    (he : b.exponent = 971) : 292 ≤ b.shortest.exponent := by
  have hlog : b.significand.log2 = 52 := (Nat.log2_eq_iff (by omega)).mpr ⟨hlow, hhigh⟩
  unfold shortest
  rw [if_neg (by omega), hlog, he]
  refine le_shortestFrom_exponent (isSome_nearest?_onGrid 292 (by omega) (by omega) ?_)
    (by decide) (by decide)
  rw [he]
  decide +kernel

end Binary

end Rephrase.Decimal
