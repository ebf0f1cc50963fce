import Mathlib
import Rephrase.Config.Basic
import Rephrase.Fault
import Rephrase.Phrase.Match

/-! All of a whole is a share of one, and a threshold that makes sense is at most one. -/

namespace Rephrase.Phrase

open Float.Model Float.Model.UnpackedFloat

/-! ## Counts as floats -/

/-- A float that is neither zero nor infinite. -/
def IsFinite (x : UnpackedFloat) : Prop := ∃ sign m e h, x = .finite sign m e h

theorem targetExponent_binary64 (total : Int) :
    Format.binary64.targetExponent total = max (total - 53) (-1074) := rfl

theorem mantissa_shiftRight (em : ExtendedMantissa) (n : Nat) :
    (em >>> n).mantissa = em.mantissa / 2 ^ n := by
  induction n with
  | zero => exact (Nat.div_one _).symm
  | succ n ih =>
    show (em >>> n).mantissa / 2 = _
    rw [ih, Nat.div_div_eq_div_mul, Nat.pow_succ]

theorem mantissa_ofMantissaAndAccuracy (m : Nat) (accuracy : Accuracy) :
    (ExtendedMantissa.ofMantissaAndAccuracy m accuracy).mantissa = m := by
  unfold ExtendedMantissa.ofMantissaAndAccuracy
  split <;> rfl

theorem roundToNearestEven_near (m : Nat) (accuracy : Accuracy) :
    m ≤ accuracy.roundToNearestEven m ∧ accuracy.roundToNearestEven m ≤ m + 1 := by
  unfold Accuracy.roundToNearestEven
  split <;> omega

/-- A shift to the target exponent leaves up to 53 bits, and not none. -/
theorem shifted_bounds {m : Nat} {e : Int} (hm : 0 < m) (he : -1074 ≤ e) :
    0 < m / 2 ^ (Format.binary64.targetExponent (totalExponent m e) - e).toNat ∧
      m / 2 ^ (Format.binary64.targetExponent (totalExponent m e) - e).toNat < 2 ^ 53 := by
  have hlow := Nat.log2_self_le (Nat.ne_of_gt hm)
  have hhigh := @Nat.lt_log2_self m
  rw [targetExponent_binary64]
  unfold totalExponent
  generalize m.log2 = bits at *
  have hshift : (max ((bits : Int) + 1 + e - 53) (-1074) - e).toNat = bits - 52 := by omega
  rw [hshift]
  refine ⟨Nat.div_pos ?_ (Nat.two_pow_pos _), ?_⟩
  · exact Nat.le_trans (Nat.pow_le_pow_right (by decide) (Nat.sub_le _ _)) hlow
  · rw [Nat.div_lt_iff_lt_mul (Nat.two_pow_pos _), ← Nat.pow_add]
    exact Nat.lt_of_lt_of_le hhigh (Nat.pow_le_pow_right (by decide) (by omega))

/-- A number that is not too large is rounded to a finite float. -/
theorem rounded_bounds (sign : Sign) {m : Nat} {e : Int} (accuracy : Accuracy)
    (hm : 0 < m) (he : -1074 ≤ e) (he' : e ≤ 11) (htotal : totalExponent m e ≤ 64) :
    ∃ m' e' h, roundWithAccuracy Format.binary64 sign m e accuracy = .finite sign m' e' h ∧
      m' < 2 ^ 53 ∧ -1074 ≤ e' ∧ e' ≤ 12 := by
  obtain ⟨hpos, hlt⟩ := shifted_bounds hm he
  have hexponent :
      e + ((Format.binary64.targetExponent (totalExponent m e) - e).toNat : Int) ≤ 11 := by
    rw [targetExponent_binary64]
    omega
  unfold roundWithAccuracy shiftToTargetExponent shiftToExponent
  dsimp only
  -- Rounding may carry into a further bit, which the second shift takes off again.
  generalize (Format.binary64.targetExponent (totalExponent m e) - e).toNat = shift at *
  generalize hrounded : ExtendedMantissa.roundedMantissa _ = rounded
  have hle : 0 < rounded ∧ rounded ≤ 2 ^ 53 := by
    have hround := roundToNearestEven_near
      (ExtendedMantissa.ofMantissaAndAccuracy m accuracy >>> shift).mantissa
      (ExtendedMantissa.ofMantissaAndAccuracy m accuracy >>> shift).accuracy
    rw [mantissa_shiftRight, mantissa_ofMantissaAndAccuracy] at hround
    rw [← hrounded]
    unfold ExtendedMantissa.roundedMantissa
    rw [mantissa_shiftRight, mantissa_ofMantissaAndAccuracy]
    omega
  obtain ⟨hpos', hlt'⟩ := shifted_bounds (e := e + shift) hle.1 (by omega)
  have hbits : rounded.log2 < 54 := (Nat.log2_lt (Nat.ne_of_gt hle.1)).mpr (by omega)
  have hexponent' : e + shift +
      ((Format.binary64.targetExponent (totalExponent rounded (e + shift)) -
        (e + shift)).toNat : Int) ≤ 12 := by
    rw [targetExponent_binary64]
    unfold totalExponent
    omega
  rw [mantissa_shiftRight, mantissa_ofMantissaAndAccuracy]
  split
  · omega
  · exact ⟨_, _, hpos', rfl, hlt', by omega, hexponent'⟩

/-- The field of the exponent of 53 bits is neither that of the infinities nor that of the shorter
floats. -/
theorem stores_exponent {e : Int} (he : -1074 ≤ e) (he' : e ≤ 971) :
    (BitVec.ofNat 11 (e + 1023 + (52 : Nat)).toNat).toNat = (e + 1023 + (52 : Nat)).toNat ∧
      BitVec.ofNat 11 (e + 1023 + (52 : Nat)).toNat ≠ -1#11 ∧
      BitVec.ofNat 11 (e + 1023 + (52 : Nat)).toNat ≠ 0#11 := by
  have hexponent : (BitVec.ofNat 11 (e + 1023 + (52 : Nat)).toNat).toNat =
      (e + 1023 + (52 : Nat)).toNat := by
    rw [BitVec.toNat_ofNat]
    exact Nat.mod_eq_of_lt (by omega)
  refine ⟨hexponent, fun heq => ?_, fun heq => ?_⟩
  · rw [heq, show (-1#11).toNat = 2047 from rfl] at hexponent
    omega
  · rw [heq, show (0#11).toNat = 0 from rfl] at hexponent
    omega

/-- Bits of a finite float are read as a finite float. -/
theorem isFinite_unpack_pack (sign : Sign) {m : Nat} {e : Int} (h : 0 < m) (hm : m < 2 ^ 53)
    (he : -1074 ≤ e) (he' : e ≤ 12) :
    IsFinite (UnpackedFloat.unpack Format.binary64
      (UnpackedFloat.pack Format.binary64 (.finite sign m e h))) := by
  have hbias : ((Format.binary64.exponentBias : Nat) : Int) = 1023 := rfl
  unfold UnpackedFloat.pack
  dsimp only
  rw [hbias, if_neg (by omega)]
  unfold UnpackedFloat.unpack
  dsimp only
  split
  -- A mantissa of 53 bits is stored without its first one, under its exponent.
  · obtain ⟨-, hlast, hzero⟩ := stores_exponent he (by omega)
    rw [unpackExponent_packComponents, if_neg hlast, if_neg hzero]
    exact ⟨_, _, _, _, rfl⟩
  -- A shorter one is stored as it is, under the exponent zero.
  · rename_i hbits
    have hlog : m.log2 < 52 := by
      have hlt := (Nat.log2_lt (Nat.ne_of_gt h)).mpr hm
      have hne : m.log2 + 1 ≠ 53 := hbits
      omega
    have hmantissa : BitVec.ofNat 52 m ≠ 0#52 := by
      intro heq
      have hmod := congrArg BitVec.toNat heq
      rw [BitVec.toNat_ofNat, Nat.mod_eq_of_lt ((Nat.log2_lt (Nat.ne_of_gt h)).mp hlog)] at hmod
      exact Nat.ne_of_gt h hmod
    rw [unpackExponent_packComponents, if_neg (by decide), if_pos rfl, dif_neg]
    · exact ⟨_, _, _, _, rfl⟩
    · rwa [unpackMantissa_packComponents]

/-- A count becomes a float as its digits behind so many zeros that they fill 53 bits, rounded. -/
theorem exists_unpack_toFloat {n : Nat} (hn : 0 < n) (hlimit : n < Fault.wordLimit) :
    ∃ shift : Nat, shift ≤ 52 ∧ 52 ≤ n.log2 + shift ∧
      n.toUInt64.toFloat.toModel.unpack = UnpackedFloat.unpack Format.binary64
        (UnpackedFloat.pack Format.binary64
          (roundWithAccuracy Format.binary64 .positive (n <<< shift) (0 - shift) .exact)) := by
  have hword : n.toUInt64.toNat = n := UInt64.toNat_ofNat_of_lt' hlimit
  show ∃ shift : Nat, shift ≤ 52 ∧ 52 ≤ n.log2 + shift ∧ UnpackedFloat.unpack Format.binary64
    (UnpackedFloat.pack Format.binary64
      (UnpackedFloat.normalize Format.binary64 n.toUInt64.toNat 0 .positive)) = _
  rw [hword]
  unfold UnpackedFloat.normalize
  rw [Int.compare_eq_gt.mpr (by omega)]
  dsimp only
  unfold UnpackedFloat.round decreaseExponent
  rw [Int.toNat_natCast, targetExponent_binary64]
  dsimp only
  -- A number of 64 bits is far above the smallest exponent, so it is shifted by less than its
  -- places.
  refine ⟨_, ?_, ?_, rfl⟩
  all_goals
    unfold totalExponent
    omega

/-- A count that fits in a machine word is a finite float, unless it is zero. -/
theorem isFinite_toFloat {n : Nat} (hn : 0 < n) (hlimit : n < Fault.wordLimit) :
    IsFinite n.toUInt64.toFloat.toModel.unpack := by
  obtain ⟨shift, hle, -, hfloat⟩ := exists_unpack_toFloat hn hlimit
  have hpos : 0 < n <<< shift := by
    rw [Nat.shiftLeft_eq]
    exact Nat.mul_pos hn (Nat.two_pow_pos _)
  have htotal : totalExponent (n <<< shift) (0 - shift) ≤ 64 := by
    have hlt : n <<< shift < 2 ^ (64 + shift) := by
      rw [Nat.shiftLeft_eq, Nat.pow_add]
      exact Nat.mul_lt_mul_of_pos_right hlimit (Nat.two_pow_pos _)
    have hlog := (Nat.log2_lt (Nat.ne_of_gt hpos)).mpr hlt
    unfold totalExponent
    omega
  obtain ⟨m, e, h, hround, hm, he, he'⟩ :=
    rounded_bounds .positive .exact hpos (by omega) (by omega) htotal
  rw [hfloat, hround]
  exact isFinite_unpack_pack _ h hm he he'

/-! ## Shares -/

theorem div_self_of_isFinite {x : UnpackedFloat} (h : IsFinite x) :
    UnpackedFloat.div Format.binary64 x x = .finite .positive (2 ^ 52) (-52) (by decide) := by
  obtain ⟨sign, m, e, hm, rfl⟩ := h
  -- The quotient comes out even.
  have hcore : divCore Format.binary64 m e m e = (2 ^ 53, -53, .exact) := by
    unfold divCore
    rw [targetExponent_binary64, Int.sub_self, Int.sub_self]
    show (m <<< 53 / m, (-53 : Int), accuracyOfFraction (m <<< 53 % m) m) = _
    rw [Nat.shiftLeft_eq, Nat.mul_div_cancel_left _ hm, Nat.mul_mod_right]
    rfl
  have hsign : sign / sign = .positive := by cases sign <;> rfl
  rw [UnpackedFloat.div, hcore, hsign]
  rfl

/-- All parts are a share of one. -/
theorem share_self {n : Nat} (hn : 0 < n) (hlimit : n < Fault.wordLimit) : share n n = 1 := by
  have hfinite := isFinite_toFloat hn hlimit
  unfold share
  generalize n.toUInt64.toFloat = x at *
  show Float.ofModel (Float.Model.pack (UnpackedFloat.div Format.binary64 x.toModel.unpack
    x.toModel.unpack)) = 1
  rw [div_self_of_isFinite hfinite]
  rfl

theorem clampShare_le_one {x : Float} (h : x.isNaN = false) : Config.clampShare x ≤ 1 := by
  unfold Config.clampShare
  split
  · decide
  split
  · decide
  rename_i hle
  replace hle : UnpackedFloat.lt (Float.toModel 1).unpack x.toModel.unpack ≠ true := by
    intro hlt
    exact hle (decide_eq_true hlt)
  suffices hsuffices : UnpackedFloat.le x.toModel.unpack (Float.toModel 1).unpack = true from
    decide_eq_true hsuffices
  replace h : x.toModel.unpack.isNaN = false := h
  rw [show (Float.toModel 1).unpack = .finite .positive (2 ^ 52) (-52) (by decide) from rfl] at *
  generalize x.toModel.unpack = y at *
  cases y with
  | infinity sign =>
    cases sign
    · rfl
    · exact absurd rfl hle
  | notANumber => cases h
  | zero sign => rfl
  | finite sign m e hm =>
    cases sign
    · rfl
    -- Both are positive, so exponents decide first, then mantissas.
    · have hswap : ((compare e (-52)).then (compare m (2 ^ 52))) =
          ((compare (-52) e).then (compare (2 ^ 52) m)).swap := by
        rw [Ordering.swap_then, Int.compare_swap, Nat.compare_swap]
      show ((compare e (-52)).then (compare m (2 ^ 52))).isLE = true
      rw [hswap]
      replace hle : (some ((compare (-52) e).then (compare (2 ^ 52) m)) == some .lt) ≠ true := hle
      revert hle
      generalize (compare (-52) e).then (compare (2 ^ 52) m) = order
      cases order <;> decide

end Rephrase.Phrase
