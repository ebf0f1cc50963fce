import Mathlib
import Rephrase.Proofs.Phrase.Share

/-! A result that is rounded to a float does not pass a number that needs no rounding itself, so
bounds on the operands bound a product of floats, and what stays in range is finite. -/

namespace Rephrase.Decimal

open Float.Model Float.Model.UnpackedFloat

/-! ## Rounding a mantissa -/

/-- A shift that drops only zeros leaves an exact mantissa. -/
theorem shiftRight_of_dvd {m n : Nat} (h : 2 ^ n ∣ m) :
    ExtendedMantissa.mk m false false >>> n = ⟨m / 2 ^ n, false, false⟩ := by
  induction n with
  | zero => simp [HShiftRight.hShiftRight, Nat.repeat]
  | succ n ih =>
    obtain ⟨k, rfl⟩ := h
    have hdvd : 2 ^ n ∣ 2 ^ (n + 1) * k := ⟨2 * k, by rw [Nat.pow_succ, Nat.mul_assoc]⟩
    have heven : 2 ^ (n + 1) * k / 2 ^ n = 2 * k := by
      rw [Nat.pow_succ, Nat.mul_assoc, Nat.mul_div_cancel_left _ (Nat.two_pow_pos n)]
    show (ExtendedMantissa.mk (2 ^ (n + 1) * k) false false >>> n).shiftRightOne = _
    rw [ih hdvd, heven, Nat.mul_div_cancel_left _ (Nat.two_pow_pos _)]
    simp [ExtendedMantissa.shiftRightOne]

/-- Rounding takes the mantissa that is left, or the next one if something was dropped. -/
theorem roundedMantissa_shiftRight (m n : Nat) :
    (ExtendedMantissa.mk m false false >>> n).roundedMantissa = m / 2 ^ n ∨
      (ExtendedMantissa.mk m false false >>> n).roundedMantissa = m / 2 ^ n + 1 ∧
        m / 2 ^ n * 2 ^ n < m := by
  by_cases hdvd : 2 ^ n ∣ m
  · rw [shiftRight_of_dvd hdvd]
    exact .inl rfl
  · have hround := Phrase.roundToNearestEven_near
      (ExtendedMantissa.mk m false false >>> n).mantissa
      (ExtendedMantissa.mk m false false >>> n).accuracy
    rw [Phrase.mantissa_shiftRight] at hround
    dsimp only at hround
    have hlt : m / 2 ^ n * 2 ^ n < m :=
      Nat.lt_of_le_of_ne (Nat.div_mul_le_self _ _) fun heq => hdvd ⟨_, by rw [← heq, Nat.mul_comm]⟩
    unfold ExtendedMantissa.roundedMantissa
    rw [Phrase.mantissa_shiftRight]
    dsimp only
    omega

/-- A shift of the mantissa may be taken out of the exponent. -/
theorem mul_zpow_add (k s : Nat) (e : ℤ) :
    (k : ℚ) * 2 ^ (e + s) = ((k * 2 ^ s : Nat) : ℚ) * 2 ^ e := by
  rw [zpow_add₀ (by norm_num), zpow_natCast]
  push_cast
  ring

/-- A number that a mantissa of 53 bits has room for, under whatever exponent. -/
def IsShort (v : ℚ) : Prop := ∃ (m : ℕ) (e : ℤ), m ≤ 2 ^ 53 ∧ v = m * 2 ^ e

/-- No short number lies between a mantissa of 53 bits and the next one. -/
theorem succ_mul_le_of_isShort {k : Nat} {e : ℤ} {v : ℚ} (hk : 2 ^ 52 ≤ k) (hv : IsShort v)
    (hlt : (k : ℚ) * 2 ^ e < v) : ((k + 1 : Nat) : ℚ) * 2 ^ e ≤ v := by
  obtain ⟨m, f, hm, rfl⟩ := hv
  obtain ⟨n, rfl⟩ : ∃ n : ℕ, f = e + n := by
    refine Int.le.dest (Int.not_lt.mp fun hfe => absurd hlt (not_lt.mpr ?_)) |>.imp fun _ h => h.symm
    -- Under a smaller exponent there is no mantissa that large.
    calc (m : ℚ) * 2 ^ f ≤ 2 ^ 53 * 2 ^ f := by gcongr; exact_mod_cast hm
      _ = 2 ^ 52 * 2 ^ (f + 1) := by rw [zpow_add_one₀ (by norm_num)]; ring
      _ ≤ k * 2 ^ e := by
        gcongr
        · exact_mod_cast hk
        · norm_num
        · omega
  rw [mul_zpow_add] at hlt ⊢
  have hlt' : (k : ℚ) < (m * 2 ^ n : Nat) := lt_of_mul_lt_mul_right hlt (by positivity)
  have hle : k + 1 ≤ m * 2 ^ n := by exact_mod_cast hlt'
  gcongr

/-- What a shift leaves of a mantissa of at least 53 bits. -/
theorem exists_shift {m : Nat} (hm : 2 ^ 52 ≤ m) :
    ∃ s, m.log2 = 52 + s ∧ 2 ^ 52 ≤ m / 2 ^ s ∧ m / 2 ^ s < 2 ^ 53 := by
  have hpos : m ≠ 0 := by omega
  have hlow := Nat.log2_self_le hpos
  have hhigh := @Nat.lt_log2_self m
  obtain ⟨s, hs⟩ := Nat.exists_eq_add_of_le ((Nat.le_log2 hpos).mpr hm)
  rw [hs] at hlow hhigh
  refine ⟨s, hs, (Nat.le_div_iff_mul_le (Nat.two_pow_pos s)).mpr ?_,
    (Nat.div_lt_iff_lt_mul (Nat.two_pow_pos s)).mpr ?_⟩
  · rwa [← Nat.pow_add]
  · rwa [← Nat.pow_add, show 53 + s = 52 + s + 1 by omega]

/-- What a mantissa of at least 53 bits is rounded to is at most every short number above it. -/
theorem roundedMantissa_le {m s : Nat} {e : ℤ} {v : ℚ} (hm : 2 ^ 52 ≤ m / 2 ^ s) (hv : IsShort v)
    (hmv : (m : ℚ) * 2 ^ e ≤ v) :
    ((ExtendedMantissa.mk m false false >>> s).roundedMantissa : ℚ) * 2 ^ (e + s) ≤ v := by
  obtain heq | ⟨heq, hlt⟩ := roundedMantissa_shiftRight m s
  · rw [heq, mul_zpow_add]
    refine le_trans ?_ hmv
    gcongr
    exact_mod_cast Nat.div_mul_le_self m (2 ^ s)
  · rw [heq]
    refine succ_mul_le_of_isShort hm hv (lt_of_lt_of_le ?_ hmv)
    rw [mul_zpow_add]
    gcongr

/-! ## Rounding to a float -/

/-- A normal float, of a size of at least one that is at most every short number from `r` on. -/
def Rounds (x : UnpackedFloat) (r : ℚ) : Prop :=
  ∃ sign m e h, x = .finite sign m e h ∧ 2 ^ 52 ≤ m ∧ m < 2 ^ 53 ∧ -52 ≤ e ∧
    ∀ v, IsShort v → r ≤ v → (m : ℚ) * 2 ^ e ≤ v

/-- A mantissa of more than 53 bits is shifted until no more are left. -/
theorem shiftToTargetExponent_eq {m s : Nat} {e : Int} (hs : m.log2 = 52 + s) (he : -52 ≤ e + s) :
    shiftToTargetExponent Format.binary64 m e .exact =
      (ExtendedMantissa.mk m false false >>> s, e + s) := by
  have hshift : (Format.binary64.targetExponent (totalExponent m e) - e).toNat = s := by
    rw [Phrase.targetExponent_binary64]
    unfold totalExponent
    omega
  unfold shiftToTargetExponent shiftToExponent
  dsimp only
  rw [hshift]
  rfl

/-- A mantissa of 53 bits is left as it is. -/
theorem shiftToTargetExponent_of_lt {m : Nat} {e : Int} (hm : 2 ^ 52 ≤ m) (hm' : m < 2 ^ 53)
    (he : -52 ≤ e) :
    shiftToTargetExponent Format.binary64 m e .exact = (⟨m, false, false⟩, e) := by
  have hlog : m.log2 = 52 + 0 := (Nat.log2_eq_iff (by omega)).mpr ⟨hm, hm'⟩
  rw [shiftToTargetExponent_eq hlog (by omega), shiftRight_of_dvd (one_dvd m), Nat.pow_zero,
    Nat.div_one, Int.natCast_zero, Int.add_zero]

/-- The carry into a further bit is taken off again. -/
theorem shiftToTargetExponent_carry {e : Int} (he : -52 ≤ e) :
    shiftToTargetExponent Format.binary64 (2 ^ 53) e .exact = (⟨2 ^ 52, false, false⟩, e + 1) := by
  rw [shiftToTargetExponent_eq (s := 1) Nat.log2_two_pow (by omega)]
  rfl

/-- At least one is at least the lowest place of a mantissa of 53 bits. -/
theorem neg_log2_le {m : Nat} {e : Int} (h : (1 : ℚ) ≤ m * 2 ^ e) : -(m.log2 : ℤ) ≤ e := by
  have hone : (2 : ℚ) ^ (0 : ℤ) < 2 ^ ((m.log2 + 1 : ℕ) + e) := by
    rw [zpow_add₀ (by norm_num), zpow_natCast, zpow_zero]
    refine lt_of_le_of_lt h ?_
    gcongr
    exact_mod_cast @Nat.lt_log2_self m
  have hexponent := (zpow_lt_zpow_iff_right₀ (by norm_num : (1 : ℚ) < 2)).mp hone
  omega

theorem rounds_roundWithAccuracy (sign : Sign) {m : Nat} {e : Int} (hm : 2 ^ 52 ≤ m)
    (he : (1 : ℚ) ≤ m * 2 ^ e) :
    Rounds (roundWithAccuracy Format.binary64 sign m e .exact) (m * 2 ^ e) := by
  obtain ⟨s, hs, hlow, hhigh⟩ := exists_shift hm
  have hplace : -52 ≤ e + s := by
    have hlog := neg_log2_le he
    omega
  have hround := roundedMantissa_shiftRight m s
  have hle : ∀ v, IsShort v → (m : ℚ) * 2 ^ e ≤ v →
      ((ExtendedMantissa.mk m false false >>> s).roundedMantissa : ℚ) * 2 ^ (e + s) ≤ v :=
    fun v hv => roundedMantissa_le hlow hv
  unfold roundWithAccuracy
  rw [shiftToTargetExponent_eq hs hplace]
  dsimp only
  generalize (ExtendedMantissa.mk m false false >>> s).roundedMantissa = rounded at *
  -- Rounded up to the next power of two, the number takes one place less.
  by_cases hcarry : rounded < 2 ^ 53
  · rw [shiftToTargetExponent_of_lt (by omega) hcarry hplace]
    dsimp only
    rw [dif_neg (by omega)]
    exact ⟨_, _, _, _, rfl, by omega, hcarry, hplace, hle⟩
  · obtain rfl : rounded = 2 ^ 53 := by omega
    rw [shiftToTargetExponent_carry hplace]
    refine ⟨sign, 2 ^ 52, e + s + 1, Nat.two_pow_pos _, rfl, le_rfl, by omega, by omega,
      fun v hv hmv => ?_⟩
    refine le_trans (le_of_eq ?_) (hle v hv hmv)
    rw [zpow_add_one₀ (by norm_num)]
    push_cast
    ring

/-! ## Operations on floats -/

/-- The largest float. -/
@[irreducible] def largest : Nat := (2 ^ 53 - 1) * 2 ^ 971

/-- The bits of a normal float in range are read back, up to the sign. -/
theorem unpack_pack (sign : Sign) {m : Nat} {e : Int} (h : 0 < m) (hm : 2 ^ 52 ≤ m)
    (hm' : m < 2 ^ 53) (he : -52 ≤ e) (he' : e ≤ 971) :
    ∃ sign' h', UnpackedFloat.unpack Format.binary64
      (UnpackedFloat.pack Format.binary64 (.finite sign m e h)) = .finite sign' m e h' := by
  have hbias : ((Format.binary64.exponentBias : Nat) : Int) = 1023 := rfl
  have hlog : m.log2 = 52 := (Nat.log2_eq_iff (by omega)).mpr ⟨hm, hm'⟩
  obtain ⟨hexponent, hlast, hzero⟩ := Phrase.stores_exponent (by omega : -1074 ≤ e) he'
  have hmantissa : (1#1 ++ BitVec.ofNat 52 m).toNat = m := by
    rw [BitVec.toNat_append, ← Nat.shiftLeft_add_eq_or_of_lt (BitVec.isLt _), BitVec.toNat_ofNat]
    show 1 * 2 ^ 52 + m % 2 ^ 52 = m
    omega
  have hplace : ((e + 1023 + (52 : Nat)).toNat : Int) - (1023 + (52 : Nat)) = e := by omega
  unfold UnpackedFloat.pack
  dsimp only
  rw [hbias, if_neg (by omega), if_pos (by rw [hlog]; rfl)]
  unfold UnpackedFloat.unpack
  dsimp only
  rw [unpackExponent_packComponents, if_neg hlast, if_neg hzero]
  simp only [unpackMantissa_packComponents, hmantissa, hexponent, hbias, hplace]
  exact ⟨_, h, rfl⟩

theorem isShort_natCast {m : Nat} (e : Nat) (h : m ≤ 2 ^ 53) : IsShort ((m * 2 ^ e : Nat) : ℚ) :=
  ⟨m, e, h, by push_cast; rw [zpow_natCast]⟩

theorem isShort_largest : IsShort largest := by
  unfold largest
  exact isShort_natCast 971 (Nat.sub_le _ _)

theorem largest_lt : largest < 2 ^ 52 * 2 ^ 972 := by decide +kernel

theorem two_pow_64_le_largest : 2 ^ 64 ≤ largest := by decide +kernel

/-- A short number stands close above every number. -/
theorem exists_isShort {n : Nat} (h : 0 < n) :
    ∃ v, IsShort v ∧ (n : ℚ) ≤ v ∧ v * 2 ^ 52 ≤ n * (2 ^ 52 + 1) := by
  by_cases hsmall : n < 2 ^ 53
  · refine ⟨n, ⟨n, 0, hsmall.le, by rw [zpow_zero, mul_one]⟩, le_rfl, ?_⟩
    gcongr
    norm_num
  obtain ⟨s, hs, -, hk⟩ := exists_shift (show 2 ^ 52 ≤ n by omega)
  have hlow := Nat.log2_self_le (Nat.ne_of_gt h)
  rw [hs] at hlow
  have habove : n < (n / 2 ^ s + 1) * 2 ^ s := by
    rw [Nat.mul_comm]
    exact Nat.lt_mul_div_succ n (Nat.two_pow_pos s)
  have hbelow : n / 2 ^ s * 2 ^ s ≤ n := Nat.div_mul_le_self n (2 ^ s)
  refine ⟨_, isShort_natCast s (m := n / 2 ^ s + 1) hk, by exact_mod_cast habove.le, ?_⟩
  have hnear : (n / 2 ^ s + 1) * 2 ^ s * 2 ^ 52 ≤ n * (2 ^ 52 + 1) := by
    calc (n / 2 ^ s + 1) * 2 ^ s * 2 ^ 52 = n / 2 ^ s * 2 ^ s * 2 ^ 52 + 2 ^ (52 + s) := by
          rw [Nat.pow_add]; ring
      _ ≤ n * 2 ^ 52 + n := Nat.add_le_add (Nat.mul_le_mul_right _ hbelow) hlow
      _ = n * (2 ^ 52 + 1) := by ring
  exact_mod_cast hnear

namespace Rounds

variable {x y : UnpackedFloat} {r s v w : ℚ}

theorem isFinite (h : Rounds x r) : x.isFinite = true := by
  obtain ⟨sign, m, e, hm, rfl, -⟩ := h
  rfl

/-- A float in range is read back from its bits. -/
theorem packed (h : Rounds x r) (hr : r ≤ largest) :
    Rounds (UnpackedFloat.unpack Format.binary64 (UnpackedFloat.pack Format.binary64 x)) r := by
  obtain ⟨sign, m, e, hm, rfl, hlow, hhigh, he, hle⟩ := h
  have hexponent : e ≤ 971 := by
    by_contra hbeyond
    have hlarge : (2 : ℚ) ^ 52 * 2 ^ (972 : ℤ) ≤ m * 2 ^ e := by
      gcongr
      · exact_mod_cast hlow
      · norm_num
      · omega
    have hlargest : (largest : ℚ) < 2 ^ 52 * 2 ^ (972 : ℤ) := by
      show (largest : ℚ) < 2 ^ 52 * 2 ^ ((972 : ℕ) : ℤ)
      rw [zpow_natCast]
      exact_mod_cast largest_lt
    exact absurd (hlarge.trans (hle _ isShort_largest hr)) (not_le.mpr hlargest)
  obtain ⟨sign', hm', hread⟩ := unpack_pack sign hm hlow hhigh he hexponent
  exact ⟨sign', m, e, hm', hread, hlow, hhigh, he, hle⟩

/-- A product of floats is in range if it is for short numbers above them. -/
theorem isFinite_mul (hx : Rounds x r) (hy : Rounds y s) (hv : IsShort v) (hw : IsShort w)
    (hrv : r ≤ v) (hsw : s ≤ w) (h : v * w ≤ largest) :
    (UnpackedFloat.unpack Format.binary64 (UnpackedFloat.pack Format.binary64
      (UnpackedFloat.mul Format.binary64 x y))).isFinite = true := by
  obtain ⟨sign, m, e, hm, rfl, hlow, -, he, hle⟩ := hx
  obtain ⟨sign', m', e', hm', rfl, hlow', -, he', hle'⟩ := hy
  have hone : ∀ {m : Nat} {e : Int}, 2 ^ 52 ≤ m → -52 ≤ e → (1 : ℚ) ≤ m * 2 ^ e := by
    intro m e hm he
    calc (1 : ℚ) = 2 ^ 52 * 2 ^ (-52 : ℤ) := by norm_num
      _ ≤ m * 2 ^ e := by
        gcongr
        · exact_mod_cast hm
        · norm_num
  have hproduct : ((m * m' : Nat) : ℚ) * 2 ^ (e + e') = m * 2 ^ e * (m' * 2 ^ e') := by
    rw [zpow_add₀ (by norm_num)]
    push_cast
    ring
  have hrounds := rounds_roundWithAccuracy (sign * sign') (m := m * m') (e := e + e')
    (hlow.trans (Nat.le_mul_of_pos_right m hm'))
    (by rw [hproduct]; exact one_le_mul_of_one_le_of_one_le (hone hlow he) (hone hlow' he'))
  refine (hrounds.packed ?_).isFinite
  rw [hproduct]
  refine le_trans (mul_le_mul (hle v hv hrv) (hle' w hw hsw) ?_ ?_) h
  · exact zero_le_one.trans (hone hlow' he')
  · exact zero_le_one.trans ((hone hlow he).trans (hle v hv hrv))

end Rounds

/-- A number of 64 bits as a float. -/
theorem rounds_toFloat {n : Nat} (hn : 0 < n) (hlimit : n < 2 ^ 64) :
    Rounds n.toUInt64.toFloat.toModel.unpack n := by
  obtain ⟨shift, -, hfull, hfloat⟩ := Phrase.exists_unpack_toFloat hn hlimit
  have hsize : ((n <<< shift : Nat) : ℚ) * 2 ^ (0 - (shift : ℤ)) = n := by
    rw [Nat.shiftLeft_eq, zero_sub, zpow_neg, zpow_natCast]
    push_cast
    field_simp
  -- Shifted, the number fills the significand, which makes the rounding one of its last place.
  have hrounds := rounds_roundWithAccuracy .positive (m := n <<< shift) (e := 0 - shift) ?_ ?_
  · rw [hsize] at hrounds
    rw [hfloat]
    refine hrounds.packed ?_
    exact_mod_cast hlimit.le.trans two_pow_64_le_largest
  · rw [Nat.shiftLeft_eq]
    calc 2 ^ 52 ≤ 2 ^ (n.log2 + shift) := Nat.pow_le_pow_right (by decide) hfull
      _ = 2 ^ n.log2 * 2 ^ shift := Nat.pow_add 2 _ _
      _ ≤ n * 2 ^ shift := Nat.mul_le_mul_right _ (Nat.log2_self_le (Nat.ne_of_gt hn))
  · rw [hsize]
    exact_mod_cast hn

end Rephrase.Decimal
