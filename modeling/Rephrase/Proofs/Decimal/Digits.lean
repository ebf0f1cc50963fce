import Mathlib
import Rephrase.Decimal.Digits

/-! The digits of a number are read back as the number, also behind zeros. -/

namespace Rephrase.Decimal

theorem toNat_digitChar (n : Nat) : (digitChar n).toNat = '0'.toNat + n % 10 := by
  have hvalid : ('0'.toNat + n % 10).isValidChar := by
    have hzero : '0'.toNat = 48 := rfl
    unfold Nat.isValidChar
    omega
  rw [digitChar, Char.toNat_ofNat, if_pos hvalid]

theorem appendDigit_digitChar (n : Nat) : appendDigit (n / 10) (digitChar n) = n := by
  rw [appendDigit, toNat_digitChar, Nat.add_sub_cancel_left]
  omega

theorem isDigit_digitChar (n : Nat) : (digitChar n).isDigit = true := by
  have hchar := toNat_digitChar n
  have hzero : '0'.toNat = 48 := rfl
  simp only [Char.isDigit, Bool.and_eq_true, decide_eq_true_eq, ge_iff_le, UInt32.le_iff_toNat_le]
  change 48 ≤ (digitChar n).toNat ∧ (digitChar n).toNat ≤ 57
  omega

theorem foldl_naturalFrom (done : List Char) (n : Nat) :
    (naturalFrom done n).foldl appendDigit 0 = done.foldl appendDigit n := by
  fun_induction naturalFrom done n with
  | case1 done n hsmall =>
    have hfirst := appendDigit_digitChar n
    rw [Nat.div_eq_of_lt hsmall] at hfirst
    rw [List.foldl_cons, hfirst]
  | case2 done n _ ih => rw [ih, List.foldl_cons, appendDigit_digitChar]

theorem ofDigits_natural (n : Nat) : ofDigits (natural n) = n := foldl_naturalFrom [] n

theorem isDigit_of_mem_naturalFrom {done : List Char} {n : Nat} {c : Char}
    (hdone : ∀ c ∈ done, c.isDigit = true) (h : c ∈ naturalFrom done n) : c.isDigit = true := by
  have hmore : ∀ (m : Nat) (done : List Char), (∀ c ∈ done, c.isDigit = true) →
      ∀ c ∈ digitChar m :: done, c.isDigit = true := by
    intro m done hdone c hc
    obtain rfl | hc := List.mem_cons.mp hc
    · exact isDigit_digitChar m
    · exact hdone c hc
  fun_induction naturalFrom done n with
  | case1 done n _ => exact hmore n done hdone c h
  | case2 done n _ ih => exact ih (hmore n done hdone) h

theorem isDigit_of_mem_natural {n : Nat} {c : Char} (h : c ∈ natural n) : c.isDigit = true :=
  isDigit_of_mem_naturalFrom (List.forall_mem_nil _) h

theorem naturalFrom_ne_nil (done : List Char) (n : Nat) : naturalFrom done n ≠ [] := by
  fun_induction naturalFrom done n with
  | case1 => exact List.cons_ne_nil _ _
  | case2 done n _ ih => exact ih

theorem exists_naturalFrom (done : List Char) (n : Nat) :
    ∃ c rest, naturalFrom done n = c :: rest ∧ (n ≠ 0 → c ≠ '0') := by
  fun_induction naturalFrom done n with
  | case1 done n hsmall =>
    refine ⟨_, _, rfl, fun hn hzero => hn ?_⟩
    have hchar := toNat_digitChar n
    rw [hzero, Nat.mod_eq_of_lt hsmall] at hchar
    omega
  | case2 done n hlarge ih =>
    obtain ⟨c, rest, heq, hc⟩ := ih
    exact ⟨c, rest, heq, fun _ => hc (by omega)⟩

/-- There are no zeros in front of a number. -/
theorem natural_eq_of_head? {n : Nat} (h : (natural n).head? = some '0') : natural n = ['0'] := by
  obtain ⟨c, rest, heq, hc⟩ := exists_naturalFrom [] n
  by_cases hn : n = 0
  · rw [hn, natural, naturalFrom]
    rfl
  · unfold natural at h
    rw [heq] at h
    exact absurd (Option.some.inj h) (hc hn)

/-- Digits, of which there is at least one. -/
def AreDigits (digits : List Char) : Prop := digits ≠ [] ∧ ∀ c ∈ digits, c.isDigit = true

theorem areDigits_natural (n : Nat) : AreDigits (natural n) :=
  ⟨naturalFrom_ne_nil [] n, fun _ => isDigit_of_mem_natural⟩

theorem AreDigits.append_zeros {digits : List Char} (h : AreDigits digits) (count : Nat) :
    AreDigits (digits ++ List.replicate count '0') ∧
      AreDigits (List.replicate count '0' ++ digits) := by
  have hzero : ∀ c ∈ List.replicate count '0', c.isDigit = true := by
    intro c hc
    rw [List.eq_of_mem_replicate hc]
    rfl
  constructor
  · exact ⟨List.append_ne_nil_of_left_ne_nil h.1 _,
      List.forall_mem_append.mpr ⟨h.2, hzero⟩⟩
  · exact ⟨List.append_ne_nil_of_right_ne_nil _ h.1, List.forall_mem_append.mpr ⟨hzero, h.2⟩⟩

theorem AreDigits.take {digits : List Char} (h : AreDigits digits) {n : Nat} (hn : 0 < n) :
    AreDigits (digits.take n) := by
  refine ⟨fun hnil => ?_, fun c hc => h.2 c (List.mem_of_mem_take hc)⟩
  rcases List.take_eq_nil_iff.mp hnil with hzero | hnil
  · omega
  · exact h.1 hnil

theorem AreDigits.drop {digits : List Char} (h : AreDigits digits) {n : Nat}
    (hn : n < digits.length) : AreDigits (digits.drop n) := by
  refine ⟨fun hnil => ?_, fun c hc => h.2 c (List.mem_of_mem_drop hc)⟩
  have hlength := List.drop_eq_nil_iff.mp hnil
  omega

/-- Digits in front of something else are told apart from it. -/
theorem AreDigits.takeWhile_append {digits rest : List Char} (h : AreDigits digits)
    (hrest : ∀ c ∈ rest.head?, c.isDigit = false) :
    (digits ++ rest).takeWhile Char.isDigit = digits ∧
      (digits ++ rest).dropWhile Char.isDigit = rest := by
  rw [List.takeWhile_append_of_pos h.2, List.dropWhile_append_of_pos h.2]
  cases rest with
  | nil => simp
  | cons c rest => simp [hrest c rfl]

theorem length_naturalFrom_le (done : List Char) {n places : Nat} (hplaces : 0 < places)
    (h : n < 10 ^ places) : (naturalFrom done n).length ≤ done.length + places := by
  fun_induction naturalFrom done n generalizing places with
  | case1 done n hsmall =>
    rw [List.length_cons]
    omega
  | case2 done n hlarge ih =>
    obtain ⟨places, rfl⟩ := Nat.exists_eq_succ_of_ne_zero (Nat.ne_of_gt hplaces)
    have hmore : 0 < places := by
      by_contra hzero
      obtain rfl : places = 0 := by omega
      omega
    have hshort := ih hmore (Nat.div_lt_of_lt_mul (by rwa [Nat.pow_succ'] at h))
    rw [List.length_cons] at hshort
    omega

theorem length_natural_le {n places : Nat} (hplaces : 0 < places) (h : n < 10 ^ places) :
    (natural n).length ≤ places := by
  have hlength := length_naturalFrom_le [] hplaces h
  rwa [List.length_nil, Nat.zero_add] at hlength

theorem appendDigit_lt {n bound : Nat} {c : Char} (hn : n < bound) (hc : c.isDigit = true) :
    appendDigit n c < 10 * bound := by
  have hrange : 48 ≤ c.toNat ∧ c.toNat ≤ 57 := by
    simpa [Char.isDigit, UInt32.le_iff_toNat_le] using hc
  unfold appendDigit
  simp only [Char.reduceToNat]
  omega

/-- Digits are too few for a number of more places. -/
theorem ofDigits_lt {digits : List Char} (h : ∀ c ∈ digits, c.isDigit = true) :
    ofDigits digits < 10 ^ digits.length := by
  unfold ofDigits
  induction digits using List.reverseRecOn with
  | nil => exact Nat.one_pos
  | append_singleton digits c ih =>
    obtain ⟨hdigits, hc⟩ := List.forall_mem_append.mp h
    rw [List.foldl_concat, List.length_append, List.length_singleton, Nat.pow_succ']
    exact appendDigit_lt (ih hdigits) (hc c (List.mem_singleton.mpr rfl))

/-- A digit that is appended moves the ones before it up by one place. -/
theorem le_foldl_appendDigit (n : Nat) (cs : List Char) :
    n * 10 ^ cs.length ≤ cs.foldl appendDigit n := by
  induction cs generalizing n with
  | nil => exact Nat.le_of_eq (Nat.mul_one n)
  | cons c cs ih =>
    refine Nat.le_trans ?_ (ih (appendDigit n c))
    rw [List.length_cons, Nat.pow_succ', ← Nat.mul_assoc]
    refine Nat.mul_le_mul_right _ ?_
    unfold appendDigit
    omega

theorem natural?_natural (n : Nat) : natural? (natural n) = some n := by
  have hdigits : (natural n).all Char.isDigit = true :=
    List.all_eq_true.mpr fun c => isDigit_of_mem_natural
  have hsome : (natural n).isEmpty = false := List.isEmpty_eq_false_iff.mpr (naturalFrom_ne_nil [] n)
  rw [natural?, hdigits, hsome, ofDigits_natural]
  rfl

theorem ofDigits_replicate_zero (count : Nat) (cs : List Char) :
    ofDigits (List.replicate count '0' ++ cs) = ofDigits cs := by
  induction count with
  | zero => rfl
  | succ count ih => exact ih

theorem ofDigits_padded (width n : Nat) : ofDigits (padded width n) = n := by
  rw [padded, ofDigits_replicate_zero, ofDigits_natural]

theorem areDigits_padded (width n : Nat) : AreDigits (padded width n) :=
  ((areDigits_natural n).append_zeros _).2

theorem length_padded {width n : Nat} (hwidth : 0 < width) (h : n < 10 ^ width) :
    (padded width n).length = width := by
  have hlength := length_natural_le hwidth h
  rw [padded, List.length_append, List.length_replicate, Nat.sub_add_cancel hlength]

theorem padded_injective (width : Nat) : Function.Injective (padded width) := by
  have hread : Function.LeftInverse ofDigits (padded width) := ofDigits_padded width
  exact hread.injective

end Rephrase.Decimal
