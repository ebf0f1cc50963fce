import Mathlib
import Rephrase.Proofs.Decimal.Digits
import Rephrase.Proofs.Text.Blank
import Rephrase.Proofs.Time.Calendar
import Rephrase.Time.Stamp

/-! A time stamp is read back as the point in time that it was written for. -/

namespace Rephrase.Instant

open Decimal (AreDigits)

/-- A point in time that a stamp can tell of: its day is in the calendar, and a leap second follows
the last second of a minute. -/
structure IsPlain (t : Instant) : Prop where
  covered : Calendar.covers t.seconds = true
  nanos : t.nanos < 1000000000 ∨ (t.nanos < 2000000000 ∧ t.seconds % 60 = 59)

theorem of_after {now expires : Instant} {span : Int} (h : now.after span = .ok expires) :
    expires = ⟨now.seconds + span, now.nanos⟩ ∧ Calendar.covers expires.seconds = true := by
  unfold after at h
  split at h
  · cases h
    exact ⟨rfl, ‹_›⟩
  · cases h

/-- What is not in a leap second does not end in one. -/
theorem isPlain_of_after {now expires : Instant} {span : Int} (h : now.after span = .ok expires)
    (hnanos : now.nanos < 1000000000) : expires.IsPlain := by
  obtain ⟨rfl, hcovered⟩ := of_after h
  exact ⟨hcovered, .inl hnanos⟩

/-! ## Parts -/

theorem not_blank_of_isDigit {c : Char} (h : c.isDigit = true) : Text.isBlank c = false := by
  have hrange : 48 ≤ c.toNat ∧ c.toNat ≤ 57 := by
    simpa [Char.isDigit, UInt32.le_iff_toNat_le] using h
  unfold Text.isBlank
  dsimp only
  simp only [Bool.or_eq_false_iff, Bool.and_eq_false_iff, decide_eq_false_iff_not, beq_eq_false_iff_ne]
  omega

theorem stripStart_digits {digits : List Char} (h : AreDigits digits) (rest : List Char) :
    Text.stripStart Text.isBlank (digits ++ rest) = digits ++ rest := by
  obtain ⟨c, more, rfl⟩ := List.exists_cons_of_ne_nil h.1
  refine Text.stripStart_of_head ?_
  rintro d ⟨⟩
  exact not_blank_of_isDigit (h.2 c List.mem_cons_self)

/-- A number is taken to its end, if there is room for its digits. -/
theorem readNumber_append {digits rest : List Char} {most : Nat} (h : AreDigits digits)
    (hmost : digits.length ≤ most)
    (hrest : digits.length = most ∨ ∀ c ∈ rest.head?, c.isDigit = false) :
    readNumber most (digits ++ rest) = some (Decimal.ofDigits digits, rest) := by
  have htake : ((digits ++ rest).take most).takeWhile Char.isDigit = digits := by
    obtain rfl | hrest := hrest
    · rw [List.take_left, List.takeWhile_eq_self_iff.mpr h.2]
    · rw [List.take_append, List.take_of_length_le hmost]
      refine (h.takeWhile_append fun c hc => hrest c ?_).1
      rw [List.head?_take] at hc
      split at hc
      · cases hc
      · exact hc
  unfold readNumber
  dsimp only
  rw [htake, List.isEmpty_eq_false_iff.mpr h.1, if_neg Bool.false_ne_true, List.drop_left]

theorem readField_padded {low high n : Nat} (hlow : low ≤ n) (hhigh : n ≤ high) (hn : n < 100)
    (rest : List Char) : readField low high (Decimal.padded 2 n ++ rest) = some (n, rest) := by
  have hdigits := Decimal.areDigits_padded 2 n
  have hlength : (Decimal.padded 2 n).length = 2 := Decimal.length_padded Nat.two_pos hn
  unfold readField
  rw [stripStart_digits hdigits, readNumber_append hdigits (Nat.le_of_eq hlength) (.inl hlength),
    Decimal.ofDigits_padded, Option.filter_some, if_pos (by simp [hlow, hhigh])]

theorem readMark_cons {mark : Char} (h : Text.isBlank mark = false) (rest : List Char) :
    readMark mark (mark :: rest) = some rest := by
  unfold readMark
  rw [Text.stripStart_of_head (by rintro c ⟨⟩; exact h)]
  exact if_pos rfl

/-! ## Dates -/

theorem readYear_writeYear (year : Int) (rest : List Char)
    (hrest : ∀ c ∈ rest.head?, c.isDigit = false) :
    readYear (writeYear year ++ rest) = some (year, rest) := by
  cases year with
  | ofNat n =>
    unfold writeYear
    dsimp only
    split
    · rename_i hshort
      have hdigits := Decimal.areDigits_padded 4 n
      have hlength : (Decimal.padded 4 n).length = 4 := Decimal.length_padded (by decide) hshort
      have hread : readNumber 4 (Decimal.padded 4 n ++ rest) = some (_, rest) :=
        readNumber_append hdigits (Nat.le_of_eq hlength) (.inl hlength)
      obtain ⟨c, more, hfirst⟩ := List.exists_cons_of_ne_nil hdigits.1
      have hc : c.isDigit = true := hdigits.2 c (hfirst ▸ List.mem_cons_self)
      unfold readYear
      rw [stripStart_digits hdigits]
      rw [hfirst, List.cons_append] at hread ⊢
      -- Four digits have no sign in front of them.
      split
      · rename_i heq
        rw [(List.cons.inj heq).1] at hc
        exact absurd hc (by decide)
      · rename_i heq
        rw [(List.cons.inj heq).1] at hc
        exact absurd hc (by decide)
      · rw [hread, ← hfirst, Decimal.ofDigits_padded]
        rfl
    -- A longer year stands behind a sign, and all its digits are read.
    · have hread := readNumber_append (Decimal.areDigits_natural n)
        (List.sublist_append_left _ rest).length_le (.inr hrest)
      show (readNumber (Decimal.natural n ++ rest).length (Decimal.natural n ++ rest)).map _ = _
      rw [hread, Decimal.ofDigits_natural]
      rfl
  | negSucc n =>
    have hread := readNumber_append (Decimal.areDigits_padded 4 (n + 1))
      (List.sublist_append_left _ rest).length_le (.inr hrest)
    show (readNumber (Decimal.padded 4 (n + 1) ++ rest).length
      (Decimal.padded 4 (n + 1) ++ rest)).map _ = _
    rw [hread, Decimal.ofDigits_padded]
    rfl

/-- The date in a stamp. -/
def writeDate (date : Calendar.Date) : List Char :=
  writeYear date.year ++ '-' :: Decimal.padded 2 date.month ++ '-' :: Decimal.padded 2 date.day

theorem readDate_writeDate {date : Calendar.Date} (h : date.isValid = true) (rest : List Char) :
    readDate (writeDate date ++ rest) = some (date, rest) := by
  obtain ⟨year, month, day⟩ := date
  have hmonth : 1 ≤ month ∧ month ≤ 12 ∧ 1 ≤ day ∧ day ≤ 31 := by
    have hday : Calendar.daysOf year month ≤ 31 := by
      unfold Calendar.daysOf
      grind
    unfold Calendar.Date.isValid at h
    simp only [Bool.and_eq_true, decide_eq_true_eq] at h
    omega
  obtain ⟨hmonthLow, hmonthHigh, hdayLow, hdayHigh⟩ := hmonth
  have hyear := readYear_writeYear year ('-' :: (Decimal.padded 2 month ++
    '-' :: (Decimal.padded 2 day ++ rest))) (by rintro c ⟨⟩; decide)
  have hmark : ∀ rest, readMark '-' ('-' :: rest) = some rest := readMark_cons (by decide)
  have hmonth := readField_padded hmonthLow hmonthHigh (by omega)
  have hday := readField_padded hdayLow hdayHigh (by omega)
  simp only [readDate, writeDate, List.append_assoc, List.cons_append, hyear, hmark, hmonth, hday,
    Option.bind_eq_bind, Option.bind_some]
  exact if_pos h

/-! ## Times -/

theorem readFraction_writeFraction {nanos : Nat} (h : nanos < 1000000000) {rest : List Char}
    (hrest : ∀ c ∈ rest.head?, c.isDigit = false ∧ c ≠ '.') :
    readFraction (writeFraction nanos ++ rest) = some (nanos, rest) := by
  have hend : ∀ c ∈ rest.head?, c.isDigit = false := fun c hc => (hrest c hc).1
  -- The digits that are written are counted in units of their last place.
  have hread : ∀ places n, 0 < places → places ≤ 9 → n < 10 ^ places →
      readFraction ('.' :: Decimal.padded places n ++ rest) =
        some (n * 10 ^ (9 - places), rest) := by
    intro places n hplaces hfew hn
    have hdigits := Decimal.areDigits_padded places n
    have hlength := Decimal.length_padded hplaces hn
    obtain ⟨htake, hdrop⟩ := hdigits.takeWhile_append hend
    show (if ((Decimal.padded places n ++ rest).takeWhile Char.isDigit).isEmpty then none
      else some (Decimal.ofDigits (((Decimal.padded places n ++ rest).takeWhile Char.isDigit).take 9) *
        Nat.pow 10 (9 - (((Decimal.padded places n ++ rest).takeWhile Char.isDigit).take 9).length),
        (Decimal.padded places n ++ rest).dropWhile Char.isDigit)) = _
    rw [htake, hdrop, List.isEmpty_eq_false_iff.mpr hdigits.1, if_neg Bool.false_ne_true,
      List.take_of_length_le (by omega), hlength, Decimal.ofDigits_padded]
    rfl
  unfold writeFraction
  split
  · rename_i hzero
    rw [List.nil_append, hzero]
    unfold readFraction
    split
    · exact absurd rfl (hrest '.' rfl).2
    · rfl
  split
  · rw [hread 3 _ (by decide) (by decide) (by omega)]
    congr 2
    omega
  split
  · rw [hread 6 _ (by decide) (by decide) (by omega)]
    congr 2
    omega
  · rw [hread 9 _ (by decide) (by decide) h]
    congr 2
    omega

/-- The time of day in a stamp, without its distance from universal time. -/
def writeTime (second : Nat) (nanos : Nat) : List Char :=
  let leap := 1000000000 ≤ nanos
  Decimal.padded 2 (second / 3600) ++ ':' :: (Decimal.padded 2 (second / 60 % 60) ++ ':' ::
    (Decimal.padded 2 (second % 60 + if leap then 1 else 0) ++
      writeFraction (if leap then nanos - 1000000000 else nanos)))

theorem readTime_writeTime {second nanos : Nat} (hsecond : second < 86400)
    (hnanos : nanos < 1000000000 ∨ (nanos < 2000000000 ∧ second % 60 = 59)) {rest : List Char}
    (hrest : ∀ c ∈ rest.head?, c.isDigit = false ∧ c ≠ '.') :
    readTime (writeTime second nanos ++ rest) = some ((second, nanos), rest) := by
  have hsize : second % 60 + (if 1000000000 ≤ nanos then 1 else 0) ≤ 60 := by
    split <;> omega
  have hfraction : (if 1000000000 ≤ nanos then nanos - 1000000000 else nanos) < 1000000000 := by
    split <;> omega
  have hmark : ∀ rest, readMark ':' (':' :: rest) = some rest := readMark_cons (by decide)
  have hhour := readField_padded (Nat.zero_le (second / 3600)) (show _ ≤ 23 by omega) (by omega)
  have hminute := readField_padded (Nat.zero_le (second / 60 % 60)) (show _ ≤ 59 by omega)
    (by omega)
  have hlast := readField_padded (Nat.zero_le _) hsize (by omega)
  have hnanosRead := readFraction_writeFraction hfraction hrest
  simp only [readTime, writeTime, List.append_assoc, List.cons_append, hhour, hmark, hminute, hlast,
    hnanosRead, Option.bind_eq_bind, Option.bind_some, Option.pure_def]
  by_cases hleap : 1000000000 ≤ nanos
  · simp only [if_pos hleap]
    rw [if_pos (by omega)]
    congr 3 <;> omega
  · simp only [if_neg hleap]
    rw [if_neg (by omega)]
    congr 3
    omega

/-- No more than nine digits of a fraction count. -/
theorem lt_of_readFraction {cs rest : List Char} {nanos : Nat}
    (h : readFraction cs = some (nanos, rest)) : nanos < 1000000000 := by
  unfold readFraction at h
  split at h
  · rename_i more
    dsimp only at h
    split at h
    · cases h
    · cases h
      generalize hcounted : (more.takeWhile Char.isDigit).take 9 = counted
      have hdigits : ∀ c ∈ counted, c.isDigit = true := fun c hc =>
        List.mem_takeWhile_imp (List.mem_of_mem_take (hcounted ▸ hc))
      have hlength : counted.length ≤ 9 := hcounted ▸ List.length_take_le _ _
      calc Decimal.ofDigits counted * Nat.pow 10 (9 - counted.length)
          < 10 ^ counted.length * 10 ^ (9 - counted.length) :=
            Nat.mul_lt_mul_of_pos_right (Decimal.ofDigits_lt hdigits) (Nat.pow_pos (by decide))
        _ = 1000000000 := by rw [← Nat.pow_add, Nat.add_sub_cancel' hlength]
  · cases h
    decide

theorem of_readTime {cs rest : List Char} {second nanos : Nat}
    (h : readTime cs = some ((second, nanos), rest)) :
    nanos < 1000000000 ∨ (nanos < 2000000000 ∧ second % 60 = 59) := by
  simp only [readTime, Option.bind_eq_bind, Option.bind_eq_some_iff, Option.pure_def,
    Option.some.injEq] at h
  obtain ⟨hour, -, _, -, minute, -, _, -, last, -, fraction, hcounted, heq⟩ := h
  have hsmall := lt_of_readFraction (hcounted : _ = some (fraction.1, fraction.2))
  split at heq
  · cases heq
    exact .inr ⟨by omega, by omega⟩
  · cases heq
    exact .inl hsmall

/-! ## Stamps -/

/-- Distances from universal time are whole minutes. -/
theorem emod_of_readOffset {cs rest : List Char} {offset : Int}
    (h : readOffset cs = some (offset, rest)) : offset % 60 = 0 := by
  -- A distance is told in hours and minutes.
  have hdistance : ∀ {cs rest distance}, readDistance cs = some (distance, rest) →
      distance % 60 = 0 := by
    intro cs rest distance h
    unfold readDistance at h
    dsimp only at h
    split at h
    · cases h
      omega
    · cases h
  unfold readOffset at h
  split at h
  · cases h
    rfl
  split at h
  · cases h
    rfl
  · cases h
    rfl
  · split at h
    · split at h
      · rename_i distance _ hread
        have hminutes := hdistance hread
        split at h
        · cases h
          split <;> omega
        · cases h
      · cases h
    · cases h
  · cases h

theorem toList_write (t : Instant) : t.write.toList =
    writeDate (Calendar.Date.ofDays (t.seconds / Calendar.daySeconds)) ++
      'T' :: (writeTime (t.seconds % Calendar.daySeconds).toNat t.nanos ++ ['Z']) := by
  unfold write writeDate writeTime
  rw [String.toList_ofList]
  simp only [List.append_assoc, List.cons_append]

/-- A stamp is read back. -/
theorem read?_write {t : Instant} (h : t.IsPlain) : read? t.write.toList = some t := by
  obtain ⟨seconds, nanos⟩ := t
  obtain ⟨hcovered, hnanos⟩ := h
  dsimp only at hcovered hnanos
  have hday : 0 ≤ seconds % Calendar.daySeconds ∧ seconds % Calendar.daySeconds < 86400 := by
    unfold Calendar.daySeconds
    omega
  have hminute : (seconds % Calendar.daySeconds).toNat % 60 = (seconds % 60).toNat := by
    unfold Calendar.daySeconds at *
    omega
  -- The day and the second of the day make up the seconds again.
  have hback : Calendar.Date.toDays (Calendar.Date.ofDays (seconds / Calendar.daySeconds)) *
      Calendar.daySeconds + (seconds % Calendar.daySeconds).toNat - 0 = seconds := by
    rw [Calendar.toDays_ofDays]
    unfold Calendar.daySeconds at *
    omega
  rw [toList_write]
  unfold read?
  rw [readDate_writeDate (Calendar.isValid_ofDays hcovered)]
  show ((readTime (writeTime (seconds % Calendar.daySeconds).toNat nanos ++ ['Z'])).bind fun time =>
    (readOffset (Text.stripStart Text.isBlank time.2)).bind fun offset =>
      if (Text.trim offset.2).isEmpty && Calendar.covers
          ((Calendar.Date.ofDays (seconds / Calendar.daySeconds)).toDays * Calendar.daySeconds +
            time.1.1 - offset.1) then
        some (Instant.mk ((Calendar.Date.ofDays (seconds / Calendar.daySeconds)).toDays *
          Calendar.daySeconds + time.1.1 - offset.1) time.1.2)
      else none) = _
  rw [readTime_writeTime (by omega) (by omega) (by rintro c ⟨⟩; decide)]
  show (if Calendar.covers ((Calendar.Date.ofDays (seconds / Calendar.daySeconds)).toDays *
      Calendar.daySeconds + (seconds % Calendar.daySeconds).toNat - 0) then some (Instant.mk _ nanos)
    else none) = _
  rw [hback, if_pos hcovered]

/-- What a stamp is read as has a stamp. -/
theorem isPlain_of_read? {cs : List Char} {t : Instant} (h : read? cs = some t) : t.IsPlain := by
  simp only [read?, Option.bind_eq_bind, Option.bind_eq_some_iff] at h
  obtain ⟨⟨date, more⟩, -, h⟩ := h
  -- Whatever stands between the date and the time, the rest is read in one way.
  have hrest : ∃ more, ((readTime more).bind fun time =>
      (readOffset (Text.stripStart Text.isBlank time.2)).bind fun offset =>
        if (Text.trim offset.2).isEmpty && Calendar.covers
            (date.toDays * Calendar.daySeconds + time.1.1 - offset.1) then
          some (Instant.mk (date.toDays * Calendar.daySeconds + time.1.1 - offset.1) time.1.2)
        else none) = some t := by
    dsimp only at h
    split at h
    · exact ⟨_, h⟩
    · exact ⟨_, h⟩
    · exact ⟨_, h⟩
    · cases h
  obtain ⟨more, h⟩ := hrest
  simp only [Option.bind_eq_some_iff] at h
  obtain ⟨⟨⟨second, nanos⟩, _⟩, htime, ⟨offset, _⟩, hoffset, heq⟩ := h
  have hminute := emod_of_readOffset hoffset
  have hnanos := of_readTime htime
  simp only [Option.ite_none_right_eq_some, Bool.and_eq_true, Option.some.injEq] at heq
  obtain ⟨⟨-, hcovered⟩, rfl⟩ := heq
  refine ⟨hcovered, hnanos.imp_right fun ⟨hlow, hlast⟩ => ⟨hlow, ?_⟩⟩
  show (date.toDays * 86400 + (second : Int) - offset) % 60 = 59
  omega

end Rephrase.Instant
