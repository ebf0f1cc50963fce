import Rephrase.Proofs.Text.Line

/-! The places of a needle are found from left to right, so what stands behind a place says nothing
about the places in front of it. Inside a needle that was found no other is looked for, so where a
needle stands without being found, it overlaps one that was found in front of it. -/

namespace Rephrase.Text

theorem occurrencesFrom_found (needle : List Char) (found : List (Nat × Nat))
    (offset line skip : Nat) (cs : List Char) :
    occurrencesFrom needle found offset line skip cs =
      found.reverse ++ occurrencesFrom needle [] offset line skip cs := by
  induction cs generalizing found offset line skip with
  | nil => simp [occurrencesFrom]
  | cons c cs ih =>
    unfold occurrencesFrom
    dsimp only
    split
    · rw [ih, ih [(offset, line)]]
      simp
    · exact ih found _ _ _

theorem le_of_mem_occurrencesFrom {needle cs : List Char} {offset line skip : Nat}
    {place : Nat × Nat} (h : place ∈ occurrencesFrom needle [] offset line skip cs) :
    offset ≤ place.1 := by
  induction cs generalizing offset line skip with
  | nil => simp [occurrencesFrom] at h
  | cons c cs ih =>
    unfold occurrencesFrom at h
    dsimp only at h
    split at h
    · rw [occurrencesFrom_found] at h
      obtain h | h := List.mem_append.mp h
      · rw [List.reverse_singleton, List.mem_singleton] at h
        exact Nat.le_of_eq (congrArg Prod.fst h).symm
      · exact Nat.le_of_add_right_le (ih h)
    · exact Nat.le_of_add_right_le (ih h)

/-- Inside the needle that was found last nothing is found. -/
theorem lt_of_mem_occurrencesFrom {needle cs : List Char} {offset line skip : Nat}
    {place : Nat × Nat} (hskip : skip ≠ 0)
    (h : place ∈ occurrencesFrom needle [] offset line skip cs) : offset < place.1 := by
  cases cs with
  | nil => simp [occurrencesFrom] at h
  | cons c cs =>
    have hc := c.utf8Size_pos
    unfold occurrencesFrom at h
    rw [if_neg (by simp [hskip])] at h
    have hle := le_of_mem_occurrencesFrom h
    omega

theorem isPrefixOf_append {needle cs : List Char} (h : needle.length ≤ cs.length)
    (back : List Char) : needle.isPrefixOf (cs ++ back) = needle.isPrefixOf cs := by
  induction needle generalizing cs with
  | nil => simp
  | cons d needle ih =>
    cases cs with
    | nil => simp at h
    | cons c cs =>
      rw [List.cons_append, List.isPrefixOf_cons_cons, List.isPrefixOf_cons_cons,
        ih (Nat.le_of_succ_le_succ h)]

/-- Whatever stands behind the needle, the scan comes to it with the same places found. -/
theorem occurrencesFrom_split (needle front : List Char) (offset line skip : Nat) :
    ∃ places line' skip', (∀ place ∈ places, place.1 < offset + size front) ∧
      ∀ back, occurrencesFrom needle [] offset line skip (front ++ needle ++ back) =
        places ++ occurrencesFrom needle [] (offset + size front) line' skip' (needle ++ back) := by
  induction front generalizing offset line skip with
  | nil => exact ⟨[], line, skip, nofun, fun back => rfl⟩
  | cons c front ih =>
    have hc := c.utf8Size_pos
    have hlength : needle.length ≤ (c :: (front ++ needle)).length := by
      rw [List.length_cons, List.length_append]
      omega
    -- There are enough characters left for the needle, so what is behind them does not count.
    have hstarts : ∀ back, needle.isPrefixOf (c :: (front ++ needle ++ back)) =
        needle.isPrefixOf (c :: (front ++ needle)) := fun back =>
      isPrefixOf_append hlength back
    rw [size_cons, ← Nat.add_assoc]
    by_cases hfound : (skip = 0 && needle.isPrefixOf (c :: (front ++ needle))) = true
    · obtain ⟨places, line', skip', hplaces, hsplit⟩ := ih (offset + c.utf8Size)
        (if c = '\n' then line + 1 else line) (needle.length - 1)
      refine ⟨(offset, line) :: places, line', skip', ?_, fun back => ?_⟩
      · intro place hplace
        obtain rfl | hplace := List.mem_cons.mp hplace
        · show offset < _
          omega
        · exact hplaces place hplace
      · rw [List.cons_append, List.cons_append, occurrencesFrom]
        rw [hstarts back, if_pos hfound, occurrencesFrom_found, hsplit]
        rfl
    · obtain ⟨places, line', skip', hplaces, hsplit⟩ := ih (offset + c.utf8Size)
        (if c = '\n' then line + 1 else line) (skip - 1)
      refine ⟨places, line', skip', hplaces, fun back => ?_⟩
      rw [List.cons_append, List.cons_append, occurrencesFrom]
      rw [hstarts back, if_neg hfound, hsplit]

theorem occurrencesFrom_needle {needle : List Char} (h : needle ≠ []) (offset line : Nat)
    (back : List Char) : ∃ later, (∀ place ∈ later, offset < place.1) ∧
      occurrencesFrom needle [] offset line 0 (needle ++ back) = (offset, line) :: later := by
  obtain ⟨c, rest, rfl⟩ := List.exists_cons_of_ne_nil h
  have hc := c.utf8Size_pos
  have hstarts : (c :: rest).isPrefixOf (c :: (rest ++ back)) = true := by
    rw [← List.cons_append]
    exact List.isPrefixOf_iff_prefix.mpr (List.prefix_append _ _)
  rw [List.cons_append, occurrencesFrom, if_pos (by rw [hstarts]; rfl), occurrencesFrom_found]
  refine ⟨_, fun place hplace => ?_, rfl⟩
  have hle := le_of_mem_occurrencesFrom hplace
  omega

theorem occurrences_of_ne_nil {needle : List Char} (h : needle ≠ []) (cs : List Char) :
    occurrences needle cs = occurrencesFrom needle [] 0 1 0 cs := by
  rw [occurrences, if_neg (by simpa using h)]

/-- The first place on a line stays so where the text behind that place changes. -/
theorem find?_occurrences_append {needle front back : List Char} {line : Nat}
    (hneedle : needle ≠ []) {place : Nat × Nat} (hplace : place.1 = size front)
    (h : (occurrences needle (front ++ needle ++ back)).find? (·.2 = line) = some place)
    (back' : List Char) :
    (occurrences needle (front ++ needle ++ back')).find? (·.2 = line) = some place := by
  obtain ⟨places, line', skip', hplaces, hsplit⟩ := occurrencesFrom_split needle front 0 1 0
  rw [occurrences_of_ne_nil hneedle, hsplit] at h
  rw [occurrences_of_ne_nil hneedle, hsplit]
  rw [Nat.zero_add] at *
  have hnone : places.find? (·.2 = line) = none := by
    cases hfind : places.find? (·.2 = line) with
    | none => rfl
    | some other =>
      rw [List.find?_append, hfind, Option.some_or] at h
      have hlt := hplaces other (List.mem_of_find?_eq_some hfind)
      rw [Option.some.inj h] at hlt
      omega
  rw [List.find?_append, hnone, Option.none_or] at h ⊢
  -- The needle is found at its place unless an earlier occurrence overlaps it.
  by_cases hskip : skip' = 0
  · subst hskip
    obtain ⟨later, hbehind, hlater⟩ := occurrencesFrom_needle hneedle (size front) line' back
    obtain ⟨later', -, hlater'⟩ := occurrencesFrom_needle hneedle (size front) line' back'
    rw [hlater, List.find?_cons] at h
    rw [hlater', List.find?_cons]
    split at h
    · exact h
    · have hlt := hbehind place (List.mem_of_find?_eq_some h)
      omega
  · have hlt := lt_of_mem_occurrencesFrom hskip (List.mem_of_find?_eq_some h)
    omega

/-- A place tells where the needle stands and on which line. It is behind what is passed over. -/
theorem of_mem_occurrencesFrom {needle cs : List Char} {offset line skip : Nat}
    {place : Nat × Nat} (h : place ∈ occurrencesFrom needle [] offset line skip cs) :
    ∃ front back, cs = front ++ needle ++ back ∧ skip ≤ front.length ∧
      place.1 = offset + size front ∧
      ∀ column, place.2 = (Position.behind ⟨line, column⟩ front).line := by
  induction cs generalizing offset line skip with
  | nil => simp [occurrencesFrom] at h
  | cons c cs ih =>
    -- A place behind the first character is one of the rest, where the line may be the next one.
    have hlater : ∀ skip', skip ≤ skip' + 1 →
        place ∈ occurrencesFrom needle [] (offset + c.utf8Size)
          (if c = '\n' then line + 1 else line) skip' cs →
        ∃ front back, c :: cs = front ++ needle ++ back ∧ skip ≤ front.length ∧
          place.1 = offset + size front ∧
          ∀ column, place.2 = (Position.behind ⟨line, column⟩ front).line := by
      intro skip' hskip hplace
      obtain ⟨front, back, rfl, hlength, hoffset, hline⟩ := ih hplace
      refine ⟨c :: front, back, rfl, by rw [List.length_cons]; omega,
        by rw [hoffset, size_cons]; omega, fun column => ?_⟩
      rw [Position.behind_cons]
      by_cases hc : c = '\n'
      · rw [if_pos hc] at hline
        subst hc
        exact hline 0
      · rw [if_neg hc] at hline
        rw [Position.next_of_ne hc]
        exact hline _
    unfold occurrencesFrom at h
    dsimp only at h
    split at h
    · rename_i hfound
      rw [occurrencesFrom_found] at h
      obtain h | h := List.mem_append.mp h
      · obtain rfl : place = (offset, line) := by simpa using h
        simp only [Bool.and_eq_true, decide_eq_true_eq] at hfound
        obtain ⟨back, hback⟩ := List.isPrefixOf_iff_prefix.mp hfound.2
        exact ⟨[], back, hback.symm, Nat.le_of_eq hfound.1, rfl, fun _ => rfl⟩
      · simp only [Bool.and_eq_true, decide_eq_true_eq] at hfound
        exact hlater _ (by omega) h
    · exact hlater _ (by omega) h

/-- Whether a needle stands at a place: behind as many bytes, and on that line. -/
def Stands (needle cs : List Char) (place : Nat × Nat) : Prop :=
  ∃ front back, cs = front ++ needle ++ back ∧ place = (size front, (positionBehind front).line)

theorem of_mem_occurrences {needle cs : List Char} {place : Nat × Nat}
    (h : place ∈ occurrences needle cs) : Stands needle cs place := by
  unfold occurrences at h
  split at h
  · simp at h
  · obtain ⟨front, back, hsplit, -, hoffset, hline⟩ := of_mem_occurrencesFrom h
    exact ⟨front, back, hsplit, Prod.ext (by rw [hoffset, Nat.zero_add]) (hline 0)⟩

theorem line_of_mem_occurrences {needle front back : List Char} {place : Nat × Nat}
    (h : place ∈ occurrences needle (front ++ back)) (hplace : place.1 = size front) :
    place.2 = (positionBehind front).line := by
  obtain ⟨front', back', hsplit, rfl⟩ := of_mem_occurrences h
  rw [List.append_assoc] at hsplit
  obtain ⟨rfl, -⟩ := append_inj_of_size hsplit hplace.symm
  rfl

/-! ## Overlaps -/

/-- A needle is found where it stands or overlaps one that is found in front of it. -/
theorem exists_mem_occurrencesFrom {needle : List Char} (hneedle : needle ≠ [])
    (offset line skip : Nat) (front back : List Char) :
    front.length < skip ∨ ∃ front' mid, front = front' ++ mid ∧ mid.length < needle.length ∧
      ∃ place ∈ occurrencesFrom needle [] offset line skip (front ++ needle ++ back),
        place.1 = offset + size front' := by
  have hlength := List.length_pos_iff.mpr hneedle
  induction front generalizing offset line skip with
  | nil =>
    by_cases hskip : skip = 0
    · subst hskip
      obtain ⟨later, -, hlater⟩ := occurrencesFrom_needle hneedle offset line back
      refine .inr ⟨[], [], rfl, hlength, (offset, line), ?_, rfl⟩
      rw [List.nil_append, hlater]
      exact List.mem_cons_self
    · exact .inl (Nat.pos_of_ne_zero hskip)
  | cons c front ih =>
    rw [List.cons_append, List.cons_append, occurrencesFrom]
    split
    · rw [occurrencesFrom_found, List.reverse_singleton, List.singleton_append]
      -- Where the next one would be passed over, this one is near enough.
      obtain hinside | ⟨front', mid, rfl, hmid, place, hplace, hoffset⟩ :=
        ih (offset + c.utf8Size) (if c = '\n' then line + 1 else line) (needle.length - 1)
      · refine .inr ⟨[], c :: front, rfl, ?_, (offset, line), List.mem_cons_self, rfl⟩
        rw [List.length_cons]
        omega
      · refine .inr ⟨c :: front', mid, rfl, hmid, place, List.mem_cons_of_mem _ hplace, ?_⟩
        rw [hoffset, size_cons, Nat.add_assoc]
    · obtain hskip | ⟨front', mid, rfl, hmid, place, hplace, hoffset⟩ :=
        ih (offset + c.utf8Size) (if c = '\n' then line + 1 else line) (skip - 1)
      · refine .inl ?_
        rw [List.length_cons]
        omega
      · refine .inr ⟨c :: front', mid, rfl, hmid, place, hplace, ?_⟩
        rw [hoffset, size_cons, Nat.add_assoc]

/-- Where a needle stands, one is found at most its own length further in front. -/
theorem exists_mem_occurrences {needle : List Char} (hneedle : needle ≠ [])
    (front back : List Char) : ∃ front' mid, front = front' ++ mid ∧
      mid.length < needle.length ∧ (size front', (positionBehind front').line) ∈
        occurrences needle (front ++ needle ++ back) := by
  obtain hskip | ⟨front', mid, rfl, hmid, place, hplace, hoffset⟩ :=
    exists_mem_occurrencesFrom hneedle 0 1 0 front back
  · exact absurd hskip (Nat.not_lt_zero _)
  · refine ⟨front', mid, rfl, hmid, ?_⟩
    rw [← occurrences_of_ne_nil hneedle] at hplace
    rw [Nat.zero_add] at hoffset
    rw [List.append_assoc, List.append_assoc] at hplace ⊢
    rwa [← line_of_mem_occurrences hplace hoffset, ← hoffset]

/-- A text with no room for two needles holds no more than one. -/
theorem occurrences_append_of_length_lt {needle back : List Char}
    (hback : back.length < needle.length) : occurrences needle (needle ++ back) = [(0, 1)] := by
  obtain ⟨c, rest, rfl⟩ := List.exists_cons_of_length_pos (Nat.zero_lt_of_lt hback)
  have hstarts : (c :: rest).isPrefixOf (c :: (rest ++ back)) = true := by
    rw [← List.cons_append]
    exact List.isPrefixOf_iff_prefix.mpr (List.prefix_append _ _)
  rw [occurrences_of_ne_nil (List.cons_ne_nil c rest), List.cons_append, occurrencesFrom,
    if_pos (by rw [hstarts]; rfl), occurrencesFrom_found, List.reverse_singleton,
    List.singleton_append, List.cons.injEq]
  refine ⟨rfl, List.eq_nil_iff_forall_not_mem.mpr fun place hplace => ?_⟩
  obtain ⟨front, back', hsplit, hskip, -⟩ := of_mem_occurrencesFrom hplace
  have hlength := congrArg List.length hsplit
  simp only [List.length_append, List.length_cons] at hlength hskip hback
  omega

/-- Two places of a needle that overlap differ by a front of the needle, behind which the needle
starts over. -/
theorem exists_of_overlap {needle mid back back' : List Char}
    (h : mid ++ needle ++ back = needle ++ back') (hmid : mid.length < needle.length) :
    ∃ rest, needle = mid ++ rest ∧ rest ≠ [] ∧ rest <+: needle := by
  have hprefix : mid <+: needle := List.prefix_of_prefix_length_le
    ⟨needle ++ back, by rw [← List.append_assoc, h]⟩ (List.prefix_append needle back')
    (Nat.le_of_lt hmid)
  obtain ⟨rest, hrest⟩ := hprefix
  have hlength : mid.length + rest.length = needle.length := by
    rw [← List.length_append, hrest]
  refine ⟨rest, hrest.symm, ?_, ?_⟩
  · rintro rfl
    simp at hlength
    omega
  · have hbehind : needle ++ back = rest ++ back' := by
      rw [← List.append_cancel_left_eq mid, ← List.append_assoc, h, ← List.append_assoc, hrest]
    exact List.prefix_of_prefix_length_le ⟨back', hbehind.symm⟩ (List.prefix_append needle back)
      (by omega)

end Rephrase.Text
