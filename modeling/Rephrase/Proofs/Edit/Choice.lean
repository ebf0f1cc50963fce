import Rephrase.Proofs.Edit.Nearest

/-! Of the places of a text the first one of those that are nearest to a line is taken, and no
other. A text that stands somewhere is always replaced at one of its places. -/

namespace Rephrase

namespace Text

/-- Places are found in the order of the text. -/
theorem pairwise_occurrencesFrom (needle : List Char) (offset line skip : Nat) (cs : List Char) :
    (occurrencesFrom needle [] offset line skip cs).Pairwise fun p q => p.1 < q.1 := by
  induction cs generalizing offset line skip with
  | nil => exact List.Pairwise.nil
  | cons c cs ih =>
    have hc := c.utf8Size_pos
    unfold occurrencesFrom
    dsimp only
    split
    · rw [occurrencesFrom_found, List.reverse_singleton, List.singleton_append]
      refine List.pairwise_cons.mpr ⟨fun place hplace => ?_, ih _ _ _⟩
      have hle := le_of_mem_occurrencesFrom hplace
      show offset < place.1
      omega
    · exact ih _ _ _

theorem pairwise_occurrences (needle cs : List Char) :
    (occurrences needle cs).Pairwise fun p q => p.1 < q.1 := by
  unfold occurrences
  split
  · exact List.Pairwise.nil
  · exact pairwise_occurrencesFrom needle 0 1 0 cs

/-- A text that stands somewhere is found at least once, be it at another place. -/
theorem occurrences_ne_nil {needle cs : List Char} (hneedle : needle ≠ [])
    (h : needle <:+: cs) : occurrences needle cs ≠ [] := by
  -- As long as nothing has been found, nothing is passed over either.
  suffices ∀ offset line, occurrencesFrom needle [] offset line 0 cs ≠ [] by
    rw [occurrences_of_ne_nil hneedle]
    exact this 0 1
  induction cs with
  | nil => exact absurd (List.infix_nil.mp h) hneedle
  | cons c cs ih =>
    intro offset line
    unfold occurrencesFrom
    dsimp only
    split
    · rw [occurrencesFrom_found]
      simp
    · rename_i hstarts
      refine ih ?_ _ _
      obtain hprefix | hinfix := List.infix_cons_iff.mp h
      · exact absurd (by simpa using hprefix) hstarts
      · exact hinfix

end Text

namespace Edit

open Text

/-- Whether the place at an offset is taken for a line: no place is nearer to the line, and none in
front of it is as near. -/
def IsTaken (places : List (Nat × Nat)) (line start : Nat) : Prop :=
  ∃ own ∈ places, own.1 = start ∧ ∀ place ∈ places,
    distance own.2 line ≤ distance place.2 line ∧
      (place.1 < start → distance own.2 line < distance place.2 line)

instance (places : List (Nat × Nat)) (line start : Nat) : Decidable (IsTaken places line start) :=
  inferInstanceAs (Decidable (∃ own ∈ places, _ ∧ ∀ place ∈ places, _))

theorem IsTaken.unique {places : List (Nat × Nat)} {line start start' : Nat}
    (h : IsTaken places line start) (h' : IsTaken places line start') : start = start' := by
  obtain ⟨own, hown, rfl, hfirst⟩ := h
  obtain ⟨own', hown', rfl, hfirst'⟩ := h'
  obtain ⟨hle, hlt⟩ := hfirst own' hown'
  obtain ⟨hle', hlt'⟩ := hfirst' own hown
  omega

/-- The search keeps the first of the nearest places among those that it has met. -/
theorem isTaken_foldl_nearer (line : Nat) {first : Nat × Nat} {rest : List (Nat × Nat)}
    (h : (first :: rest).Pairwise fun p q => p.1 < q.1) :
    IsTaken (first :: rest) line (rest.foldl (nearer line) first).1 := by
  refine ⟨_, foldl_nearer_mem line first rest, rfl, ?_⟩
  induction rest generalizing first with
  | nil => simp
  | cons next rest ih =>
    obtain ⟨hfirst, hrest⟩ := List.pairwise_cons.mp h
    obtain ⟨hnext, hlater⟩ := List.pairwise_cons.mp hrest
    have horder := hfirst next List.mem_cons_self
    rw [List.foldl_cons]
    by_cases hless : distance next.2 line < distance first.2 line
    · rw [nearer, if_pos hless]
      have hbest := ih (List.pairwise_cons.mpr ⟨hnext, hlater⟩)
      obtain ⟨hle, -⟩ := hbest next List.mem_cons_self
      refine List.forall_mem_cons.mpr ⟨?_, hbest⟩
      exact ⟨Nat.le_of_lt (Nat.lt_of_le_of_lt hle hless), fun _ => Nat.lt_of_le_of_lt hle hless⟩
    · rw [nearer, if_neg hless]
      have hbehind : ∀ place ∈ rest, first.1 < place.1 := fun place hplace =>
        hfirst place (List.mem_cons_of_mem next hplace)
      have hbest := ih (List.pairwise_cons.mpr ⟨hbehind, hlater⟩)
      obtain ⟨hown, hothers⟩ := List.forall_mem_cons.mp hbest
      refine List.forall_mem_cons.mpr ⟨hown, List.forall_mem_cons.mpr ⟨?_, hothers⟩⟩
      -- A place that is passed over is behind the first one, which is as near at least.
      exact ⟨by omega, fun hfront => by have := hown.2 (by omega); omega⟩

theorem isTaken_of_nearestPlace? {needle cs : List Char} {line start : Nat}
    (h : nearestPlace? needle cs line = some start) :
    IsTaken (occurrences needle cs) line start := by
  have hsorted := pairwise_occurrences needle cs
  unfold nearestPlace? at h
  split at h
  · simp at h
  · rename_i first rest hplaces
    rw [hplaces] at hsorted ⊢
    obtain rfl := Option.some.inj h
    exact isTaken_foldl_nearer line hsorted

theorem nearestPlace?_eq_some_iff {needle cs : List Char} {line start : Nat} :
    nearestPlace? needle cs line = some start ↔ IsTaken (occurrences needle cs) line start := by
  refine ⟨isTaken_of_nearestPlace?, fun h => ?_⟩
  cases hplace : nearestPlace? needle cs line with
  | some other => rw [(isTaken_of_nearestPlace? hplace).unique h]
  | none =>
    -- Without a place none can be taken.
    unfold nearestPlace? at hplace
    split at hplace
    · rename_i hnil
      obtain ⟨own, hown, -⟩ := h
      rw [hnil] at hown
      exact absurd hown List.not_mem_nil
    · simp at hplace

theorem nearestPlace?_eq_none_iff {needle cs : List Char} {line : Nat} :
    nearestPlace? needle cs line = none ↔ needle = [] ∨ ¬needle <:+: cs := by
  constructor
  · intro h
    by_cases hneedle : needle = []
    · exact .inl hneedle
    · refine .inr fun hinfix => ?_
      unfold nearestPlace? at h
      split at h
      · rename_i hnil
        exact occurrences_ne_nil hneedle hinfix hnil
      · simp at h
  · intro h
    cases hplace : nearestPlace? needle cs line with
    | none => rfl
    | some start =>
      obtain ⟨place, hmem, -⟩ := exists_of_nearestPlace? hplace
      obtain ⟨front, back, hsplit, -⟩ := of_mem_occurrences hmem
      obtain hnil | habsent := h
      · exact absurd hnil (ne_nil_of_nearestPlace? hplace)
      · exact absurd ⟨front, back, hsplit.symm⟩ habsent

/-! ## Places that are not found -/

/-- Whether a text stands at an offset and nowhere nearer to a line, nor as near in front of it. -/
def IsNearest (needle cs : List Char) (line start : Nat) : Prop :=
  ∃ own, Stands needle cs own ∧ own.1 = start ∧ ∀ place, Stands needle cs place →
    distance own.2 line ≤ distance place.2 line ∧
      (place.1 < start → distance own.2 line < distance place.2 line)

/-- Whether copies of a text that overlap always start on the same line: where the text starts over
within itself, no line feed is in front of that. -/
def OverlapsInLine (needle : List Char) : Prop :=
  ∀ mid rest, needle = mid ++ rest → rest ≠ [] → rest <+: needle → '\n' ∉ mid

/-- What is not found overlaps a copy that is, in front of it and on the same line. -/
theorem OverlapsInLine.exists_mem_occurrences {needle cs : List Char} (h : OverlapsInLine needle)
    (hneedle : needle ≠ []) {place : Nat × Nat} (hplace : Stands needle cs place) :
    ∃ found ∈ occurrences needle cs, found.1 ≤ place.1 ∧ found.2 = place.2 := by
  obtain ⟨front, back, rfl, rfl⟩ := hplace
  obtain ⟨front', mid, rfl, hmid, hfound⟩ := Text.exists_mem_occurrences hneedle front back
  refine ⟨_, hfound, ?_, ?_⟩
  · rw [size_append]
    exact Nat.le_add_right _ _
  · -- The copy that is found reaches into this one, so the text starts over behind what is between.
    obtain ⟨front'', back', hsplit, hsame⟩ := of_mem_occurrences hfound
    obtain ⟨hsize, -⟩ := Prod.mk.inj hsame
    simp only [List.append_assoc] at hsplit
    obtain ⟨rfl, hoverlap⟩ := append_inj_of_size hsplit hsize
    rw [← List.append_assoc] at hoverlap
    obtain ⟨rest, hrest, hne, hprefix⟩ := exists_of_overlap hoverlap hmid
    have hfeed := h mid rest hrest hne hprefix
    rw [positionBehind_append, Position.line_behind, List.count_eq_zero.mpr hfeed, Nat.add_zero]

theorem isNearest_of_overlapsInLine {needle cs : List Char} {line start : Nat}
    (h : OverlapsInLine needle) (hstart : nearestPlace? needle cs line = some start) :
    IsNearest needle cs line start := by
  obtain ⟨own, hown, rfl, hbest⟩ := isTaken_of_nearestPlace? hstart
  refine ⟨own, of_mem_occurrences hown, rfl, fun place hplace => ?_⟩
  obtain ⟨found, hfound, hfront, hline⟩ :=
    h.exists_mem_occurrences (ne_nil_of_nearestPlace? hstart) hplace
  rw [← hline]
  exact ⟨(hbest found hfound).1, fun hlt => (hbest found hfound).2 (Nat.lt_of_le_of_lt hfront hlt)⟩

/-- Of two copies that overlap on different lines the upper one alone is found, for the line of the
lower one too. -/
theorem overlapsInLine_of_isNearest {needle : List Char}
    (h : ∀ cs line start, nearestPlace? needle cs line = some start →
      IsNearest needle cs line start) : OverlapsInLine needle := by
  intro mid rest hneedle hrest hprefix hfeed
  obtain ⟨tail, htail⟩ := hprefix
  -- The text with as much behind it as a second copy needs, that starts where the text starts over.
  have hcopies : mid ++ needle = needle ++ tail := by
    rw [← htail, ← List.append_assoc, ← hneedle, htail]
  have hlength : tail.length < needle.length := by
    have hwhole := congrArg List.length hcopies
    have hparts := congrArg List.length hneedle
    have hpos := List.length_pos_iff.mpr hrest
    simp only [List.length_append] at hwhole hparts
    omega
  have hlower : Stands needle (needle ++ tail) (size mid, (positionBehind mid).line) :=
    ⟨mid, [], by rw [List.append_nil, hcopies], rfl⟩
  have hfirst : nearestPlace? needle (needle ++ tail) (positionBehind mid).line = some 0 := by
    rw [nearestPlace?, occurrences_append_of_length_lt hlength]
    rfl
  -- The lower copy is on the line that is asked for, and the upper one is taken.
  obtain ⟨own, ⟨front, back, -, rfl⟩, hown, hbest⟩ := h _ _ _ hfirst
  obtain rfl := eq_nil_of_size hown
  have hnear := (hbest _ hlower).1
  have hdown := Position.line_behind ⟨1, 0⟩ mid
  have hcount := List.count_pos_iff.mpr hfeed
  change (positionBehind mid).line = 1 + mid.count '\n' at hdown
  change distance 1 _ ≤ distance _ _ at hnear
  unfold distance at hnear
  dsimp only at hnear
  omega

/-- A place is found just if the text is not empty and stands somewhere. It is the first one of the
places nearest to the line, of those that the search goes through. That it is the first one of the
nearest of all, whatever the content and the line, holds for those texts alone whose copies overlap
within a line or not at all. -/
theorem nearestPlace?_characterized (needle : List Char) :
    (∀ cs line, nearestPlace? needle cs line = none ↔ needle = [] ∨ ¬needle <:+: cs) ∧
      (∀ cs line start, nearestPlace? needle cs line = some start →
        (∃ own, Stands needle cs own ∧ own.1 = start) ∧
          IsTaken (occurrences needle cs) line start) ∧
      ((∀ cs line start, nearestPlace? needle cs line = some start →
        IsNearest needle cs line start) ↔ OverlapsInLine needle) := by
  refine ⟨fun cs line => nearestPlace?_eq_none_iff, fun cs line start h => ?_,
    overlapsInLine_of_isNearest, fun h cs line start => isNearest_of_overlapsInLine h⟩
  obtain ⟨own, hown, hstart⟩ := exists_of_nearestPlace? h
  exact ⟨⟨own, of_mem_occurrences hown, hstart⟩, isTaken_of_nearestPlace? h⟩

/-- Three of four equal lines: the copy that starts on the second line is the nearest to the third
one, and the one on the first line is taken. -/
theorem nearestPlace?_of_equal_lines :
    nearestPlace? "go\ngo\ngo".toList "go\ngo\ngo\ngo".toList 3 = some 0 ∧
      ¬IsNearest "go\ngo\ngo".toList "go\ngo\ngo\ngo".toList 3 0 ∧
      IsNearest "go\ngo\ngo".toList "go\ngo\ngo\ngo".toList 3 3 := by
  have hlower : Stands "go\ngo\ngo".toList "go\ngo\ngo\ngo".toList (3, 2) :=
    ⟨"go\n".toList, [], by decide, by decide⟩
  refine ⟨by decide, ?_, (3, 2), hlower, rfl, ?_⟩
  · rintro ⟨own, ⟨front, back, -, rfl⟩, hown, hbest⟩
    obtain rfl := eq_nil_of_size hown
    exact absurd (hbest _ hlower).1 (by decide)
  · rintro place ⟨front, back, hsplit, rfl⟩
    have hlength := congrArg List.length hsplit
    -- No more than three characters are in front of a copy.
    obtain ⟨count, hcount, rfl⟩ : ∃ count < 4,
        front = ("go\ngo\ngo\ngo".toList).take count := by
      refine ⟨front.length, ?_, ?_⟩
      · simp only [List.length_append] at hlength
        have hshort : ("go\ngo\ngo".toList).length = 8 := rfl
        have hlong : ("go\ngo\ngo\ngo".toList).length = 11 := rfl
        omega
      · rw [hsplit, List.append_assoc, List.take_left]
    clear hsplit hlength
    revert count
    decide

/-! ## Replacing -/

/-- A text that stands somewhere is replaced at one of its places, and the rest stays. -/
theorem exists_replaceNearest? {cs old : List Char} (hold : old ≠ []) (h : old <:+: cs)
    (wanted : List Char) (line : Nat) : ∃ front back, cs = front ++ old ++ back ∧
      replaceNearest? cs old wanted line = some (front ++ wanted ++ back) := by
  obtain ⟨start, hstart⟩ : ∃ start, nearestPlace? old cs line = some start :=
    Option.ne_none_iff_exists'.mp fun hnone =>
      (nearestPlace?_eq_none_iff.mp hnone).elim hold (absurd h)
  obtain ⟨place, hplace, rfl⟩ := exists_of_nearestPlace? hstart
  obtain ⟨front, back, rfl, hfront⟩ := of_mem_occurrences hplace
  refine ⟨front, back, rfl, ?_⟩
  rw [replaceNearest?, hstart, Option.bind_some, hfront, splice?_append]

/-- A text is replaced at a certain one of its places, whatever is put there, just if that place is
taken. -/
theorem replaceNearest?_eq_iff {front old back : List Char} (hold : old ≠ []) (line : Nat) :
    (∀ wanted, replaceNearest? (front ++ old ++ back) old wanted line =
        some (front ++ wanted ++ back)) ↔
      IsTaken (occurrences old (front ++ old ++ back)) line (size front) := by
  rw [← nearestPlace?_eq_some_iff]
  refine ⟨fun h => ?_, fun h wanted => ?_⟩
  · obtain ⟨c, rest, rfl⟩ := List.exists_cons_of_ne_nil hold
    obtain ⟨d, hd⟩ : ∃ d : Char, c ≠ d := by
      by_cases hc : c = 'a'
      · exact ⟨'b', by rw [hc]; decide⟩
      · exact ⟨'a', hc⟩
    -- Another letter in front shows where it was put.
    obtain ⟨front', back', hsplit, hplace, hcontent⟩ := of_replaceNearest? (h [d])
    rw [List.append_assoc, List.append_assoc] at hsplit hcontent
    rw [hplace, eq_of_replaced hd hsplit hcontent]
  · rw [replaceNearest?, h, Option.bind_some, splice?_append]

end Edit

end Rephrase
