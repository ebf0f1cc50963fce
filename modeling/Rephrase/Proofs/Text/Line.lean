import Rephrase.Proofs.Text.Slice
import Rephrase.Text.Line

/-! A position tells how many line breaks and bytes stand in front of it, so it depends on nothing
behind it, and its offset can be found again. -/

namespace Rephrase.Text

/-- The position behind a character. -/
def Position.next (p : Position) (c : Char) : Position :=
  if c = '\n' then ⟨p.line + 1, 0⟩ else ⟨p.line, p.column + c.utf8Size⟩

/-- The position behind a text, if the text starts at a position. -/
def Position.behind (p : Position) (cs : List Char) : Position := cs.foldl Position.next p

/-- The position behind the front of a file. -/
def positionBehind (front : List Char) : Position := Position.behind ⟨1, 0⟩ front

/-- Whether a position comes before another in the order of the text. -/
def Position.Before (p q : Position) : Prop :=
  p.line < q.line ∨ p.line = q.line ∧ p.column < q.column

instance (p q : Position) : Decidable (p.Before q) := inferInstanceAs (Decidable (_ ∨ _))

namespace Position

theorem next_newline (line column : Nat) :
    Position.next ⟨line, column⟩ '\n' = ⟨line + 1, 0⟩ := rfl

theorem next_of_ne {c : Char} (h : c ≠ '\n') (line column : Nat) :
    Position.next ⟨line, column⟩ c = ⟨line, column + c.utf8Size⟩ := if_neg h

theorem behind_cons (p : Position) (c : Char) (cs : List Char) :
    p.behind (c :: cs) = (p.next c).behind cs := rfl

theorem behind_append (p : Position) (cs ds : List Char) :
    p.behind (cs ++ ds) = (p.behind cs).behind ds := List.foldl_append

theorem Before.trans {p q r : Position} (h : p.Before q) (h' : q.Before r) : p.Before r := by
  unfold Before at *
  omega

theorem Before.asymm {p q : Position} (h : p.Before q) : ¬q.Before p := by
  unfold Before at *
  omega

theorem before_next (p : Position) (c : Char) : p.Before (p.next c) := by
  have hc := c.utf8Size_pos
  unfold Before next
  split
  · exact .inl (Nat.lt_succ_self _)
  · exact .inr ⟨rfl, by show p.column < p.column + c.utf8Size; omega⟩

theorem before_behind (p : Position) {cs : List Char} (h : cs ≠ []) : p.Before (p.behind cs) := by
  induction cs generalizing p with
  | nil => exact absurd rfl h
  | cons c cs ih =>
    rw [behind_cons]
    by_cases hcs : cs = []
    · rw [hcs]
      exact before_next p c
    · exact (before_next p c).trans (ih _ hcs)

/-- A text leads as many lines down as it has line feeds. -/
theorem line_behind (p : Position) (cs : List Char) :
    (p.behind cs).line = p.line + cs.count '\n' := by
  induction cs generalizing p with
  | nil => rfl
  | cons c cs ih =>
    rw [behind_cons, ih]
    by_cases hc : c = '\n'
    · subst hc
      rw [next_newline, List.count_cons_self]
      exact Nat.add_right_comm p.line 1 _
    · rw [next_of_ne hc, List.count_cons_of_ne hc]

theorem line_le_behind (p : Position) (cs : List Char) : p.line ≤ (p.behind cs).line := by
  rw [line_behind]
  exact Nat.le_add_right _ _

end Position

theorem positionBehind_append (front cs : List Char) :
    positionBehind (front ++ cs) = (positionBehind front).behind cs :=
  Position.behind_append _ _ _

theorem positionBehind_line_pos (front : List Char) : 0 < (positionBehind front).line :=
  Position.line_le_behind ⟨1, 0⟩ front

/-! ## Line starts -/

/-- The offsets behind the line feeds of a text that starts at an offset. -/
def breaksFrom (offset : Nat) : List Char → List Nat
  | [] => []
  | c :: rest =>
    if c = '\n' then (offset + 1) :: breaksFrom (offset + 1) rest
    else breaksFrom (offset + c.utf8Size) rest

theorem lineStartsFrom_eq (starts : List Nat) (offset : Nat) (cs : List Char) :
    lineStartsFrom starts offset cs = starts.reverse ++ breaksFrom offset cs := by
  induction cs generalizing starts offset with
  | nil => simp [lineStartsFrom, breaksFrom]
  | cons c cs ih =>
    rw [lineStartsFrom, breaksFrom]
    split
    · rw [ih]
      simp
    · rw [ih]

theorem ofText_starts (cs : List Char) : (LineStarts.ofText cs).starts = 0 :: breaksFrom 0 cs :=
  lineStartsFrom_eq [0] 0 cs

theorem lt_of_mem_breaksFrom {offset start : Nat} {cs : List Char}
    (h : start ∈ breaksFrom offset cs) : offset < start := by
  induction cs generalizing offset with
  | nil => simp [breaksFrom] at h
  | cons c cs ih =>
    have hc := c.utf8Size_pos
    rw [breaksFrom] at h
    split at h
    · obtain rfl | h := List.mem_cons.mp h
      · omega
      · have hlt := ih h
        omega
    · have hlt := ih h
      omega

/-- The line of an offset is the last one that starts in front of it, as long as lines start one
after another. -/
theorem positionFrom_eq {starts : List Nat} (hstarts : starts.Pairwise (· < ·)) (offset : Nat)
    (here : Position) :
    (starts.countP (· ≤ offset) = 0 ∧ LineStarts.positionFrom offset here starts = here) ∨
      0 < starts.countP (· ≤ offset) ∧
        ∃ start, starts[starts.countP (· ≤ offset) - 1]? = some start ∧ start ≤ offset ∧
          LineStarts.positionFrom offset here starts =
            ⟨here.line + starts.countP (· ≤ offset), offset - start⟩ := by
  induction starts generalizing here with
  | nil => exact .inl ⟨rfl, rfl⟩
  | cons first rest ih =>
    rcases List.pairwise_cons.mp hstarts with ⟨hfirst, hrest⟩
    rw [LineStarts.positionFrom]
    by_cases hle : first ≤ offset
    · rw [if_pos hle, List.countP_cons_of_pos (by simpa using hle)]
      right
      rcases ih hrest ⟨here.line + 1, offset - first⟩ with
        ⟨hzero, hhere⟩ | ⟨hpos, start, hget, hle', hhere⟩
      · rw [hzero]
        exact ⟨Nat.one_pos, first, rfl, hle, hhere⟩
      · refine ⟨Nat.succ_pos _, start, ?_, hle', ?_⟩
        · rw [Nat.add_sub_cancel]
          obtain ⟨n, hn⟩ := Nat.exists_eq_add_of_lt hpos
          rw [hn] at hget ⊢
          simpa using hget
        · rw [hhere]
          dsimp only
          rw [Nat.add_assoc, Nat.add_comm 1]
    -- The starts ascend, so with the first all are behind the offset.
    · rw [if_neg hle]
      refine .inl ⟨List.countP_eq_zero.mpr fun start hstart => ?_, rfl⟩
      rcases List.mem_cons.mp hstart with rfl | hstart
      · simpa using hle
      · have hlt := hfirst start hstart
        simp only [decide_eq_true_eq]
        omega

theorem pairwise_breaksFrom (offset : Nat) (cs : List Char) :
    (breaksFrom offset cs).Pairwise (· < ·) := by
  induction cs generalizing offset with
  | nil => exact .nil
  | cons c cs ih =>
    rw [breaksFrom]
    split
    · exact .cons (fun start hstart => lt_of_mem_breaksFrom hstart) (ih _)
    · exact ih _

theorem length_breaksFrom_le (offset : Nat) (cs : List Char) :
    (breaksFrom offset cs).length ≤ size cs := by
  induction cs generalizing offset with
  | nil => exact Nat.le_refl 0
  | cons c cs ih =>
    have hc := c.utf8Size_pos
    rw [breaksFrom, size_cons]
    split
    · have hle := ih (offset + 1)
      rw [List.length_cons]
      omega
    · have hle := ih (offset + c.utf8Size)
      omega

/-- The position of an offset is counted from the last line start that is not behind it. -/
theorem exists_position (cs : List Char) (offset : Nat) :
    ∃ start, 0 < (LineStarts.ofText cs).starts.countP (· ≤ offset) ∧
      (LineStarts.ofText cs).starts[(LineStarts.ofText cs).starts.countP (· ≤ offset) - 1]? =
        some start ∧
      start ≤ offset ∧ (LineStarts.ofText cs).position offset =
        ⟨(LineStarts.ofText cs).starts.countP (· ≤ offset), offset - start⟩ := by
  have hstarts : (LineStarts.ofText cs).starts.Pairwise (· < ·) := by
    rw [ofText_starts]
    exact .cons (fun start hstart => lt_of_mem_breaksFrom hstart) (pairwise_breaksFrom 0 cs)
  obtain ⟨hzero, -⟩ | ⟨hpos, start, hget, hle, hhere⟩ := positionFrom_eq hstarts offset ⟨0, 0⟩
  -- The first line starts in front of every offset.
  · rw [ofText_starts, List.countP_cons_of_pos (by simp)] at hzero
    cases hzero
  · rw [Nat.zero_add] at hhere
    exact ⟨start, hpos, hget, hle, hhere⟩

/-- What is behind an offset does not count for its position. -/
theorem positionFrom_breaksFrom (here : Nat) (line start : Nat) (hstart : start ≤ here)
    (front back : List Char) :
    LineStarts.positionFrom (here + size front) ⟨line, here + size front - start⟩
        (breaksFrom here (front ++ back)) =
      Position.behind ⟨line, here - start⟩ front := by
  induction front generalizing here line start with
  | nil =>
    have hafter : ∀ s ∈ breaksFrom here back, here < s := fun s hs => lt_of_mem_breaksFrom hs
    rw [size_nil, List.nil_append]
    cases hbreaks : breaksFrom here back with
    | nil => rfl
    | cons s rest =>
      have hs := hafter s (by rw [hbreaks]; exact List.mem_cons_self)
      rw [LineStarts.positionFrom, if_neg (by omega)]
      rfl
  | cons c front ih =>
    rw [List.cons_append, breaksFrom, Position.behind_cons, size_cons]
    by_cases hc : c = '\n'
    -- A line feed starts a new line right behind it, and the rest is counted from there.
    · subst hc
      have hsize : Char.utf8Size '\n' = 1 := rfl
      rw [if_pos rfl, LineStarts.positionFrom, if_pos (by omega), hsize, ← Nat.add_assoc,
        ih (here + 1) (line + 1) (here + 1) (Nat.le_refl _), Position.next_newline, Nat.sub_self]
    · rw [if_neg hc, ← Nat.add_assoc, ih (here + c.utf8Size) line start (by omega),
        Position.next_of_ne hc, Nat.sub_add_comm hstart]

theorem position_append (front back : List Char) :
    (LineStarts.ofText (front ++ back)).position (size front) = positionBehind front := by
  have hfront := positionFrom_breaksFrom 0 1 0 (Nat.le_refl 0) front back
  rw [LineStarts.position, ofText_starts, LineStarts.positionFrom, if_pos (Nat.zero_le _)]
  rwa [Nat.zero_add, Nat.sub_zero] at hfront

/-- The offset of a position. -/
def LineStarts.offset (index : LineStarts) (p : Position) : Nat :=
  index.starts.getD (p.line - 1) 0 + p.column

theorem getD_breaksFrom (here line start : Nat) (hstart : start ≤ here)
    (front back : List Char) :
    (start :: breaksFrom here (front ++ back)).getD
          ((Position.behind ⟨line, here - start⟩ front).line - line) 0 +
        (Position.behind ⟨line, here - start⟩ front).column = here + size front := by
  induction front generalizing here line start with
  | nil =>
    show (start :: breaksFrom here ([] ++ back)).getD (line - line) 0 + (here - start) = here + 0
    rw [Nat.sub_self, List.getD_cons_zero]
    omega
  | cons c front ih =>
    rw [List.cons_append, breaksFrom, Position.behind_cons, size_cons]
    -- A line feed starts a line behind it, so the place in the list moves on with the line.
    by_cases hc : c = '\n'
    · subst hc
      have hsize : Char.utf8Size '\n' = 1 := rfl
      have hfront := ih (here + 1) (line + 1) (here + 1) (Nat.le_refl _)
      rw [Nat.sub_self] at hfront
      have hline := Position.line_le_behind ⟨line + 1, 0⟩ front
      change line + 1 ≤ _ at hline
      obtain ⟨k, hk⟩ : ∃ k, (Position.behind ⟨line + 1, 0⟩ front).line = line + 1 + k :=
        ⟨_, (Nat.add_sub_of_le hline).symm⟩
      rw [hk, Nat.add_sub_cancel_left] at hfront
      rw [if_pos rfl, Position.next_newline, hk, show line + 1 + k - line = k + 1 by omega,
        List.getD_cons_succ, hfront, hsize]
      omega
    · have hfront := ih (here + c.utf8Size) line start (by omega)
      rw [if_neg hc, Position.next_of_ne hc, ← Nat.sub_add_comm hstart, hfront]
      omega

/-- The offset of a position is where the position was taken. -/
theorem offset_positionBehind (front back : List Char) :
    (LineStarts.ofText (front ++ back)).offset (positionBehind front) = size front := by
  have hfront := getD_breaksFrom 0 1 0 (Nat.le_refl 0) front back
  rw [LineStarts.offset, ofText_starts]
  rwa [Nat.zero_add] at hfront

/-! ## Texts between positions -/

/-- The stretch between two positions of a text. -/
def spanBetween (cs : List Char) (start stop : Position) : Span :=
  ⟨(LineStarts.ofText cs).offset start, (LineStarts.ofText cs).offset stop⟩

theorem spanBetween_append (front text back : List Char) :
    spanBetween (front ++ text ++ back) (positionBehind front) (positionBehind (front ++ text)) =
      ⟨size front, size front + size text⟩ := by
  rw [spanBetween, offset_positionBehind, List.append_assoc, offset_positionBehind, size_append]

/-- A text stands in a content between two positions. -/
def Holds (content : List Char) (start stop : Position) (text : List Char) : Prop :=
  ∃ front back, content = front ++ text ++ back ∧ start = positionBehind front ∧
    stop = positionBehind (front ++ text)

theorem holds_of_slice? {content text : List Char} {span : Span}
    (h : slice? content span.start span.stop = some text) :
    Holds content ((LineStarts.ofText content).position span.start)
      ((LineStarts.ofText content).position span.stop) text := by
  obtain ⟨front, back, hcontent, hstart, hstop⟩ := of_slice? h
  refine ⟨front, back, hcontent, ?_, ?_⟩
  · rw [hcontent, List.append_assoc, ← hstart, position_append]
  · rw [hcontent, ← hstop, ← size_append, position_append]

/-- A stretch is found again from the positions that are recorded for it. -/
theorem spanBetween_position {content text : List Char} {span : Span}
    (h : slice? content span.start span.stop = some text) :
    spanBetween content ((LineStarts.ofText content).position span.start)
      ((LineStarts.ofText content).position span.stop) = span := by
  obtain ⟨front, back, hcontent, hstart, hstop⟩ := of_slice? h
  obtain ⟨start, stop⟩ := span
  obtain rfl : size front = start := hstart
  obtain rfl : size front + size text = stop := hstop
  have hposition := position_append front (text ++ back)
  have hposition' := position_append (front ++ text) back
  rw [← List.append_assoc] at hposition
  rw [size_append] at hposition'
  rw [hcontent]
  dsimp only
  rw [hposition, hposition', spanBetween_append]

theorem Holds.slice? {content text : List Char} {start stop : Position}
    (h : Holds content start stop text) :
    slice? content (spanBetween content start stop).start (spanBetween content start stop).stop =
      some text := by
  obtain ⟨front, back, rfl, rfl, rfl⟩ := h
  rw [spanBetween_append]
  exact slice?_append front text back

/-- What is recorded in a front of a content is recorded in the content. -/
theorem Holds.append {content text : List Char} {start stop : Position}
    (h : Holds content start stop text) (more : List Char) :
    Holds (content ++ more) start stop text ∧
      spanBetween (content ++ more) start stop = spanBetween content start stop := by
  obtain ⟨front, back, rfl, rfl, rfl⟩ := h
  rw [List.append_assoc (front ++ text), spanBetween_append, spanBetween_append]
  exact ⟨⟨front, back ++ more, rfl, rfl, rfl⟩, rfl⟩

/-- What ends within a front of a content is recorded in the front. -/
theorem Holds.of_append {front more text : List Char} {start stop : Position}
    (h : Holds (front ++ more) start stop text)
    (hstop : (spanBetween (front ++ more) start stop).stop ≤ size front) :
    Holds front start stop text := by
  obtain ⟨before, back, hsplit, rfl, rfl⟩ := h
  rw [hsplit, spanBetween_append, ← size_append] at hstop
  obtain ⟨mid, hfront, -⟩ := append_split_of_size_le hsplit.symm hstop
  exact ⟨before, mid, hfront, rfl, rfl⟩

end Rephrase.Text
