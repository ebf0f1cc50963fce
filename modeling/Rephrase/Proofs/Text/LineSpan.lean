import Rephrase.Proofs.Text.Blank
import Rephrase.Proofs.Text.Line

/-! The stretch of a line reaches from the line's start over every character of it that is no part
of a line break. -/

namespace Rephrase.Text

/-- A line's core keeps what stands in front of a character that is no part of a line break. -/
theorem size_le_lineCore (front w : List Char) {c : Char} (hfeed : c ≠ '\n') (hreturn : c ≠ '\r') :
    size (front ++ [c]) ≤ size (lineCore (front ++ c :: w)) := by
  -- From the end, returns are dropped only up to the character, which is none.
  have hkeep : ∀ v : List Char, size (front ++ [c]) ≤
      size ((v ++ c :: front.reverse).dropWhile (· == '\r')).reverse := by
    intro v
    have hhead : ∀ d ∈ (c :: front.reverse).head?, (d == '\r') = false := by
      intro d hd
      obtain rfl : c = d := by simpa using hd
      simpa using hreturn
    have hdrop := stripStart_append v hhead
    unfold stripStart at hdrop
    rw [hdrop, size_reverse, size_append, size_append, size_cons, size_cons, size_reverse,
      size_nil]
    omega
  have hreverse : (front ++ c :: w).reverse = w.reverse ++ c :: front.reverse := by simp
  unfold lineCore
  rw [hreverse]
  cases w.reverse with
  | nil =>
    rw [List.nil_append]
    split
    · rename_i heq
      exact absurd (List.cons.inj heq).1 hfeed
    · exact hkeep []
  | cons x v =>
    rw [List.cons_append]
    split
    · rename_i heq
      rw [← (List.cons.inj heq).2]
      exact hkeep v
    · exact hkeep (x :: v)

theorem rawLinesFrom_done (done : List (List Char)) (line cs : List Char) :
    rawLinesFrom done line cs = done.reverse ++ rawLinesFrom [] line cs := by
  induction cs generalizing done line with
  | nil =>
    rw [rawLinesFrom, rawLinesFrom]
    split <;> simp
  | cons c cs ih =>
    rw [rawLinesFrom, rawLinesFrom]
    split
    · rw [ih, ih [(c :: line).reverse]]
      simp
    · exact ih done (c :: line)

theorem flatten_rawLinesFrom (done : List (List Char)) (line cs : List Char) :
    (rawLinesFrom done line cs).flatten = done.reverse.flatten ++ line.reverse ++ cs := by
  induction cs generalizing done line with
  | nil =>
    rw [rawLinesFrom]
    split
    · rename_i hempty
      simp [List.isEmpty_iff.mp hempty]
    · simp
  | cons c cs ih =>
    rw [rawLinesFrom]
    split
    · rw [ih]
      simp
    · rw [ih]
      simp

theorem flatten_rawLines (cs : List Char) : (rawLines cs).flatten = cs :=
  flatten_rawLinesFrom [] [] cs

theorem rawLinesFrom_newline (line cs : List Char) :
    rawLinesFrom [] line ('\n' :: cs) = ('\n' :: line).reverse :: rawLinesFrom [] [] cs := by
  rw [rawLinesFrom, if_pos rfl, rawLinesFrom_done]
  rfl

theorem exists_rawLinesFrom {line : List Char} (h : line ≠ []) (cs : List Char) :
    ∃ w more, rawLinesFrom [] line cs = (line.reverse ++ w) :: more := by
  induction cs generalizing line with
  | nil => exact ⟨[], [], by simp [rawLinesFrom, h]⟩
  | cons c cs ih =>
    by_cases hc : c = '\n'
    · subst hc
      rw [rawLinesFrom_newline]
      exact ⟨['\n'], rawLinesFrom [] [] cs, by simp⟩
    · rw [rawLinesFrom, if_neg hc]
      obtain ⟨w, more, hlines⟩ := ih (List.cons_ne_nil c line)
      exact ⟨c :: w, more, by simp [hlines]⟩

/-- Walks to the line of a character; `line`, reversed, is what has been passed of the current one,
which starts at `offset`. -/
theorem lineSpansFrom_get (front back : List Char) {c : Char} (hfeed : c ≠ '\n')
    (hreturn : c ≠ '\r') (offset number : Nat) (line : List Char) :
    ∃ k span, (Position.behind ⟨number, size line⟩ front).line = number + k ∧
      (lineSpansFrom offset (rawLinesFrom [] line (front ++ c :: back)))[k]? = some span ∧
      span.start + (Position.behind ⟨number, size line⟩ front).column =
        offset + size line + size front ∧
      offset + size line + size front + c.utf8Size ≤ span.stop := by
  induction front generalizing offset number line with
  | nil =>
    obtain ⟨w, more, hlines⟩ := exists_rawLinesFrom (List.cons_ne_nil c line) back
    have hcore := size_le_lineCore line.reverse w hfeed hreturn
    rw [size_append, size_reverse, size_cons, size_nil] at hcore
    refine ⟨0, ⟨offset, offset + size (lineCore (line.reverse ++ c :: w))⟩, rfl, ?_, ?_, ?_⟩
    · rw [List.nil_append, rawLinesFrom, if_neg hfeed, hlines, List.reverse_cons, List.append_assoc]
      rfl
    · show offset + size line = offset + size line + 0
      omega
    · show offset + size line + 0 + c.utf8Size ≤ offset + size (lineCore (line.reverse ++ c :: w))
      omega
  | cons d front ih =>
    rw [Position.behind_cons, List.cons_append, size_cons]
    -- A line feed ends the line that is walked on; the next one starts behind it.
    by_cases hd : d = '\n'
    · subst hd
      have hraw : size ('\n' :: line).reverse = size line + Char.utf8Size '\n' := by
        rw [size_reverse, size_cons, Nat.add_comm]
      obtain ⟨k, span, hline, hspan, hstart, hstop⟩ :=
        ih (offset + size ('\n' :: line).reverse) (number + 1) []
      rw [size_nil] at hline hstart hstop
      rw [Position.next_newline, rawLinesFrom_newline, lineSpansFrom]
      exact ⟨k + 1, span, by omega, hspan, by omega, by omega⟩
    · rw [Position.next_of_ne hd, rawLinesFrom, if_neg hd]
      have hsize : size (d :: line) = size line + d.utf8Size := by rw [size_cons, Nat.add_comm]
      obtain ⟨k, span, hline, hspan, hstart, hstop⟩ := ih offset number (d :: line)
      rw [hsize] at hline hstart hstop
      exact ⟨k, span, hline, hspan, by omega, by omega⟩

/-- The line of a position holds the character behind it, unless that breaks the line. -/
theorem lineSpans_get (front back : List Char) {c : Char} (hfeed : c ≠ '\n')
    (hreturn : c ≠ '\r') :
    ∃ span, (lineSpans (front ++ c :: back))[(positionBehind front).line - 1]? = some span ∧
      span.start + (positionBehind front).column = size front ∧
      size front + c.utf8Size ≤ span.stop := by
  obtain ⟨k, span, hline, hspan, hstart, hstop⟩ :=
    lineSpansFrom_get front back hfeed hreturn 0 1 []
  change (positionBehind front).line = 1 + k at hline
  change span.start + (positionBehind front).column = _ at hstart
  refine ⟨span, ?_, by rw [hstart, size_nil]; omega, by rw [size_nil] at hstop; omega⟩
  rw [hline, Nat.add_sub_cancel_left]
  exact hspan

/-! ## Numbers of lines -/

/-- A character that breaks no line. -/
def KeepsLine (c : Char) : Prop := c ≠ '\n' ∧ c ≠ '\r'

theorem keepsLine_of_not_blank {c : Char} (h : isBlank c = false) : KeepsLine c := by
  constructor
  all_goals
    rintro rfl
    exact absurd h (by decide)

theorem length_lineSpans (cs : List Char) : (lineSpans cs).length = (lines cs).length := by
  have hfrom : ∀ (offset : Nat) (raws : List (List Char)),
      (lineSpansFrom offset raws).length = raws.length := by
    intro offset raws
    induction raws generalizing offset with
    | nil => rfl
    | cons raw raws ih => exact congrArg Nat.succ (ih _)
  rw [lineSpans, hfrom, lines, List.length_map]

theorem length_rawLinesFrom_le (line cs : List Char) :
    (rawLinesFrom [] line cs).length ≤ line.length + cs.length := by
  induction cs generalizing line with
  | nil =>
    rw [rawLinesFrom]
    split
    · exact Nat.zero_le _
    · rename_i hline
      have hpos : 0 < line.length := List.length_pos_iff.mpr fun hnil => hline (by rw [hnil]; rfl)
      exact hpos
  | cons c cs ih =>
    by_cases hc : c = '\n'
    · subst hc
      have hrest := ih []
      rw [rawLinesFrom_newline, List.length_cons, List.length_cons]
      rw [List.length_nil] at hrest
      omega
    · have hrest := ih (c :: line)
      rw [rawLinesFrom, if_neg hc, List.length_cons]
      rw [List.length_cons] at hrest
      omega

theorem length_lines_le (cs : List Char) : (lines cs).length ≤ size cs := by
  have hlines := length_rawLinesFrom_le [] cs
  have hsize := length_le_size cs
  rw [List.length_nil, Nat.zero_add] at hlines
  rw [lines, List.length_map, rawLines]
  omega

/-- A position behind a character that breaks no line is in one of the lines. -/
theorem line_le_length_lines (front back : List Char) {c : Char} (h : KeepsLine c) :
    (positionBehind (front ++ [c])).line ≤ (lines (front ++ [c] ++ back)).length := by
  obtain ⟨span, hspan, -⟩ := lineSpans_get front back h.1 h.2
  obtain ⟨hlt, -⟩ := List.getElem?_eq_some_iff.mp hspan
  have hpos := positionBehind_line_pos front
  have hline : (positionBehind (front ++ [c])).line = (positionBehind front).line := by
    rw [positionBehind_append, Position.behind_cons, Position.next, if_neg h.1]
    rfl
  rw [hline, List.append_assoc, List.singleton_append, ← length_lineSpans]
  omega

/-- A text that does not end in a line break is in the lines of its content. -/
theorem Holds.lines_le {content text : List Char} {start stop : Position} {c : Char}
    (h : Holds content start stop (text ++ [c])) (hc : KeepsLine c) :
    1 ≤ start.line ∧ start.line ≤ stop.line ∧ stop.line ≤ (lines content).length := by
  obtain ⟨front, back, rfl, rfl, rfl⟩ := h
  refine ⟨positionBehind_line_pos front, ?_, ?_⟩
  · rw [positionBehind_append]
    exact Position.line_le_behind _ _
  · rw [← List.append_assoc]
    exact line_le_length_lines (front ++ text) back hc

/-- A text that starts before another one ends starts in the same line or in one above. -/
theorem Holds.line_le {content text text' : List Char} {start stop start' stop' : Position}
    (h : Holds content start stop text) (h' : Holds content start' stop' text')
    (hle : (spanBetween content start stop).start ≤ (spanBetween content start' stop').stop) :
    start.line ≤ stop'.line := by
  obtain ⟨front, back, rfl, rfl, rfl⟩ := h
  obtain ⟨front', back', hsplit, rfl, rfl⟩ := h'
  rw [spanBetween_append] at hle
  rw [hsplit, spanBetween_append] at hle
  have hsize : size front ≤ size (front' ++ text') := by rwa [size_append]
  rw [List.append_assoc] at hsplit
  obtain ⟨mid, hmid, -⟩ := append_split_of_size_le hsplit hsize
  rw [hmid, positionBehind_append]
  exact Position.line_le_behind _ _

end Rephrase.Text
