import Mathlib
import Rephrase.Proofs.Text.RawLine

/-! Lines are the same however they are counted: by the line feeds in front of a byte, by the
stretches of the lines in the text, or one after another. -/

namespace Rephrase.Text

/-! ## Bytes -/

/-- The bytes of the UTF-8 form. -/
def bytes (cs : List Char) : List UInt8 := cs.flatMap String.utf8EncodeChar

/-- The byte of a line feed. -/
def feed : UInt8 := 10

@[simp] theorem bytes_nil : bytes [] = [] := rfl

@[simp] theorem bytes_cons (c : Char) (cs : List Char) :
    bytes (c :: cs) = String.utf8EncodeChar c ++ bytes cs := rfl

@[simp] theorem bytes_append (cs ds : List Char) : bytes (cs ++ ds) = bytes cs ++ bytes ds :=
  List.flatMap_append

@[simp] theorem length_bytes (cs : List Char) : (bytes cs).length = size cs := by
  induction cs with
  | nil => rfl
  | cons c cs ih => rw [bytes_cons, List.length_append, String.length_utf8EncodeChar, ih, size_cons]

theorem utf8EncodeChar_newline : String.utf8EncodeChar '\n' = [feed] := by decide

/-- No part of another character looks like a line feed. -/
theorem feed_not_mem {c : Char} (h : c ≠ '\n') : feed ∉ String.utf8EncodeChar c := by
  have hc : c.val.toNat ≠ 10 := fun hval => h (Char.ext (UInt32.toNat_inj.mp hval))
  have hne : ∀ n, n % 256 ≠ 10 → feed ≠ UInt8.ofNat n := by
    intro n hn heq
    have hval := congrArg UInt8.toNat heq
    rw [UInt8.toNat_ofNat'] at hval
    exact hn hval.symm
  unfold String.utf8EncodeChar
  dsimp only
  split_ifs
  all_goals
    simp only [List.mem_cons, List.not_mem_nil, or_false, not_or]
    and_intros
  all_goals
    refine hne _ ?_
    omega

theorem count_bytes (cs : List Char) : (bytes cs).count feed = cs.count '\n' := by
  induction cs with
  | nil => rfl
  | cons c cs ih =>
    rw [bytes_cons, List.count_append, ih]
    by_cases hc : c = '\n'
    · subst hc
      rw [utf8EncodeChar_newline, List.count_singleton_self, List.count_cons_self, Nat.add_comm]
    · rw [List.count_eq_zero.mpr (feed_not_mem hc), List.count_cons_of_ne hc, Nat.zero_add]

/-! ## Positions -/

/-- The position behind a byte. -/
def Position.nextByte (p : Position) (b : UInt8) : Position :=
  if b = feed then ⟨p.line + 1, 0⟩ else ⟨p.line, p.column + 1⟩

theorem Position.nextByte_feed (line column : Nat) :
    Position.nextByte ⟨line, column⟩ feed = ⟨line + 1, 0⟩ := rfl

theorem Position.foldl_nextByte_of_not_mem {bs : List UInt8} (h : feed ∉ bs)
    (line column : Nat) :
    bs.foldl Position.nextByte ⟨line, column⟩ = ⟨line, column + bs.length⟩ := by
  induction bs generalizing column with
  | nil => rfl
  | cons b bs ih =>
    rcases not_or.mp (mt List.mem_cons.mpr h) with ⟨hb, hbs⟩
    have hnext : Position.nextByte ⟨line, column⟩ b = ⟨line, column + 1⟩ := if_neg (Ne.symm hb)
    rw [List.foldl_cons, hnext, ih hbs, List.length_cons, Nat.add_right_comm]
    rfl

theorem Position.before_foldl_nextByte (p : Position) {bs : List UInt8} (h : bs ≠ []) :
    p.Before (bs.foldl Position.nextByte p) := by
  have hnext : ∀ (q : Position) b, q.Before (q.nextByte b) := by
    intro q b
    unfold Position.Before Position.nextByte
    split
    · exact .inl (Nat.lt_succ_self _)
    · exact .inr ⟨rfl, Nat.lt_succ_self _⟩
  induction bs generalizing p with
  | nil => exact absurd rfl h
  | cons b bs ih =>
    rw [List.foldl_cons]
    by_cases hbs : bs = []
    · rw [hbs]
      exact hnext p b
    · exact (hnext p b).trans (ih _ hbs)

/-- The lines in front of an offset are counted byte by byte. -/
theorem positionFrom_bytes (here line start : Nat) (hstart : start ≤ here) {cs : List Char}
    {offset : Nat} (hoffset : offset ≤ size cs) :
    LineStarts.positionFrom (here + offset) ⟨line, here + offset - start⟩ (breaksFrom here cs) =
      ((bytes cs).take offset).foldl Position.nextByte ⟨line, here - start⟩ := by
  induction cs generalizing here line start offset with
  | nil =>
    obtain rfl : offset = 0 := Nat.le_zero.mp hoffset
    rfl
  | cons c cs ih =>
    rw [size_cons] at hoffset
    rw [breaksFrom, bytes_cons]
    by_cases hc : c = '\n'
    · subst hc
      rw [if_pos rfl, utf8EncodeChar_newline, LineStarts.positionFrom]
      cases offset with
      | zero => exact if_neg (by omega)
      | succ offset =>
        have hsize : Char.utf8Size '\n' = 1 := rfl
        have hrest := ih (here + 1) (line + 1) (here + 1) le_rfl
          (show offset ≤ size cs by omega)
        rw [Nat.sub_self] at hrest
        rw [if_pos (by omega), List.singleton_append, List.take_succ_cons, List.foldl_cons,
          Position.nextByte_feed, ← hrest, show here + (offset + 1) = here + 1 + offset by omega]
    · rw [if_neg hc]
      have hfeed := feed_not_mem hc
      have hlength := String.length_utf8EncodeChar c
      rcases le_or_gt offset c.utf8Size with hle | hlt
      · -- The offset lies in this character or behind it, and no line starts up to there.
        have hnone : LineStarts.positionFrom (here + offset) ⟨line, here + offset - start⟩
            (breaksFrom (here + c.utf8Size) cs) = ⟨line, here + offset - start⟩ := by
          cases hbreaks : breaksFrom (here + c.utf8Size) cs with
          | nil => rfl
          | cons first rest =>
            have hfirst : here + c.utf8Size < first :=
              lt_of_mem_breaksFrom (by rw [hbreaks]; exact List.mem_cons_self)
            exact if_neg (by omega)
        rw [hnone, List.take_append_of_le_length (by omega),
          Position.foldl_nextByte_of_not_mem fun hmem => hfeed (List.mem_of_mem_take hmem),
          List.length_take, Nat.min_eq_left (by omega), Nat.sub_add_comm hstart]
      · rcases Nat.exists_eq_add_of_lt hlt with ⟨more, rfl⟩
        have hrest := ih (here + c.utf8Size) line start (by omega)
          (show more + 1 ≤ size cs by omega)
        rw [List.take_append, hlength, List.take_of_length_le (by omega), List.foldl_append,
          Position.foldl_nextByte_of_not_mem hfeed, hlength, ← Nat.sub_add_comm hstart,
          show c.utf8Size + more + 1 - c.utf8Size = more + 1 by omega, ← hrest,
          show here + (c.utf8Size + more + 1) = here + c.utf8Size + (more + 1) by omega]

theorem position_eq_foldl {cs : List Char} {offset : Nat} (h : offset ≤ size cs) :
    (LineStarts.ofText cs).position offset =
      ((bytes cs).take offset).foldl Position.nextByte ⟨1, 0⟩ := by
  have hbytes := positionFrom_bytes 0 1 0 le_rfl h
  rw [LineStarts.position, ofText_starts, LineStarts.positionFrom, if_pos (Nat.zero_le _)]
  rwa [Nat.zero_add, Nat.sub_zero] at hbytes

/-- The offset at which the last line of some bytes starts: behind their last line feed. -/
def lineStart (bs : List UInt8) : Nat := (bs.rdropWhile (· != feed)).length

theorem lineStart_le_length (bs : List UInt8) : lineStart bs ≤ bs.length :=
  (List.rdropWhile_prefix (· != feed) bs).length_le

theorem lineStart_append_of_not_mem (bs : List UInt8) {rest : List UInt8} (h : feed ∉ rest) :
    lineStart (bs ++ rest) = lineStart bs := by
  induction rest using List.reverseRecOn with
  | nil => rw [List.append_nil]
  | append_singleton rest b ih =>
    rcases not_or.mp (mt List.mem_append.mpr h) with ⟨hrest, hb⟩
    have hb : b ≠ feed := fun heq => hb (by simp [heq])
    rw [← ih hrest, lineStart, ← List.append_assoc,
      List.rdropWhile_concat_pos _ _ _ (by simpa using hb)]
    rfl

theorem foldl_nextByte_eq (bs : List UInt8) : bs.foldl Position.nextByte ⟨1, 0⟩ =
    ⟨1 + bs.count feed, bs.length - lineStart bs⟩ := by
  induction bs using List.reverseRecOn with
  | nil => rfl
  | append_singleton bs b ih =>
    rw [List.foldl_append, ih, List.foldl_cons, List.foldl_nil, List.count_append]
    by_cases hb : b = feed
    · subst hb
      rw [Position.nextByte_feed, List.count_singleton_self, lineStart,
        List.rdropWhile_concat_neg _ _ _ (by simp), Nat.sub_self]
      rfl
    · have hle := lineStart_le_length bs
      have hb' : feed ∉ [b] := by simpa using Ne.symm hb
      rw [lineStart_append_of_not_mem bs hb', Position.nextByte, if_neg hb,
        List.count_eq_zero.mpr hb', List.length_append, List.length_singleton,
        Nat.sub_add_comm hle]
      rfl

section

variable {cs : List Char} {offset : Nat}

theorem lineStart_take_le (cs : List Char) (offset : Nat) :
    lineStart ((bytes cs).take offset) ≤ offset :=
  (lineStart_le_length _).trans (List.length_take_le _ _)

/-- The line of an offset is told by the line feeds in front of it, and its column by where the last
of them is. -/
theorem position_eq (h : offset ≤ size cs) : (LineStarts.ofText cs).position offset =
    ⟨1 + ((bytes cs).take offset).count feed,
      offset - lineStart ((bytes cs).take offset)⟩ := by
  rw [position_eq_foldl h, foldl_nextByte_eq, List.length_take, length_bytes, Nat.min_eq_left h]

theorem getElem?_starts (h : offset ≤ size cs) :
    (LineStarts.ofText cs).starts[((bytes cs).take offset).count feed]? =
      some (lineStart ((bytes cs).take offset)) := by
  rcases exists_position cs offset with ⟨start, -, hget, hle, hposition⟩
  rw [position_eq h] at hposition
  rcases Position.mk.inj hposition with ⟨hline, hcolumn⟩
  have hstart := lineStart_take_le cs offset
  rw [← hline, Nat.add_sub_cancel_left] at hget
  rw [hget, show start = lineStart ((bytes cs).take offset) by omega]

theorem before_position {later : Nat} (hlt : offset < later) (hlater : later ≤ size cs) :
    ((LineStarts.ofText cs).position offset).Before ((LineStarts.ofText cs).position later) := by
  rw [position_eq_foldl (by omega), position_eq_foldl hlater]
  have hsplit : (bytes cs).take later =
      (bytes cs).take offset ++ ((bytes cs).take later).drop offset := by
    conv_lhs => rw [← List.take_append_drop offset ((bytes cs).take later), List.take_take,
      Nat.min_eq_left hlt.le]
  have hbetween : ((bytes cs).take later).drop offset ≠ [] := by
    rw [← List.length_pos_iff, List.length_drop, List.length_take, length_bytes]
    omega
  rw [hsplit, List.foldl_append]
  exact Position.before_foldl_nextByte _ hbetween

end

/-! ## Lines -/

/-- Whole lines: nothing, or a text that ends in a line feed. -/
def IsAbove (above : List Char) : Prop := above = [] ∨ ∃ front, above = front ++ ['\n']

theorem exists_line (front : List Char) :
    ∃ above line, front = above ++ line ∧ IsAbove above ∧ '\n' ∉ line := by
  induction front using List.reverseRecOn with
  | nil => exact ⟨[], [], rfl, .inl rfl, by simp⟩
  | append_singleton front c ih =>
    by_cases hc : c = '\n'
    · subst hc
      exact ⟨front ++ ['\n'], [], by simp, .inr ⟨front, rfl⟩, by simp⟩
    · rcases ih with ⟨above, line, rfl, habove, hline⟩
      exact ⟨above, line ++ [c], by simp, habove, by simp [hline, Ne.symm hc]⟩

/-- What can stand behind the text of a line: nothing, or a text that starts with a line feed. -/
def IsTail (tail : List Char) : Prop := tail = [] ∨ ∃ rest, tail = '\n' :: rest

theorem exists_tail (back : List Char) :
    ∃ part tail, back = part ++ tail ∧ '\n' ∉ part ∧ IsTail tail := by
  induction back with
  | nil => exact ⟨[], [], rfl, by simp, .inl rfl⟩
  | cons c back ih =>
    by_cases hc : c = '\n'
    · subst hc
      exact ⟨[], '\n' :: back, rfl, by simp, .inr ⟨back, rfl⟩⟩
    · rcases ih with ⟨part, tail, rfl, hpart, htail⟩
      exact ⟨c :: part, tail, rfl, by simp [hpart, Ne.symm hc], htail⟩

section

variable {above : List Char} (habove : IsAbove above)

include habove

theorem IsAbove.rawLines_append (cs : List Char) :
    rawLines (above ++ cs) = rawLines above ++ rawLines cs := by
  rcases habove with rfl | ⟨front, rfl⟩
  · rfl
  · rw [List.append_assoc, List.singleton_append, rawLines_append_newline]

theorem IsAbove.length_rawLines : (rawLines above).length = above.count '\n' := by
  rcases habove with rfl | ⟨front, rfl⟩
  · rfl
  have hfrom : ∀ line, (rawLinesFrom [] line (front ++ ['\n'])).length =
      (front ++ ['\n']).count '\n' := by
    induction front with
    | nil =>
      intro line
      rw [List.nil_append, rawLinesFrom_newline]
      rfl
    | cons c front ih =>
      intro line
      rw [List.cons_append]
      by_cases hc : c = '\n'
      · subst hc
        rw [rawLinesFrom_newline, List.length_cons, ih [], List.count_cons_self]
      · rw [rawLinesFrom, if_neg hc, ih (c :: line), List.count_cons_of_ne hc]
  exact hfrom []

theorem IsAbove.lineStart_bytes : lineStart (bytes above) = size above := by
  rcases habove with rfl | ⟨front, rfl⟩
  · rfl
  rw [← length_bytes, bytes_append, bytes_cons, bytes_nil, utf8EncodeChar_newline, List.append_nil,
    lineStart, List.rdropWhile_concat_neg _ _ _ (by simp)]

end

theorem feed_not_mem_bytes {line : List Char} (h : '\n' ∉ line) : feed ∉ bytes line := by
  rw [← List.count_eq_zero, count_bytes]
  exact List.count_eq_zero.mpr h

theorem length_lines (cs : List Char) : (lines cs).length =
    cs.count '\n' + if lineStart (bytes cs) = size cs then 0 else 1 := by
  rcases exists_line cs with ⟨above, line, rfl, habove, hline⟩
  rw [lines, List.length_map, habove.rawLines_append, List.length_append, habove.length_rawLines,
    List.count_append, List.count_eq_zero.mpr hline, bytes_append,
    lineStart_append_of_not_mem _ (feed_not_mem_bytes hline), habove.lineStart_bytes, size_append]
  by_cases hnil : line = []
  · subst hnil
    simp [rawLines, rawLinesFrom]
  · have hpos := size_pos_of_ne_nil hnil
    rw [rawLines_of_not_mem hline hnil, if_neg (by omega)]
    rfl

theorem getElem?_lineSpans {cs raw : List Char} {place : Nat}
    (h : (rawLines cs)[place]? = some raw) :
    (lineSpans cs)[place]? = some ⟨size ((rawLines cs).take place).flatten,
      size ((rawLines cs).take place).flatten + size (lineCore raw)⟩ := by
  have hlt : place < (lineSpans cs).length := by
    rw [length_lineSpans, lines, List.length_map]
    exact (List.getElem?_eq_some_iff.mp h).1
  obtain ⟨⟨start, stop⟩, hspan⟩ : ∃ span, (lineSpans cs)[place]? = some span :=
    ⟨_, List.getElem?_eq_getElem hlt⟩
  rcases of_getElem?_lineSpansFrom hspan with ⟨other, hother, hstart, hstop⟩
  obtain rfl : raw = other := Option.some.inj (h.symm.trans hother)
  rw [Nat.zero_add] at hstart
  dsimp only at hstart hstop
  rw [hspan, hstop, hstart]

/-- The stretch of the line behind whole lines goes up to the carriage returns at its end. -/
theorem lineSpans_line {above text tail : List Char} (habove : IsAbove above) (htext : '\n' ∉ text)
    (htail : IsTail tail) (hne : text ++ tail ≠ []) :
    (lineSpans (above ++ (text ++ tail)))[above.count '\n']? =
      some ⟨size above, size above + size (stripEnd (· == '\r') text)⟩ := by
  obtain ⟨raw, more, hraw, hcore⟩ : ∃ raw more, rawLines (text ++ tail) = raw :: more ∧
      lineCore raw = stripEnd (· == '\r') text := by
    rcases htail with rfl | ⟨rest, rfl⟩
    · rw [List.append_nil] at hne ⊢
      exact ⟨text, [], rawLines_of_not_mem htext hne, lineCore_of_not_mem htext⟩
    · exact ⟨text ++ ['\n'], rawLines rest, rawLinesFrom_line htext [] rest, lineCore_newline text⟩
  have hlines : rawLines (above ++ (text ++ tail)) = rawLines above ++ raw :: more := by
    rw [habove.rawLines_append, hraw]
  have hget : (rawLines (above ++ (text ++ tail)))[above.count '\n']? = some raw := by
    rw [hlines, ← habove.length_rawLines, List.getElem?_append_right le_rfl, Nat.sub_self]
    rfl
  have htake : (rawLines (above ++ (text ++ tail))).take (above.count '\n') = rawLines above := by
    rw [hlines, ← habove.length_rawLines, List.take_left]
  rw [getElem?_lineSpans hget, htake, flatten_rawLines, hcore]

/-- Whether a text starts within a line break: behind its carriage returns comes a line feed, or
nothing. -/
def StartsInBreak (cs : List Char) : Prop :=
  cs.dropWhile (· == '\r') = [] ∨ (cs.dropWhile (· == '\r')).head? = some '\n'

instance (cs : List Char) : Decidable (StartsInBreak cs) := inferInstanceAs (Decidable (_ ∨ _))

theorem startsInBreak_append_iff {part tail : List Char} (hpart : '\n' ∉ part)
    (htail : IsTail tail) : StartsInBreak (part ++ tail) ↔ ∀ d ∈ part, d = '\r' := by
  have hend : StartsInBreak tail := by
    rcases htail with rfl | ⟨rest, rfl⟩
    · exact .inl rfl
    · exact .inr rfl
  induction part with
  | nil => simpa using hend
  | cons c part ih =>
    rcases not_or.mp (mt List.mem_cons.mpr hpart) with ⟨hc, hrest⟩
    by_cases hreturn : c = '\r'
    · subst hreturn
      have hskip : StartsInBreak ('\r' :: (part ++ tail)) ↔ StartsInBreak (part ++ tail) := Iff.rfl
      rw [List.cons_append, List.forall_mem_cons, and_iff_right rfl]
      exact hskip.trans (ih hrest)
    · simp [StartsInBreak, hreturn, Ne.symm hc]

/-- The stretch of a line reaches over a byte of it just if the byte is no part of the line break. -/
theorem lt_size_stripEnd_iff (line : List Char) {part : List Char} {more : Nat}
    (hmore : ∀ c ∈ part.head?, more < c.utf8Size) :
    size line + more < size (stripEnd (· == '\r') (line ++ part)) ↔ ¬∀ d ∈ part, d = '\r' := by
  have hnil : stripEnd (· == '\r') part = [] ↔ ∀ d ∈ part, d = '\r' := by
    simp [stripEnd_eq_nil_iff]
  rw [← hnil]
  by_cases hreturns : stripEnd (· == '\r') part = []
  · rcases stripEnd_append_stripped (· == '\r') line with ⟨back, hback, -⟩
    have hsize := congrArg size hback
    rw [size_append] at hsize
    rw [stripEnd_append_of_eq_nil line hreturns]
    simp only [hreturns, not_true_eq_false, iff_false]
    omega
  · rcases List.exists_cons_of_ne_nil hreturns with ⟨c, kept, hkept⟩
    rcases stripEnd_append_stripped (· == '\r') part with ⟨back, hback, -⟩
    rw [hkept, List.cons_append] at hback
    have hc := hmore c (by rw [hback]; rfl)
    rw [stripEnd_append_of_ne_nil line hreturns, hkept, size_append, size_cons]
    simp only [List.cons_ne_nil, not_false_eq_true, iff_true]
    omega

/-- The position of a byte in a line behind whole lines. -/
theorem position_line {above line : List Char} (habove : IsAbove above) (hline : '\n' ∉ line)
    {c : Char} (back : List Char) {more : Nat} (hmore : more < c.utf8Size) :
    (LineStarts.ofText (above ++ line ++ c :: back)).position (size (above ++ line) + more) =
      ⟨1 + above.count '\n', size line + more⟩ := by
  have hpart : feed ∉ (String.utf8EncodeChar c).take more := by
    by_cases hc : c = '\n'
    · subst hc
      obtain rfl : more = 0 := Nat.lt_one_iff.mp hmore
      simp
    · exact fun hmem => feed_not_mem hc (List.mem_of_mem_take hmem)
  have hfeed : feed ∉ bytes line ++ (String.utf8EncodeChar c).take more := by
    rw [List.mem_append, not_or]
    exact ⟨feed_not_mem_bytes hline, hpart⟩
  have hlength := String.length_utf8EncodeChar c
  have htake : (bytes (above ++ line ++ c :: back)).take (size (above ++ line) + more) =
      bytes above ++ (bytes line ++ (String.utf8EncodeChar c).take more) := by
    rw [bytes_append, bytes_cons, ← length_bytes (above ++ line), List.take_length_add_append,
      List.take_append_of_le_length (by omega), bytes_append, List.append_assoc]
  have hsize : size (above ++ line) + more ≤ size (above ++ line ++ c :: back) := by
    rw [size_append (above ++ line), size_cons]
    omega
  rw [position_eq hsize, htake, List.count_append, List.count_eq_zero.mpr hfeed, count_bytes,
    lineStart_append_of_not_mem _ hfeed, habove.lineStart_bytes, size_append, Nat.add_zero,
    Nat.add_assoc, Nat.add_sub_cancel_left]

/-- The stretch of the line of a byte is found under the number of its line, starts as many bytes in
front of it as its column, and reaches over it just if it is no part of the line break. -/
theorem exists_lineSpan {front back : List Char} {c : Char} {offset : Nat}
    (hle : size front ≤ offset) (hlt : offset < size front + c.utf8Size) :
    ∃ span, (lineSpans (front ++ c :: back))[((LineStarts.ofText (front ++ c :: back)).position
        offset).line - 1]? = some span ∧
      span.start + ((LineStarts.ofText (front ++ c :: back)).position offset).column = offset ∧
      (offset < span.stop ↔ ¬StartsInBreak (c :: back)) := by
  rcases exists_line front with ⟨above, line, rfl, habove, hline⟩
  rcases Nat.exists_eq_add_of_le hle with ⟨more, rfl⟩
  have hmore : more < c.utf8Size := by omega
  -- The rest of the line, up to its line feed.
  rcases exists_tail (c :: back) with ⟨part, tail, hsplit, hpart, htail⟩
  have hhead : ∀ d ∈ part.head?, more < d.utf8Size := by
    intro d hd
    have hd' : (c :: back).head? = some d := by rw [hsplit, List.head?_append, hd, Option.some_or]
    obtain rfl : c = d := by simpa using hd'
    exact hmore
  have htext : '\n' ∉ line ++ part := by simp [hline, hpart]
  have hne : line ++ part ++ tail ≠ [] := by
    rw [List.append_assoc, ← hsplit]
    simp
  have hspan := lineSpans_line habove htext htail hne
  rw [List.append_assoc line, ← hsplit, ← List.append_assoc] at hspan
  rw [position_line habove hline back hmore]
  refine ⟨_, by rwa [Nat.add_sub_cancel_left], ?_, ?_⟩
  · rw [size_append, Nat.add_assoc]
  · rw [hsplit, startsInBreak_append_iff hpart htail, ← lt_size_stripEnd_iff line hhead,
      size_append above line, Nat.add_assoc]
    exact Nat.add_lt_add_iff_left

/-- All notions of a line agree on every text. The position of an offset counts the line feeds in
front of it, and the bytes from the start of its line, which is one of the line starts and not
behind it; positions ascend with their offsets. There are as many stretches of lines as lines, one
for each line feed and one for what is behind the last of them. For each byte of a character, the
stretch under the number of its line starts at that line's start, and reaches over the byte just if
the character is no part of the line's break. -/
theorem lines_agree (cs : List Char) :
    (∀ offset ≤ size cs,
      (LineStarts.ofText cs).starts[((bytes cs).take offset).count feed]? =
        some (lineStart ((bytes cs).take offset)) ∧
      lineStart ((bytes cs).take offset) ≤ offset ∧
      (LineStarts.ofText cs).position offset = ⟨1 + ((bytes cs).take offset).count feed,
        offset - lineStart ((bytes cs).take offset)⟩) ∧
    (∀ offset later, offset < later → later ≤ size cs →
      ((LineStarts.ofText cs).position offset).Before ((LineStarts.ofText cs).position later)) ∧
    (lineSpans cs).length = (lines cs).length ∧
    (lines cs).length = cs.count '\n' + (if lineStart (bytes cs) = size cs then 0 else 1) ∧
    ∀ front c back offset, cs = front ++ c :: back → size front ≤ offset →
      offset < size front + c.utf8Size →
      ∃ span, (lineSpans cs)[((LineStarts.ofText cs).position offset).line - 1]? = some span ∧
        span.start + ((LineStarts.ofText cs).position offset).column = offset ∧
        (offset < span.stop ↔ ¬StartsInBreak (c :: back)) := by
  refine ⟨fun offset h => ⟨getElem?_starts h, lineStart_take_le cs offset, position_eq h⟩,
    fun offset later hlt hlater => before_position hlt hlater, length_lineSpans cs,
    length_lines cs, ?_⟩
  rintro front c back offset rfl hle hlt
  exact exists_lineSpan hle hlt

/-- The second byte of a character between carriage returns, on a last line without a line feed. -/
theorem lines_agree_between_returns :
    (LineStarts.ofText "a\r\n\rü\r".toList).position 5 = ⟨2, 2⟩ ∧
      ∃ span, (lineSpans "a\r\n\rü\r".toList)[1]? = some span ∧ span.start = 3 ∧
        5 < span.stop := by
  rcases lines_agree "a\r\n\rü\r".toList with ⟨hposition, -, -, -, hspans⟩
  have hfive : (LineStarts.ofText "a\r\n\rü\r".toList).position 5 = ⟨2, 2⟩ :=
    (hposition 5 (by decide)).2.2.trans (by decide)
  rcases hspans "a\r\n\r".toList 'ü' "\r".toList 5 (by decide) (by decide) (by decide) with
    ⟨span, hspan, hstart, hstop⟩
  rw [hfive] at hspan hstart
  exact ⟨hfive, span, hspan, Nat.add_right_cancel (hstart : span.start + 2 = 3 + 2),
    hstop.mpr (by decide)⟩

end Rephrase.Text
