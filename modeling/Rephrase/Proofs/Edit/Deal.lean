import Rephrase.Edit.Strategy
import Rephrase.Proofs.Fault
import Rephrase.Proofs.Node.Extraction
import Rephrase.Proofs.Text.LineSpan
import Rephrase.Proofs.Text.Words

/-! Pieces are found where they are recorded as long as nothing in front of their ends has changed,
and the words of a text are dealt out to them without losing any. -/

namespace Rephrase.Edit

open Text

/-! ## Places of pieces -/

theorem ne_feed_of_not_blank {c : Char} (h : isBlank c = false) : c ≠ '\n' ∧ c ≠ '\r' := by
  constructor <;> rintro rfl <;> exact absurd h (by decide)

/-- The recorded lines of a piece reach from its first line's start over its last character. -/
theorem region?_of_solid (front back : List Char) {text : List Char} (h : Solid isBlank text) :
    ∃ region, region? (lineSpans (front ++ text ++ back)) (positionBehind front).line
        (positionBehind (front ++ text)).line = some region ∧
      region.start + (positionBehind front).column = size front ∧
      size front + size text ≤ region.stop := by
  obtain ⟨c, tail, htext⟩ := List.exists_cons_of_ne_nil h.ne_nil
  obtain ⟨init, d, htext'⟩ : ∃ init d, text = init ++ [d] :=
    ⟨_, _, (List.dropLast_append_getLast h.ne_nil).symm⟩
  have hc := ne_feed_of_not_blank (h.head c (by rw [htext]; rfl))
  have hd := ne_feed_of_not_blank (h.last d (by rw [htext']; simp))
  -- The first line is found by the first character, the last one by the last.
  obtain ⟨top, htop, hstart, -⟩ := lineSpans_get front (tail ++ back) hc.1 hc.2
  obtain ⟨bottom, hbottom, -, hstop⟩ := lineSpans_get (front ++ init) back hd.1 hd.2
  have hcs : front ++ c :: (tail ++ back) = front ++ text ++ back := by
    rw [htext]
    simp
  have hcs' : front ++ init ++ d :: back = front ++ text ++ back := by
    rw [htext']
    simp
  -- The last character breaks no line, so the piece ends on its line.
  have hline : (positionBehind (front ++ init)).line = (positionBehind (front ++ text)).line := by
    rw [htext', ← List.append_assoc, positionBehind_append (front ++ init)]
    show _ = (Position.next _ d).line
    rw [Position.next, if_neg hd.1]
  have hsize : size (front ++ init) + d.utf8Size = size front + size text := by
    rw [htext', size_append, size_append, size_cons, size_nil]
    omega
  rw [hcs] at htop
  rw [hcs', hline] at hbottom
  refine ⟨⟨top.start, bottom.stop⟩, ?_, hstart, by rw [← hsize]; exact hstop⟩
  have hfirst := positionBehind_line_pos front
  have hlast := positionBehind_line_pos (front ++ text)
  unfold region?
  rw [if_neg (by simp; omega), htop, hbottom]
  rfl

theorem add_of_lt {a b : Nat} (h : a + b < Fault.wordLimit) : Fault.add a b = .ok (a + b) :=
  if_pos h

/-- A piece is found at its recorded place. -/
theorem locate_recorded {front : List Char} (back : List Char) {piece : Piece}
    (hstart : piece.start = positionBehind front)
    (hstop : piece.stop = positionBehind (front ++ piece.text.toList))
    (hsolid : Solid isBlank piece.text.toList)
    (hlimit : size front + size piece.text.toList < Fault.wordLimit) :
    locate (front ++ piece.text.toList ++ back)
        (lineSpans (front ++ piece.text.toList ++ back)) piece =
      .ok (some ⟨size front, size front + size piece.text.toList⟩) := by
  obtain ⟨region, hregion, hcolumn, hreach⟩ := region?_of_solid front back hsolid
  have hempty : piece.text.toList.isEmpty = false := by simpa using hsolid.ne_nil
  unfold locate
  dsimp only
  rw [hempty, hstart, hstop, hregion]
  dsimp only
  have hslice := slice?_append front piece.text.toList back
  rw [if_neg (by decide), add_of_lt (by omega), hcolumn, ok_bind, add_of_lt hlimit, ok_bind,
    if_pos (by rw [hslice]; simpa using hreach)]
  rfl

/-- Pieces that are recorded in a front of a text are all found there. -/
theorem locateAll_recorded {front : List Char} (hlimit : size front < Fault.wordLimit)
    (back : List Char) {pieces : List Piece}
    (h : ∀ piece ∈ pieces, Holds front piece.start piece.stop piece.text.toList ∧
      Solid isBlank piece.text.toList) :
    locateAll (front ++ back) (lineSpans (front ++ back)) pieces =
      .ok (some (pieces.map fun piece => spanBetween front piece.start piece.stop)) := by
  induction pieces with
  | nil => rfl
  | cons piece rest ih =>
    -- Seen from this piece the later ones are a part of what stands behind it.
    obtain ⟨⟨before, after, hfront, hstart, hstop⟩, hsolid⟩ := h piece List.mem_cons_self
    have hsize := congrArg size hfront
    rw [size_append, size_append] at hsize
    have hcs : front ++ back = before ++ piece.text.toList ++ (after ++ back) := by
      rw [hfront]
      simp only [List.append_assoc]
    have hspan : spanBetween front piece.start piece.stop =
        ⟨size before, size before + size piece.text.toList⟩ := by
      rw [hstop, hstart, hfront, spanBetween_append]
    have hlocate := locate_recorded (after ++ back) hstart hstop hsolid (by omega)
    rw [← hcs] at hlocate
    rw [locateAll, hlocate, ok_bind]
    dsimp only
    rw [ih fun piece hpiece => h piece (List.mem_cons_of_mem _ hpiece), ok_bind, List.map_cons,
      hspan]
    rfl

/-! ## Words -/

theorem length_deal (words : List (List Char)) (counts : List Nat) :
    (deal words counts).length = counts.length := by
  fun_induction deal words counts with
  | case1 => rfl
  | case2 => rfl
  | case3 words count rest hrest ih =>
    rw [List.length_cons, List.length_cons, ih]

/-- No word is lost, none is doubled, and their order stays. -/
theorem flatMap_words_deal {words : List (List Char)} {counts : List Nat}
    (hwords : ∀ w ∈ words, IsWord w) (hcounts : counts ≠ []) :
    (deal words counts).flatMap Text.words = words := by
  fun_induction deal words counts with
  | case1 => exact absurd rfl hcounts
  | case2 words count =>
    rw [List.flatMap_singleton, words_unwords hwords]
  | case3 words count rest hrest ih =>
    have htake : ∀ w ∈ words.take count, IsWord w := fun w hw => hwords w (List.mem_of_mem_take hw)
    have hdrop : ∀ w ∈ words.drop count, IsWord w := fun w hw => hwords w (List.mem_of_mem_drop hw)
    rw [List.flatMap_cons, words_unwords htake, ih hdrop hrest,
      List.take_append_drop]

/-- Every piece but the last gets as many words as it had, as long as there are words left. -/
theorem length_words_deal {words : List (List Char)} {counts : List Nat}
    (hwords : ∀ w ∈ words, IsWord w) {i count : Nat} {text : List Char}
    (hlast : i + 1 < counts.length) (hcount : counts[i]? = some count)
    (htext : (deal words counts)[i]? = some text) :
    (Text.words text).length =
      min count (words.length - (((deal words counts).take i).flatMap Text.words).length) := by
  fun_induction deal words counts generalizing i with
  | case1 => simp at hlast
  | case2 => simp at hlast
  | case3 words first rest hrest ih =>
    have htake : ∀ w ∈ words.take first, IsWord w := fun w hw => hwords w (List.mem_of_mem_take hw)
    have hdrop : ∀ w ∈ words.drop first, IsWord w := fun w hw => hwords w (List.mem_of_mem_drop hw)
    cases i with
    | zero =>
      obtain rfl : first = count := by simpa using hcount
      obtain rfl : unwords (words.take first) = text := by simpa using htext
      rw [words_unwords htake, List.length_take, List.take_zero]
      rfl
    | succ i =>
      -- What the first piece took is missing from the words of the later ones.
      have hlater := ih hdrop (Nat.lt_of_succ_lt_succ hlast) (by simpa using hcount)
        (by simpa using htext)
      rw [hlater, List.take_succ_cons, List.flatMap_cons, words_unwords htake, List.length_append,
        List.length_take, List.length_drop]
      omega

/-- What is dealt out holds words with single spaces between them and nothing else. -/
theorem eq_unwords_of_mem_deal {words : List (List Char)} {counts : List Nat}
    (hwords : ∀ w ∈ words, IsWord w) {text : List Char} (htext : text ∈ deal words counts) :
    text = unwords (Text.words text) := by
  fun_induction deal words counts with
  | case1 => simp at htext
  | case2 words count =>
    rw [List.mem_singleton.mp htext, words_unwords hwords]
  | case3 words count rest hrest ih =>
    obtain rfl | htext := List.mem_cons.mp htext
    · rw [words_unwords fun w hw => hwords w (List.mem_of_mem_take hw)]
    · exact ih (fun w hw => hwords w (List.mem_of_mem_drop hw)) htext

/-- Texts for some pieces that have the words of a wanted text in their order: every piece but the
last as many as it had, as long as there are words left, and the last one all others. -/
structure IsDealt (wanted : List Char) (pieces : List Piece) (texts : List (List Char)) : Prop where
  length : texts.length = pieces.length
  words : texts.flatMap Text.words = Text.words wanted
  bare : ∀ text ∈ texts, text = unwords (Text.words text)
  counts : ∀ i piece text, i + 1 < pieces.length → pieces[i]? = some piece →
    texts[i]? = some text → (Text.words text).length =
      min (Text.words piece.text.toList).length
        ((Text.words wanted).length - ((texts.take i).flatMap Text.words).length)

theorem isDealt_deal {content : List Char} {pieces : List Piece} (hpieces : pieces ≠ [])
    (hrecorded : ∀ piece ∈ pieces, piece.IsRecorded content) (wanted : List Char) :
    IsDealt wanted pieces (deal (Text.words wanted) (pieces.map (·.wordCount))) := by
  have hwords : ∀ w ∈ Text.words wanted, IsWord w := fun w hw => isWord_of_mem_words hw
  refine ⟨by rw [length_deal, List.length_map], ?_, fun text => eq_unwords_of_mem_deal hwords, ?_⟩
  · exact flatMap_words_deal hwords (by simpa using hpieces)
  · intro i piece text hlast hpiece htext
    have hcount : (pieces.map (·.wordCount))[i]? = some piece.wordCount := by
      rw [List.getElem?_map, hpiece]
      rfl
    rw [← (hrecorded piece (List.mem_of_getElem? hpiece)).wordCount]
    exact length_words_deal hwords (by rwa [List.length_map]) hcount htext

/-! ## New words in place -/

/-- The words of a text are dealt out to its pieces where they stand. -/
theorem dealOut_recorded {content front stretch : List Char} {pieces : List Piece}
    (hpieces : pieces ≠ []) (hlimit : size content < Fault.wordLimit) (rest : List Char)
    (hcontent : content = front ++ stretch ++ rest)
    (hrecorded : ∀ piece ∈ pieces, piece.IsRecorded content)
    (hascend : Ascend (size front) (size front + size stretch)
      (pieces.map fun piece => spanBetween content piece.start piece.stop))
    (back wanted : List Char) :
    ∃ new, Replaced (size front)
        ((pieces.map fun piece => spanBetween content piece.start piece.stop).zip
          (deal (Text.words wanted) (pieces.map (·.wordCount)))) stretch new ∧
      dealOut (front ++ stretch ++ back) pieces wanted = .ok (some (front ++ new ++ back)) := by
  -- No piece reaches beyond the stretch, so what follows the stretch may have changed.
  have hfront : ∀ piece ∈ pieces, Holds (front ++ stretch) piece.start piece.stop
      piece.text.toList ∧ Solid isBlank piece.text.toList := by
    intro piece hpiece
    have hholds := (hrecorded piece hpiece).holds
    have hstop := hascend.stop_le_of_mem (List.mem_map_of_mem hpiece)
    rw [hcontent] at hholds hstop
    rw [← size_append] at hstop
    exact ⟨hholds.of_append hstop, (hrecorded piece hpiece).solid⟩
  have hspans : (pieces.map fun piece => spanBetween (front ++ stretch) piece.start piece.stop) =
      pieces.map fun piece => spanBetween content piece.start piece.stop := by
    refine List.map_congr_left fun piece hpiece => ?_
    rw [hcontent, ((hfront piece hpiece).1.append rest).2]
  have hsize : size (front ++ stretch) < Fault.wordLimit := by
    rw [hcontent, size_append] at hlimit
    omega
  have hlocate := locateAll_recorded hsize back hfront
  rw [hspans] at hlocate
  generalize htexts : deal (Text.words wanted) (pieces.map (·.wordCount)) = texts
  have hlength : (pieces.map fun piece => spanBetween content piece.start piece.stop).length ≤
      texts.length :=
    Nat.le_of_eq (by rw [← htexts, length_deal, List.length_map, List.length_map])
  have hfst := List.map_fst_zip hlength
  obtain ⟨new, hnew, -⟩ := Replaced.exists_of_ascend front stretch rest hcontent
    (hfst.symm ▸ hascend) (fun edit hedit => by
      have hmem := List.mem_map_of_mem (f := Prod.fst) hedit
      rw [hfst] at hmem
      obtain ⟨piece, hpiece, hspan⟩ := List.mem_map.mp hmem
      exact ⟨_, hspan ▸ (hrecorded piece hpiece).holds.slice?⟩)
  refine ⟨new, hnew, ?_⟩
  -- Splicing from the last piece to the first gives the text that was announced.
  have hreplace := hnew.replaceAll? rfl back
  unfold dealOut
  rw [if_neg (by simpa using hpieces), hlocate, ok_bind]
  dsimp only
  rw [if_pos hascend.areInOrder, htexts, hreplace]
  rfl

end Rephrase.Edit
