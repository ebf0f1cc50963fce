import Mathlib.Data.List.Basic
import Rephrase.Proofs.Text.LineSpan

/-! Lines of a text as an edit finds them. A line can be written anew, with its end kept; the lines
around it stay lines of their own. -/

namespace Rephrase.Text

/-! ## Raw lines -/

theorem rawLinesFrom_line {body : List Char} (h : '\n' ∉ body) (line rest : List Char) :
    rawLinesFrom [] line (body ++ '\n' :: rest) =
      (line.reverse ++ body ++ ['\n']) :: rawLinesFrom [] [] rest := by
  induction body generalizing line with
  | nil =>
    rw [List.nil_append, rawLinesFrom_newline]
    simp
  | cons c body ih =>
    obtain ⟨hc, hbody⟩ := not_or.mp (mt List.mem_cons.mpr h)
    rw [List.cons_append, rawLinesFrom, if_neg (Ne.symm hc), ih hbody]
    simp

theorem rawLines_of_not_mem {cs : List Char} (h : '\n' ∉ cs) (hne : cs ≠ []) :
    rawLines cs = [cs] := by
  have hfrom : ∀ line : List Char, '\n' ∉ cs → line.reverse ++ cs ≠ [] →
      rawLinesFrom [] line cs = [line.reverse ++ cs] := by
    clear h hne
    induction cs with
    | nil =>
      intro line _ hne
      rw [List.append_nil] at hne ⊢
      rw [rawLinesFrom, if_neg (by simpa using hne)]
      rfl
    | cons c cs ih =>
      intro line h _
      obtain ⟨hc, hcs⟩ := not_or.mp (mt List.mem_cons.mpr h)
      rw [rawLinesFrom, if_neg (Ne.symm hc), ih (c :: line) hcs (by simp)]
      simp
  exact hfrom [] h hne

/-- Whether a text can be a raw line in front of some others: a line feed ends it, and only the last
line can do without. -/
def IsRaw (raw : List Char) (rest : List (List Char)) : Prop :=
  (∃ body, '\n' ∉ body ∧ raw = body ++ ['\n']) ∨ (rest = [] ∧ raw ≠ [] ∧ '\n' ∉ raw)

theorem rawLines_cons {raw : List Char} {rest : List (List Char)} (h : IsRaw raw rest) :
    rawLines (raw ++ rest.flatten) = raw :: rawLines rest.flatten := by
  obtain ⟨body, hbody, rfl⟩ | ⟨rfl, hne, hfeed⟩ := h
  · rw [List.append_assoc, List.singleton_append, rawLines, rawLinesFrom_line hbody]
    rfl
  · rw [List.flatten_nil, List.append_nil, rawLines_of_not_mem hfeed hne]
    rfl

/-- The first line of a text, and what is behind it. -/
theorem of_rawLines_cons {cs raw : List Char} {rest : List (List Char)}
    (h : rawLines cs = raw :: rest) : IsRaw raw rest ∧ rawLines rest.flatten = rest := by
  by_cases hfeed : '\n' ∈ cs
  · obtain ⟨body, back, rfl, hbody⟩ := List.eq_append_cons_of_mem hfeed
    rw [rawLines, rawLinesFrom_line hbody] at h
    obtain ⟨rfl, rfl⟩ := List.cons.inj h
    exact ⟨.inl ⟨body, hbody, rfl⟩, congrArg rawLines (flatten_rawLines back)⟩
  · have hne : cs ≠ [] := by
      rintro rfl
      cases h
    rw [rawLines_of_not_mem hfeed hne] at h
    obtain ⟨rfl, rfl⟩ := List.cons.inj h
    exact ⟨.inr ⟨rfl, hne, hfeed⟩, rfl⟩

theorem isRaw_of_rawLines {cs raw : List Char} {before after : List (List Char)}
    (h : rawLines cs = before ++ raw :: after) : IsRaw raw after := by
  induction before generalizing cs with
  | nil => exact (of_rawLines_cons h).1
  | cons first before ih => exact ih (of_rawLines_cons h).2

/-- Another line can stand where a line stands. -/
theorem rawLines_exchange {cs raw other : List Char} {before after : List (List Char)}
    (h : rawLines cs = before ++ raw :: after) (hother : IsRaw other after) :
    rawLines (before ++ other :: after).flatten = before ++ other :: after := by
  induction before generalizing cs with
  | nil =>
    obtain ⟨-, hafter⟩ := of_rawLines_cons h
    rw [List.nil_append, List.flatten_cons, rawLines_cons hother, hafter]
  | cons first before ih =>
    obtain ⟨hfirst, hrest⟩ := of_rawLines_cons h
    -- There is a line behind the first one, so a line feed ends it.
    have hfirst' : IsRaw first (before ++ other :: after) :=
      hfirst.imp_right fun hlast => absurd hlast.1 (by simp)
    rw [List.cons_append, List.flatten_cons, rawLines_cons hfirst', ih hrest]

/-- Behind a line feed the lines start anew. -/
theorem rawLines_append_newline (front back : List Char) :
    rawLines (front ++ '\n' :: back) = rawLines (front ++ ['\n']) ++ rawLines back := by
  have hfrom : ∀ line, rawLinesFrom [] line (front ++ '\n' :: back) =
      rawLinesFrom [] line (front ++ ['\n']) ++ rawLinesFrom [] [] back := by
    induction front with
    | nil =>
      intro line
      rw [List.nil_append, List.nil_append, rawLinesFrom_newline, rawLinesFrom_newline]
      rfl
    | cons c front ih =>
      intro line
      by_cases hc : c = '\n'
      · subst hc
        simp only [List.cons_append, rawLinesFrom_newline, ih []]
      · simp only [List.cons_append, rawLinesFrom, if_neg hc, ih (c :: line)]
  exact hfrom []

/-- A line stays one of its own when another text is added, if the last line is ended first. -/
theorem mem_rawLines_append {cs raw : List Char} (more : List Char) (hraw : raw ∈ rawLines cs)
    (hended : cs.getLast? = some '\n' ∨ more.head? = some '\n') :
    raw ∈ rawLines (cs ++ more) ∨ raw ++ ['\n'] ∈ rawLines (cs ++ more) := by
  -- On the lines in front of the added text.
  generalize hlines : rawLines cs = raws at hraw
  induction raws generalizing cs with
  | nil => cases hraw
  | cons first rest ih =>
    obtain ⟨hfirst, hrest⟩ := of_rawLines_cons hlines
    have hcs := flatten_rawLines cs
    rw [hlines, List.flatten_cons] at hcs
    obtain ⟨body, hbody, rfl⟩ | ⟨rfl, -, hfeed⟩ := hfirst
    · have happend : rawLines (cs ++ more) =
          (body ++ ['\n']) :: rawLines (rest.flatten ++ more) := by
        rw [← hcs, List.append_assoc, List.append_assoc, List.singleton_append, rawLines,
          rawLinesFrom_line hbody]
        rfl
      rw [happend]
      obtain rfl | hraw := List.mem_cons.mp hraw
      · exact .inl List.mem_cons_self
      have hended' : rest.flatten.getLast? = some '\n' ∨ more.head? = some '\n' := by
        refine hended.imp_left fun hlast => ?_
        have hne : rest.flatten ≠ [] := by
          intro hnil
          rw [hnil] at hrest
          rw [← hrest] at hraw
          cases hraw
        rwa [← hcs, List.getLast?_append_of_ne_nil _ hne] at hlast
      exact (ih hended' hrest hraw).imp (List.mem_cons_of_mem _) (List.mem_cons_of_mem _)
    · obtain rfl := List.mem_singleton.mp hraw
      rw [List.flatten_nil, List.append_nil] at hcs
      subst hcs
      have hhead := hended.resolve_left fun hlast => hfeed (List.mem_of_getLast? hlast)
      obtain ⟨tail, rfl⟩ := List.head?_eq_some_iff.mp hhead
      refine .inr ?_
      rw [rawLines, rawLinesFrom_line hfeed]
      exact List.mem_cons_self

/-! ## Lines without their ends -/

theorem lineCore_prefix (raw : List Char) : lineCore raw <+: raw := by
  have hdrop : ∀ rest : List Char, (rest.dropWhile (· == '\r')).reverse <+: rest.reverse :=
    fun rest => List.reverse_prefix.mpr (List.dropWhile_suffix _)
  unfold lineCore
  split
  · rename_i rest hrest
    have hraw : raw = rest.reverse ++ ['\n'] := by
      rw [← List.reverse_reverse raw, hrest, List.reverse_cons]
    rw [hraw]
    exact (hdrop rest).trans (List.prefix_append _ _)
  · have hprefix := hdrop raw.reverse
    rwa [List.reverse_reverse] at hprefix

theorem of_getElem?_lineSpansFrom {offset : Nat} {raws : List (List Char)} {place : Nat}
    {span : Span} (h : (lineSpansFrom offset raws)[place]? = some span) :
    ∃ raw, raws[place]? = some raw ∧ span.start = offset + size (raws.take place).flatten ∧
      span.stop = span.start + size (lineCore raw) := by
  induction raws generalizing offset place with
  | nil => nomatch h
  | cons raw raws ih =>
    cases place with
    | zero =>
      obtain rfl := Option.some.inj h
      exact ⟨raw, rfl, rfl, rfl⟩
    | succ place =>
      obtain ⟨other, hother, hstart, hstop⟩ := ih h
      refine ⟨other, hother, ?_, hstop⟩
      rw [hstart, List.take_succ_cons, List.flatten_cons, size_append, Nat.add_assoc]

/-- From the start of a line to the end of one that is not above it there is a text. -/
theorem exists_slice?_lineSpans {cs : List Char} {first last : Nat} {top bottom : Span}
    (htop : (lineSpans cs)[first]? = some top) (hbottom : (lineSpans cs)[last]? = some bottom)
    (hle : first ≤ last) : ∃ text, slice? cs top.start bottom.stop = some text := by
  obtain ⟨-, -, hstart, -⟩ := of_getElem?_lineSpansFrom htop
  obtain ⟨raw, hraw, hstart', hstop⟩ := of_getElem?_lineSpansFrom hbottom
  obtain ⟨tail, htail⟩ := lineCore_prefix raw
  obtain ⟨hlt, hget⟩ := List.getElem?_eq_some_iff.mp hraw
  -- The text is that of the lines between, and of the last one up to its break.
  have hsplit : (rawLines cs).take last =
      (rawLines cs).take first ++ ((rawLines cs).take last).drop first := by
    conv_lhs => rw [← List.take_append_drop first ((rawLines cs).take last), List.take_take,
      Nat.min_eq_left hle]
  have hcs : cs = ((rawLines cs).take first).flatten ++
      ((((rawLines cs).take last).drop first).flatten ++ lineCore raw) ++
        (tail ++ ((rawLines cs).drop (last + 1)).flatten) := by
    conv_lhs => rw [← flatten_rawLines cs, ← List.take_append_drop last (rawLines cs),
      List.drop_eq_getElem_cons hlt, hget, hsplit, ← htail]
    simp only [List.flatten_append, List.flatten_cons, List.append_assoc]
  have hsize := congrArg (fun lines => size lines.flatten) hsplit
  rw [List.flatten_append, size_append] at hsize
  have hslice := slice?_append ((rawLines cs).take first).flatten
    ((((rawLines cs).take last).drop first).flatten ++ lineCore raw)
    (tail ++ ((rawLines cs).drop (last + 1)).flatten)
  rw [← hcs] at hslice
  rw [hstop, hstart, hstart', hsize, Nat.zero_add, Nat.zero_add, Nat.add_assoc, ← size_append]
  exact ⟨_, hslice⟩

theorem start_le_size {cs : List Char} {place : Nat} {span : Span}
    (h : (lineSpans cs)[place]? = some span) : span.start ≤ size cs := by
  obtain ⟨-, -, hstart, -⟩ := of_getElem?_lineSpansFrom h
  have hcs := congrArg size (congrArg List.flatten (List.take_append_drop place (rawLines cs)))
  rw [List.flatten_append, size_append, flatten_rawLines] at hcs
  omega

theorem lineCore_newline (body : List Char) :
    lineCore (body ++ ['\n']) = stripEnd (· == '\r') body := by
  unfold lineCore
  rw [List.reverse_append]
  rfl

theorem lineCore_of_not_mem {raw : List Char} (h : '\n' ∉ raw) :
    lineCore raw = stripEnd (· == '\r') raw := by
  unfold lineCore
  split
  · rename_i rest hrest
    exact absurd (List.mem_reverse.mp (hrest ▸ List.mem_cons_self)) h
  · rfl

/-- In front of a line's end another text without a line feed can stand as well. -/
theorem IsRaw.exists_end {raw : List Char} {rest : List (List Char)} (h : IsRaw raw rest) :
    ∃ stop, raw = lineCore raw ++ stop ∧ '\n' ∉ lineCore raw ∧
      ∀ line, '\n' ∉ line → line ++ stop ≠ [] → IsRaw (line ++ stop) rest := by
  obtain ⟨body, hbody, rfl⟩ | ⟨rfl, -, hfeed⟩ := h
  · obtain ⟨returns, hsplit, -⟩ := stripEnd_append_stripped (· == '\r') body
    rw [lineCore_newline]
    have hsplit' := hsplit ▸ hbody
    rw [List.mem_append, not_or] at hsplit'
    refine ⟨returns ++ ['\n'], ?_, hsplit'.1, fun line hline _ => .inl ⟨line ++ returns, ?_, ?_⟩⟩
    · rw [← List.append_assoc, ← hsplit]
    · rw [List.mem_append]
      exact not_or.mpr ⟨hline, hsplit'.2⟩
    · rw [List.append_assoc]
  · obtain ⟨returns, hsplit, -⟩ := stripEnd_append_stripped (· == '\r') raw
    rw [lineCore_of_not_mem hfeed]
    have hsplit' := hsplit ▸ hfeed
    rw [List.mem_append, not_or] at hsplit'
    refine ⟨returns, hsplit, hsplit'.1, fun line hline hne => .inr ⟨rfl, hne, ?_⟩⟩
    rw [List.mem_append]
    exact not_or.mpr ⟨hline, hsplit'.2⟩

/-- A line of a text between others: what stands on it, and how it ends. -/
structure IsLine (cs : List Char) (before : List (List Char)) (text stop : List Char)
    (after : List (List Char)) : Prop where
  lines : rawLines cs = before ++ (text ++ stop) :: after
  core : lineCore (text ++ stop) = text

section

variable {cs text stop : List Char} {before after : List (List Char)}

theorem IsLine.content (h : IsLine cs before text stop after) :
    cs = before.flatten ++ text ++ (stop ++ after.flatten) := by
  rw [← flatten_rawLines cs, h.lines]
  simp only [List.flatten_append, List.flatten_cons, List.append_assoc]

theorem IsLine.slice?_eq (h : IsLine cs before text stop after) {span : Span}
    (hstart : span.start = size before.flatten) (hstop : span.stop = span.start + size text) :
    slice? cs span.start span.stop = some text := by
  have hslice := slice?_append before.flatten text (stop ++ after.flatten)
  rwa [← h.content, ← hstart, ← hstop] at hslice

theorem IsLine.splice?_eq (h : IsLine cs before text stop after) {span : Span}
    (hstart : span.start = size before.flatten) (hstop : span.stop = span.start + size text)
    (line : List Char) : splice? cs span.start span.stop line =
      some (before.flatten ++ line ++ (stop ++ after.flatten)) := by
  have hsplice := splice?_append before.flatten text (stop ++ after.flatten) line
  rwa [← h.content, ← hstart, ← hstop] at hsplice

/-- There is one line behind so many others. -/
theorem IsLine.unique (h : IsLine cs before text stop after) {text' stop' : List Char}
    {before' after' : List (List Char)} (h' : IsLine cs before' text' stop' after')
    (hlength : before.length = before'.length) :
    before = before' ∧ text = text' ∧ stop = stop' ∧ after = after' := by
  have hlines := h.lines.symm.trans h'.lines
  rcases List.append_inj hlines hlength with ⟨rfl, hrest⟩
  rcases List.cons.inj hrest with ⟨hline, rfl⟩
  have htext : text = text' := by rw [← h.core, hline, h'.core]
  subst htext
  exact ⟨rfl, rfl, List.append_cancel_left hline, rfl⟩

theorem IsLine.feed (h : IsLine cs before text stop after) : '\n' ∉ text := by
  obtain ⟨-, -, hfeed, -⟩ := (isRaw_of_rawLines h.lines).exists_end
  rwa [h.core] at hfeed

/-- The other lines stay as they are when a line is written anew, unless nothing is left of it. -/
theorem IsLine.rewritten (h : IsLine cs before text stop after) {line : List Char}
    (hline : '\n' ∉ line) (hne : line ++ stop ≠ []) :
    rawLines (before.flatten ++ line ++ (stop ++ after.flatten)) =
      before ++ (line ++ stop) :: after := by
  obtain ⟨stop', hstop, -, hraw⟩ := (isRaw_of_rawLines h.lines).exists_end
  rw [h.core, List.append_cancel_left_eq] at hstop
  have hlines := rawLines_exchange h.lines (hraw line hline (hstop ▸ hne))
  rw [← hstop, List.flatten_append, List.flatten_cons] at hlines
  simpa only [List.append_assoc] using hlines

end

theorem exists_isLine {cs : List Char} {place : Nat} {span : Span}
    (h : (lineSpans cs)[place]? = some span) : ∃ before text stop after,
      IsLine cs before text stop after ∧ before.length = place ∧
      span.start = size before.flatten ∧ span.stop = span.start + size text := by
  obtain ⟨raw, hraw, hstart, hstop⟩ := of_getElem?_lineSpansFrom h
  obtain ⟨hlt, hget⟩ := List.getElem?_eq_some_iff.mp hraw
  obtain ⟨stop, hsplit⟩ := lineCore_prefix raw
  have hlines : rawLines cs = (rawLines cs).take place ++ (lineCore raw ++ stop) ::
      (rawLines cs).drop (place + 1) := by
    rw [hsplit, ← hget, ← List.drop_eq_getElem_cons hlt, List.take_append_drop]
  refine ⟨_, lineCore raw, stop, _, ⟨hlines, by rw [hsplit]⟩, ?_, ?_, hstop⟩
  · rw [List.length_take, Nat.min_eq_left (Nat.le_of_lt hlt)]
  · rw [hstart, Nat.zero_add]

end Rephrase.Text
