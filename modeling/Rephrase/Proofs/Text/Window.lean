import Mathlib
import Rephrase.Proofs.Text.LineSpan
import Rephrase.Text.Window

/-! A window on a text shows lines of the text, one after another, with those that it was made for
among them; how far it reaches on either side is told by the marks in the lines. It is a part of the
text as it stands, unless the text has carriage returns at the end of lines. -/

namespace Rephrase.Text

/-! ## Raw lines -/

/-- Every raw line but the last one ends in a line feed. -/
theorem exists_of_mem_dropLast_rawLinesFrom {line cs raw : List Char}
    (h : raw ∈ (rawLinesFrom [] line cs).dropLast) : ∃ body, raw = body ++ ['\n'] := by
  induction cs generalizing line with
  | nil =>
    rw [rawLinesFrom] at h
    split at h <;> simp at h
  | cons c cs ih =>
    by_cases hc : c = '\n'
    · subst hc
      rw [rawLinesFrom_newline] at h
      by_cases hnil : rawLinesFrom [] [] cs = []
      · simp [hnil] at h
      · rw [List.dropLast_cons_of_ne_nil hnil] at h
        obtain rfl | h := List.mem_cons.mp h
        · exact ⟨line.reverse, List.reverse_cons⟩
        · exact ih h
    · rw [rawLinesFrom, if_neg hc] at h
      exact ih h

/-- Walks to the raw line of a character; `line`, reversed, is what has been passed of the current
one. -/
theorem rawLinesFrom_get (front back line : List Char) (c : Char) (number column : Nat) :
    ∃ k raw, (Position.behind ⟨number, column⟩ front).line = number + k ∧
      (rawLinesFrom [] line (front ++ c :: back))[k]? = some raw ∧ c ∈ raw := by
  induction front generalizing line number column with
  | nil =>
    by_cases hc : c = '\n'
    · subst hc
      refine ⟨0, ('\n' :: line).reverse, rfl, ?_, by simp⟩
      rw [List.nil_append, rawLinesFrom_newline]
      rfl
    · obtain ⟨w, more, hlines⟩ := exists_rawLinesFrom (List.cons_ne_nil c line) back
      refine ⟨0, (c :: line).reverse ++ w, rfl, ?_, by simp⟩
      rw [List.nil_append, rawLinesFrom, if_neg hc, hlines]
      rfl
  | cons d front ih =>
    rw [Position.behind_cons, List.cons_append]
    by_cases hd : d = '\n'
    · subst hd
      obtain ⟨k, raw, hline, hraw, hmem⟩ := ih [] (number + 1) 0
      rw [Position.next_newline, rawLinesFrom_newline]
      exact ⟨k + 1, raw, by omega, hraw, hmem⟩
    · rw [Position.next_of_ne hd, rawLinesFrom, if_neg hd]
      exact ih (d :: line) number (column + d.utf8Size)

theorem rawLines_get (front back : List Char) (c : Char) :
    ∃ raw, (rawLines (front ++ c :: back))[(positionBehind front).line - 1]? = some raw ∧
      c ∈ raw := by
  obtain ⟨k, raw, hline, hraw, hmem⟩ := rawLinesFrom_get front back [] c 1 0
  change (positionBehind front).line = 1 + k at hline
  refine ⟨raw, ?_, hmem⟩
  rw [hline, Nat.add_sub_cancel_left]
  exact hraw

/-! ## Without line breaks -/

theorem lineBody_prefix (raw : List Char) : lineBody raw <+: raw := by
  unfold lineBody
  split
  · rename_i rest hreverse
    refine ⟨['\r', '\n'], ?_⟩
    rw [← List.reverse_reverse raw, hreverse]
    simp
  · rename_i rest _ hreverse
    refine ⟨['\n'], ?_⟩
    rw [← List.reverse_reverse raw, hreverse]
    simp
  · exact List.prefix_rfl

theorem mem_lineBody {raw : List Char} {c : Char} (hc : KeepsLine c) (h : c ∈ raw) :
    c ∈ lineBody raw := by
  rw [← List.mem_reverse] at h
  unfold lineBody
  split
  · rename_i rest hreverse
    rw [hreverse] at h
    simpa [hc.1, hc.2] using h
  · rename_i rest _ hreverse
    rw [hreverse] at h
    simpa [hc.1] using h
  · exact List.mem_reverse.mp h

/-- A line feed alone is all of a line break. -/
theorem lineBody_append_newline {body : List Char} (h : ¬['\r', '\n'] <:+: body ++ ['\n']) :
    lineBody (body ++ ['\n']) ++ ['\n'] = body ++ ['\n'] := by
  have hreverse : (body ++ ['\n']).reverse = '\n' :: body.reverse := by simp
  unfold lineBody
  rw [hreverse]
  split
  · rename_i rest hrest
    refine absurd ⟨rest.reverse, [], ?_⟩ h
    rw [← List.reverse_reverse body, (List.cons.inj hrest).2]
    simp
  · rename_i rest _ hrest
    rw [← (List.cons.inj hrest).2, List.reverse_reverse]
  · rename_i hrest
    exact absurd rfl (hrest body.reverse)

theorem mem_intercalate {sep part : List Char} {parts : List (List Char)} {c : Char}
    (hpart : part ∈ parts) (hc : c ∈ part) : c ∈ sep.intercalate parts := by
  induction parts with
  | nil => simp at hpart
  | cons first rest ih =>
    cases rest with
    | nil => simpa [List.mem_singleton.mp hpart] using hc
    | cons second rest =>
      rw [List.intercalate_cons_cons]
      obtain rfl | hpart := List.mem_cons.mp hpart
      · exact List.mem_append_left _ (List.mem_append_left _ hc)
      · exact List.mem_append_right _ (ih hpart)

theorem intercalate_prefix_flatten {raws : List (List Char)}
    (h : ∀ raw ∈ raws.dropLast, lineBody raw ++ ['\n'] = raw) :
    ['\n'].intercalate (raws.map lineBody) <+: raws.flatten := by
  induction raws with
  | nil => exact List.prefix_rfl
  | cons raw raws ih =>
    cases raws with
    | nil => simpa using lineBody_prefix raw
    | cons next rest =>
      rw [List.dropLast_cons_of_ne_nil (List.cons_ne_nil next rest)] at h
      obtain ⟨hraw, hrest⟩ := List.forall_mem_cons.mp h
      rw [List.map_cons, List.map_cons, List.intercalate_cons_cons, ← List.map_cons, hraw,
        List.flatten_cons]
      exact (List.prefix_append_right_inj raw).mpr (ih hrest)

/-! ## Windows -/

/-- A text is made of some lines of a content, without the line break of the last one and with a
line feed for each of the others. The lines are those behind the first `skip` ones. -/
def IsWindow (content : List Char) (skip : Nat) (window : List (List Char)) (text : List Char) :
    Prop :=
  ∃ front back, rawLines content = front ++ window ++ back ∧ front.length = skip ∧
    text = ['\n'].intercalate (window.map lineBody)

section

variable {content text : List Char} {skip : Nat} {window : List (List Char)}

theorem IsWindow.infix (h : IsWindow content skip window text)
    (hbreaks : ¬['\r', '\n'] <:+: content) : text <:+: content := by
  obtain ⟨front, back, hlines, -, rfl⟩ := h
  have hflatten : content = front.flatten ++ window.flatten ++ back.flatten := by
    rw [← flatten_rawLines content, hlines, List.flatten_append, List.flatten_append]
  have hinfix : window.flatten <:+: content := ⟨front.flatten, back.flatten, hflatten.symm⟩
  refine (intercalate_prefix_flatten fun raw hraw => ?_).isInfix.trans hinfix
  -- All lines of the window but its last one have others behind them.
  have hmem : raw ∈ (rawLines content).dropLast := by
    have hwindow : window ≠ [] := by
      rintro rfl
      exact List.not_mem_nil hraw
    rw [hlines, ← List.dropLast_concat_getLast hwindow, List.append_assoc, List.append_assoc,
      ← List.append_assoc front, List.dropLast_append_of_ne_nil (by simp)]
    exact List.mem_append_left _ (List.mem_append_right front hraw)
  obtain ⟨body, rfl⟩ := exists_of_mem_dropLast_rawLinesFrom hmem
  obtain ⟨before, behind, hsplit⟩ := List.append_of_mem (List.dropLast_subset window hraw)
  refine lineBody_append_newline fun hreturn => hbreaks ((hreturn.trans ?_).trans hinfix)
  exact ⟨before.flatten, behind.flatten, by rw [hsplit]; simp⟩

/-- A window shows every character of its lines that breaks no line. -/
theorem IsWindow.mem {front back : List Char} {c : Char}
    (h : IsWindow (front ++ c :: back) skip window text) (hc : KeepsLine c)
    (hskip : skip < (positionBehind front).line)
    (hlast : (positionBehind front).line ≤ skip + window.length) : c ∈ text := by
  obtain ⟨above, below, hlines, rfl, rfl⟩ := h
  obtain ⟨raw, hraw, hmem⟩ := rawLines_get front back c
  rw [hlines, List.append_assoc, List.getElem?_append_right (by omega),
    List.getElem?_append_left (by omega)] at hraw
  have hbody : lineBody raw ∈ window.map lineBody :=
    List.mem_map_of_mem (List.mem_of_getElem? hraw)
  exact mem_intercalate hbody (mem_lineBody hc hmem)

end

theorem exists_isWindow_lineRange (cs : List Char) (low high : Nat) :
    ∃ skip window, IsWindow cs skip window (['\n'].intercalate (lineRange (lines cs) low high)) ∧
      skip ≤ low ∧ min (high + 1) (lines cs).length ≤ skip + window.length := by
  have htop := List.take_append_drop low ((rawLines cs).take (high + 1))
  refine ⟨(((rawLines cs).take (high + 1)).take low).length,
    ((rawLines cs).take (high + 1)).drop low, ⟨_, (rawLines cs).drop (high + 1), ?_, rfl, ?_⟩, ?_,
    ?_⟩
  · rw [htop, List.take_append_drop]
  · rw [lineRange, lines, ← List.map_take, ← List.map_drop]
  · exact List.length_take_le _ _
  · refine Nat.le_of_eq ?_
    rw [← List.length_append, htop, List.length_take, lines, List.length_map]

/-- What is shown of a text around some of its lines is a window on them. -/
theorem exists_isWindow_excerpt {cs : List Char} {first last : Nat} (hfirst : 1 ≤ first)
    (hle : first ≤ last) (hlast : last ≤ (lines cs).length) (markup : Bool) :
    ∃ skip window, IsWindow cs skip window (excerpt cs first last markup) ∧ skip < first ∧
      last ≤ skip + window.length := by
  unfold excerpt
  dsimp only
  -- However far the window reaches, it leaves out none of the lines.
  generalize (if markup then reachFor '<' _ else 0) = above
  generalize (if markup then reachFor '>' _ else 0) = below
  obtain ⟨skip, window, hwindow, hskip, hlength⟩ := exists_isWindow_lineRange cs _ _
  exact ⟨skip, window, hwindow, by omega, by omega⟩

/-! ## Blocks -/

/-- A block is made of the lines from one number to another, one after another. -/
def IsBlock (all block : List (List Char)) (first last : Nat) : Prop :=
  ∃ above below, all = above ++ block ++ below ∧ above.length + 1 = first ∧
    above.length + block.length = last

section

variable {all block block' : List (List Char)} {first last last' : Nat}

theorem isBlock_drop_take (all : List (List Char)) {low high : Nat} (hlow : low ≤ high)
    (hhigh : high ≤ all.length) : IsBlock all ((all.take high).drop low) (low + 1) high := by
  refine ⟨(all.take high).take low, all.drop high, ?_, ?_, ?_⟩
  · rw [List.take_append_drop, List.take_append_drop]
  · rw [List.length_take, List.length_take]
    omega
  · rw [List.length_take, List.length_drop, List.length_take]
    omega

/-- A block goes on where another one ends. -/
theorem IsBlock.append (h : IsBlock all block first last)
    (h' : IsBlock all block' (last + 1) last') : IsBlock all (block ++ block') first last' := by
  obtain ⟨above, below, hall, hfirst, hlast⟩ := h
  obtain ⟨above', below', hall', hfirst', hlast'⟩ := h'
  have hsplit : (above ++ block) ++ below = above' ++ (block' ++ below') := by
    rw [← hall, hall', List.append_assoc]
  have hlength : (above ++ block).length = above'.length := by
    rw [List.length_append]
    omega
  obtain ⟨rfl, rfl⟩ := List.append_inj hsplit hlength
  refine ⟨above, below', ?_, hfirst, ?_⟩
  · rw [hall', List.append_assoc above block block']
  · rw [List.length_append] at hlength ⊢
    omega

theorem IsBlock.length_eq (h : IsBlock all block first last) :
    block.length + first = last + 1 := by
  obtain ⟨above, below, -, hfirst, hlast⟩ := h
  omega

end

/-- Lines above a range and lines below it are blocks that touch the range, as long as there are
lines. -/
theorem exists_surroundings {all : List (List Char)} {first last count : Nat}
    (hpos : 1 ≤ first) (hle : first ≤ last) (hlast : last ≤ all.length)
    (hfits : last + count < Fault.wordLimit) :
    ∃ around, surroundings all first last count = .ok around ∧
      IsBlock all around.before (first - min count (first - 1)) (first - 1) ∧
      IsBlock all around.after (last + 1) (last + min count (all.length - last)) := by
  have hreach : Fault.add (min last all.length) count = .ok (last + count) := by
    rw [Nat.min_eq_left hlast, Fault.add, if_pos hfits]
  have habove : (all.take (first - 1)).length = first - 1 := by
    rw [List.length_take]
    omega
  unfold surroundings
  rw [hreach]
  refine ⟨_, rfl, ?_, ?_⟩
  · have hbefore : IsBlock all ((all.take (first - 1)).drop (first - 1 - count))
        (first - 1 - count + 1) (first - 1) := isBlock_drop_take all (Nat.sub_le _ _) (by omega)
    have hnumber : first - 1 - count + 1 = first - min count (first - 1) := by omega
    rw [hnumber] at hbefore
    show IsBlock all ((all.take (first - 1)).drop ((all.take (first - 1)).length - count)) _ _
    rwa [habove]
  · have hafter : IsBlock all ((all.take (last + min count (all.length - last))).drop last)
        (last + 1) (last + min count (all.length - last)) :=
      isBlock_drop_take all (Nat.le_add_right _ _) (by omega)
    show IsBlock all ((all.take (last + count)).drop last) _ _
    rw [List.take_eq_take_min]
    have hend : min (last + count) all.length = last + min count (all.length - last) := by omega
    rwa [hend]

/-! ## Marks -/

/-- Going on from line to line, so many lines without a mark are passed. The next line has the mark, or
it is the last one that may be gone to. -/
structure Passes (mark : Char) (ahead : Nat → Option (List Char)) (limit reach : Nat) : Prop where
  le : reach ≤ limit
  unmarked : ∀ k < reach, ∀ line ∈ ahead k, mark ∉ line
  ends : reach = limit ∨ ∃ line ∈ ahead reach, mark ∈ line

theorem Passes.congr {mark : Char} {ahead ahead' : Nat → Option (List Char)} {limit reach : Nat}
    (h : Passes mark ahead limit reach) (hsame : ∀ k ≤ limit, ahead' k = ahead k) :
    Passes mark ahead' limit reach where
  le := h.le
  unmarked k hk := by
    rw [hsame k (Nat.le_trans (Nat.le_of_lt hk) h.le)]
    exact h.unmarked k hk
  ends := by
    rw [hsame reach h.le]
    exact h.ends

/-- There is one place where the lines without a mark end. -/
theorem Passes.unique {mark : Char} {ahead : Nat → Option (List Char)} {limit reach reach' : Nat}
    (h : Passes mark ahead limit reach) (h' : Passes mark ahead limit reach') : reach = reach' := by
  have hle : ∀ {k k'}, Passes mark ahead limit k → Passes mark ahead limit k' → k ≤ k' := by
    intro k k' hk hk'
    by_contra hlt
    obtain hlimit | ⟨line, hline, hmark⟩ := hk'.ends
    · have hmax := hk.le
      omega
    · exact hk.unmarked k' (by omega) line hline hmark
  exact Nat.le_antisymm (hle h h') (hle h' h)

theorem passes_reachFor (mark : Char) (ahead : List (List Char)) :
    Passes mark (ahead[·]?) (ahead.length - 1) (reachFor mark ahead) := by
  fun_induction reachFor mark ahead with
  | case1 line next rest hmark =>
    exact ⟨Nat.zero_le _, nofun, .inr ⟨line, rfl, List.elem_iff.mp hmark⟩⟩
  | case2 line next rest hmark ih =>
    refine ⟨Nat.succ_le_succ ih.le, fun k hk => ?_, ?_⟩
    · cases k with
      | zero =>
        rintro found ⟨⟩
        exact fun hmem => hmark (List.elem_iff.mpr hmem)
      | succ k => exact ih.unmarked k (Nat.lt_of_succ_lt_succ hk)
    · obtain hlimit | hmarked := ih.ends
      · exact .inl (congrArg Nat.succ hlimit)
      · exact .inr hmarked
  | case3 ahead hshort =>
    cases ahead with
    | nil => exact ⟨Nat.le_refl _, nofun, .inl rfl⟩
    | cons line rest =>
      cases rest with
      | nil => exact ⟨Nat.le_refl _, nofun, .inl rfl⟩
      | cons next rest => exact absurd rfl (hshort line next rest)

/-! ## Excerpts -/

theorem getElem?_lineRange {all : List (List Char)} {low high k : Nat} (h : low + k ≤ high) :
    (lineRange all low high)[k]? = all[low + k]? := by
  rw [lineRange, List.getElem?_drop, List.getElem?_take_of_lt (Nat.lt_succ_of_le h)]

theorem length_lineRange {all : List (List Char)} {low high : Nat} (h : high < all.length) :
    (lineRange all low high).length = high + 1 - low := by
  rw [lineRange, List.length_drop, List.length_take]
  omega

/-- Lines that are shown for a range of lines: one more line on each side, and then others up to the
first one with the mark of this side, all within a margin and within the text. -/
structure IsExcerpt (all block : List (List Char)) (first last margin top bottom : Nat) : Prop where
  block : IsBlock all block top bottom
  top_le : top ≤ max 1 (first - 1)
  le_bottom : min (last + 1) all.length ≤ bottom
  above : Passes '<' (fun k => all[max 1 (first - 1) - k - 1]?)
    (max 1 (first - 1) - max 1 (first - margin)) (max 1 (first - 1) - top)
  below : Passes '>' (fun k => all[min (last + 1) all.length + k - 1]?)
    (min (last + margin) all.length - min (last + 1) all.length)
    (bottom - min (last + 1) all.length)

/-- How many lines an excerpt may show on each side. -/
def marginFor (markup : Bool) : Nat := if markup then 3 else 1

/-- Above a range lines are passed one after another, the nearest first. -/
theorem passes_above {all : List (List Char)} {low floor : Nat} (hfloor : floor ≤ low)
    (hlow : low < all.length) :
    Passes '<' (fun k => all[low - k]?) (low - floor)
      (reachFor '<' (lineRange all floor low).reverse) := by
  have hpasses := passes_reachFor '<' (lineRange all floor low).reverse
  have hlength : (lineRange all floor low).length = low - floor + 1 := by
    rw [length_lineRange hlow]
    omega
  rw [List.length_reverse, hlength, Nat.add_sub_cancel] at hpasses
  refine hpasses.congr fun k hk => ?_
  have hplace : floor + (low - floor + 1 - 1 - k) = low - k := by omega
  rw [List.getElem?_reverse (by omega), hlength, getElem?_lineRange (by omega), hplace]

theorem passes_below {all : List (List Char)} {high ceiling : Nat} (hceiling : high ≤ ceiling)
    (hlast : ceiling < all.length) :
    Passes '>' (fun k => all[high + k]?) (ceiling - high)
      (reachFor '>' (lineRange all high ceiling)) := by
  have hpasses := passes_reachFor '>' (lineRange all high ceiling)
  have hlength : (lineRange all high ceiling).length = ceiling - high + 1 := by
    rw [length_lineRange hlast]
    omega
  rw [hlength, Nat.add_sub_cancel] at hpasses
  exact hpasses.congr fun k hk => (getElem?_lineRange (by omega)).symm

/-- The lines from one to another that passes no mark on its way out of the range. -/
theorem isExcerpt_lineRange {all : List (List Char)} {first last margin low high up down : Nat}
    (hpos : 1 ≤ first) (hle : first ≤ last) (hlast : last ≤ all.length)
    (hlow : low = first - 1 - 1) (hhigh : high = min (last - 1 + 1) (all.length - 1))
    (habove : Passes '<' (fun k => all[low - k]?) (low - (first - 1 - margin)) up)
    (hbelow : Passes '>' (fun k => all[high + k]?)
      (min (last - 1 + margin) (all.length - 1) - high) down) :
    IsExcerpt all (lineRange all (low - up) (high + down)) first last margin
      (low - up + 1) (high + down + 1) := by
  have hup := habove.le
  have hdown := hbelow.le
  have htop : max 1 (first - 1) = low + 1 := by omega
  have hbottom : min (last + 1) all.length = high + 1 := by omega
  have hfloor : max 1 (first - margin) = first - 1 - margin + 1 := by omega
  have hceiling : min (last + margin) all.length =
      min (last - 1 + margin) (all.length - 1) + 1 := by omega
  refine ⟨isBlock_drop_take all (by omega) (by omega), by omega, by omega, ?_, ?_⟩
  · have hreach : low + 1 - (low - up + 1) = up := by omega
    rw [htop, hfloor, hreach, Nat.add_sub_add_right]
    refine habove.congr fun k _ => ?_
    have hplace : low + 1 - k - 1 = low - k := by omega
    rw [hplace]
  · have hreach : high + down + 1 - (high + 1) = down := by omega
    rw [hbottom, hceiling, hreach, Nat.add_sub_add_right]
    refine hbelow.congr fun k _ => ?_
    have hplace : high + 1 + k - 1 = high + k := by omega
    rw [hplace]

theorem exists_isExcerpt {cs : List Char} {first last : Nat} (hpos : 1 ≤ first)
    (hle : first ≤ last) (hlast : last ≤ (lines cs).length) (markup : Bool) :
    ∃ block top bottom, excerpt cs first last markup = ['\n'].intercalate block ∧
      IsExcerpt (lines cs) block first last (marginFor markup) top bottom := by
  unfold excerpt
  dsimp only
  generalize lines cs = all at hlast ⊢
  have htop : min (first - 1) (all.length - 1) = first - 1 := by omega
  have hbottom : max (first - 1) (min (last - 1) (all.length - 1)) = last - 1 := by omega
  rw [htop, hbottom]
  refine ⟨_, _, _, rfl, isExcerpt_lineRange hpos hle hlast rfl rfl ?_ ?_⟩
  · cases markup with
    | true =>
      show Passes '<' _ (first - 1 - 1 - (first - 1 - 3)) _
      exact passes_above (by omega) (by omega)
    -- A margin of one line leaves nothing to pass.
    | false => exact ⟨Nat.zero_le _, nofun, .inl (Nat.sub_self _).symm⟩
  · cases markup with
    | true =>
      show Passes '>' _ (min (last - 1 + 3) (all.length - 1) - _) _
      exact passes_below (by omega) (by omega)
    | false =>
      refine ⟨Nat.zero_le _, nofun, .inl ?_⟩
      show 0 = min (last - 1 + 1) _ - min (last - 1 + 1) _
      rw [Nat.sub_self]

/-- Around any lines of a text that can be kept, the lines that are told of and the lines that are
shown stand together in the text, with the range among them. -/
theorem windows_of_lines {cs : List Char} {first last : Nat} (hsize : size cs < 2 ^ 63)
    (hpos : 1 ≤ first) (hle : first ≤ last) (hlast : last ≤ (lines cs).length) :
    (∀ count < 2 ^ 63, ∃ around inner,
      surroundings (lines cs) first last count = .ok around ∧
        around.before.length = min count (first - 1) ∧
        around.after.length = min count ((lines cs).length - last) ∧
        IsBlock (lines cs) inner first last ∧
        IsBlock (lines cs) (around.before ++ inner ++ around.after)
          (first - around.before.length) (last + around.after.length)) ∧
    ∀ markup, ∃ block top bottom, excerpt cs first last markup = ['\n'].intercalate block ∧
      top ≤ first ∧ last ≤ bottom ∧ bottom ≤ (lines cs).length ∧
      first ≤ top + marginFor markup ∧ bottom ≤ last + marginFor markup ∧
      IsExcerpt (lines cs) block first last (marginFor markup) top bottom := by
  constructor
  · intro count hcount
    have hlines := length_lines_le cs
    have hfits : last + count < Fault.wordLimit := by
      unfold Fault.wordLimit
      omega
    obtain ⟨around, haround, hbefore, hafter⟩ := exists_surroundings hpos hle hlast hfits
    -- The lines in front, those of the range and those behind are blocks that touch.
    have hinner : IsBlock (lines cs) (((lines cs).take last).drop (first - 1)) (first - 1 + 1)
        last := isBlock_drop_take (lines cs) (by omega) hlast
    rw [Nat.sub_add_cancel hpos] at hinner
    have hlength := hbefore.length_eq
    have hlength' := hafter.length_eq
    have hfront : around.before.length = min count (first - 1) := by omega
    have hback : around.after.length = min count ((lines cs).length - last) := by omega
    refine ⟨around, _, haround, hfront, hback, hinner, ?_⟩
    rw [hfront, hback]
    apply IsBlock.append _ hafter
    apply IsBlock.append hbefore
    rwa [Nat.sub_add_cancel hpos]
  · intro markup
    obtain ⟨block, top, bottom, hexcerpt, hshown⟩ := exists_isExcerpt hpos hle hlast markup
    have habove := hshown.above.le
    have hbelow := hshown.below.le
    have htop := hshown.top_le
    have hbottom := hshown.le_bottom
    have hmargin : 1 ≤ marginFor markup := by cases markup <;> decide
    exact ⟨block, top, bottom, hexcerpt, by omega, by omega, by omega, by omega, by omega, hshown⟩

/-- The lines around the words of a page, as they are told of and as they are shown. -/
theorem windows_of_page :
    let page := "<div>\n  plain\n  Sign in\n  more\n</div>\nafter".toList
    size page < 2 ^ 63 ∧ 3 ≤ (lines page).length ∧
      (∃ around inner, surroundings (lines page) 3 3 1 = .ok around ∧
        around.before.length = 1 ∧ around.after.length = 1 ∧
        IsBlock (lines page) inner 3 3 ∧
        IsBlock (lines page) (around.before ++ inner ++ around.after) 2 4) ∧
      ∃ block, excerpt page 3 3 true = ['\n'].intercalate block ∧
        IsBlock (lines page) block 1 5 := by
  intro page
  have hsize : size page < 2 ^ 63 := by decide
  have hlines : 3 ≤ (lines page).length := by decide
  obtain ⟨habout, hshown⟩ := windows_of_lines hsize (by decide) (Nat.le_refl 3) hlines
  refine ⟨hsize, hlines, ?_, ?_⟩
  · obtain ⟨around, inner, haround, hbefore, hafter, hinner, hblock⟩ := habout 1 (by decide)
    rw [hbefore, hafter] at hblock
    exact ⟨around, inner, haround, hbefore, hafter, hinner, hblock⟩
  · obtain ⟨block, top, bottom, hexcerpt, htop, hbottom, hend, hup, hdown, hwindow⟩ := hshown true
    -- Upwards the line that opens the element is come to, downwards the one that closes it.
    have habove : Passes '<' (fun k => (lines page)[2 - k - 1]?) 1 (2 - top) := hwindow.above
    have hbelow : Passes '>' (fun k => (lines page)[4 + k - 1]?) 2 (bottom - 4) := hwindow.below
    have hup : 2 - top = 1 := habove.unique ⟨Nat.le_refl 1, by decide, .inl rfl⟩
    have hdown : bottom - 4 = 1 :=
      hbelow.unique ⟨by decide, by decide, .inr ⟨"</div>".toList, by decide, by decide⟩⟩
    have hblock := hwindow.block
    have hfirst : top = 1 := by omega
    have hlast : bottom = 5 := by omega
    rw [hfirst, hlast] at hblock
    exact ⟨block, hexcerpt, hblock⟩

end Rephrase.Text
