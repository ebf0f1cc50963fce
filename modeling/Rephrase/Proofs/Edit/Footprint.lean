import Mathlib
import Rephrase.Proofs.Edit.Deal
import Rephrase.Proofs.Edit.Nearest
import Rephrase.Proofs.Edit.Range
import Rephrase.Proofs.Edit.Way
import Rephrase.Proofs.Phrase.Pattern
import Rephrase.Proofs.Text.Infix

/-! Each way to edit a text has found what it replaces, and leaves everything else as it is. -/

namespace Rephrase.Edit

open Text

/-! ## What is found, and what is left -/

/-- A line is written anew around a snippet that stands on it up to its blanks. -/
structure Rewords (cs old wanted updated : List Char) (before : List (List Char))
    (text line stop : List Char) (after : List (List Char)) : Prop where
  stands : IsLine cs before text stop after
  found : collapse old ≠ [] ∧ ∃ front back, collapse text = front ++ collapse old ++ back ∧
    line = text.takeWhile isBlank ++ front ++ collapse wanted ++ back
  feed : '\n' ∉ line
  content : updated = before.flatten ++ line ++ (stop ++ after.flatten)
  /-- All other lines stay lines of their own, and so does this one unless nothing is left of it. -/
  others : line ++ stop ≠ [] → rawLines updated = before ++ (line ++ stop) :: after

/-- A text near a line is replaced by another one; in whatever case it stands there. -/
structure Recases (cs old wanted updated : List Char) (line : Nat) (before : List (List Char))
    (front found back stop : List Char) (after : List (List Char)) : Prop where
  stands : IsLine cs before (front ++ found ++ back) stop after
  same : List.Forall₂ (fun a b => sameFolded a b = true) old found
  near : line < 0x8000000000000000 → distance (before.length + 1) line ≤ 2
  content : updated = before.flatten ++ (front ++ wanted ++ back) ++ (stop ++ after.flatten)

/-- What an edit in some way has found in a text, and what it leaves of the text. -/
inductive Reaches (cs : List Char) (node : Node) (p : Proposal) (updated : List Char) : Way → Prop
  | snippet {old wanted : String} (hold : p.oldSnippet = some old)
      (hwanted : p.newSnippet = some wanted) (front back : List Char) (hne : old.toList ≠ [])
      (hcs : cs = front ++ old.toList ++ back) (hupdated : updated = front ++ wanted.toList ++ back) :
      Reaches cs node p updated .snippet
  | normalizedSnippet {old wanted : String} (hold : p.oldSnippet = some old)
      (hwanted : p.newSnippet = some wanted) (before : List (List Char))
      (text line stop : List Char) (after : List (List Char))
      (hrewords : Rewords cs old.toList wanted.toList updated before text line stop after) :
      Reaches cs node p updated .normalizedSnippet
  | fragments {pieces : List Piece} (hpieces : node.pieces = some pieces) (spans : List Span)
      (hstand : List.Forall₂ (fun piece span => piece.text.toList ≠ [] ∧
        slice? cs span.start span.stop = some piece.text.toList) pieces spans)
      (hreplaced : Replaced 0
        (spans.zip (deal (words p.newContent.toList) (pieces.map (·.wordCount)))) cs updated) :
      Reaches cs node p updated .fragments
  | direct (front back : List Char) (hne : p.oldContent.toList ≠ [])
      (hcs : cs = front ++ p.oldContent.toList ++ back)
      (hupdated : updated = front ++ p.newContent.toList ++ back) :
      Reaches cs node p updated .direct
  | lineFallback (before : List (List Char)) (front found back stop : List Char)
      (after : List (List Char)) (hrecases : Recases cs (trim p.oldContent.toList)
        (trim p.newContent.toList) updated node.start.line before front found back stop after) :
      Reaches cs node p updated .lineFallback

/-! ## Snippets -/

theorem newline_not_mem_collapse (cs : List Char) : '\n' ∉ collapse cs := by
  intro h
  obtain hspace | ⟨w, hw, hmem⟩ := of_mem_unwords h
  · exact absurd hspace (by decide)
  · exact absurd ((isWord_of_mem_words hw).2 _ hmem) (by decide)

theorem of_replaceCollapsed? {text target replacement line : List Char}
    (h : replaceCollapsed? text target replacement = some line) :
    ∃ front back, collapse text = front ++ target ++ back ∧
      line = text.takeWhile isBlank ++ front ++ replacement ++ back := by
  unfold replaceCollapsed? at h
  dsimp only at h
  split at h
  · cases h
  rename_i front rest hcut
  obtain ⟨offset, hfind, hcut⟩ := Option.bind_eq_some_iff.mp hcut
  obtain ⟨front', back, hfound, hoffset⟩ := of_findFrom hfind
  obtain ⟨hsplit, hsize⟩ := of_cut? hcut
  obtain ⟨rfl, rfl⟩ := append_inj_of_size
    (hsplit.symm.trans (hfound.trans (List.append_assoc _ _ _))) (by omega)
  refine ⟨front, back, hfound, ?_⟩
  rw [List.drop_left] at h
  exact (Option.some.inj h).symm

/-- The text in which a collapsed text is replaced on the line of an index. -/
def replaceAt? (cs target replacement : List Char) (place : Nat) : Option (List Char) :=
  (lineSpans cs)[place]?.bind fun span => do
    let text ← slice? cs span.start span.stop
    let line ← replaceCollapsed? text target replacement
    splice? cs span.start span.stop line

theorem replaceAt?_of_isLine {cs text stop : List Char} {before after : List (List Char)}
    (h : IsLine cs before text stop after) (target replacement : List Char) :
    replaceAt? cs target replacement before.length =
      (replaceCollapsed? text target replacement).map fun line =>
        before.flatten ++ line ++ (stop ++ after.flatten) := by
  have hlt : before.length < (lineSpans cs).length := by
    rw [length_lineSpans, lines, List.length_map, h.lines]
    simp
  obtain ⟨before', text', stop', after', h', hlength, hstart, hstop⟩ :=
    exists_isLine (List.getElem?_eq_getElem hlt)
  obtain ⟨rfl, rfl, rfl, rfl⟩ := h.unique h' hlength.symm
  rw [replaceAt?, List.getElem?_eq_getElem hlt]
  change (slice? cs _ _).bind _ = _
  rw [h.slice?_eq hstart hstop]
  change (replaceCollapsed? text target replacement).bind _ = _
  simp only [h.splice?_eq hstart hstop]
  cases replaceCollapsed? text target replacement <;> rfl

theorem replaceOnLine?_filterMap (cs target replacement : List Char) (places : List Nat) :
    replaceOnLine? cs target replacement (places.filterMap ((lineSpans cs)[·]?)) =
      places.findSome? (replaceAt? cs target replacement) := by
  induction places with
  | nil => rfl
  | cons place places ih =>
    rw [List.findSome?_cons, ← ih, List.filterMap_cons, replaceAt?]
    cases (lineSpans cs)[place]? with
    | none => rfl
    | some span => exact List.findSome?_cons

theorem exists_rewords {cs old wanted updated : List Char} {line : Nat}
    (h : replaceLoosely? cs old wanted line = some updated) : ∃ before text new stop after,
      Rewords cs old wanted updated before text new stop after := by
  unfold replaceLoosely? at h
  dsimp only at h
  split at h
  · cases h
  rename_i htarget
  rw [replaceOnLine?_filterMap] at h
  obtain ⟨place, -, hhere⟩ := List.exists_of_findSome?_eq_some h
  obtain ⟨span, hspan, -⟩ := Option.bind_eq_some_iff.mp hhere
  obtain ⟨before, text, stop, after, hline, rfl, -, -⟩ := exists_isLine hspan
  rw [replaceAt?_of_isLine hline] at hhere
  obtain ⟨new, hnew, rfl⟩ := Option.map_eq_some_iff.mp hhere
  obtain ⟨front, back, hfound, rfl⟩ := of_replaceCollapsed? hnew
  have hfeed : '\n' ∉ text.takeWhile isBlank ++ front ++ collapse wanted ++ back := by
    have hcollapsed := newline_not_mem_collapse text
    rw [hfound] at hcollapsed
    simp only [List.mem_append, not_or] at hcollapsed ⊢
    exact ⟨⟨⟨fun h => hline.feed (List.takeWhile_subset _ h), hcollapsed.1.1⟩,
      newline_not_mem_collapse wanted⟩, hcollapsed.2⟩
  exact ⟨before, text, _, stop, after, hline,
    ⟨mt List.isEmpty_iff.mpr htarget, front, back, hfound, rfl⟩, hfeed, rfl, hline.rewritten hfeed⟩

theorem reaches_of_snippet {cs updated : List Char} {node : Node} {p : Proposal}
    (h : alone cs node p .snippet = .ok (some updated)) : Reaches cs node p updated .snippet := by
  obtain ⟨old, hold, h⟩ := Option.bind_eq_some_iff.mp (Except.ok.inj h)
  obtain ⟨wanted, hwanted, h⟩ := Option.bind_eq_some_iff.mp h
  obtain ⟨front, back, hcs, hplace, rfl⟩ := of_replaceNearest? h
  exact .snippet hold hwanted front back (ne_nil_of_nearestPlace? hplace) hcs rfl

theorem reaches_of_normalizedSnippet {cs updated : List Char} {node : Node} {p : Proposal}
    (h : alone cs node p .normalizedSnippet = .ok (some updated)) :
    Reaches cs node p updated .normalizedSnippet := by
  obtain ⟨old, hold, h⟩ := Option.bind_eq_some_iff.mp (Except.ok.inj h)
  obtain ⟨wanted, hwanted, h⟩ := Option.bind_eq_some_iff.mp h
  obtain ⟨before, text, line, stop, after, hrewords⟩ := exists_rewords h
  exact .normalizedSnippet hold hwanted before text line stop after hrewords

/-! ## Fragments -/

theorem of_locate {cs : List Char} {piece : Piece} {span : Span}
    (h : locate cs (lineSpans cs) piece = .ok (some span)) : piece.text.toList ≠ [] ∧
      slice? cs span.start span.stop = some piece.text.toList := by
  unfold locate at h
  dsimp only at h
  split at h
  · cases h
  rename_i hempty
  refine ⟨mt List.isEmpty_iff.mpr hempty, ?_⟩
  split at h
  · cases h
  rename_i region hregion
  obtain ⟨recorded, hrecorded, h⟩ := bind_eq_ok.mp h
  obtain ⟨stop, hstop, h⟩ := bind_eq_ok.mp h
  -- The text stands where it was recorded, or it is found within the lines of the piece.
  split at h
  · rename_i hhere
    obtain rfl := Option.some.inj (Except.ok.inj h)
    exact (of_decide_eq_true (Bool.and_eq_true_iff.mp hhere).2)
  · split at h
    · cases h
    · rename_i inner hinner
      obtain ⟨found, hfound, rfl⟩ := Option.map_eq_some_iff.mp (Except.ok.inj h)
      obtain ⟨front, back, rfl, hoffset⟩ := of_findFrom hfound
      obtain ⟨above, below, hcs, habove, -⟩ := of_slice? hinner
      have hslice := slice?_append (above ++ front) piece.text.toList (back ++ below)
      rw [size_append, habove, ← Nat.zero_add (size front), ← hoffset] at hslice
      rw [hcs]
      simpa only [List.append_assoc] using hslice

theorem forall₂_of_locateAll {cs : List Char} {pieces : List Piece} {spans : List Span}
    (h : locateAll cs (lineSpans cs) pieces = .ok (some spans)) :
    List.Forall₂ (fun piece span => piece.text.toList ≠ [] ∧
      slice? cs span.start span.stop = some piece.text.toList) pieces spans := by
  induction pieces generalizing spans with
  | nil =>
    obtain rfl := Option.some.inj (Except.ok.inj h)
    exact .nil
  | cons piece rest ih =>
    rw [locateAll] at h
    obtain ⟨place, hplace, h⟩ := bind_eq_ok.mp h
    split at h
    · cases h
    · obtain ⟨others, hothers, h⟩ := bind_eq_ok.mp h
      obtain ⟨more, rfl, rfl⟩ := Option.map_eq_some_iff.mp (Except.ok.inj h)
      exact .cons (of_locate hplace) (ih hothers)

/-- Stretches in order that are not empty ascend. -/
theorem ascend_of_areInOrder {start stop : Nat} {spans : List Span} (h : areInOrder spans = true)
    (hspans : ∀ span ∈ spans, span.start < span.stop ∧ span.stop ≤ stop) (hle : start ≤ stop)
    (hfirst : ∀ span ∈ spans.head?, start ≤ span.start) : Ascend start stop spans := by
  induction spans generalizing start with
  | nil => exact hle
  | cons span rest ih =>
    obtain ⟨⟨hlt, hstop⟩, hrest⟩ := List.forall_mem_cons.mp hspans
    refine ⟨hfirst span rfl, hlt, ?_⟩
    cases rest with
    | nil => exact hstop
    | cons next rest =>
      rw [areInOrder, Bool.and_eq_true, decide_eq_true_eq] at h
      refine ih h.2 hrest hstop fun other hother => ?_
      obtain rfl := Option.some.inj hother
      exact h.1

/-- Stretches in order can be replaced, without a change between them. -/
theorem exists_replaced {cs : List Char} {spans : List Span} {texts : List (List Char)}
    (horder : areInOrder spans = true)
    (hspans : ∀ span ∈ spans, ∃ text, text ≠ [] ∧ slice? cs span.start span.stop = some text)
    (hlength : spans.length ≤ texts.length) : ∃ updated,
      replaceAll? cs (spans.zip texts) = some updated ∧ Replaced 0 (spans.zip texts) cs updated := by
  have hascend : Ascend 0 (0 + size cs) ((spans.zip texts).map Prod.fst) := by
    rw [List.map_fst_zip hlength]
    refine ascend_of_areInOrder horder (fun span hspan => ?_) (Nat.zero_le _)
      fun _ _ => Nat.zero_le _
    obtain ⟨text, hne, hslice⟩ := hspans span hspan
    obtain ⟨front, back, rfl, hfront, hstop⟩ := of_slice? hslice
    have hpos := size_pos_of_ne_nil hne
    simp only [size_append]
    omega
  have hslices : ∀ edit ∈ spans.zip texts, ∃ old,
      slice? cs edit.1.start edit.1.stop = some old := by
    intro edit hedit
    obtain ⟨text, -, hslice⟩ := hspans edit.1 (List.of_mem_zip hedit).1
    exact ⟨text, hslice⟩
  obtain ⟨after, hafter, -⟩ := Replaced.exists_of_ascend [] cs []
    (List.append_nil _).symm hascend hslices
  have hall := hafter.replaceAll? rfl []
  rw [List.append_nil, List.nil_append, List.append_nil, List.nil_append] at hall
  exact ⟨after, hall, hafter⟩

/-- The places where pieces are found can be replaced by words that are dealt out to them, if they
are in order. -/
theorem exists_replaced_of_locateAll {cs : List Char} {pieces : List Piece} {spans : List Span}
    (hlocated : locateAll cs (lineSpans cs) pieces = .ok (some spans))
    (horder : areInOrder spans = true) (ws : List (List Char)) : ∃ updated,
      replaceAll? cs (spans.zip (deal ws (pieces.map (·.wordCount)))) = some updated ∧
      Replaced 0 (spans.zip (deal ws (pieces.map (·.wordCount)))) cs updated := by
  have hstand := forall₂_of_locateAll hlocated
  have hflip : List.Forall₂ (fun span (_ : Piece) => (∃ text, text ≠ [] ∧
      slice? cs span.start span.stop = some text) ∧ True) spans pieces :=
    .flip (hstand.imp fun piece _ hpiece => ⟨⟨piece.text.toList, hpiece⟩, trivial⟩)
  have hslices := ((List.forall₂_and_left spans pieces).mp hflip).1
  refine exists_replaced horder hslices ?_
  rw [length_deal, List.length_map]
  exact Nat.le_of_eq hstand.length_eq.symm

/-- Words are dealt out to where the pieces stand. -/
theorem exists_replaced_of_dealOut {cs new updated : List Char} {pieces : List Piece}
    (h : dealOut cs pieces new = .ok (some updated)) : ∃ spans : List Span,
      List.Forall₂ (fun piece span => piece.text.toList ≠ [] ∧
        slice? cs span.start span.stop = some piece.text.toList) pieces spans ∧
      Replaced 0 (spans.zip (deal (words new) (pieces.map (·.wordCount)))) cs updated := by
  unfold dealOut at h
  split at h
  · cases h
  obtain ⟨located, hlocated, h⟩ := bind_eq_ok.mp h
  split at h
  · cases h
  rename_i spans
  split at h
  · rename_i horder
    obtain ⟨after, hall, hreplaced⟩ := exists_replaced_of_locateAll hlocated horder (words new)
    obtain rfl := Option.some.inj (hall.symm.trans (Except.ok.inj h))
    exact ⟨spans, forall₂_of_locateAll hlocated, hreplaced⟩
  · cases h

theorem reaches_of_fragments {cs updated : List Char} {node : Node} {p : Proposal}
    (h : alone cs node p .fragments = .ok (some updated)) :
    Reaches cs node p updated .fragments := by
  rw [alone] at h
  cases hpieces : node.pieces with
  | none =>
    rw [hpieces] at h
    cases h
  | some pieces =>
    rw [hpieces] at h
    obtain ⟨spans, hstand, hreplaced⟩ := exists_replaced_of_dealOut h
    exact .fragments hpieces spans hstand hreplaced

/-! ## Near a line -/

theorem of_checked {n m : Int} (h : checked n = .ok m) : m = n := by
  unfold checked at h
  split at h
  · exact (Except.ok.inj h).symm
  · cases h

/-- Nearby lines are near, as long as the number of the line has a sign bit of zero. -/
theorem near_of_mem_nearbySpans {spans near : List Span} {line : Nat} {span : Span}
    (h : nearbySpans spans line = .ok near) (hspan : span ∈ near) : ∃ place,
      spans[place]? = some span ∧ (line < 0x8000000000000000 → distance (place + 1) line ≤ 2) := by
  unfold nearbySpans at h
  obtain ⟨base, hbase, h⟩ := bind_eq_ok.mp h
  obtain ⟨indexes, hindexes, h⟩ := bind_eq_ok.mp h
  obtain rfl := Except.ok.inj h
  obtain ⟨index, hindex, hplace⟩ := List.mem_filterMap.mp hspan
  obtain ⟨delta, hdelta, hchecked⟩ := exists_of_mem_mapM hindexes hindex
  have hbase := of_checked hbase
  have hchecked := of_checked hchecked
  have hbounds : -2 ≤ delta ∧ delta ≤ 2 := by
    simp only [List.mem_cons, List.not_mem_nil, or_false] at hdelta
    omega
  split at hplace
  · cases hplace
  · refine ⟨index.toNat, hplace, fun hsmall => ?_⟩
    have hsigned : signed line = line := if_pos hsmall
    unfold distance
    omega

theorem of_findOn? {cs : List Char} {find : List Char → Option Span} {spans : List Span}
    {span : Span} (h : findOn? cs find spans = some span) : ∃ line ∈ spans, ∃ text found,
      slice? cs line.start line.stop = some text ∧ find text = some found ∧
      span = ⟨line.start + found.start, line.start + found.stop⟩ := by
  obtain ⟨line, hline, h⟩ := List.exists_of_findSome?_eq_some h
  obtain ⟨found, hfound, rfl⟩ := Option.map_eq_some_iff.mp h
  obtain ⟨text, htext, hfind⟩ := Option.bind_eq_some_iff.mp hfound
  exact ⟨line, hline, text, found, htext, hfind, rfl⟩

/-- A text that stands on one of some lines of a content is replaced there. -/
theorem exists_recases {cs old wanted updated : List Char} {line : Nat} {near : List Span}
    {span : Span} {find : List Char → Option Span} (hnear : nearbySpans (lineSpans cs) line = .ok near)
    (hfind : ∀ text found, find text = some found → ∃ front stretch back,
      text = front ++ stretch ++ back ∧ found.start = size front ∧
      found.stop = found.start + size stretch ∧
      List.Forall₂ (fun a b => sameFolded a b = true) old stretch)
    (hspan : findOn? cs find near = some span)
    (hsplice : splice? cs span.start span.stop wanted = some updated) :
    ∃ before front found back stop after,
      Recases cs old wanted updated line before front found back stop after := by
  obtain ⟨place, hplace, text, found, htext, hfound, rfl⟩ := of_findOn? hspan
  obtain ⟨number, hnumber, hdistance⟩ := near_of_mem_nearbySpans hnear hplace
  obtain ⟨before, core, stop, after, hline, rfl, hstart, hstop⟩ := exists_isLine hnumber
  obtain rfl := Option.some.inj ((hline.slice?_eq hstart hstop).symm.trans htext)
  obtain ⟨front, stretch, back, rfl, hfront, hstretch, hsame⟩ := hfind _ found hfound
  have hcs : cs = before.flatten ++ front ++ stretch ++ (back ++ (stop ++ after.flatten)) := by
    conv_lhs => rw [hline.content]
    simp only [List.append_assoc]
  have hreplace := splice?_append (before.flatten ++ front) stretch
    (back ++ (stop ++ after.flatten)) wanted
  rw [← hcs, size_append, ← hstart, ← hfront, Nat.add_assoc, ← hstretch, hsplice] at hreplace
  refine ⟨before, front, stretch, back, stop, after, hline, hsame, hdistance, ?_⟩
  rw [Option.some.inj hreplace]
  simp only [List.append_assoc]

theorem reaches_of_lineFallback {cs updated : List Char} {node : Node} {p : Proposal}
    (h : alone cs node p .lineFallback = .ok (some updated)) :
    Reaches cs node p updated .lineFallback := by
  rw [alone, replaceNearby] at h
  dsimp only at h
  split at h
  · cases h
  obtain ⟨near, hnear, h⟩ := bind_eq_ok.mp h
  obtain ⟨span, hspan, hsplice⟩ := Option.bind_eq_some_iff.mp (Except.ok.inj h)
  have hrecases : ∃ before front found back stop after, Recases cs (trim p.oldContent.toList)
      (trim p.newContent.toList) updated node.start.line before front found back stop after := by
    obtain hexact | ⟨-, hfolded⟩ := Option.or_eq_some_iff.mp hspan
    · refine exists_recases hnear (fun text place hplace => ?_) hexact hsplice
      obtain ⟨start, hstart, rfl⟩ := Option.map_eq_some_iff.mp hplace
      obtain ⟨front, back, rfl, rfl⟩ := of_findFrom hstart
      exact ⟨front, _, back, rfl, Nat.zero_add _, rfl,
        List.forall₂_same.mpr fun c _ => beq_self_eq_true _⟩
    · refine exists_recases hnear (fun text place hplace => ?_) hfolded hsplice
      obtain ⟨front, stretch, back, rfl, hstart, hstop, hsame⟩ := Phrase.of_findFolded? hplace
      exact ⟨front, stretch, back, rfl, hstart.trans (Nat.zero_add _), hstop, hsame⟩
  obtain ⟨before, front, found, back, stop, after, hrecases⟩ := hrecases
  exact .lineFallback before front found back stop after hrecases

/-! ## Every way -/

theorem reaches_of_direct {cs updated : List Char} {node : Node} {p : Proposal}
    (h : alone cs node p .direct = .ok (some updated)) : Reaches cs node p updated .direct := by
  obtain ⟨front, back, hcs, hplace, rfl⟩ := of_replaceNearest? (Except.ok.inj h)
  exact .direct front back (ne_nil_of_nearestPlace? hplace) hcs rfl

/-- No way to edit a text changes anything that it has not found there. -/
theorem reaches_of_apply {cs updated : List Char} {node : Node} {p : Proposal} {way : Way}
    (h : Edit.apply cs node p = .ok (some (updated, way))) : Reaches cs node p updated way := by
  have halone := alone_of_apply_some h
  cases way with
  | snippet => exact reaches_of_snippet halone
  | normalizedSnippet => exact reaches_of_normalizedSnippet halone
  | fragments => exact reaches_of_fragments halone
  | direct => exact reaches_of_direct halone
  | lineFallback => exact reaches_of_lineFallback halone

/-- A node that is said to stand on a line. -/
def signNode (line : Nat) : Node :=
  ⟨.lineMatch, "Sign in", "a.md", "a.md", ⟨line, 0⟩, ⟨line, 7⟩, [], [], 1, none, none⟩

def signProposal (old new : Option String) : Proposal :=
  ⟨0, old, new, "Sign in", "Log in", "", 1, true, .unspecified, []⟩

/-- The text is two lines above the recorded one, and in another case. -/
theorem reaches_above :
    Reaches "one\nsign in\ntwo".toList (signNode 4) (signProposal none none)
      "one\nLog in\ntwo".toList .lineFallback := by
  have happly : Edit.apply "one\nsign in\ntwo".toList (signNode 4) (signProposal none none) =
      .ok (some ("one\nLog in\ntwo".toList, .lineFallback)) := by
    cbv
  exact reaches_of_apply happly

/-- A last line without an end is lost when nothing is left of it. A line number that has a sign bit
leads from the end of the numbers to the first line. -/
theorem last_line_lost_and_far_line_edited :
    (Edit.apply "one\nSign  in".toList (signNode 2) (signProposal (some "Sign in") (some " ")) =
        .ok (some ("one\n".toList, .normalizedSnippet)) ∧
      (lines "one\nSign  in".toList).length = 2 ∧ (lines "one\n".toList).length = 1) ∧
    (Edit.apply "sign in".toList (signNode 0xFFFFFFFFFFFFFFFF) (signProposal none none) =
        .ok (some ("Log in".toList, .lineFallback)) ∧
      (lines "sign in".toList).length = 1 ∧ 2 < distance 1 0xFFFFFFFFFFFFFFFF) := by
  refine ⟨⟨?_, ?_, ?_⟩, ?_, ?_, ?_⟩
  · cbv
  · decide
  · decide
  · cbv
  · decide
  · decide

end Rephrase.Edit
