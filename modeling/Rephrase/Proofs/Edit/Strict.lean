import Rephrase.Proofs.Edit.Footprint
import Rephrase.Proofs.Edit.Swap

/-! Edits that check whatever they rely on: a stretch of a text or a place in a list has to be
there, and a sum or a difference has to be a number that a machine word holds. They end in a fault
where it is not so; what memory there is does not count. On a text that memory can hold they come to
what the edits come to that take it for granted. -/

namespace Rephrase

open Text

/-- Nothing in memory takes as many bytes as this. -/
def Text.sizeLimit : Nat := 0x8000000000000000

namespace Edit.Strict

def require {α : Type} : Option α → Except Fault α
  | some a => .ok a
  | none => .error .badRange

def slice (cs : List Char) (start stop : Nat) : Except Fault (List Char) :=
  require (slice? cs start stop)

def splice (cs : List Char) (start stop : Nat) (wanted : List Char) : Except Fault (List Char) :=
  require (splice? cs start stop wanted)

/-- The position of an offset, on the last line that starts in front of it. -/
def position (index : LineStarts) (offset : Nat) : Except Fault Position := do
  let place := index.starts.countP (· ≤ offset) - 1
  let start ← require index.starts[place]?
  return ⟨← Fault.add place 1, ← Fault.sub offset start⟩

def nearestPlace (needle cs : List Char) (line : Nat) : Except Fault (Option Nat) := do
  let places ← (occurrences needle cs).mapM fun place => do
    return (place.1, (← position (.ofText cs) place.1).line)
  return match places with
    | [] => none
    | first :: rest => some (rest.foldl (nearer line) first).1

def replaceNearest (cs old wanted : List Char) (line : Nat) :
    Except Fault (Option (List Char)) := do
  match ← nearestPlace old cs line with
  | none => return none
  | some start => return some (← splice cs start (← Fault.add start (size old)) wanted)

def lineSpansFrom (offset : Nat) : List (List Char) → Except Fault (List Span)
  | [] => return []
  | raw :: rest => do
    let stop ← Fault.add offset (size (lineCore raw))
    return ⟨offset, stop⟩ :: (← lineSpansFrom (← Fault.add offset (size raw)) rest)

def lineSpans (cs : List Char) : Except Fault (List Span) := lineSpansFrom 0 (rawLines cs)

def replaceCollapsed (text target replacement : List Char) :
    Except Fault (Option (List Char)) := do
  let collapsed := collapse text
  match find? target collapsed with
  | none => return none
  | some found =>
    let indent ← slice text 0 (← Fault.sub (size text) (size (stripStart isBlank text)))
    let front ← slice collapsed 0 found
    let back ← slice collapsed (← Fault.add found (size target)) (size collapsed)
    return some (indent ++ front ++ replacement ++ back)

def replaceOnLine (cs target replacement : List Char) (spans : List Span) :
    List Nat → Except Fault (Option (List Char))
  | [] => return none
  | place :: rest => do
    let span ← require spans[place]?
    match ← replaceCollapsed (← slice cs span.start span.stop) target replacement with
    | some line => return some (← splice cs span.start span.stop line)
    | none => replaceOnLine cs target replacement spans rest

def replaceLoosely (cs old wanted : List Char) (line : Nat) :
    Except Fault (Option (List Char)) := do
  let target := collapse old
  if target.isEmpty then return none
  let spans ← lineSpans cs
  replaceOnLine cs target (collapse wanted) spans (byDistance spans.length (line - 1))

def locate (cs : List Char) (spans : List Span) (piece : Piece) :
    Except Fault (Option Span) := do
  let text := piece.text.toList
  if text.isEmpty then return none
  match region? spans piece.start.line piece.stop.line with
  | none => return none
  | some region =>
    let recorded ← Fault.add region.start piece.start.column
    let stop ← Fault.add recorded (size text)
    if stop ≤ region.stop && slice? cs recorded stop = some text then
      return some ⟨recorded, stop⟩
    match find? text (← slice cs region.start region.stop) with
    | none => return none
    | some found =>
      let start ← Fault.add region.start found
      return some ⟨start, ← Fault.add start (size text)⟩

def locateAll (cs : List Char) (spans : List Span) :
    List Piece → Except Fault (Option (List Span))
  | [] => return some []
  | piece :: rest => do
    match ← locate cs spans piece with
    | none => return none
    | some span => return (← locateAll cs spans rest).map (span :: ·)

def splitAt (ws : List (List Char)) (n : Nat) :
    Except Fault (List (List Char) × List (List Char)) :=
  if n ≤ ws.length then .ok (ws.take n, ws.drop n) else .error .badRange

def deal (ws : List (List Char)) : List Nat → Except Fault (List (List Char))
  | [] => return []
  | count :: rest => do
    let parts ← splitAt ws (if rest.isEmpty then ws.length else min count ws.length)
    return unwords parts.1 :: (← deal parts.2 rest)

def replaceAll (cs : List Char) : List (Span × List Char) → Except Fault (List Char)
  | [] => return cs
  | (span, text) :: rest => do splice (← replaceAll cs rest) span.start span.stop text

def dealOut (cs : List Char) (pieces : List Piece) (wanted : List Char) :
    Except Fault (Option (List Char)) := do
  if pieces.isEmpty then return none
  match ← locateAll cs (← lineSpans cs) pieces with
  | none => return none
  | some spans =>
    if areInOrder spans then
      let texts ← deal (words wanted) (pieces.map (·.wordCount))
      return some (← replaceAll cs (spans.zip texts))
    else return none

def findOn (cs : List Char) (find : List Char → Option Span) :
    List Span → Except Fault (Option Span)
  | [] => return none
  | span :: rest => do
    match find (← slice cs span.start span.stop) with
    | some found =>
      return some ⟨← Fault.add span.start found.start, ← Fault.add span.start found.stop⟩
    | none => findOn cs find rest

def exactly (needle text : List Char) : Option Span :=
  (find? needle text).map fun start => ⟨start, start + size needle⟩

def replaceNearby (cs old wanted : List Char) (line : Nat) :
    Except Fault (Option (List Char)) := do
  let needle := trim old
  if needle.isEmpty then return none
  let spans ← nearbySpans (← lineSpans cs) line
  let found ← match ← findOn cs (exactly needle) spans with
    | some span => pure (some span)
    | none => findOn cs (Phrase.findFolded? needle 0) spans
  match found with
  | none => return none
  | some span => return some (← splice cs span.start span.stop (trim wanted))

def alone (cs : List Char) (node : Node) (p : Proposal) : Way → Except Fault (Option (List Char))
  | .snippet => p.oldSnippet.elim (.ok none) fun old => p.newSnippet.elim (.ok none) fun wanted =>
      replaceNearest cs old.toList wanted.toList node.start.line
  | .normalizedSnippet => p.oldSnippet.elim (.ok none) fun old =>
      p.newSnippet.elim (.ok none) fun wanted =>
        replaceLoosely cs old.toList wanted.toList node.start.line
  | .fragments => node.pieces.elim (.ok none) fun pieces => dealOut cs pieces p.newContent.toList
  | .direct => replaceNearest cs p.oldContent.toList p.newContent.toList node.start.line
  | .lineFallback => replaceNearby cs p.oldContent.toList p.newContent.toList node.start.line

def firstOf (cs : List Char) (node : Node) (p : Proposal) :
    List Way → Except Fault (Option (List Char × Way))
  | [] => return none
  | way :: rest => do
    match ← alone cs node p way with
    | some updated => return some (updated, way)
    | none => firstOf cs node p rest

/-- Applies a proposal for a node, with everything checked. -/
def apply (cs : List Char) (node : Node) (p : Proposal) :
    Except Fault (Option (List Char × Way)) := firstOf cs node p Way.inOrder

/-! ## Positions -/

section

variable {cs : List Char}

theorem add_eq {a b : Nat} (h : a + b ≤ sizeLimit) : Fault.add a b = .ok (a + b) := by
  apply if_pos
  unfold sizeLimit at h
  unfold Fault.wordLimit
  omega

theorem position_eq (hcs : size cs < sizeLimit) (offset : Nat) :
    position (.ofText cs) offset = .ok ((LineStarts.ofText cs).position offset) := by
  have hlength : (LineStarts.ofText cs).starts.length ≤ size cs + 1 := by
    rw [ofText_starts, List.length_cons]
    exact Nat.succ_le_succ (length_breaksFrom_le 0 cs)
  have hcount := List.countP_le_length (p := (· ≤ offset)) (l := (LineStarts.ofText cs).starts)
  obtain ⟨start, hpos, hget, hle, hhere⟩ := exists_position cs offset
  have hsub : Fault.sub offset start = .ok (offset - start) := if_pos hle
  rw [position, hget, require, ok_bind, add_eq (by omega), ok_bind, hsub, ok_bind, hhere,
    Nat.sub_add_cancel hpos]
  rfl

/-! ## Lines -/

theorem lineSpansFrom_eq {raws : List (List Char)} {offset : Nat}
    (h : offset + size raws.flatten ≤ sizeLimit) :
    lineSpansFrom offset raws = .ok (Text.lineSpansFrom offset raws) := by
  induction raws generalizing offset with
  | nil => rfl
  | cons raw raws ih =>
    rw [List.flatten_cons, size_append] at h
    have hcore : size (lineCore raw) ≤ size raw := by
      rcases lineCore_prefix raw with ⟨rest, hrest⟩
      have hsize := congrArg size hrest
      rw [size_append] at hsize
      omega
    rw [lineSpansFrom, add_eq (by omega), ok_bind, add_eq (by omega), ok_bind, ih (by omega)]
    rfl

theorem lineSpans_eq (hcs : size cs < sizeLimit) : lineSpans cs = .ok (Text.lineSpans cs) := by
  apply lineSpansFrom_eq
  rw [flatten_rawLines]
  omega

/-! ## Whole texts and snippets -/

theorem mapM_eq_self {α : Type} {f : α → Except Fault α} {xs : List α}
    (h : ∀ x ∈ xs, f x = .ok x) : xs.mapM f = .ok xs := by
  induction xs with
  | nil => rfl
  | cons x xs ih =>
    rcases List.forall_mem_cons.mp h with ⟨hx, hxs⟩
    rw [List.mapM_cons, hx, ok_bind, ih hxs]
    rfl

theorem nearestPlace_eq (hcs : size cs < sizeLimit) (needle : List Char) (line : Nat) :
    nearestPlace needle cs line = .ok (nearestPlace? needle cs line) := by
  have hplaces : ∀ place ∈ occurrences needle cs,
      (do return (place.1, (← position (.ofText cs) place.1).line) : Except Fault (Nat × Nat)) =
        .ok place := by
    intro place hplace
    rcases of_mem_occurrences hplace with ⟨front, back, hsplit, rfl⟩
    have hposition := position_append front (needle ++ back)
    rw [← List.append_assoc, ← hsplit] at hposition
    rw [position_eq hcs, ok_bind, hposition]
    rfl
  rw [nearestPlace, mapM_eq_self hplaces, ok_bind, nearestPlace?]
  rfl

theorem replaceNearest_eq (hcs : size cs < sizeLimit) (old wanted : List Char) (line : Nat) :
    replaceNearest cs old wanted line = .ok (replaceNearest? cs old wanted line) := by
  rw [replaceNearest, nearestPlace_eq hcs, ok_bind, replaceNearest?]
  cases hplace : nearestPlace? old cs line with
  | none => rfl
  | some start =>
    rcases exists_of_nearestPlace? hplace with ⟨place, hmem, rfl⟩
    rcases of_mem_occurrences hmem with ⟨front, back, hsplit, rfl⟩
    have hsize := congrArg size hsplit
    rw [size_append, size_append] at hsize
    have hsplice := splice?_append front old back wanted
    rw [← hsplit] at hsplice
    dsimp only
    rw [Option.bind_some, add_eq (by omega), ok_bind, splice, hsplice]
    rfl

/-! ## Up to blanks -/

theorem replaceCollapsed_eq {text : List Char} (htext : size text ≤ sizeLimit)
    (target replacement : List Char) : replaceCollapsed text target replacement =
      .ok (replaceCollapsed? text target replacement) := by
  rw [replaceCollapsed, replaceCollapsed?]
  cases hfind : find? target (collapse text) with
  | none => rfl
  | some found =>
    rcases of_findFrom hfind with ⟨front, back, hfound, hoffset⟩
    have hcollapse := size_collapse_le text
    have hsize := congrArg size hfound
    rw [size_append, size_append] at hsize
    rw [Nat.zero_add] at hoffset
    have hindent : text.takeWhile isBlank ++ stripStart isBlank text = text :=
      List.takeWhile_append_dropWhile
    -- The indentation is a front of the text, so the difference of the sizes is its size.
    have hsub : Fault.sub (size text) (size (stripStart isBlank text)) =
        .ok (size (text.takeWhile isBlank)) := by
      have hsplit := congrArg size hindent
      rw [size_append] at hsplit
      rw [Fault.sub, if_pos (by omega), ← hsplit, Nat.add_sub_cancel]
    have hslice := slice?_append [] (text.takeWhile isBlank) (stripStart isBlank text)
    have hfront := slice?_append [] front (target ++ back)
    have hback := slice?_append (front ++ target) back []
    have hcut := cut?_append front (target ++ back)
    rw [List.nil_append, size_nil, Nat.zero_add] at hslice hfront
    rw [hindent] at hslice
    rw [← List.append_assoc, ← hfound] at hfront hcut
    rw [List.append_nil, ← hfound, size_append, ← hsize] at hback
    dsimp only
    rw [hsub, ok_bind, slice, hslice, require, ok_bind, slice, hoffset, hfront, require, ok_bind,
      add_eq (by omega), ok_bind, slice, hback, require, ok_bind, Option.bind_some, hcut]
    simp
    rfl

theorem replaceOnLine_eq (hcs : size cs < sizeLimit) (target replacement : List Char)
    {places : List Nat} (hplaces : ∀ place ∈ places, place < (Text.lineSpans cs).length) :
    replaceOnLine cs target replacement (Text.lineSpans cs) places =
      .ok (places.findSome? (replaceAt? cs target replacement)) := by
  induction places with
  | nil => rfl
  | cons place places ih =>
    rcases List.forall_mem_cons.mp hplaces with ⟨hplace, hrest⟩
    rcases exists_isLine (List.getElem?_eq_getElem hplace) with
      ⟨before, text, stop, after, hline, rfl, hstart, hstop⟩
    have hsize := congrArg size hline.content
    rw [size_append, size_append] at hsize
    rw [replaceOnLine, List.getElem?_eq_getElem hplace, require, ok_bind, slice,
      hline.slice?_eq hstart hstop, require, ok_bind, replaceCollapsed_eq (by omega), ok_bind,
      List.findSome?_cons, replaceAt?_of_isLine hline]
    cases replaceCollapsed? text target replacement with
    | none => exact ih hrest
    | some line =>
      dsimp only
      rw [splice, hline.splice?_eq hstart hstop]
      rfl

theorem replaceLoosely_eq (hcs : size cs < sizeLimit) (old wanted : List Char) (line : Nat) :
    replaceLoosely cs old wanted line = .ok (replaceLoosely? cs old wanted line) := by
  rw [replaceLoosely, replaceLoosely?]
  dsimp only
  split
  · rfl
  · rw [lineSpans_eq hcs, ok_bind, replaceOnLine?_filterMap]
    exact replaceOnLine_eq hcs _ _ fun place hplace => mem_byDistance.mp hplace

/-! ## Fragments -/

theorem locate_eq (hcs : size cs < sizeLimit) (piece : Piece) :
    locate cs (Text.lineSpans cs) piece = Edit.locate cs (Text.lineSpans cs) piece := by
  unfold locate Edit.locate
  dsimp only
  split
  · rfl
  cases hregion : region? (Text.lineSpans cs) piece.start.line piece.stop.line with
  | none => rfl
  | some region =>
  refine bind_congr fun recorded => bind_congr fun stop => ?_
  split
  · rfl
  cases hinner : slice? cs region.start region.stop with
  | none => rw [slice, hinner]; rfl
  | some inner =>
    rw [slice, hinner, require, ok_bind]
    cases hfind : find? piece.text.toList inner with
    | none =>
      dsimp only
      rw [hfind]
      rfl
    | some found =>
      -- What is found stands in the content, so no sum gets beyond its size.
      rcases of_findFrom hfind with ⟨front, back, rfl, hoffset⟩
      rcases of_slice? hinner with ⟨above, below, hsplit, habove, -⟩
      have hsize := congrArg size hsplit
      simp only [size_append] at hsize
      dsimp only
      rw [add_eq (by omega), ok_bind, add_eq (by omega), ok_bind, hfind]
      rfl

theorem locateAll_eq (hcs : size cs < sizeLimit) (pieces : List Piece) :
    locateAll cs (Text.lineSpans cs) pieces = Edit.locateAll cs (Text.lineSpans cs) pieces := by
  induction pieces with
  | nil => rfl
  | cons piece rest ih =>
    rw [locateAll, Edit.locateAll, locate_eq hcs]
    refine bind_congr fun located => ?_
    cases located with
    | none => rfl
    | some span =>
      dsimp only
      rw [ih]

theorem deal_eq (ws : List (List Char)) (counts : List Nat) :
    deal ws counts = .ok (Edit.deal ws counts) := by
  induction counts generalizing ws with
  | nil => rfl
  | cons count rest ih =>
    cases rest with
    | nil =>
      have hsplit : splitAt ws ws.length = .ok (ws, []) := by
        rw [splitAt, if_pos (Nat.le_refl _), List.take_length, List.drop_length]
      rw [deal, List.isEmpty_nil, if_pos rfl, hsplit]
      rfl
    | cons next rest =>
      have hsplit : splitAt ws (min count ws.length) = .ok (ws.take count, ws.drop count) := by
        rw [splitAt, if_pos (Nat.min_le_right _ _)]
        by_cases hle : count ≤ ws.length
        · rw [Nat.min_eq_left hle]
        · have hlt := Nat.le_of_not_le hle
          rw [Nat.min_eq_right hlt, List.take_length, List.drop_length,
            List.take_of_length_le hlt, List.drop_eq_nil_of_le hlt]
      rw [deal, List.isEmpty_cons, if_neg Bool.false_ne_true, hsplit, ok_bind, ih]
      rfl

theorem replaceAll_eq {edits : List (Span × List Char)} {updated : List Char}
    (h : replaceAll? cs edits = some updated) : replaceAll cs edits = .ok updated := by
  induction edits generalizing updated with
  | nil =>
    obtain rfl := Option.some.inj h
    rfl
  | cons edit rest ih =>
    rcases Option.bind_eq_some_iff.mp h with ⟨later, hlater, hsplice⟩
    rw [replaceAll, ih hlater, ok_bind, splice, hsplice]
    rfl

theorem dealOut_eq (hcs : size cs < sizeLimit) (pieces : List Piece) (wanted : List Char) :
    dealOut cs pieces wanted = Edit.dealOut cs pieces wanted := by
  rw [dealOut, Edit.dealOut]
  split
  · rfl
  rw [lineSpans_eq hcs, ok_bind, locateAll_eq hcs]
  cases hlocated : Edit.locateAll cs (Text.lineSpans cs) pieces with
  | error fault => rfl
  | ok located =>
    rw [ok_bind, ok_bind]
    cases located with
    | none => rfl
    | some spans =>
      dsimp only
      split
      · rename_i horder
        rcases exists_replaced_of_locateAll hlocated horder (words wanted) with ⟨updated, hall, -⟩
        rw [deal_eq, ok_bind, replaceAll_eq hall, hall]
        rfl
      · rfl

/-! ## Near a line -/

/-- Whether what is found in a text is a part of it. -/
def FindsPart (find : List Char → Option Span) : Prop :=
  ∀ text found, find text = some found → ∃ front part back, text = front ++ part ++ back ∧
    found.start = size front ∧ found.stop = found.start + size part

theorem findsPart_exactly (needle : List Char) : FindsPart (exactly needle) := by
  intro text found h
  rcases Option.map_eq_some_iff.mp h with ⟨start, hstart, rfl⟩
  rcases of_findFrom hstart with ⟨front, back, rfl, rfl⟩
  exact ⟨front, needle, back, rfl, Nat.zero_add _, rfl⟩

theorem findsPart_findFolded? (needle : List Char) : FindsPart (Phrase.findFolded? needle 0) := by
  intro text found h
  rcases Phrase.of_findFolded? h with ⟨front, part, back, rfl, hstart, hstop, -⟩
  exact ⟨front, part, back, rfl, hstart.trans (Nat.zero_add _), hstop⟩

theorem findOn_eq (hcs : size cs < sizeLimit) {find : List Char → Option Span}
    (hfind : FindsPart find) {spans : List Span}
    (hspans : ∀ span ∈ spans, ∃ text, slice? cs span.start span.stop = some text) :
    findOn cs find spans = .ok (findOn? cs find spans) := by
  induction spans with
  | nil => rfl
  | cons span rest ih =>
    rcases List.forall_mem_cons.mp hspans with ⟨⟨text, htext⟩, hrest⟩
    rw [findOn, slice, htext, require, ok_bind, findOn?, List.findSome?_cons, htext,
      Option.bind_some]
    cases hfound : find text with
    | none => exact ih hrest
    | some found =>
      rcases hfind text found hfound with ⟨front, part, back, rfl, hstart, hstop⟩
      rcases of_slice? htext with ⟨above, below, hsplit, habove, -⟩
      have hsize := congrArg size hsplit
      simp only [size_append] at hsize
      dsimp only
      rw [add_eq (by omega), ok_bind, add_eq (by omega), ok_bind]
      rfl

/-- A part that is found on a line can be replaced. -/
theorem exists_splice_of_findOn? {find : List Char → Option Span} (hfind : FindsPart find)
    {spans : List Span} {span : Span} (h : findOn? cs find spans = some span)
    (wanted : List Char) : ∃ updated, splice? cs span.start span.stop wanted = some updated := by
  rcases of_findOn? h with ⟨line, -, text, found, htext, hfound, rfl⟩
  rcases hfind text found hfound with ⟨front, part, back, rfl, hstart, hstop⟩
  rcases of_slice? htext with ⟨above, below, rfl, habove, -⟩
  have hsplice := splice?_append (above ++ front) part (back ++ below) wanted
  rw [size_append, habove, ← hstart, Nat.add_assoc, ← hstop] at hsplice
  simp only [List.append_assoc] at hsplice ⊢
  exact ⟨_, hsplice⟩

theorem replaceNearby_eq (hcs : size cs < sizeLimit) (old wanted : List Char) (line : Nat) :
    replaceNearby cs old wanted line = Edit.replaceNearby cs old wanted line := by
  rw [replaceNearby, Edit.replaceNearby]
  dsimp only
  split
  · rfl
  rw [lineSpans_eq hcs, ok_bind]
  cases hnear : nearbySpans (Text.lineSpans cs) line with
  | error fault => rfl
  | ok spans =>
    -- The spans near the line are whole lines, so no slice of one splits a character.
    have hspans : ∀ span ∈ spans, ∃ text, slice? cs span.start span.stop = some text := by
      intro span hspan
      rcases near_of_mem_nearbySpans hnear hspan with ⟨place, hplace, -⟩
      exact exists_slice?_lineSpans hplace hplace (Nat.le_refl _)
    have hexactly := findsPart_exactly (trim old)
    have hfolded := findsPart_findFolded? (trim old)
    rw [ok_bind, ok_bind, findOn_eq hcs hexactly hspans, ok_bind]
    change _ = Except.ok (((findOn? cs (exactly (trim old)) spans).or
      (findOn? cs (Phrase.findFolded? (trim old) 0) spans)).bind _)
    cases hfound : findOn? cs (exactly (trim old)) spans with
    | some span =>
      rcases exists_splice_of_findOn? hexactly hfound (trim wanted) with ⟨updated, hsplice⟩
      rw [Option.some_or, Option.bind_some, hsplice]
      change (splice cs span.start span.stop (trim wanted) >>= fun text => .ok (some text)) = _
      rw [splice, hsplice]
      rfl
    | none =>
      rw [Option.none_or]
      dsimp only
      rw [findOn_eq hcs hfolded hspans, ok_bind]
      cases hfound' : findOn? cs (Phrase.findFolded? (trim old) 0) spans with
      | none => rfl
      | some span =>
        rcases exists_splice_of_findOn? hfolded hfound' (trim wanted) with ⟨updated, hsplice⟩
        dsimp only
        rw [Option.bind_some, splice, hsplice]
        rfl

/-! ## Every way -/

theorem alone_eq (hcs : size cs < sizeLimit) (node : Node) (p : Proposal) (way : Way) :
    alone cs node p way = Edit.alone cs node p way := by
  -- A way without its texts gives nothing on either side.
  cases way with
  | snippet =>
    rw [alone, Edit.alone]
    cases p.oldSnippet with
    | none => rfl
    | some old =>
      cases p.newSnippet with
      | none => rfl
      | some wanted => exact replaceNearest_eq hcs _ _ _
  | normalizedSnippet =>
    rw [alone, Edit.alone]
    cases p.oldSnippet with
    | none => rfl
    | some old =>
      cases p.newSnippet with
      | none => rfl
      | some wanted => exact replaceLoosely_eq hcs _ _ _
  | fragments =>
    rw [alone, Edit.alone]
    cases node.pieces with
    | none => rfl
    | some pieces => exact dealOut_eq hcs pieces _
  | direct => exact replaceNearest_eq hcs _ _ _
  | lineFallback => exact replaceNearby_eq hcs _ _ _

/-- On a text that memory can hold everything that an edit takes for granted is so, up to the
numbers of the node. -/
theorem apply_eq (hcs : size cs < sizeLimit) (node : Node) (p : Proposal) :
    apply cs node p = Edit.apply cs node p := by
  rw [apply_eq_firstOf, apply]
  generalize Way.inOrder = ways
  induction ways with
  | nil => rfl
  | cons way rest ih =>
    rw [firstOf, Edit.firstOf, alone_eq hcs, ih]
    refine bind_congr fun result => ?_
    cases result <;> rfl

end

end Edit.Strict

end Rephrase
