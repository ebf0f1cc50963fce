import Rephrase.Fault
import Rephrase.Node.Basic
import Rephrase.Phrase.Pattern
import Rephrase.Text.Line
import Rephrase.Text.Slice

/-!
Ways to replace a text in a file that may have changed since the text was found. Each of them looks
for the text first and gives no result if it is not there; recorded lines only tell which of several
places is meant.
-/

namespace Rephrase.Edit

def distance (a b : Nat) : Nat := (a - b) + (b - a)

/-- The nearer of two places to a line. -/
def nearer (line : Nat) (best next : Nat × Nat) : Nat × Nat :=
  -- Of two places that are equally near the first one stays.
  if distance next.2 line < distance best.2 line then next else best

/-- The byte offset of the place of a text whose line is nearest to a line. -/
def nearestPlace? (needle cs : List Char) (line : Nat) : Option Nat :=
  match Text.occurrences needle cs with
  | [] => none
  | first :: rest => some (rest.foldl (nearer line) first).1

def replaceNearest? (cs old wanted : List Char) (line : Nat) : Option (List Char) :=
  (nearestPlace? old cs line).bind fun start =>
    Text.splice? cs start (start + Text.size old) wanted

/-! ## Up to blanks -/

/-- The indexes below a count, the nearest to an index first. -/
def byDistance (count target : Nat) : List Nat :=
  -- The sort is stable, so the upper one of two that are equally near comes first.
  (List.range count).mergeSort fun a b => distance a target ≤ distance b target

/-- A line in which a collapsed text is replaced. -/
def replaceCollapsed? (text target replacement : List Char) : Option (List Char) :=
  let collapsed := Text.collapse text
  match (Text.find? target collapsed).bind (Text.cut? collapsed) with
  | none => none
  | some (before, rest) =>
    -- The indentation stays; all other blanks of the line are collapsed too.
    some (text.takeWhile Text.isBlank ++ before ++ replacement ++ rest.drop target.length)

/-- The text in which a collapsed text is replaced on the first of some lines that has it. -/
def replaceOnLine? (cs target replacement : List Char) (spans : List Text.Span) :
    Option (List Char) :=
  spans.findSome? fun span => do
    let text ← Text.slice? cs span.start span.stop
    let line ← replaceCollapsed? text target replacement
    Text.splice? cs span.start span.stop line

/-- Replaces a text that stands on one line up to its blanks, on the line nearest to a line. -/
def replaceLoosely? (cs old wanted : List Char) (line : Nat) : Option (List Char) :=
  let target := Text.collapse old
  if target.isEmpty then none
  else
    let spans := Text.lineSpans cs
    replaceOnLine? cs target (Text.collapse wanted)
      ((byDistance spans.length (line - 1)).filterMap (spans[·]?))

/-! ## Fragments -/

/-- The stretch from one line to another, without the end of the last one. -/
def region? (spans : List Text.Span) (first last : Nat) : Option Text.Span :=
  if first = 0 || last = 0 then none
  else do
    let top ← spans[first - 1]?
    let bottom ← spans[last - 1]?
    return ⟨top.start, bottom.stop⟩

/-- Where a piece stands. -/
def locate (cs : List Char) (spans : List Text.Span) (piece : Piece) :
    Except Fault (Option Text.Span) := do
  let text := piece.text.toList
  if text.isEmpty then return none
  match region? spans piece.start.line piece.stop.line with
  | none => return none
  | some region =>
    let recorded ← Fault.add region.start piece.start.column
    let stop ← Fault.add recorded (Text.size text)
    if stop ≤ region.stop && Text.slice? cs recorded stop = some text then
      return some ⟨recorded, stop⟩
    -- It is not at its recorded place, so the first place on its recorded lines is taken.
    match Text.slice? cs region.start region.stop with
    | none => throw .badRange
    | some inner =>
      return (Text.find? text inner).map fun found =>
        ⟨region.start + found, region.start + found + Text.size text⟩

def locateAll (cs : List Char) (spans : List Text.Span) :
    List Piece → Except Fault (Option (List Text.Span))
  | [] => return some []
  | piece :: rest => do
    match ← locate cs spans piece with
    | none => return none
    | some span => return (← locateAll cs spans rest).map (span :: ·)

def areInOrder : List Text.Span → Bool
  | a :: b :: rest => a.stop ≤ b.start && areInOrder (b :: rest)
  | _ => true

/-- Deals words out to pieces: each gets as many as it had. -/
def deal : List (List Char) → List Nat → List (List Char)
  | _, [] => []
  -- The last piece gets what is left, more words than it had or fewer.
  | words, [_] => [Text.unwords words]
  | words, count :: rest => Text.unwords (words.take count) :: deal (words.drop count) rest

/-- Replaces stretches of a text. -/
def replaceAll? (cs : List Char) : List (Text.Span × List Char) → Option (List Char)
  | [] => some cs
  | (span, text) :: rest =>
    -- The last one goes first, so that none of them moves before it is replaced.
    (replaceAll? cs rest).bind fun later => Text.splice? later span.start span.stop text

def dealOut (cs : List Char) (pieces : List Piece) (wanted : List Char) :
    Except Fault (Option (List Char)) := do
  if pieces.isEmpty then return none
  match ← locateAll cs (Text.lineSpans cs) pieces with
  | none => return none
  | some spans =>
    -- Pieces that were looked for on their lines may be found out of order, or twice in one place.
    if areInOrder spans then
      return replaceAll? cs (spans.zip (deal (Text.words wanted) (pieces.map (·.wordCount))))
    else
      return none

/-! ## Near a line -/

/-- A count as a signed number of 64 bits; counts from 2^63 on are negative. -/
def signed (n : Nat) : Int :=
  if n < 0x8000000000000000 then n else (n : Int) - 0x10000000000000000

/-- A signed number that has to be one of 64 bits. -/
def checked (n : Int) : Except Fault Int :=
  if -0x8000000000000000 ≤ n && n < 0x8000000000000000 then .ok n else .error .overflow

/-- The stretches of a line and of up to two lines to either side. -/
def nearbySpans (spans : List Text.Span) (line : Nat) : Except Fault (List Text.Span) := do
  -- The nearest line comes first, and of two equally near ones the upper.
  let base ← checked (signed line - 1)
  let indexes ← [0, -1, 1, -2, 2].mapM fun delta => checked (base + delta)
  return indexes.filterMap fun index => if index < 0 then none else spans[index.toNat]?

/-- Where a text stands on one of some lines. -/
def findOn? (cs : List Char) (find : List Char → Option Text.Span) (spans : List Text.Span) :
    Option Text.Span :=
  spans.findSome? fun span =>
    ((Text.slice? cs span.start span.stop).bind find).map fun found =>
      ⟨span.start + found.start, span.start + found.stop⟩

/-- Replaces a text, without the blanks around it, on a line or at most two lines away. -/
def replaceNearby (cs old wanted : List Char) (line : Nat) :
    Except Fault (Option (List Char)) := do
  let needle := Text.trim old
  if needle.isEmpty then return none
  let spans ← nearbySpans (Text.lineSpans cs) line
  let exactly (text : List Char) : Option Text.Span :=
    (Text.find? needle text).map fun start => ⟨start, start + Text.size needle⟩
  -- All lines are tried for the text as it is before any is tried for it in another case.
  let found := (findOn? cs exactly spans).or (findOn? cs (Phrase.findFolded? needle 0) spans)
  return found.bind fun span => Text.splice? cs span.start span.stop (Text.trim wanted)

end Rephrase.Edit
