import Rephrase.Text.Slice

/-!
Lines. A line ends after a line feed; a carriage return before the line feed belongs to the line
break, not to the line. The last line may lack its break.
-/

namespace Rephrase.Text

/-- One step of `rawLines`: `line` is the current line so far, reversed. -/
def rawLinesFrom (done : List (List Char)) (line : List Char) : List Char → List (List Char)
  | [] => if line.isEmpty then done.reverse else (line.reverse :: done).reverse
  | c :: rest =>
    if c = '\n' then rawLinesFrom ((c :: line).reverse :: done) [] rest
    else rawLinesFrom done (c :: line) rest

/-- The lines of a text, each with its line feed. Put together they are the text again. -/
def rawLines (cs : List Char) : List (List Char) :=
  rawLinesFrom [] [] cs

/-- A raw line without its line break: the line feed, and one carriage return before it. -/
def lineBody (raw : List Char) : List Char :=
  match raw.reverse with
  | '\n' :: '\r' :: rest => rest.reverse
  | '\n' :: rest => rest.reverse
  | _ => raw

def lines (cs : List Char) : List (List Char) :=
  (rawLines cs).map lineBody

/-- A raw line without its line feed and without any carriage return before it. -/
def lineCore (raw : List Char) : List Char :=
  let unbroken := match raw.reverse with
    | '\n' :: rest => rest
    | whole => whole
  (unbroken.dropWhile (· == '\r')).reverse

/-- A stretch of a text, in bytes: from `start` up to, and without, `stop`. -/
structure Span where
  start : Nat
  stop : Nat
  deriving DecidableEq, Repr

def lineSpansFrom (offset : Nat) : List (List Char) → List Span
  | [] => []
  | raw :: rest => ⟨offset, offset + size (lineCore raw)⟩ :: lineSpansFrom (offset + size raw) rest

/-- Where each line stands in the text, without its line feed and the carriage returns before it. -/
def lineSpans (cs : List Char) : List Span :=
  lineSpansFrom 0 (rawLines cs)

/-- A line, counted from 1, and a byte column within it, counted from 0. -/
structure Position where
  line : Nat
  column : Nat
  deriving DecidableEq, Repr

/-- The byte offsets at which lines start: 0, and after every line feed. -/
structure LineStarts where
  starts : List Nat

/-- One step of `LineStarts.ofText`, at the given offset. -/
def lineStartsFrom (starts : List Nat) (offset : Nat) : List Char → List Nat
  | [] => starts.reverse
  | c :: rest =>
    if c = '\n' then lineStartsFrom ((offset + 1) :: starts) (offset + 1) rest
    else lineStartsFrom starts (offset + c.utf8Size) rest

def LineStarts.ofText (cs : List Char) : LineStarts :=
  ⟨lineStartsFrom [0] 0 cs⟩

/-- One step of `LineStarts.position`: `here` is the line that the offset is known to reach. -/
def LineStarts.positionFrom (offset : Nat) (here : Position) : List Nat → Position
  | [] => here
  | start :: rest =>
    if start ≤ offset then positionFrom offset ⟨here.line + 1, offset - start⟩ rest else here

/-- The line that holds a byte offset and the column in it. -/
def LineStarts.position (index : LineStarts) (offset : Nat) : Position :=
  -- An offset beyond the end of the text counts as part of the last line.
  positionFrom offset ⟨0, 0⟩ index.starts

end Rephrase.Text
