import Rephrase.Fault
import Rephrase.Text.Line

/-!
Windows on a text: its first characters, and the lines around a range of lines. Lines are counted
from 1.
-/

namespace Rephrase.Text

def truncate (cs : List Char) (max : Nat) : List Char :=
  if cs.length ≤ max then cs
  -- There is no room for more than the dots.
  else if max ≤ 3 then cs.take max
  else cs.take (max - 3) ++ ['.', '.', '.']

structure Surroundings where
  before : List (List Char)
  after : List (List Char)
  deriving DecidableEq, Repr

/-- Up to `count` lines before line `first` and after line `last`. -/
def surroundings (lines : List (List Char)) (first last count : Nat) :
    Except Fault Surroundings := do
  let above := lines.take (first - 1)
  -- The place where the lines after end has to fit in a machine word, even if the text has fewer
  -- lines.
  let reach ← Fault.add (min last lines.length) count
  return {
    before := above.drop (above.length - count)
    after := (lines.take reach).drop last }

/-- How many lines a window grows. -/
def reachFor (mark : Char) : List (List Char) → Nat
  | line :: next :: rest =>
    if line.elem mark then 0 else reachFor mark (next :: rest) + 1
  -- The last line ends the window, whether it shows the mark or not.
  | _ => 0

/-- The lines from index `low` to index `high`, ends included. -/
def lineRange (lines : List (List Char)) (low high : Nat) : List (List Char) :=
  (lines.take (high + 1)).drop low

/-- A range of lines with one line of margin on each side. -/
def excerpt (cs : List Char) (first last : Nat) (markup : Bool) : List Char :=
  let all := lines cs
  let final := all.length - 1
  let top := min (first - 1) final
  let bottom := max top (min (last - 1) final)
  let low := top - 1
  let high := min (bottom + 1) final
  -- In markup each side grows by up to two more lines, until there is an opening angle bracket
  -- above and a closing one below.
  let above := if markup then reachFor '<' (lineRange all (top - 3) low).reverse else 0
  let below := if markup then reachFor '>' (lineRange all high (min (bottom + 3) final)) else 0
  ['\n'].intercalate (lineRange all (low - above) (high + below))

end Rephrase.Text
