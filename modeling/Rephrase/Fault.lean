/-!
Faults: what ends a computation at once, because a number or a place is out of its range. They
are bugs of the caller or absurd settings, not answers, and nobody recovers from them.
-/

namespace Rephrase

/-- Why a computation cannot go on. -/
inductive Fault where
  /-- A count or an offset leaves the 64 bits that it is kept in. -/
  | overflow
  /-- A stretch of a text or a list has its ends in the wrong order, beyond the end, or inside a
  character. -/
  | badRange
  /-- A span of time or a date lies outside the calendar. -/
  | badTime
  deriving DecidableEq, Repr

namespace Fault

/-- Counts and offsets are below this number, as they have 64 bits. -/
def wordLimit : Nat := 0x10000000000000000

def add (a b : Nat) : Except Fault Nat :=
  if a + b < wordLimit then .ok (a + b) else .error .overflow

def sub (a b : Nat) : Except Fault Nat :=
  if b ≤ a then .ok (a - b) else .error .overflow

end Fault

end Rephrase
