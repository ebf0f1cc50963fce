/-!
Edit scripts between two lists of lines. A step names the lines that it is about by their place and
number on both sides.
-/

namespace Rephrase.Diff

/-- Some neighbouring lines: the first one's index, and how many they are. -/
structure Stretch where
  start : Nat
  length : Nat
  deriving DecidableEq, Repr

def Stretch.stop (s : Stretch) : Nat := s.start + s.length

inductive Kind where
  /-- The lines are the same on both sides. -/
  | keep
  /-- Lines of the old side go. -/
  | remove
  /-- Lines of the new side come. -/
  | add
  /-- Lines of the old side go, and lines of the new side come in their place. -/
  | replace
  deriving DecidableEq, Repr

/-- A step of a script. Where it has no lines on a side, it still has a place there; that place is
only approximate once steps have changed their order. -/
structure Step where
  kind : Kind
  old : Stretch
  new : Stretch
  deriving DecidableEq, Repr

namespace Step

def keep (old new length : Nat) : Step := ⟨.keep, ⟨old, length⟩, ⟨new, length⟩⟩

def remove (old length new : Nat) : Step := ⟨.remove, ⟨old, length⟩, ⟨new, 0⟩⟩

def add (old new length : Nat) : Step := ⟨.add, ⟨old, 0⟩, ⟨new, length⟩⟩

def isEmpty (step : Step) : Bool :=
  step.old.length = 0 && step.new.length = 0

def shift (step : Step) (move : Nat → Nat) : Step :=
  { step with
    old := { step.old with start := move step.old.start }
    new := { step.new with start := move step.new.start } }

/-- A step with its numbers of lines changed, on the sides where it has lines. -/
def resize (step : Step) (change : Nat → Nat) : Step :=
  { step with
    old := if step.kind = .add then step.old
      else { step.old with length := change step.old.length }
    new := if step.kind = .remove then step.new
      else { step.new with length := change step.new.length } }

end Step

/-- How many lines, at most `room`, are the same from two indexes on. -/
def commonPrefix (old new : Array String) (i j : Nat) : Nat → Nat
  | 0 => 0
  | room + 1 =>
    if old[i]? = new[j]? then commonPrefix old new (i + 1) (j + 1) room + 1 else 0

/-- How many lines, at most `room`, are the same in front of two indexes. -/
def commonSuffix (old new : Array String) (i j : Nat) : Nat → Nat
  | 0 => 0
  | room + 1 =>
    if old[i - 1]? = new[j - 1]? then commonSuffix old new (i - 1) (j - 1) room + 1 else 0

theorem commonPrefix_le (old new : Array String) (i j room : Nat) :
    commonPrefix old new i j room ≤ room := by
  induction room generalizing i j with
  | zero => simp [commonPrefix]
  | succ room ih =>
    rw [commonPrefix]
    split
    · exact Nat.succ_le_succ (ih _ _)
    · exact Nat.zero_le _

theorem commonSuffix_le (old new : Array String) (i j room : Nat) :
    commonSuffix old new i j room ≤ room := by
  induction room generalizing i j with
  | zero => simp [commonSuffix]
  | succ room ih =>
    rw [commonSuffix]
    split
    · exact Nat.succ_le_succ (ih _ _)
    · exact Nat.zero_le _

end Rephrase.Diff
