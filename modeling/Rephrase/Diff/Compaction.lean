import Rephrase.Diff.Step

/-!
Tidies up an edit script. Steps of the same kind that are next to each other are joined, and added
lines slide as far down as the lines around them allow, so that they stand where a reader expects
them. A step slides through the steps above it and then through those below it; steps above are
listed from the nearest one on.
-/

namespace Rephrase.Diff

/-- What sliding through some steps uses up. -/
def weight : List Step → Nat
  | [] => 0
  -- One for each step as well, since steps without lines are passed too.
  | step :: rest => step.old.length + step.new.length + 1 + weight rest

/-- Kept lines that a sliding step leaves behind join the kept lines there, or are a step. -/
def leaveKept (join : Step → Step) (fresh : Step) : List Step → List Step
  | step :: rest => if step.kind = .keep then join step :: rest else fresh :: step :: rest
  | [] => [fresh]

structure Placed where
  above : List Step
  step : Step
  below : List Step

/-- Slides a step up as far as it goes. -/
def slideUp (old new : Array String) (step : Step) (below : List Step) : List Step → Placed
  | [] => ⟨[], step, below⟩
  | near :: rest =>
    -- Added lines pass kept ones for as long as the last lines of both are the same.
    if near.kind = .keep then
      let n := commonSuffix old new near.old.stop step.new.stop
        (min near.old.length step.new.length)
      if n = 0 then
        if near.isEmpty then slideUp old new step below rest else ⟨near :: rest, step, below⟩
      else
        let fresh := Step.keep (near.old.stop - n) (step.new.stop - n) n
        let join (kept : Step) := (kept.shift (· - n)).resize (· + n)
        let less := near.resize (· - n)
        slideUp old new (step.shift (· - n)) (leaveKept join fresh below)
          (if less.isEmpty then rest else less :: rest)
    -- A step joins one of its own kind, and passes one of the other.
    else if near.kind = step.kind then
      let length := if near.kind = .remove then step.old.length else step.new.length
      slideUp old new (near.resize (· + length)) below rest
    else
      slideUp old new step (near :: below) rest
termination_by above => weight above
decreasing_by
  · simp [weight]
  · have small := commonSuffix_le old new near.old.stop step.new.stop
      (min near.old.length step.new.length)
    split
    · simp [weight]
    · simp [weight, Step.resize, *]
      omega
  · simp [weight]
  · simp [weight]

/-- Slides a step down, by the same rules. -/
def slideDown (old new : Array String) (step : Step) (above : List Step) : List Step → Placed
  | [] => ⟨above, step, []⟩
  | near :: rest =>
    if near.kind = .keep then
      let n := commonPrefix old new near.old.start step.new.start
        (min near.old.length step.new.length)
      if n = 0 then
        if near.isEmpty then slideDown old new step above rest else ⟨above, step, near :: rest⟩
      else
        let fresh := Step.keep near.old.start step.new.start n
        let less := (near.shift (· + n)).resize (· - n)
        slideDown old new (step.shift (· + n)) (leaveKept (·.resize (· + n)) fresh above)
          (if less.isEmpty then rest else less :: rest)
    else if near.kind = step.kind then
      let length := if near.kind = .remove then near.old.length else near.new.length
      slideDown old new (step.resize (· + length)) above rest
    else
      slideDown old new step (near :: above) rest
termination_by below => weight below
decreasing_by
  · simp [weight]
  · have small := commonPrefix_le old new near.old.start step.new.start
      (min near.old.length step.new.length)
    split
    · simp [weight]
    · simp [weight, Step.resize, Step.shift, *]
      omega
  · simp [weight]
  · simp [weight]

def slideAll (old new : Array String) (kind : Kind) (above : List Step) :
    Nat → List Step → List Step
  | 0, below => above.reverse ++ below
  | _ + 1, [] => above.reverse
  | fuel + 1, step :: below =>
    if step.kind = kind then
      let up := slideUp old new step below above
      let down := slideDown old new up.step up.above up.below
      slideAll old new kind (down.step :: down.above) fuel down.below
    else
      slideAll old new kind (step :: above) fuel below

def slide (old new : Array String) (steps : List Step) : List Step :=
  -- The fuel bounds the number of steps.
  let fuel := 2 * (old.size + new.size) + steps.length + 2
  slideAll old new .add [] fuel (slideAll old new .remove [] fuel steps)

def joined (first : Option Step) (step : Step) : Step :=
  match first with
  | none => step
  | some first =>
    { first with
      old := { first.old with length := first.old.length + step.old.length }
      new := { first.new with length := first.new.length + step.new.length } }

/-- The step for lines that go and lines that come between the same kept lines. -/
def changed : Option Step → Option Step → List Step
  | some removed, some added => [⟨.replace, removed.old, added.new⟩]
  | some removed, none => [removed]
  | none, some added => [added]
  | none, none => []

/-- One step of `combine`: the kept, removed and added lines that are still open. -/
def combineFrom (kept removed added : Option Step) : List Step → List Step
  | [] => kept.toList ++ changed removed added
  | step :: rest =>
    match step.kind with
    | .keep => changed removed added ++ combineFrom (some (joined kept step)) none none rest
    | .add => kept.toList ++ combineFrom none removed (some (joined added step)) rest
    | _ => kept.toList ++ combineFrom none (some (joined removed step)) added rest

/-- A script in which kept lines and changes take turns. -/
def combine (steps : List Step) : List Step :=
  combineFrom none none none steps

end Rephrase.Diff
