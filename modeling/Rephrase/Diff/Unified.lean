import Rephrase.Decimal.Digits
import Rephrase.Diff.Compaction
import Rephrase.Diff.Search
import Rephrase.Text.Line
import Rephrase.Text.Slice

/-!
Changes of a file as a unified diff: hunks of changed lines with up to three unchanged lines around
them.
-/

namespace Rephrase.Diff

def contextLines : Nat := 3

/-- One step of `splitLines`: `line` is the current line so far, reversed. -/
def splitLinesFrom (done : List String) (line : List Char) : List Char → List String
  | [] => if line.isEmpty then done.reverse else (String.ofList line.reverse :: done).reverse
  -- A carriage return with a line feed behind it is one end, not two.
  | '\r' :: '\n' :: rest =>
    splitLinesFrom (String.ofList ('\n' :: '\r' :: line).reverse :: done) [] rest
  | c :: rest =>
    if c = '\n' || c = '\r' then
      splitLinesFrom (String.ofList (c :: line).reverse :: done) [] rest
    else splitLinesFrom done (c :: line) rest

/-- The lines of a text with their ends: a line feed, a carriage return, or both in this order. -/
def splitLines (cs : List Char) : List String :=
  splitLinesFrom [] [] cs

def lastKept (step : Step) : Step :=
  let extra := step.old.length - contextLines
  (step.shift (· + extra)).resize (· - extra)

def firstKept (step : Step) : Step :=
  step.resize fun length => length - (length - contextLines)

/-- A script without the kept lines at its ends that are too far from a change. -/
def trimKept (steps : List Step) : List Step :=
  let trimFirst := match steps with
    | step :: rest => (if step.kind = Kind.keep then lastKept step else step) :: rest
    | [] => []
  match trimFirst.reverse with
  | step :: rest => ((if step.kind = Kind.keep then firstKept step else step) :: rest).reverse
  | [] => []

/-- One step of `hunks`: `group` is the current hunk so far, reversed. -/
def hunksFrom (group : List Step) : List Step → List (List Step)
  | [] =>
    match group with
    | [] => []
    | [step] => if step.kind = .keep then [] else [[step]]
    | _ => [group.reverse]
  | step :: rest =>
    -- Kept lines that are more than the context of two changes end a hunk and start the next.
    if step.kind = .keep && 2 * contextLines < step.old.length then
      (firstKept step :: group).reverse :: hunksFrom [lastKept step] rest
    else hunksFrom (step :: group) rest

def hunks (steps : List Step) : List (List Step) :=
  hunksFrom [] (trimKept steps)

/-- The lines of one side in a hunk's header: the first one's number and how many they are, unless
that is one. -/
def writeRange (start stop : Nat) : List Char :=
  let length := stop - start
  if length = 1 then Decimal.natural (start + 1)
  else
    -- Without lines it is the number of the line in front.
    Decimal.natural (if length = 0 then start else start + 1) ++ ',' :: Decimal.natural length

def writeHeader (hunk : List Step) : List Char :=
  match hunk.head?, hunk.getLast? with
  | some first, some last =>
    "@@ -".toList ++ writeRange first.old.start last.old.stop ++ " +".toList ++
      writeRange first.new.start last.new.stop ++ " @@\n".toList
  | _, _ => []

def writeLine (sign : Char) (line : String) : List Char :=
  let cs := line.toList
  let ends := match cs.getLast? with
    | some c => c == '\n' || c == '\r'
    | none => false
  sign :: cs ++ if ends then [] else "\n\\ No newline at end of file\n".toList

def writeLines (sign : Char) (lines : Array String) (s : Stretch) : List Char :=
  ((lines.toList.drop s.start).take s.length).flatMap (writeLine sign)

def writeStep (old new : Array String) (step : Step) : List Char :=
  match step.kind with
  | .keep => writeLines ' ' old step.old
  -- What goes stands in front of what comes.
  | _ => writeLines '-' old step.old ++ writeLines '+' new step.new

def writeHunk (old new : Array String) (hunk : List Step) : List Char :=
  writeHeader hunk ++ hunk.flatMap (writeStep old new)

def shownScript (old new : Array String) : List Step :=
  combine (slide old new (script old new))

def unified (path : String) (old new : List Char) : List Char :=
  if old = new then []
  else
    let oldLines := (splitLines old).toArray
    let newLines := (splitLines new).toArray
    "--- a/".toList ++ path.toList ++ "\n+++ b/".toList ++ path.toList ++ '\n' ::
      (hunks (shownScript oldLines newLines)).flatMap (writeHunk oldLines newLines)

def count (diff : List Char) : Nat × Nat :=
  -- A changed line may start like a header as well, and is then not counted.
  let counted := (Text.lines diff).filter fun line =>
    !("+++".toList.isPrefixOf line || "---".toList.isPrefixOf line)
  (counted.countP fun line => line.head? == some '+',
    counted.countP fun line => line.head? == some '-')

end Rephrase.Diff

namespace Rephrase

structure FileChange where
  path : String
  diff : String
  deriving DecidableEq, Repr

end Rephrase
