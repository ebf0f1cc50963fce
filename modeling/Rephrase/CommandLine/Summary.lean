import Rephrase.Decimal.Shortest
import Rephrase.Run.Report

/-!
The summary of a run for people: what goes to the output, and what goes to the errors.
-/

namespace Rephrase.CommandLine

structure Texts where
  output : String := ""
  errors : String := ""
  deriving DecidableEq, Repr

def linesText (lines : List String) : String :=
  String.join (lines.map (· ++ "\n"))

def countText (n : Nat) : String := String.ofList (Decimal.natural n)

def shareText (x : Float) : String :=
  if x.isFinite then String.ofList (Decimal.fixed 2 x) else "NaN"

def headline (report : Run.Report) (dryRun : Bool) : String :=
  (if dryRun then "Would modify " else "Modified ") ++ countText report.filesModified.length ++
    " files (" ++ countText report.replacements ++ " replacements) in " ++
    countText report.milliseconds ++ "ms"

def countsLine (report : Run.Report) : String :=
  let stats := report.stats
  "  " ++ countText stats.candidateFiles ++ " candidates, " ++ countText stats.nodesExtracted ++
    " nodes (" ++ countText stats.fragmentedNodes ++ " fragmented), " ++
    countText stats.batches ++ " batches (" ++ countText stats.failedBatches ++ " failed), " ++
    countText stats.skipped ++ " skipped, avg confidence " ++ shareText report.averageConfidence

def failureLines (results : List Batch.Result) : List String :=
  (results.filter fun result => !result.success).filterMap fun result =>
    result.error.map fun error => "  " ++ result.batchId ++ " failed: " ++ error

/-- The summary of a run. A run that was not completed has only its message. -/
def summary (report : Run.Report) (dryRun : Bool) : Texts :=
  let message := report.message.toList
  if report.status = .completed then
    { output := linesText <|
        report.diffs.map (·.diff) ++ [headline report dryRun] ++
          report.filesModified.map ("  " ++ ·) ++
          [countsLine report, "  session " ++ report.session]
      errors := linesText (message ++ failureLines report.batchResults) }
  else
    { errors := linesText message }

end Rephrase.CommandLine
