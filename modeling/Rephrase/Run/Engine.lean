import Rephrase.Oracle.Consultation
import Rephrase.Run.Record

/-!
A whole run: finds the nodes, asks the oracle about them, applies what it proposes, and reports. A
dry run does the same but leaves the disk as it is.
-/

namespace Rephrase.Run

/-- What the clock shows when files are about to be changed, and when they have been. -/
structure Times where
  before : Instant
  after : Instant
  deriving DecidableEq, Repr

/-- The mean confidence of the accepted proposals; zero if there are none. -/
def averageConfidence (results : List Batch.Result) : Float :=
  let accepted := (results.flatMap (·.proposals)).filter (·.accepted)
  if accepted.isEmpty then 0 else mean (accepted.map (·.confidence))

def message? (results : List Batch.Result) (patch : Patch) : Option String :=
  if !results.any (·.success) then some "Every batch failed; no changes were applied"
  else if patch.replacements = 0 then some "No changes were applied"
  else none

def Stats.completed (stats : Stats) (batches : List Batch) (results : List Batch.Result)
    (patch : Patch) : Stats :=
  { stats with
    batches := batches.length
    failedBatches := results.countP fun result => !result.success
    proposals := (results.flatMap (·.proposals)).length
    applied := patch.replacements
    skipped := patch.skipped.length
    writeFailures := patch.failures.length }

def Task.completed (task : Task) (stats : Stats) (batches : List Batch)
    (results : List Batch.Result) (patch : Patch) : Report :=
  { success := results.any (·.success)
    status := .completed
    message := message? results patch
    session := task.session
    filesModified := patch.filesModified
    replacements := patch.replacements
    batchResults := results
    diffs := patch.diffs
    averageConfidence := averageConfidence results
    stats := stats.completed batches results patch }

def Task.commit (task : Task) (times : Times) (batches : List Batch)
    (results : List Batch.Result) : Disk.Action Patch := do
  let options := Patch.Options.ofConfig task.config
  -- Unless it is a dry run, the session is told before and after.
  if options.write then task.keepSnapshot times.before batches results
  let patch ← Patch.apply options batches results
  if options.write then task.keepRecords times.after patch
  return patch

/-- A computation with an oracle's memory and a disk. What both hold stays after a failure. -/
abbrev Stage (μ α : Type) := ExceptT Disk.Failure (StateM (μ × Disk)) α

def Stage.onDisk {μ α : Type} (action : Disk.Action α) : Stage μ α := fun (memory, disk) =>
  let (result, disk) := action disk
  (result, (memory, disk))

def Task.run {μ : Type} (task : Task) (parser : Parser) (oracle : Oracle μ) (times : Times) :
    Stage μ Report := do
  let found ← Stage.onDisk (do Disk.Action.compute (task.find parser (← get)))
  match found.nodes with
  | .error ending => return task.ended found.stats ending
  | .ok nodes =>
    let batches := task.batches nodes
    let results ← Oracle.consultAll oracle task.config.timeoutSeconds batches
    let patch ← Stage.onDisk (task.commit times batches results)
    return task.completed found.stats batches results patch

end Rephrase.Run
