import Rephrase.Patch.Apply
import Rephrase.Run.Search
import Rephrase.Session.History
import Rephrase.Session.Snapshot

/-!
What a run leaves in its session: before it changes files, what they held; afterwards, what it has
done to each of them, and a summary. A session that cannot be written does not stop the run.
-/

namespace Rephrase.Run

open Disk (Action)

def ignoringRefusal (action : Action Unit) : Action Unit := do
  match ← action.attempt with
  | .error (.fault f) => throw (.fault f)
  | _ => return

/-- Does operations in their order until the disk refuses one; whether all were done. -/
def untilRefusal : List (Action Unit) → Action Bool
  | [] => return true
  | action :: rest => do
    match ← action.attempt with
    | .ok _ => untilRefusal rest
    | .error (.refused _) => return false
    | .error (.fault f) => throw (.fault f)

/-! ## Before the change -/

def targets (batches : List Batch) (results : List Batch.Result) : List String :=
  let files := (results.filter (·.success)).flatMap fun result =>
    -- Of batches with the same name the first one counts here, and the last one where edits are
    -- planned.
    match batches.find? fun batch => batch.id = result.batchId with
    | some batch => (Patch.editsOf batch result).map (·.node.file)
    | none => []
  files.eraseDups

def Task.keepSnapshot (task : Task) (now : Instant) (batches : List Batch)
    (results : List Batch.Result) : Action Unit := do
  let files := targets batches results
  if files.isEmpty then return
  let snapshot := Snapshot.take (← get) task.root files
  let span ← Action.compute (Instant.spanOfHours task.config.sessionHours)
  ignoringRefusal (Snapshot.save task.root now task.session snapshot span)

/-! ## After the change -/

def Task.description (task : Task) : String :=
  "\"" ++ task.search ++ "\" -> \"" ++ task.replacement ++ "\""

def Task.recordOfApplied (task : Task) (now : Instant) (edit : Patch.Applied) : History.Record :=
  { kind := "modification"
    file := edit.file
    description := task.description
    time := now
    approach := edit.way.label
    success := true
    details := .object [("line", .ofNat edit.line)] }

def Task.recordOfSkipped (task : Task) (now : Instant) (edit : Patch.Skipped) : History.Record :=
  { kind := "skipped"
    file := edit.file
    description := task.description
    time := now
    approach := "none"
    success := false
    details := .ofMembers
      [("line", .ofNat edit.line),
        ("batchId", .string edit.batchId),
        ("reason", .string edit.reason)] }

def Task.recordOfFailure (task : Task) (now : Instant) (failure : Patch.Failure) :
    History.Record :=
  { kind := "write_failure"
    file := failure.file
    description := task.description
    time := now
    approach := "none"
    success := false
    details := .object [("error", .string failure.error)] }

def Task.records (task : Task) (now : Instant) (patch : Patch) : List History.Record :=
  patch.applied.map (task.recordOfApplied now) ++ patch.skipped.map (task.recordOfSkipped now) ++
    patch.failures.map (task.recordOfFailure now)

def summaryKey : String := "last_run"

def Task.summary (task : Task) (now : Instant) (patch : Patch) : Json :=
  .object
    [("sessionId", .string task.session),
      ("description", .string task.description),
      ("filesModified", .ofStrings patch.filesModified),
      ("totalReplacements", .ofNat patch.replacements),
      ("timestamp", now.toJson)]

def Task.keepRecords (task : Task) (now : Instant) (patch : Patch) : Action Unit := do
  let additions := (task.records now patch).map (History.append task.root task.session)
  -- There is no summary of a history that is not complete.
  if ← untilRefusal additions then
    let span ← Action.compute (Instant.spanOfHours task.config.sessionHours)
    ignoringRefusal (Store.set task.root now summaryKey (task.summary now patch) span)

end Rephrase.Run
