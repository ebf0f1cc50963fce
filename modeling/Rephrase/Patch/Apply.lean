import Rephrase.Config.Basic
import Rephrase.Disk.Access
import Rephrase.Patch.Outcome
import Rephrase.Patch.Plan

/-!
Applies the planned edits. All edits of a file are made to its text first, and the file is written
once, if there was anything to change. A file that cannot be read or written does not keep the
others from being edited.
-/

namespace Rephrase.Patch

open Disk (Action)

/-- A file's text on the way through its edits, with what has become of them. -/
structure Draft where
  content : List Char
  applied : List Applied := []
  skipped : List Skipped := []
  deriving DecidableEq, Repr

def PlannedEdit.skip (edit : PlannedEdit) (reason : Reason) : Skipped :=
  { file := edit.node.file
    line := edit.node.start.line
    batchId := edit.batchId
    nodeIndex := edit.proposal.nodeIndex
    reason := reason.message }

def Draft.skip (draft : Draft) (edit : PlannedEdit) (reason : Reason) : Draft :=
  { draft with skipped := draft.skipped ++ [edit.skip reason] }

def Draft.edit (file : String) (draft : Draft) (edit : PlannedEdit) : Except Fault Draft := do
  if Edit.changesNothing edit.proposal then return draft.skip edit .noop
  else if edit.proposal.strategy = .skip then return draft.skip edit .declined
  else
    match ← Edit.apply draft.content edit.node edit.proposal with
    | some (content, way) =>
      -- A strategy may find its place and still put the same text there.
      if content = draft.content then return draft.skip edit .unchanged
      else
        let applied : Applied := ⟨file, edit.node.start.line, way⟩
        return { draft with content, applied := draft.applied ++ [applied] }
    | none => return draft.skip edit .unmatched

/-- Applies the edits of a file to its text, one after the other. -/
def draftOf (file : String) (content : List Char) (edits : List PlannedEdit) :
    Except Fault Draft :=
  edits.foldlM (Draft.edit file) { content }

/-- Whether files are written, and whether their changes are reported as diffs. -/
structure Options where
  write : Bool
  diffs : Bool
  deriving DecidableEq, Repr

def Options.ofConfig (config : Config) : Options :=
  ⟨!config.dryRun, config.generateDiffs⟩

def modified (patch : Patch) (options : Options) (file : String) (before : List Char)
    (draft : Draft) : Patch :=
  let diff : FileChange := ⟨file, String.ofList (Diff.unified file before draft.content)⟩
  { patch with
    filesModified := patch.filesModified ++ [file]
    replacements := patch.replacements + draft.applied.length
    applied := patch.applied ++ draft.applied
    diffs := if options.diffs then patch.diffs ++ [diff] else patch.diffs }

def failed (patch : Patch) (file : String) (error : Disk.Error) : Patch :=
  { patch with failures := patch.failures ++ [⟨file, error.message⟩] }

def write (patch : Patch) (options : Options) (location file : String) (before : List Char)
    (draft : Draft) : Action Patch := do
  let done := patch.modified options file before draft
  if options.write then
    match ← (Disk.writeText location (String.ofList draft.content)).attempt with
    | .ok _ => return done
    | .error (.refused error) => return patch.failed file error
    | .error (.fault fault) => throw (.fault fault)
  else
    return done

def editFile (options : Options) (patch : Patch) (plan : FilePlan) : Action Patch := do
  match plan.edits with
  | [] => return patch
  | first :: _ =>
    -- In reports the file goes by the path of its first edit.
    let file := first.node.file
    match (← get).textAt plan.location with
    | .error error => return patch.failed file error
    | .ok text =>
      let draft ← Action.compute (draftOf file text.toList plan.edits)
      let patch := { patch with skipped := patch.skipped ++ draft.skipped }
      if draft.applied.isEmpty then return patch
      else patch.write options plan.location file text.toList draft

/-- Applies what the oracle has proposed for some batches. -/
def apply (options : Options) (batches : List Batch) (results : List Batch.Result) :
    Action Patch :=
  (plans batches results).foldlM (editFile options) {}

end Rephrase.Patch
