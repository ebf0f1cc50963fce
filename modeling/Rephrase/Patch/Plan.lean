import Rephrase.Batch
import Rephrase.Path

/-!
Plans which edits are applied to which file, and in which order. In a file the edits go from the last
line to the first, so that no edit moves the place of one that is still to come.
-/

namespace Rephrase.Patch

/-- An accepted proposal with the node that it is for. -/
structure PlannedEdit where
  batchId : String
  node : Node
  proposal : Proposal

structure FilePlan where
  location : String
  edits : List PlannedEdit

def editsOf (batch : Batch) (result : Batch.Result) : List PlannedEdit :=
  (result.proposals.filter (·.accepted)).filterMap fun proposal =>
    -- Proposals for nodes that the batch does not have are left out.
    (batch.nodes[proposal.nodeIndex]?).map fun node => ⟨batch.id, node, proposal⟩

def batchOf? (batches : List Batch) (id : String) : Option Batch :=
  -- Of batches with the same name the last one counts.
  batches.reverse.find? fun batch => batch.id = id

/-- The edits that the successful results ask for, in their order. -/
def plannedEdits (batches : List Batch) (results : List Batch.Result) : List PlannedEdit :=
  (results.filter (·.success)).flatMap fun result =>
    match batchOf? batches result.batchId with
    | some batch => editsOf batch result
    | none => []

/-- Puts an edit to the others of its file. Files are in the order of their paths. -/
def addEdit (edit : PlannedEdit) : List FilePlan → List FilePlan
  | [] => [⟨edit.node.location, [edit]⟩]
  | plan :: rest =>
    match Path.compare edit.node.location plan.location with
    | .lt => ⟨edit.node.location, [edit]⟩ :: plan :: rest
    -- Of paths with the same components the first one stands for all.
    | .eq => { plan with edits := plan.edits ++ [edit] } :: rest
    | .gt => plan :: addEdit edit rest

/-- Whether an edit may be applied before another: its node starts in the same place or later. -/
def notBefore (a b : PlannedEdit) : Bool :=
  b.node.start.line < a.node.start.line ||
    (b.node.start.line = a.node.start.line && b.node.start.column ≤ a.node.start.column)

def plans (batches : List Batch) (results : List Batch.Result) : List FilePlan :=
  let grouped := (plannedEdits batches results).foldl (fun plans edit => addEdit edit plans) []
  grouped.map fun plan => { plan with edits := plan.edits.mergeSort notBefore }

end Rephrase.Patch
