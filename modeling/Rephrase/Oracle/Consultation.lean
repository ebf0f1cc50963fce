import Rephrase.Batch
import Rephrase.Disk.Access
import Rephrase.Language
import Rephrase.Oracle.Reply
import Rephrase.Oracle.Request
import Rephrase.Text.Window

/-!
Asks the oracle about batches, one after the other. A call that fails, takes too long or is answered
with nonsense makes a failed result, and the next batch has its turn.
-/

namespace Rephrase

inductive Oracle.Outcome where
  | answered (text : String)
  /-- The causes of a failure, the outermost one first. -/
  | failed (causes : List String)
  deriving DecidableEq, Repr

structure Oracle.Response where
  outcome : Oracle.Outcome
  seconds : Nat := 0
  deriving DecidableEq, Repr

/-- An oracle that keeps something in mind from call to call. The disk may change while it is
asked. -/
abbrev Oracle (μ : Type) := Oracle.Request → StateM (μ × Disk) Oracle.Response

namespace Oracle

/-- The texts of files that were read before, by their paths; a file that could not be read has
none. -/
abbrev Sources := List (String × Option (List Char))

def Sources.read (disk : Disk) (location : String) : StateM Sources (Option (List Char)) :=
  fun sources =>
    -- Each file is read only once, also one that could not be read.
    match sources.find? fun known => Path.same known.1 location with
    | some known => (known.2, sources)
    | none =>
      let text := (disk.textAt location).toOption.map String.toList
      (text, (location, text) :: sources)

/-- The source that goes with a node: its own snippet, or else the lines around it. -/
def snippetOf (disk : Disk) (node : Node) : StateM Sources String := do
  match node.snippet with
  | some snippet => return snippet
  | none =>
    match ← Sources.read disk node.location with
    | some text =>
      let markup := (Language.ofPath node.file).usesTags
      return String.ofList (Text.excerpt text node.start.line node.stop.line markup)
    -- The content stands in where the file cannot be read.
    | none => return node.content

def describe (disk : Disk) (index : Nat) (node : Node) : StateM Sources Descriptor := do
  let snippet ← snippetOf disk node
  return {
    index, snippet
    kind := node.kind
    file := node.file
    startLine := node.start.line
    endLine := node.stop.line
    content := node.content
    contextBefore := node.contextBefore
    contextAfter := node.contextAfter
    fragments := node.pieces.map fun pieces => pieces.map (·.text) }

/-- Nodes as the oracle sees them, counted from an index on. -/
def describeFrom (disk : Disk) (index : Nat) : List Node → StateM Sources (List Descriptor)
  | [] => return []
  | node :: rest => do
    let first ← describe disk index node
    return first :: (← describeFrom disk (index + 1) rest)

def requestFor (disk : Disk) (batch : Batch) : StateM Sources Request := do
  return {
    batchId := batch.id
    search := batch.search
    replacement := batch.replacement
    instruction := batch.instruction
    nodes := ← describeFrom disk 0 batch.nodes }

def causesText (causes : List String) : String := ": ".intercalate causes

def malformed (detail : String) : String := "malformed oracle response: " ++ detail

def noAnswer : String := "no answer in the text"

def resultOfReply (batch : Batch) (reply : Reply) : Batch.Result :=
  { batchId := batch.id
    proposals := reply.proposals
    success := true
    error := none
    processedNodes := batch.nodes.length
    acceptedProposals := reply.proposals.countP (·.accepted)
    overallStrategy := reply.overallStrategy
    confidence := reply.confidence }

/-- The result that a response to a request makes of a batch. -/
def resultOf (timeout : Nat) (batch : Batch) (request : Request) (response : Response) :
    Batch.Result :=
  if timeout < response.seconds then
    .failed batch ("oracle timed out after " ++ String.ofList (Decimal.natural timeout) ++ "s")
  else
    match response.outcome with
    | .failed causes => .failed batch (causesText causes)
    | .answered text =>
      match Reply.ofText? request.nodes text.toList with
      | some reply => resultOfReply batch reply
      | none => .failed batch (malformed noAnswer)

def consult {μ : Type} (oracle : Oracle μ) (timeout : Nat) (batch : Batch) :
    StateT Sources (StateM (μ × Disk)) Batch.Result := fun sources => do
  -- The disk is read before the oracle is asked, which may change it.
  let (request, sources) := requestFor (← get).2 batch sources
  return (resultOf timeout batch request (← oracle request), sources)

/-- Asks about all batches, in their order. No call may take more seconds than the timeout. -/
def consultAll {μ : Type} (oracle : Oracle μ) (timeout : Nat) (batches : List Batch) :
    StateM (μ × Disk) (List Batch.Result) :=
  StateT.run' (batches.mapM (consult oracle timeout)) []

end Oracle

end Rephrase
