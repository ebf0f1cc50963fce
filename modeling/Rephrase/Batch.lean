import Rephrase.Mean
import Rephrase.Node.Json
import Rephrase.Oracle.Proposal

/-!
Batches: the nodes that go into one call of the oracle, and what became of them.
-/

namespace Rephrase

open Json.Decode

structure Batch where
  id : String
  search : String
  replacement : String
  instruction : String
  nodes : List Node
  /-- The mean relevance of the nodes. -/
  confidence : Float

structure Batch.Result where
  batchId : String
  proposals : List Proposal
  success : Bool
  error : Option String
  processedNodes : Nat
  /-- How many proposals the oracle wants applied. -/
  acceptedProposals : Nat
  overallStrategy : String
  confidence : Float

namespace Batch

/-- Cuts a list into parts of `n + 1`; the last part may be shorter. -/
def chunks {α : Type} (n : Nat) : List α → List (List α)
  | [] => []
  | x :: rest => (x :: rest.take n) :: chunks n (rest.drop n)
termination_by xs => xs.length
decreasing_by simp only [List.length_drop, List.length_cons]; omega

def idOf (place : Nat) : String :=
  -- Places are counted from 0, and names from 1.
  "batch-" ++ String.ofList (Decimal.padded 3 (place + 1))

/-- The batches of some nodes, in order, with at most `size` nodes each. -/
def ofNodes (nodes : List Node) (search replacement instruction : String) (size : Nat) :
    List Batch :=
  -- A size of zero counts as one.
  (chunks (size - 1) nodes).mapIdx fun place part =>
    { id := idOf place
      search, replacement, instruction
      nodes := part
      confidence := mean (part.map (·.relevance)) }

def toJson (batch : Batch) : Json :=
  .object
    [("batch_id", .string batch.id),
      ("search_term", .string batch.search),
      ("replacement_term", .string batch.replacement),
      ("user_instruction", .string batch.instruction),
      ("nodes", .array (batch.nodes.map Node.toJson)),
      ("confidence", .number (.float batch.confidence))]

def decode : Json.Decoder Batch := fun levels document => do
  let field ← record
    ["batch_id", "search_term", "replacement_term", "user_instruction", "nodes", "confidence"]
    levels document
  return {
    id := ← (field "batch_id").required string
    search := ← (field "search_term").required string
    replacement := ← (field "replacement_term").required string
    instruction := ← (field "user_instruction").required string
    nodes := ← (field "nodes").required (list Node.decode)
    confidence := ← (field "confidence").required float }

end Batch

namespace Batch.Result

def failed (batch : Batch) (error : String) : Batch.Result :=
  { batchId := batch.id
    proposals := []
    success := false
    error := some error
    processedNodes := batch.nodes.length
    acceptedProposals := 0
    overallStrategy := "failed"
    confidence := 0 }

def toJson (result : Batch.Result) : Json :=
  .object <|
    [("batchId", .string result.batchId),
      ("modifications", .array (result.proposals.map Proposal.toJson)),
      ("success", .bool result.success)] ++
    (match result.error with
      | some error => [("errorMessage", .string error)]
      | none => []) ++
    [("processedNodes", .ofNat result.processedNodes),
      ("successfulModifications", .ofNat result.acceptedProposals),
      ("overallStrategy", .string result.overallStrategy),
      ("batchConfidence", .number (.float result.confidence))]

def decode : Json.Decoder Batch.Result := fun levels document => do
  let field ← record
    ["batchId", "modifications", "success", "errorMessage", "processedNodes",
      "successfulModifications", "overallStrategy", "batchConfidence"] levels document
  return {
    batchId := ← (field "batchId").required string
    proposals := ← (field "modifications").required (list Proposal.decode)
    success := ← (field "success").required bool
    error := ← (field "errorMessage").withDefault (nullable string) none
    processedNodes := ← (field "processedNodes").required nat
    acceptedProposals := ← (field "successfulModifications").required nat
    overallStrategy := ← (field "overallStrategy").required string
    confidence := ← (field "batchConfidence").required float }

end Batch.Result

end Rephrase
