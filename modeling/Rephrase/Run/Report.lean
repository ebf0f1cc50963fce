import Rephrase.Batch
import Rephrase.Patch.Outcome

/-!
What is reported of a run: how it ended, what it has changed, and how much it has looked at.
-/

namespace Rephrase.Run

open Json.Decode

inductive Status where
  | completed
  /-- No file may hold the phrase. -/
  | noCandidates
  /-- The phrase stands in no place that can be edited. -/
  | noNodes
  | failed
  deriving DecidableEq, Repr

def Status.label : Status → String
  | .completed => "completed"
  | .noCandidates => "no_candidates"
  | .noNodes => "no_nodes"
  | .failed => "failed"

def Status.ofLabel? : String → Option Status
  | "completed" => some .completed
  | "no_candidates" => some .noCandidates
  | "no_nodes" => some .noNodes
  | "failed" => some .failed
  | _ => none

def Status.decode : Json.Decoder Status := word Status.ofLabel?

structure Stats where
  filesScanned : Nat := 0
  candidateFiles : Nat := 0
  nodesExtracted : Nat := 0
  fragmentedNodes : Nat := 0
  batches : Nat := 0
  failedBatches : Nat := 0
  proposals : Nat := 0
  applied : Nat := 0
  skipped : Nat := 0
  writeFailures : Nat := 0
  deriving DecidableEq, Repr

def Stats.toJson (s : Stats) : Json :=
  .object
    [("filesScanned", .ofNat s.filesScanned),
      ("candidateFiles", .ofNat s.candidateFiles),
      ("nodesExtracted", .ofNat s.nodesExtracted),
      ("fragmentedNodes", .ofNat s.fragmentedNodes),
      ("batches", .ofNat s.batches),
      ("failedBatches", .ofNat s.failedBatches),
      ("proposals", .ofNat s.proposals),
      ("applied", .ofNat s.applied),
      ("skipped", .ofNat s.skipped),
      ("writeFailures", .ofNat s.writeFailures)]

def Stats.decode : Json.Decoder Stats := fun levels document => do
  let field ← record
    ["filesScanned", "candidateFiles", "nodesExtracted", "fragmentedNodes", "batches",
      "failedBatches", "proposals", "applied", "skipped", "writeFailures"] levels document
  return {
    filesScanned := ← (field "filesScanned").required nat
    candidateFiles := ← (field "candidateFiles").required nat
    nodesExtracted := ← (field "nodesExtracted").required nat
    fragmentedNodes := ← (field "fragmentedNodes").required nat
    batches := ← (field "batches").required nat
    failedBatches := ← (field "failedBatches").required nat
    proposals := ← (field "proposals").required nat
    applied := ← (field "applied").required nat
    skipped := ← (field "skipped").required nat
    writeFailures := ← (field "writeFailures").required nat }

structure Report where
  success : Bool
  status : Status
  message : Option String
  session : String
  filesModified : List String
  replacements : Nat
  batchResults : List Batch.Result
  diffs : List FileChange
  averageConfidence : Float
  /-- How long the run has taken, for those who have a clock. -/
  milliseconds : Nat := 0
  stats : Stats

def Report.toJson (r : Report) : Json :=
  .object <|
    [("success", .bool r.success),
      ("status", .string r.status.label)] ++
    (match r.message with
      | some message => [("message", .string message)]
      | none => []) ++
    [("sessionId", .string r.session),
      ("filesModified", .ofStrings r.filesModified),
      ("totalReplacements", .ofNat r.replacements),
      ("batchResults", .array (r.batchResults.map Batch.Result.toJson)),
      ("diffs", .array (r.diffs.map FileChange.toJson)),
      ("averageConfidence", .number (.float r.averageConfidence)),
      ("processingTimeMs", .ofNat r.milliseconds),
      ("stats", r.stats.toJson)]

def Report.fieldNames : List String :=
  ["success", "status", "message", "sessionId", "filesModified", "totalReplacements",
    "batchResults", "diffs", "averageConfidence", "processingTimeMs", "stats"]

def Report.decode : Json.Decoder Report := fun levels document => do
  let field ← record Report.fieldNames levels document
  return {
    success := ← (field "success").required bool
    status := ← (field "status").required Status.decode
    message := ← (field "message").withDefault (nullable string) none
    session := ← (field "sessionId").required string
    filesModified := ← (field "filesModified").required (list string)
    replacements := ← (field "totalReplacements").required nat
    batchResults := ← (field "batchResults").required (list Batch.Result.decode)
    diffs := ← (field "diffs").required (list FileChange.decode)
    averageConfidence := ← (field "averageConfidence").required float
    milliseconds := ← (field "processingTimeMs").required nat
    stats := ← (field "stats").required Stats.decode }

end Rephrase.Run
