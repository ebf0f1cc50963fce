import Rephrase.Candidate
import Rephrase.Run.Report

/-!
The first half of a run: looks for the places that hold the phrase. It only reads. A run may end
here, and then nothing has been asked and nothing has been changed.
-/

namespace Rephrase.Run

structure Task where
  root : String
  config : Config
  session : String
  search : String
  replacement : String
  instruction : String

/-- Why a run ends before the oracle is asked. -/
inductive Ending where
  | blankSearch
  | noRoot (e : Discovery.NoRoot)
  | noCandidates
  | noNodes

def Ending.status : Ending → Status
  | .blankSearch => .failed
  | .noRoot _ => .failed
  | .noCandidates => .noCandidates
  | .noNodes => .noNodes

def Ending.message : Ending → String
  | .blankSearch => "Search term is empty"
  | .noRoot e => e.message
  | .noCandidates => "No files found containing the search term"
  | .noNodes => "No text nodes found containing the search term"

/-- What a run has found: how much it has looked at, and the nodes or why it ends. -/
structure Found where
  stats : Stats
  nodes : Except Ending (List Node)

def Task.find (task : Task) (parser : Parser) (disk : Disk) : Except Fault Found := do
  let phrase := task.search.toList
  if (Text.trim phrase).isEmpty then return ⟨{}, .error .blankSearch⟩
  match Discovery.files disk task.config task.root with
  | .error e => return ⟨{}, .error (.noRoot e)⟩
  | .ok files =>
    let candidates := Candidate.among disk task.config phrase task.root files
    let seen : Stats := { filesScanned := files.length, candidateFiles := candidates.length }
    if candidates.isEmpty then return ⟨seen, .error .noCandidates⟩
    let nodes ← Candidate.allNodes disk parser task.config phrase candidates
    let stats := { seen with
      nodesExtracted := nodes.length
      fragmentedNodes := nodes.countP Node.inPieces }
    if nodes.isEmpty then return ⟨stats, .error .noNodes⟩
    return ⟨stats, .ok nodes⟩

def Task.batches (task : Task) (nodes : List Node) : List Batch :=
  Batch.ofNodes nodes task.search task.replacement task.instruction task.config.batchSize

def Task.ended (task : Task) (stats : Stats) (ending : Ending) : Report :=
  { success := false
    status := ending.status
    message := some ending.message
    session := task.session
    filesModified := []
    replacements := 0
    batchResults := []
    diffs := []
    averageConfidence := 0
    stats }

end Rephrase.Run
