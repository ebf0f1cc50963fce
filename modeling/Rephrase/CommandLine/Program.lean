import Rephrase.CommandLine.Arguments
import Rephrase.CommandLine.Summary
import Rephrase.Config.File
import Rephrase.Oracle.Chat
import Rephrase.Run.Engine

/-!
The program as a whole: what the words of a command line do to a disk, and what is printed. All that
lies outside the disk is handed in: the environment, the clock, the grammars, and the way to the
oracle's service.
-/

namespace Rephrase.CommandLine

open Run (Stage)

structure Surroundings where
  environment : String → Option String
  settings : Option String
  parser : Parser
  times : Run.Times
  session : String

structure Exit where
  code : Nat := 0
  texts : Texts := {}
  deriving DecidableEq, Repr

def Exit.failed (message : String) : Exit :=
  ⟨1, { errors := "Error: " ++ message ++ "\n" }⟩

def Stop.toExit : Stop → Exit
  | .help => ⟨0, { output := helpText }⟩
  | .version => ⟨0, { output := versionText }⟩
  | .usage e => ⟨2, { errors := e.message ++ "\n" }⟩

def writeDefaults (root : String) : Disk.Action Exit := do
  match ← Config.save {} root with
  | .ok path => return ⟨0, { output := "Wrote " ++ path ++ "\n" }⟩
  | .error e => return .failed e.message

def Arguments.override (a : Arguments) (config : Config) : Config :=
  { config with
    batchSize := a.batchSize.getD config.batchSize
    dryRun := config.dryRun || a.dryRun
    generateDiffs := config.generateDiffs && !a.noDiff }.sensible

def defaultInstruction (search replacement : String) : String :=
  "Change \"" ++ search ++ "\" to \"" ++ replacement ++ "\""

def Arguments.task (a : Arguments) (root : String) (config : Config) (session : String) :
    Run.Task :=
  let search := a.search.getD ""
  let replacement := a.replacement.getD ""
  { root, config, search, replacement
    session := a.session.getD session
    instruction := a.instruction.getD (defaultInstruction search replacement) }

def Arguments.ended (a : Arguments) (dryRun : Bool) (report : Run.Report) : Exit :=
  { code := if report.status = .failed then 1 else 0
    texts :=
      if a.json then { output := String.ofList (Json.pretty report.toJson) ++ "\n" }
      else summary report dryRun }

/-- How the program ends, once it is known how many milliseconds it has taken. -/
abbrev Ending := Nat → Exit

def Arguments.run {μ : Type} (a : Arguments) (around : Surroundings)
    (transport : Chat.Transport μ) : Stage μ Ending := do
  let root := (← Stage.onDisk MonadState.get).canonical a.root
  if a.initConfig then
    let exit ← Stage.onDisk (writeDefaults root)
    return fun _ => exit
  else
    let config := a.override (← Stage.onDisk (Config.load root around.settings))
    match Chat.key? config.oracle around.environment with
    | .error e => return fun _ => .failed e.message
    | .ok key =>
      let oracle := Chat.oracle config.oracle key transport
      let task := a.task root config around.session
      let report ← task.run around.parser oracle around.times
      return fun milliseconds => a.ended config.dryRun { report with milliseconds }

def program {μ : Type} (around : Surroundings) (transport : Chat.Transport μ)
    (words : List String) : Stage μ Ending :=
  match Arguments.ofWords words with
  | .ok a => a.run around transport
  | .error stop => return fun _ => stop.toExit

end Rephrase.CommandLine
