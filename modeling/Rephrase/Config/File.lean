import Rephrase.Config.Toml
import Rephrase.Disk.Access

/-!
The files that settings are kept in: one in the project's root, and one for all projects in the
user's directory of settings.
-/

namespace Rephrase.Config

open Disk (Action)

def projectPath (root : String) : String := Path.join root "retext.toml"

def userPath (directory : String) : String :=
  Path.join (Path.join directory "retext") "config.toml"

def backupPath (path : String) : String := path ++ ".bak"

def passingPath (root : String) : String := Path.join root "retext.tmp"

def putAside (path text : String) : Action Unit := do
  -- A file that cannot be moved is copied; where that fails too it is let be.
  match ← (Disk.rename path (backupPath path)).attempt with
  | .ok _ => return
  | .error _ => let _ ← (Disk.writeText (backupPath path) text).attempt

/-- The settings in the first of some files that can be read, or the defaults. -/
def loadFirst : List String → Action Config
  | [] => return {}
  | path :: rest => do
    match (← get).textAt path with
    | .error _ => loadFirst rest
    | .ok text =>
      match ofToml? text.toList with
      | some config => return config
      -- Unusable settings do not let the files after them have their turn.
      | none =>
        putAside path text
        return {}

/-- The settings of a project. `directory` is the user's directory of settings. -/
def load (root : String) (directory : Option String) : Action Config :=
  loadFirst (projectPath root :: (directory.map userPath).toList)

inductive SaveError where
  | outOfRange
  | refused (e : Disk.Error)
  deriving DecidableEq, Repr

def SaveError.message : SaveError → String
  | .outOfRange => "out-of-range value for u64 type"
  | .refused e => e.message

/-- Saves the settings of a project; the path of the file. -/
def save (config : Config) (root : String) : Action (Except SaveError String) := do
  match config.toToml? with
  | none => return .error .outOfRange
  | some text =>
    match ← (Disk.replaceText (projectPath root) (passingPath root) text).attempt with
    | .ok _ => return .ok (projectPath root)
    | .error (.refused e) => return .error (.refused e)
    | .error (.fault f) => throw (.fault f)

end Rephrase.Config
