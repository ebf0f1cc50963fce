import Rephrase.Disk.Access
import Rephrase.Text.Blank
import Rephrase.Text.Line

/-!
The directory that a project's sessions are kept in. It is hidden from version control where the
project has a list of ignored files.
-/

namespace Rephrase.Session

open Disk (Action)

def directoryName : String := ".retext"

def directory (root : String) : String := Path.join root directoryName

def inside (root name : String) : String := Path.join (directory root) name

def ignoreEntry : String := ".retext/"

def isHidden (content : List Char) : Bool :=
  (Text.lines content).any fun line =>
    let entry := Text.trim line
    entry == ignoreEntry.toList || entry == directoryName.toList

/-- What is added to a list of ignored files that does not hide the directory. -/
def ignoreAddition (content : List Char) : String :=
  -- The entry needs a line of its own, so a last line that is not ended is ended first.
  let ended := (Text.trim content).isEmpty || content.getLast? == some '\n'
  (if ended then "" else "\n") ++ "# retext session store\n" ++ ignoreEntry ++ "\n"

def hide (root : String) : Action Unit := do
  let path := Path.join root ".gitignore"
  let disk ← get
  if disk.holds path then
    -- A list that is no text counts as empty.
    let content := ((disk.textAt path).toOption.getD "").toList
    if !isHidden content then Disk.appendText path (ignoreAddition content)

def prepare (root : String) : Action Unit := do
  if !(← get).holds (directory root) then Disk.makeDirectories (directory root)
  hide root

def lockToWrite (root : String) : Action Unit := do
  prepare root
  Disk.touch (inside root ".lock")

def lockToRead (root : String) : Action Unit := do
  if !(← get).holds (directory root) then throw (.refused .notFound)
  Disk.touch (inside root ".lock")

end Rephrase.Session
