import Rephrase.Config.Basic
import Rephrase.Disk.Resolve

/-!
Finds the files of a project that are looked at: regular files with an accepted extension that are
not too large, in directories that are neither ignored nor hidden.
-/

namespace Rephrase

structure Discovery.NoRoot where
  root : String

def Discovery.NoRoot.message (e : Discovery.NoRoot) : String :=
  "Project root is not a directory: " ++ e.root

namespace Discovery

/-- Whether a directory below the root is looked into. -/
def entersDirectory (config : Config) (name : String) : Bool :=
  -- The root itself may be hidden.
  !config.passesOver name && name.toList.head? ≠ some '.'

/-- Whether a file is looked at, by its name and the number of its bytes. -/
def takesFile (config : Config) (name : String) (size : Nat) : Bool :=
  !config.passesOver name && config.takesExtension ((Path.extension? name).getD "") &&
    size ≤ config.maxFileBytes

def takes (config : Config) (names : Disk.Location) (content : ByteArray) : Bool :=
  match names.getLast? with
  | some name =>
    names.dropLast.all (entersDirectory config) && takesFile config name content.size
  | none => false

def pathBelow (root : String) (names : Disk.Location) : String :=
  names.foldl Path.join root

/-- The path of an entry, if it is a file that is looked at. -/
def fileOf? (config : Config) (root : String) (base : Disk.Location)
    (entry : Disk.Location × Disk.Entry) : Option String :=
  match entry with
  | (location, .file content) =>
    let names := location.drop base.length
    if base.isPrefixOf location && takes config names content then some (pathBelow root names)
    else none
  | _ => none

/-- The paths of the files below a root that are looked at. -/
def files (disk : Disk) (config : Config) (root : String) : Except NoRoot (List String) :=
  match disk.resolve true root with
  | .ok ⟨base, some .directory⟩ => .ok (disk.entries.filterMap (fileOf? config root base))
  | _ => .error ⟨root⟩

end Discovery

end Rephrase
