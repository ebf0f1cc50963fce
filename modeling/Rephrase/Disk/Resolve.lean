import Rephrase.Disk.Basic
import Rephrase.Path

/-!
Finds the location that a path leads to. Links on the way are followed, two dots lead to the
directory above, and what has to be passed has to be a directory.
-/

namespace Rephrase.Disk

/-- How many links are followed. -/
def maxLinks : Nat := 40

/-- The longest name, in bytes. -/
def maxName : Nat := 255

/-- The longest path, in bytes. -/
def maxPath : Nat := 4095

/-- The parts of a path between slashes; an empty part stands for the directory itself. -/
def steps (path : String) : List String :=
  (Path.segments path.toList).map String.ofList

def startOf (base : Location) (path : String) : Location :=
  if Path.isAbsolute path then [] else base

/-- Where a walk has come to: a location, and what stands there. -/
structure Place where
  location : Location
  entry : Option Entry

/-- Walks from a directory along some steps. `follow` says whether a link at the end is followed
too. -/
def walk (disk : Disk) (follow : Bool) (links : Nat) (location : Location) (path : List String) :
    Except Error Place :=
  match path with
  | [] => .ok ⟨location, disk.get? location⟩
  | step :: rest =>
    if step = "" || step = "." then walk disk follow links location rest
    else if step = ".." then walk disk follow links location.dropLast rest
    else if maxName < step.utf8ByteSize then .error .nameTooLong
    else
      let next := location ++ [step]
      match disk.get? next with
      | some .directory => walk disk follow links next rest
      | some (.file content) =>
        if rest.isEmpty then .ok ⟨next, some (.file content)⟩ else .error .notDirectory
      | some (.link target) =>
        if rest.isEmpty && !follow then .ok ⟨next, some (.link target)⟩
        else
          match links with
          | 0 => .error .tooManyLinks
          | links + 1 =>
            if target = "" then .error .notFound
            -- A relative target starts from the link's own directory.
            else walk disk follow links (startOf location target) (steps target ++ rest)
      -- A name that is missing can only be the last step.
      | none => if rest.isEmpty then .ok ⟨next, none⟩ else .error .notFound
termination_by (links, path.length)

/-- The place that a path leads to. -/
def resolve (disk : Disk) (follow : Bool) (path : String) : Except Error Place :=
  if path.toList.elem '\x00' then .error .nulInPath
  else if path = "" then .error .notFound
  else if maxPath < path.utf8ByteSize then .error .nameTooLong
  else walk disk follow maxLinks (startOf disk.working path) (steps path)

def find? (disk : Disk) (path : String) : Option Entry :=
  match disk.resolve true path with
  | .ok place => place.entry
  | .error _ => none

def holds (disk : Disk) (path : String) : Bool :=
  (disk.find? path).isSome

def isDirectory (disk : Disk) (path : String) : Bool :=
  disk.find? path = some .directory

def pathOf (location : Location) : String :=
  if location.isEmpty then "/" else String.join (location.map ("/" ++ ·))

/-- The path of a place without links and dots; the path itself if nothing stands there. -/
def canonical (disk : Disk) (path : String) : String :=
  match disk.resolve true path with
  | .ok ⟨location, some _⟩ => pathOf location
  | _ => path

end Rephrase.Disk
