import Rephrase.Fault

/-!
Files and directories as a value. A disk is a list of entries by their locations; the top directory
is always there and not listed.
-/

namespace Rephrase

namespace Disk

/-- The names on the way from the top directory. -/
abbrev Location := List String

/-- Contents are compared as their arrays are, whatever other way is known. -/
instance (priority := 2000) decidableEqContent : DecidableEq ByteArray :=
  ByteArray.instDecidableEq

inductive Entry where
  | file (content : ByteArray)
  | directory
  | link (target : String)
  deriving DecidableEq

inductive Error where
  | notFound
  | exists
  | notDirectory
  | isDirectory
  | tooLarge
  | nameTooLong
  | tooManyLinks
  | notEmpty
  | nulInPath
  | notText
  deriving DecidableEq, Repr

def Error.message : Error → String
  | .notFound => "No such file or directory (os error 2)"
  | .exists => "File exists (os error 17)"
  | .notDirectory => "Not a directory (os error 20)"
  | .isDirectory => "Is a directory (os error 21)"
  | .tooLarge => "File too large (os error 27)"
  | .nameTooLong => "File name too long (os error 36)"
  | .notEmpty => "Directory not empty (os error 39)"
  | .tooManyLinks => "Too many levels of symbolic links (os error 40)"
  | .nulInPath => "file name contained an unexpected NUL byte"
  | .notText => "stream did not contain valid UTF-8"

end Disk

/-- Files and directories, the directory that relative paths start from, and the size that no file
can grow beyond. -/
structure Disk where
  entries : List (Disk.Location × Disk.Entry)
  working : Disk.Location := []
  limit : Option Nat := none

namespace Disk

def get? (disk : Disk) (location : Location) : Option Entry :=
  -- The top directory is not listed.
  if location = [] then some .directory else disk.entries.lookup location

def put (disk : Disk) (location : Location) (entry : Entry) : Disk :=
  { disk with
    entries := (location, entry) :: disk.entries.filter fun e => e.1 ≠ location }

def erase (disk : Disk) (location : Location) : Disk :=
  { disk with entries := disk.entries.filter fun e => e.1 ≠ location }

def eraseTree (disk : Disk) (location : Location) : Disk :=
  { disk with entries := disk.entries.filter fun e => !location.isPrefixOf e.1 }

/-- Why an operation on a disk comes to no result: the disk refuses, or a computation is out of its
range. -/
inductive Failure where
  | refused (e : Error)
  | fault (f : Fault)
  deriving DecidableEq, Repr

/-- An operation on a disk. What it has changed before it fails stays changed. -/
abbrev Action (α : Type) := ExceptT Failure (StateM Disk) α

def Action.look {α : Type} (f : Disk → Except Error α) : Action α := do
  match f (← get) with
  | .ok a => pure a
  | .error e => throw (.refused e)

def Action.compute {α : Type} (r : Except Fault α) : Action α :=
  match r with
  | .ok a => pure a
  | .error f => throw (.fault f)

def Action.attempt {α : Type} (action : Action α) : Action (Except Failure α) :=
  tryCatch (do return .ok (← action)) fun failure => pure (.error failure)

end Disk

end Rephrase
