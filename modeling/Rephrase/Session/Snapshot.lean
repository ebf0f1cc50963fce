import Rephrase.Digest.Tree
import Rephrase.Session.Store

/-!
Snapshots: what files held at some time, so that a session can be undone.
-/

namespace Rephrase

structure KeptFile where
  content : String
  digest : String
  deriving DecidableEq, Repr

/-- Files by their paths below the project's root, in ascending order. -/
abbrev Snapshot := List (String × KeptFile)

namespace KeptFile

open Json.Decode

def ofContent (content : String) : KeptFile := ⟨content, Digest.ofText content⟩

def toJson (s : KeptFile) : Json :=
  .object [("content", .string s.content), ("hash", .string s.digest)]

def decode : Json.Decoder KeptFile := fun levels document => do
  let field ← record ["content", "hash"] levels document
  return ⟨← (field "content").required string, ← (field "hash").required string⟩

end KeptFile

namespace Snapshot

open Disk (Action)

def insert (path : String) (file : KeptFile) : Snapshot → Snapshot
  | [] => [(path, file)]
  | (p, f) :: rest =>
    if path < p then (path, file) :: (p, f) :: rest
    else if path = p then (path, file) :: rest
    else (p, f) :: insert path file rest

def ofFiles (files : List (String × KeptFile)) : Snapshot :=
  files.foldl (fun snapshot (path, file) => insert path file snapshot) []

/-- The snapshot of the files at some paths below a root. -/
def take (disk : Disk) (root : String) (paths : List String) : Snapshot :=
  ofFiles <| paths.filterMap fun path =>
    match disk.textAt (Path.join root path) with
    | .ok content => some (path, KeptFile.ofContent content)
    -- Files that cannot be read are left out.
    | .error _ => none

/-- The files whose content is no longer the one of a snapshot. -/
def changed (disk : Disk) (root : String) (snapshot : Snapshot) : List String :=
  snapshot.filterMap fun (path, file) =>
    match disk.textAt (Path.join root path) with
    | .ok content => if Digest.ofText content = file.digest then none else some path
    | .error _ => some path

def toJson (snapshot : Snapshot) : Json :=
  .object (snapshot.map fun (path, file) => (path, file.toJson))

def decode : Json.Decoder Snapshot := fun levels document =>
  (Json.Decode.members KeptFile.decode levels document).map ofFiles

def key (session : String) : String := "snapshot:" ++ session

def save (root : String) (now : Instant) (session : String) (snapshot : Snapshot) (span : Int) :
    Action Unit :=
  Store.set root now (key session) snapshot.toJson span

def load (root : String) (now : Instant) (session : String) : Action (Option Snapshot) :=
  Store.get root now (key session) decode

end Snapshot

end Rephrase
