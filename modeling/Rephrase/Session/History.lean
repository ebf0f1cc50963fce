import Rephrase.Json.Printer
import Rephrase.Session.Directory
import Rephrase.Time.Stamp

/-!
The history of a session: one record a line, in the order in which they were made.
-/

namespace Rephrase

structure History.Record where
  kind : String
  file : String
  description : String
  time : Instant
  approach : String
  success : Bool
  details : Json

namespace History.Record

open Json.Decode

def toJson (r : History.Record) : Json :=
  .object
    [("type", .string r.kind),
      ("file", .string r.file),
      ("description", .string r.description),
      ("timestamp", r.time.toJson),
      ("approach", .string r.approach),
      ("success", .bool r.success),
      ("details", r.details)]

def decode : Json.Decoder History.Record := fun levels document => do
  let field ← record
    ["type", "file", "description", "timestamp", "approach", "success", "details"] levels document
  return {
    kind := ← (field "type").required string
    file := ← (field "file").required string
    description := ← (field "description").required string
    time := ← (field "timestamp").required Instant.decode
    approach := ← (field "approach").required string
    success := ← (field "success").required bool
    details := ← (field "details").withDefault any .null }

end History.Record

namespace History

open Disk (Action)

def plainChar (c : Char) : Char :=
  -- Sessions whose names differ in other characters alone share a file.
  if c.isAlphanum || c = '-' || c = '_' then c else '_'

def fileName (session : String) : String :=
  String.ofList (session.toList.map plainChar) ++ ".jsonl"

def directory (root : String) : String := Session.inside root "sessions"

def path (root session : String) : String := Path.join (directory root) (fileName session)

def line (r : History.Record) : String :=
  String.ofList (Json.compact r.toJson ++ ['\n'])

def append (root session : String) (r : History.Record) : Action Unit := do
  Session.lockToWrite root
  Disk.makeDirectories (directory root)
  Disk.appendText (path root session) (line r)

def ofText (text : String) : List History.Record :=
  -- Lines that are no records are passed over, such as one that was cut off.
  (Text.lines text.toList).filterMap (Json.decodeText? History.Record.decode)

def load (root session : String) : Action (List History.Record) := do
  match ← (Session.lockToRead root).attempt with
  | .error _ => return []
  | .ok _ =>
    match (← get).textAt (path root session) with
    | .ok text => return ofText text
    | .error _ => return []

end History

end Rephrase
