import Rephrase.Diff.Unified
import Rephrase.Edit.Cascade
import Rephrase.Json.Decode

/-!
What has been done to the files of a project: which edits were applied, which were passed over and
why, and which files could not be read or written.
-/

namespace Rephrase

namespace Patch

structure Applied where
  file : String
  /-- The line that the edited node was recorded on. -/
  line : Nat
  way : Edit.Way
  deriving DecidableEq, Repr

inductive Reason where
  /-- The proposal says the same as the node. -/
  | noop
  /-- The oracle does not want the node edited. -/
  | declined
  /-- The edit gives the text that is there already. -/
  | unchanged
  /-- No way leads to a result. -/
  | unmatched
  deriving DecidableEq, Repr

def Reason.message : Reason → String
  | .noop => "modified text equals original"
  | .declined => "oracle chose to skip"
  | .unchanged => "replacement left file unchanged"
  | .unmatched => "no strategy matched current content"

structure Skipped where
  file : String
  line : Nat
  batchId : String
  nodeIndex : Nat
  reason : String
  deriving DecidableEq, Repr

structure Failure where
  file : String
  error : String
  deriving DecidableEq, Repr

end Patch

/-- What has been done to the files of a project. -/
structure Patch where
  filesModified : List String := []
  replacements : Nat := 0
  diffs : List FileChange := []
  applied : List Patch.Applied := []
  skipped : List Patch.Skipped := []
  failures : List Patch.Failure := []
  deriving DecidableEq, Repr

open Json.Decode

def FileChange.toJson (d : FileChange) : Json :=
  .object [("path", .string d.path), ("diff", .string d.diff)]

def FileChange.decode : Json.Decoder FileChange := fun levels document => do
  let field ← record ["path", "diff"] levels document
  return ⟨← (field "path").required string, ← (field "diff").required string⟩

def Edit.Way.decode : Json.Decoder Edit.Way := word Edit.Way.ofLabel?

namespace Patch

def Applied.toJson (a : Applied) : Json :=
  .object
    [("file", .string a.file), ("start_line", .ofNat a.line), ("via", .string a.way.label)]

def Applied.decode : Json.Decoder Applied := fun levels document => do
  let field ← record ["file", "start_line", "via"] levels document
  return {
    file := ← (field "file").required string
    line := ← (field "start_line").required nat
    way := ← (field "via").required Edit.Way.decode }

def Skipped.toJson (s : Skipped) : Json :=
  .object
    [("file", .string s.file),
      ("start_line", .ofNat s.line),
      ("batch_id", .string s.batchId),
      ("node_index", .ofNat s.nodeIndex),
      ("reason", .string s.reason)]

def Skipped.decode : Json.Decoder Skipped := fun levels document => do
  let field ← record ["file", "start_line", "batch_id", "node_index", "reason"] levels document
  return {
    file := ← (field "file").required string
    line := ← (field "start_line").required nat
    batchId := ← (field "batch_id").required string
    nodeIndex := ← (field "node_index").required nat
    reason := ← (field "reason").required string }

def Failure.toJson (f : Failure) : Json :=
  .object [("file", .string f.file), ("error", .string f.error)]

def Failure.decode : Json.Decoder Failure := fun levels document => do
  let field ← record ["file", "error"] levels document
  return ⟨← (field "file").required string, ← (field "error").required string⟩

def toJson (patch : Patch) : Json :=
  .object
    [("files_modified", .ofStrings patch.filesModified),
      ("total_replacements", .ofNat patch.replacements),
      ("diffs", .array (patch.diffs.map FileChange.toJson)),
      ("applied", .array (patch.applied.map Applied.toJson)),
      ("skipped", .array (patch.skipped.map Skipped.toJson)),
      ("write_failures", .array (patch.failures.map Failure.toJson))]

def decode : Json.Decoder Patch := fun levels document => do
  let field ← record
    ["files_modified", "total_replacements", "diffs", "applied", "skipped", "write_failures"]
    levels document
  return {
    filesModified := ← (field "files_modified").required (list string)
    replacements := ← (field "total_replacements").required nat
    diffs := ← (field "diffs").required (list FileChange.decode)
    applied := ← (field "applied").required (list Applied.decode)
    skipped := ← (field "skipped").required (list Skipped.decode)
    failures := ← (field "write_failures").required (list Failure.decode) }

end Patch

end Rephrase
