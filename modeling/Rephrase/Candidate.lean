import Rephrase.Disk.Access
import Rephrase.Disk.Discovery
import Rephrase.Node.Extraction
import Rephrase.Node.Json
import Rephrase.Phrase.Match

/-!
Candidates: the files of a project that may hold a phrase. They are judged by their text alone, and
only they are searched for nodes.
-/

namespace Rephrase

open Json.Decode

structure Candidate where
  /-- The path below the project's root. -/
  file : String
  /-- The path that the file is read and written by. -/
  location : String
  language : Language
  grade : Phrase.MatchGrade
  confidence : Float

/-- Tells the tree of a text in a language, if there is one. -/
abbrev Parser := Language → List Char → Option Parsed

def Language.decode : Json.Decoder Language := word Language.ofLabel?

def Phrase.MatchGrade.decode : Json.Decoder Phrase.MatchGrade :=
  word Phrase.MatchGrade.ofLabel?

namespace Candidate

def toJson (c : Candidate) : Json :=
  .object
    [("relative_path", .string c.file),
      ("absolute_path", .string c.location),
      ("file_kind", .string c.language.label),
      ("strategy", .string c.grade.label),
      ("confidence", .number (.float c.confidence))]

def decode : Json.Decoder Candidate := fun levels document => do
  let field ← record
    ["relative_path", "absolute_path", "file_kind", "strategy", "confidence"] levels document
  return {
    file := ← (field "relative_path").required string
    location := ← (field "absolute_path").required string
    language := ← (field "file_kind").required Language.decode
    grade := ← (field "strategy").required Phrase.MatchGrade.decode
    confidence := ← (field "confidence").required float }

/-- The candidate that a file makes, if its text matches the phrase. -/
def ofFile? (disk : Disk) (config : Config) (phrase : List Char) (root location : String) :
    Option Candidate :=
  match disk.textAt location with
  | .ok text =>
    (Phrase.grade? config phrase text.toList).map fun grade =>
      { file := (Path.below? root location).getD location
        location
        language := .ofPath location
        grade
        confidence := grade.confidence }
  -- Files that are no text are passed over like those that cannot be read.
  | .error _ => none

def notAfter (a b : Candidate) : Bool :=
  Path.compare a.file b.file ≠ .gt

/-- The candidates among some files, in the order of their paths. -/
def among (disk : Disk) (config : Config) (phrase : List Char) (root : String)
    (files : List String) : List Candidate :=
  (files.filterMap (ofFile? disk config phrase root)).mergeSort notAfter

def nodes (disk : Disk) (parser : Parser) (config : Config) (phrase : List Char)
    (candidate : Candidate) : Except Fault (List Node) :=
  match disk.textAt candidate.location with
  | .ok text =>
    let content := text.toList
    let source := Source.ofContent candidate.file candidate.location content config.contextLines
    let parsed :=
      if candidate.language.hasTrees then parser candidate.language content else none
    source.nodes config phrase parsed
  -- It may have gone since it was made a candidate.
  | .error _ => .ok []

def allNodes (disk : Disk) (parser : Parser) (config : Config) (phrase : List Char)
    (candidates : List Candidate) : Except Fault (List Node) := do
  return Node.dedup (← candidates.mapM (Candidate.nodes disk parser config phrase)).flatten

end Candidate

end Rephrase
