import Rephrase.Text.Blank
import Rephrase.Text.Line
import Rephrase.Decimal.Digits

/-!
Nodes: the places in files where a phrase was found.
-/

namespace Rephrase

inductive Node.Kind where
  | text
  | attribute
  | stringLiteral
  /-- Several units that have the phrase only together. -/
  | fragmented
  /-- A place that was found without a tree. -/
  | lineMatch
  deriving DecidableEq, Repr

def Node.Kind.relevance : Node.Kind → Float
  | .text => 1.0
  | .attribute => 0.9
  | .stringLiteral => 0.8
  | .fragmented => 0.9
  | .lineMatch => 0.5

def Node.Kind.label : Node.Kind → String
  | .text => "text"
  | .attribute => "attribute"
  | .stringLiteral => "string_literal"
  | .fragmented => "fragmented"
  | .lineMatch => "line_match"

def Node.Kind.ofLabel? : String → Option Node.Kind
  | "text" => some .text
  | "attribute" => some .attribute
  | "string_literal" => some .stringLiteral
  | "fragmented" => some .fragmented
  | "line_match" => some .lineMatch
  | _ => none

/-- One of the units of a fragmented node: its text, where it starts and where it ends. -/
structure Piece where
  text : String
  start : Text.Position
  stop : Text.Position
  wordCount : Nat
  deriving DecidableEq, Repr

/-- A place in a file where the phrase was found. -/
structure Node where
  kind : Node.Kind
  content : String
  /-- The file's path below the project's root. -/
  file : String
  /-- The path that the file is read and written by. -/
  location : String
  start : Text.Position
  stop : Text.Position
  contextBefore : List String
  contextAfter : List String
  relevance : Float
  /-- The units of a fragmented node, in the order of the text. -/
  pieces : Option (List Piece)
  snippet : Option String

namespace Node

/-- What tells one node from another: its file, its lines, and its content without the blanks
around it. -/
structure Key where
  file : String
  lines : String
  content : String
  deriving DecidableEq, Repr

def key (node : Node) : Key :=
  { file := node.file
    lines := String.ofList
      (Decimal.natural node.start.line ++ '-' :: Decimal.natural node.stop.line)
    content := String.ofList (Text.trim node.content.toList) }

/-- One step of `dedup`: `seen` holds the keys of the nodes before. -/
def dedupFrom (seen : List Key) : List Node → List Node
  | [] => []
  | node :: rest =>
    if seen.contains node.key then dedupFrom seen rest
    else node :: dedupFrom (node.key :: seen) rest

def dedup (nodes : List Node) : List Node :=
  dedupFrom [] nodes

def inPieces (node : Node) : Bool :=
  node.pieces.isSome

end Node

end Rephrase
