import Rephrase.Json.Decode
import Rephrase.Node.Basic

/-!
Nodes as JSON.
-/

namespace Rephrase

open Json.Decode

def Node.Kind.decode : Json.Decoder Node.Kind := word Node.Kind.ofLabel?

def Piece.toJson (piece : Piece) : Json :=
  .object
    [("text", .string piece.text),
      ("startLine", .ofNat piece.start.line),
      ("endLine", .ofNat piece.stop.line),
      ("startColumn", .ofNat piece.start.column),
      ("endColumn", .ofNat piece.stop.column),
      ("wordCount", .ofNat piece.wordCount)]

def Piece.decode : Json.Decoder Piece := fun levels document => do
  let field ← record ["text", "startLine", "endLine", "startColumn", "endColumn", "wordCount"]
    levels document
  return {
    text := ← (field "text").required string
    start := ⟨← (field "startLine").required nat, ← (field "startColumn").required nat⟩
    stop := ⟨← (field "endLine").required nat, ← (field "endColumn").required nat⟩
    wordCount := ← (field "wordCount").required nat }

namespace Node

/-- Writes a node. The units and the snippet are left out where there are none. -/
def toJson (node : Node) : Json :=
  .object <|
    [("nodeKind", .string node.kind.label),
      ("content", .string node.content),
      ("filePath", .string node.file),
      ("absolutePath", .string node.location),
      ("startLine", .ofNat node.start.line),
      ("endLine", .ofNat node.stop.line),
      ("startColumn", .ofNat node.start.column),
      ("endColumn", .ofNat node.stop.column),
      ("contextBefore", .ofStrings node.contextBefore),
      ("contextAfter", .ofStrings node.contextAfter),
      ("relevanceScore", .number (.float node.relevance))] ++
    (match node.pieces with
      | some pieces => [("fragmentSequence", .array (pieces.map Piece.toJson))]
      | none => []) ++
    match node.snippet with
      | some snippet => [("snippet", .string snippet)]
      | none => []

def fieldNames : List String :=
  ["nodeKind", "content", "filePath", "absolutePath", "startLine", "endLine", "startColumn",
    "endColumn", "contextBefore", "contextAfter", "relevanceScore", "fragmentSequence", "snippet"]

def decode : Json.Decoder Node := fun levels document => do
  let field ← record fieldNames levels document
  return {
    kind := ← (field "nodeKind").required Kind.decode
    content := ← (field "content").required string
    file := ← (field "filePath").required string
    location := ← (field "absolutePath").required string
    start := ⟨← (field "startLine").required nat, ← (field "startColumn").required nat⟩
    stop := ⟨← (field "endLine").required nat, ← (field "endColumn").required nat⟩
    contextBefore := ← (field "contextBefore").required (list string)
    contextAfter := ← (field "contextAfter").required (list string)
    relevance := ← (field "relevanceScore").required float
    pieces :=
      ← (field "fragmentSequence").withDefault (nullable (list Piece.decode)) none
    snippet := ← (field "snippet").withDefault (nullable string) none }

end Node

end Rephrase
