import Rephrase.Json.Printer
import Rephrase.Node.Json

/-!
What the oracle is asked: the nodes of a batch with the change that is wanted, and the words that go
with them.
-/

namespace Rephrase.Oracle

open Json.Decode

structure Descriptor where
  /-- The node's place in its batch. -/
  index : Nat
  kind : Node.Kind
  file : String
  startLine : Nat
  endLine : Nat
  content : String
  snippet : String
  contextBefore : List String
  contextAfter : List String
  fragments : Option (List String)
  deriving DecidableEq, Repr

structure Request where
  batchId : String
  search : String
  replacement : String
  instruction : String
  nodes : List Descriptor
  deriving DecidableEq, Repr

/-- Writes a descriptor. Fragments are left out where there are none. -/
def Descriptor.toJson (d : Descriptor) : Json :=
  .object <|
    [("index", .ofNat d.index),
      ("nodeKind", .string d.kind.label),
      ("filePath", .string d.file),
      ("startLine", .ofNat d.startLine),
      ("endLine", .ofNat d.endLine),
      ("content", .string d.content),
      ("snippet", .string d.snippet),
      ("contextBefore", .ofStrings d.contextBefore),
      ("contextAfter", .ofStrings d.contextAfter)] ++
    match d.fragments with
      | some fragments => [("fragments", .ofStrings fragments)]
      | none => []

def Descriptor.decode : Json.Decoder Descriptor := fun levels document => do
  let field ← record
    ["index", "nodeKind", "filePath", "startLine", "endLine", "content", "snippet",
      "contextBefore", "contextAfter", "fragments"] levels document
  return {
    index := ← (field "index").required nat
    kind := ← (field "nodeKind").required Node.Kind.decode
    file := ← (field "filePath").required string
    startLine := ← (field "startLine").required nat
    endLine := ← (field "endLine").required nat
    content := ← (field "content").required string
    snippet := ← (field "snippet").required string
    contextBefore := ← (field "contextBefore").required (list string)
    contextAfter := ← (field "contextAfter").required (list string)
    fragments := ← (field "fragments").withDefault (nullable (list string)) none }

def Request.toJson (request : Request) : Json :=
  .object
    [("batchId", .string request.batchId),
      ("searchTerm", .string request.search),
      ("replacementTerm", .string request.replacement),
      ("userInstruction", .string request.instruction),
      ("nodes", .array (request.nodes.map Descriptor.toJson))]

def Request.decode : Json.Decoder Request := fun levels document => do
  let field ← record ["batchId", "searchTerm", "replacementTerm", "userInstruction", "nodes"]
    levels document
  return {
    batchId := ← (field "batchId").required string
    search := ← (field "searchTerm").required string
    replacement := ← (field "replacementTerm").required string
    instruction := ← (field "userInstruction").required string
    nodes := ← (field "nodes").required (list Descriptor.decode) }

/-- The message about a batch: the instruction, the change, and the request itself. -/
def Request.message (request : Request) : String :=
  "INSTRUCTION: " ++ request.instruction ++ "\nCHANGE: \"" ++ request.search ++ "\" -> \"" ++
    request.replacement ++ "\"\n\nBATCH:\n" ++ String.ofList (Json.pretty request.toJson)

def systemMessage : String :=
  "\n".intercalate
    [("You rewrite text inside source files. You receive a search term, a replacement " ++
      "term, an instruction, and a list of nodes. Each node is a piece of text found in " ++
      "a file, with its surrounding snippet and, for text split across several elements, " ++
      "the ordered fragments."),
    "",
    "OUTPUT FORMAT (JSON):",
    "\x7b",
    "  \"modifications\": [",
    "    \x7b",
    "      \"nodeIndex\": 0,",
    "      \"originalSnippet\": \"exact snippet text you are replacing (optional)\",",
    "      \"modifiedSnippet\": \"the snippet after your change (optional)\",",
    "      \"originalContent\": \"the node content\",",
    "      \"modifiedContent\": \"the node content after your change\",",
    "      \"reasoning\": \"one short sentence\",",
    "      \"confidence\": 0.0,",
    "      \"shouldApply\": true,",
    "      \"strategy\": \"snippet_replace | content_replace | fragment_redistribute | skip\",",
    "      \"warnings\": []",
    "    \x7d",
    "  ],",
    "  \"overallStrategy\": \"one short phrase\",",
    "  \"batchConfidence\": 0.0",
    "\x7d",
    "",
    "RULES:",
    "- Return exactly one modification per node, using the node's index",
    "- originalSnippet must be copied verbatim from the node's snippet",
    ("- For fragmented nodes, modifiedContent must read as the full replacement text; " ++
      "it is split across the fragments by word count"),
    "- Keep markup, attributes, quoting and indentation unchanged",
    "- Set shouldApply to false when the node is not actually about the search term"]

end Rephrase.Oracle
