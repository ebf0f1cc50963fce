import Rephrase.Json.Decode
import Rephrase.Text.Blank

/-!
Proposals: how the oracle wants a node changed.
-/

namespace Rephrase

open Json.Decode

inductive Proposal.Strategy where
  | snippetReplace
  | contentReplace
  | fragmentRedistribute
  | skip
  | unspecified
  deriving DecidableEq, Repr

namespace Proposal.Strategy

def label : Strategy → String
  | .snippetReplace => "snippet_replace"
  | .contentReplace => "content_replace"
  | .fragmentRedistribute => "fragment_redistribute"
  | .skip => "skip"
  | .unspecified => "unspecified"

def ofLabel? : String → Option Strategy
  | "snippet_replace" => some .snippetReplace
  | "content_replace" => some .contentReplace
  | "fragment_redistribute" => some .fragmentRedistribute
  | "skip" => some .skip
  | "unspecified" => some .unspecified
  | _ => none

/-- A character of a label as labels are compared: spaces and hyphens are underscores, and the case
of ASCII letters does not count. -/
def plainChar (c : Char) : Char :=
  if c = '-' || c = ' ' then '_' else c.toLower

/-- The strategy that a label from the oracle means. Unlike `ofLabel?` it takes many spellings. -/
def ofLabel (label : String) : Strategy :=
  match String.ofList ((Text.trim label.toList).map plainChar) with
  | "snippet_replace" | "snippet" | "replace_snippet" => .snippetReplace
  | "content_replace" | "content" | "replace" | "direct" => .contentReplace
  | "fragment_redistribute" | "fragmented" | "fragments" | "redistribute" =>
    .fragmentRedistribute
  | "skip" | "none" => .skip
  | _ => .unspecified

end Proposal.Strategy

structure Proposal where
  nodeIndex : Nat
  oldSnippet : Option String
  newSnippet : Option String
  oldContent : String
  newContent : String
  reasoning : String
  confidence : Float
  accepted : Bool
  strategy : Proposal.Strategy
  warnings : List String

namespace Proposal

def toJson (p : Proposal) : Json :=
  -- A snippet that there is not is left out.
  let snippet (name : String) (text : Option String) : List (String × Json) :=
    match text with
    | some text => [(name, .string text)]
    | none => []
  .object <|
    ("nodeIndex", .ofNat p.nodeIndex) ::
      (snippet "originalSnippet" p.oldSnippet ++
        snippet "modifiedSnippet" p.newSnippet ++
        [("originalContent", .string p.oldContent),
          ("modifiedContent", .string p.newContent),
          ("reasoning", .string p.reasoning),
          ("confidence", .number (.float p.confidence)),
          ("shouldApply", .bool p.accepted),
          ("strategy", .string p.strategy.label),
          ("warnings", .ofStrings p.warnings)])

def fieldNames : List String :=
  ["nodeIndex", "originalSnippet", "modifiedSnippet", "originalContent", "modifiedContent",
    "reasoning", "confidence", "shouldApply", "strategy", "warnings"]

def decode : Json.Decoder Proposal := fun levels document => do
  let field ← record fieldNames levels document
  return {
    nodeIndex := ← (field "nodeIndex").required nat
    oldSnippet := ← (field "originalSnippet").withDefault (nullable string) none
    newSnippet := ← (field "modifiedSnippet").withDefault (nullable string) none
    oldContent := ← (field "originalContent").required string
    newContent := ← (field "modifiedContent").required string
    reasoning := ← (field "reasoning").required string
    confidence := ← (field "confidence").required float
    accepted := ← (field "shouldApply").required bool
    strategy := ← (field "strategy").required (word Strategy.ofLabel?)
    warnings := ← (field "warnings").withDefault (list string) [] }

end Proposal

end Rephrase
