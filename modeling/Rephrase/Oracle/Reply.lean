import Rephrase.Decimal.Read
import Rephrase.Mean
import Rephrase.Oracle.Bracket
import Rephrase.Oracle.Proposal
import Rephrase.Oracle.Request

/-!
Makes proposals of what the oracle answers. The answer may be wrapped in prose, and a part of it
that has the wrong type is lost alone; but a proposal for no node is dropped, and one that does not
say what to write is not applied.
-/

namespace Rephrase.Oracle

open Json.Decode

structure RawReply where
  modifications : List Json
  overallStrategy : Option Json
  batchConfidence : Option Json

def RawReply.decode : Json.Decoder RawReply := fun levels document => do
  let field ← record ["modifications", "overallStrategy", "batchConfidence"] levels document
  return {
    modifications := ← (field "modifications").required (list any)
    overallStrategy := ← (field "overallStrategy").withDefault (nullable any) none
    batchConfidence := ← (field "batchConfidence").withDefault (nullable any) none }

def maxCandidates : Nat := 8

def firstReply? (texts : List (List Char)) : Option RawReply :=
  texts.findSome? (Json.decodeText? RawReply.decode)

/-- The answer in a text: the whole text, or else the first object in it that is one. -/
def rawReply? (cs : List Char) : Option RawReply :=
  let text := Text.trim cs
  firstReply? (text :: (objectTexts text).take maxCandidates)

/-! ## Values that are read in whatever form they come -/

def looseText? : Json → Option String
  | .string s => some s
  | _ => none

def looseFloat? : Json → Option Float
  | .number n => some n.toFloat
  | .string s => Decimal.float? (Text.trim s.toList)
  | _ => none

def inInt64 (n : Int) : Bool := -0x8000000000000000 ≤ n && n < 0x8000000000000000

/-- The number of 64 bits that is nearest to a number. -/
def nearestInt64 (n : Int) : Int := max (-0x8000000000000000) (min n 0x7fffffffffffffff)

/-- The value of a float that is a whole number. -/
def wholeFloat? (x : Float) : Option Int :=
  match x.toModel.unpack with
  | .zero _ => some 0
  | .finite sign mantissa exponent _ =>
    -- At most one of the two is shifted.
    let numerator := mantissa <<< exponent.toNat
    let denominator := 1 <<< (-exponent).toNat
    if numerator % denominator = 0 then
      match sign with
      | .positive => some (numerator / denominator : Nat)
      | .negative => some (-(numerator / denominator : Nat))
    else
      none
  | _ => none

/-- A whole number, also as a float or in quotes. -/
def looseInt? : Json → Option Int
  -- A number beyond 64 bits is moved to the last one within; a text must stay within.
  | .number (.integer n) => some (nearestInt64 n)
  | .number (.float x) => (wholeFloat? x).map nearestInt64
  | .string s => (Decimal.integer? (Text.trim s.toList)).filter inInt64
  | _ => none

/-- A truth value, also as a word in quotes. -/
def looseBool? : Json → Option Bool
  | .bool b => some b
  | .string s =>
    match String.ofList ((Text.trim s.toList).map Char.toLower) with
    | "true" | "yes" => some true
    | "false" | "no" => some false
    | _ => none
  | _ => none

def looseTexts : Json → List String
  | .array items => items.filterMap looseText?
  | .string s => [s]
  | _ => []

def confidence? (x : Option Float) : Option Float :=
  -- What is not finite counts as not given.
  (x.filter Float.isFinite).map fun x => if x < 0 then 0 else if 1 < x then 1 else x

def unstatedConfidence : Float := 0.5

/-! ## Proposals -/

def member? (members : List (String × Json)) (camel snake : String) : Option Json :=
  (members.lookup camel).or (members.lookup snake)

/-- The number of the node that a proposal is for: the one it gives, or else its own place. -/
def nodeNumber (members : List (String × Json)) (position : Nat) : Int :=
  ((member? members "nodeIndex" "node_index").bind looseInt?).getD position

def proposalFor (members : List (String × Json)) (node : Descriptor) : Proposal :=
  let text (camel snake : String) := (member? members camel snake).bind looseText?
  let modified := text "modifiedContent" "modified_content"
  let wanted := ((member? members "shouldApply" "should_apply").bind looseBool?).getD true
  let warnings := ((member? members "warnings" "warnings").map looseTexts).getD []
  { nodeIndex := node.index
    oldSnippet := text "originalSnippet" "original_snippet"
    newSnippet := text "modifiedSnippet" "modified_snippet"
    oldContent := (text "originalContent" "original_content").getD node.content
    newContent := modified.getD ""
    reasoning := (text "reasoning" "reasoning").getD ""
    confidence := (confidence? ((member? members "confidence" "confidence").bind
      looseFloat?)).getD unstatedConfidence
    -- Without a text to write it is not applied, whatever the oracle wants.
    accepted := wanted && modified.isSome
    strategy := ((text "strategy" "strategy").map Proposal.Strategy.ofLabel).getD .unspecified
    warnings := if modified.isSome then warnings else warnings ++ ["missing modifiedContent"] }

/-- The proposal that a value at a place of the answer makes. -/
def proposal? (nodes : List Descriptor) (position : Nat) (value : Json) : Option Proposal :=
  match value with
  | .object members =>
    match nodeNumber members position with
    -- There may be no node of this number.
    | .ofNat n => (nodes[n]?).map (proposalFor members)
    | .negSucc _ => none
  | _ => none

/-- One step of `proposals`, at the given place of the answer. -/
def proposalsFrom (nodes : List Descriptor) (position : Nat) : List Json → List Proposal
  | [] => []
  | value :: rest =>
    (proposal? nodes position value).toList ++ proposalsFrom nodes (position + 1) rest

def proposals (nodes : List Descriptor) (values : List Json) : List Proposal :=
  proposalsFrom nodes 0 values

structure Reply where
  proposals : List Proposal
  overallStrategy : String
  confidence : Float

def meanConfidence (ps : List Proposal) : Float :=
  if ps.isEmpty then unstatedConfidence else mean (ps.map (·.confidence))

/-- What a text answers about some nodes; `none` if no answer is in it. -/
def Reply.ofText? (nodes : List Descriptor) (cs : List Char) : Option Reply :=
  (rawReply? cs).map fun raw =>
    let ps := Oracle.proposals nodes raw.modifications
    -- A blank strategy is none.
    let strategy := (raw.overallStrategy.bind looseText?).filter fun s =>
      !(Text.trim s.toList).isEmpty
    { proposals := ps
      overallStrategy := strategy.getD "unspecified"
      confidence := (confidence? (raw.batchConfidence.bind looseFloat?)).getD
        (meanConfidence ps) }

end Rephrase.Oracle
