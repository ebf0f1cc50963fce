import Rephrase.Config.Basic
import Rephrase.Phrase.Words
import Rephrase.Text.Slice

/-!
Whether a file may hold a phrase, judged from its text alone. Four grades of a match are tried, the
strictest first.
-/

namespace Rephrase.Phrase

inductive MatchGrade where
  | exact
  | caseInsensitive
  /-- Enough of its long words, word pairs and word triples stand in the text. -/
  | keyPhrase
  /-- Enough of its words stand in the text. -/
  | wordMajority
  deriving DecidableEq, Repr

namespace MatchGrade

def confidence : MatchGrade → Float
  | .exact => 1.0
  | .caseInsensitive => 0.95
  | .keyPhrase => 0.7
  | .wordMajority => 0.6

def label : MatchGrade → String
  | .exact => "exact"
  | .caseInsensitive => "case_insensitive"
  | .keyPhrase => "key_phrase"
  | .wordMajority => "word_majority"

def ofLabel? : String → Option MatchGrade
  | "exact" => some .exact
  | "case_insensitive" => some .caseInsensitive
  | "key_phrase" => some .keyPhrase
  | "word_majority" => some .wordMajority
  | _ => none

end MatchGrade

/-- The runs of `n` neighbouring words, each joined by spaces. -/
def wordRuns (n : Nat) : List (List Char) → List (List Char)
  | [] => []
  | w :: rest =>
    if n ≤ (w :: rest).length then Text.unwords ((w :: rest).take n) :: wordRuns n rest else []

/-- What a phrase is looked for by: its words of more than three bytes, its word pairs, and its
word triples. -/
def clues (ws : List (List Char)) : List (List Char) :=
  ws.filter (fun w => 3 < Text.size w) ++ wordRuns 2 ws ++ wordRuns 3 ws

def longWords (ws : List (List Char)) : List (List Char) :=
  ws.filter fun w => 2 < Text.size w

def hits (parts : List (List Char)) (cs : List Char) : Nat :=
  parts.countP fun part => Text.contains part cs

def share (part whole : Nat) : Float :=
  part.toUInt64.toFloat / whole.toUInt64.toFloat

/-- Whether there are any parts and enough of them stand in a text. -/
def reaches (threshold : Float) (parts : List (List Char)) (cs : List Char) : Bool :=
  !parts.isEmpty && decide (threshold ≤ share (hits parts cs) parts.length)

def grade? (config : Config) (phrase cs : List Char) : Option MatchGrade :=
  let phrase' := Text.trim phrase
  let lower := Text.lowercase cs
  let ws := words phrase
  -- A blank phrase matches nothing, though it is part of every text.
  if phrase'.isEmpty then none
  else if Text.contains phrase' cs then some .exact
  else if Text.contains (Text.lowercase phrase') lower then some .caseInsensitive
  else if reaches config.keyPhraseThreshold (clues ws) lower then some .keyPhrase
  else if reaches config.wordMajorityThreshold (longWords ws) lower then some .wordMajority
  else none

end Rephrase.Phrase
