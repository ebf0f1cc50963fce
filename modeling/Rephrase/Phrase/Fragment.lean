import Rephrase.Phrase.Match

/-!
Finds a phrase that is spread over neighbouring text units, such as the parts of a heading with
some words in bold. Each unit goes on where the one before has left the phrase.
-/

namespace Rephrase.Phrase

/-- Units that have a phrase together. -/
structure Fragments where
  /-- The numbers of the units, ascending. -/
  units : List Nat
  /-- How many words of the phrase they have, counted from its start. -/
  matched : Nat
  deriving DecidableEq, Repr

namespace Fragments

def overlaps (a b : List Char) : Bool :=
  Text.contains b a || Text.contains a b

/-- How many words of the phrase a unit continues with its first words. -/
def continued : List (List Char) → List (List Char) → Nat
  | w :: ws, p :: ps => if overlaps w p then continued ws ps + 1 else 0
  | _, _ => 0

def started (unit phrase : List (List Char)) : Nat :=
  match phrase with
  | [] => 0
  -- Other words may come before them.
  | p :: _ => continued (unit.dropWhile fun w => !overlaps w p) phrase

/-- Follows the rest of a phrase through the next units, the first of which has the given number. -/
def extend (number : Nat) (phrase : List (List Char)) : List (List (List Char)) → Fragments
  | [] => ⟨[], 0⟩
  | unit :: rest =>
    let n := continued unit phrase
    if 0 < n then
      let later := extend (number + 1) (phrase.drop n) rest
      ⟨number :: later.units, n + later.matched⟩
    else
      -- A unit may be passed over if the unit after it goes on with the phrase.
      match rest with
      | next :: _ =>
        if 0 < continued next phrase then extend (number + 1) phrase rest else ⟨[], 0⟩
      | [] => ⟨[], 0⟩

/-- The units that have the phrase from the first unit on, if that one starts it. -/
def from? (number : Nat) (phrase : List (List Char)) (units : List (List (List Char))) :
    Option Fragments :=
  match units with
  | [] => none
  | unit :: rest =>
    let n := started unit phrase
    if 0 < n then
      let later := extend (number + 1) (phrase.drop n) rest
      some ⟨number :: later.units, n + later.matched⟩
    else
      none

def coverage (fragments : Fragments) (phraseLength : Nat) : Float :=
  share fragments.matched phraseLength

/-- Whether there are at least two units and they have enough of the phrase. -/
def isEnough (minCoverage : Float) (phraseLength : Nat) (fragments : Fragments) : Bool :=
  2 ≤ fragments.units.length && decide (minCoverage ≤ fragments.coverage phraseLength)

/-- One step of `find`: `skip` counts the units that the last find still covers. -/
def findFrom (phrase : List (List Char)) (lookahead : Nat) (minCoverage : Float)
    (number skip : Nat) : List (List (List Char)) → List Fragments
  | [] => []
  | unit :: rest =>
    if 0 < skip then findFrom phrase lookahead minCoverage (number + 1) (skip - 1) rest
    else
      -- A phrase that is not found far enough here may still start in the next unit.
      match (from? number phrase ((unit :: rest).take lookahead)).filter
          (isEnough minCoverage phrase.length) with
      | some found =>
        found :: findFrom phrase lookahead minCoverage (number + 1)
          (found.units.getLastD number - number) rest
      | none => findFrom phrase lookahead minCoverage (number + 1) 0 rest

/-- The places where neighbouring units, at most `lookahead` of them, have a phrase of at least two
words, in order and without overlap. -/
def find (phrase : List (List Char)) (lookahead : Nat) (minCoverage : Float)
    (units : List (List (List Char))) : List Fragments :=
  if phrase.length < 2 then [] else findFrom phrase lookahead minCoverage 0 0 units

end Fragments

end Rephrase.Phrase
