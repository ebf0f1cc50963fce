import Rephrase.Decimal.Digits
import Rephrase.Json.Basic

/-!
JSON numbers as they are written. A number is split into its digits and its exponent first; its
value follows from these by a rule that is exact for integers of 64 bits and takes at most a few
roundings for all others.
-/

namespace Rephrase.Json

/-- A number as it is written: the digits before the point, after the point if there is one, and
the sign and the digits of the exponent if there is one. -/
structure Numeral where
  negative : Bool
  whole : List Char
  fraction : Option (List Char)
  exponent : Option (Bool × List Char)

/-- Adds digits to a significand for as long as it fits in 64 bits, and returns the others. -/
def absorb (significand : Nat) : List Char → Nat × List Char
  | [] => (significand, [])
  | c :: rest =>
    if Decimal.appendDigit significand c < 0x10000000000000000 then
      absorb (Decimal.appendDigit significand c) rest
    else
      (significand, c :: rest)

/-- A power of ten as a float, for exponents up to 308. -/
def powerOfTen (n : Nat) : Float := Float.ofScientific 1 false n

/-- A float times a power of ten, by one multiplication or division. `none` if the result would be
infinite. -/
def scaleByTen (x : Float) (exponent : Int) : Option Float :=
  if exponent.natAbs ≤ 308 then
    if 0 ≤ exponent then
      let y := x * powerOfTen exponent.natAbs
      if y.isFinite then some y else none
    else
      some (x / powerOfTen exponent.natAbs)
  else if x == 0 then some x
  else if 0 ≤ exponent then none
  -- A power below the smallest of the floats is reached by dividing more than once.
  else scaleByTen (x / powerOfTen 308) (exponent + 308)
termination_by (-exponent).toNat

def exponentLimit : Nat := 0x7fffffff

/-- The size of a numeral as a float; `none` if it is out of range. -/
def Numeral.magnitude (numeral : Numeral) : Option Float :=
  let (whole, beyond) := absorb 0 numeral.whole
  let fraction := numeral.fraction.getD []
  let (significand, dropped) := absorb whole fraction
  -- Digits that no longer fit in the significand only count by their place.
  let place : Int := (beyond.length : Int) - (fraction.length - dropped.length : Nat)
  match numeral.exponent with
  | none => scaleByTen significand.toUInt64.toFloat place
  | some (down, digits) =>
    let size := Decimal.ofDigits digits
    if exponentLimit < size then
      if significand = 0 || down then some 0 else none
    else
      scaleByTen significand.toUInt64.toFloat (if down then place - size else place + size)

/-- The value of a numeral; `none` if it is beyond the range of floats. -/
def Numeral.value? (numeral : Numeral) : Option Number :=
  let n := Decimal.ofDigits numeral.whole
  -- It is an integer if it is written as one and fits in 64 bits, but zero with a minus sign is a
  -- float.
  let isInteger := numeral.fraction.isNone && numeral.exponent.isNone &&
    (if numeral.negative then n ≠ 0 && n ≤ 0x8000000000000000
      else n < 0x10000000000000000)
  if isInteger then
    some (.integer (if numeral.negative then -(n : Int) else n))
  else
    numeral.magnitude.map fun x => .float (if numeral.negative then -x else x)

def readDigits (cs : List Char) : Option (List Char × List Char) :=
  let digits := cs.takeWhile Char.isDigit
  if digits.isEmpty then none else some (digits, cs.dropWhile Char.isDigit)

/-- Takes the digits before the point. -/
def readWhole : List Char → Option (List Char × List Char)
  -- Only a zero that stands alone may come first.
  | '0' :: rest =>
    match rest with
    | c :: _ => if c.isDigit then none else some (['0'], rest)
    | [] => some (['0'], rest)
  | cs => readDigits cs

def readFraction : List Char → Option (Option (List Char) × List Char)
  | '.' :: rest => (readDigits rest).map fun (digits, rest) => (some digits, rest)
  | cs => some (none, cs)

/-- Takes the sign of an exponent; whether it is a minus sign. -/
def readExponentSign : List Char → Bool × List Char
  | '-' :: rest => (true, rest)
  | '+' :: rest => (false, rest)
  | cs => (false, cs)

def readExponent : List Char → Option (Option (Bool × List Char) × List Char)
  | c :: rest =>
    if c = 'e' || c = 'E' then
      let (down, rest) := readExponentSign rest
      (readDigits rest).map fun (digits, rest) => (some (down, digits), rest)
    else
      some (none, c :: rest)
  | [] => some (none, [])

def readNumeral (cs : List Char) : Option (Numeral × List Char) := do
  let (negative, cs) := match cs with
    | '-' :: rest => (true, rest)
    | cs => (false, cs)
  let (whole, cs) ← readWhole cs
  let (fraction, cs) ← readFraction cs
  let (exponent, cs) ← readExponent cs
  return (⟨negative, whole, fraction, exponent⟩, cs)

end Rephrase.Json
