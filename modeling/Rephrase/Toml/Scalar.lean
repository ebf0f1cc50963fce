import Rephrase.Decimal.Read
import Rephrase.Toml.Basic

/-!
Numbers, dates and times of TOML, each read from a text that is nothing else.
-/

namespace Rephrase.Toml

/-- One step of `group?`: `after` says that a digit was in front. -/
def groupFrom? (isDigit : Char → Bool) (after : Bool) : List Char → Option (List Char)
  | [] => if after then some [] else none
  | c :: rest =>
    if isDigit c then (groupFrom? isDigit true rest).map (c :: ·)
    else if c = '_' && after then groupFrom? isDigit false rest
    else none

/-- Digits in which underscores stand between digits; without the underscores. -/
def group? (isDigit : Char → Bool) (cs : List Char) : Option (List Char) :=
  groupFrom? isDigit false cs

def digitValue (c : Char) : Nat :=
  if c.isDigit then c.toNat - '0'.toNat else c.toLower.toNat - 'a'.toNat + 10

def inBase (base : Nat) (digits : List Char) : Nat :=
  digits.foldl (fun n c => base * n + digitValue c) 0

def isDigitOf (base : Nat) (c : Char) : Bool :=
  (c.isDigit || ('a' ≤ c.toLower && c.toLower ≤ 'f')) && digitValue c < base

def whole? (cs : List Char) : Option (List Char) :=
  match cs with
  -- A zero may only stand alone.
  | '0' :: _ :: _ => none
  | cs => group? Char.isDigit cs

def splitSign : List Char → Bool × List Char
  | '-' :: rest => (true, rest)
  | '+' :: rest => (false, rest)
  | cs => (false, cs)

def integer? (cs : List Char) : Option Int :=
  let bounded (n : Int) : Option Int :=
    if -0x8000000000000000 ≤ n && n < 0x8000000000000000 then some n else none
  let based (base : Nat) (digits : List Char) : Option Int :=
    (group? (isDigitOf base) digits).bind fun digits => bounded (inBase base digits)
  match cs with
  | '0' :: 'x' :: digits => based 16 digits
  | '0' :: 'o' :: digits => based 8 digits
  | '0' :: 'b' :: digits => based 2 digits
  -- Only decimal ones may have a sign.
  | cs =>
    let (negative, digits) := splitSign cs
    (whole? digits).bind fun digits =>
      let n := Decimal.ofDigits digits
      bounded (if negative then -(n : Int) else n)

/-- The exponent of a float, which is all that is left of it. -/
def exponent? (cs : List Char) : Option Int :=
  match cs with
  | c :: rest =>
    if c = 'e' || c = 'E' then
      let (negative, digits) := splitSign rest
      (group? Char.isDigit digits).map fun digits =>
        let n := Decimal.ofDigits digits
        if negative then -(n : Int) else n
    else
      none
  | [] => some 0

def isGrouped (c : Char) : Bool := c.isDigit || c = '_'

/-- A float without a sign: digits in front of a point and behind it, an exponent, or both, or the
word for infinity or for what is not a number. -/
def size? (cs : List Char) : Option Float :=
  if cs = "inf".toList then some (1.0 / 0.0)
  else if cs = "nan".toList then some (0.0 / 0.0)
  else do
    let whole ← whole? (cs.takeWhile isGrouped)
    match cs.dropWhile isGrouped with
    | '.' :: rest =>
      let fraction ← group? Char.isDigit (rest.takeWhile isGrouped)
      let exponent ← exponent? (rest.dropWhile isGrouped)
      return Decimal.nearestFloat (Decimal.ofDigits (whole ++ fraction)) (exponent - fraction.length)
    -- Digits alone are an integer.
    | [] => none
    | rest => return Decimal.nearestFloat (Decimal.ofDigits whole) (← exponent? rest)

def float? (cs : List Char) : Option Float :=
  let (negative, digits) := splitSign cs
  (size? digits).bind fun x =>
    if negative then some (-x)
    -- Digits that come to infinity are out of range, but only without a minus.
    else if x.isInf && digits ≠ "inf".toList then none
    else some x

/-- A number of a fixed count of digits within bounds, and what follows it. -/
def fixed? (count low high : Nat) (cs : List Char) : Option (Nat × List Char) :=
  let digits := cs.take count
  if digits.length = count && digits.all Char.isDigit then
    let n := Decimal.ofDigits digits
    if low ≤ n && n ≤ high then some (n, cs.drop count) else none
  else
    none

def expect? (c : Char) : List Char → Option (List Char)
  | d :: rest => if c = d then some rest else none
  | [] => none

def daysOf (year month : Nat) : Nat :=
  if month = 2 then
    if year % 4 = 0 && (year % 100 ≠ 0 || year % 400 = 0) then 29 else 28
  else if month = 4 || month = 6 || month = 9 || month = 11 then 30
  else 31

def afterDate? (cs : List Char) : Option (List Char) := do
  let (year, cs) ← fixed? 4 0 9999 cs
  let cs ← expect? '-' cs
  let (month, cs) ← fixed? 2 1 12 cs
  let cs ← expect? '-' cs
  let (_, cs) ← fixed? 2 1 (daysOf year month) cs
  return cs

def afterTime? (cs : List Char) : Option (List Char) := do
  let (_, cs) ← fixed? 2 0 23 cs
  let cs ← expect? ':' cs
  let (_, cs) ← fixed? 2 0 59 cs
  let cs ← expect? ':' cs
  let (_, cs) ← fixed? 2 0 60 cs
  match cs with
  | '.' :: rest =>
    if (rest.takeWhile Char.isDigit).isEmpty then none else some (rest.dropWhile Char.isDigit)
  | cs => some cs

def isOffset (cs : List Char) : Bool :=
  match cs with
  | [] => true
  | ['Z'] | ['z'] => true
  | c :: rest =>
    (c = '+' || c = '-') &&
      (do
        let (_, cs) ← fixed? 2 0 23 rest
        let cs ← expect? ':' cs
        let (_, cs) ← fixed? 2 0 59 cs
        return cs.isEmpty).getD false

def isTime (allowOffset : Bool) (cs : List Char) : Bool :=
  match afterTime? cs with
  | some rest => if allowOffset then isOffset rest else rest.isEmpty
  | none => false

def isDateTime (cs : List Char) : Bool :=
  match afterDate? cs with
  | some [] => true
  | some (c :: rest) => (c = 'T' || c = 't' || c = ' ') && isTime true rest
  | none => isTime false cs

def scalar? (cs : List Char) : Option Toml :=
  if cs = "true".toList then some (.boolean true)
  else if cs = "false".toList then some (.boolean false)
  else if isDateTime cs then some (.dateTime (String.ofList cs))
  else
    match integer? cs with
    | some n => some (.integer n)
    | none => (float? cs).map .float

end Rephrase.Toml
