import Rephrase.Decimal.Digits

/-!
Reads floats from decimal text: a sign, digits with a point among them or around them, and an
exponent, or one of the words for infinity and for what is not a number.
-/

namespace Rephrase.Decimal

/-- A number of digits and a power of ten, as the nearest float. -/
def nearestFloat (digits : Nat) (exponent : Int) : Float :=
  let point : Int := (natural digits).length + exponent
  -- Sizes beyond the range of floats are decided by the place of the first digit.
  if digits = 0 || point < -330 then 0
  else if 310 < point then 1.0 / 0.0
  else Float.ofScientific digits (exponent < 0) exponent.natAbs

def exponent? : List Char → Option Int
  | [] => some 0
  | c :: rest => if c = 'e' || c = 'E' then integer? rest else none

def size? (cs : List Char) : Option Float :=
  let word := String.ofList (cs.map Char.toLower)
  if word = "inf" || word = "infinity" then some (1.0 / 0.0)
  else if word = "nan" then some (0.0 / 0.0)
  else
    let whole := cs.takeWhile Char.isDigit
    let (fraction, rest) := match cs.dropWhile Char.isDigit with
      | '.' :: rest => (rest.takeWhile Char.isDigit, rest.dropWhile Char.isDigit)
      | rest => ([], rest)
    if whole.isEmpty && fraction.isEmpty then none
    else
      (exponent? rest).map fun e => nearestFloat (ofDigits (whole ++ fraction)) (e - fraction.length)

def float? : List Char → Option Float
  | '-' :: cs => (size? cs).map fun x => -x
  | '+' :: cs => size? cs
  | cs => size? cs

end Rephrase.Decimal
