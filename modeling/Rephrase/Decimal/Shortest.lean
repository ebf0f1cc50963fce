import Rephrase.Decimal.Digits

/-!
Decimal forms of binary floats: the shortest one that reads back as the same float, and the one
with a fixed number of places. Both come from exact arithmetic on the float's significand.
-/

namespace Rephrase.Decimal

/-- The size of a finite float: a significand times a power of two. -/
structure Binary where
  significand : Nat
  exponent : Int
  deriving DecidableEq, Repr

/-- Decodes the bits of a finite float, without its sign. -/
def Binary.ofFloat (x : Float) : Binary :=
  let bits := x.toBits.toNat
  let fraction := bits % (1 <<< 52)
  let biased : Nat := (bits >>> 52) % (1 <<< 11)
  -- The leading bit of the significand is not stored; subnormal floats have none.
  if biased = 0 then ⟨fraction, -1074⟩ else ⟨(1 <<< 52) + fraction, (biased : Int) - 1075⟩

/-- Whether a float carries a minus sign, which zero can do too. -/
def isNegative (x : Float) : Bool :=
  x.toBits.toNat >>> 63 == 1

structure Scaled where
  digits : Nat
  exponent : Int
  deriving DecidableEq, Repr

/-- The reals that round to one float, as multiples of `1 / scale`. The ends belong to them where
`closed` says so. -/
structure Rounding where
  low : Nat
  value : Nat
  high : Nat
  scale : Nat
  closed : Bool

/-- The reals that round to a float: half a step to either side. -/
def Binary.rounding (b : Binary) : Rounding :=
  -- Below a power of two the steps are half as wide.
  let narrow := b.significand = 1 <<< 52 && b.exponent ≠ -1074
  let up := 1 <<< b.exponent.toNat
  { low := (4 * b.significand - if narrow then 1 else 2) * up
    value := 4 * b.significand * up
    high := (4 * b.significand + 2) * up
    scale := 4 <<< (-b.exponent).toNat
    -- Of two floats that are equally near the one with an even significand is taken.
    closed := b.significand % 2 = 0 }

def Rounding.onGrid (r : Rounding) (power : Int) : Rounding :=
  let down := Nat.pow 10 (-power).toNat
  { r with
    low := r.low * down
    value := r.value * down
    high := r.high * down
    scale := r.scale * Nat.pow 10 power.toNat }

def Rounding.admits (r : Rounding) (n : Nat) : Bool :=
  if r.closed then r.low ≤ n * r.scale && n * r.scale ≤ r.high
  else r.low < n * r.scale && n * r.scale < r.high

/-- The whole number of units in the interval that is nearest to the value, an even one if two are
equally near. -/
def Rounding.nearest? (r : Rounding) : Option Nat :=
  -- Only the value's two neighbours can be it.
  let below := r.value / r.scale
  let above := below + 1
  match r.admits below, r.admits above with
  | false, false => none
  | true, false => some below
  | false, true => some above
  | true, true =>
    let down := r.value - below * r.scale
    let up := above * r.scale - r.value
    if down < up || (down = up && below % 2 = 0) then some below else some above

/-- One step of `shortest`: tries one power of ten, then the ones below it. -/
def shortestFrom (r : Rounding) (power : Int) : Nat → Scaled
  | 0 => ⟨(r.onGrid power).value / (r.onGrid power).scale, power⟩
  | tries + 1 =>
    match (r.onGrid power).nearest? with
    | some n => ⟨n, power⟩
    | none => shortestFrom r (power - 1) tries

/-- The fewest digits that round to the float, and of those the nearest to it. -/
def Binary.shortest (b : Binary) : Scaled :=
  if b.significand = 0 then ⟨0, 0⟩
  else
    -- The search starts at a power of ten above the float's size, by a close estimate of the
    -- logarithm of two, and 20 digits are more than any float needs.
    let bits : Int := b.significand.log2 + b.exponent + 1
    shortestFrom b.rounding (bits * 30103 / 100000 + 1) 20

def roundHalfEven (num den : Nat) : Nat :=
  let quotient := num / den
  let rest := 2 * (num % den)
  if rest < den || (rest = den && quotient % 2 = 0) then quotient else quotient + 1

def fixed (places : Nat) (x : Float) : List Char :=
  let b := Binary.ofFloat x
  let num := (b.significand <<< b.exponent.toNat) * Nat.pow 10 places
  let digits := padded (places + 1) (roundHalfEven num (1 <<< (-b.exponent).toNat))
  let whole := digits.take (digits.length - places)
  let sign := if isNegative x then ['-'] else []
  if places = 0 then sign ++ whole
  else sign ++ whole ++ '.' :: digits.drop (digits.length - places)

/-- A finite float written with its shortest digits and without an exponent; a whole number gets
one place. -/
def positional (x : Float) : List Char :=
  let s := (Binary.ofFloat x).shortest
  let digits := natural s.digits
  let sign := if isNegative x then ['-'] else []
  if 0 ≤ s.exponent then
    sign ++ digits ++ List.replicate s.exponent.toNat '0' ++ ['.', '0']
  else
    let places := (-s.exponent).toNat
    let all := List.replicate (places + 1 - digits.length) '0' ++ digits
    sign ++ all.take (all.length - places) ++ '.' :: all.drop (all.length - places)

end Rephrase.Decimal
