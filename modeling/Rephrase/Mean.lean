/-!
Means of floats.
-/

namespace Rephrase

def sum (xs : List Float) : Float :=
  -- The sum of nothing is negative zero, to which any float can be added as it is.
  xs.foldl (· + ·) (-0.0)

def mean (xs : List Float) : Float :=
  sum xs / xs.length.toUInt64.toFloat

end Rephrase
