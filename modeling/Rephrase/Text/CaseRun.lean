/-!
Case tables. Characters that a case map moves by the same distance stand in runs, either next to
each other or at every second code point.
-/

namespace Rephrase.Text

/-- The code points `low`, `low + step`, up to `high`, each moved by `shift`. -/
structure CaseRun where
  low : Nat
  high : Nat
  step : Nat
  shift : Int

/-- Where the runs move a code point. One that stands in none of them stays. -/
def moveBy (n : Nat) : List CaseRun → Nat
  | [] => n
  | run :: rest =>
    -- The runs are in ascending order.
    if n < run.low then n
    else if n ≤ run.high && (n - run.low) % run.step = 0 then (n + run.shift).toNat
    else moveBy n rest

end Rephrase.Text
