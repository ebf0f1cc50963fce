import Rephrase.Decimal.Digits
import Rephrase.Json.Decode
import Rephrase.Text.Blank
import Rephrase.Time.Instant

/-!
Time stamps, such as 2024-01-02T03:04:05.5+02:00. Reading allows blanks between the parts and any
distance from universal time below a day; writing is in universal time with as few digits of the
second's fraction as are exact, in threes.
-/

namespace Rephrase.Instant

/-! ## Writing -/

def writeFraction (nanos : Nat) : List Char :=
  if nanos = 0 then []
  else if nanos % 1000000 = 0 then '.' :: Decimal.padded 3 (nanos / 1000000)
  else if nanos % 1000 = 0 then '.' :: Decimal.padded 6 (nanos / 1000)
  else '.' :: Decimal.padded 9 nanos

def writeYear (year : Int) : List Char :=
  match year with
  -- A year of more than four digits has a sign, and so has one before the year zero.
  | .ofNat n => if n < 10000 then Decimal.padded 4 n else '+' :: Decimal.natural n
  | .negSucc n => '-' :: Decimal.padded 4 (n + 1)

def write (t : Instant) : String :=
  let date := Calendar.Date.ofDays (t.seconds / Calendar.daySeconds)
  let second := (t.seconds % Calendar.daySeconds).toNat
  -- A leap second is the second 60.
  let leap := 1000000000 ≤ t.nanos
  String.ofList <|
    writeYear date.year ++ '-' :: Decimal.padded 2 date.month ++ '-' ::
      Decimal.padded 2 date.day ++ 'T' :: Decimal.padded 2 (second / 3600) ++ ':' ::
      Decimal.padded 2 (second / 60 % 60) ++ ':' ::
      Decimal.padded 2 (second % 60 + if leap then 1 else 0) ++
      writeFraction (if leap then t.nanos - 1000000000 else t.nanos) ++ ['Z']

/-! ## Reading -/

def readNumber (most : Nat) (cs : List Char) : Option (Nat × List Char) :=
  let digits := (cs.take most).takeWhile Char.isDigit
  if digits.isEmpty then none else some (Decimal.ofDigits digits, cs.drop digits.length)

/-- Takes a number within bounds, with blanks in front of it. -/
def readField (low high : Nat) (cs : List Char) : Option (Nat × List Char) :=
  (readNumber 2 (Text.stripStart Text.isBlank cs)).filter fun (n, _) => low ≤ n && n ≤ high

def readYear (cs : List Char) : Option (Int × List Char) :=
  match Text.stripStart Text.isBlank cs with
  | '-' :: rest => (readNumber rest.length rest).map fun (n, rest) => (-(n : Int), rest)
  | '+' :: rest => (readNumber rest.length rest).map fun (n, rest) => (n, rest)
  -- Only with a sign may a year have more than four digits.
  | cs => (readNumber 4 cs).map fun (n, rest) => (n, rest)

/-- What follows a sign that has to come next, with blanks in front of it. -/
def readMark (mark : Char) (cs : List Char) : Option (List Char) :=
  match Text.stripStart Text.isBlank cs with
  | c :: rest => if c = mark then some rest else none
  | [] => none

def readDate (cs : List Char) : Option (Calendar.Date × List Char) := do
  let (year, cs) ← readYear cs
  let (month, cs) ← readField 1 12 (← readMark '-' cs)
  let (day, cs) ← readField 1 31 (← readMark '-' cs)
  let date : Calendar.Date := ⟨year, month, day⟩
  if date.isValid then some (date, cs) else none

def readFraction (cs : List Char) : Option (Nat × List Char) :=
  match cs with
  | '.' :: rest =>
    let digits := rest.takeWhile Char.isDigit
    if digits.isEmpty then none
    else
      -- Digits beyond the ninth do not count, and missing ones are zero.
      let counted := digits.take 9
      some (Decimal.ofDigits counted * Nat.pow 10 (9 - counted.length), rest.dropWhile Char.isDigit)
  | cs => some (0, cs)

def readTime (cs : List Char) : Option ((Nat × Nat) × List Char) := do
  let (hour, cs) ← readField 0 23 cs
  let (minute, cs) ← readField 0 59 (← readMark ':' cs)
  let (second, cs) ← readField 0 60 (← readMark ':' cs)
  let (nanos, cs) ← readFraction cs
  let base := hour * 3600 + minute * 60
  return (if second = 60 then (base + 59, nanos + 1000000000) else (base + second, nanos), cs)

def readDistance (cs : List Char) : Option (Nat × List Char) := do
  let hours := cs.take 2
  -- Colons and blanks may stand between them.
  let rest := (cs.drop 2).dropWhile fun c => c == ':' || Text.isBlank c
  let minutes := rest.take 2
  if hours.length = 2 && hours.all Char.isDigit && minutes.length = 2 &&
      minutes.all Char.isDigit && Decimal.ofDigits minutes < 60 then
    some (Decimal.ofDigits hours * 3600 + Decimal.ofDigits minutes * 60, rest.drop 2)
  else
    none

/-- Takes the distance from universal time, in seconds; it is below a day. -/
def readOffset (cs : List Char) : Option (Int × List Char) :=
  if (cs.take 3).map Char.toUpper = ['U', 'T', 'C'] then some (0, cs.drop 3)
  else
    match cs with
    | 'Z' :: rest | 'z' :: rest => some (0, rest)
    | sign :: rest =>
      if sign = '+' || sign = '-' || sign = '−' then
        match readDistance rest with
        | some (distance, rest) =>
          if distance < 86400 then
            some (if sign = '+' then distance else -(distance : Int), rest)
          else none
        | none => none
      else
        none
    | [] => none

def read? (cs : List Char) : Option Instant := do
  let (date, cs) ← readDate cs
  let cs ← match cs with
    | 'T' :: rest | 't' :: rest | ' ' :: rest => some rest
    | _ => none
  let ((second, nanos), cs) ← readTime cs
  let (offset, cs) ← readOffset (Text.stripStart Text.isBlank cs)
  let seconds := date.toDays * Calendar.daySeconds + second - offset
  if (Text.trim cs).isEmpty && Calendar.covers seconds then some ⟨seconds, nanos⟩ else none

def decode : Json.Decoder Instant := fun levels document =>
  (Json.Decode.string levels document).bind fun s => read? s.toList

def toJson (t : Instant) : Json := .string t.write

end Rephrase.Instant
