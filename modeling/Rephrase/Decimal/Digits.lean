/-!
Digits: a number written in base ten, and read back; and the digits of base sixteen.
-/

namespace Rephrase.Decimal

def digitChar (n : Nat) : Char :=
  Char.ofNat ('0'.toNat + n % 10)

def hexChar (n : Nat) : Char :=
  if n < 10 then Char.ofNat ('0'.toNat + n) else Char.ofNat ('a'.toNat + n - 10)

/-- One step of `natural`: `done` holds the digits to the right. -/
def naturalFrom (done : List Char) (n : Nat) : List Char :=
  if n < 10 then digitChar n :: done
  else naturalFrom (digitChar n :: done) (n / 10)
termination_by n

/-- The digits of a number, without leading zeros. -/
def natural (n : Nat) : List Char :=
  naturalFrom [] n

def integer : Int → List Char
  | .ofNat n => natural n
  | .negSucc n => '-' :: natural (n + 1)

def padded (width n : Nat) : List Char :=
  let digits := natural n
  List.replicate (width - digits.length) '0' ++ digits

/-- The number that follows from `n` by writing one more digit. -/
def appendDigit (n : Nat) (c : Char) : Nat :=
  10 * n + (c.toNat - '0'.toNat)

def ofDigits (cs : List Char) : Nat :=
  cs.foldl appendDigit 0

/-- Reads a number that is written with at least one digit and nothing else. -/
def natural? (cs : List Char) : Option Nat :=
  if !cs.isEmpty && cs.all Char.isDigit then some (ofDigits cs) else none

def integer? : List Char → Option Int
  | '-' :: cs => (natural? cs).map fun n => -(n : Int)
  | '+' :: cs => (natural? cs).map Int.ofNat
  | cs => (natural? cs).map Int.ofNat

end Rephrase.Decimal
