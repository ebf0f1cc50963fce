import Rephrase.Decimal.Shortest
import Rephrase.Json.Basic

/-!
Writes JSON, either without any space or with one member a line. Members stand in the order of the
object.
-/

namespace Rephrase.Json

/-- A character inside a string. Quotes, backslashes and control characters are escaped. -/
def escapeChar (c : Char) : List Char :=
  match c with
  | '"' => ['\\', '"']
  | '\\' => ['\\', '\\']
  | '\x08' => ['\\', 'b']
  | '\x0c' => ['\\', 'f']
  | '\n' => ['\\', 'n']
  | '\r' => ['\\', 'r']
  | '\t' => ['\\', 't']
  | c =>
    if c.toNat < 0x20 then
      ['\\', 'u', '0', '0', Decimal.hexChar (c.toNat / 16), Decimal.hexChar (c.toNat % 16)]
    else [c]

def quote (s : String) : List Char :=
  '"' :: s.toList.flatMap escapeChar ++ ['"']

/-- A finite float with its shortest digits. -/
def writeFloat (x : Float) : List Char :=
  let s := (Decimal.Binary.ofFloat x).shortest
  let digits := Decimal.natural s.digits
  let point : Int := digits.length + s.exponent
  -- The point stands among the digits, or after them, while the first digit is at most sixteen
  -- places in front of it and at most four zeros are between.
  let size :=
    if s.digits = 0 then ['0', '.', '0']
    else if 0 ≤ s.exponent && point ≤ 16 then
      digits ++ List.replicate s.exponent.toNat '0' ++ ['.', '0']
    else if 0 < point && point ≤ 16 then
      digits.take point.toNat ++ '.' :: digits.drop point.toNat
    else if -5 < point && point ≤ 0 then
      ['0', '.'] ++ List.replicate (-point).toNat '0' ++ digits
    -- Otherwise the first digit is set apart and an exponent follows.
    else
      let fraction := if digits.length = 1 then [] else '.' :: digits.drop 1
      digits.take 1 ++ fraction ++ 'e' :: Decimal.integer (point - 1)
  if Decimal.isNegative x then '-' :: size else size

def writeNumber : Number → List Char
  | .integer n => Decimal.integer n
  -- A float that is not finite has no form of its own.
  | .float x => if x.isFinite then writeFloat x else "null".toList

mutual

def compact : Json → List Char
  | .null => "null".toList
  | .bool true => "true".toList
  | .bool false => "false".toList
  | .number n => writeNumber n
  | .string s => quote s
  | .array items => '[' :: [','].intercalate (compactItems items) ++ [']']
  | .object members => '\x7b' :: [','].intercalate (compactMembers members) ++ ['\x7d']

def compactItems : List Json → List (List Char)
  | [] => []
  | item :: rest => compact item :: compactItems rest

def compactMembers : List (String × Json) → List (List Char)
  | [] => []
  | (key, value) :: rest => (quote key ++ ':' :: compact value) :: compactMembers rest

end

def newLine (level : Nat) : List Char :=
  '\n' :: List.replicate (2 * level) ' '

/-- Parts between brackets, each on a line of its own one level further in. -/
def block (left right : Char) (level : Nat) (parts : List (List Char)) : List Char :=
  if parts.isEmpty then [left, right]
  else
    left :: newLine (level + 1) ++ (',' :: newLine (level + 1)).intercalate parts ++
      newLine level ++ [right]

mutual

/-- A value with one item or member a line, itself at a level of nesting. -/
def prettyAt (level : Nat) : Json → List Char
  | .array items => block '[' ']' level (prettyItems (level + 1) items)
  | .object members => block '\x7b' '\x7d' level (prettyMembers (level + 1) members)
  | other => compact other

def prettyItems (level : Nat) : List Json → List (List Char)
  | [] => []
  | item :: rest => prettyAt level item :: prettyItems level rest

def prettyMembers (level : Nat) : List (String × Json) → List (List Char)
  | [] => []
  | (key, value) :: rest =>
    (quote key ++ ':' :: ' ' :: prettyAt level value) :: prettyMembers level rest

end

def pretty (json : Json) : List Char :=
  prettyAt 0 json

end Rephrase.Json
