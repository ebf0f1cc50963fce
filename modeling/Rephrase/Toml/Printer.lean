import Rephrase.Decimal.Shortest

/-!
Writes TOML values. A string gets the plainest quotes that its characters allow.
-/

namespace Rephrase.Toml

def longestRun (c : Char) (cs : List Char) : Nat :=
  (cs.splitOnP (· != c)).foldl (fun longest run => max longest run.length) 0

/-- Whether a character can only be written by its number or a letter behind a backslash. Tabs and
line feeds can stand for themselves somewhere. -/
def needsEscape (c : Char) : Bool :=
  c ≠ '\t' && c ≠ '\n' && (c.toNat < 0x20 || c.toNat = 0x7F)

def upperHex (n : Nat) : Char := (Decimal.hexChar n).toUpper

/-- A character between double quotes that is neither a quote nor a line feed. -/
def escapeChar (c : Char) : List Char :=
  match c with
  | '\x08' => ['\\', 'b']
  | '\t' => ['\\', 't']
  | '\x0c' => ['\\', 'f']
  | '\r' => ['\\', 'r']
  | '\\' => ['\\', '\\']
  | c =>
    if needsEscape c then
      ['\\', 'u', '0', '0', upperHex (c.toNat / 16), upperHex (c.toNat % 16)]
    else [c]

/-- The text between double quotes, single ones or triple ones. `quotes` counts the quotes in
front. -/
def escape (long : Bool) (quotes : Nat) : List Char → List Char
  | [] => []
  | c :: rest =>
    -- Between triple quotes up to two quotes in a row stand for themselves, and so do line feeds.
    if c = '"' then
      if long && quotes < 2 then c :: escape long (quotes + 1) rest
      else '\\' :: c :: escape long 0 rest
    else if c = '\n' then (if long then [c] else ['\\', 'n']) ++ escape long 0 rest
    else escapeChar c ++ escape long 0 rest

inductive Quotes where
  | basic
  | literal
  | longBasic
  | longLiteral
  deriving DecidableEq, Repr

/-- The quotes for a string: the first kind that needs no backslash, or else double quotes. -/
def quotesFor (cs : List Char) : Quotes :=
  let double := longestRun '"' cs
  let single := longestRun '\'' cs
  let newline := cs.elem '\n'
  let backslash := cs.elem '\\'
  if cs.any needsEscape then if newline then .longBasic else .basic
  else if !backslash && double = 0 && !newline then .basic
  else if single = 0 && !newline then .literal
  else if !backslash && double ≤ 2 then .longBasic
  else if single ≤ 2 then .longLiteral
  else if newline then .longBasic
  else .basic

def writeString (s : String) : List Char :=
  let cs := s.toList
  -- After long quotes a text of several lines starts on a line of its own.
  let start : List Char := if cs.elem '\n' then ['\n'] else []
  match quotesFor cs with
  | .basic => '"' :: escape false 0 cs ++ ['"']
  | .literal => '\'' :: cs ++ ['\'']
  | .longBasic => "\"\"\"".toList ++ start ++ escape true 0 cs ++ "\"\"\"".toList
  | .longLiteral => "'''".toList ++ start ++ cs ++ "'''".toList

def writeStrings (ss : List String) : List Char :=
  match ss with
  | [] => ['[', ']']
  | [s] => '[' :: writeString s ++ [']']
  -- More than one stand on lines of their own.
  | ss => "[\n".toList ++ ss.flatMap (fun s => "    ".toList ++ writeString s ++ [',', '\n']) ++ [']']

def writeFloat (x : Float) : List Char :=
  if x.isNaN then "nan".toList
  else if x.isInf then if x < 0 then "-inf".toList else "inf".toList
  else Decimal.positional x

def writeBool (b : Bool) : List Char :=
  if b then "true".toList else "false".toList

end Rephrase.Toml
