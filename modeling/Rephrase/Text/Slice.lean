/-!
Texts addressed by the bytes of their UTF-8 form. A text is a list of characters; an offset counts
bytes, so it can fall inside a character, and then it is no place to cut.
-/

namespace Rephrase.Text

/-- The number of bytes of the UTF-8 form. -/
def size (cs : List Char) : Nat :=
  cs.foldl (fun n c => n + c.utf8Size) 0

/-- One step of `cut?`: `before`, reversed, is what has been passed already. -/
def cutFrom (before : List Char) : List Char → Nat → Option (List Char × List Char)
  | rest, 0 => some (before.reverse, rest)
  | [], _ + 1 => none
  | c :: rest, n + 1 =>
    if c.utf8Size ≤ n + 1 then cutFrom (c :: before) rest (n + 1 - c.utf8Size) else none

/-- The parts of a text before and after a byte offset; `none` if the offset lies inside a
character or beyond the end. -/
def cut? (cs : List Char) (offset : Nat) : Option (List Char × List Char) :=
  cutFrom [] cs offset

/-- The text between two byte offsets; `none` if they are in the wrong order, beyond the end, or
inside a character. -/
def slice? (cs : List Char) (start stop : Nat) : Option (List Char) :=
  if start ≤ stop then
    match cut? cs start with
    | some (_, rest) => (cut? rest (stop - start)).map Prod.fst
    | none => none
  else
    none

/-- The text with the bytes from `start` to `stop` replaced; `none` where they are no slice. -/
def splice? (cs : List Char) (start stop : Nat) (replacement : List Char) :
    Option (List Char) :=
  if start ≤ stop then
    match cut? cs start with
    | some (before, rest) =>
      (cut? rest (stop - start)).map fun parts => before ++ replacement ++ parts.2
    | none => none
  else
    none

def findFrom (needle : List Char) (offset : Nat) : List Char → Option Nat
  | [] => if needle.isEmpty then some offset else none
  | c :: rest =>
    if needle.isPrefixOf (c :: rest) then some offset
    else findFrom needle (offset + c.utf8Size) rest

/-- The byte offset of the first place where `needle` stands. -/
def find? (needle cs : List Char) : Option Nat :=
  findFrom needle 0 cs

def contains (needle cs : List Char) : Bool :=
  (find? needle cs).isSome

/-- One step of `occurrences`: `skip` counts the characters still covered by the last find. -/
def occurrencesFrom (needle : List Char) (found : List (Nat × Nat)) (offset line skip : Nat) :
    List Char → List (Nat × Nat)
  | [] => found.reverse
  | c :: rest =>
    let nextLine := if c = '\n' then line + 1 else line
    if skip = 0 && needle.isPrefixOf (c :: rest) then
      occurrencesFrom needle ((offset, line) :: found) (offset + c.utf8Size) nextLine
        (needle.length - 1) rest
    else
      occurrencesFrom needle found (offset + c.utf8Size) nextLine (skip - 1) rest

/-- The places where a needle that is not empty stands, from left to right and without overlap:
the byte offset of each and the number of its line, counted from 1. -/
def occurrences (needle cs : List Char) : List (Nat × Nat) :=
  if needle.isEmpty then [] else occurrencesFrom needle [] 0 1 0 cs

end Rephrase.Text
