import Rephrase.Text.Blank
import Rephrase.Text.Folding
import Rephrase.Text.Line

/-!
Finds a phrase in a text without a tree: its words in their order, in whatever case, with blanks
and tags between them.
-/

namespace Rephrase.Phrase

/-- What is left of a text after a word in whatever case. -/
def dropWord? : List Char → List Char → Option (List Char)
  | [], cs => some cs
  | _ :: _, [] => none
  | w :: ws, c :: cs => if Text.sameFolded w c then dropWord? ws cs else none

/-- Where a gap can end: what is left of a text after each blank or tag in front of it, the nearest
end first. `inTag` says that the text starts inside a tag. -/
def gapEnds (inTag : Bool) : List Char → List (List Char)
  | [] => []
  | c :: rest =>
    if inTag then
      -- A tag holds no angle brackets.
      if c = '<' then []
      else if c = '>' then rest :: gapEnds false rest
      else gapEnds true rest
    else if Text.isBlank c then rest :: gapEnds false rest
    else if c = '<' then gapEnds true rest
    else []

/-- What is left of a text after words with gaps between them. -/
def dropWords? : List (List Char) → List Char → Option (List Char)
  | [], cs => some cs
  | [w], cs => dropWord? w cs
  | w :: ws, cs =>
    match dropWord? w cs with
    -- The widest gap that the later words allow is taken.
    | some rest => (gapEnds false rest).reverse.findSome? (dropWords? ws)
    | none => none

/-- One step of `find`: `skip` counts the characters that the last find still covers. -/
def findFrom (ws : List (List Char)) (found : List Text.Span) (offset skip : Nat) :
    List Char → List Text.Span
  | [] => found.reverse
  | c :: rest =>
    let next := offset + c.utf8Size
    if skip = 0 then
      match dropWords? ws (c :: rest) with
      | some after =>
        let stretch := (c :: rest).take ((c :: rest).length - after.length)
        findFrom ws (⟨offset, offset + Text.size stretch⟩ :: found) next (stretch.length - 1) rest
      | none => findFrom ws found next 0 rest
    else
      findFrom ws found next (skip - 1) rest

/-- The places of a phrase in a text, from left to right and without overlap. -/
def find (phrase cs : List Char) : List Text.Span :=
  let ws := Text.words phrase
  if ws.isEmpty then [] else findFrom ws [] 0 0 cs

/-- The first place of a text in whatever case within another. -/
def findFolded? (needle : List Char) (offset : Nat) : List Char → Option Text.Span
  | [] => if needle.isEmpty then some ⟨offset, offset⟩ else none
  | c :: rest =>
    match dropWord? needle (c :: rest) with
    | some after =>
      some ⟨offset, offset + (Text.size (c :: rest) - Text.size after)⟩
    | none => findFolded? needle (offset + c.utf8Size) rest

end Rephrase.Phrase
