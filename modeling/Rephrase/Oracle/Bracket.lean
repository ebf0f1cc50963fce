/-!
Finds JSON objects in prose by their brackets alone. Quotes and brackets count only inside an
object, and brackets inside quotes do not.
-/

namespace Rephrase.Oracle

/-- Where a scan is with respect to quotes. -/
inductive Quoting where
  | outside
  | inside
  /-- Behind a backslash inside quotes. -/
  | escaped
  deriving DecidableEq, Repr

def Quoting.next (c : Char) : Quoting → Quoting
  | .escaped => .inside
  | _ => if c = '\\' then .escaped else if c = '"' then .outside else .inside

def isOpening (c : Char) : Bool := c == '\x7b' || c == '['

def isClosing (c : Char) : Bool := c == '\x7d' || c == ']'

def closingOf (c : Char) : Char := if c = '\x7b' then '\x7d' else ']'

/-- The places where an object starts outside of every other, each with the text from there on.
`depth` counts the open brackets of the object around the text. -/
def objectStartsFrom (depth : Nat) (quoting : Quoting) : List Char → List (List Char)
  | [] => []
  | c :: rest =>
    if depth = 0 then
      if c = '\x7b' then (c :: rest) :: objectStartsFrom 1 .outside rest
      else objectStartsFrom 0 .outside rest
    else if quoting ≠ .outside then objectStartsFrom depth (quoting.next c) rest
    else if c = '"' then objectStartsFrom depth .inside rest
    else if isOpening c then objectStartsFrom (depth + 1) .outside rest
    -- Brackets are only counted, so one may be closed by the wrong kind.
    else if isClosing c then objectStartsFrom (depth - 1) .outside rest
    else objectStartsFrom depth .outside rest

def objectStarts (cs : List Char) : List (List Char) :=
  objectStartsFrom 0 .outside cs

/-- One step of `balanced?`: `taken` is reversed, and `pending` holds the brackets that will close
the open ones, the innermost first. -/
def balancedFrom (taken pending : List Char) (quoting : Quoting) :
    List Char → Option (List Char)
  | [] => none
  | c :: rest =>
    if quoting ≠ .outside then balancedFrom (c :: taken) pending (quoting.next c) rest
    else if c = '"' then balancedFrom (c :: taken) pending .inside rest
    else if isOpening c then
      balancedFrom (c :: taken) (closingOf c :: pending) .outside rest
    else if isClosing c then
      match pending with
      | [] => none
      | due :: outer =>
        if due ≠ c then none
        else if outer.isEmpty then some (c :: taken).reverse
        else balancedFrom (c :: taken) outer .outside rest
    else balancedFrom (c :: taken) pending .outside rest

/-- The front of a text up to where its first bracket is closed, if all brackets up to there are
closed by their own kind. -/
def balanced? (cs : List Char) : Option (List Char) :=
  balancedFrom [] [] .outside cs

/-- The objects of a text that stand outside of every other, in order. -/
def objectTexts (cs : List Char) : List (List Char) :=
  -- What is nested in an object that is cut off is lost with it.
  (objectStarts cs).filterMap balanced?

end Rephrase.Oracle
