import Rephrase.Json.Basic

/-!
JSON as it is written: members in their order, also repeated ones, and strings and numbers that
have no value as the gaps they are. A part of a document that nobody reads is free to hold gaps and
repeated keys, so they are judged only where a value is made of them.
-/

namespace Rephrase.Json

/-- A JSON text. A string is `none` if it escapes half of a surrogate pair, a number if it is out
of range. -/
inductive Document where
  | null
  | bool (b : Bool)
  | number (n : Option Number)
  | string (s : Option String)
  | array (items : List Document)
  | object (members : List (Option String × Document))

mutual

/-- The value of a document whose arrays and objects are nested at most `levels` deep, if it has no
gap. -/
def Document.value? (levels : Nat) : Document → Option Json
  | .null => some .null
  | .bool b => some (.bool b)
  | .number n => n.map .number
  | .string s => s.map .string
  | .array items =>
    match levels with
    | 0 => none
    | inner + 1 => (values? inner items).map .array
  | .object members =>
    match levels with
    | 0 => none
    | inner + 1 => (members? inner members).map ofMembers

def values? (levels : Nat) : List Document → Option (List Json)
  | [] => some []
  | item :: rest =>
    match Document.value? levels item with
    | none => none
    | some value => (values? levels rest).map (value :: ·)

/-- The members of an object, in the order of the text, if none has a gap. -/
def members? (levels : Nat) : List (Option String × Document) → Option (List (String × Json))
  | [] => some []
  | (none, _) :: _ => none
  | (some key, item) :: rest =>
    match Document.value? levels item with
    | none => none
    | some value => (members? levels rest).map ((key, value) :: ·)

end

mutual

def toDocument : Json → Document
  | .null => .null
  | .bool b => .bool b
  | .number n => .number (some n)
  | .string s => .string (some s)
  | .array items => .array (itemsToDocuments items)
  | .object members => .object (membersToDocuments members)

def itemsToDocuments : List Json → List Document
  | [] => []
  | item :: rest => toDocument item :: itemsToDocuments rest

def membersToDocuments : List (String × Json) → List (Option String × Document)
  | [] => []
  | (key, value) :: rest => (some key, toDocument value) :: membersToDocuments rest

end

mutual

def Document.depth : Document → Nat
  | .array items => itemsDepth items + 1
  | .object members => membersDepth members + 1
  | _ => 0

def itemsDepth : List Document → Nat
  | [] => 0
  | item :: rest => max item.depth (itemsDepth rest)

def membersDepth : List (Option String × Document) → Nat
  | [] => 0
  | (_, item) :: rest => max item.depth (membersDepth rest)

end

end Rephrase.Json
