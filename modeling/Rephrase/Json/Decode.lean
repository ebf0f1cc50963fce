import Rephrase.Json.Reader

/-!
Makes values of a known shape from a document. A record is written as an object, whose unknown
members are ignored whatever they hold, or as an array with its fields in their order. Arrays and
objects that are looked into may be nested only so deep.
-/

namespace Rephrase.Json

/-- Makes a value from a document with so many levels of nesting left. -/
abbrev Decoder (α : Type) := Nat → Document → Option α

namespace Decode

/-- A text may be nested this deep. -/
def textLevels : Nat := 127

def string : Decoder String
  | _, .string s => s
  | _, _ => none

def bool : Decoder Bool
  | _, .bool b => some b
  | _, _ => none

def float : Decoder Float
  | _, .number (some n) => some n.toFloat
  | _, _ => none

/-- An integer that is not negative and below a limit. -/
def natBelow (limit : Nat) : Decoder Nat
  | _, .number (some (.integer (.ofNat n))) => if n < limit then some n else none
  | _, _ => none

def nat : Decoder Nat := natBelow 0x10000000000000000

def int : Decoder Int
  | _, .number (some (.integer n)) => if n < 0x8000000000000000 then some n else none
  | _, _ => none

/-- Any value, as long as it has no gap. -/
def any : Decoder Json := fun levels document => document.value? levels

def nullable {α : Type} (decode : Decoder α) : Decoder (Option α)
  | _, .null => some none
  | levels, document => (decode levels document).map some

def list {α : Type} (decode : Decoder α) : Decoder (List α)
  | inner + 1, .array items => items.mapM (decode inner)
  | _, _ => none

/-- An object whose values have one shape, with its members in their order. -/
def members {α : Type} (decode : Decoder α) : Decoder (List (String × α))
  | inner + 1, .object members =>
    members.mapM fun (key, item) => do return (← key, ← decode inner item)
  | _, _ => none

def word {α : Type} (meaning : String → Option α) : Decoder α
  | _, .string (some s) => meaning s
  -- A word may also stand in an object as its only key, with null as its value.
  | _ + 1, .object [(some s, .null)] => meaning s
  | _, _ => none

/-- What is known of a record's field: its document, that an object lacks it, or that an array ends
before it. -/
inductive Slot where
  | given (inner : Nat) (document : Document)
  | absent
  | beyond

def valuesAt (key : String) (members : List (Option String × Document)) : List Document :=
  members.filterMap fun (k, document) => if k = some key then some document else none

/-- The fields of a record by name. No known member may be repeated, no key may have a gap, and an
array may not be longer than the record. -/
def record (names : List String) (levels : Nat) (document : Document) :
    Option (String → Slot) :=
  match levels, document with
  | inner + 1, .object members =>
    if members.all (fun m => m.1.isSome) &&
        names.all (fun name => (valuesAt name members).length ≤ 1) then
      some fun name =>
        match valuesAt name members with
        | document :: _ => .given inner document
        | [] => .absent
    else
      none
  | inner + 1, .array items =>
    if items.length ≤ names.length then
      some fun name =>
        match items[names.idxOf name]? with
        | some document => .given inner document
        | none => .beyond
    else
      none
  | _, _ => none

def Slot.required {α : Type} (decode : Decoder α) : Slot → Option α
  | .given inner document => decode inner document
  | _ => none

def Slot.withDefault {α : Type} (decode : Decoder α) (default : α) : Slot → Option α
  | .given inner document => decode inner document
  | _ => some default

/-- A field that may be null, and that an object may lack; an array may not end before it. -/
def Slot.optional {α : Type} (decode : Decoder α) : Slot → Option (Option α)
  | .given inner document => nullable decode inner document
  | .absent => some none
  | .beyond => none

end Decode

def decodeText? {α : Type} (decode : Decoder α) (cs : List Char) : Option α :=
  match Document.ofText? cs with
  | some document => decode Decode.textLevels document
  | none => none

/-- Makes a value of a known shape from a plain value, however deep it is nested. -/
def decode? {α : Type} (decode : Decoder α) (json : Json) : Option α :=
  decode json.toDocument.depth json.toDocument

end Rephrase.Json
