/-!
JSON values. Objects keep their members in the order of the list; an object that was read from a
text has its keys in ascending order and each key once.
-/

namespace Rephrase

namespace Json

/-- A number: an integer that fits in 64 bits, signed or not, or else a float. -/
inductive Number where
  | integer (n : Int)
  | float (x : Float)

def Number.toFloat : Number → Float
  | .integer (.ofNat n) => n.toUInt64.toFloat
  | .integer (.negSucc n) => -(n + 1).toUInt64.toFloat
  | .float x => x

end Json

inductive Json where
  | null
  | bool (b : Bool)
  | number (n : Json.Number)
  | string (s : String)
  | array (items : List Json)
  | object (members : List (String × Json))

namespace Json

instance : Inhabited Json := ⟨.null⟩

def ofNat (n : Nat) : Json := .number (.integer n)

def ofFloat (x : Float) : Json :=
  -- Infinities and what is not a number have no JSON form.
  if x.isFinite then .number (.float x) else .null

def ofStrings (ss : List String) : Json := .array (ss.map .string)

def ofString? : Option String → Json
  | some s => .string s
  | none => .null

def get? (key : String) : Json → Option Json
  | .object members => members.lookup key
  | _ => none

/-- Puts a member into a list of members in ascending order of their keys. -/
def insertMember (key : String) (value : Json) : List (String × Json) → List (String × Json)
  | [] => [(key, value)]
  | (k, v) :: rest =>
    if key < k then (key, value) :: (k, v) :: rest
    else if key = k then (key, value) :: rest
    else (k, v) :: insertMember key value rest

/-- An object with its members in ascending order of their keys. -/
def ofMembers (members : List (String × Json)) : Json :=
  -- Of members with the same key the last one counts.
  .object (members.foldl (fun done m => insertMember m.1 m.2 done) [])

mutual

/-- The value with the members of all objects in ascending order of their keys, and with null for
each number that has no JSON form: what is left once it is kept as a plain value. -/
def normalize : Json → Json
  | .number (.float x) => ofFloat x
  | .array items => .array (normalizeItems items)
  | .object members => ofMembers (normalizeMembers members)
  | other => other

def normalizeItems : List Json → List Json
  | [] => []
  | item :: rest => normalize item :: normalizeItems rest

def normalizeMembers : List (String × Json) → List (String × Json)
  | [] => []
  | (key, value) :: rest => (key, normalize value) :: normalizeMembers rest

end

end Json

end Rephrase
