import Rephrase.Json.Document

/-!
TOML values, and tables while their parts are still being put together.
-/

namespace Rephrase

/-- A TOML value. A date or a time is kept as its text. -/
inductive Toml where
  | string (s : String)
  | integer (n : Int)
  | float (x : Float)
  | boolean (b : Bool)
  | dateTime (text : String)
  | array (items : List Toml)
  | table (entries : List (String × Toml))

namespace Toml

mutual

/-- The value as a document, in which a date is an object that holds it. -/
def toDocument : Toml → Json.Document
  | .string s => .string (some s)
  | .integer n => .number (some (.integer n))
  | .float x => .number (some (.float x))
  | .boolean b => .bool b
  | .dateTime text => .object [(some "dateTime", .string (some text))]
  | .array items => .array (itemsToDocuments items)
  | .table entries => .object (entriesToDocuments entries)

def itemsToDocuments : List Toml → List Json.Document
  | [] => []
  | item :: rest => item.toDocument :: itemsToDocuments rest

def entriesToDocuments : List (String × Toml) → List (Option String × Json.Document)
  | [] => []
  | (key, value) :: rest => (some key, value.toDocument) :: entriesToDocuments rest

end

end Toml

end Rephrase
