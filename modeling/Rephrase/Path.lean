import Rephrase.Text.Slice

/-!
Paths as text. What a path means is decided by its components: doubled slashes and single dots
inside it do not count.
-/

namespace Rephrase.Path

inductive Component where
  /-- The slash in front of an absolute path. -/
  | root
  /-- A single dot in front of a relative path. -/
  | here
  | parent
  | name (n : String)
  deriving DecidableEq, Repr

/-- The parts of a text between slashes. -/
def segments (cs : List Char) : List (List Char) :=
  cs.splitOnP (· == '/')

def Component.ofSegment? (segment : List Char) : Option Component :=
  if segment = [] || segment = ['.'] then none
  else if segment = ['.', '.'] then some .parent
  else some (.name (String.ofList segment))

def components (path : String) : List Component :=
  let parts := segments path.toList
  let inner := parts.filterMap Component.ofSegment?
  match parts with
  -- Only in front do an empty segment and a single dot count.
  | [] :: _ :: _ => .root :: inner
  | ['.'] :: _ => .here :: inner
  | _ => inner

/-- Where a component stands in the order of paths: names come last. -/
def Component.rank : Component → Nat
  | .root => 0
  | .here => 1
  | .parent => 2
  | .name _ => 3

/-- The order of components; names are ordered by their characters. -/
def Component.compare (a b : Component) : Ordering :=
  match a, b with
  | .name x, .name y => if x < y then .lt else if x = y then .eq else .gt
  | a, b => Ord.compare a.rank b.rank

/-- The order of component lists, by the first difference. -/
def compareComponents : List Component → List Component → Ordering
  | [], [] => .eq
  | [], _ :: _ => .lt
  | _ :: _, [] => .gt
  | a :: as, b :: bs =>
    match a.compare b with
    | .eq => compareComponents as bs
    | other => other

def compare (a b : String) : Ordering :=
  compareComponents (components a) (components b)

def same (a b : String) : Bool :=
  components a == components b

def isAbsolute (path : String) : Bool :=
  path.toList.head? == some '/'

/-- A path inside a directory; an absolute path stands on its own. -/
def join (directory path : String) : String :=
  if isAbsolute path then path
  else if directory = "" || directory.toList.getLast? = some '/' then directory ++ path
  else directory ++ "/" ++ path

/-- The last component, if it is a name. -/
def fileName? (path : String) : Option String :=
  match (components path).getLast? with
  | some (.name n) => some n
  | _ => none

/-- What follows the last dot of a text. -/
def extensionOf? (name : List Char) : Option (List Char) :=
  let extension := name.reverse.takeWhile (· != '.')
  -- There has to be a dot, and something in front of it.
  if extension.length + 1 < name.length then some extension.reverse else none

def extension? (path : String) : Option String :=
  (fileName? path).bind fun name => (extensionOf? name.toList).map String.ofList

/-- What is left of a path below a directory; `none` if it is not below it. -/
def below? (directory path : String) : Option String :=
  let outer := components directory
  let inner := components path
  if outer.isPrefixOf inner then
    let names := (inner.drop outer.length).map fun
      | .name n => n
      | .parent => ".."
      | .here => "."
      | .root => ""
    some ("/".intercalate names)
  else
    none

end Rephrase.Path
