import Rephrase.Text.Line

/-!
Trees over a text. Every construct of a language, down to its punctuation, is a node that covers a
stretch of the text; its parts are its children.
-/

namespace Rephrase

/-- What is known of a construct: its kind, whether it is more than a keyword or punctuation, and
the bytes it covers. -/
structure Label where
  kind : String
  named : Bool
  span : Text.Span
  deriving DecidableEq, Repr

/-- A construct with its parts, in the order of the text. -/
inductive Tree where
  | node (label : Label) (children : List Tree)

namespace Tree

def label : Tree → Label
  | .node label _ => label

def children : Tree → List Tree
  | .node _ children => children

/-- One step of `ofPreorder?`, for the row in front of rows that are trees already. -/
def addRow (row : Nat × Label) (rest : List (Nat × Tree)) : List (Nat × Tree) :=
  -- The trees that follow at greater depth are its children.
  let isInner (entry : Nat × Tree) : Bool := row.1 < entry.1
  (row.1, .node row.2 ((rest.takeWhile isInner).map Prod.snd)) :: rest.dropWhile isInner

/-- The tree whose constructs are listed with their depths, each before its parts. -/
def ofPreorder? (rows : List (Nat × Label)) : Option Tree :=
  match rows.foldr addRow [] with
  | [(_, tree)] => some tree
  | _ => none

end Tree

/-- What is known of a text in some language: its tree, and whether parts of the text make no
sense in the language. -/
structure Parsed where
  tree : Tree
  hasError : Bool

end Rephrase
