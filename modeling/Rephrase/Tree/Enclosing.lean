import Rephrase.Tree.Basic

/-!
What encloses a place in a text: the constructs around a construct, innermost first, and the source
that is worth showing with it.
-/

namespace Rephrase.Tree

/-- Constructs that cover more bytes are not worth showing. -/
def maxShown : Nat := 2000

def elementLabels : List String :=
  ["element", "script_element", "style_element", "jsx_element", "jsx_self_closing_element"]

def isElement (label : Label) : Bool :=
  elementLabels.contains label.kind

def isAttribute (label : Label) : Bool :=
  label.kind == "attribute" || label.kind == "jsx_attribute"

/-- Whether the search for a stretch passes over a construct: it ends before the stretch does, or
it does not reach beyond the stretch's start. -/
def passesOver (stretch : Text.Span) (label : Label) : Bool :=
  label.span.stop < stretch.stop ||
    -- A construct of no length may stand at the start.
    (if label.span.start = label.span.stop then label.span.stop < stretch.start
      else label.span.stop ≤ stretch.start)

mutual

/-- The constructs on the way to the innermost one around a stretch, innermost first and followed by
those above the tree. -/
def pathTo (stretch : Text.Span) (above : List Label) : Tree → List Label
  | .node label children =>
    match pathThrough? stretch (label :: above) children with
    | some path => path
    | none => label :: above

/-- The rest of the way through some parts, if one of them is on it. -/
def pathThrough? (stretch : Text.Span) (above : List Label) : List Tree → Option (List Label)
  | [] => none
  | child :: rest =>
    -- The way leads through the first part that is not passed over, or through none.
    if passesOver stretch child.label then pathThrough? stretch above rest
    else if child.label.span.start ≤ stretch.start then some (pathTo stretch above child)
    else none

end

def shown? (label : Label) : Option Text.Span :=
  if label.span.stop - label.span.start ≤ maxShown then some label.span else none

/-- The source to show with a stretch of several units: the innermost element around all of it, or
else the innermost construct. -/
def commonSource? (tree : Tree) (stretch : Text.Span) : Option Text.Span :=
  match pathTo stretch [] tree with
  | [] => none
  | innermost :: above =>
    let target := ((innermost :: above).find? isElement).getD innermost
    (shown? target).or (shown? innermost)

end Rephrase.Tree
