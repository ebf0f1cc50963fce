import Rephrase.Edit.Strategy
import Rephrase.Oracle.Proposal

/-!
Applies a proposal to a file's text: the ways to do it are tried in a fixed order, and the first one
that gives a result counts.
-/

namespace Rephrase.Edit

/-- The way in which a proposal was applied. -/
inductive Way where
  | snippet
  /-- The snippet was replaced up to its blanks. -/
  | normalizedSnippet
  /-- The new words were dealt out to the node's pieces. -/
  | fragments
  | direct
  /-- The content was replaced near the recorded line, up to its case. -/
  | lineFallback
  deriving DecidableEq, Repr

def Way.label : Way → String
  | .snippet => "snippet"
  | .normalizedSnippet => "normalized_snippet"
  | .fragments => "fragments"
  | .direct => "direct"
  | .lineFallback => "line_fallback"

def Way.ofLabel? : String → Option Way
  | "snippet" => some .snippet
  | "normalized_snippet" => some .normalizedSnippet
  | "fragments" => some .fragments
  | "direct" => some .direct
  | "line_fallback" => some .lineFallback
  | _ => none

def changesNothing (p : Proposal) : Bool :=
  -- A snippet counts only if it is given in both versions.
  let sameSnippet := match p.oldSnippet, p.newSnippet with
    | some old, some wanted => old == wanted
    | _, _ => true
  sameSnippet && p.oldContent == p.newContent

def bySnippet? (cs : List Char) (node : Node) (p : Proposal) : Option (List Char × Way) :=
  match p.oldSnippet, p.newSnippet with
  | some old, some wanted =>
    let line := node.start.line
    ((replaceNearest? cs old.toList wanted.toList line).map (·, .snippet)).or
      ((replaceLoosely? cs old.toList wanted.toList line).map (·, .normalizedSnippet))
  | _, _ => none

def byPieces (cs : List Char) (node : Node) (p : Proposal) :
    Except Fault (Option (List Char × Way)) := do
  match node.pieces with
  | some pieces =>
    return (← dealOut cs pieces p.newContent.toList).map (·, .fragments)
  | none => return none

def byContent? (cs : List Char) (node : Node) (p : Proposal) : Option (List Char × Way) :=
  (replaceNearest? cs p.oldContent.toList p.newContent.toList node.start.line).map
    (·, .direct)

def byLine (cs : List Char) (node : Node) (p : Proposal) :
    Except Fault (Option (List Char × Way)) := do
  return (← replaceNearby cs p.oldContent.toList p.newContent.toList
    node.start.line).map (·, .lineFallback)

/-- Applies a proposal for a node: the new text and the way that led to it. -/
def apply (cs : List Char) (node : Node) (p : Proposal) :
    Except Fault (Option (List Char × Way)) := do
  match bySnippet? cs node p with
  | some result => return some result
  | none =>
    match ← byPieces cs node p with
    | some result => return some result
    | none =>
      match byContent? cs node p with
      | some result => return some result
      | none => byLine cs node p

end Rephrase.Edit
