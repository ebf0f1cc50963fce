import Rephrase.Node.Basic
import Rephrase.Text.Slice
import Rephrase.Tree.Enclosing

/-!
Text units: the constructs of a tree that hold text for people, which are the text of elements, the
values of attributes, and strings.
-/

namespace Rephrase

/-- A stretch of text for people, without the blanks around it. -/
structure TextUnit where
  kind : Node.Kind
  text : List Char
  span : Text.Span
  shown : Option Text.Span

namespace TextUnit

open Rephrase.Tree (isElement isAttribute shown?)

def isText (label : Label) : Bool :=
  label.kind == "text" || label.kind == "jsx_text"

def isString (label : Label) : Bool :=
  ["string", "template_string", "string_literal", "raw_string_literal",
    "interpreted_string_literal"].contains label.kind

def isSkipped (label : Label) : Bool :=
  ["comment", "raw_text", "line_comment", "block_comment"].contains label.kind

/-- Whether a part of a string is what stands between its quotes, or a piece of that. -/
def isStringContent (label : Label) : Bool :=
  label.named &&
    (Text.contains "content".toList label.kind.toList || label.kind == "string_fragment")

/-- Strings in programs count as text from this number of characters on. -/
def minLiteralLength : Nat := 4

/-- Whether a string with these constructs around it, innermost first, is the value of an
attribute, written directly or in braces. -/
def isAttributeValue (above : List Label) : Bool :=
  match above with
  | parent :: rest =>
    parent.kind == "jsx_attribute" ||
      (parent.kind == "jsx_expression" && (rest.head?.map (·.kind)) == some "jsx_attribute")
  | [] => false

def isQuote (c : Char) : Bool :=
  c == '"' || c == '\'' || c == '\x60'

def betweenQuotes (source : List Char) : Text.Span :=
  let opening := Text.size (source.takeWhile fun c => !isQuote c)
  let tail := source.reverse.dropWhile fun c => !isQuote c
  let closing := Text.size tail - 1
  -- Without two quotes it is all of the source.
  if !tail.isEmpty && opening < closing then ⟨opening + 1, closing⟩ else ⟨0, Text.size source⟩

def innerSpan (content : List Char) (label : Label) (children : List Tree) : Text.Span :=
  let inner := (children.map Tree.label).filter isStringContent
  match inner.head?, inner.getLast? with
  | some first, some last => ⟨first.span.start, last.span.stop⟩
  -- Some languages do not tell the content of a string from its quotes.
  | _, _ =>
    match Text.slice? content label.span.start label.span.stop with
    | some source =>
      let span := betweenQuotes source
      ⟨label.span.start + span.start, label.span.start + span.stop⟩
    | none => label.span

/-- The construct whose source is shown with a unit: for text the innermost element around it, for
an attribute's value the attribute, for a string what it is part of. -/
def sourceOf? (kind : Node.Kind) (label : Label) (above : List Label) : Option Text.Span :=
  let around := match kind with
    | .text => above.find? isElement
    | .attribute => above.find? isAttribute
    | _ => above.head?
  -- Where that is too much, it is the unit's own construct.
  (shown? (around.getD label)).or (shown? label)

def ofSpan? (content : List Char) (kind : Node.Kind) (label : Label) (above : List Label)
    (span : Text.Span) : Option TextUnit :=
  match Text.slice? content span.start span.stop with
  | none => none
  | some raw =>
    let text := Text.trim raw
    let start := span.start + (Text.size raw - Text.size (Text.stripStart Text.isBlank raw))
    if text.isEmpty then none
    else some ⟨kind, text, ⟨start, start + Text.size text⟩, sourceOf? kind label above⟩

/-- The unit that a string holds, if it is the value of an attribute or long enough. -/
def ofString? (content : List Char) (label : Label) (above : List Label) (children : List Tree) :
    Option TextUnit :=
  let span := innerSpan content label children
  if isAttributeValue above then ofSpan? content .attribute label above span
  else
    (ofSpan? content .stringLiteral label above span).filter fun unit =>
      minLiteralLength ≤ unit.text.length

mutual

/-- The units of a tree, in the order of the text. `above` holds the constructs around the tree,
innermost first. -/
def ofTree (content : List Char) (above : List Label) : Tree → List TextUnit
  | .node label children =>
    if isText label then (ofSpan? content .text label above label.span).toList
    else if label.kind = "attribute_value" then
      (ofSpan? content .attribute label above label.span).toList
    else if isString label then (ofString? content label above children).toList
    else if isSkipped label then []
    else ofTrees content (label :: above) children

def ofTrees (content : List Char) (above : List Label) : List Tree → List TextUnit
  | [] => []
  | tree :: rest => ofTree content above tree ++ ofTrees content above rest

end

end TextUnit

end Rephrase
