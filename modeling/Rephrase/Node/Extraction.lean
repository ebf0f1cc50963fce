import Rephrase.Language
import Rephrase.Node.Basic
import Rephrase.Phrase.Fragment
import Rephrase.Phrase.Pattern
import Rephrase.Text.Window
import Rephrase.Tree.TextUnit

/-!
Finds the nodes of a file. Text units that hold the whole phrase come first; if there are none,
neighbouring units that have it together; and where there is no tree, or the text makes no sense in
its language and no unit was found, the places that the phrase's pattern finds.
-/

namespace Rephrase

/-- A file whose nodes are wanted. -/
structure Source where
  file : String
  location : String
  content : List Char
  lines : List (List Char)
  index : Text.LineStarts
  contextLines : Nat

namespace Source

def ofContent (file location : String) (content : List Char) (contextLines : Nat) : Source :=
  { file, location, content, lines := Text.lines content, index := .ofText content, contextLines }

def sliceAt? (source : Source) (span : Text.Span) : Option String :=
  (Text.slice? source.content span.start span.stop).map String.ofList

def nodeAt (source : Source) (kind : Node.Kind) (text : List Char) (span : Text.Span)
    (relevance : Float) (pieces : Option (List Piece)) (shown : Option Text.Span) :
    Except Fault Node := do
  let start := source.index.position span.start
  let stop := source.index.position span.stop
  let around ← Text.surroundings source.lines start.line stop.line source.contextLines
  return {
    kind, start, stop, relevance, pieces
    content := String.ofList text
    file := source.file
    location := source.location
    contextBefore := around.before.map String.ofList
    contextAfter := around.after.map String.ofList
    snippet := shown.bind source.sliceAt? }

def nodeOfUnit (source : Source) (unit : TextUnit) : Except Fault Node :=
  source.nodeAt unit.kind unit.text unit.span unit.kind.relevance none unit.shown

def pieceOfUnit (source : Source) (unit : TextUnit) : Piece :=
  { text := String.ofList unit.text
    start := source.index.position unit.span.start
    stop := source.index.position unit.span.stop
    wordCount := (Text.words unit.text).length }

def stretchOf (units : List TextUnit) : Text.Span :=
  match units.head?, units.getLast? with
  | some first, some last => ⟨first.span.start, last.span.stop⟩
  | _, _ => ⟨0, 0⟩

def nodeOfUnits (source : Source) (tree : Tree) (units : List TextUnit) (coverage : Float) :
    Except Fault Node :=
  let stretch := stretchOf units
  source.nodeAt .fragmented ([' '].intercalate (units.map (·.text))) stretch
    (Node.Kind.fragmented.relevance * coverage) (some (units.map source.pieceOfUnit))
    (tree.commonSource? stretch)

/-- The nodes at the places that the phrase's pattern finds. -/
def patternNodes (source : Source) (phrase : List Char) : Except Fault (List Node) :=
  (Phrase.find phrase source.content).mapM fun span =>
    match Text.slice? source.content span.start span.stop with
    | some text => source.nodeAt .lineMatch text span Node.Kind.lineMatch.relevance none none
    | none => .error .badRange

/-- Whether a unit holds the whole phrase, which is collapsed and in lower case. -/
def holds (phrase : List Char) (unit : TextUnit) : Bool :=
  Text.contains phrase (Text.lowercase (Text.collapse unit.text))

/-- The units that have a phrase together, with the share of the phrase that they have. -/
def fragmentsOf (config : Config) (phrase : List Char) (units : List TextUnit) :
    List (List TextUnit × Float) :=
  let words := Phrase.words phrase
  let found := Phrase.Fragments.find words config.fragmentLookahead config.fragmentMinCoverage
    (units.map fun unit => Phrase.words unit.text)
  found.map fun fragments =>
    (fragments.units.filterMap fun i => units[i]?, fragments.coverage words.length)

def treeNodes (source : Source) (config : Config) (phrase : List Char) (parsed : Parsed) :
    Except Fault (List Node) :=
  let units := TextUnit.ofTree source.content [] parsed.tree
  let wanted := Text.lowercase (Text.collapse phrase)
  if wanted.isEmpty then .ok []
  else
    let whole := units.filter (holds wanted)
    if !whole.isEmpty then whole.mapM source.nodeOfUnit
    else
      let parts := fragmentsOf config phrase units
      -- A tree with errors may lack the units that the phrase stands in.
      if parts.isEmpty && parsed.hasError then source.patternNodes phrase
      else parts.mapM fun (units, coverage) => source.nodeOfUnits parsed.tree units coverage

def nodes (source : Source) (config : Config) (phrase : List Char) (parsed : Option Parsed) :
    Except Fault (List Node) :=
  match parsed with
  | some parsed => source.treeNodes config phrase parsed
  | none => source.patternNodes phrase

end Source

end Rephrase
