import Mathlib
import Rephrase.Candidate
import Rephrase.Proofs.Node.Extraction
import Rephrase.Proofs.Phrase.Match

/-! A file that nodes are found in is a candidate, as far as a judgement of its text alone can tell:
its nodes have the phrase's long words, and letters are compared alike. -/

namespace Rephrase

open Text

/-- A node is in one piece, or its pieces have all long words of a phrase. -/
def Node.HasLongWords (phrase : List Char) (node : Node) : Prop :=
  ∀ pieces, node.pieces = some pieces → ∀ w ∈ Phrase.longWords (Phrase.words phrase),
    ∃ piece ∈ pieces, contains w (lowercase piece.text.toList) = true

namespace Source

theorem find_ne_nil_of_patternNodes {source : Source} {phrase : List Char} {nodes : List Node}
    (h : source.patternNodes phrase = .ok nodes) (hnodes : nodes ≠ []) :
    Phrase.find phrase source.content ≠ [] := by
  intro hnil
  unfold patternNodes at h
  rw [hnil] at h
  cases h
  exact hnodes rfl

theorem words_ne_nil_of_find {phrase cs : List Char} (h : Phrase.find phrase cs ≠ []) :
    Text.words phrase ≠ [] := by
  intro hnil
  unfold Phrase.find at h
  rw [hnil] at h
  exact h rfl

/-- Only a phrase of two words or more is in pieces. -/
theorem two_le_of_mem_fragmentsOf {config : Config} {phrase : List Char} {units : List TextUnit}
    {part : List TextUnit × Float} (h : part ∈ fragmentsOf config phrase units) :
    2 ≤ (Phrase.words phrase).length := by
  refine Nat.le_of_not_lt fun hlt => ?_
  unfold fragmentsOf Phrase.Fragments.find at h
  dsimp only at h
  rw [if_pos hlt] at h
  simp at h

/-- A long word in the pieces of a recorded node stands in the file. -/
theorem infix_lowercase_of_piece {source : Source} {phrase w : List Char} {piece : Piece}
    (hpiece : piece.IsRecorded source.content) (hsteady : IsSteady phrase source.content)
    (hw : w ∈ Phrase.words phrase) (h : contains w (lowercase piece.text.toList) = true) :
    w <:+: lowercase source.content := by
  obtain ⟨v, hv, part, hpart, rfl⟩ := Phrase.exists_of_mem_words hw
  obtain ⟨front, back, hsplit, -, -⟩ := hpiece.holds
  have htext : piece.text.toList <:+: source.content := ⟨front, back, hsplit.symm⟩
  have hletters : part ⊆ phrase := (hpart.trans (infix_of_mem_words hv)).subset
  rw [contains_iff, (hsteady.mono hletters htext.subset).infix_iff] at h
  rw [(hsteady.mono hletters (List.Subset.refl _)).infix_iff]
  exact h.trans (infix_flatMap htext smallForm)

section

variable {source : Source} {config : Config} {phrase : List Char} {nodes : List Node}
  (hthreshold : config.wordMajorityThreshold ≤ 1) (hlimit : size phrase < Fault.wordLimit)
  (htelling : Phrase.IsTelling phrase) (hsteady : IsSteady phrase source.content)
include hthreshold hlimit htelling hsteady

theorem grade?_of_patternNodes (hfolds : Phrase.FoldsAlike phrase source.content)
    (h : source.patternNodes phrase = .ok nodes) (hnodes : nodes ≠ []) :
    Phrase.grade? config phrase source.content ≠ none := by
  have hfind := find_ne_nil_of_patternNodes h hnodes
  exact (Phrase.standSmall_of_find hfolds hfind).grade?_ne_none hthreshold hlimit htelling
    (words_ne_nil_of_find hfind) hsteady

theorem grade?_of_holds {unit : TextUnit} (hphrase : lowercase (collapse phrase) ≠ [])
    (hstands : unit.Stands source.content) (h : holds (lowercase (collapse phrase)) unit = true) :
    Phrase.grade? config phrase source.content ≠ none := by
  have hwords : Text.words phrase ≠ [] := by
    intro hnil
    unfold collapse at hphrase
    rw [hnil] at hphrase
    exact hphrase rfl
  obtain ⟨front, back, hsplit, -, -⟩ := of_slice? hstands.slice
  have htext : unit.text <:+: source.content := ⟨front, back, hsplit.symm⟩
  exact (Phrase.standSmall_of_collapse hsteady htext (contains_iff.mp h)).grade?_ne_none hthreshold
    hlimit htelling hwords hsteady

theorem grade?_of_pieces {node : Node} {pieces : List Piece}
    (htwo : 2 ≤ (Phrase.words phrase).length) (hnode : node.IsRecorded source)
    (hpieces : node.pieces = some pieces) (h : node.HasLongWords phrase) :
    Phrase.grade? config phrase source.content ≠ none := by
  have hlong : Phrase.longWords (Phrase.words phrase) ≠ [] := by
    obtain hsingle | hlong := htelling
    · have hle := Phrase.length_words_le phrase
      omega
    · exact hlong
  refine Phrase.grade?_of_longWords hthreshold hlimit hlong fun w hw => ?_
  obtain ⟨piece, hpiece, hcontains⟩ := h pieces hpieces w hw
  exact infix_lowercase_of_piece ((hnode.pieces pieces hpieces).2 piece hpiece) hsteady
    (List.mem_filter.mp hw).1 hcontains

end

/-- A file with a node that is in one piece, or has all long words of the phrase, is not dropped
before nodes are looked for, if the phrase can be told by its words. -/
theorem grade?_ne_none_of_nodes {file location : String} {content phrase : List Char}
    {contextLines : Nat} {config : Config} {parsed : Option Parsed} {nodes : List Node}
    (hthreshold : config.wordMajorityThreshold.isNaN = false)
    (hnested : ∀ p ∈ parsed, p.tree.isNested = true)
    (hextracted : (Source.ofContent file location content contextLines).nodes config.sensible
      phrase parsed = .ok nodes)
    (hnode : ∃ node ∈ nodes, node.HasLongWords phrase) (htelling : Phrase.IsTelling phrase)
    (hsteady : IsSteady phrase content)
    (hfolds : (∀ p ∈ parsed, p.hasError = true) → Phrase.FoldsAlike phrase content)
    (hlimit : size phrase < Fault.wordLimit) :
    Phrase.grade? config.sensible phrase content ≠ none := by
  have hone : config.sensible.wordMajorityThreshold ≤ 1 := Phrase.clampShare_le_one hthreshold
  obtain ⟨node, hmem, hlong⟩ := hnode
  have hnodes : nodes ≠ [] := List.ne_nil_of_mem hmem
  -- From here on the source matters by its content and its index alone.
  generalize hsource : Source.ofContent file location content contextLines = source at hextracted
  obtain ⟨hcontent, hindex⟩ : source.content = content ∧
      source.index = .ofText source.content := by
    subst hsource
    exact ⟨rfl, rfl⟩
  subst hcontent
  have hrecorded := areRecorded_of_nodes hindex hnested hextracted
  cases parsed with
  | none =>
    exact grade?_of_patternNodes hone hlimit htelling hsteady (hfolds nofun) hextracted hnodes
  | some parsed =>
    obtain hnil | ⟨hphrase, hwhole | ⟨herror, hpattern⟩ | hparts⟩ := of_treeNodes hextracted
    · exact absurd hnil hnodes
    -- A unit that holds the whole phrase.
    · obtain ⟨unit, hunit, -⟩ := exists_of_mem_mapM hwhole hmem
      obtain ⟨hunit, hholds⟩ := List.mem_filter.mp hunit
      have hlaid := TextUnit.areLaid_ofTree source.content [] parsed.tree (hnested parsed rfl)
      exact grade?_of_holds hone hlimit htelling hsteady hphrase (hlaid.stands unit hunit) hholds
    -- The pattern, which is only tried on a tree with errors.
    · refine grade?_of_patternNodes hone hlimit htelling hsteady (hfolds fun p hp => ?_) hpattern
        hnodes
      obtain rfl := Option.some.inj hp
      exact herror
    -- Units that have the phrase together.
    · obtain ⟨⟨units, coverage⟩, hpart, hresult⟩ := exists_of_mem_mapM hparts hmem
      obtain ⟨-, -, -, -, -, hpieces⟩ := of_nodeAt hresult
      exact grade?_of_pieces hone hlimit htelling hsteady (two_le_of_mem_fragmentsOf hpart)
        (hrecorded.records node hmem) hpieces hlong

/-- A page of one element with a line break between its words. -/
def brokenLine : List Char := "<p>Go\nin now</p>".toList

def brokenLineTree : Tree :=
  .node ⟨"document", true, ⟨0, 16⟩⟩
    [.node ⟨"element", true, ⟨0, 16⟩⟩ [.node ⟨"text", true, ⟨3, 12⟩⟩ []]]

def brokenLineUnit : TextUnit := ⟨.text, "Go\nin now".toList, ⟨3, 12⟩, some ⟨0, 16⟩⟩

def brokenLineSource : Source := .ofContent "a.html" "a.html" brokenLine 3

def brokenLineNode (weight : Float) : Node :=
  ⟨.text, "Go\nin now", "a.html", "a.html", ⟨1, 3⟩, ⟨2, 6⟩, [], [], weight, none,
    some "<p>Go\nin now</p>"⟩

theorem nodes_brokenLine (config : Config) {phrase : List Char}
    (hphrase : lowercase (collapse phrase) ≠ [])
    (hholds : holds (lowercase (collapse phrase)) brokenLineUnit = true) :
    brokenLineSource.nodes config phrase (some ⟨brokenLineTree, false⟩) =
      .ok [brokenLineNode Node.Kind.text.relevance] := by
  have hunits : TextUnit.ofTree brokenLine [] brokenLineTree = [brokenLineUnit] := by
    simp [brokenLineTree, TextUnit.ofTree, TextUnit.ofTrees, TextUnit.isText, TextUnit.isString,
      TextUnit.isSkipped]
    cbv
  have hwhole : (TextUnit.ofTree brokenLineSource.content [] brokenLineTree).filter
      (holds (lowercase (collapse phrase))) = [brokenLineUnit] := by
    rw [show brokenLineSource.content = brokenLine from rfl, hunits]
    exact List.filter_cons_of_pos hholds
  have hnodes : ∀ weight, (do
      let node ← brokenLineSource.nodeAt .text "Go\nin now".toList ⟨3, 12⟩ weight none
        (some ⟨0, 16⟩)
      return [node]) = .ok [brokenLineNode weight] := by
    intro weight
    cbv
  show brokenLineSource.treeNodes config phrase ⟨brokenLineTree, false⟩ = _
  rw [treeNodes_of_whole hphrase hwhole]
  exact hnodes Node.Kind.text.relevance

/-- The long word of a phrase keeps the page. -/
theorem grade?_on_broken_line :
    Phrase.grade? ({} : Config).sensible "go in now".toList brokenLine ≠ none := by
  refine grade?_ne_none_of_nodes (show ({} : Config).wordMajorityThreshold.isNaN = false by decide)
    (fun p hp => by obtain rfl := Option.some.inj hp; decide)
    (nodes_brokenLine _ (by decide) (by cbv)) ⟨_, List.mem_cons_self, nofun⟩
    (.inr (by cbv; simp)) ⟨by decide, .inr (by decide)⟩ (fun herror => ?_) (by decide)
  cases herror _ rfl

/-- Without a long word the page is dropped, though it has a node. -/
theorem broken_line_dropped :
    brokenLineTree.isNested = true ∧
      brokenLineSource.nodes ({} : Config).sensible "go in".toList
        (some ⟨brokenLineTree, false⟩) = .ok [brokenLineNode Node.Kind.text.relevance] ∧
      Phrase.grade? ({} : Config).sensible "go in".toList brokenLine = none := by
  refine ⟨by decide, nodes_brokenLine _ (by decide) (by cbv), ?_⟩
  have hwords : Phrase.words "go in".toList = ["go".toList, "in".toList] := by cbv
  have hclues : Phrase.reaches ({} : Config).sensible.keyPhraseThreshold
      (Phrase.clues ["go".toList, "in".toList]) (lowercase brokenLine) = false := by
    decide
  have hlong : Phrase.longWords ["go".toList, "in".toList] = [] := by decide
  unfold Phrase.grade?
  dsimp only
  rw [hwords, hlong, hclues]
  decide

end Source

end Rephrase
