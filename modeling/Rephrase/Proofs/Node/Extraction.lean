import Mathlib.Data.List.Flatten
import Rephrase.Node.Extraction
import Rephrase.Proofs.Fault
import Rephrase.Proofs.Phrase.Fragment
import Rephrase.Proofs.Phrase.Pattern
import Rephrase.Proofs.Text.Line
import Rephrase.Proofs.Tree.TextUnit

/-! The nodes of a file are recorded for stretches of it that lie one after another, and every
stretch holds the text that the node says. -/

namespace Rephrase

open Text

/-- The bytes of a content that a node is recorded for: those of its pieces, or one stretch for all
of it. -/
def Node.stretches (content : List Char) (node : Node) : List Span :=
  match node.pieces with
  | some pieces => pieces.map fun piece => spanBetween content piece.start piece.stop
  | none => [spanBetween content node.start node.stop]

/-- A piece stands in a content as it is recorded. -/
structure Piece.IsRecorded (content : List Char) (piece : Piece) : Prop where
  holds : Holds content piece.start piece.stop piece.text.toList
  solid : Solid isBlank piece.text.toList
  wordCount : piece.wordCount = (Text.words piece.text.toList).length

/-- A node stands in a file as it is recorded. -/
structure Node.IsRecorded (source : Source) (node : Node) : Prop where
  file : node.file = source.file
  location : node.location = source.location
  whole : node.pieces = none →
    Holds source.content node.start node.stop node.content.toList ∧ node.content.toList ≠ []
  pieces : ∀ pieces, node.pieces = some pieces →
    (∃ first rest, pieces = first :: rest ∧ first.start = node.start) ∧
      ∀ piece ∈ pieces, piece.IsRecorded source.content

namespace Source

/-- Units that hold the whole phrase are the nodes. -/
theorem treeNodes_of_whole {source : Source} {config : Config} {phrase : List Char}
    {parsed : Parsed} {unit : TextUnit} {units : List TextUnit}
    (hphrase : lowercase (collapse phrase) ≠ [])
    (hwhole : (TextUnit.ofTree source.content [] parsed.tree).filter
      (holds (lowercase (collapse phrase))) = unit :: units) :
    source.treeNodes config phrase parsed = (unit :: units).mapM source.nodeOfUnit := by
  unfold treeNodes
  dsimp only
  rw [hwhole, if_neg (by simpa using hphrase)]
  exact if_pos rfl

/-- Otherwise units that have the phrase together are. -/
theorem treeNodes_of_parts {source : Source} {config : Config} {phrase : List Char}
    {parsed : Parsed} {part : List TextUnit × Float} {parts : List (List TextUnit × Float)}
    (hphrase : lowercase (collapse phrase) ≠ [])
    (hwhole : (TextUnit.ofTree source.content [] parsed.tree).filter
      (holds (lowercase (collapse phrase))) = [])
    (hparts : fragmentsOf config phrase (TextUnit.ofTree source.content [] parsed.tree) =
      part :: parts) :
    source.treeNodes config phrase parsed = (part :: parts).mapM fun (units, coverage) =>
      source.nodeOfUnits parsed.tree units coverage := by
  unfold treeNodes
  dsimp only
  rw [hwhole, hparts, if_neg (by simpa using hphrase), if_neg (by simp)]
  exact if_neg (by simp)

/-- Nodes of a tree are those of the units that hold the whole phrase, those of the places that its
pattern finds, or those of the units that have it together. -/
theorem of_treeNodes {source : Source} {config : Config} {phrase : List Char} {parsed : Parsed}
    {nodes : List Node} (h : source.treeNodes config phrase parsed = .ok nodes) :
    nodes = [] ∨ lowercase (collapse phrase) ≠ [] ∧
      (((TextUnit.ofTree source.content [] parsed.tree).filter
          (holds (lowercase (collapse phrase)))).mapM source.nodeOfUnit = .ok nodes ∨
        parsed.hasError = true ∧ source.patternNodes phrase = .ok nodes ∨
        (fragmentsOf config phrase (TextUnit.ofTree source.content [] parsed.tree)).mapM
          (fun (units, coverage) => source.nodeOfUnits parsed.tree units coverage) =
            .ok nodes) := by
  unfold treeNodes at h
  dsimp only at h
  split at h
  · cases h
    exact .inl rfl
  rename_i hphrase
  refine .inr ⟨by simpa using hphrase, ?_⟩
  split at h
  · exact .inl h
  split at h
  · rename_i hpattern
    simp only [Bool.and_eq_true] at hpattern
    exact .inr (.inl ⟨hpattern.2, h⟩)
  · exact .inr (.inr h)

theorem of_nodeAt {source : Source} {kind : Node.Kind} {text : List Char} {span : Span}
    {relevance : Float} {pieces : Option (List Piece)} {shown : Option Span} {node : Node}
    (h : source.nodeAt kind text span relevance pieces shown = .ok node) :
    node.file = source.file ∧ node.location = source.location ∧
      node.start = source.index.position span.start ∧
      node.stop = source.index.position span.stop ∧ node.content = String.ofList text ∧
      node.pieces = pieces := by
  obtain ⟨around, -, hnode⟩ := bind_eq_ok.mp h
  cases hnode
  exact ⟨rfl, rfl, rfl, rfl, rfl, rfl⟩

section

variable {source : Source} (hindex : source.index = .ofText source.content)
include hindex

/-- A node that is one stretch. -/
theorem isRecorded_of_nodeAt {kind : Node.Kind} {text : List Char} {span : Span}
    {relevance : Float} {shown : Option Span} {node : Node}
    (hslice : slice? source.content span.start span.stop = some text) (htext : text ≠ [])
    (h : source.nodeAt kind text span relevance none shown = .ok node) :
    node.IsRecorded source ∧ node.stretches source.content = [span] := by
  obtain ⟨hfile, hlocation, hstart, hstop, hcontent, hpieces⟩ := of_nodeAt h
  have hholds := holds_of_slice? hslice
  have hspan := spanBetween_position hslice
  rw [← hindex, ← hstart, ← hstop] at hholds hspan
  refine ⟨⟨hfile, hlocation, fun _ => ?_, fun pieces hsome => ?_⟩, ?_⟩
  · rw [hcontent, String.toList_ofList]
    exact ⟨hholds, htext⟩
  · rw [hpieces] at hsome
    cases hsome
  · unfold Node.stretches
    rw [hpieces]
    show [spanBetween source.content node.start node.stop] = [span]
    rw [hspan]

theorem isRecorded_of_stands {unit : TextUnit} (h : unit.Stands source.content) :
    (source.pieceOfUnit unit).IsRecorded source.content ∧
      spanBetween source.content (source.pieceOfUnit unit).start (source.pieceOfUnit unit).stop =
        unit.span := by
  have hholds := holds_of_slice? h.slice
  have hspan := spanBetween_position h.slice
  rw [← hindex] at hholds hspan
  have htext : (source.pieceOfUnit unit).text.toList = unit.text := String.toList_ofList
  refine ⟨⟨htext.symm ▸ hholds, htext.symm ▸ h.solid, ?_⟩, hspan⟩
  rw [htext]
  rfl

/-- A node of several units. -/
theorem isRecorded_of_nodeOfUnits {tree : Tree} {units : List TextUnit} {coverage : Float}
    {node : Node} (hunits : units ≠ []) (hstands : ∀ unit ∈ units, unit.Stands source.content)
    (h : source.nodeOfUnits tree units coverage = .ok node) :
    node.IsRecorded source ∧ node.stretches source.content = units.map (·.span) := by
  obtain ⟨hfile, hlocation, hstart, -, -, hpieces⟩ := of_nodeAt h
  obtain ⟨first, rest, rfl⟩ := List.exists_cons_of_ne_nil hunits
  refine ⟨⟨hfile, hlocation, fun hnone => ?_, fun pieces hsome => ?_⟩, ?_⟩
  · rw [hpieces] at hnone
    cases hnone
  · rw [hpieces] at hsome
    obtain rfl := Option.some.inj hsome
    refine ⟨⟨source.pieceOfUnit first, rest.map source.pieceOfUnit, rfl, ?_⟩, ?_⟩
    · rw [hstart]
      unfold stretchOf
      rw [List.head?_cons, List.getLast?_eq_some_getLast (List.cons_ne_nil first rest)]
      rfl
    · intro piece hpiece
      obtain ⟨unit, hunit, rfl⟩ := List.mem_map.mp hpiece
      exact (isRecorded_of_stands hindex (hstands unit hunit)).1
  · unfold Node.stretches
    rw [hpieces]
    show ((first :: rest).map source.pieceOfUnit).map _ = _
    rw [List.map_map]
    refine List.map_congr_left fun unit hunit => ?_
    exact (isRecorded_of_stands hindex (hstands unit hunit)).2

end

/-- Nodes that are recorded for stretches of a file, one after another. -/
structure AreRecorded (source : Source) (nodes : List Node) : Prop where
  records : ∀ node ∈ nodes, node.IsRecorded source
  ascend : ∃ stop, Ascend 0 stop (nodes.flatMap (·.stretches source.content))

theorem AreRecorded.sublist {source : Source} {nodes more : List Node}
    (h : source.AreRecorded more) (hsub : nodes.Sublist more) : source.AreRecorded nodes := by
  obtain ⟨stop, hascend⟩ := h.ascend
  exact ⟨fun node hnode => h.records node (hsub.mem hnode),
    stop, hascend.sublist (hsub.flatMap _)⟩

/-- Nodes are recorded if each of them is, for the stretches of what it is made of. -/
theorem areRecorded_of_forall₂ {α : Type} {source : Source} {xs : List α} {nodes : List Node}
    {spans : α → List Span} {stop : Nat}
    (h : List.Forall₂ (fun x node => node.IsRecorded source ∧
      node.stretches source.content = spans x) xs nodes)
    (hascend : Ascend 0 stop (xs.flatMap spans)) : source.AreRecorded nodes := by
  -- On the pairs: the stretches of the nodes are those of what they are made of, in order.
  have hspans : nodes.flatMap (·.stretches source.content) = xs.flatMap spans ∧
      ∀ node ∈ nodes, node.IsRecorded source := by
    clear hascend
    induction h with
    | nil => exact ⟨rfl, nofun⟩
    | cons hx hrest ih =>
      rw [List.flatMap_cons, List.flatMap_cons, hx.2, ih.1]
      exact ⟨rfl, List.forall_mem_cons.mpr ⟨hx.1, ih.2⟩⟩
  exact ⟨hspans.2, stop, hspans.1 ▸ hascend⟩

section

variable {source : Source} (hindex : source.index = .ofText source.content) {nodes : List Node}
include hindex

theorem areRecorded_of_patternNodes {phrase : List Char}
    (h : source.patternNodes phrase = .ok nodes) : source.AreRecorded nodes := by
  have hascend := Phrase.ascend_find phrase source.content
  have hspans : (Phrase.find phrase source.content).flatMap (fun span => [span]) =
      Phrase.find phrase source.content := List.flatMap_singleton' _
  refine areRecorded_of_forall₂ (forall₂_of_mapM (fun span hspan node hnode => ?_) h)
    (hspans.symm ▸ hascend)
  split at hnode
  · rename_i text hslice
    have htext : text ≠ [] := by
      intro hnil
      obtain ⟨front, back, -, hstart, hstop⟩ := of_slice? hslice
      have hlt := hascend.lt_of_mem hspan
      rw [hnil, size_nil] at hstop
      omega
    exact isRecorded_of_nodeAt hindex hslice htext hnode
  · cases hnode

omit hindex in
/-- The units that have a phrase together are units of the file, in its order. -/
theorem fragmentsOf_sublist (config : Config) (phrase : List Char) (units : List TextUnit) :
    ((fragmentsOf config phrase units).flatMap Prod.fst).Sublist units := by
  unfold fragmentsOf
  dsimp only
  rw [List.flatMap_map, ← List.filterMap_flatMap]
  have hclimb := Phrase.Fragments.climb_find (Phrase.words phrase) config.fragmentLookahead
    config.fragmentMinCoverage (units.map fun unit => Phrase.words unit.text)
  exact hclimb.filterMap_sublist units

omit hindex in
theorem ne_nil_of_mem_fragmentsOf {config : Config} {phrase : List Char} {units : List TextUnit}
    {part : List TextUnit × Float} (h : part ∈ fragmentsOf config phrase units) : part.1 ≠ [] := by
  unfold fragmentsOf at h
  dsimp only at h
  obtain ⟨found, hfound, rfl⟩ := List.mem_map.mp h
  have hclimb := Phrase.Fragments.climb_find (Phrase.words phrase) config.fragmentLookahead
    config.fragmentMinCoverage (units.map fun unit => Phrase.words unit.text)
  have henough := Phrase.Fragments.isEnough_of_mem_find hfound
  obtain ⟨n, rest, hunits⟩ : ∃ n rest, found.units = n :: rest := by
    cases hunits : found.units with
    | nil => simp [Phrase.Fragments.isEnough, hunits] at henough
    | cons n rest => exact ⟨n, rest, rfl⟩
  have hn : n < units.length := by
    have hmem : n ∈ found.units := hunits ▸ List.mem_cons_self
    simpa using (hclimb.2 n (List.mem_flatMap.mpr ⟨found, hfound, hmem⟩)).2
  show found.units.filterMap (units[·]?) ≠ []
  rw [hunits, List.filterMap_cons_some (List.getElem?_eq_getElem hn)]
  exact List.cons_ne_nil _ _

theorem areRecorded_of_treeNodes {config : Config} {phrase : List Char} {parsed : Parsed}
    (hnested : parsed.tree.isNested = true)
    (h : source.treeNodes config phrase parsed = .ok nodes) : source.AreRecorded nodes := by
  obtain ⟨hstands, hascend⟩ := TextUnit.areLaid_ofTree source.content [] parsed.tree hnested
  obtain rfl | ⟨-, h | ⟨-, h⟩ | h⟩ := of_treeNodes h
  · exact ⟨nofun, 0, Nat.le_refl 0⟩
  all_goals
    generalize TextUnit.ofTree source.content [] parsed.tree = units at *
    replace hascend := hascend.of_le (Nat.zero_le _)
  · generalize holds (lowercase (collapse phrase)) = keep at h
    have hwhole : (units.filter keep).flatMap (fun unit => [unit.span]) =
        (units.filter keep).map (·.span) := List.map_eq_flatMap.symm
    refine areRecorded_of_forall₂ (forall₂_of_mapM (fun unit hunit node hnode => ?_) h)
      (hwhole.symm ▸ hascend.sublist (List.filter_sublist.map _))
    have hunit := hstands unit (List.mem_filter.mp hunit).1
    exact isRecorded_of_nodeAt hindex hunit.slice hunit.solid.ne_nil hnode
  · exact areRecorded_of_patternNodes hindex h
  -- No unit is in two parts, so the parts ascend as the units do.
  · have hsub := fragmentsOf_sublist config phrase units
    have hparts : (fragmentsOf config phrase units).flatMap (fun part => part.1.map (·.span)) =
        ((fragmentsOf config phrase units).flatMap Prod.fst).map (·.span) := by
      rw [List.map_flatMap]
    refine areRecorded_of_forall₂ (forall₂_of_mapM (fun part hpart node hnode => ?_) h)
      (hparts.symm ▸ hascend.sublist (hsub.map _))
    refine isRecorded_of_nodeOfUnits hindex (ne_nil_of_mem_fragmentsOf hpart) (fun unit hunit => ?_)
      hnode
    exact hstands unit (hsub.mem (List.mem_flatMap.mpr ⟨part, hpart, hunit⟩))

/-- The nodes of a file are recorded for stretches of it, one after another. -/
theorem areRecorded_of_nodes {config : Config} {phrase : List Char} {parsed : Option Parsed}
    (hnested : ∀ p ∈ parsed, p.tree.isNested = true)
    (h : source.nodes config phrase parsed = .ok nodes) : source.AreRecorded nodes := by
  cases parsed with
  | none => exact areRecorded_of_patternNodes hindex h
  | some p => exact areRecorded_of_treeNodes hindex (hnested p rfl) h

end

end Source

end Rephrase
