import Rephrase.Proofs.Node.Extraction
import Rephrase.Proofs.Patch.Answer
import Rephrase.Proofs.Phrase.Ending

/-! Every node of a file is sound: its lines are lines of the file, its text is what stands there,
and a node of several pieces has them in the order of the file. -/

namespace Rephrase

open Text

/-- A node made of several stretches of a content. -/
structure Node.IsJoined (content : List Char) (node : Node) (pieces : List Piece) : Prop where
  two_le : 2 ≤ pieces.length
  recorded : ∀ piece ∈ pieces, piece.IsRecorded content
  joined : node.content.toList = unwords (pieces.map (·.text.toList))
  start : pieces.head?.map (·.start) = some node.start
  stop : pieces.getLast?.map (·.stop) = some node.stop

/-- What every node of a content is. -/
structure Node.IsSound (content : List Char) (node : Node) : Prop where
  first_line : 1 ≤ node.start.line
  lines_le : node.start.line ≤ node.stop.line
  last_line : node.stop.line ≤ (Text.lines content).length
  kind : node.kind = .fragmented ↔ node.inPieces = true
  /-- The stretches of its pieces, or its only stretch, lie one after another in the content. -/
  ascend : Ascend 0 (size content) (node.stretches content)
  whole : node.pieces = none → Holds content node.start node.stop node.content.toList
  pieces : ∀ pieces, node.pieces = some pieces → node.IsJoined content pieces

theorem exists_of_solid {text : List Char} (h : Solid isBlank text) :
    ∃ front c, text = front ++ [c] ∧ KeepsLine c := by
  refine ⟨text.dropLast, text.getLast h.ne_nil, (List.dropLast_append_getLast h.ne_nil).symm, ?_⟩
  exact keepsLine_of_not_blank (h.last _ (List.getLast?_eq_some_getLast h.ne_nil))

theorem stop_le_of_slice? {content text : List Char} {span : Span}
    (h : slice? content span.start span.stop = some text) : span.stop ≤ size content := by
  obtain ⟨front, back, rfl, hstart, hstop⟩ := of_slice? h
  rw [size_append, size_append]
  omega

namespace Source

theorem kind_of_nodeAt {source : Source} {kind : Node.Kind} {text : List Char} {span : Span}
    {relevance : Float} {pieces : Option (List Piece)} {shown : Option Span} {node : Node}
    (h : source.nodeAt kind text span relevance pieces shown = .ok node) : node.kind = kind := by
  obtain ⟨around, -, hnode⟩ := bind_eq_ok.mp h
  cases hnode
  rfl

/-- A node of several units reaches from the first of them to the last one. -/
theorem ends_of_nodeOfUnits {source : Source} {tree : Tree} {units : List TextUnit}
    {coverage : Float} {node : Node} {first last : TextUnit} (hfirst : units.head? = some first)
    (hlast : units.getLast? = some last) (h : source.nodeOfUnits tree units coverage = .ok node) :
    node.start = (source.pieceOfUnit first).start ∧
      node.stop = (source.pieceOfUnit last).stop := by
  obtain ⟨-, -, hstart, hstop, -, -⟩ := of_nodeAt h
  rw [stretchOf, hfirst, hlast] at hstart hstop
  exact ⟨hstart, hstop⟩

section

variable {source : Source} (hindex : source.index = .ofText source.content)
include hindex

theorem isSound_of_nodeAt {kind : Node.Kind} {front : List Char} {c : Char} {span : Span}
    {relevance : Float} {shown : Option Span} {node : Node} (hkind : kind ≠ .fragmented)
    (hslice : slice? source.content span.start span.stop = some (front ++ [c]))
    (hc : KeepsLine c)
    (h : source.nodeAt kind (front ++ [c]) span relevance none shown = .ok node) :
    node.IsSound source.content := by
  obtain ⟨hrecorded, hstretches⟩ := isRecorded_of_nodeAt hindex hslice (by simp) h
  obtain ⟨-, -, -, -, hcontent, hpieces⟩ := of_nodeAt h
  have hholds := (hrecorded.whole hpieces).1
  have hlines := hholds
  rw [hcontent, String.toList_ofList] at hlines
  obtain ⟨hfirst, hle, hlast⟩ := hlines.lines_le hc
  refine ⟨hfirst, hle, hlast, ?_, ?_, fun _ => hholds, ?_⟩
  · rw [kind_of_nodeAt h, Node.inPieces, hpieces]
    simp [hkind]
  · rw [hstretches]
    obtain ⟨before, behind, -, hstart, hstop⟩ := of_slice? hslice
    have hpos : 0 < size (front ++ [c]) := size_pos_of_ne_nil (by simp)
    exact ⟨Nat.zero_le _, by omega, stop_le_of_slice? hslice⟩
  · intro pieces hsome
    rw [hpieces] at hsome
    cases hsome

/-- The lines of a unit are lines of the file. -/
theorem lines_of_stands {unit : TextUnit} (h : unit.Stands source.content) :
    1 ≤ (source.pieceOfUnit unit).start.line ∧
      (source.pieceOfUnit unit).stop.line ≤ (Text.lines source.content).length := by
  have hrecorded := (isRecorded_of_stands hindex h).1
  obtain ⟨front, c, htext, hc⟩ := exists_of_solid hrecorded.solid
  have hholds := hrecorded.holds
  rw [htext] at hholds
  obtain ⟨hfirst, -, hlast⟩ := hholds.lines_le hc
  exact ⟨hfirst, hlast⟩

theorem line_le_of_stands {first last : TextUnit} (hfirst : first.Stands source.content)
    (hlast : last.Stands source.content) (hle : first.span.start ≤ last.span.stop) :
    (source.pieceOfUnit first).start.line ≤ (source.pieceOfUnit last).stop.line := by
  obtain ⟨hfirst, hfirstSpan⟩ := isRecorded_of_stands hindex hfirst
  obtain ⟨hlast, hlastSpan⟩ := isRecorded_of_stands hindex hlast
  refine hfirst.holds.line_le hlast.holds ?_
  rw [hfirstSpan, hlastSpan]
  exact hle

theorem isJoined_of_nodeOfUnits {tree : Tree} {units : List TextUnit} {coverage : Float}
    {node : Node} (hunits : 2 ≤ units.length)
    (hstands : ∀ unit ∈ units, unit.Stands source.content)
    (h : source.nodeOfUnits tree units coverage = .ok node) :
    node.IsJoined source.content (units.map source.pieceOfUnit) := by
  obtain ⟨first, rest, rfl⟩ := List.exists_cons_of_length_pos (Nat.lt_of_succ_lt hunits)
  have hlast := List.getLast?_eq_some_getLast (List.cons_ne_nil first rest)
  obtain ⟨hstart, hstop⟩ := ends_of_nodeOfUnits List.head?_cons hlast h
  obtain ⟨-, -, -, -, hcontent, -⟩ := of_nodeAt h
  refine ⟨by simpa using hunits, ?_, ?_, ?_, ?_⟩
  · intro piece hpiece
    obtain ⟨unit, hunit, rfl⟩ := List.mem_map.mp hpiece
    exact (isRecorded_of_stands hindex (hstands unit hunit)).1
  · rw [hcontent, String.toList_ofList, List.map_map, unwords]
    congr 1
    exact List.map_congr_left fun unit _ => String.toList_ofList.symm
  · rw [hstart]
    rfl
  · rw [List.getLast?_map, hlast, hstop]
    rfl

theorem isSound_of_nodeOfUnits {tree : Tree} {units : List TextUnit} {coverage : Float}
    {stop : Nat} {node : Node} (hunits : 2 ≤ units.length)
    (hstands : ∀ unit ∈ units, unit.Stands source.content)
    (hascend : Ascend 0 stop (units.map (·.span)))
    (h : source.nodeOfUnits tree units coverage = .ok node) : node.IsSound source.content := by
  have hjoined := isJoined_of_nodeOfUnits hindex hunits hstands h
  obtain ⟨first, rest, rfl⟩ := List.exists_cons_of_length_pos (Nat.lt_of_succ_lt hunits)
  have hnil := List.cons_ne_nil first rest
  have hmem : first ∈ first :: rest := List.mem_cons_self
  have hmem' := List.getLast_mem hnil
  obtain ⟨-, hstretches⟩ := isRecorded_of_nodeOfUnits hindex hnil hstands h
  obtain ⟨-, -, -, -, -, hpieces⟩ := of_nodeAt h
  obtain ⟨hstart, hstop⟩ :=
    ends_of_nodeOfUnits List.head?_cons (List.getLast?_eq_some_getLast hnil) h
  generalize (first :: rest).getLast hnil = last at hmem' hstop
  -- The units ascend, so the first starts in front of where the last stops.
  have hle : first.span.start ≤ last.span.stop := by
    have hfrom : Ascend first.span.start stop ((first :: rest).map (·.span)) :=
      ⟨Nat.le_refl _, hascend.2⟩
    have hspan : last.span ∈ (first :: rest).map (·.span) := List.mem_map_of_mem hmem'
    exact Nat.le_trans (hfrom.start_le_of_mem hspan) (Nat.le_of_lt (hfrom.lt_of_mem hspan))
  have hlimit : ∀ span ∈ (first :: rest).map (·.span), span.stop ≤ size source.content := by
    intro span hspan
    obtain ⟨unit, hunit, rfl⟩ := List.mem_map.mp hspan
    exact stop_le_of_slice? (hstands unit hunit).slice
  refine ⟨?_, ?_, ?_, ?_, ?_, ?_, ?_⟩
  · rw [hstart]
    exact (lines_of_stands hindex (hstands first hmem)).1
  · rw [hstart, hstop]
    exact line_le_of_stands hindex (hstands first hmem) (hstands last hmem') hle
  · rw [hstop]
    exact (lines_of_stands hindex (hstands last hmem')).2
  · rw [kind_of_nodeAt h, Node.inPieces, hpieces]
    simp
  · rw [hstretches]
    exact hascend.of_stop_le (Nat.zero_le _) hlimit
  · intro hnone
    rw [hpieces] at hnone
    cases hnone
  · intro pieces hsome
    rw [hpieces] at hsome
    exact Option.some.inj hsome ▸ hjoined

end

/-- The units of a part are at least two, and they stand in the order of the file. -/
theorem of_mem_fragmentsOf {config : Config} {phrase : List Char} {units : List TextUnit}
    {part : List TextUnit × Float} (h : part ∈ fragmentsOf config phrase units) :
    2 ≤ part.1.length ∧ part.1.Sublist units := by
  have hsub := fragmentsOf_sublist config phrase units
  rw [List.flatMap_def] at hsub
  refine ⟨?_, (List.sublist_flatten_of_mem (List.mem_map_of_mem h)).trans hsub⟩
  unfold fragmentsOf at h
  dsimp only at h
  obtain ⟨found, hfound, rfl⟩ := List.mem_map.mp h
  have henough := Phrase.Fragments.isEnough_of_mem_find hfound
  obtain ⟨htwo, -⟩ : 2 ≤ found.units.length ∧ _ := by
    simpa [Phrase.Fragments.isEnough] using henough
  have hclimb := Phrase.Fragments.climb_find (Phrase.words phrase) config.fragmentLookahead
    config.fragmentMinCoverage (units.map fun unit => Phrase.words unit.text)
  -- Every number is that of a unit, so none is left out.
  have hsome : ∀ n ∈ found.units, (units[n]?).isSome := by
    intro n hn
    have hlt := (hclimb.2 n (List.mem_flatMap.mpr ⟨found, hfound, hn⟩)).2
    rw [List.length_map] at hlt
    simp [hlt]
  show 2 ≤ (found.units.filterMap (units[·]?)).length
  rwa [List.length_filterMap_eq_countP, List.countP_eq_length.mpr hsome]

section

variable {source : Source} (hindex : source.index = .ofText source.content) {nodes : List Node}
include hindex

theorem isSound_of_patternNodes {phrase : List Char} (h : source.patternNodes phrase = .ok nodes) :
    ∀ node ∈ nodes, node.IsSound source.content := by
  intro node hnode
  obtain ⟨span, hspan, hresult⟩ := exists_of_mem_mapM h hnode
  obtain ⟨text, c, hslice, hc⟩ := Phrase.slice?_of_mem_find hspan
  rw [hslice] at hresult
  exact isSound_of_nodeAt hindex (by decide) hslice hc hresult

theorem isSound_of_treeNodes {config : Config} {phrase : List Char} {parsed : Parsed}
    (hnested : parsed.tree.isNested = true)
    (h : source.treeNodes config phrase parsed = .ok nodes) :
    ∀ node ∈ nodes, node.IsSound source.content := by
  obtain ⟨hstands, hascend⟩ := TextUnit.areLaid_ofTree source.content [] parsed.tree hnested
  replace hascend := hascend.of_le (Nat.zero_le _)
  obtain rfl | ⟨-, h | ⟨-, h⟩ | h⟩ := of_treeNodes h
  · nofun
  · intro node hnode
    obtain ⟨unit, hunit, hresult⟩ := exists_of_mem_mapM h hnode
    have hmem := (List.mem_filter.mp hunit).1
    have hunit := hstands unit hmem
    obtain ⟨front, c, htext, hc⟩ := exists_of_solid hunit.solid
    rw [nodeOfUnit, htext] at hresult
    exact isSound_of_nodeAt hindex (TextUnit.kind_of_mem_ofTree _ hmem) (htext ▸ hunit.slice) hc
      hresult
  · exact isSound_of_patternNodes hindex h
  · intro node hnode
    obtain ⟨⟨units, coverage⟩, hpart, hresult⟩ := exists_of_mem_mapM h hnode
    obtain ⟨htwo, hsub⟩ := of_mem_fragmentsOf hpart
    exact isSound_of_nodeOfUnits hindex htwo (fun unit hunit => hstands unit (hsub.mem hunit))
      (hascend.sublist (hsub.map _)) hresult

end

section

variable {source : Source} (hlines : source.lines.length + source.contextLines < Fault.wordLimit)
include hlines

theorem exists_nodeAt (kind : Node.Kind) (text : List Char) (span : Span) (relevance : Float)
    (pieces : Option (List Piece)) (shown : Option Span) :
    ∃ node, source.nodeAt kind text span relevance pieces shown = .ok node := by
  have hreach : ∀ last, Fault.add (min last source.lines.length) source.contextLines =
      .ok (min last source.lines.length + source.contextLines) := by
    intro last
    exact if_pos (by omega)
  unfold nodeAt surroundings
  dsimp only
  rw [hreach]
  exact ⟨_, rfl⟩

theorem exists_patternNodes (phrase : List Char) :
    ∃ nodes, source.patternNodes phrase = .ok nodes := by
  refine exists_mapM_eq_ok fun span hspan => ?_
  obtain ⟨text, c, hslice, -⟩ := Phrase.slice?_of_mem_find hspan
  rw [hslice]
  exact exists_nodeAt hlines _ _ _ _ _ _

theorem exists_treeNodes (config : Config) (phrase : List Char) (parsed : Parsed) :
    ∃ nodes, source.treeNodes config phrase parsed = .ok nodes := by
  unfold treeNodes
  dsimp only
  split
  · exact ⟨[], rfl⟩
  split
  · exact exists_mapM_eq_ok fun unit _ => exists_nodeAt hlines _ _ _ _ _ _
  split
  · exact exists_patternNodes hlines phrase
  · exact exists_mapM_eq_ok fun part _ => exists_nodeAt hlines _ _ _ _ _ _

end

theorem isSound_of_mem_nodes {file location : String} {content : List Char} {contextLines : Nat}
    {config : Config} {phrase : List Char} {parsed : Option Parsed}
    (hnested : ∀ p ∈ parsed, p.tree.isNested = true) {nodes : List Node}
    (h : (ofContent file location content contextLines).nodes config phrase parsed = .ok nodes) :
    ∀ node ∈ nodes, node.IsSound content := by
  cases parsed with
  | none => exact isSound_of_patternNodes rfl h
  | some p => exact isSound_of_treeNodes rfl (hnested p rfl) h

/-- The nodes of a file, which are found unless the number of its lines is absurd, are all sound. -/
theorem isSound_of_nodes (file location : String) (content : List Char) (contextLines : Nat)
    (config : Config) (phrase : List Char) {parsed : Option Parsed}
    (hnested : ∀ p ∈ parsed, p.tree.isNested = true) :
    ((Text.lines content).length + contextLines < Fault.wordLimit →
        ∃ nodes, (ofContent file location content contextLines).nodes config phrase parsed =
          .ok nodes) ∧
      ∀ nodes, (ofContent file location content contextLines).nodes config phrase parsed =
        .ok nodes → ∀ node ∈ nodes, node.IsSound content := by
  refine ⟨fun hlines => ?_, fun nodes h => isSound_of_mem_nodes hnested h⟩
  cases parsed with
  | none => exact exists_patternNodes hlines phrase
  | some p => exact exists_treeNodes hlines config phrase p

/-- The node of a page with one of three words in bold. -/
theorem isSound_bold : ∃ node, Patch.boldSource.nodes {} "Sign in now".toList
      (some ⟨Patch.boldTree, false⟩) = .ok [node] ∧ node.IsSound Patch.bold ∧
    (node.pieces.map (List.map (·.text))) = some ["Sign", "in", "now"] := by
  have hnested : ∀ p ∈ some (⟨Patch.boldTree, false⟩ : Parsed), p.tree.isNested = true := by
    intro p hp
    obtain rfl := Option.some.inj hp
    decide
  obtain ⟨-, hsound⟩ :=
    isSound_of_nodes "a.html" "a.html" Patch.bold 3 {} "Sign in now".toList hnested
  exact ⟨_, Patch.nodes_bold, hsound _ Patch.nodes_bold _ (List.mem_singleton.mpr rfl), rfl⟩

end Source

end Rephrase
