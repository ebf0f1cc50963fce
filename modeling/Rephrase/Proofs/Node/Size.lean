import Rephrase.Proofs.Edit.Range
import Rephrase.Proofs.Node.Invariant
import Rephrase.Proofs.Node.Origin

/-! The numbers of a node are no larger than the file that it was found in, so nodes are found and
edited without a number leaving its range, unless a text is longer than any that can be kept. -/

namespace Rephrase

namespace Text

/-- Whether a text is longer than any that can be kept. -/
def IsImmense (cs : List Char) : Prop := 0x7ffffffffffffffe ≤ size cs

theorem Position.behind_le (p : Position) (cs : List Char) :
    (p.behind cs).line ≤ p.line + size cs ∧ (p.behind cs).column ≤ p.column + size cs := by
  induction cs generalizing p with
  | nil => exact ⟨Nat.le_refl _, Nat.le_refl _⟩
  | cons c cs ih =>
    obtain ⟨hline, hcolumn⟩ := ih (p.next c)
    have hc := c.utf8Size_pos
    rw [behind_cons, size_cons]
    unfold next at *
    split at hline <;> rename_i hbreak
    · rw [if_pos hbreak] at hcolumn ⊢
      dsimp only at hline hcolumn
      omega
    · rw [if_neg hbreak] at hcolumn ⊢
      dsimp only at hline hcolumn
      omega

end Text

open Text

namespace TextUnit

mutual

/-- Every unit stands where its text does, even if parts of the tree do not lie in each other. -/
theorem stands_of_mem_ofTree {content : List Char} {above : List Label} {unit : TextUnit} :
    (tree : Tree) → unit ∈ ofTree content above tree → unit.Stands content
  | .node label children, h => by
    rw [ofTree] at h
    split at h
    · exact (of_ofSpan? (Option.mem_toList.mp h)).1
    split at h
    · exact (of_ofSpan? (Option.mem_toList.mp h)).1
    split at h
    · have hstring := Option.mem_toList.mp h
      unfold ofString? at hstring
      dsimp only at hstring
      split at hstring
      · exact (of_ofSpan? hstring).1
      · exact (of_ofSpan? (Option.filter_eq_some_iff.mp hstring).1).1
    split at h
    · simp at h
    · exact stands_of_mem_ofTrees children h

theorem stands_of_mem_ofTrees {content : List Char} {above : List Label} {unit : TextUnit} :
    (trees : List Tree) → unit ∈ ofTrees content above trees → unit.Stands content
  | [], h => by simp [ofTrees] at h
  | tree :: rest, h => by
    rw [ofTrees] at h
    exact (List.mem_append.mp h).elim (stands_of_mem_ofTree tree) (stands_of_mem_ofTrees rest)

end

end TextUnit

/-! ## Edits -/

/-- A piece that stands in a text ends within it, and not above the line that it starts on. -/
theorem Piece.IsRecorded.within {cs : List Char} {piece : Piece} (h : piece.IsRecorded cs) :
    piece.start.line ≤ piece.stop.line ∧
      piece.start.column + size piece.text.toList ≤ size cs := by
  rcases h.holds with ⟨front, back, hsplit, hstart, hstop⟩
  have hcolumn := (Position.behind_le ⟨1, 0⟩ front).2
  change (positionBehind front).column ≤ 0 + size front at hcolumn
  have hsize := congrArg size hsplit
  rw [size_append, size_append] at hsize
  constructor
  · rw [hstart, hstop, positionBehind_append]
    exact Position.line_le_behind _ _
  · rw [hstart]
    omega

/-- A piece that stands in a text has small numbers. -/
theorem Piece.IsRecorded.isImmense {cs draft : List Char} {piece : Piece}
    (h : piece.IsRecorded cs) (hrange : piece.IsOutOfRange draft) :
    IsImmense cs ∨ IsImmense draft := by
  have hwithin := h.within
  obtain hcrossed | hfar := hrange
  · omega
  · unfold Fault.wordLimit at hfar
    unfold IsImmense
    omega

/-- An edit for a recorded node has its numbers in their range. -/
theorem Node.IsRecorded.isImmense {source : Source} {node : Node} {draft : List Char}
    (h : node.IsRecorded source) (hrange : node.IsOutOfRange draft) :
    IsImmense source.content ∨ IsImmense draft := by
  obtain ⟨pieces, hpieces, piece, hpiece, hpieceRange⟩ | hline := hrange
  · exact ((h.pieces pieces hpieces).2 piece hpiece).isImmense hpieceRange
  · obtain ⟨front, back, hsplit, hstart, -⟩ := Patch.exists_start h
    have hbound := (Position.behind_le ⟨1, 0⟩ front).1
    change (positionBehind front).line ≤ 1 + size front at hbound
    rw [hstart] at hline
    left
    unfold IsImmense
    rw [hsplit, size_append]
    omega

/-! ## Nodes -/

namespace Source

variable {source : Source} {config : Config} {phrase : List Char} {nodes : List Node}

theorem isRecorded_of_nodes (hindex : source.index = .ofText source.content)
    {parsed : Option Parsed} (h : source.nodes config phrase parsed = .ok nodes) :
    ∀ node ∈ nodes, node.IsRecorded source := by
  cases parsed with
  | none => exact (areRecorded_of_patternNodes hindex h).records
  | some parsed =>
    obtain rfl | ⟨-, hwhole | ⟨-, hpattern⟩ | hparts⟩ := of_treeNodes h
    · nofun
    · intro node hnode
      obtain ⟨unit, hunit, hresult⟩ := exists_of_mem_mapM hwhole hnode
      have hstands := TextUnit.stands_of_mem_ofTree _ (List.mem_filter.mp hunit).1
      exact (isRecorded_of_nodeAt hindex hstands.slice hstands.solid.ne_nil hresult).1
    · exact (areRecorded_of_patternNodes hindex hpattern).records
    · intro node hnode
      obtain ⟨⟨units, coverage⟩, hpart, hresult⟩ := exists_of_mem_mapM hparts hnode
      have hsub := (of_mem_fragmentsOf hpart).2
      exact (isRecorded_of_nodeOfUnits hindex (ne_nil_of_mem_fragmentsOf hpart)
        (fun unit hunit => TextUnit.stands_of_mem_ofTree _ (hsub.mem hunit)) hresult).1

theorem isImmense_of_nodes {fault : Fault} (hcontext : source.contextLines < 0x8000000000000000)
    (hlines : source.lines = Text.lines source.content) {parsed : Option Parsed}
    (h : source.nodes config phrase parsed = .error fault) : IsImmense source.content := by
  by_contra hsmall
  have hlength := length_lines_le source.content
  have hfits : source.lines.length + source.contextLines < Fault.wordLimit := by
    rw [hlines]
    unfold IsImmense at hsmall
    unfold Fault.wordLimit
    omega
  cases parsed with
  | none =>
    obtain ⟨nodes, hnodes⟩ := exists_patternNodes hfits phrase
    cases h.symm.trans hnodes
  | some parsed =>
    obtain ⟨nodes, hnodes⟩ := exists_treeNodes hfits config phrase parsed
    cases h.symm.trans hnodes

end Source

/-! ## Candidates -/

/-- Whether a file is longer than any that can be kept. -/
def Disk.HoldsImmense (disk : Disk) (location : String) : Prop :=
  ∃ text, disk.textAt location = .ok text ∧ IsImmense text.toList

namespace Candidate

variable {disk : Disk} {parser : Parser} {config : Config} {phrase : List Char}
  {candidates : List Candidate}

theorem isRecorded_of_mem_allNodes {nodes : List Node}
    (h : allNodes disk parser config phrase candidates = .ok nodes) {node : Node}
    (hnode : node ∈ nodes) : ∃ c ∈ candidates, ∃ source text, node.IsRecorded source ∧
      disk.textAt c.location = .ok text ∧ source.content = text.toList := by
  obtain ⟨c, hc, text, parsed, found, htext, hfound, hmem⟩ := exists_nodes_of_mem_allNodes h hnode
  exact ⟨c, hc, _, text, Source.isRecorded_of_nodes rfl hfound node hmem, htext, rfl⟩

theorem holdsImmense_of_allNodes {fault : Fault}
    (hcontext : config.contextLines < 0x8000000000000000)
    (h : allNodes disk parser config phrase candidates = .error fault) :
    ∃ c ∈ candidates, disk.HoldsImmense c.location := by
  by_contra hsmall
  have hall : ∀ c ∈ candidates, ∃ nodes, Candidate.nodes disk parser config phrase c = .ok nodes := by
    intro c hc
    cases hnodes : Candidate.nodes disk parser config phrase c with
    | ok nodes => exact ⟨nodes, rfl⟩
    | error _ =>
      unfold Candidate.nodes at hnodes
      split at hnodes
      · rename_i text htext
        exact absurd ⟨c, hc, text, htext, Source.isImmense_of_nodes hcontext rfl hnodes⟩ hsmall
      · cases hnodes
  obtain ⟨parts, hparts⟩ := exists_mapM_eq_ok hall
  unfold allNodes at h
  rw [hparts] at h
  cases h

end Candidate

end Rephrase
