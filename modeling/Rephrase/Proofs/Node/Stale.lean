import Rephrase.Proofs.Edit.Strict
import Rephrase.Proofs.Node.Size
import Rephrase.Proofs.Oracle.Verbatim

/-! A node that was found in one text can be edited in any other one: whatever has become of the
file since, the edit comes to a result, or to none, and relies on nothing that is not so. -/

namespace Rephrase

open Text

/-- Whether memory can hold a text, and the index of its lines with eight bytes for each of them. -/
structure Text.IsHeld (cs : List Char) : Prop where
  text : size cs < sizeLimit
  index : 8 * (LineStarts.ofText cs).starts.length < sizeLimit

/-- A line of a text has its place in the index of lines. -/
theorem Text.line_le_length_starts (front back : List Char) :
    (positionBehind front).line ≤ (LineStarts.ofText (front ++ back)).starts.length := by
  have hfrom : ∀ (p : Position) (offset : Nat),
      (p.behind front).line ≤ p.line + (breaksFrom offset (front ++ back)).length := by
    induction front with
    | nil => exact fun p offset => Nat.le_add_right _ _
    | cons c front ih =>
      intro p offset
      rw [Position.behind_cons, List.cons_append, breaksFrom, Position.next]
      by_cases hc : c = '\n'
      · have hle := ih ⟨p.line + 1, 0⟩ (offset + 1)
        rw [if_pos hc, if_pos hc, List.length_cons]
        dsimp only at hle
        omega
      · rw [if_neg hc, if_neg hc]
        exact ih _ _
  have hle := hfrom ⟨1, 0⟩ 0
  rw [ofText_starts, List.length_cons, Nat.add_comm]
  exact hle

/-- The numbers of a recorded node are in their range for every text. -/
theorem Node.IsRecorded.not_isOutOfRange {source : Source} {node : Node}
    (h : node.IsRecorded source) (hsource : IsHeld source.content) {cs : List Char}
    (hcs : size cs < sizeLimit) : ¬ node.IsOutOfRange cs := by
  have htext := hsource.text
  have hindex := hsource.index
  unfold sizeLimit at hcs htext hindex
  rintro (⟨pieces, hpieces, piece, hpiece, hcrossed | hfar⟩ | hline)
  · have hwithin := ((h.pieces pieces hpieces).2 piece hpiece).within
    omega
  · have hwithin := ((h.pieces pieces hpieces).2 piece hpiece).within
    unfold Fault.wordLimit at hfar
    omega
  · rcases Patch.exists_start h with ⟨front, back, hsplit, hstart, -⟩
    have hle := line_le_length_starts front back
    rw [← hsplit, ← hstart] at hle
    omega

/-- An edit for a node of one text in another text relies on nothing that is not so: every stretch
that it takes is one of the text, every sum and difference is a number of a machine word, and it
comes to a result or to none. -/
theorem Source.exists_apply_of_nodes {file location : String} {content phrase : List Char}
    {contextLines : Nat} {config : Config} {parsed : Option Parsed} {nodes : List Node}
    (hcontent : IsHeld content)
    (hnodes : (ofContent file location content contextLines).nodes config phrase parsed = .ok nodes)
    {node : Node} (hnode : node ∈ nodes) (p : Proposal) {cs : List Char} (hcs : IsHeld cs) :
    ∃ result, Edit.Strict.apply cs node p = .ok result ∧ Edit.apply cs node p = .ok result := by
  have hrecorded := isRecorded_of_nodes rfl hnodes node hnode
  rw [Edit.Strict.apply_eq hcs.text]
  cases happly : Edit.apply cs node p with
  | ok result => exact ⟨result, rfl, rfl⟩
  | error fault =>
    exact absurd (Edit.isOutOfRange_of_apply happly)
      (hrecorded.not_isOutOfRange hcontent hcs.text)

/-- What is left of the file is one short line, with a character of two bytes. -/
theorem Source.exists_apply_in_short_text : ∃ node,
    (ofContent "a.md" "a.md" Oracle.fedLines 3).nodes {} "Sign in".toList none = .ok [node] ∧
      ∃ result, Edit.Strict.apply "né".toList node (Edit.signProposal none none) = .ok result ∧
        Edit.apply "né".toList node (Edit.signProposal none none) = .ok result := by
  have hcontent : IsHeld Oracle.fedLines := ⟨by decide, by decide⟩
  have hcs : IsHeld "né".toList := ⟨by decide, by decide⟩
  exact ⟨_, Oracle.nodes_fedLines, exists_apply_of_nodes hcontent Oracle.nodes_fedLines
    List.mem_cons_self (Edit.signProposal none none) hcs⟩

end Rephrase
