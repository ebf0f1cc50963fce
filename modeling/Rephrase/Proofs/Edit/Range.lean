import Rephrase.Proofs.Edit.Way
import Rephrase.Proofs.Text.RawLine

/-! An edit comes to a result, or to none, unless the numbers of its node are out of their range. -/

namespace Rephrase

open Text

/-- Whether the numbers of a piece cannot be those of a place in a text: it would end on a line above
the one that it starts on, or too far behind for a machine word. -/
def Piece.IsOutOfRange (cs : List Char) (piece : Piece) : Prop :=
  piece.stop.line < piece.start.line ∨
    Fault.wordLimit ≤ size cs + piece.start.column + size piece.text.toList

/-- Whether the numbers of a node are out of their range in a text. -/
def Node.IsOutOfRange (cs : List Char) (node : Node) : Prop :=
  (∃ pieces, node.pieces = some pieces ∧ ∃ piece ∈ pieces, piece.IsOutOfRange cs) ∨
    0x8000000000000000 ≤ node.start.line + 1

namespace Edit

theorem isOutOfRange_of_locate {cs : List Char} {piece : Piece} {fault : Fault}
    (h : locate cs (lineSpans cs) piece = .error fault) : piece.IsOutOfRange cs := by
  unfold locate at h
  dsimp only at h
  split at h
  · cases h
  split at h
  · cases h
  rename_i region hregion
  unfold region? at hregion
  split at hregion
  · cases hregion
  obtain ⟨top, htop, hregion⟩ := Option.bind_eq_some_iff.mp hregion
  obtain ⟨bottom, hbottom, hregion⟩ := Option.bind_eq_some_iff.mp hregion
  obtain rfl := Option.some.inj hregion
  -- Within the range no sum overflows, and whole lines can be sliced.
  have hle := start_le_size htop
  dsimp only at h
  by_contra hnot
  obtain ⟨hlines, hsmall⟩ := not_or.mp hnot
  obtain ⟨text, htext⟩ := exists_slice?_lineSpans htop hbottom
    (Nat.sub_le_sub_right (Nat.le_of_not_lt hlines) 1)
  have hrecorded : Fault.add top.start piece.start.column =
      .ok (top.start + piece.start.column) := if_pos (by omega)
  have hstop : Fault.add (top.start + piece.start.column) (size piece.text.toList) =
      .ok (top.start + piece.start.column + size piece.text.toList) := if_pos (by omega)
  rw [hrecorded, ok_bind, hstop, ok_bind] at h
  split at h
  · cases h
  · rw [htext] at h
    cases h

theorem exists_of_locateAll {cs : List Char} {pieces : List Piece} {fault : Fault}
    (h : locateAll cs (lineSpans cs) pieces = .error fault) :
    ∃ piece ∈ pieces, piece.IsOutOfRange cs := by
  induction pieces with
  | nil => cases h
  | cons piece rest ih =>
    rw [locateAll] at h
    cases hlocate : locate cs (lineSpans cs) piece with
    | error _ => exact ⟨piece, List.mem_cons_self, isOutOfRange_of_locate hlocate⟩
    | ok span =>
      rw [hlocate, ok_bind] at h
      cases span with
      | none => cases h
      | some span =>
        cases hrest : locateAll cs (lineSpans cs) rest with
        | error _ =>
          obtain ⟨other, hother, hrange⟩ := ih (hrest.trans (by rw [hrest] at h; cases h; rfl))
          exact ⟨other, List.mem_cons_of_mem _ hother, hrange⟩
        | ok spans =>
          dsimp only at h
          rw [hrest] at h
          cases h

theorem isOutOfRange_of_fragments {cs : List Char} {node : Node} {p : Proposal} {fault : Fault}
    (h : alone cs node p .fragments = .error fault) : node.IsOutOfRange cs := by
  rw [alone] at h
  cases hpieces : node.pieces with
  | none =>
    rw [hpieces] at h
    cases h
  | some pieces =>
    refine .inl ⟨pieces, hpieces, ?_⟩
    rw [hpieces, Option.elim_some] at h
    unfold dealOut at h
    split at h
    · cases h
    cases hall : locateAll cs (lineSpans cs) pieces with
    | error _ => exact exists_of_locateAll hall
    | ok spans =>
      rw [hall, ok_bind] at h
      split at h
      · cases h
      · split at h <;> cases h

theorem checked_eq_ok {n : Int} (hlow : -0x8000000000000000 ≤ n) (hhigh : n < 0x8000000000000000) :
    checked n = .ok n := by
  unfold checked
  rw [if_pos (by simp [hlow, hhigh])]

theorem nearbySpans_eq_error {spans : List Span} {line : Nat} {fault : Fault}
    (h : nearbySpans spans line = .error fault) : 0x8000000000000000 ≤ line + 1 := by
  by_contra hsmall
  have hsigned : signed line = line := if_pos (by omega)
  unfold nearbySpans at h
  rw [hsigned, checked_eq_ok (by omega) (by omega), ok_bind] at h
  have hall : ∀ delta ∈ [0, -1, 1, -2, 2], checked ((line : Int) - 1 + delta) =
      .ok ((line : Int) - 1 + delta) := by
    intro delta hdelta
    have hbounds : -2 ≤ delta ∧ delta ≤ 2 := by
      simp only [List.mem_cons, List.not_mem_nil, or_false] at hdelta
      omega
    exact checked_eq_ok (by omega) (by omega)
  obtain ⟨indexes, hindexes⟩ := exists_mapM_eq_ok fun delta hdelta => ⟨_, hall delta hdelta⟩
  rw [hindexes] at h
  cases h

theorem isOutOfRange_of_lineFallback {cs : List Char} {node : Node} {p : Proposal} {fault : Fault}
    (h : alone cs node p .lineFallback = .error fault) : node.IsOutOfRange cs := by
  rw [alone, replaceNearby] at h
  dsimp only at h
  split at h
  · cases h
  cases hspans : nearbySpans (lineSpans cs) node.start.line with
  | error _ => exact .inr (nearbySpans_eq_error hspans)
  | ok spans =>
    rw [hspans] at h
    cases h

/-- An edit that ends in a fault is for a node whose numbers are out of range. -/
theorem isOutOfRange_of_apply {cs : List Char} {node : Node} {p : Proposal} {fault : Fault}
    (h : apply cs node p = .error fault) : node.IsOutOfRange cs := by
  obtain ⟨way, halone⟩ := alone_of_apply_error h
  cases way with
  | snippet => cases halone
  | normalizedSnippet => cases halone
  | fragments => exact isOutOfRange_of_fragments halone
  | direct => cases halone
  | lineFallback => exact isOutOfRange_of_lineFallback halone

end Edit

end Rephrase
