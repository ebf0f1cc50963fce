import Rephrase.Proofs.Text.Blank
import Rephrase.Proofs.Text.Replaced
import Rephrase.Tree.TextUnit

/-! The units of a tree lie one after another, each where its text stands, if the parts of every
construct lie one after another inside it. -/

namespace Rephrase

open Text

namespace Tree

mutual

/-- Whether the parts of every construct lie in it, one after another. -/
def isNested : Tree → Bool
  | .node label children => areNested label.span.start label.span.stop children

/-- Whether neighbouring trees lie one after another between two offsets. -/
def areNested (start stop : Nat) : List Tree → Bool
  | [] => start ≤ stop
  | tree :: rest =>
    start ≤ tree.label.span.start && tree.isNested && areNested tree.label.span.stop stop rest

end

theorem areNested_cons {start stop : Nat} {tree : Tree} {rest : List Tree}
    (h : areNested start stop (tree :: rest) = true) :
    start ≤ tree.label.span.start ∧ tree.isNested = true ∧
      areNested tree.label.span.stop stop rest = true := by
  simpa [areNested, and_assoc] using h

mutual

theorem start_le_stop : (tree : Tree) → tree.isNested = true →
    tree.label.span.start ≤ tree.label.span.stop
  | .node _ children, h => le_of_areNested children (by rwa [isNested] at h)

theorem le_of_areNested {start stop : Nat} : (trees : List Tree) →
    areNested start stop trees = true → start ≤ stop
  | [], h => by simpa [areNested] using h
  | tree :: rest, h => by
    obtain ⟨hstart, htree, hrest⟩ := areNested_cons h
    exact Nat.le_trans (Nat.le_trans hstart (start_le_stop tree htree)) (le_of_areNested rest hrest)

end

theorem span_of_areNested {start stop : Nat} {trees : List Tree} {tree : Tree}
    (h : areNested start stop trees = true) (htree : tree ∈ trees) :
    start ≤ tree.label.span.start ∧ tree.label.span.stop ≤ stop := by
  induction trees generalizing start with
  | nil => simp at htree
  | cons first rest ih =>
    obtain ⟨hstart, hfirst, hrest⟩ := areNested_cons h
    obtain rfl | htree := List.mem_cons.mp htree
    · exact ⟨hstart, le_of_areNested rest hrest⟩
    · have hle := start_le_stop first hfirst
      have hspan := ih hrest htree
      omega

end Tree

namespace TextUnit

/-- A unit's text stands at the unit's bytes, and it starts and ends with no blank. -/
structure Stands (content : List Char) (unit : TextUnit) : Prop where
  slice : slice? content unit.span.start unit.span.stop = some unit.text
  solid : Solid isBlank unit.text

theorem Stands.start_lt_stop {content : List Char} {unit : TextUnit} (h : Stands content unit) :
    unit.span.start < unit.span.stop := by
  obtain ⟨front, back, -, hfront, hstop⟩ := of_slice? h.slice
  have hpos := size_pos_of_ne_nil h.solid.ne_nil
  omega

/-- A unit stands within the stretch that it is made of. -/
theorem of_ofSpan? {content : List Char} {kind : Node.Kind} {label : Label} {above : List Label}
    {span : Span} {unit : TextUnit} (h : ofSpan? content kind label above span = some unit) :
    Stands content unit ∧ span.start ≤ unit.span.start ∧ unit.span.stop ≤ span.stop := by
  unfold ofSpan? at h
  split at h
  · simp at h
  · rename_i raw hraw
    obtain ⟨front, back, hcontent, hfront, hstop⟩ := of_slice? hraw
    obtain ⟨before, hstart, -⟩ := stripStart_append_stripped isBlank raw
    obtain ⟨after, hend, -⟩ := stripEnd_append_stripped isBlank (stripStart isBlank raw)
    change stripStart isBlank raw = trim raw ++ after at hend
    -- The unit starts behind the blanks in front of the text.
    have hbefore : size raw - size (stripStart isBlank raw) = size before := by
      have hsize := congrArg size hstart
      rw [size_append] at hsize
      omega
    have hsplit : content = (front ++ before) ++ trim raw ++ (after ++ back) := by
      rw [List.append_assoc, List.append_assoc, ← List.append_assoc (trim raw), ← hend,
        ← List.append_assoc before, ← hstart, ← List.append_assoc]
      exact hcontent
    have hsize : size raw = size before + size (trim raw) + size after := by
      have hraw := congrArg size hstart
      rw [hend, size_append, size_append] at hraw
      omega
    dsimp only at h
    rw [hbefore] at h
    split at h
    · simp at h
    · rename_i hempty
      obtain rfl := Option.some.inj h
      have hslice := slice?_append (front ++ before) (trim raw) (after ++ back)
      rw [← hsplit, size_append, hfront] at hslice
      refine ⟨⟨hslice, strip_solid fun hnil => hempty ?_⟩, Nat.le_add_right _ _, ?_⟩
      · exact List.isEmpty_iff.mpr hnil
      · show span.start + size before + size (trim raw) ≤ span.stop
        omega

theorem betweenQuotes_le (source : List Char) : (betweenQuotes source).stop ≤ size source := by
  have htail : size (source.reverse.dropWhile fun c => !isQuote c) ≤ size source := by
    obtain ⟨front, hsplit, -⟩ := stripStart_append_stripped (fun c => !isQuote c) source.reverse
    have hsize := congrArg size hsplit
    rw [size_reverse, size_append] at hsize
    unfold stripStart at hsize
    omega
  unfold betweenQuotes
  dsimp only
  split
  · show _ - 1 ≤ _
    omega
  · exact Nat.le_refl _

theorem innerSpan_within (content : List Char) {label : Label} {children : List Tree}
    (h : Tree.areNested label.span.start label.span.stop children = true) :
    label.span.start ≤ (innerSpan content label children).start ∧
      (innerSpan content label children).stop ≤ label.span.stop := by
  -- The parts between the quotes are children, so they lie inside.
  have hspan : ∀ part ∈ (children.map Tree.label).filter isStringContent,
      label.span.start ≤ part.span.start ∧ part.span.stop ≤ label.span.stop := by
    intro part hpart
    obtain ⟨tree, htree, rfl⟩ := List.mem_map.mp (List.mem_filter.mp hpart).1
    exact Tree.span_of_areNested h htree
  unfold innerSpan
  dsimp only
  split
  · rename_i first last hfirst hlast
    exact ⟨(hspan first (List.mem_of_mem_head? hfirst)).1,
      (hspan last (List.mem_of_getLast? hlast)).2⟩
  · split
    · rename_i source hsource
      obtain ⟨front, back, -, hfront, hstop⟩ := of_slice? hsource
      have hquotes := betweenQuotes_le source
      refine ⟨Nat.le_add_right _ _, ?_⟩
      show label.span.start + _ ≤ _
      omega
    · exact ⟨Nat.le_refl _, Nat.le_refl _⟩

theorem of_ofString? {content : List Char} {label : Label} {above : List Label}
    {children : List Tree} {unit : TextUnit}
    (hnested : Tree.areNested label.span.start label.span.stop children = true)
    (h : ofString? content label above children = some unit) :
    Stands content unit ∧ label.span.start ≤ unit.span.start ∧
      unit.span.stop ≤ label.span.stop := by
  obtain ⟨hstart, hstop⟩ := innerSpan_within content hnested
  have hunit : ∃ kind, ofSpan? content kind label above (innerSpan content label children) =
      some unit := by
    unfold ofString? at h
    dsimp only at h
    split at h
    · exact ⟨_, h⟩
    · exact ⟨_, (Option.filter_eq_some_iff.mp h).1⟩
  obtain ⟨kind, hkind⟩ := hunit
  obtain ⟨hstands, hfrom, hto⟩ := of_ofSpan? hkind
  exact ⟨hstands, Nat.le_trans hstart hfrom, Nat.le_trans hto hstop⟩

/-- Units that stand one after another between two offsets. -/
structure AreLaid (content : List Char) (start stop : Nat) (units : List TextUnit) : Prop where
  stands : ∀ unit ∈ units, Stands content unit
  ascend : Ascend start stop (units.map (·.span))

theorem AreLaid.nil {content : List Char} {start stop : Nat} (h : start ≤ stop) :
    AreLaid content start stop [] := ⟨nofun, h⟩

theorem AreLaid.append {content : List Char} {start mid stop : Nat} {units more : List TextUnit}
    (h : AreLaid content start mid units) (hmore : AreLaid content mid stop more) :
    AreLaid content start stop (units ++ more) := by
  refine ⟨fun unit hunit => ?_, ?_⟩
  · obtain hunit | hunit := List.mem_append.mp hunit
    · exact h.stands unit hunit
    · exact hmore.stands unit hunit
  · rw [List.map_append]
    exact h.ascend.append hmore.ascend

theorem AreLaid.of_option {content : List Char} {span : Span} {unit? : Option TextUnit}
    (hspan : span.start ≤ span.stop)
    (h : ∀ unit, unit? = some unit → Stands content unit ∧ span.start ≤ unit.span.start ∧
      unit.span.stop ≤ span.stop) : AreLaid content span.start span.stop unit?.toList := by
  cases unit? with
  | none => exact .nil hspan
  | some unit =>
    obtain ⟨hstands, hstart, hstop⟩ := h unit rfl
    refine ⟨fun other hother => ?_, ⟨hstart, hstands.start_lt_stop, hstop⟩⟩
    rw [List.mem_singleton.mp hother]
    exact hstands

mutual

theorem areLaid_ofTree (content : List Char) (above : List Label) : (tree : Tree) →
    tree.isNested = true →
    AreLaid content tree.label.span.start tree.label.span.stop (ofTree content above tree)
  | .node label children, h => by
    have hle := Tree.start_le_stop _ h
    rw [Tree.isNested] at h
    show AreLaid content label.span.start label.span.stop _
    rw [ofTree]
    split
    · exact .of_option hle fun unit hunit => of_ofSpan? hunit
    split
    · exact .of_option hle fun unit hunit => of_ofSpan? hunit
    split
    · exact .of_option hle fun unit hunit => of_ofString? h hunit
    split
    · exact .nil hle
    · exact areLaid_ofTrees content (label :: above) children h

theorem areLaid_ofTrees (content : List Char) (above : List Label) {start stop : Nat} :
    (trees : List Tree) → Tree.areNested start stop trees = true →
    AreLaid content start stop (ofTrees content above trees)
  | [], h => .nil (Tree.le_of_areNested [] h)
  | tree :: rest, h => by
    obtain ⟨hstart, htree, hrest⟩ := Tree.areNested_cons h
    obtain ⟨hstands, hascend⟩ := areLaid_ofTree content above tree htree
    have hlater := areLaid_ofTrees content above rest hrest
    rw [ofTrees]
    exact AreLaid.append ⟨hstands, hascend.of_le hstart⟩ hlater

end

/-! ## Kinds of units -/

theorem kind_of_ofSpan? {content : List Char} {kind : Node.Kind} {label : Label}
    {above : List Label} {span : Span} {unit : TextUnit}
    (h : ofSpan? content kind label above span = some unit) : unit.kind = kind := by
  unfold ofSpan? at h
  split at h
  · simp at h
  · dsimp only at h
    split at h
    · simp at h
    · obtain rfl := Option.some.inj h
      rfl

theorem kind_of_ofString? {content : List Char} {label : Label} {above : List Label}
    {children : List Tree} {unit : TextUnit}
    (h : ofString? content label above children = some unit) : unit.kind ≠ .fragmented := by
  unfold ofString? at h
  dsimp only at h
  split at h
  · rw [kind_of_ofSpan? h]
    decide
  · rw [kind_of_ofSpan? (Option.filter_eq_some_iff.mp h).1]
    decide

mutual

/-- A unit stands on its own, whatever it is made of. -/
theorem kind_of_mem_ofTree {content : List Char} {above : List Label} {unit : TextUnit} :
    (tree : Tree) → unit ∈ ofTree content above tree → unit.kind ≠ .fragmented
  | .node label children, h => by
    rw [ofTree] at h
    split at h
    · rw [kind_of_ofSpan? (Option.mem_toList.mp h)]
      decide
    split at h
    · rw [kind_of_ofSpan? (Option.mem_toList.mp h)]
      decide
    split at h
    · exact kind_of_ofString? (Option.mem_toList.mp h)
    split at h
    · simp at h
    · exact kind_of_mem_ofTrees children h

theorem kind_of_mem_ofTrees {content : List Char} {above : List Label} {unit : TextUnit} :
    (trees : List Tree) → unit ∈ ofTrees content above trees → unit.kind ≠ .fragmented
  | [], h => by simp [ofTrees] at h
  | tree :: rest, h => by
    rw [ofTrees] at h
    exact (List.mem_append.mp h).elim (kind_of_mem_ofTree tree) (kind_of_mem_ofTrees rest)

end

end TextUnit

end Rephrase
