import Rephrase.Proofs.Tree.TextUnit

/-! The source that is shown with a unit, or with several, is small and holds all of their text. -/

namespace Rephrase

open Text

/-- Whether a stretch lies within another. -/
def Text.Span.IsWithin (inner outer : Span) : Prop :=
  outer.start ≤ inner.start ∧ inner.stop ≤ outer.stop

theorem Text.Span.IsWithin.trans {a b c : Span} (h : a.IsWithin b) (h' : b.IsWithin c) :
    a.IsWithin c := by
  unfold IsWithin at *
  omega

/-- A stretch that some text lies within holds a text too. -/
theorem Text.Span.IsWithin.ne_nil {content text : List Char} {inner outer : Span}
    (h : inner.IsWithin outer) (hinner : inner.start < inner.stop)
    (htext : slice? content outer.start outer.stop = some text) : text ≠ [] := by
  rintro rfl
  obtain ⟨front, back, -, hstart, hstop⟩ := of_slice? htext
  unfold IsWithin at h
  rw [size_nil] at hstop
  omega

namespace Tree

theorem of_shown? {label : Label} {span : Span} (h : shown? label = some span) :
    span = label.span ∧ span.stop - span.start ≤ maxShown := by
  unfold shown? at h
  split at h
  · rename_i hsmall
    obtain rfl := Option.some.inj h
    exact ⟨rfl, hsmall⟩
  · simp at h

/-! ## Around a stretch -/

mutual

/-- All constructs on the way to the innermost one around a stretch are around it. -/
theorem isWithin_of_mem_pathTo {stretch : Span} : (tree : Tree) → (above : List Label) →
    stretch.IsWithin tree.label.span → (∀ label ∈ above, stretch.IsWithin label.span) →
    ∀ label ∈ pathTo stretch above tree, stretch.IsWithin label.span
  | .node label children, above, htree, habove => by
    have hhere : ∀ l ∈ label :: above, stretch.IsWithin l.span :=
      List.forall_mem_cons.mpr ⟨htree, habove⟩
    rw [pathTo]
    split
    · rename_i path hpath
      exact isWithin_of_mem_pathThrough? children (label :: above) hhere hpath
    · exact hhere

theorem isWithin_of_mem_pathThrough? {stretch : Span} {path : List Label} :
    (trees : List Tree) → (above : List Label) →
    (∀ label ∈ above, stretch.IsWithin label.span) →
    pathThrough? stretch above trees = some path → ∀ label ∈ path, stretch.IsWithin label.span
  | [], _, _, h => by simp [pathThrough?] at h
  | tree :: rest, above, habove, h => by
    rw [pathThrough?] at h
    split at h
    · exact isWithin_of_mem_pathThrough? rest above habove h
    rename_i hpass
    split at h
    · rename_i hstart
      obtain rfl := Option.some.inj h
      -- A part that is not passed over does not end before the stretch.
      have hstop : ¬tree.label.span.stop < stretch.stop := by
        intro hlt
        simp [passesOver, hlt] at hpass
      exact isWithin_of_mem_pathTo tree above ⟨hstart, Nat.le_of_not_lt hstop⟩ habove
    · simp at h

end

theorem isWithin_of_commonSource? {tree : Tree} {stretch span : Span}
    (htree : stretch.IsWithin tree.label.span) (h : tree.commonSource? stretch = some span) :
    stretch.IsWithin span ∧ span.stop - span.start ≤ maxShown := by
  have hpath := isWithin_of_mem_pathTo tree [] htree nofun
  unfold commonSource? at h
  split at h
  · simp at h
  · rename_i innermost above hcons
    rw [hcons] at hpath
    dsimp only at h
    have htarget : ((innermost :: above).find? isElement).getD innermost ∈ innermost :: above := by
      cases hfind : (innermost :: above).find? isElement with
      | none => exact List.mem_cons_self
      | some element => exact List.mem_of_find?_eq_some hfind
    obtain h | ⟨-, h⟩ := Option.or_eq_some_iff.mp h
    · obtain ⟨rfl, hsmall⟩ := of_shown? h
      exact ⟨hpath _ htarget, hsmall⟩
    · obtain ⟨rfl, hsmall⟩ := of_shown? h
      exact ⟨hpath _ List.mem_cons_self, hsmall⟩

end Tree

namespace TextUnit

/-! ## Around a unit -/

/-- The source that is shown with a unit is small and holds the unit's text. -/
def IsShownAround (unit : TextUnit) : Prop :=
  ∀ span, unit.shown = some span →
    unit.span.IsWithin span ∧ span.stop - span.start ≤ Tree.maxShown

theorem of_sourceOf? {kind : Node.Kind} {label : Label} {above : List Label} {span : Span}
    (h : sourceOf? kind label above = some span) :
    ∃ around ∈ label :: above, span = around.span ∧ span.stop - span.start ≤ Tree.maxShown := by
  have hhead : ∀ around, above.head? = some around → around ∈ above :=
    fun around => List.mem_of_mem_head?
  have hfind : ∀ (p : Label → Bool) (around : Label), above.find? p = some around →
      around ∈ above := fun p around => List.mem_of_find?_eq_some
  have hor : ∀ around? : Option Label, (∀ around, around? = some around → around ∈ above) →
      (Tree.shown? (around?.getD label)).or (Tree.shown? label) = some span →
      ∃ around ∈ label :: above, span = around.span ∧ span.stop - span.start ≤ Tree.maxShown := by
    intro around? haround h
    obtain h | ⟨-, h⟩ := Option.or_eq_some_iff.mp h
    · refine ⟨around?.getD label, ?_, Tree.of_shown? h⟩
      cases around? with
      | none => exact List.mem_cons_self
      | some around => exact List.mem_cons_of_mem label (haround around rfl)
    · exact ⟨label, List.mem_cons_self, Tree.of_shown? h⟩
  unfold sourceOf? at h
  dsimp only at h
  split at h
  · exact hor _ (hfind _) h
  · exact hor _ (hfind _) h
  · exact hor _ hhead h

theorem shown_of_ofSpan? {content : List Char} {kind : Node.Kind} {label : Label}
    {above : List Label} {span : Span} {unit : TextUnit}
    (h : ofSpan? content kind label above span = some unit) :
    unit.shown = sourceOf? unit.kind label above := by
  unfold ofSpan? at h
  split at h
  · simp at h
  · dsimp only at h
    split at h
    · simp at h
    · obtain rfl := Option.some.inj h
      rfl

theorem isShownAround_of_ofSpan? {content : List Char} {kind : Node.Kind} {label : Label}
    {above : List Label} {span : Span} {unit : TextUnit} (hspan : span.IsWithin label.span)
    (habove : ∀ l ∈ above, label.span.IsWithin l.span)
    (h : ofSpan? content kind label above span = some unit) : unit.IsShownAround := by
  obtain ⟨-, hwithin⟩ := of_ofSpan? h
  have hlabel : unit.span.IsWithin label.span := Span.IsWithin.trans hwithin hspan
  intro shown hsome
  rw [shown_of_ofSpan? h] at hsome
  obtain ⟨around, haround, rfl, hsmall⟩ := of_sourceOf? hsome
  obtain rfl | haround := List.mem_cons.mp haround
  · exact ⟨hlabel, hsmall⟩
  · exact ⟨hlabel.trans (habove around haround), hsmall⟩

theorem isShownAround_of_ofString? {content : List Char} {label : Label} {above : List Label}
    {children : List Tree} {unit : TextUnit}
    (hnested : Tree.areNested label.span.start label.span.stop children = true)
    (habove : ∀ l ∈ above, label.span.IsWithin l.span)
    (h : ofString? content label above children = some unit) : unit.IsShownAround := by
  have hinner : (innerSpan content label children).IsWithin label.span :=
    innerSpan_within content hnested
  unfold ofString? at h
  dsimp only at h
  split at h
  · exact isShownAround_of_ofSpan? hinner habove h
  · exact isShownAround_of_ofSpan? hinner habove (Option.filter_eq_some_iff.mp h).1

mutual

theorem isShownAround_of_mem_ofTree {content : List Char} {unit : TextUnit} :
    (tree : Tree) → (above : List Label) → tree.isNested = true →
    (∀ l ∈ above, tree.label.span.IsWithin l.span) → unit ∈ ofTree content above tree →
    unit.IsShownAround
  | .node label children, above, hnested, habove, h => by
    have hself : label.span.IsWithin label.span := ⟨Nat.le_refl _, Nat.le_refl _⟩
    rw [Tree.isNested] at hnested
    rw [ofTree] at h
    split at h
    · exact isShownAround_of_ofSpan? hself habove (Option.mem_toList.mp h)
    split at h
    · exact isShownAround_of_ofSpan? hself habove (Option.mem_toList.mp h)
    split at h
    · exact isShownAround_of_ofString? hnested habove (Option.mem_toList.mp h)
    split at h
    · simp at h
    -- All parts lie within the construct, and with it within those around it.
    · refine isShownAround_of_mem_ofTrees children (label :: above) hnested ?_ h
      exact List.forall_mem_cons.mpr ⟨hself, habove⟩

theorem isShownAround_of_mem_ofTrees {content : List Char} {unit : TextUnit} {start stop : Nat} :
    (trees : List Tree) → (above : List Label) → Tree.areNested start stop trees = true →
    (∀ l ∈ above, Span.IsWithin ⟨start, stop⟩ l.span) → unit ∈ ofTrees content above trees →
    unit.IsShownAround
  | [], _, _, _, h => by simp [ofTrees] at h
  | tree :: rest, above, hnested, habove, h => by
    obtain ⟨hstart, htree, hrest⟩ := Tree.areNested_cons hnested
    have hle := Tree.start_le_stop tree htree
    have hstop := Tree.le_of_areNested rest hrest
    rw [ofTrees] at h
    obtain h | h := List.mem_append.mp h
    · refine isShownAround_of_mem_ofTree tree above htree (fun l hl => ?_) h
      exact Span.IsWithin.trans ⟨hstart, hstop⟩ (habove l hl)
    -- The parts behind it lie between its end and the end of them all.
    · have hwithin : Span.IsWithin ⟨tree.label.span.stop, stop⟩ ⟨start, stop⟩ :=
        ⟨Nat.le_trans hstart hle, Nat.le_refl stop⟩
      exact isShownAround_of_mem_ofTrees rest above hrest
        (fun l hl => hwithin.trans (habove l hl)) h

end

end TextUnit

end Rephrase
