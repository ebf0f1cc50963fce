import Rephrase.Proofs.Diff.Fit

/-! The diff of two texts leads from one to the other and back, wherever its headers are right. -/

namespace Rephrase.Diff

/-- Whether hunks carry some lines to others, one hunk after another; the lines between the hunks
are the same. `fits` says of a hunk whether it tells about the lines behind a place on either
side. -/
inductive Carries (fits : Nat → Nat → Hunk → Prop) :
    Nat → Nat → List Hunk → List String → List String → Prop
  | nil (i j : Nat) (lines : List String) : Carries fits i j [] lines lines
  | cons {i j : Nat} {hunk : Hunk} {hunks : List Hunk} {gap old new : List String}
      (hfits : fits (i + gap.length) (j + gap.length) hunk)
      (hrest : Carries fits (i + gap.length + (hunk.on .old).length)
        (j + gap.length + (hunk.on .new).length) hunks old new) :
      Carries fits i j (hunk :: hunks) (gap ++ hunk.on .old ++ old) (gap ++ hunk.on .new ++ new)

/-! ## Hunks of a script -/

section

variable {old new : Array String} {i j i' j' : Nat}

theorem Lays.le {groups : List (List Step)} (h : Lays old new i j groups i' j') :
    i ≤ i' ∧ j ≤ j' := by
  induction h with
  | nil => exact ⟨Nat.le_add_right _ _, Nat.le_add_right _ _⟩
  | cons _ hhunk _ ih =>
    obtain ⟨keeps, keeps', hshown⟩ := hhunk.shown
    have hle := hshown.le
    omega

theorem drop_eq_slice_append (lines : Array String) {i stop : Nat} (h : i ≤ stop) :
    lines.toList.drop i = slice lines ⟨i, stop - i⟩ ++ lines.toList.drop stop := by
  have hdrop : (lines.toList.drop i).drop (stop - i) = lines.toList.drop stop := by
    rw [List.drop_drop, Nat.add_sub_cancel' h]
  rw [slice, ← hdrop, List.take_append_drop]

theorem carries_of_lays {groups : List (List Step)} (h : Lays old new i j groups i' j')
    (hi : i' = old.size) (hj : j' = new.size) :
    Carries Hunk.Fits i j (groups.map (Hunk.ofSteps old new)) (old.toList.drop i)
      (new.toList.drop j) := by
  induction h with
  -- Behind the last hunk the texts are the same up to their ends.
  | @nil i j n hsame =>
    have hlines : old.toList.drop i = new.toList.drop j := by
      rw [drop_eq_slice_append old (Nat.le_add_right i n),
        drop_eq_slice_append new (Nat.le_add_right j n), Nat.add_sub_cancel_left,
        Nat.add_sub_cancel_left, slice_of_same hsame, hi, hj, ← Array.length_toList,
        List.drop_length, ← Array.length_toList, List.drop_length]
    rw [hlines]
    exact .nil i j _
  | @cons i j n a b i' j' group groups hsame hhunk hrest ih =>
    obtain ⟨ha, hb⟩ := hrest.le
    obtain ⟨keeps, keeps', hshown⟩ := hhunk.shown
    obtain ⟨hia, hjb⟩ := hshown.le
    obtain ⟨hold, hnew⟩ := linesOn_steps hshown
    rw [← Hunk.lines_ofSteps] at hold hnew
    -- Both texts split into the lines in front of the hunk, the lines on its sides, and the rest.
    have hgap : (slice old ⟨i, n⟩).length = n := length_slice (by omega)
    have hold_length : i + n + ((Hunk.ofSteps old new group).on .old).length = a := by
      rw [Hunk.on, hold, length_slice (by omega), Nat.add_sub_cancel' hia]
    have hnew_length : j + n + ((Hunk.ofSteps old new group).on .new).length = b := by
      rw [Hunk.on, hnew, length_slice (by omega), Nat.add_sub_cancel' hjb]
    have hold_drop : old.toList.drop i = slice old ⟨i, n⟩ ++ (Hunk.ofSteps old new group).on .old ++
        old.toList.drop a := by
      rw [drop_eq_slice_append old (Nat.le_add_right i n), Nat.add_sub_cancel_left,
        drop_eq_slice_append old hia, Hunk.on, hold, List.append_assoc]
    have hnew_drop : new.toList.drop j = slice old ⟨i, n⟩ ++ (Hunk.ofSteps old new group).on .new ++
        new.toList.drop b := by
      rw [drop_eq_slice_append new (Nat.le_add_right j n), Nat.add_sub_cancel_left,
        drop_eq_slice_append new hjb, Hunk.on, hnew, slice_of_same hsame, List.append_assoc]
    rw [List.map_cons, hold_drop, hnew_drop]
    refine .cons ?_ ?_
    · rw [hgap]
      exact fits_ofSteps hhunk (hi ▸ ha) (hj ▸ hb)
    · rw [hgap, hold_length, hnew_length]
      exact ih hi hj

end

theorem Carries.eq_of_nil {fits : Nat → Nat → Hunk → Prop} {i j : Nat} {old new : List String}
    (h : Carries fits i j [] old new) : old = new := by
  cases h
  rfl

/-! ## Applying -/

/-- Whether the header of a hunk is right about both sides. -/
def Hunk.IsExact (i j : Nat) (hunk : Hunk) : Prop :=
  hunk.old = ⟨i, (hunk.on .old).length⟩ ∧ hunk.new = ⟨j, (hunk.on .new).length⟩

theorem Carries.mono {fits fits' : Nat → Nat → Hunk → Prop} {i j : Nat} {hunks : List Hunk}
    {old new : List String} (h : Carries fits i j hunks old new)
    (himp : ∀ i j, ∀ hunk ∈ hunks, fits i j hunk → fits' i j hunk) :
    Carries fits' i j hunks old new := by
  induction h with
  | nil i j lines => exact .nil i j lines
  | cons hfits _ ih =>
    exact .cons (himp _ _ _ List.mem_cons_self hfits) (ih fun i j hunk hhunk =>
      himp i j hunk (List.mem_cons_of_mem _ hhunk))

/-- Hunks with right headers lead from the lines of the old side to those of the new one. -/
theorem patchedFrom?_of_carries {i j : Nat} {hunks : List Hunk} {old new : List String}
    (h : Carries (fun i j hunk => hunk.IsExact i j) i j hunks old new) :
    patchedFrom? i j hunks old = some new := by
  induction h with
  | nil i j lines => rfl
  | @cons i j hunk hunks gap old new hexact _ ih =>
    obtain ⟨hold, hnew⟩ := hexact
    rw [patchedFrom?, hold, hnew]
    dsimp only
    rw [Nat.add_sub_cancel_left, if_pos, Stretch.stop, Stretch.stop, List.append_assoc,
      List.drop_left, List.drop_left, ih, List.take_left, Option.map_some]
    simp

theorem Side.reversed_reversed (side : Side) : side.reversed.reversed = side := by
  cases side <;> rfl

theorem linesOn_reversed (side : Side) (lines : List Line) :
    linesOn side (lines.map Line.reversed) = linesOn side.reversed lines := by
  have hmem : ∀ line : Line, (line.reversed.side = .both || line.reversed.side = side) =
      (line.side = .both || line.side = side.reversed) := by
    rintro ⟨_ | _ | _, text⟩ <;> cases side <;> rfl
  rw [linesOn, List.filter_map, List.map_map, linesOn]
  simp only [Function.comp_def, hmem]
  rfl

theorem Hunk.on_reversed (hunk : Hunk) (side : Side) :
    hunk.reversed.on side = hunk.on side.reversed := linesOn_reversed side hunk.lines

theorem Hunk.reversed_reversed (hunk : Hunk) : hunk.reversed.reversed = hunk := by
  have hlines : (hunk.lines.map Line.reversed).map Line.reversed = hunk.lines := by
    rw [List.map_map]
    refine (List.map_congr_left fun line _ => ?_).trans (List.map_id _)
    simp [Line.reversed, Side.reversed_reversed]
  exact congrArg (Hunk.mk hunk.old hunk.new) hlines

/-- What hunks carry lines to, they carry back when they are reversed. -/
theorem Carries.reversed {fits : Nat → Nat → Hunk → Prop} {i j : Nat} {hunks : List Hunk}
    {old new : List String} (h : Carries fits i j hunks old new) :
    Carries (fun i j hunk => fits j i hunk.reversed) j i (hunks.map Hunk.reversed) new old := by
  induction h with
  | nil i j lines => exact .nil j i lines
  | @cons i j hunk hunks gap old new hfits _ ih =>
    rw [List.map_cons]
    have hold : hunk.on .old = hunk.reversed.on .new := (hunk.on_reversed .new).symm
    have hnew : hunk.on .new = hunk.reversed.on .old := (hunk.on_reversed .old).symm
    rw [hold, hnew] at ih ⊢
    refine .cons ?_ ih
    rwa [Hunk.reversed_reversed]

theorem Hunk.isExact_reversed {i j : Nat} {hunk : Hunk} :
    hunk.reversed.IsExact j i ↔ hunk.IsExact i j := by
  rw [IsExact, Hunk.on_reversed, Hunk.on_reversed]
  exact And.comm

/-- Whether a range of a header can be relied on: it has as many lines as the hunk has on the side,
and the hunk does not both start and end with lines of the other side only. -/
def Stretch.IsReliable (range : Stretch) (side : Side) (lines : List Line) : Prop :=
  range.length = (linesOn side lines).length ∧
    (Touches side lines ∨ Touches side lines.reverse)

def Hunk.IsReliable (hunk : Hunk) : Prop :=
  hunk.old.IsReliable .old hunk.lines ∧ hunk.new.IsReliable .new hunk.lines

instance (range : Stretch) (side : Side) (lines : List Line) :
    Decidable (range.IsReliable side lines) := inferInstanceAs (Decidable (_ ∧ _))

instance (hunk : Hunk) : Decidable hunk.IsReliable := inferInstanceAs (Decidable (_ ∧ _))

theorem Stretch.Names.eq_of_isReliable {range : Stretch} {side : Side} {lines : List Line}
    {place : Nat} (h : range.Names side lines place) (hreliable : range.IsReliable side lines) :
    range = ⟨place, (linesOn side lines).length⟩ := by
  obtain ⟨hlength, hopens | hcloses⟩ := hreliable
  · rw [← hlength, ← h.start hopens]
  · rw [← hlength, ← h.stop hcloses hlength]

theorem Hunk.Fits.isExact {i j : Nat} {hunk : Hunk} (h : hunk.Fits i j)
    (hreliable : hunk.IsReliable) : hunk.IsExact i j :=
  ⟨h.old.eq_of_isReliable hreliable.1, h.new.eq_of_isReliable hreliable.2⟩

/-! ## Diffs -/

theorem patched?_of_carries {hunks : List Hunk} {old new : List Char}
    (h : Carries (fun i j hunk => hunk.IsExact i j) 0 0 hunks (splitLines old) (splitLines new)) :
    patched? hunks old = some new := by
  rw [patched?, patchedFrom?_of_carries h, Option.map_some, flatMap_splitLines]

theorem unified_eq_nil {path : String} {old new : List Char} :
    unified path old new = [] ↔ old = new := by
  rw [unified]
  split
  · exact ⟨fun _ => ‹_›, fun _ => rfl⟩
  · rename_i hne
    exact ⟨fun hnil => absurd hnil (by simp), fun heq => absurd heq hne⟩

theorem Lays.ne_nil {old new : Array String} {i j i' j' : Nat} {groups : List (List Step)}
    (h : Lays old new i j groups i' j') : ∀ group ∈ groups, group ≠ [] := by
  induction h with
  | nil => nofun
  | cons _ hhunk _ ih => exact List.forall_mem_cons.mpr ⟨hhunk.ne_nil, ih⟩

/-- A diff is read as hunks that carry the lines of one text to those of the other. -/
theorem read?_unified {path : String} (hpath : ∀ c ∈ path.toList, ¬ IsBreak c)
    {old new : List Char} (hne : old ≠ new) :
    ∃ hunks, read? path (unified path old new) = some hunks ∧
      Carries Hunk.Fits 0 0 hunks (splitLines old) (splitLines new) := by
  have hlays := lays_shownScript (splitLines old).toArray (splitLines new).toArray
  refine ⟨_, ?_, carries_of_lays hlays rfl rfl⟩
  rw [unified_eq hne hlays.ne_nil]
  refine read?_writtenDiff hpath fun hunk hhunk line hline => ?_
  obtain ⟨group, -, rfl⟩ := List.mem_map.mp hhunk
  exact isWhole_of_mem_ofSteps hline

/-- A diff is empty for equal texts alone. Otherwise its hunks carry the lines of the old text to
those of the new one; and where every header counts its hunk's lines and no hunk both starts and
ends with lines of one side only, the hunks can be applied in either direction. -/
theorem unified_carries {path : String} (hpath : ∀ c ∈ path.toList, ¬ IsBreak c)
    (old new : List Char) :
    (unified path old new = [] ↔ old = new) ∧
      (old ≠ new → ∃ hunks, hunks ≠ [] ∧ read? path (unified path old new) = some hunks ∧
        Carries Hunk.Fits 0 0 hunks (splitLines old) (splitLines new) ∧
        ((∀ hunk ∈ hunks, hunk.IsReliable) →
          patched? hunks old = some new ∧ patched? (hunks.map Hunk.reversed) new = some old)) := by
  refine ⟨unified_eq_nil, fun hne => ?_⟩
  obtain ⟨hunks, hread, hcarries⟩ := read?_unified hpath hne
  have hsome : hunks ≠ [] := by
    rintro rfl
    exact hne (splitLines_injective hcarries.eq_of_nil)
  refine ⟨hunks, hsome, hread, hcarries, fun hreliable => ?_⟩
  have hexact := hcarries.mono fun i j hunk hhunk hfits => hfits.isExact (hreliable hunk hhunk)
  have hback := hexact.reversed.mono fun i j hunk _ h => Hunk.isExact_reversed.mp h
  exact ⟨patched?_of_carries hexact, patched?_of_carries hback⟩

theorem unified_carries_rename : ∃ hunks,
    read? "notes.md" (unified "notes.md" "Sign in\n".toList "Log in\n".toList) = some hunks ∧
      patched? hunks "Sign in\n".toList = some "Log in\n".toList ∧
      patched? (hunks.map Hunk.reversed) "Log in\n".toList = some "Sign in\n".toList := by
  have hpath : ∀ c ∈ "notes.md".toList, ¬ IsBreak c := not_isBreak_of_mem (by decide) (by decide)
  obtain ⟨hunks, -, hread, -, happly⟩ :=
    (unified_carries hpath "Sign in\n".toList "Log in\n".toList).2 (by decide)
  refine ⟨hunks, hread, happly ?_⟩
  have hhunk : read? "notes.md" (unified "notes.md" "Sign in\n".toList "Log in\n".toList) =
      some [⟨⟨0, 1⟩, ⟨0, 1⟩, [⟨.old, "Sign in\n"⟩, ⟨.new, "Log in\n"⟩]⟩] := by cbv
  rw [hhunk] at hread
  obtain rfl := Option.some.inj hread
  decide

/-- Lines that have moved past each other leave a header that is wrong: the new side has four lines
here, and not three. -/
theorem moved_lines_misnumbered : ¬ ∀ (path : String) (old new : List Char),
    (∀ c ∈ path.toList, ¬ IsBreak c) → old ≠ new →
      ∃ hunks, read? path (unified path old new) = some hunks ∧ patched? hunks old = some new ∧
        patched? (hunks.map Hunk.reversed) new = some old := by
  intro h
  have hpath : ∀ c ∈ "q".toList, ¬ IsBreak c := not_isBreak_of_mem (by decide) (by decide)
  obtain ⟨hunks, hread, happly, -⟩ := h "q" "a\nb\nb".toList "a\na\nb\nb\n".toList hpath (by decide)
  have hhunk : read? "q" (unified "q" "a\nb\nb".toList "a\na\nb\nb\n".toList) =
      some [⟨⟨0, 3⟩, ⟨0, 3⟩, [⟨.both, "a\n"⟩, ⟨.new, "a\n"⟩, ⟨.new, "b\n"⟩, ⟨.both, "b\n"⟩,
        ⟨.old, "b"⟩]⟩] := by cbv
  rw [hhunk] at hread
  obtain rfl := Option.some.inj hread
  have hfails : patched? [⟨⟨0, 3⟩, ⟨0, 3⟩, [⟨.both, "a\n"⟩, ⟨.new, "a\n"⟩, ⟨.new, "b\n"⟩,
      ⟨.both, "b\n"⟩, ⟨.old, "b"⟩]⟩] "a\nb\nb".toList = none := by cbv
  rw [hfails] at happly
  cases happly

end Rephrase.Diff
