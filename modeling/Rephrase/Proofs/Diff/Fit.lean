import Rephrase.Proofs.Diff.Hunk
import Rephrase.Proofs.Diff.Writing

/-! A hunk that is written for some lines has the lines of both sides, keeps few of them around its
changes, and names in its header where they are. -/

namespace Rephrase.Diff

variable {old new : Array String} {keeps keeps' : Bool} {i j i' j' : Nat}

/-! ## Slices -/

theorem length_slice {lines : Array String} {i n : Nat} (h : i + n ≤ lines.size) :
    (slice lines ⟨i, n⟩).length = n := by
  rw [slice, List.length_take, List.length_drop, Array.length_toList]
  dsimp only
  omega

theorem slice_zero (lines : Array String) (i : Nat) : slice lines ⟨i, 0⟩ = [] := List.take_zero

theorem slice_append (lines : Array String) {i n stop : Nat} (h : i + n ≤ stop) :
    slice lines ⟨i, n⟩ ++ slice lines ⟨i + n, stop - (i + n)⟩ = slice lines ⟨i, stop - i⟩ := by
  have hlength : stop - i = n + (stop - (i + n)) := by omega
  rw [slice, slice, slice, hlength, List.take_add, List.drop_drop]

theorem slice_of_same {n : Nat} (h : Same old new i j n) : slice old ⟨i, n⟩ = slice new ⟨j, n⟩ := by
  refine List.ext_getElem? fun k => ?_
  rw [slice, slice, List.getElem?_take, List.getElem?_take]
  split
  · rename_i hk
    rw [List.getElem?_drop, List.getElem?_drop, Array.getElem?_toList, Array.getElem?_toList]
    exact h k hk
  · rfl

/-! ## The lines of both sides -/

theorem linesOn_append (side : Side) (lines more : List Line) :
    linesOn side (lines ++ more) = linesOn side lines ++ linesOn side more := by
  rw [linesOn, List.filter_append, List.map_append]
  rfl

theorem linesOn_map (side s : Side) (texts : List String) :
    linesOn side (texts.map (Line.mk s)) = if s = .both ∨ s = side then texts else [] := by
  induction texts with
  | nil => split <;> rfl
  | cons text texts ih =>
    rw [List.map_cons, linesOn, List.filter_cons]
    unfold linesOn at ih
    split at ih <;> simp_all

theorem linesOn_keep {n : Nat} (hsame : Same old new i j n) :
    linesOn .old ((Step.keep i j n).lines old new) = slice old ⟨i, n⟩ ∧
      linesOn .new ((Step.keep i j n).lines old new) = slice new ⟨j, n⟩ := by
  rw [Step.lines_of_keep rfl, linesOn_map, linesOn_map, ← slice_of_same hsame]
  exact ⟨rfl, rfl⟩

theorem linesOn_change (old new : Array String) {step : Step} (h : step.Changes i j) :
    linesOn .old (step.lines old new) = slice old ⟨i, step.old.length⟩ ∧
      linesOn .new (step.lines old new) = slice new ⟨j, step.new.length⟩ := by
  rw [Step.lines_of_change h.kind_ne, linesOn_append, linesOn_append, linesOn_map, linesOn_map,
    linesOn_map, linesOn_map]
  cases h with
  | remove => simp [slice_zero]
  | add => simp [slice_zero]
  | replace => simp

theorem IsShown.le {steps : List Step} (h : IsShown old new keeps i j steps keeps' i' j') :
    i ≤ i' ∧ j ≤ j' := by
  induction h with
  | nil => exact ⟨Nat.le_refl _, Nat.le_refl _⟩
  | keep _ _ _ ih => exact ⟨Nat.le_of_add_right_le ih.1, Nat.le_of_add_right_le ih.2⟩
  | change _ _ ih => exact ⟨Nat.le_of_add_right_le ih.1, Nat.le_of_add_right_le ih.2⟩

/-- The lines of steps on either side are those between their places. -/
theorem linesOn_steps {steps : List Step} (h : IsShown old new keeps i j steps keeps' i' j') :
    linesOn .old (steps.flatMap (Step.lines old new)) = slice old ⟨i, i' - i⟩ ∧
      linesOn .new (steps.flatMap (Step.lines old new)) = slice new ⟨j, j' - j⟩ := by
  induction h with
  | nil => simp [slice_zero, linesOn]
  | keep _ hsame hrest ih =>
    obtain ⟨hold, hnew⟩ := linesOn_keep hsame
    rw [List.flatMap_cons, linesOn_append, linesOn_append, hold, hnew, ih.1, ih.2,
      slice_append old hrest.le.1, slice_append new hrest.le.2]
    exact ⟨rfl, rfl⟩
  | change hstep hrest ih =>
    obtain ⟨hold, hnew⟩ := linesOn_change old new hstep
    rw [List.flatMap_cons, linesOn_append, linesOn_append, hold, hnew, ih.1, ih.2,
      slice_append old hrest.le.1, slice_append new hrest.le.2]
    exact ⟨rfl, rfl⟩

/-! ## Lines around changes -/

/-- Whether a line is changed. -/
def Line.IsChanged (line : Line) : Prop := line.side ≠ .both

instance (line : Line) : Decidable line.IsChanged := inferInstanceAs (Decidable (_ ≠ _))

/-- Whether a changed line is near to an index in a hunk: as near as the context reaches. -/
def HasNear (lines : List Line) (k : Nat) : Prop :=
  ∃ l, l ≤ k + contextLines ∧ k ≤ l + contextLines ∧ ∃ line ∈ lines[l]?, line.IsChanged

theorem HasNear.behind {front lines : List Line} {k : Nat} (hk : front.length ≤ k)
    (h : HasNear lines (k - front.length)) : HasNear (front ++ lines) k := by
  obtain ⟨l, hle, hge, line, hline, hchanged⟩ := h
  refine ⟨front.length + l, by omega, by omega, line, ?_, hchanged⟩
  rwa [List.getElem?_append_right (Nat.le_add_right _ _), Nat.add_sub_cancel_left]

theorem HasNear.of_getElem? {lines : List Line} {k l : Nat} {line : Line}
    (hline : lines[l]? = some line) (hchanged : line.IsChanged) (hle : l ≤ k + contextLines)
    (hge : k ≤ l + contextLines) : HasNear lines k :=
  ⟨l, hle, hge, line, hline, hchanged⟩

theorem Step.Changes.isChanged {step : Step} (h : step.Changes i j) {line : Line}
    (hline : line ∈ step.lines old new) : line.IsChanged := by
  rw [lines_of_change h.kind_ne, List.mem_append] at hline
  obtain hline | hline := hline
  · obtain ⟨text, -, rfl⟩ := List.mem_map.mp hline
    nofun
  · obtain ⟨text, -, rfl⟩ := List.mem_map.mp hline
    nofun

theorem Step.Changes.length_lines_pos {step : Step} (h : step.Changes i j)
    (hi : i + step.old.length ≤ old.size) (hj : j + step.new.length ≤ new.size) :
    0 < (step.lines old new).length := by
  rw [lines_of_change h.kind_ne, List.length_append, List.length_map, List.length_map]
  cases h with
  | remove hpos => exact Nat.add_pos_left (length_slice hi ▸ hpos) _
  | add hpos => exact Nat.add_pos_right _ (length_slice hj ▸ hpos)
  | replace hold hnew => exact Nat.add_pos_left (length_slice hi ▸ hold) _

theorem length_lines_keep {n : Nat} (hi : i + n ≤ old.size) :
    ((Step.keep i j n).lines old new).length = n := by
  rw [Step.lines_of_keep rfl, List.length_map]
  exact length_slice hi

theorem lines_keep_ne_nil (new : Array String) (j : Nat) {n : Nat} (hpos : 0 < n)
    (hi : i + n ≤ old.size) : (Step.keep i j n).lines old new ≠ [] := by
  apply List.length_pos_iff.mp
  rwa [length_lines_keep hi]

/-- Whether steps keep few lines between changes, and fewer at an end where no change is beyond;
`behind` says whether one is in front of the first step. -/
structure KeepsFew (behind : Bool) (steps : List Step) : Prop where
  short : ∀ step ∈ steps, step.kind = .keep → step.old.length ≤ 2 * contextLines
  first : behind = false → ∀ step ∈ steps.head?, step.kind = .keep →
    step.old.length ≤ contextLines ∧ steps.tail ≠ []
  last : ∀ step ∈ steps.getLast?, step.kind = .keep → step.old.length ≤ contextLines

namespace KeepsFew

variable {step : Step} {steps : List Step} {behind : Bool}

theorem behind_change (h : KeepsFew behind (step :: steps)) : KeepsFew true steps where
  short := (List.forall_mem_cons.mp h.short).2
  first := nofun
  last last hlast := h.last last (List.mem_getLast?_cons hlast)

theorem behind_keep (h : KeepsFew behind (step :: steps))
    (hrest : IsShown old new false i j steps keeps' i' j') : KeepsFew false steps where
  short := (List.forall_mem_cons.mp h.short).2
  first _ first hfirst hkeep := by
    cases hrest with
    | nil => cases hfirst
    | change hchange =>
      obtain rfl := Option.some.inj hfirst
      exact absurd hkeep hchange.kind_ne
  last last hlast := h.last last (List.mem_getLast?_cons hlast)

end KeepsFew

/-- Kept lines are near to the change behind them, or to the one in front of them. -/
theorem near_keep {steps : List Step} {behind : Bool} {n k : Nat}
    (hfew : KeepsFew behind (.keep i j n :: steps))
    (hrest : IsShown old new false (i + n) (j + n) steps keeps' i' j') (hi : i' ≤ old.size)
    (hj : j' ≤ new.size) (hk : k < n) :
    HasNear ((Step.keep i j n).lines old new ++ steps.flatMap (Step.lines old new)) k ∨
      behind = true ∧ k < contextLines := by
  have hlength : ((Step.keep i j n).lines old new).length = n :=
    length_lines_keep (Nat.le_trans hrest.le.1 hi)
  have hfirst := fun hbehind => hfew.first hbehind _ rfl rfl
  have hshort : n ≤ 2 * contextLines := hfew.short _ List.mem_cons_self rfl
  cases hrest with
  | nil =>
    have hlast : n ≤ contextLines := hfew.last _ rfl rfl
    cases behind with
    | false => exact absurd rfl (hfirst rfl).2
    | true => exact .inr ⟨rfl, Nat.lt_of_lt_of_le hk hlast⟩
  | @change _ _ _ _ _ step steps hstep hrest =>
    have hpos : 0 < (step.lines old new).length :=
      hstep.length_lines_pos (Nat.le_trans hrest.le.1 hi) (Nat.le_trans hrest.le.2 hj)
    by_cases hnear : n ≤ k + contextLines
    · refine .inl (.of_getElem? ?_ (hstep.isChanged (List.getElem_mem hpos)) hnear (by omega))
      rw [List.getElem?_append_right (Nat.le_of_eq hlength), hlength, Nat.sub_self,
        List.flatMap_cons, List.getElem?_append_left hpos]
      exact List.getElem?_eq_getElem hpos
    · cases behind with
      | false => exact absurd (Nat.le_trans (hfirst rfl).1 (Nat.le_add_left _ _)) hnear
      | true => exact .inr ⟨rfl, by omega⟩

/-- Every line of steps that keep few lines is near to a change; the change may also be in front of
the first line. -/
theorem near_steps {steps : List Step} {behind : Bool} (hfew : KeepsFew behind steps)
    (h : IsShown old new keeps i j steps keeps' i' j') (hi : i' ≤ old.size) (hj : j' ≤ new.size)
    {k : Nat} (hk : k < (steps.flatMap (Step.lines old new)).length) :
    HasNear (steps.flatMap (Step.lines old new)) k ∨ behind = true ∧ k < contextLines := by
  induction h generalizing behind k with
  | nil => exact absurd hk (Nat.not_lt_zero k)
  | @keep i j n i' j' _ steps hpos hsame hrest ih =>
    have hlength : ((Step.keep i j n).lines old new).length = n :=
      length_lines_keep (Nat.le_trans hrest.le.1 hi)
    rw [List.flatMap_cons] at hk ⊢
    by_cases hkn : k < n
    · exact near_keep hfew hrest hi hj hkn
    rw [← hlength] at hkn
    rw [List.length_append] at hk
    obtain hnear | ⟨hbehind, -⟩ := ih (hfew.behind_keep hrest) hi hj
      (Nat.sub_lt_left_of_lt_add (Nat.le_of_not_lt hkn) hk)
    · exact .inl (hnear.behind (Nat.le_of_not_lt hkn))
    · cases hbehind
  | @change i j i' j' _ step steps hstep hrest ih =>
    have hpos : 0 < (step.lines old new).length :=
      hstep.length_lines_pos (Nat.le_trans hrest.le.1 hi) (Nat.le_trans hrest.le.2 hj)
    rw [List.flatMap_cons] at hk ⊢
    refine .inl ?_
    by_cases hks : k < (step.lines old new).length
    · exact .of_getElem? (List.getElem?_append_left hks ▸ List.getElem?_eq_getElem hks)
        (hstep.isChanged (List.getElem_mem hks)) (Nat.le_add_right _ _) (Nat.le_add_right _ _)
    rw [List.length_append] at hk
    obtain hnear | ⟨-, hbehind⟩ := ih hfew.behind_change hi hj
      (Nat.sub_lt_left_of_lt_add (Nat.le_of_not_lt hks) hk)
    · exact hnear.behind (Nat.le_of_not_lt hks)
    -- The last line of this change is near to the first ones behind it.
    · have hpred : (step.lines old new).length - 1 < (step.lines old new).length := by omega
      exact .of_getElem? (List.getElem?_append_left hpred ▸ List.getElem?_eq_getElem hpred)
        (hstep.isChanged (List.getElem_mem hpred)) (by omega) (by omega)

/-! ## Headers -/

/-- Whether lines that start with changed ones have one of these on a side. -/
def Touches (side : Side) (lines : List Line) : Prop :=
  (∃ line ∈ lines.head?, line.IsChanged) →
    ∃ line ∈ lines.takeWhile fun line => line.IsChanged, line.side = side

instance (side : Side) (lines : List Line) : Decidable (Touches side lines) :=
  inferInstanceAs (Decidable (_ → _))

theorem exists_of_touches {side : Side} {lines more : List Line} (hne : lines ≠ [])
    (hchanged : ∀ line ∈ lines, line.IsChanged) (hmore : ∀ line ∈ more.head?, ¬ line.IsChanged)
    (h : Touches side (lines ++ more)) : ∃ line ∈ lines, line.side = side := by
  have hrun : ((lines ++ more).takeWhile fun line => line.IsChanged) = lines := by
    rw [List.takeWhile_append_of_pos fun line hline => decide_eq_true (hchanged line hline)]
    cases more with
    | nil => rw [List.takeWhile_nil, List.append_nil]
    | cons line more =>
      rw [List.takeWhile_cons_of_neg (by simpa using hmore line rfl), List.append_nil]
  unfold Touches at h
  rw [hrun] at h
  obtain ⟨line, lines, rfl⟩ := List.exists_cons_of_ne_nil hne
  exact h ⟨line, rfl, hchanged line List.mem_cons_self⟩

theorem Step.Changes.start {step : Step} (h : step.Changes i j) :
    ((∃ line ∈ step.lines old new, line.side = .old) → step.old.start = i) ∧
      ((∃ line ∈ step.lines old new, line.side = .new) → step.new.start = j) := by
  rw [lines_of_change h.kind_ne]
  cases h with
  | remove => simp [slice_zero]
  | add => simp [slice_zero]
  | replace => simp

theorem not_isChanged_of_mem_keep {n : Nat} {line : Line}
    (hline : line ∈ (Step.keep i j n).lines old new) : ¬ line.IsChanged := by
  rw [Step.lines_of_keep rfl] at hline
  obtain ⟨text, -, rfl⟩ := List.mem_map.mp hline
  exact fun h => h rfl

/-- Where it is the turn of kept lines, the next line is not changed. -/
theorem not_isChanged_head {steps : List Step} (h : IsShown old new true i j steps keeps' i' j')
    (hi : i' ≤ old.size) {line : Line}
    (hline : line ∈ (steps.flatMap (Step.lines old new)).head?) : ¬ line.IsChanged := by
  cases h with
  | nil => cases hline
  | @keep _ _ n _ _ _ steps hpos _ hrest =>
    have hne := lines_keep_ne_nil new j hpos (Nat.le_trans hrest.le.1 hi)
    rw [List.flatMap_cons, List.head?_append_of_ne_nil _ hne] at hline
    exact not_isChanged_of_mem_keep (List.mem_of_head? hline)

/-- Where it is the turn of a change, the line in front is not changed. -/
theorem not_isChanged_getLast {steps : List Step}
    (h : IsShown old new keeps i j steps false i' j') (hi : i' ≤ old.size) {line : Line}
    (hline : line ∈ (steps.flatMap (Step.lines old new)).getLast?) : ¬ line.IsChanged := by
  obtain rfl | ⟨front, last, rfl⟩ := List.eq_nil_or_concat steps
  · cases hline
  rw [List.concat_eq_append] at h hline
  obtain ⟨keeps'', a, b, -, hlast⟩ := h.of_concat
  cases hlast with
  | @keep _ _ n _ _ _ _ hpos _ hnil =>
    have hne := lines_keep_ne_nil new b hpos (Nat.le_trans hnil.le.1 hi)
    rw [List.flatMap_append, List.flatMap_singleton, List.getLast?_append_of_ne_nil _ hne] at hline
    exact not_isChanged_of_mem_keep (List.mem_of_getLast? hline)
  | change _ hnil => cases hnil

theorem start_of_touches {step : Step} {steps : List Step}
    (h : IsShown old new keeps i j (step :: steps) keeps' i' j') (hi : i' ≤ old.size)
    (hj : j' ≤ new.size) :
    (Touches .old ((step :: steps).flatMap (Step.lines old new)) → step.old.start = i) ∧
      (Touches .new ((step :: steps).flatMap (Step.lines old new)) → step.new.start = j) := by
  cases h with
  | keep => exact ⟨fun _ => rfl, fun _ => rfl⟩
  | change hstep hrest =>
    have hpos := hstep.length_lines_pos (Nat.le_trans hrest.le.1 hi) (Nat.le_trans hrest.le.2 hj)
    have htouch : ∀ side, Touches side
        (step.lines old new ++ steps.flatMap (Step.lines old new)) →
        ∃ line ∈ step.lines old new, line.side = side := fun side =>
      exists_of_touches (List.length_pos_iff.mp hpos) (fun line => hstep.isChanged) fun line =>
        not_isChanged_head hrest hi
    rw [List.flatMap_cons]
    exact ⟨fun h => hstep.start.1 (htouch .old h), fun h => hstep.start.2 (htouch .new h)⟩

theorem stop_of_touches {step : Step} {steps : List Step}
    (h : IsShown old new keeps i j (steps ++ [step]) keeps' i' j') (hi : i' ≤ old.size)
    (hj : j' ≤ new.size) :
    (Touches .old ((steps ++ [step]).flatMap (Step.lines old new)).reverse → step.old.stop = i') ∧
      (Touches .new ((steps ++ [step]).flatMap (Step.lines old new)).reverse →
        step.new.stop = j') := by
  obtain ⟨keeps'', a, b, hfront, hlast⟩ := h.of_concat
  cases hlast with
  | keep _ _ hnil =>
    cases hnil
    exact ⟨fun _ => rfl, fun _ => rfl⟩
  | change hstep hnil =>
    cases hnil
    have hpos := hstep.length_lines_pos hi hj
    have hne : (step.lines old new).reverse ≠ [] :=
      List.reverse_ne_nil_iff.mpr (List.length_pos_iff.mp hpos)
    have hkept : ∀ line ∈ (steps.flatMap (Step.lines old new)).reverse.head?, ¬ line.IsChanged :=
      fun line hline => not_isChanged_getLast hfront (Nat.le_of_add_right_le hi)
        (List.head?_reverse ▸ hline)
    -- What touches the end is in the last step, as the one in front of it is kept.
    have htouch : ∀ side, Touches side
        ((step.lines old new).reverse ++ (steps.flatMap (Step.lines old new)).reverse) →
        ∃ line ∈ step.lines old new, line.side = side := by
      intro side h
      obtain ⟨line, hline, hside⟩ := exists_of_touches hne
        (fun line hline => hstep.isChanged (List.mem_reverse.mp hline)) hkept h
      exact ⟨line, List.mem_reverse.mp hline, hside⟩
    rw [List.flatMap_append, List.flatMap_singleton, List.reverse_append, Stretch.stop,
      Stretch.stop]
    exact ⟨fun h => congrArg (· + _) (hstep.start.1 (htouch .old h)),
      fun h => congrArg (· + _) (hstep.start.2 (htouch .new h))⟩

/-! ## Hunks -/

/-- Whether a range in the header of a hunk is right about a side, as far as the hunk has lines of
that side, or of both, at its ends. -/
structure Stretch.Names (range : Stretch) (side : Side) (lines : List Line) (place : Nat) :
    Prop where
  start : Touches side lines → range.start = place
  length : Touches side lines → Touches side lines.reverse →
    range.length = (linesOn side lines).length
  stop : Touches side lines.reverse → range.length = (linesOn side lines).length →
    range.start = place

/-- Whether a hunk tells about the lines behind two places: it changes some, keeps none that is far
from a change, and names where it is. -/
structure Hunk.Fits (i j : Nat) (hunk : Hunk) : Prop where
  changed : ∃ line ∈ hunk.lines, line.IsChanged
  near : ∀ k < hunk.lines.length, HasNear hunk.lines k
  old : hunk.old.Names .old hunk.lines i
  new : hunk.new.Names .new hunk.lines j

theorem linesOn_pos {side : Side} {line : Line} {lines : List Line} (h : line ∈ lines)
    (hside : line.side = .both ∨ line.side = side) : 0 < (linesOn side lines).length := by
  rw [linesOn, List.length_map]
  exact List.length_pos_of_mem (List.mem_filter.mpr ⟨h, by simpa using hside⟩)

theorem linesOn_pos_of_touches {side : Side} {lines : List Line} (hne : lines ≠ [])
    (h : Touches side lines.reverse) : 0 < (linesOn side lines).length := by
  obtain ⟨last, front, hback⟩ := List.exists_cons_of_ne_nil (List.reverse_ne_nil_iff.mpr hne)
  rw [hback] at h
  have hmem : ∀ line ∈ last :: front, line ∈ lines := fun line hline =>
    List.mem_reverse.mp (hback ▸ hline)
  by_cases hchanged : last.IsChanged
  · obtain ⟨line, hline, hside⟩ := h ⟨last, rfl, hchanged⟩
    exact linesOn_pos (hmem line (List.takeWhile_subset _ hline)) (.inr hside)
  · exact linesOn_pos (hmem last List.mem_cons_self) (.inl (not_not.mp hchanged))

theorem names_of_touches {side : Side} {lines : List Line} {place stop a b : Nat}
    (hne : lines ≠ []) (hlength : (linesOn side lines).length = stop - place)
    (hstart : Touches side lines → a = place) (hstop : Touches side lines.reverse → b = stop) :
    Stretch.Names ⟨a, b - a⟩ side lines place where
  start := hstart
  length hopens hcloses := by rw [hlength, hstart hopens, hstop hcloses]
  stop hcloses hright := by
    have hpos := linesOn_pos_of_touches hne hcloses
    have hb := hstop hcloses
    dsimp only at hright ⊢
    omega

theorem Hunk.range_ofSteps (old new : Array String) {steps : List Step} {first last : Step}
    (hfirst : steps.head? = some first) (hlast : steps.getLast? = some last) :
    (ofSteps old new steps).old = ⟨first.old.start, last.old.stop - first.old.start⟩ ∧
      (ofSteps old new steps).new = ⟨first.new.start, last.new.stop - first.new.start⟩ := by
  rw [ofSteps, hfirst, hlast]
  exact ⟨rfl, rfl⟩

theorem IsHunk.ne_nil {steps : List Step} (h : IsHunk old new i j steps i' j') : steps ≠ [] := by
  obtain ⟨step, hstep, -⟩ := h.changes
  exact List.ne_nil_of_mem hstep

theorem IsHunk.changed {steps : List Step} (h : IsHunk old new i j steps i' j')
    (hi : i' ≤ old.size) (hj : j' ≤ new.size) :
    ∃ line ∈ steps.flatMap (Step.lines old new), line.IsChanged := by
  obtain ⟨step, hstep, hchange⟩ := h.changes
  obtain ⟨keeps, keeps', hshown⟩ := h.shown
  obtain ⟨front, back, rfl⟩ := List.append_of_mem hstep
  obtain ⟨keeps'', a, b, -, hback⟩ := hshown.of_append
  cases hback with
  | keep => exact absurd rfl hchange
  | change hstep hrest =>
    have hpos := hstep.length_lines_pos (Nat.le_trans hrest.le.1 hi) (Nat.le_trans hrest.le.2 hj)
    obtain ⟨line, hline⟩ := List.exists_mem_of_length_pos hpos
    exact ⟨line, List.mem_flatMap.mpr ⟨step, by simp, hline⟩, hstep.isChanged hline⟩

theorem IsHunk.keepsFew {steps : List Step} (h : IsHunk old new i j steps i' j') :
    KeepsFew false steps where
  short := h.short
  first _ step hstep hkeep := by
    refine ⟨h.trimmed.first step hstep hkeep, fun hnil => ?_⟩
    obtain ⟨change, hchange, hkind⟩ := h.changes
    cases steps with
    | nil => cases hstep
    | cons first rest =>
      obtain rfl := Option.some.inj hstep
      rw [List.tail_cons] at hnil
      rw [hnil] at hchange
      exact hkind (List.mem_singleton.mp hchange ▸ hkeep)
  last := h.trimmed.last

theorem IsHunk.near {steps : List Step} (h : IsHunk old new i j steps i' j')
    (hi : i' ≤ old.size) (hj : j' ≤ new.size) {k : Nat}
    (hk : k < (steps.flatMap (Step.lines old new)).length) :
    HasNear (steps.flatMap (Step.lines old new)) k := by
  obtain ⟨keeps, keeps', hshown⟩ := h.shown
  obtain hnear | ⟨hbehind, -⟩ := near_steps h.keepsFew hshown hi hj hk
  · exact hnear
  · cases hbehind

theorem fits_ofSteps {steps : List Step} (h : IsHunk old new i j steps i' j') (hi : i' ≤ old.size)
    (hj : j' ≤ new.size) : (Hunk.ofSteps old new steps).Fits i j := by
  obtain ⟨keeps, keeps', hshown⟩ := h.shown
  obtain ⟨hii, hjj⟩ := hshown.le
  obtain ⟨hold, hnew⟩ := linesOn_steps hshown
  have hchanged := h.changed hi hj
  have hne := List.ne_nil_of_mem hchanged.choose_spec.1
  obtain ⟨front, last, hback⟩ := (List.eq_nil_or_concat steps).resolve_left h.ne_nil
  rw [List.concat_eq_append] at hback
  obtain ⟨first, rest, hcons⟩ := List.exists_cons_of_ne_nil h.ne_nil
  -- Where a side has no lines the range names the line in front of it, which the first and the last
  -- step tell of.
  have hopens := start_of_touches (hcons ▸ hshown) hi hj
  have hcloses := stop_of_touches (hback ▸ hshown) hi hj
  rw [← hcons] at hopens
  rw [← hback] at hcloses
  have hhead : steps.head? = some first := hcons ▸ rfl
  have hlast : steps.getLast? = some last := hback ▸ List.getLast?_concat
  obtain ⟨hold_range, hnew_range⟩ := Hunk.range_ofSteps old new hhead hlast
  constructor <;> rw [Hunk.lines_ofSteps]
  · exact hchanged
  · exact fun k => h.near hi hj
  · rw [hold_range]
    refine names_of_touches hne ?_ hopens.1 hcloses.1
    rw [hold, length_slice (by omega)]
  · rw [hnew_range]
    refine names_of_touches hne ?_ hopens.2 hcloses.2
    rw [hnew, length_slice (by omega)]

end Rephrase.Diff
