import Rephrase.Proofs.Edit.Footprint
import Rephrase.Proofs.Text.Squeeze

/-! A snippet that stands on a line up to its blanks is swapped for another one on the nearest such
line. The rest of that line keeps its characters and its indentation; its other runs of blanks
become single spaces, and none are left at its end. -/

namespace Rephrase.Edit

open Text

/-! ## The rest of the line -/

/-- What becomes of the front of a line. -/
def keptFront (cs : List Char) : List Char := cs.takeWhile isBlank ++ squeeze (cs.dropWhile isBlank)

/-- What becomes of the back of a line. -/
def keptBack (cs : List Char) : List Char := squeeze (stripEnd isBlank cs)

theorem keptFront_eq_self_iff {cs : List Char} :
    keptFront cs = cs ↔ IsSpaced (cs.dropWhile isBlank) := by
  rw [← squeeze_eq_self_iff, keptFront]
  conv_lhs =>
    rhs
    rw [← List.takeWhile_append_dropWhile (p := isBlank) (l := cs)]
  rw [List.append_cancel_left_eq]

theorem keptBack_eq_self_iff {cs : List Char} :
    keptBack cs = cs ↔ IsSpaced cs ∧ ∀ c ∈ cs.getLast?, isBlank c = false := by
  rw [keptBack, ← squeeze_eq_self_iff]
  constructor
  · intro h
    -- Nothing can have been taken from the end, since squeezing adds nothing.
    have hstrip : stripEnd isBlank cs = cs := by
      rcases stripEnd_append_stripped isBlank cs with ⟨tail, hsplit, -⟩
      have hle := length_squeeze_le (stripEnd isBlank cs)
      have hlength := congrArg List.length hsplit
      rw [List.length_append] at hlength
      rw [h] at hle
      have htail : tail = [] := List.eq_nil_of_length_eq_zero (by omega)
      rw [htail, List.append_nil] at hsplit
      exact hsplit.symm
    have hlast := @stripEnd_last isBlank cs
    rw [hstrip] at h hlast
    exact ⟨h, hlast⟩
  · rintro ⟨h, hlast⟩
    have hstrip := stripEnd_append [] hlast
    rw [List.append_nil] at hstrip
    rw [hstrip]
    exact (List.append_nil cs).symm ▸ h

/-- A snippet that stands in a collapsed text stands in the text, with other blanks in it. -/
theorem exists_of_collapse_eq {text old front back : List Char} (hold : collapse old ≠ [])
    (h : collapse text = front ++ collapse old ++ back) :
    ∃ u found v, text = u ++ found ++ v ∧ collapse found = collapse old ∧
      keptFront u = text.takeWhile isBlank ++ front ∧ keptBack v = back := by
  rw [collapse_eq_squeeze_trim text] at h
  have hne : trim text ≠ [] := by
    intro hnil
    rw [hnil] at h
    exact hold (List.append_eq_nil_iff.mp (List.append_eq_nil_iff.mp h.symm).1).2
  have hsolid : Solid isBlank (trim text) := strip_solid hne
  rcases stripEnd_append_stripped isBlank (text.dropWhile isBlank) with ⟨tail, htail, hblank⟩
  change text.dropWhile isBlank = trim text ++ tail at htail
  -- The collapsed text is the trimmed one with its blanks squeezed, so its parts come from parts.
  rcases exists_of_squeeze_eq_append h with ⟨most, v, hmost, hsqueeze, hv⟩
  rcases exists_of_squeeze_eq_append hsqueeze with ⟨u, found, rfl, hu, hfound⟩
  refine ⟨text.takeWhile isBlank ++ u, found, v ++ tail, ?_, ?_, ?_, ?_⟩
  · conv_lhs => rw [← List.takeWhile_append_dropWhile (p := isBlank) (l := text), htail, hmost]
    simp only [List.append_assoc]
  · rw [← collapse_squeeze found, hfound, collapse_collapse]
  · have hindent : ∀ c ∈ text.takeWhile isBlank, isBlank c = true := fun c hc =>
      List.all_eq_true.mp List.all_takeWhile c hc
    have hhead : ∀ c ∈ u.head?, isBlank c = false := by
      intro c hc
      apply hsolid.head c
      rw [hmost, List.append_assoc, List.head?_append, Option.mem_def.mp hc]
      rfl
    have hword : u.dropWhile isBlank = u := stripStart_of_head hhead
    have hnone : u.takeWhile isBlank = [] := by
      have hsplit := List.takeWhile_append_dropWhile (p := isBlank) (l := u)
      rw [hword] at hsplit
      exact List.append_left_eq_self.mp hsplit
    rw [keptFront, List.takeWhile_append_of_pos hindent, List.dropWhile_append_of_pos hindent,
      hword, hnone, List.append_nil, hu]
  · have hlast : ∀ c ∈ v.getLast?, isBlank c = false := by
      intro c hc
      apply hsolid.last c
      rw [hmost, List.getLast?_append, Option.mem_def.mp hc]
      rfl
    have hnone : stripEnd isBlank tail = [] := by
      rw [stripEnd, List.dropWhile_eq_nil_iff.mpr fun c hc => hblank c (List.mem_reverse.mp hc)]
      rfl
    rw [keptBack, stripEnd_append tail hlast, hnone, List.append_nil, hv]

/-! ## The nearest line -/

/-- A line is left alone just if the snippet does not stand on it. -/
theorem replaceCollapsed?_eq_none_iff {text target replacement : List Char} :
    replaceCollapsed? text target replacement = none ↔ ¬ target <:+: collapse text := by
  rw [← contains_iff, contains, replaceCollapsed?]
  cases hfind : find? target (collapse text) with
  | none => simp
  | some offset =>
    rcases of_findFrom hfind with ⟨front, back, hfound, hoffset⟩
    have hcut := cut?_append front (target ++ back)
    rw [← List.append_assoc, ← hfound, ← Nat.zero_add (size front), ← hoffset] at hcut
    rw [Option.bind_some, hcut]
    simp

theorem pairwise_byDistance (count target : Nat) :
    (byDistance count target).Pairwise fun a b => distance a target ≤ distance b target := by
  have hsorted : (byDistance count target).Pairwise fun a b =>
      decide (distance a target ≤ distance b target) = true := by
    apply List.pairwise_mergeSort
    · intro a b c hab hbc
      rw [decide_eq_true_eq] at *
      omega
    · intro a b
      rw [Bool.or_eq_true, decide_eq_true_eq, decide_eq_true_eq]
      omega
  exact hsorted.imp of_decide_eq_true

theorem mem_byDistance {count target place : Nat} :
    place ∈ byDistance count target ↔ place < count := by
  rw [byDistance, List.mem_mergeSort, List.mem_range]

/-- A snippet is swapped on a line, and does not stand on any nearer one. -/
structure Swaps (cs old wanted updated : List Char) (line : Nat) (before : List (List Char))
    (front found back stop : List Char) (after : List (List Char)) : Prop where
  stands : IsLine cs before (front ++ found ++ back) stop after
  same : collapse found = collapse old
  nonempty : collapse old ≠ []
  content : updated = before.flatten ++ (keptFront front ++ collapse wanted ++ keptBack back) ++
    (stop ++ after.flatten)
  nearest : ∀ {before' : List (List Char)} {text' stop' : List Char} {after' : List (List Char)},
    IsLine cs before' text' stop' after' →
      distance (before'.length + 1) line < distance (before.length + 1) line →
        ¬ collapse old <:+: collapse text'

/-- A loose replacement swaps the snippet where it stands, on the nearest line that has it. What is
in front of it on that line stays as it is if its blanks are its indentation and single spaces, and
what is behind it if its blanks are single spaces and not at its end. -/
theorem swaps_of_replaceLoosely? {cs old wanted updated : List Char} {line : Nat}
    (h : replaceLoosely? cs old wanted line = some updated) : ∃ before front found back stop after,
      Swaps cs old wanted updated line before front found back stop after ∧
      (keptFront front = front ↔ IsSpaced (front.dropWhile isBlank)) ∧
      (keptBack back = back ↔ IsSpaced back ∧ ∀ c ∈ back.getLast?, isBlank c = false) := by
  unfold replaceLoosely? at h
  dsimp only at h
  split at h
  · cases h
  rename_i htarget
  have hold : collapse old ≠ [] := mt List.isEmpty_iff.mpr htarget
  rw [replaceOnLine?_filterMap, List.findSome?_eq_some_iff] at h
  rcases h with ⟨passed, place, rest, hplaces, hhere, hpassed⟩
  have hplace : place < (lineSpans cs).length := by
    apply mem_byDistance.mp
    rw [hplaces]
    simp
  rcases exists_isLine (List.getElem?_eq_getElem hplace) with
    ⟨before, text, stop, after, hline, rfl, -, -⟩
  rw [replaceAt?_of_isLine hline, Option.map_eq_some_iff] at hhere
  rcases hhere with ⟨new, hnew, rfl⟩
  rcases of_replaceCollapsed? hnew with ⟨before', back', hfound, rfl⟩
  rcases exists_of_collapse_eq hold hfound with ⟨front, found, back, rfl, hsame, hfront, hback⟩
  refine ⟨before, front, found, back, stop, after, ⟨hline, hsame, hold, ?_, ?_⟩,
    keptFront_eq_self_iff, keptBack_eq_self_iff⟩
  · rw [hfront, hback]
  · intro above text' stop' below hother hnear
    have hindex : above.length ∈ passed ++ before.length :: rest := by
      rw [← hplaces, mem_byDistance, length_lineSpans, lines, List.length_map, hother.lines]
      simp
    rcases List.mem_append.mp hindex with hmem | hmem
    · have hnone := hpassed _ hmem
      rw [replaceAt?_of_isLine hother, Option.map_eq_none_iff] at hnone
      exact replaceCollapsed?_eq_none_iff.mp hnone
    -- All indexes from here on are at least as far away.
    · have hsorted := pairwise_byDistance (lineSpans cs).length (line - 1)
      rw [hplaces, List.pairwise_append] at hsorted
      have hfar : distance before.length (line - 1) ≤ distance above.length (line - 1) := by
        rcases List.mem_cons.mp hmem with heq | hmem
        · rw [heq]
        · exact (List.pairwise_cons.mp hsorted.2.1).1 _ hmem
      unfold distance at hfar hnear
      omega

theorem swaps_near_end : ∃ before front found back stop after,
    Swaps "Sign in\nor  Sign\tin now".toList "Sign in".toList "Log in".toList
      "Sign in\nor Log in now".toList 2 before front found back stop after := by
  have hswap : replaceLoosely? "Sign in\nor  Sign\tin now".toList "Sign in".toList
      "Log in".toList 2 = some "Sign in\nor Log in now".toList := by cbv
  rcases swaps_of_replaceLoosely? hswap with ⟨before, front, found, back, stop, after, hswaps, -⟩
  exact ⟨before, front, found, back, stop, after, hswaps⟩

/-- The two blanks in front of the snippet do not stay. -/
theorem other_blanks_lost : ¬ ∀ (cs old wanted updated : List Char) (line : Nat),
    replaceLoosely? cs old wanted line = some updated → ∃ before front found back stop after,
      IsLine cs before (front ++ found ++ back) stop after ∧ collapse found = collapse old ∧
      updated =
        before.flatten ++ (front ++ collapse wanted ++ back) ++ (stop ++ after.flatten) := by
  intro h
  have hswap : replaceLoosely? "a  b Sign  in".toList "Sign in".toList "Log in".toList 1 =
      some "a b Log in".toList := by cbv
  rcases h _ _ _ _ _ hswap with ⟨before, front, found, back, stop, after, hline, -, hupdated⟩
  have hwanted : collapse "Log in".toList = "Log in".toList := by decide
  rw [hwanted] at hupdated
  -- Both texts start with what stands in front of the snippet.
  have hcs : before.flatten ++ front <+: "a  b Sign  in".toList := by
    refine ⟨found ++ back ++ (stop ++ after.flatten), ?_⟩
    rw [hline.content]
    simp only [List.append_assoc]
  have hprefix : before.flatten ++ front ++ "Log in".toList <+: "a b Log in".toList := by
    refine ⟨back ++ (stop ++ after.flatten), ?_⟩
    rw [hupdated]
    simp only [List.append_assoc]
  generalize before.flatten ++ front = start at hcs hprefix
  have hlength : start.length ≤ 4 := by
    have hle := hprefix.length_le
    rw [List.length_append] at hle
    exact Nat.le_of_add_le_add_right hle
  have hstart := List.prefix_iff_eq_take.mp ((List.prefix_append _ _).trans hprefix)
  generalize start.length = n at hlength hstart
  subst hstart
  revert hcs hprefix
  interval_cases n <;> decide

end Rephrase.Edit
