import Mathlib.Data.List.Chain
import Mathlib.Data.List.Forall2
import Rephrase.Proofs.Phrase.Fragment
import Rephrase.Proofs.Text.Infix

/-! A phrase that is found in some units is spread over them without a word left out, and no unit
that it can start in is passed over, unless an earlier place reaches over it. -/

namespace Rephrase.Phrase.Fragments

/-! ## Words of one unit -/

/-- Whether some words of a phrase overlap those of a unit, one by one. -/
def Overlap (here run : List (List Char)) : Prop :=
  List.Forall₂ (fun w p => p <:+: w ∨ w <:+: p) here run

theorem overlaps_iff {a b : List Char} : overlaps a b = true ↔ b <:+: a ∨ a <:+: b := by
  simp [overlaps, Text.contains_iff]

theorem continued_le (unit phrase : List (List Char)) : continued unit phrase ≤ phrase.length := by
  fun_induction continued unit phrase with
  | case1 w ws p ps hover ih => simpa using ih
  | case2 => omega
  | case3 => omega

/-- A unit goes on with the phrase from its first word on. -/
theorem exists_overlap_of_continued (unit phrase : List (List Char)) :
    ∃ here after, unit = here ++ after ∧ Overlap here (phrase.take (continued unit phrase)) := by
  fun_induction continued unit phrase with
  | case1 w ws p ps hover ih =>
    obtain ⟨here, after, rfl, hhere⟩ := ih
    exact ⟨w :: here, after, rfl, .cons (overlaps_iff.mp hover) hhere⟩
  | case2 w ws p ps hover => exact ⟨[], w :: ws, rfl, .nil⟩
  | case3 unit phrase hshort => exact ⟨[], unit, rfl, .nil⟩

theorem started_le (unit phrase : List (List Char)) : started unit phrase ≤ phrase.length := by
  cases phrase with
  | nil => exact Nat.le_refl 0
  | cons p ps => exact continued_le _ _

theorem exists_overlap_of_started (unit phrase : List (List Char)) :
    ∃ before here after, unit = before ++ here ++ after ∧
      Overlap here (phrase.take (started unit phrase)) := by
  cases phrase with
  | nil => exact ⟨[], [], unit, rfl, .nil⟩
  | cons p ps =>
    obtain ⟨here, after, hsplit, hhere⟩ :=
      exists_overlap_of_continued (unit.dropWhile fun w => !overlaps w p) (p :: ps)
    refine ⟨unit.takeWhile fun w => !overlaps w p, here, after, ?_, hhere⟩
    rw [List.append_assoc, ← hsplit, List.takeWhile_append_dropWhile]

/-! ## Runs of a phrase -/

/-- Whether a run of a phrase's words stands in the unit of a number, behind some other words. -/
structure StandsIn (units : List (List (List Char))) (number : Nat)
    (before run : List (List Char)) : Prop where
  ne_nil : run ≠ []
  stands : ∃ here after, units[number]? = some (before ++ here ++ after) ∧ Overlap here run

/-- Runs of a phrase's words, one for each of some units; the units are not far from each other,
and the first one is not far from the unit in front. -/
structure AreRuns (units : List (List (List Char))) (phrase : List (List Char)) (front : Nat)
    (found : Fragments) (runs : List (List (List Char))) : Prop where
  words : runs.flatten = phrase.take found.matched
  matched : found.matched ≤ phrase.length
  stand : List.Forall₂ (fun number run => StandsIn units number [] run) found.units runs
  passes : (front :: found.units).IsChain fun a b => b ≤ a + 2

section

variable {units : List (List (List Char))} {phrase : List (List Char)} {number : Nat}

theorem areRuns_nil (units : List (List (List Char))) (phrase : List (List Char)) (front : Nat) :
    AreRuns units phrase front ⟨[], 0⟩ [] :=
  ⟨rfl, Nat.zero_le _, .nil, .singleton _⟩

/-- The first words of a phrase stand in a unit, and the later units go on with the rest. -/
theorem take_append_of_runs {n : Nat} {later : Fragments} {runs : List (List (List Char))}
    (hn : n ≤ phrase.length) (hwords : runs.flatten = (phrase.drop n).take later.matched)
    (hmatched : later.matched ≤ (phrase.drop n).length) :
    (phrase.take n :: runs).flatten = phrase.take (n + later.matched) ∧
      n + later.matched ≤ phrase.length := by
  rw [List.length_drop] at hmatched
  rw [List.flatten_cons, hwords, List.take_add]
  exact ⟨rfl, by omega⟩

theorem take_ne_nil {n : Nat} (hpos : 0 < n) (hn : n ≤ phrase.length) : phrase.take n ≠ [] := by
  intro hnil
  have hlength := congrArg List.length hnil
  rw [List.length_take, List.length_nil] at hlength
  omega

theorem prefix_drop_cons {unit : List (List Char)} {rest : List (List (List Char))}
    (h : unit :: rest <+: units.drop number) :
    units[number]? = some unit ∧ rest <+: units.drop (number + 1) := by
  obtain ⟨more, hmore⟩ := h
  have hdrop := congrArg (List.drop 1) hmore
  have hget := congrArg (fun list => list[0]?) hmore
  rw [List.drop_drop] at hdrop
  refine ⟨?_, more, hdrop⟩
  simpa using hget.symm

theorem extend_of_continued {unit : List (List Char)} (rest : List (List (List Char)))
    (h : 0 < continued unit phrase) : extend number phrase (unit :: rest) =
      ⟨number :: (extend (number + 1) (phrase.drop (continued unit phrase)) rest).units,
        continued unit phrase +
          (extend (number + 1) (phrase.drop (continued unit phrase)) rest).matched⟩ := by
  rw [extend.eq_def]
  exact if_pos h

/-- A unit that does not go on with the phrase ends it, or the unit behind it goes on. -/
theorem extend_of_not_continued (number : Nat) {unit : List (List Char)}
    (rest : List (List (List Char))) (h : ¬ 0 < continued unit phrase) :
    extend number phrase (unit :: rest) = ⟨[], 0⟩ ∨
      ∃ next more, rest = next :: more ∧ 0 < continued next phrase ∧
        extend number phrase (unit :: rest) = extend (number + 1) phrase rest := by
  rw [extend.eq_def]
  dsimp only
  rw [if_neg h]
  cases rest with
  | nil => exact .inl rfl
  | cons next more =>
    by_cases hnext : 0 < continued next phrase
    · exact .inr ⟨next, more, rfl, hnext, if_pos hnext⟩
    · exact .inl (if_neg hnext)

/-- The later units go on with the phrase, each behind the one in front of it or behind the next. -/
theorem exists_areRuns_extend (phrase : List (List Char)) {window : List (List (List Char))}
    {front : Nat} (hwindow : window <+: units.drop (front + 1)) :
    ∃ runs, AreRuns units phrase front (extend (front + 1) phrase window) runs := by
  induction window generalizing front phrase with
  | nil => exact ⟨[], areRuns_nil units phrase front⟩
  | cons unit rest ih =>
    obtain ⟨hunit, hrest⟩ := prefix_drop_cons hwindow
    by_cases hhere : 0 < continued unit phrase
    · obtain ⟨runs, hruns⟩ := ih (phrase.drop (continued unit phrase)) hrest
      have hle := continued_le unit phrase
      obtain ⟨hwords, hmatched⟩ := take_append_of_runs hle hruns.words hruns.matched
      obtain ⟨here, after, hsplit, hover⟩ := exists_overlap_of_continued unit phrase
      rw [extend_of_continued rest hhere]
      refine ⟨_, hwords, hmatched, .cons ?_ hruns.stand, hruns.passes.cons_cons (by omega)⟩
      exact ⟨take_ne_nil hhere hle, here, after, hsplit ▸ hunit, hover⟩
    · obtain hstop | ⟨next, more, rfl, hnext, hgoes⟩ :=
        extend_of_not_continued (front + 1) rest hhere
      · rw [hstop]
        exact ⟨[], areRuns_nil units phrase front⟩
      · obtain ⟨runs, hruns⟩ := ih phrase hrest
        rw [hgoes]
        refine ⟨runs, hruns.words, hruns.matched, hruns.stand, ?_⟩
        -- The unit behind the one that is passed over does go on, so only one is passed over.
        have hpasses := hruns.passes
        rw [extend_of_continued more hnext] at hpasses ⊢
        exact hpasses.tail.cons_cons (by omega)

end

/-! ## Places of a phrase -/

/-- Whether a phrase is spread over some units: each of them has a run of the words, the first runs
first, and at most one unit is passed over between two of them. -/
structure IsSpread (units : List (List (List Char))) (phrase : List (List Char)) (lookahead : Nat)
    (found : Fragments) : Prop where
  ascend : found.units.Pairwise (· < ·)
  near : ∀ first ∈ found.units.head?, ∀ number ∈ found.units, number < first + lookahead
  passes : found.units.IsChain fun a b => b ≤ a + 2
  matched : found.matched ≤ phrase.length
  /-- Other words stand in front of a run only in the first unit. -/
  runs : ∃ runs, runs.flatten = phrase.take found.matched ∧
    List.Forall₂ (fun number run => ∃ before, StandsIn units number before run ∧
      (found.units.head? ≠ some number → before = [])) found.units runs

/-- The units that have a phrase from the one of a number on. -/
def startingAt? (units : List (List (List Char))) (phrase : List (List Char))
    (lookahead start : Nat) : Option Fragments :=
  from? start phrase ((units.drop start).take lookahead)

/-- Whether a unit stands behind the first one of some units, and not behind the last one. -/
def ReachesOver (found : Fragments) (number : Nat) : Prop :=
  ∃ first last, found.units.head? = some first ∧ found.units.getLast? = some last ∧
    first < number ∧ number ≤ last

section

variable {units : List (List (List Char))} {phrase : List (List Char)} {lookahead start : Nat}
  {minCoverage : Float} {found : Fragments}

theorem of_from? {window : List (List (List Char))} (h : from? start phrase window = some found) :
    ∃ unit rest, window = unit :: rest ∧ 0 < started unit phrase ∧
      found = ⟨start :: (extend (start + 1) (phrase.drop (started unit phrase)) rest).units,
        started unit phrase +
          (extend (start + 1) (phrase.drop (started unit phrase)) rest).matched⟩ := by
  cases window with
  | nil => cases h
  | cons unit rest =>
    rw [from?] at h
    dsimp only at h
    by_cases hstarts : 0 < started unit phrase
    · rw [if_pos hstarts] at h
      exact ⟨unit, rest, rfl, hstarts, (Option.some.inj h).symm⟩
    · rw [if_neg hstarts] at h
      cases h

theorem head?_of_startingAt? (h : startingAt? units phrase lookahead start = some found) :
    found.units.head? = some start := by
  obtain ⟨unit, rest, -, -, rfl⟩ := of_from? h
  rfl

theorem isSpread_of_startingAt? (h : startingAt? units phrase lookahead start = some found) :
    IsSpread units phrase lookahead found := by
  have hclimb := climb_from? h
  have hhead := head?_of_startingAt? h
  have hlength : ((units.drop start).take lookahead).length ≤ lookahead := List.length_take_le _ _
  obtain ⟨unit, rest, hwindow, hstarts, hfound⟩ := of_from? h
  -- The window starts with the first unit of the spread, and the rest follow it.
  obtain ⟨hunit, hrest⟩ : units[start]? = some unit ∧ rest <+: units.drop (start + 1) :=
    prefix_drop_cons (hwindow ▸ List.take_prefix _ _)
  obtain ⟨runs, hruns⟩ := exists_areRuns_extend (phrase.drop (started unit phrase)) hrest
  have hle := started_le unit phrase
  obtain ⟨hwords, hmatched⟩ := take_append_of_runs hle hruns.words hruns.matched
  obtain ⟨before, here, after, hsplit, hover⟩ := exists_overlap_of_started unit phrase
  refine ⟨hclimb.1, fun first hfirst number hnumber => ?_, ?_, ?_, _, hwords.trans ?_, ?_⟩
  · rw [hhead] at hfirst
    obtain rfl := Option.some.inj hfirst
    have hlt := (hclimb.2 number hnumber).2
    omega
  · rw [hfound]
    exact hruns.passes
  · rw [hfound]
    exact hmatched
  · rw [hfound]
  · rw [hfound]
    refine .cons ⟨before, ⟨take_ne_nil hstarts hle, here, after, hsplit ▸ hunit, hover⟩, ?_⟩ ?_
    · intro hother
      exact absurd rfl hother
    · exact hruns.stand.imp fun number run hrun => ⟨[], hrun, fun _ => rfl⟩

/-- Every word that is matched has a unit, so a phrase has at least as many words as units. -/
theorem IsSpread.length_le (h : IsSpread units phrase lookahead found) :
    found.units.length ≤ phrase.length := by
  obtain ⟨runs, hwords, hstand⟩ := h.runs
  have hlength : ∀ (numbers : List Nat) (runs : List (List (List Char))),
      List.Forall₂ (fun number run => ∃ before, StandsIn units number before run ∧
        (found.units.head? ≠ some number → before = [])) numbers runs →
      numbers.length ≤ runs.flatten.length := by
    intro numbers runs hall
    induction hall with
    | nil => simp
    | cons hrun _ ih =>
      obtain ⟨before, hstands, -⟩ := hrun
      have hpos := List.length_pos_iff.mpr hstands.ne_nil
      rw [List.length_cons, List.flatten_cons, List.length_append]
      omega
  have hunits := hlength _ _ hstand
  rw [hwords, List.length_take] at hunits
  omega

/-! ## The search -/

theorem exists_startingAt?_of_mem {window : List (List (List Char))} {number skip : Nat}
    (hwindow : window = units.drop number)
    (h : found ∈ findFrom phrase lookahead minCoverage number skip window) :
    ∃ start, startingAt? units phrase lookahead start = some found := by
  induction window generalizing number skip with
  | nil => cases h
  | cons unit rest ih =>
    have hrest : rest = units.drop (number + 1) := by
      rw [← List.drop_drop, ← hwindow]
      rfl
    rw [findFrom] at h
    by_cases hskip : 0 < skip
    · rw [if_pos hskip] at h
      exact ih hrest h
    · rw [if_neg hskip] at h
      split at h
      · rename_i first hfirst
        rcases List.mem_cons.mp h with rfl | h
        · rw [hwindow] at hfirst
          exact ⟨number, (Option.filter_eq_some_iff.mp hfirst).1⟩
        · exact ih hrest h
      · exact ih hrest h

/-- A unit that enough of the phrase starts in is not passed over. -/
theorem mem_or_reachesOver {window : List (List (List Char))} {number skip : Nat}
    (hwindow : window = units.drop number) (hle : number + skip ≤ start)
    (h : startingAt? units phrase lookahead start = some found)
    (henough : isEnough minCoverage phrase.length found = true) :
    found ∈ findFrom phrase lookahead minCoverage number skip window ∨
      ∃ earlier ∈ findFrom phrase lookahead minCoverage number skip window,
        ReachesOver earlier start := by
  induction window generalizing number skip with
  | nil =>
    have hlength := congrArg List.length hwindow
    rw [List.length_nil, List.length_drop] at hlength
    rw [startingAt?, List.drop_eq_nil_of_le (by omega), List.take_nil] at h
    cases h
  | cons unit rest ih =>
    have hrest : rest = units.drop (number + 1) := by
      rw [← List.drop_drop, ← hwindow]
      rfl
    rw [findFrom]
    by_cases hskip : 0 < skip
    · rw [if_pos hskip]
      exact ih hrest (by omega)
    rw [if_neg hskip]
    split
    · rename_i first hfirst
      rw [hwindow] at hfirst
      have hfrom := (Option.filter_eq_some_iff.mp hfirst).1
      have hhead := head?_of_startingAt? hfrom
      by_cases hstart : start = number
      · subst hstart
        obtain rfl := Option.some.inj (hfrom.symm.trans h)
        exact .inl List.mem_cons_self
      obtain ⟨last, hlast⟩ : ∃ last, first.units.getLast? = some last := by
        cases hunits : first.units with
        | nil => simp [hunits] at hhead
        | cons n more => exact ⟨_, List.getLast?_eq_some_getLast (List.cons_ne_nil n more)⟩
      by_cases hover : start ≤ last
      · exact .inr ⟨first, List.mem_cons_self, number, last, hhead, hlast, by omega, hover⟩
      · rw [List.getLastD_eq_getLast?, hlast, Option.getD_some]
        rcases @ih _ (last - number) hrest (by omega) with hmem | ⟨earlier, hmem, hreach⟩
        · exact .inl (List.mem_cons_of_mem first hmem)
        · exact .inr ⟨earlier, List.mem_cons_of_mem first hmem, hreach⟩
    · rename_i hnone
      refine ih hrest ?_
      -- Nothing that is enough starts in this unit, so the start is a later one.
      by_cases hstart : start = number
      · subst hstart
        have hsome := Option.filter_eq_some_iff.mpr ⟨h, henough⟩
        rw [startingAt?, ← hwindow, hnone] at hsome
        cases hsome
      · omega

end

/-- Whether some places are those of a phrase: it is spread over the units of each, enough of it, no
unit is in two places, and no other place is left out. -/
structure AreSpread (units : List (List (List Char))) (phrase : List (List Char)) (lookahead : Nat)
    (minCoverage : Float) (places : List Fragments) : Prop where
  each : ∀ found ∈ places, IsSpread units phrase lookahead found ∧ 2 ≤ found.units.length ∧
    minCoverage ≤ found.coverage phrase.length
  inOrder : places.Pairwise fun a b => ∀ m ∈ a.units, ∀ n ∈ b.units, m < n
  complete : ∀ start found, startingAt? units phrase lookahead start = some found →
    isEnough minCoverage phrase.length found = true →
      (found ∈ places ∧ found.units.head? = some start) ∨
        ∃ earlier ∈ places, ReachesOver earlier start
  short : phrase.length < 2 → places = []

/-- The places that are found are those of the phrase. -/
theorem areSpread_find (units : List (List (List Char))) (phrase : List (List Char))
    (lookahead : Nat) (minCoverage : Float) :
    AreSpread units phrase lookahead minCoverage (find phrase lookahead minCoverage units) := by
  constructor
  · intro found hfound
    have henough := isEnough_of_mem_find hfound
    simp only [isEnough, Bool.and_eq_true, decide_eq_true_eq] at henough
    unfold find at hfound
    split at hfound
    · cases hfound
    · obtain ⟨start, hstart⟩ := @exists_startingAt?_of_mem units _ _ _ _ _ _ _ rfl hfound
      exact ⟨isSpread_of_startingAt? hstart, henough⟩
  · have hclimb := (climb_find phrase lookahead minCoverage units).1
    rw [List.pairwise_flatMap] at hclimb
    exact hclimb.2
  · intro start found hstart henough
    have hlength := (isSpread_of_startingAt? hstart).length_le
    have hseveral := henough
    simp only [isEnough, Bool.and_eq_true, decide_eq_true_eq] at hseveral
    rw [find, if_neg (by omega)]
    exact (mem_or_reachesOver rfl (Nat.zero_le start) hstart henough).imp_left fun hmem =>
      ⟨hmem, head?_of_startingAt? hstart⟩
  · intro hshort
    rw [find, if_pos hshort]

end Rephrase.Phrase.Fragments
