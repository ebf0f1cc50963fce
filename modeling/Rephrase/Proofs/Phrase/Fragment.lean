import Rephrase.Phrase.Fragment

/-! The units of a phrase are found from left to right, and no unit is found twice. -/

namespace Rephrase.Phrase.Fragments

/-- The numbers go up, from a first one on and below a last one. -/
def Climb (first last : Nat) (numbers : List Nat) : Prop :=
  numbers.Pairwise (· < ·) ∧ ∀ n ∈ numbers, first ≤ n ∧ n < last

namespace Climb

variable {first mid last : Nat} {numbers more : List Nat}

theorem nil : Climb first last [] := ⟨.nil, nofun⟩

theorem cons (h : Climb (first + 1) last numbers) (hlast : first < last) :
    Climb first last (first :: numbers) := by
  refine ⟨.cons (fun n hn => (h.2 n hn).1) h.1, fun n hn => ?_⟩
  obtain rfl | hn := List.mem_cons.mp hn
  · exact ⟨Nat.le_refl _, hlast⟩
  · exact ⟨Nat.le_of_succ_le (h.2 n hn).1, (h.2 n hn).2⟩

theorem widen {first' last' : Nat} (h : Climb first last numbers) (hfirst : first' ≤ first)
    (hlast : last ≤ last') : Climb first' last' numbers :=
  ⟨h.1, fun n hn => ⟨Nat.le_trans hfirst (h.2 n hn).1, Nat.lt_of_lt_of_le (h.2 n hn).2 hlast⟩⟩

theorem append (h : Climb first last numbers) (hmore : Climb mid last more) (hle : first ≤ mid)
    (hlt : ∀ n ∈ numbers, n < mid) : Climb first last (numbers ++ more) := by
  refine ⟨List.pairwise_append.mpr ⟨h.1, hmore.1, fun n hn m hm => ?_⟩, fun n hn => ?_⟩
  · exact Nat.lt_of_lt_of_le (hlt n hn) (hmore.2 m hm).1
  · obtain hn | hn := List.mem_append.mp hn
    · exact h.2 n hn
    · exact ⟨Nat.le_trans hle (hmore.2 n hn).1, (hmore.2 n hn).2⟩

theorem tail {n : Nat} (h : Climb first last (n :: numbers)) : Climb (n + 1) last numbers :=
  ⟨h.1.of_cons, fun m hm =>
    ⟨List.rel_of_pairwise_cons h.1 hm, (h.2 m (List.mem_cons_of_mem n hm)).2⟩⟩

/-- The last of some numbers that go up is the greatest. -/
theorem le_getLastD (h : Climb first last numbers) (default : Nat) :
    ∀ n ∈ numbers, n ≤ numbers.getLastD default := by
  induction numbers generalizing first default with
  | nil => nofun
  | cons n rest ih =>
    intro m hm
    have hrest : Climb (n + 1) last rest := h.tail
    rw [List.getLastD_cons]
    obtain rfl | hm := List.mem_cons.mp hm
    · cases rest with
      | nil => exact Nat.le_refl _
      | cons k rest =>
        have hlt := (hrest.2 k List.mem_cons_self).1
        have hle := ih hrest m k List.mem_cons_self
        omega
    · exact ih hrest n m hm

/-- What stands at numbers that go up stands in the order of the list. -/
theorem filterMap_sublist {α : Type} (xs : List α) (h : Climb first last numbers) :
    (numbers.filterMap (xs[·]?)).Sublist (xs.drop first) := by
  induction numbers generalizing first with
  | nil => exact List.nil_sublist _
  | cons n rest ih =>
    have hfirst : first ≤ n := (h.2 n List.mem_cons_self).1
    have hrest := ih h.tail
    cases hn : xs[n]? with
    | none =>
      rw [List.filterMap_cons_none hn]
      exact hrest.trans (List.drop_sublist_drop_left xs (Nat.le_succ_of_le hfirst))
    | some x =>
      obtain ⟨hlt, hx⟩ := List.getElem?_eq_some_iff.mp hn
      have hdrop : xs.drop n = x :: xs.drop (n + 1) := by
        rw [List.drop_eq_getElem_cons hlt, hx]
      rw [List.filterMap_cons_some hn]
      refine List.Sublist.trans ?_ (List.drop_sublist_drop_left xs hfirst)
      rw [hdrop]
      exact hrest.cons_cons x

end Climb

theorem climb_extend (number : Nat) (phrase : List (List Char)) (units : List (List (List Char))) :
    Climb number (number + units.length) (extend number phrase units).units := by
  induction units generalizing number phrase with
  | nil => exact .nil
  | cons unit rest ih =>
    rw [List.length_cons]
    unfold extend
    dsimp only
    split
    · exact ((ih (number + 1) _).widen (Nat.le_refl _) (by omega)).cons (by omega)
    · split
      · rename_i next rest
        split
        · exact (ih (number + 1) phrase).widen (Nat.le_succ number) (by omega)
        · exact .nil
      · exact .nil

theorem climb_from? {number : Nat} {phrase : List (List Char)} {units : List (List (List Char))}
    {found : Fragments} (h : from? number phrase units = some found) :
    Climb number (number + units.length) found.units := by
  unfold from? at h
  split at h
  · simp at h
  · rename_i unit rest
    dsimp only at h
    split at h
    · obtain rfl := Option.some.inj h
      rw [List.length_cons]
      exact ((climb_extend _ _ _).widen (Nat.le_refl _) (by omega)).cons (by omega)
    · simp at h

/-- All places together name each unit at most once, in order. -/
theorem climb_findFrom (phrase : List (List Char)) (lookahead : Nat) (minCoverage : Float)
    (number skip : Nat) (units : List (List (List Char))) :
    Climb (number + skip) (number + units.length)
      ((findFrom phrase lookahead minCoverage number skip units).flatMap (·.units)) := by
  induction units generalizing number skip with
  | nil => exact .nil
  | cons unit rest ih =>
    rw [findFrom, List.length_cons]
    split
    · rename_i hskip
      exact (ih (number + 1) (skip - 1)).widen (by omega) (by omega)
    · rename_i hskip
      rw [show number + skip = number by omega]
      split
      · rename_i found hfound
        obtain ⟨hfrom, henough⟩ := Option.filter_eq_some_iff.mp hfound
        have htake : number + ((unit :: rest).take lookahead).length ≤
            number + (rest.length + 1) :=
          Nat.add_le_add_left (List.length_take_le' _ _) number
        have hclimb := (climb_from? hfrom).widen (Nat.le_refl _) htake
        have hlater := ih (number + 1) (found.units.getLastD number - number)
        -- The next find starts behind the last unit of this one.
        rw [List.flatMap_cons]
        refine hclimb.append (hlater.widen (Nat.le_refl _) (by omega)) (by omega) fun n hn => ?_
        have hlast := hclimb.le_getLastD number n hn
        omega
      · exact (ih (number + 1) 0).widen (Nat.le_succ number) (by omega)

theorem climb_find (phrase : List (List Char)) (lookahead : Nat) (minCoverage : Float)
    (units : List (List (List Char))) :
    Climb 0 units.length ((find phrase lookahead minCoverage units).flatMap (·.units)) := by
  unfold find
  split
  · exact .nil
  · exact (climb_findFrom phrase lookahead minCoverage 0 0 units).widen (Nat.le_refl _) (by omega)

theorem isEnough_of_mem_findFrom {phrase : List (List Char)} {lookahead : Nat}
    {minCoverage : Float} {number skip : Nat} {units : List (List (List Char))} {found : Fragments}
    (h : found ∈ findFrom phrase lookahead minCoverage number skip units) :
    isEnough minCoverage phrase.length found = true := by
  induction units generalizing number skip with
  | nil => simp [findFrom] at h
  | cons unit rest ih =>
    rw [findFrom] at h
    split at h
    · exact ih h
    · split at h
      · rename_i hfound
        obtain rfl | h := List.mem_cons.mp h
        · exact (Option.filter_eq_some_iff.mp hfound).2
        · exact ih h
      · exact ih h

/-- Every place has units, and enough of the phrase. -/
theorem isEnough_of_mem_find {phrase : List (List Char)} {lookahead : Nat} {minCoverage : Float}
    {units : List (List (List Char))} {found : Fragments}
    (h : found ∈ find phrase lookahead minCoverage units) :
    isEnough minCoverage phrase.length found = true := by
  unfold find at h
  split at h
  · simp at h
  · exact isEnough_of_mem_findFrom h

end Rephrase.Phrase.Fragments
