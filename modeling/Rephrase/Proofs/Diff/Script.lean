import Mathlib.Data.List.Basic
import Rephrase.Diff.Search

/-! The two searches for a middle meet inside the window. A front that has left the window on one
side has a neighbour that has reached this side, and that one would have met the other search
before.

A script goes through all lines of both sides, one after another, and the lines that it keeps
are the same on both. -/

namespace Rephrase.Diff

/-! ## One step of a search -/

section

variable {d i : Nat} {front : Front}

theorem getD_starts (hd : 0 < d) (hi : i ≤ d) : (starts d front).getD i 0 =
    if i = d then front.getD (i - 1) 0
    else if i ≠ 0 && front.getD i 0 < front.getD (i - 1) 0 then front.getD (i - 1) 0
    else front.getD i 0 + 1 := by
  unfold starts
  rw [if_neg (Nat.pos_iff_ne_zero.mp hd)]
  simp [Array.getD, Nat.lt_succ_iff.mpr hi]

/-- A diagonal is reached from one of its neighbours, and it is no less far than from the other. -/
theorem starts_cases (front : Front) (hd : 0 < d) (hi : i ≤ d) :
    (0 < i ∧ (starts d front).getD i 0 = front.getD (i - 1) 0 ∨
      i < d ∧ (starts d front).getD i 0 = front.getD i 0 + 1) ∧
    (0 < i → front.getD (i - 1) 0 ≤ (starts d front).getD i 0) ∧
    (i < d → front.getD i 0 < (starts d front).getD i 0) := by
  rw [getD_starts hd hi]
  split
  · omega
  · split
    · rename_i h
      simp only [ne_eq, Bool.and_eq_true, decide_eq_true_eq] at h
      omega
    · rename_i h
      simp only [ne_eq, Bool.and_eq_true, decide_eq_true_eq] at h
      omega

theorem size_starts : (starts d front).size = d + 1 := by
  unfold starts
  split
  · simp [*]
  · exact Array.size_ofFn

/-- Lines that are the same are passed only up to the sides of the window. -/
theorem advance_cases (d : Nat) {matching : Nat → Nat → Nat} {n m : Nat}
    (hmatching : ∀ x y, matching x y ≤ min (n - x) (m - y)) (hi : i < front.size) :
    front.getD i 0 ≤ (advance d matching n m front).getD i 0 ∧
      ((advance d matching n m front).getD i 0 = front.getD i 0 ∨
        (advance d matching n m front).getD i 0 ≤ n ∧
          (advance d matching n m front).getD i 0 + 2 * i ≤ m + d) := by
  unfold advance newPassed
  simp only [Array.getD, Array.size_mapIdx, hi, dite_true, Array.getInternal_eq_getElem,
    Array.getElem_mapIdx]
  split
  · rename_i h
    simp only [Bool.and_eq_true, decide_eq_true_eq] at h
    have hpassed := hmatching front[i] ((front[i] : Int) - ((d : Int) - 2 * i)).toNat
    omega
  · omega

theorem size_advance {matching : Nat → Nat → Nat} {n m : Nat} :
    (advance d matching n m front).size = front.size := Array.size_mapIdx

end

/-! ## Fronts -/

/-- What holds of a front of `d` changes in a window with `n` old and `m` new lines. The diagonal
with index `i` has added `i` lines and removed `d - i`. -/
structure IsFront (n m d : Nat) (front : Front) : Prop where
  size : front.size = d + 1
  low : ∀ i ≤ d, d ≤ front.getD i 0 + 2 * i
  /-- Beyond the old lines there is nothing but removals. -/
  old_le : ∀ i ≤ d, front.getD i 0 + i ≤ n + d
  /-- Beyond the new lines there is nothing but additions. -/
  new_le : ∀ i ≤ d, front.getD i 0 + i ≤ m + d
  beside_old : ∀ i < d, n < front.getD i 0 → n ≤ front.getD (i + 1) 0
  beside_new : ∀ i < d, m + d < front.getD (i + 1) 0 + 2 * (i + 1) →
    m + d ≤ front.getD i 0 + 2 * i

section

variable {n m d : Nat} {front : Front} {matching : Nat → Nat → Nat}
  (hmatching : ∀ x y, matching x y ≤ min (n - x) (m - y))
include hmatching

theorem isFront_zero : IsFront n m 0 (advance 0 matching n m (starts 0 front)) := by
  have hzero : (starts 0 front).getD 0 0 = 0 := rfl
  have hsize : 0 < (starts 0 front).size := by
    rw [size_starts]
    exact Nat.one_pos
  obtain ⟨-, hfirst⟩ := advance_cases 0 hmatching hsize
  rw [hzero] at hfirst
  refine ⟨by rw [size_advance, size_starts], ?_, ?_, ?_, by omega, by omega⟩
  all_goals
    intro i hi
    obtain rfl : i = 0 := by omega
    omega

theorem isFront_succ (h : IsFront n m d front) :
    IsFront n m (d + 1) (advance (d + 1) matching n m (starts (d + 1) front)) := by
  have hsize : (starts (d + 1) front).size = d + 2 := size_starts
  have hpass := fun i (hi : i ≤ d + 1) => advance_cases (d + 1) hmatching
    (show i < (starts (d + 1) front).size by omega)
  have hstart := fun i (hi : i ≤ d + 1) => starts_cases front (show 0 < d + 1 by omega) hi
  have hend : (advance (d + 1) matching n m (starts (d + 1) front)).size = d + 2 := by
    rw [size_advance, hsize]
  generalize advance (d + 1) matching n m (starts (d + 1) front) = next at *
  generalize starts (d + 1) front = start at *
  refine ⟨hend, ?_, ?_, ?_, ?_, ?_⟩
  · intro i hi
    have hbefore := h.low (i - 1)
    have hhere := h.low i
    have hreach := hpass i hi
    have hfrom := hstart i hi
    omega
  · intro i hi
    have hbefore := h.old_le (i - 1)
    have hhere := h.old_le i
    have hreach := hpass i hi
    have hfrom := hstart i hi
    omega
  · intro i hi
    have hbefore := h.new_le (i - 1)
    have hhere := h.new_le i
    have hreach := hpass i hi
    have hfrom := hstart i hi
    omega
  -- What is beyond a side was so from the start, and so it came from a diagonal at that side.
  · intro i hi hbeyond
    have hhere : n ≤ front.getD i 0 := by
      have hreach := hpass i (by omega)
      obtain ⟨⟨hpos, hfrom⟩ | ⟨-, hfrom⟩, -⟩ := hstart i (by omega)
      · have hbeside := h.beside_old (i - 1) (by omega) (by omega)
        rwa [Nat.sub_add_cancel hpos] at hbeside
      · omega
    have hnext := (hstart (i + 1) (by omega)).2.1 (Nat.succ_pos i)
    have hreach := (hpass (i + 1) (by omega)).1
    rw [Nat.add_sub_cancel] at hnext
    omega
  · intro i hi hbeyond
    have hhere : m + d ≤ front.getD i 0 + 2 * i := by
      have hreach := hpass (i + 1) (by omega)
      obtain ⟨⟨-, hfrom⟩ | ⟨hlt, hfrom⟩, -⟩ := hstart (i + 1) (by omega)
      · rw [Nat.add_sub_cancel] at hfrom
        omega
      · exact h.beside_new i (by omega) (by omega)
    have hnext := (hstart i (by omega)).2.2 hi
    have hreach := (hpass i (by omega)).1
    omega

end

/-! ## Where they meet -/

/-- Whether a front has not met the other search where it could have: on the diagonals that the
other search has reached with one change less, neither side of the window has been reached. -/
def IsOpen (n m d : Nat) (front : Front) : Prop :=
  ∀ i ≤ d, n < m + 2 * (d - i) → m < n + 2 * i →
    front.getD i 0 < n ∧ front.getD i 0 + 2 * i < m + d

/-- From an open front a search goes on inside the window, on the diagonals where it may now meet
the other one. -/
theorem starts_inside {n m d i : Nat} {front : Front} (h : IsFront n m d front)
    (hopen : IsOpen n m d front) (hodd : (n + m) % 2 = 1) (hi : i ≤ d + 1)
    (hold : n < m + 2 * (d + 1 - i)) (hnew : m < n + 2 * i) :
    (starts (d + 1) front).getD i 0 ≤ n ∧
      (starts (d + 1) front).getD i 0 + 2 * i ≤ m + (d + 1) := by
  obtain ⟨hfrom, -⟩ := starts_cases front (show 0 < d + 1 by omega) hi
  constructor
  · by_contra hbeyond
    -- To start beyond the window, the front would have to reach its edge already.
    have hhere : i ≤ d ∧ n ≤ front.getD i 0 := by
      obtain ⟨hpos, hfrom⟩ | ⟨hlt, hfrom⟩ := hfrom
      · have hle := h.old_le (i - 1) (by omega)
        have hbeside := h.beside_old (i - 1)
        rw [Nat.sub_add_cancel hpos] at hbeside
        omega
      · omega
    have hleft := hopen i hhere.1
    have hle := h.new_le i hhere.1
    omega
  · by_contra hbeyond
    have hhere : 0 < i ∧ m + d ≤ front.getD (i - 1) 0 + 2 * (i - 1) := by
      obtain ⟨hpos, hfrom⟩ | ⟨hlt, hfrom⟩ := hfrom
      · omega
      · have hle := h.new_le i (by omega)
        have hpos : 0 < i := by omega
        have hbeside := h.beside_new (i - 1) (by omega)
        rw [Nat.sub_add_cancel hpos] at hbeside
        omega
    have hleft := hopen (i - 1) (by omega)
    have hle := h.old_le (i - 1) (by omega)
    omega

theorem frontIndex?_eq_some_iff {d j : Nat} {diagonal : Int} :
    frontIndex? d diagonal = some j ↔ diagonal.natAbs ≤ d ∧ (d - diagonal).toNat / 2 = j := by
  unfold frontIndex?
  split <;> simp [*]

theorem of_meeting? {d e n i : Nat} {delta : Int} {front opposite : Front}
    (h : meeting? d e n delta front opposite = some i) :
    i < front.size ∧ (delta - ((d : Int) - 2 * i)).natAbs ≤ e := by
  unfold meeting? at h
  have hmem := List.mem_range.mp (List.mem_of_find?_eq_some h)
  have hmet := List.find?_some h
  dsimp only at hmet
  split at hmet
  · rename_i j hj
    exact ⟨hmem, (frontIndex?_eq_some_iff.mp hj).1⟩
  · cases hmet

theorem isOpen_of_meeting? {n m d : Nat} {front opposite : Front}
    (hfront : front.size = d + 2) (hlow : ∀ j ≤ d, d ≤ opposite.getD j 0 + 2 * j)
    (hodd : (n + m) % 2 = 1)
    (h : meeting? (d + 1) d n ((n : Int) - m) front opposite = none) :
    IsOpen n m (d + 1) front := by
  intro i hi hold hnew
  unfold meeting? at h
  have hnone := List.find?_eq_none.mp h i (List.mem_range.mpr (by omega))
  dsimp only at hnone
  -- The diagonal has an index in the other front, and that one has passed no less than no lines.
  obtain ⟨j, hj⟩ : ∃ j, 2 * j + n + 2 * i = 2 * d + 1 + m :=
    ⟨(2 * d + 1 + m - n - 2 * i) / 2, by omega⟩
  have hindex : frontIndex? d ((n : Int) - m - ((d + 1 : Nat) - 2 * i)) = some j := by
    rw [frontIndex?_eq_some_iff]
    omega
  rw [hindex] at hnone
  have hlow := hlow j (by omega)
  simp only [decide_eq_true_eq] at hnone
  omega

/-! ## The middle -/

theorem isFront_advance (d : Nat) (front : Front) {n m : Nat} (matching : Nat → Nat → Nat)
    (hmatching : ∀ x y, matching x y ≤ min (n - x) (m - y))
    (h : ∀ e, d = e + 1 → IsFront n m e front) :
    IsFront n m d (advance d matching n m (starts d front)) := by
  cases d with
  | zero => exact isFront_zero hmatching
  | succ e => exact isFront_succ hmatching (h e rfl)

/-- What is known of the two fronts when the search goes on from `d` changes. -/
structure AreFronts (n m d : Nat) (front opposite : Front) : Prop where
  forward : IsFront n m d front
  backward : IsFront n m d opposite
  isOpen : (n + m) % 2 = 1 → IsOpen n m d front

/-- Where a search from the front meets the other one it went on from inside the window. -/
theorem starts_le_of_meeting? {n m d i : Nat} {forward backward further : Front}
    (hfronts : AreFronts n m d forward backward) (hodd : (n + m) % 2 = 1)
    (hsize : further.size = d + 2)
    (h : meeting? (d + 1) d n ((n : Int) - m) further backward = some i) :
    (starts (d + 1) forward).getD i 0 ≤ n ∧
      (newPassed (d + 1) i ((starts (d + 1) forward).getD i 0)).toNat ≤ m := by
  obtain ⟨hi, hdiagonal⟩ := of_meeting? h
  rw [hsize] at hi
  have hinside := starts_inside hfronts.forward (hfronts.isOpen hodd) hodd (i := i) (by omega)
    (by omega) (by omega)
  unfold newPassed
  omega

/-- What a search from the back leaves is inside the window. -/
theorem IsFront.newLeft_le {n m d i : Nat} {front : Front} (h : IsFront n m d front)
    (hi : i < front.size) : (m - newPassed d i (front.getD i 0)).toNat ≤ m := by
  rw [h.size] at hi
  have hlow := h.low i (by omega)
  unfold newPassed
  omega

/-- Both searches go on if they could have met and did not. -/
theorem areFronts_of_meeting? {n m d : Nat} {forward backward further back : Front}
    (hfronts : ∀ e, d = e + 1 → AreFronts n m e forward backward)
    (hforward : IsFront n m d further) (hbackward : IsFront n m d back)
    (h : (n + m) % 2 = 1 → 0 < d →
      meeting? d (d - 1) n ((n : Int) - m) further backward = none) :
    AreFronts n m d further back := by
  refine ⟨hforward, hbackward, fun hodd => ?_⟩
  cases d with
  | zero =>
    intro i _ hold hnew
    omega
  | succ e =>
    exact isOpen_of_meeting? hforward.size (hfronts e rfl).backward.low hodd
      (h hodd (Nat.succ_pos e))

theorem middleFrom_le (old new : Array String) (w : Window) {x y : Nat} (tries d : Nat)
    (forward backward : Front)
    (hfronts : ∀ e, d = e + 1 → AreFronts w.old.length w.new.length e forward backward)
    (h : middleFrom old new w d forward backward tries = some (x, y)) :
    x ≤ w.old.length ∧ y ≤ w.new.length := by
  induction tries generalizing d forward backward with
  | zero => cases h
  | succ tries ih =>
    rw [middleFrom] at h
    dsimp only at h
    have hforward := isFront_advance d forward (fun x y =>
      commonPrefix old new (w.old.start + x) (w.new.start + y)
        (min (w.old.length - x) (w.new.length - y)))
      (fun x y => commonPrefix_le _ _ _ _ _) fun e he => (hfronts e he).forward
    have hbackward := isFront_advance d backward (fun x y =>
      commonSuffix old new (w.old.start + w.old.length - x) (w.new.start + w.new.length - y)
        (min (w.old.length - x) (w.new.length - y)))
      (fun x y => commonSuffix_le _ _ _ _ _) fun e he => (hfronts e he).backward
    generalize advance d (fun x y => commonPrefix old new (w.old.start + x) (w.new.start + y)
      (min (w.old.length - x) (w.new.length - y))) w.old.length w.new.length
      (starts d forward) = further at h hforward
    generalize advance d (fun x y => commonSuffix old new (w.old.start + w.old.length - x)
      (w.new.start + w.new.length - y) (min (w.old.length - x) (w.new.length - y))) w.old.length
      w.new.length (starts d backward) = back at h hbackward
    split at h
    -- The search from the front has met the other one.
    · rename_i i hmeeting
      obtain ⟨rfl, rfl⟩ := Prod.mk.inj (Option.some.inj h)
      split at hmeeting
      · rename_i hcheck
        simp only [Bool.and_eq_true, decide_eq_true_eq] at hcheck
        obtain ⟨e, rfl⟩ := Nat.exists_eq_add_of_le' hcheck.2
        exact starts_le_of_meeting? (hfronts e rfl) (by omega) hforward.size hmeeting
      · cases hmeeting
    · rename_i hmeeting
      split at h
      -- The search from the back has met the other one.
      · rename_i i hmeeting
        obtain ⟨rfl, rfl⟩ := Prod.mk.inj (Option.some.inj h)
        split at hmeeting
        · cases hmeeting
        · exact ⟨Nat.sub_le _ _, hbackward.newLeft_le (of_meeting? hmeeting).1⟩
      · refine ih (d + 1) further back (fun e he => ?_) h
        obtain rfl : d = e := by omega
        refine areFronts_of_meeting? hfronts hforward hbackward fun hodd hd => ?_
        rwa [if_pos (by simp; omega)] at hmeeting

/-- A window is split inside. -/
theorem middle?_le {old new : Array String} {w : Window} {x y : Nat}
    (h : middle? old new w = some (x, y)) : x ≤ w.old.length ∧ y ≤ w.new.length :=
  middleFrom_le old new w _ 0 #[] #[] nofun h

variable {old new : Array String}

/-! ## Lines that are the same -/

/-- Whether some lines of the old side are the same as those of the new side. -/
def Same (old new : Array String) (i j length : Nat) : Prop :=
  ∀ k < length, old[i + k]? = new[j + k]?

theorem Same.zero (old new : Array String) (i j : Nat) : Same old new i j 0 := fun k hk =>
  absurd hk (Nat.not_lt_zero k)

theorem Same.append {i j m n : Nat} (h : Same old new i j m)
    (h' : Same old new (i + m) (j + m) n) : Same old new i j (m + n) := by
  intro k hk
  by_cases hfirst : k < m
  · exact h k hfirst
  · have hrest := h' (k - m) (by omega)
    rwa [show i + m + (k - m) = i + k by omega, show j + m + (k - m) = j + k by omega] at hrest

theorem Same.take {i j m n : Nat} (h : Same old new i j n) (hle : m ≤ n) : Same old new i j m :=
  fun k hk => h k (by omega)

theorem Same.drop {i j m n : Nat} (h : Same old new i j (m + n)) :
    Same old new (i + m) (j + m) n := by
  intro k hk
  have hrest := h (m + k) (by omega)
  rwa [← Nat.add_assoc, ← Nat.add_assoc] at hrest

theorem same_commonPrefix (old new : Array String) (i j room : Nat) :
    Same old new i j (commonPrefix old new i j room) := by
  induction room generalizing i j with
  | zero => exact .zero old new i j
  | succ room ih =>
    rw [commonPrefix]
    split
    · rename_i hfirst
      rw [Nat.add_comm]
      refine Same.append (fun k hk => ?_) (ih (i + 1) (j + 1))
      obtain rfl : k = 0 := by omega
      exact hfirst
    · exact .zero old new _ _

/-- There has to be room in front of both places. -/
theorem same_commonSuffix {i j room : Nat} (hi : room ≤ i) (hj : room ≤ j) :
    Same old new (i - commonSuffix old new i j room) (j - commonSuffix old new i j room)
      (commonSuffix old new i j room) := by
  induction room generalizing i j with
  | zero => exact .zero old new i j
  | succ room ih =>
    rw [commonSuffix]
    split
    · rename_i hlast
      have hle := commonSuffix_le old new (i - 1) (j - 1) room
      have hrest := ih (i := i - 1) (j := j - 1) (by omega) (by omega)
      rw [Nat.sub_add_eq, Nat.sub_add_eq, Nat.sub_right_comm i, Nat.sub_right_comm j]
      refine hrest.append fun k hk => ?_
      obtain rfl : k = 0 := by omega
      rwa [Nat.add_zero, Nat.add_zero, Nat.sub_add_cancel (by omega),
        Nat.sub_add_cancel (by omega)]
    · exact .zero old new _ _

/-! ## Scripts -/

/-- Whether steps are about all lines between two places, one after another; `stands` says of a step
whether it is about the lines behind a place on either side. -/
inductive Tiles (stands : Nat → Nat → Step → Prop) : Nat → Nat → List Step → Nat → Nat → Prop
  | nil (i j : Nat) : Tiles stands i j [] i j
  | cons {i j i' j' : Nat} {step : Step} {steps : List Step} (hstep : stands i j step)
      (hrest : Tiles stands (i + step.old.length) (j + step.new.length) steps i' j') :
      Tiles stands i j (step :: steps) i' j'

namespace Tiles

variable {stands : Nat → Nat → Step → Prop} {i j i' j' i'' j'' : Nat} {step : Step}
  {steps more : List Step}

theorem singleton (h : stands i j step) :
    Tiles stands i j [step] (i + step.old.length) (j + step.new.length) := .cons h (.nil _ _)

theorem append (h : Tiles stands i j steps i' j') (h' : Tiles stands i' j' more i'' j'') :
    Tiles stands i j (steps ++ more) i'' j'' := by
  induction h with
  | nil => exact h'
  | cons hstep _ ih => exact .cons hstep (ih h')

theorem of_append (h : Tiles stands i j (steps ++ more) i'' j'') :
    ∃ i' j', Tiles stands i j steps i' j' ∧ Tiles stands i' j' more i'' j'' := by
  induction steps generalizing i j with
  | nil => exact ⟨i, j, .nil i j, h⟩
  | cons step steps ih =>
    cases h with
    | cons hstep hrest =>
      obtain ⟨i', j', hsteps, hmore⟩ := ih hrest
      exact ⟨i', j', .cons hstep hsteps, hmore⟩

/-- Steps may be exchanged for others about the same lines. -/
theorem exchange {front : List Step} (h : Tiles stands i j (front ++ steps) i'' j'')
    (hsteps : ∀ i' j', Tiles stands i' j' steps i'' j'' → Tiles stands i' j' more i'' j'') :
    Tiles stands i j (front ++ more) i'' j'' := by
  obtain ⟨i', j', hfront, hrest⟩ := h.of_append
  exact hfront.append (hsteps i' j' hrest)

end Tiles

/-- The steps that a script for the lines behind two places may start with. The place of a step on
the side where it has no lines does not count. -/
inductive Step.Stands (old new : Array String) (i j : Nat) : Step → Prop
  | keep {n : Nat} (hpos : 0 < n) (hsame : Same old new i j n) : Stands old new i j (.keep i j n)
  | remove {n place : Nat} (hpos : 0 < n) : Stands old new i j (.remove i n place)
  | add {n place : Nat} (hpos : 0 < n) : Stands old new i j (.add place j n)

/-- Whether steps are a script for the lines between two places. -/
abbrev IsScript (old new : Array String) (i j : Nat) (steps : List Step) (i' j' : Nat) : Prop :=
  Tiles (Step.Stands old new) i j steps i' j'

/-! ## The search -/

theorem isScript_between {w : Window} {inner : (v : Window) → v.size < w.size → List Step}
    (hinner : ∀ v h, IsScript old new v.old.start v.new.start (inner v h) v.old.stop v.new.stop) :
    IsScript old new w.old.start w.new.start (between old new w inner) w.old.stop w.new.stop := by
  unfold Stretch.stop at *
  -- Where no middle is found, all old lines are removed and all new ones are added.
  have hapart : w.old.length ≠ 0 → w.new.length ≠ 0 → IsScript old new w.old.start w.new.start
      [.remove w.old.start w.old.length w.new.start, .add w.old.start w.new.start w.new.length]
      (w.old.start + w.old.length) (w.new.start + w.new.length) := fun hold hnew =>
    .cons (.remove (Nat.pos_of_ne_zero hold)) (.singleton (.add (Nat.pos_of_ne_zero hnew)))
  unfold between
  split
  · rename_i h
    simp only [Bool.and_eq_true, decide_eq_true_eq] at h
    rw [h.1, h.2]
    exact .nil _ _
  rename_i hsome
  simp only [Bool.and_eq_true, decide_eq_true_eq, not_and] at hsome
  split
  · rename_i hnew
    rw [hnew]
    exact .singleton (.remove (Nat.pos_of_ne_zero fun hold => hsome hold hnew))
  rename_i hnew
  split
  · rename_i hold
    rw [hold]
    exact .singleton (.add (Nat.pos_of_ne_zero hnew))
  rename_i hold
  split
  · exact hapart hold hnew
  · rename_i x y hmiddle
    split
    · rename_i hsmall
      obtain ⟨hx, hy⟩ := middle?_le hmiddle
      have hbefore := hinner _ hsmall.1
      have hafter := hinner _ hsmall.2
      unfold Window.before Window.after at hbefore hafter
      dsimp only at hbefore hafter
      rw [Nat.add_assoc, Nat.add_sub_cancel' hx, Nat.add_assoc, Nat.add_sub_cancel' hy] at hafter
      exact hbefore.append hafter
    · exact hapart hold hnew

theorem isScript_keep {i j n : Nat} (h : Same old new i j n) :
    IsScript old new i j (if n = 0 then [] else [.keep i j n]) (i + n) (j + n) := by
  split
  · rename_i hzero
    rw [hzero]
    exact .nil i j
  · rename_i hpos
    exact .singleton (.keep (Nat.pos_of_ne_zero hpos) h)

/-- What a window is without lines at its ends. -/
def Window.inside (w : Window) (front back : Nat) : Window :=
  (w.after front front).before ((w.after front front).old.length - back)
    ((w.after front front).new.length - back)

/-- A script with the lines that both sides share at their ends. -/
theorem isScript_around {w : Window} {front back : Nat} {middle : List Step}
    (hfront : Same old new w.old.start w.new.start front)
    (hfront_le : front ≤ min w.old.length w.new.length)
    (hback : Same old new ((w.after front front).old.stop - back)
      ((w.after front front).new.stop - back) back)
    (hback_le : back ≤ min (w.after front front).old.length (w.after front front).new.length)
    (hmiddle : IsScript old new (w.inside front back).old.start (w.inside front back).new.start
      middle (w.inside front back).old.stop (w.inside front back).new.stop) :
    IsScript old new w.old.start w.new.start
      ((if front = 0 then [] else [.keep w.old.start w.new.start front]) ++ middle ++
        if back = 0 then []
        else [.keep (w.inside front back).old.stop (w.inside front back).new.stop back])
      w.old.stop w.new.stop := by
  have hold : (w.after front front).old.stop - back = (w.inside front back).old.stop := by
    simp only [Window.inside, Window.after, Window.before, Stretch.stop] at *
    omega
  have hnew : (w.after front front).new.stop - back = (w.inside front back).new.stop := by
    simp only [Window.inside, Window.after, Window.before, Stretch.stop] at *
    omega
  rw [hold, hnew] at hback
  have hsteps := ((isScript_keep hfront).append hmiddle).append (isScript_keep hback)
  have hold' : (w.inside front back).old.stop + back = w.old.stop := by
    simp only [Window.inside, Window.after, Window.before, Stretch.stop] at *
    omega
  have hnew' : (w.inside front back).new.stop + back = w.new.stop := by
    simp only [Window.inside, Window.after, Window.before, Stretch.stop] at *
    omega
  rwa [hold', hnew'] at hsteps

theorem isScript_scriptOf (old new : Array String) (w : Window) :
    IsScript old new w.old.start w.new.start (scriptOf old new w) w.old.stop w.new.stop := by
  rw [scriptOf]
  exact isScript_around (same_commonPrefix _ _ _ _ _) (commonPrefix_le _ _ _ _ _)
    (same_commonSuffix (Nat.le_trans (Nat.min_le_left _ _) (Nat.le_add_left _ _))
      (Nat.le_trans (Nat.min_le_right _ _) (Nat.le_add_left _ _)))
    (commonSuffix_le _ _ _ _ _) (isScript_between fun v _ => isScript_scriptOf old new v)
termination_by w.size
decreasing_by
  simp only [Window.size, Window.inside, Window.before, Window.after] at *
  omega

theorem isScript_script (old new : Array String) :
    IsScript old new 0 0 (script old new) old.size new.size := by
  have h := isScript_scriptOf old new ⟨⟨0, old.size⟩, ⟨0, new.size⟩⟩
  simp only [Stretch.stop, Nat.zero_add] at h
  exact h

end Rephrase.Diff
