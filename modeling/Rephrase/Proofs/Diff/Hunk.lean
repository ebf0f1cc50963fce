import Rephrase.Diff.Unified
import Rephrase.Proofs.Diff.Compaction

/-! The hunks of a script lie one after another, with lines that are the same between them, and hold
few lines that are kept. -/

namespace Rephrase.Diff

variable {old new : Array String} {keeps keeps' : Bool} {i j i' j' : Nat}

theorem isShown_shownScript (old new : Array String) : ∃ keeps keeps',
    IsShown old new keeps 0 0 (shownScript old new) keeps' old.size new.size :=
  isShown_combine (isScript_slide (isScript_script old new))

theorem firstKept_keep (a b n : Nat) :
    firstKept (.keep a b n) = .keep a b (min n contextLines) := by
  rw [firstKept, Step.resize_keep, Nat.sub_sub_eq_min]

theorem lastKept_keep (a b n : Nat) : lastKept (.keep a b n) =
    .keep (a + (n - contextLines)) (b + (n - contextLines)) (min n contextLines) := by
  rw [lastKept, Step.shift_keep, Step.resize_keep, Step.old_keep, Nat.sub_sub_eq_min]

theorem length_firstKept_le (a b n : Nat) :
    (firstKept (.keep a b n)).old.length ≤ contextLines := by
  rw [firstKept_keep]
  exact Nat.min_le_right _ _

theorem length_lastKept_le (a b n : Nat) :
    (lastKept (.keep a b n)).old.length ≤ contextLines := by
  rw [lastKept_keep]
  exact Nat.min_le_right _ _

theorem Step.Changes.kind_ne {step : Step} (h : step.Changes i j) : step.kind ≠ .keep := by
  cases h <;> nofun

namespace IsShown

variable {steps : List Step}

/-- The last step of a script, with the place that it starts from. -/
theorem of_concat {step : Step} (h : IsShown old new keeps i j (steps ++ [step]) keeps' i' j') :
    ∃ keeps'' a b, IsShown old new keeps i j steps keeps'' a b ∧
      IsShown old new keeps'' a b [step] keeps' i' j' := h.of_append

/-- Kept lines that a script starts with. -/
theorem of_keep {step : Step} (h : IsShown old new keeps i j (step :: steps) keeps' i' j')
    (hkeep : step.kind = .keep) : keeps = true ∧ ∃ n, 0 < n ∧ Same old new i j n ∧
      step = .keep i j n ∧ IsShown old new false (i + n) (j + n) steps keeps' i' j' := by
  cases h with
  | keep hpos hsame hrest => exact ⟨rfl, _, hpos, hsame, rfl, hrest⟩
  | change hstep => exact absurd hkeep hstep.kind_ne

/-- The last ones of the kept lines that a script starts with. -/
theorem lastKept {n : Nat} (hpos : 0 < n) (hsame : Same old new i j n)
    (h : IsShown old new false (i + n) (j + n) steps keeps' i' j') :
    IsShown old new true (i + (n - contextLines)) (j + (n - contextLines))
      (lastKept (.keep i j n) :: steps) keeps' i' j' := by
  have hn : n - contextLines + min n contextLines = n := by omega
  rw [lastKept_keep]
  rw [← hn, ← Nat.add_assoc, ← Nat.add_assoc] at h
  exact .keep (Nat.lt_min.mpr ⟨hpos, by decide⟩) (Same.drop (hn.symm ▸ hsame)) h

/-- The first ones of the kept lines that a script ends with. -/
theorem firstKept {n : Nat} (hpos : 0 < n) (hsame : Same old new i' j' n)
    (h : IsShown old new keeps i j steps true i' j') :
    IsShown old new keeps i j (steps ++ [firstKept (.keep i' j' n)]) false
      (i' + min n contextLines) (j' + min n contextLines) := by
  rw [firstKept_keep]
  exact h.append (.keep (Nat.lt_min.mpr ⟨hpos, by decide⟩) (hsame.take (Nat.min_le_left _ _))
    (.nil false _ _))

/-- Long kept lines are the end of what is before them, lines that are the same, and the beginning of
what is behind them. -/
theorem cut {k i'' j'' : Nat} {more : List Step}
    (h : IsShown old new keeps i j steps true i' j') (hsame : Same old new i' j' k)
    (hrest : IsShown old new false (i' + k) (j' + k) more keeps' i'' j'')
    (hk : 2 * contextLines < k) :
    IsShown old new keeps i j (steps ++ [Diff.firstKept (.keep i' j' k)]) false
        (i' + contextLines) (j' + contextLines) ∧
      Same old new (i' + contextLines) (j' + contextLines) (k - 2 * contextLines) ∧
      IsShown old new true (i' + contextLines + (k - 2 * contextLines))
        (j' + contextLines + (k - 2 * contextLines)) (Diff.lastKept (.keep i' j' k) :: more)
        keeps' i'' j'' := by
  have hpos : 0 < k := Nat.lt_of_le_of_lt (Nat.zero_le _) hk
  have hmin : min k contextLines = contextLines := by omega
  have hlen : k = contextLines + (k - 2 * contextLines + contextLines) := by omega
  have hbefore := h.firstKept hpos hsame
  have hbehind := hrest.lastKept hpos hsame
  rw [hmin] at hbefore
  rw [show i' + (k - contextLines) = i' + contextLines + (k - 2 * contextLines) by omega,
    show j' + (k - contextLines) = j' + contextLines + (k - 2 * contextLines) by omega] at hbehind
  rw [hlen] at hsame
  exact ⟨hbefore, hsame.drop.take (Nat.le_add_right _ _), hbehind⟩

theorem exists_change (h : IsShown old new keeps i j steps keeps' i' j') (hlen : 2 ≤ steps.length) :
    ∃ step ∈ steps, step.kind ≠ .keep := by
  cases h with
  | nil => simp at hlen
  | change hstep => exact ⟨_, List.mem_cons_self, hstep.kind_ne⟩
  | keep _ _ hrest =>
    cases hrest with
    | nil => simp at hlen
    | change hstep => exact ⟨_, by simp, hstep.kind_ne⟩

end IsShown

/-! ## Kept lines at the ends -/

/-- Whether a script keeps few lines at its ends. -/
structure IsTrimmed (steps : List Step) : Prop where
  first : ∀ step ∈ steps.head?, step.kind = .keep → step.old.length ≤ contextLines
  last : ∀ step ∈ steps.getLast?, step.kind = .keep → step.old.length ≤ contextLines

theorem IsTrimmed.front {front steps : List Step} {last : Step} (h : IsTrimmed (front ++ steps))
    (hfront : front ≠ []) (hlast : last.old.length ≤ contextLines) :
    IsTrimmed (front ++ [last]) where
  first step hstep := by
    refine h.first step ?_
    rwa [List.head?_append_of_ne_nil _ hfront] at hstep ⊢
  last step hstep _ := by
    rw [List.getLast?_concat] at hstep
    obtain rfl := Option.some.inj hstep
    exact hlast

theorem IsTrimmed.back {front steps : List Step} {first step : Step}
    (h : IsTrimmed (front ++ step :: steps)) (hfirst : first.old.length ≤ contextLines) :
    IsTrimmed (first :: steps) where
  first step hstep _ := by
    obtain rfl := Option.some.inj hstep
    exact hfirst
  last step hstep := by
    cases steps with
    | nil =>
      obtain rfl := Option.some.inj hstep
      exact fun _ => hfirst
    | cons next steps =>
      refine h.last step ?_
      rwa [List.getLast?_append_of_ne_nil _ (List.cons_ne_nil _ _)]

def trimFirst : List Step → List Step
  | step :: rest => (if step.kind = .keep then lastKept step else step) :: rest
  | [] => []

def trimLast (steps : List Step) : List Step :=
  match steps.reverse with
  | step :: rest => ((if step.kind = .keep then firstKept step else step) :: rest).reverse
  | [] => []

theorem trimKept_eq (steps : List Step) : trimKept steps = trimLast (trimFirst steps) := by
  cases steps <;> rfl

theorem trimLast_concat (steps : List Step) (step : Step) : trimLast (steps ++ [step]) =
    steps ++ [if step.kind = .keep then firstKept step else step] := by
  simp [trimLast]

theorem isShown_trimFirst {steps : List Step} (h : IsShown old new keeps i j steps keeps' i' j') :
    ∃ n, Same old new i j n ∧
      IsShown old new keeps (i + n) (j + n) (trimFirst steps) keeps' i' j' ∧
      ∀ step ∈ (trimFirst steps).head?, step.kind = .keep → step.old.length ≤ contextLines := by
  cases h with
  | nil => exact ⟨0, .zero old new i j, .nil keeps i j, nofun⟩
  | @keep _ _ n _ _ _ rest hpos hsame hrest =>
    have htrim : trimFirst (.keep i j n :: rest) = lastKept (.keep i j n) :: rest := rfl
    refine ⟨n - contextLines, hsame.take (Nat.sub_le _ _), htrim ▸ hrest.lastKept hpos hsame, ?_⟩
    rw [htrim]
    rintro step ⟨⟩ -
    exact length_lastKept_le i j n
  | @change _ _ _ _ _ step rest hstep hrest =>
    rw [trimFirst, if_neg hstep.kind_ne]
    refine ⟨0, .zero old new i j, .change hstep hrest, ?_⟩
    rintro _ ⟨⟩ hkeep
    exact absurd hkeep hstep.kind_ne

theorem isShown_trimLast {steps : List Step} (h : IsShown old new keeps i j steps keeps' i' j')
    (hfirst : ∀ step ∈ steps.head?, step.kind = .keep → step.old.length ≤ contextLines) :
    ∃ n a b, i' = a + n ∧ j' = b + n ∧ Same old new a b n ∧
      IsShown old new keeps i j (trimLast steps) keeps' a b ∧ IsTrimmed (trimLast steps) := by
  obtain rfl | ⟨front, last, rfl⟩ := List.eq_nil_or_concat steps
  · exact ⟨0, i', j', rfl, rfl, .zero old new _ _, h, nofun, nofun⟩
  rw [List.concat_eq_append] at h hfirst ⊢
  obtain ⟨keeps'', a, b, hfront, hlast⟩ := h.of_concat
  rw [trimLast_concat]
  cases hlast with
  -- A last kept step is cut to its first lines, and the others are the same behind it.
  | @keep _ _ n _ _ _ _ hpos hsame hnil =>
    cases hnil
    have hkeep : (Step.keep a b n).kind = .keep := rfl
    have hn : min n contextLines + (n - contextLines) = n := by omega
    have hshown := hfront.firstKept hpos hsame
    rw [if_pos hkeep]
    refine ⟨n - contextLines, _, _, ?_, ?_, Same.drop (hn.symm ▸ hsame), hshown, ?_⟩
    · rw [Nat.add_assoc, hn]
    · rw [Nat.add_assoc, hn]
    constructor
    · intro step hstep hkeep
      cases front with
      | nil =>
        obtain rfl := Option.some.inj hstep
        exact length_firstKept_le a b n
      | cons first front => exact hfirst step hstep hkeep
    · intro step hstep _
      rw [List.getLast?_concat] at hstep
      obtain rfl := Option.some.inj hstep
      exact length_firstKept_le a b n
  | change hchange hnil =>
    rw [if_neg hchange.kind_ne]
    refine ⟨0, i', j', rfl, rfl, .zero old new _ _, h, hfirst, ?_⟩
    intro step hstep hkeep
    rw [List.getLast?_concat] at hstep
    obtain rfl := Option.some.inj hstep
    exact absurd hkeep hchange.kind_ne

/-! ## Hunks -/

/-- Whether steps are a hunk for the lines between two places: kept lines and changes take turns in
it, and it keeps few lines between changes and fewer at its ends. -/
structure IsHunk (old new : Array String) (i j : Nat) (steps : List Step) (i' j' : Nat) : Prop where
  shown : ∃ keeps keeps', IsShown old new keeps i j steps keeps' i' j'
  trimmed : IsTrimmed steps
  short : ∀ step ∈ steps, step.kind = .keep → step.old.length ≤ 2 * contextLines
  changes : ∃ step ∈ steps, step.kind ≠ .keep

/-- Whether hunks are about the lines between two places, one after another, except for lines that
are the same. -/
inductive Lays (old new : Array String) : Nat → Nat → List (List Step) → Nat → Nat → Prop
  | nil {i j n : Nat} (hsame : Same old new i j n) : Lays old new i j [] (i + n) (j + n)
  | cons {i j n a b i' j' : Nat} {hunk : List Step} {hunks : List (List Step)}
      (hsame : Same old new i j n) (hhunk : IsHunk old new (i + n) (j + n) hunk a b)
      (hrest : Lays old new a b hunks i' j') : Lays old new i j (hunk :: hunks) i' j'

theorem lays_hunksFrom {group steps : List Step} {m n a b : Nat} (hgap : Same old new i j n)
    (h : IsShown old new keeps (i + n) (j + n) (group.reverse ++ steps) keeps' a b)
    (htrimmed : IsTrimmed (group.reverse ++ steps))
    (hshort : ∀ step ∈ group, step.kind = .keep → step.old.length ≤ 2 * contextLines)
    (hend : Same old new a b m) :
    Lays old new i j (hunksFrom group steps) (a + m) (b + m) := by
  -- The group is what is collected of the next hunk. No kept step of it is longer than a hunk may
  -- hold, and what lies between it and the last hunk is the same in both texts.
  fun_induction hunksFrom group steps generalizing i j n keeps with
  | case1 =>
    cases h
    rw [Nat.add_assoc, Nat.add_assoc]
    exact .nil (hgap.append hend)
  | case2 step hkeep =>
    obtain ⟨-, k, hpos, hsame, -, hnil⟩ := h.of_keep hkeep
    cases hnil
    have hfront := hgap.append hsame
    rw [Nat.add_assoc i, Nat.add_assoc j] at hend ⊢
    have hall := hfront.append hend
    rw [Nat.add_assoc i, Nat.add_assoc j]
    exact .nil hall
  | case3 step hchange =>
    exact .cons hgap ⟨⟨_, _, h⟩, htrimmed, by simpa using hshort, step,
      List.mem_singleton_self step, hchange⟩ (.nil hend)
  | case4 group hsome hmore =>
    rw [List.append_nil] at h htrimmed
    refine .cons hgap ⟨⟨_, _, h⟩, htrimmed, by simpa using hshort, h.exists_change ?_⟩ (.nil hend)
    match group, hsome, hmore with
    | [], hsome, _ => exact absurd rfl hsome
    | [step], _, hmore => exact absurd rfl (hmore step)
    | _ :: _ :: _, _, _ => simp
  | case5 group step rest hlong ih =>
    simp only [Bool.and_eq_true, decide_eq_true_eq] at hlong
    -- A long kept step ends the hunk: its front stays with it, its end starts the next one.
    obtain ⟨keeps'', p, q, hgroup, htail⟩ := h.of_append
    obtain ⟨rfl, k, hpos, hsame, rfl, hrest⟩ := htail.of_keep hlong.1
    obtain ⟨hhunk, hbetween, hnext⟩ := hgroup.cut hsame hrest hlong.2
    have hgroup_ne : group.reverse ≠ [] := by
      intro hnil
      rw [hnil] at htrimmed
      have hle : k ≤ contextLines := htrimmed.first _ rfl rfl
      have hk : 2 * contextLines < k := hlong.2
      omega
    have hfew : ∀ {length : Nat}, length ≤ contextLines → length ≤ 2 * contextLines :=
      fun hle => Nat.le_trans hle (Nat.le_mul_of_pos_left _ (by decide))
    rw [List.reverse_cons]
    refine .cons hgap ⟨⟨_, _, hhunk⟩, htrimmed.front hgroup_ne (length_firstKept_le p q k), ?_,
      hhunk.exists_change ?_⟩ (ih hbetween hnext (htrimmed.back (length_lastKept_le p q k)) ?_)
    · exact List.forall_mem_append.mpr ⟨fun step hstep => hshort step (List.mem_reverse.mp hstep),
        List.forall_mem_singleton.mpr fun _ => hfew (length_firstKept_le p q k)⟩
    · rw [List.length_append]
      exact Nat.succ_le_succ (List.length_pos_iff.mpr hgroup_ne)
    · exact List.forall_mem_singleton.mpr fun _ => hfew (length_lastKept_le p q k)
  | case6 group step rest hother ih =>
    rw [List.reverse_cons, List.append_assoc, List.singleton_append] at ih
    refine ih hgap h htrimmed ?_
    intro near hnear hkeep
    obtain rfl | hnear := List.mem_cons.mp hnear
    · simpa [hkeep] using hother
    · exact hshort near hnear hkeep

theorem lays_hunks {steps : List Step} (h : IsShown old new keeps i j steps keeps' i' j') :
    Lays old new i j (hunks steps) i' j' := by
  obtain ⟨n, hgap, hshown, hfirst⟩ := isShown_trimFirst h
  obtain ⟨m, a, b, rfl, rfl, hend, hshown, htrimmed⟩ := isShown_trimLast hshown hfirst
  rw [hunks, trimKept_eq]
  exact lays_hunksFrom hgap hshown htrimmed nofun hend

theorem lays_shownScript (old new : Array String) :
    Lays old new 0 0 (hunks (shownScript old new)) old.size new.size := by
  obtain ⟨keeps, keeps', h⟩ := isShown_shownScript old new
  exact lays_hunks h

end Rephrase.Diff
