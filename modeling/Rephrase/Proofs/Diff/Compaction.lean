import Rephrase.Diff.Compaction
import Rephrase.Proofs.Diff.Script

/-! A script stays one for the same lines when its steps slide, and also when it is brought into the
form in which kept lines and changes take turns. -/

namespace Rephrase.Diff

variable {old new : Array String} {i j i' j' : Nat}

@[simp] theorem Stretch.stop_mk (a n : Nat) : (⟨a, n⟩ : Stretch).stop = a + n := rfl

namespace Step

section

variable (a b n : Nat)

@[simp] theorem old_keep : (keep a b n).old = ⟨a, n⟩ := rfl

@[simp] theorem new_keep : (keep a b n).new = ⟨b, n⟩ := rfl

@[simp] theorem old_remove : (remove a n b).old = ⟨a, n⟩ := rfl

@[simp] theorem new_remove : (remove a n b).new = ⟨b, 0⟩ := rfl

@[simp] theorem old_add : (add a b n).old = ⟨a, 0⟩ := rfl

@[simp] theorem new_add : (add a b n).new = ⟨b, n⟩ := rfl

end

@[simp] theorem resize_keep (a b n : Nat) (f : Nat → Nat) :
    (keep a b n).resize f = keep a b (f n) := rfl

@[simp] theorem shift_keep (a b n : Nat) (f : Nat → Nat) :
    (keep a b n).shift f = keep (f a) (f b) n := rfl

@[simp] theorem shift_add (a b n : Nat) (f : Nat → Nat) :
    (add a b n).shift f = add (f a) (f b) n := rfl

theorem isEmpty_keep {a b n : Nat} : (keep a b n).isEmpty = true ↔ n = 0 := by
  constructor
  · intro h
    exact of_decide_eq_true (Bool.and_eq_true_iff.mp h).1
  · rintro rfl
    rfl

/-- Changed lines between two places: removed or added ones. -/
theorem Stands.of_change {step : Step} (h : step.Stands old new i j) (hkind : step.kind ≠ .keep) :
    (∃ n place, 0 < n ∧ step = .remove i n place) ∨ ∃ n place, 0 < n ∧ step = .add place j n := by
  cases h with
  | keep => exact absurd rfl hkind
  | remove hpos => exact .inl ⟨_, _, hpos, rfl⟩
  | add hpos => exact .inr ⟨_, _, hpos, rfl⟩

theorem Stands.of_keep {step : Step} (h : step.Stands old new i j) (hkind : step.kind = .keep) :
    ∃ n, 0 < n ∧ Same old new i j n ∧ step = .keep i j n := by
  cases h with
  | keep hpos hsame => exact ⟨_, hpos, hsame, rfl⟩
  | remove => cases hkind
  | add => cases hkind

theorem Stands.not_isEmpty {step : Step} (h : step.Stands old new i j) : ¬ step.isEmpty := by
  intro hempty
  simp only [isEmpty, Bool.and_eq_true, decide_eq_true_eq] at hempty
  cases h with
  | keep hpos => exact absurd hempty.1 (Nat.ne_of_gt hpos)
  | remove hpos => exact absurd hempty.1 (Nat.ne_of_gt hpos)
  | add hpos => exact absurd hempty.2 (Nat.ne_of_gt hpos)

end Step

theorem IsScript.cons_iff {step : Step} {steps : List Step} :
    IsScript old new i j (step :: steps) i' j' ↔ step.Stands old new i j ∧
      IsScript old new (i + step.old.length) (j + step.new.length) steps i' j' := by
  constructor
  · rintro (_ | ⟨hstep, hrest⟩)
    exact ⟨hstep, hrest⟩
  · rintro ⟨hstep, hrest⟩
    exact .cons hstep hrest

/-! ## Sliding -/

/-- Kept lines in front of a script join those that it starts with. -/
theorem isScript_leaveKept {n : Nat} {steps : List Step} (hpos : 0 < n)
    (hsame : Same old new i j n) (h : IsScript old new (i + n) (j + n) steps i' j') :
    IsScript old new i j
      (leaveKept (fun kept => (kept.shift (· - n)).resize (· + n)) (.keep i j n) steps) i' j' := by
  have hfresh : (Step.keep i j n).Stands old new i j := .keep hpos hsame
  cases h with
  | nil => exact .singleton hfresh
  | @cons _ _ _ _ step rest hstep hrest =>
    rw [leaveKept]
    split
    · rename_i hkeep
      cases hstep with
      | @keep m hm hkept =>
        rw [Step.shift_keep, Step.resize_keep, Nat.add_sub_cancel, Nat.add_sub_cancel,
          Nat.add_comm m]
        rw [Nat.add_assoc i, Nat.add_assoc j] at hrest
        exact .cons (.keep (Nat.add_pos_left hpos m) (hsame.append hkept)) hrest
      | remove => cases hkeep
      | add => cases hkeep
    · exact .cons hfresh (.cons hstep hrest)

/-- Kept lines behind a script join those that it ends with. -/
theorem isScript_leaveKept_reverse {n : Nat} {above : List Step} (hpos : 0 < n)
    (hsame : Same old new i' j' n) (h : IsScript old new i j above.reverse i' j') :
    IsScript old new i j (leaveKept (·.resize (· + n)) (.keep i' j' n) above).reverse
      (i' + n) (j' + n) := by
  have hfresh : (Step.keep i' j' n).Stands old new i' j' := .keep hpos hsame
  cases above with
  | nil => exact h.append (.singleton hfresh)
  | cons step rest =>
    rw [leaveKept]
    split
    · rename_i hkeep
      rw [List.reverse_cons] at h ⊢
      obtain ⟨a, b, hrest, hlast⟩ := h.of_append
      obtain _ | ⟨hstep, hnil⟩ := hlast
      cases hstep with
      | @keep m hm hkept =>
        cases hnil
        refine hrest.append ?_
        rw [Step.resize_keep, Nat.add_assoc a, Nat.add_assoc b]
        exact .singleton (.keep (Nat.add_pos_left hm n) (hkept.append hsame))
      | remove => cases hkeep
      | add => cases hkeep
    · rw [List.reverse_cons]
      exact h.append (.singleton hfresh)

/-- Kept lines, if there are any, and steps behind them. -/
theorem isScript_kept {n : Nat} {steps : List Step} (hsame : Same old new i j n)
    (h : IsScript old new (i + n) (j + n) steps i' j') :
    IsScript old new i j
      ((if (Step.keep i j n).isEmpty then [] else [.keep i j n]) ++ steps) i' j' := by
  split
  · rename_i hempty
    obtain rfl := Step.isEmpty_keep.mp hempty
    exact h
  · rename_i hsome
    have hpos := Nat.pos_of_ne_zero fun hzero => hsome (Step.isEmpty_keep.mpr hzero)
    exact .cons (.keep hpos hsame) h

/-- Added lines change places with kept ones that end like them. -/
theorem isScript_passUp {near step : Step} {below : List Step} {n : Nat}
    (hkeep : near.kind = .keep) (hkind : step.kind ≠ .keep)
    (hn : n = commonSuffix old new near.old.stop step.new.stop
      (min near.old.length step.new.length)) (hpos : n ≠ 0)
    (h : IsScript old new i j (near :: step :: below) i' j') :
    IsScript old new i j
      ((if (near.resize (· - n)).isEmpty then [] else [near.resize (· - n)]) ++
        step.shift (· - n) :: leaveKept (fun kept => (kept.shift (· - n)).resize (· + n))
          (.keep (near.old.stop - n) (step.new.stop - n) n) below) i' j' := by
  obtain ⟨hnear, h⟩ := IsScript.cons_iff.mp h
  obtain ⟨hstep, hbelow⟩ := IsScript.cons_iff.mp h
  obtain ⟨k, hk, hsame, rfl⟩ := hnear.of_keep hkeep
  obtain ⟨m, place, hm, rfl⟩ | ⟨m, place, hm, rfl⟩ := hstep.of_change hkind
  -- Removed lines have nothing on the new side that could be the same.
  · simp [commonSuffix] at hn
    exact absurd hn hpos
  simp only [Step.old_keep, Step.new_keep, Step.old_add, Step.new_add, Stretch.stop_mk]
    at hn hbelow ⊢
  have hle : n ≤ min k m := hn ▸ commonSuffix_le _ _ _ _ _
  have hlast : Same old new (i + k - n) (j + k + m - n) n := by
    rw [hn]
    exact same_commonSuffix (by omega) (by omega)
  rw [Step.resize_keep, Step.shift_add]
  refine isScript_kept (hsame.take (Nat.sub_le k n)) ?_
  rw [show j + k - n = j + (k - n) by omega]
  refine .cons (.add hm) ?_
  rw [Step.old_add, Step.new_add, show i + k - n = i + (k - n) + 0 by omega,
    show j + k + m - n = j + (k - n) + m by omega] at *
  refine isScript_leaveKept (Nat.pos_of_ne_zero hpos) hlast ?_
  rwa [show i + (k - n) + 0 + n = i + k + 0 by omega,
    show j + (k - n) + m + n = j + k + m by omega]

/-- Added lines change places with kept ones that start like them. -/
theorem isScript_passDown {near step : Step} {above below : List Step} {n : Nat}
    (hkeep : near.kind = .keep) (hkind : step.kind ≠ .keep)
    (hn : n = commonPrefix old new near.old.start step.new.start
      (min near.old.length step.new.length)) (hpos : n ≠ 0)
    (h : IsScript old new i j (above.reverse ++ step :: near :: below) i' j') :
    IsScript old new i j
      ((leaveKept (·.resize (· + n)) (.keep near.old.start step.new.start n) above).reverse ++
        step.shift (· + n) ::
          ((if ((near.shift (· + n)).resize (· - n)).isEmpty then []
            else [(near.shift (· + n)).resize (· - n)]) ++ below)) i' j' := by
  obtain ⟨a, b, habove, h⟩ := h.of_append
  obtain ⟨hstep, h⟩ := IsScript.cons_iff.mp h
  obtain ⟨hnear, hbelow⟩ := IsScript.cons_iff.mp h
  obtain ⟨k, hk, hsame, rfl⟩ := hnear.of_keep hkeep
  obtain ⟨m, place, hm, rfl⟩ | ⟨m, place, hm, rfl⟩ := hstep.of_change hkind
  · simp [commonPrefix] at hn
    exact absurd hn hpos
  rw [Step.shift_keep, Step.resize_keep, Step.shift_add]
  simp only [Step.old_keep, Step.new_keep, Step.old_add, Step.new_add, Nat.add_zero]
    at hn hsame hbelow ⊢
  have hle : n ≤ min k m := hn ▸ commonPrefix_le _ _ _ _ _
  have hfirst : Same old new a b n := hn ▸ same_commonPrefix _ _ _ _ _
  refine (isScript_leaveKept_reverse (Nat.pos_of_ne_zero hpos) hfirst habove).append ?_
  have hkept : Same old new (a + n) (b + m + n) (k - n) := by
    refine Same.drop ?_
    rwa [Nat.add_sub_cancel' (by omega)]
  refine .cons (.add hm) ?_
  rw [Step.old_add, Step.new_add, Nat.add_zero, Nat.add_right_comm b n]
  refine isScript_kept hkept ?_
  rwa [show a + n + (k - n) = a + k by omega, show b + m + n + (k - n) = b + m + k by omega]

/-- Two changes of one kind are one change. -/
theorem isScript_join {near step : Step} {steps : List Step} (hsame : near.kind = step.kind)
    (hkind : near.kind ≠ .keep) (h : IsScript old new i j (near :: step :: steps) i' j') :
    IsScript old new i j
      (near.resize (· + if near.kind = .remove then step.old.length else step.new.length) :: steps)
      i' j' := by
  obtain ⟨hnear, h⟩ := IsScript.cons_iff.mp h
  obtain ⟨hstep, hsteps⟩ := IsScript.cons_iff.mp h
  obtain ⟨k, place, hk, rfl⟩ | ⟨k, place, hk, rfl⟩ := hnear.of_change hkind <;>
    obtain ⟨m, place', hm, rfl⟩ | ⟨m, place', hm, rfl⟩ := hstep.of_change (hsame ▸ hkind)
  · simp only [Step.old_remove, Step.new_remove, Nat.add_zero] at hsteps
    rw [Nat.add_assoc] at hsteps
    exact .cons (.remove (Nat.add_pos_left hk m)) hsteps
  · cases hsame
  · cases hsame
  · simp only [Step.old_add, Step.new_add, Nat.add_zero] at hsteps
    rw [Nat.add_assoc] at hsteps
    exact .cons (.add (Nat.add_pos_left hk m)) hsteps

/-- Changes of different kinds may change places. -/
theorem isScript_swap {near step : Step} {steps : List Step} (hother : near.kind ≠ step.kind)
    (hnear : near.kind ≠ .keep) (hstep : step.kind ≠ .keep)
    (h : IsScript old new i j (near :: step :: steps) i' j') :
    IsScript old new i j (step :: near :: steps) i' j' := by
  obtain ⟨hnear', h⟩ := IsScript.cons_iff.mp h
  obtain ⟨hstep', hsteps⟩ := IsScript.cons_iff.mp h
  obtain ⟨k, place, hk, rfl⟩ | ⟨k, place, hk, rfl⟩ := hnear'.of_change hnear <;>
    obtain ⟨m, place', hm, rfl⟩ | ⟨m, place', hm, rfl⟩ := hstep'.of_change hstep
  · exact absurd rfl hother
  · exact .cons (.add hm) (.cons (.remove hk) hsteps)
  · exact .cons (.remove hm) (.cons (.add hk) hsteps)
  · exact absurd rfl hother

theorem isScript_slideUp {step : Step} {above below : List Step} (hkind : step.kind ≠ .keep)
    (h : IsScript old new i j (above.reverse ++ step :: below) i' j') :
    IsScript old new i j ((slideUp old new step below above).above.reverse ++
      (slideUp old new step below above).step :: (slideUp old new step below above).below) i' j' ∧
      (slideUp old new step below above).step.kind = step.kind := by
  fun_induction slideUp old new step below above with
  | case1 step below => exact ⟨h, rfl⟩
  | case2 step below near rest hkeep n hzero hempty ih =>
    rw [List.reverse_cons, List.append_assoc, List.singleton_append] at h
    obtain ⟨a, b, -, hnear⟩ := h.of_append
    exact absurd hempty (IsScript.cons_iff.mp hnear).1.not_isEmpty
  | case3 step below near rest hkeep n hzero hempty => exact ⟨h, rfl⟩
  -- The kept step above gives its last lines to the one below, or goes there as a whole.
  | case4 step below near rest hkeep n hpos fresh join less ih =>
    rw [List.reverse_cons, List.append_assoc, List.singleton_append] at h
    refine ih hkind ?_
    have hpassed := h.exchange fun a b hnear => isScript_passUp hkeep hkind rfl hpos hnear
    dsimp only [dite_eq_ite]
    split
    · rename_i hempty
      rwa [if_pos hempty] at hpassed
    · rename_i hsome
      rw [if_neg hsome] at hpassed
      rwa [List.reverse_cons, List.append_assoc]
  | case5 step below near rest hkeep hsame length ih =>
    rw [List.reverse_cons, List.append_assoc, List.singleton_append] at h
    obtain ⟨hscript, hstep⟩ :=
      ih hkeep (h.exchange fun a b hnear => isScript_join hsame hkeep hnear)
    exact ⟨hscript, hstep.trans hsame⟩
  | case6 step below near rest hkeep hother ih =>
    rw [List.reverse_cons, List.append_assoc, List.singleton_append] at h
    exact ih hkind (h.exchange fun a b hnear => isScript_swap hother hkeep hkind hnear)

theorem isScript_slideDown {step : Step} {above below : List Step} (hkind : step.kind ≠ .keep)
    (h : IsScript old new i j (above.reverse ++ step :: below) i' j') :
    IsScript old new i j ((slideDown old new step above below).above.reverse ++
      (slideDown old new step above below).step :: (slideDown old new step above below).below)
      i' j' := by
  fun_induction slideDown old new step above below with
  | case1 step above => exact h
  | case2 step above near rest hkeep n hzero hempty ih =>
    obtain ⟨a, b, -, hstep⟩ := h.of_append
    exact absurd hempty (IsScript.cons_iff.mp (IsScript.cons_iff.mp hstep).2).1.not_isEmpty
  | case3 step above near rest hkeep n hzero hempty => exact h
  -- The kept step below gives its first lines to the one above, or goes there as a whole.
  | case4 step above near rest hkeep n hpos fresh less ih =>
    refine ih hkind ?_
    have hpassed := isScript_passDown hkeep hkind rfl hpos h
    dsimp only [dite_eq_ite]
    split
    · rename_i hempty
      rwa [if_pos hempty] at hpassed
    · rename_i hsome
      rwa [if_neg hsome] at hpassed
  | case5 step above near rest hkeep hsame length ih =>
    refine ih hkind (h.exchange fun a b hstep => ?_)
    have hjoined := isScript_join hsame.symm hkind hstep
    rwa [← hsame] at hjoined
  | case6 step above near rest hkeep hother ih =>
    refine ih hkind ?_
    rw [List.reverse_cons, List.append_assoc, List.singleton_append]
    exact h.exchange fun a b hstep => isScript_swap (Ne.symm hother) hkind hkeep hstep

theorem isScript_slideAll {kind : Kind} (hkind : kind ≠ .keep) {fuel : Nat}
    {above below : List Step} (h : IsScript old new i j (above.reverse ++ below) i' j') :
    IsScript old new i j (slideAll old new kind above fuel below) i' j' := by
  fun_induction slideAll old new kind above fuel below with
  | case1 above below => exact h
  | case2 above fuel => rwa [List.append_nil] at h
  | case3 above fuel step below hstep up down ih =>
    obtain ⟨hup, hsame⟩ := isScript_slideUp (hstep ▸ hkind) h
    have hdown := isScript_slideDown (hsame ▸ hstep ▸ hkind) hup
    refine ih ?_
    rwa [List.reverse_cons, List.append_assoc, List.singleton_append]
  | case4 above fuel step below hother ih =>
    refine ih ?_
    rwa [List.reverse_cons, List.append_assoc, List.singleton_append]

theorem isScript_slide {steps : List Step} (h : IsScript old new i j steps i' j') :
    IsScript old new i j (slide old new steps) i' j' := by
  have hremove : Kind.remove ≠ .keep := nofun
  have hadd : Kind.add ≠ .keep := nofun
  exact isScript_slideAll hadd (isScript_slideAll hremove h)

/-! ## Kept lines and changes in turn -/

/-- The changes of the lines behind two places: lines go, lines come, or both. -/
inductive Step.Changes (i j : Nat) : Step → Prop
  | remove {n place : Nat} (hpos : 0 < n) : Changes i j (.remove i n place)
  | add {n place : Nat} (hpos : 0 < n) : Changes i j (.add place j n)
  | replace {m n : Nat} (hold : 0 < m) (hnew : 0 < n) :
      Changes i j ⟨.replace, ⟨i, m⟩, ⟨j, n⟩⟩

/-- Whether steps are a script for the lines between two places in which kept lines and changes take
turns. At either place, `keeps` says whether it is the turn of kept lines. -/
inductive IsShown (old new : Array String) :
    Bool → Nat → Nat → List Step → Bool → Nat → Nat → Prop
  | nil (keeps : Bool) (i j : Nat) : IsShown old new keeps i j [] keeps i j
  | keep {i j n i' j' : Nat} {keeps' : Bool} {steps : List Step} (hpos : 0 < n)
      (hsame : Same old new i j n)
      (hrest : IsShown old new false (i + n) (j + n) steps keeps' i' j') :
      IsShown old new true i j (.keep i j n :: steps) keeps' i' j'
  | change {i j i' j' : Nat} {keeps' : Bool} {step : Step} {steps : List Step}
      (hstep : step.Changes i j)
      (hrest :
        IsShown old new true (i + step.old.length) (j + step.new.length) steps keeps' i' j') :
      IsShown old new false i j (step :: steps) keeps' i' j'

namespace IsShown

variable {keeps keeps' keeps'' : Bool} {i'' j'' : Nat} {steps more : List Step}

theorem append (h : IsShown old new keeps i j steps keeps' i' j')
    (h' : IsShown old new keeps' i' j' more keeps'' i'' j'') :
    IsShown old new keeps i j (steps ++ more) keeps'' i'' j'' := by
  induction h with
  | nil => exact h'
  | keep hpos hsame _ ih => exact .keep hpos hsame (ih h')
  | change hstep _ ih => exact .change hstep (ih h')

theorem of_append (h : IsShown old new keeps i j (steps ++ more) keeps'' i'' j'') :
    ∃ keeps' i' j', IsShown old new keeps i j steps keeps' i' j' ∧
      IsShown old new keeps' i' j' more keeps'' i'' j'' := by
  induction steps generalizing keeps i j with
  | nil => exact ⟨keeps, i, j, .nil keeps i j, h⟩
  | cons step steps ih =>
    cases h with
    | keep hpos hsame hrest =>
      obtain ⟨keeps', i', j', hsteps, hmore⟩ := ih hrest
      exact ⟨keeps', i', j', .keep hpos hsame hsteps, hmore⟩
    | change hstep hrest =>
      obtain ⟨keeps', i', j', hsteps, hmore⟩ := ih hrest
      exact ⟨keeps', i', j', .change hstep hsteps, hmore⟩

end IsShown

/-- Whether lines that go are still open: `m` of them, from a place on. -/
def IsRemoval (i m : Nat) : Option Step → Prop
  | none => m = 0
  | some step => 0 < m ∧ ∃ place, step = .remove i m place

/-- Whether lines that come are still open. -/
def IsAddition (j n : Nat) : Option Step → Prop
  | none => n = 0
  | some step => 0 < n ∧ ∃ place, step = .add place j n

theorem IsRemoval.joined {m n place : Nat} {removed : Option Step} (h : IsRemoval i m removed)
    (hpos : 0 < n) : IsRemoval i (m + n) (some (joined removed (.remove (i + m) n place))) := by
  cases removed with
  | none =>
    obtain rfl : m = 0 := h
    rw [Nat.zero_add, Nat.add_zero]
    exact ⟨hpos, place, rfl⟩
  | some first =>
    obtain ⟨hm, place', rfl⟩ := h
    exact ⟨Nat.add_pos_left hm n, place', rfl⟩

theorem IsAddition.joined {m n place : Nat} {added : Option Step} (h : IsAddition j m added)
    (hpos : 0 < n) : IsAddition j (m + n) (some (joined added (.add place (j + m) n))) := by
  cases added with
  | none =>
    obtain rfl : m = 0 := h
    rw [Nat.zero_add, Nat.add_zero]
    exact ⟨hpos, place, rfl⟩
  | some first =>
    obtain ⟨hm, place', rfl⟩ := h
    exact ⟨Nat.add_pos_left hm n, place', rfl⟩

/-- What may still be open between two places: kept lines, or lines that go and lines that come. -/
inductive IsPending (old new : Array String) (i j : Nat) :
    Bool → Option Step → Option Step → Option Step → Nat → Nat → Prop
  | kept {n : Nat} (hpos : 0 < n) (hsame : Same old new i j n) :
      IsPending old new i j true (some (.keep i j n)) none none (i + n) (j + n)
  | changed {m n : Nat} {removed added : Option Step} (hremoved : IsRemoval i m removed)
      (hadded : IsAddition j n added) (hpos : 0 < m + n) :
      IsPending old new i j false none removed added (i + m) (j + n)

theorem IsPending.removed {n : Nat} (place : Nat) (hpos : 0 < n) :
    IsPending old new i j false none (some (.remove i n place)) none (i + n) (j + 0) :=
  .changed (show IsRemoval i n _ from ⟨hpos, place, rfl⟩) (show IsAddition j 0 none from rfl) hpos

theorem IsPending.added {n : Nat} (place : Nat) (hpos : 0 < n) :
    IsPending old new i j false none none (some (.add place j n)) (i + 0) (j + n) :=
  .changed (show IsRemoval i 0 none from rfl) (show IsAddition j n _ from ⟨hpos, place, rfl⟩)
    (Nat.add_pos_right 0 hpos)

theorem isShown_changed {m n : Nat} {removed added : Option Step} (hremoved : IsRemoval i m removed)
    (hadded : IsAddition j n added) (hpos : 0 < m + n) :
    IsShown old new false i j (changed removed added) true (i + m) (j + n) := by
  cases removed with
  | none =>
    obtain rfl : m = 0 := hremoved
    cases added with
    | none =>
      obtain rfl : n = 0 := hadded
      exact absurd hpos (Nat.lt_irrefl 0)
    | some step =>
      obtain ⟨hn, place, rfl⟩ := hadded
      exact .change (.add hn) (.nil true _ _)
  | some first =>
    obtain ⟨hm, place, rfl⟩ := hremoved
    cases added with
    | none =>
      obtain rfl : n = 0 := hadded
      exact .change (.remove hm) (.nil true _ _)
    | some step =>
      obtain ⟨hn, place', rfl⟩ := hadded
      exact .change (.replace hm hn) (.nil true _ _)

theorem isShown_combineFrom {keeps : Bool} {kept removed added : Option Step} {steps : List Step}
    {a b : Nat} (hpending : IsPending old new i j keeps kept removed added a b)
    (h : IsScript old new a b steps i' j') :
    ∃ keeps', IsShown old new keeps i j (combineFrom kept removed added steps) keeps' i' j' := by
  induction steps generalizing i j keeps kept removed added a b with
  | nil =>
    cases h
    cases hpending with
    | kept hpos hsame => exact ⟨false, .keep hpos hsame (.nil false _ _)⟩
    | changed hremoved hadded hpos => exact ⟨true, isShown_changed hremoved hadded hpos⟩
  -- A step of the pending kind is joined to it; any other one shows what was pending.
  | cons step rest ih =>
    obtain ⟨hstep, hrest⟩ := IsScript.cons_iff.mp h
    cases hpending with
    | @kept m hm hkept =>
      cases hstep with
      | @keep n hn hsame =>
        refine ih ?_ hrest
        rw [Step.old_keep, Step.new_keep, Nat.add_assoc, Nat.add_assoc]
        exact .kept (Nat.add_pos_left hm n) (hkept.append hsame)
      | @remove n place hn =>
        obtain ⟨keeps', hshown⟩ := ih (.removed place hn) hrest
        exact ⟨keeps', .keep hm hkept hshown⟩
      | @add n place hn =>
        obtain ⟨keeps', hshown⟩ := ih (.added place hn) hrest
        exact ⟨keeps', .keep hm hkept hshown⟩
    | @changed m m' _ _ hremoved hadded hpos =>
      cases hstep with
      | keep hn hsame =>
        obtain ⟨keeps', hshown⟩ := ih (.kept hn hsame) hrest
        exact ⟨keeps', (isShown_changed hremoved hadded hpos).append hshown⟩
      | @remove n place hn =>
        refine ih ?_ hrest
        rw [Step.old_remove, Step.new_remove, Nat.add_assoc i]
        exact .changed (hremoved.joined hn) hadded (by omega)
      | @add n place hn =>
        refine ih ?_ hrest
        rw [Step.old_add, Step.new_add, Nat.add_assoc j]
        exact .changed hremoved (hadded.joined hn) (by omega)

theorem isShown_combine {steps : List Step} (h : IsScript old new i j steps i' j') :
    ∃ keeps keeps', IsShown old new keeps i j (combine steps) keeps' i' j' := by
  cases h with
  | nil => exact ⟨true, true, .nil true i j⟩
  | @cons _ _ _ _ step rest hstep hrest =>
    cases hstep with
    | keep hpos hsame =>
      have hshown := isShown_combineFrom (.kept hpos hsame) hrest
      exact ⟨true, hshown⟩
    | @remove n place hpos =>
      have hshown := isShown_combineFrom (.removed place hpos) hrest
      exact ⟨false, hshown⟩
    | @add n place hpos =>
      have hshown := isShown_combineFrom (.added place hpos) hrest
      exact ⟨false, hshown⟩

end Rephrase.Diff
