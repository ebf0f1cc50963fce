import Rephrase.Proofs.Patch.Draft
import Rephrase.Proofs.Patch.Yield

/-! Planned files that lead to different places are edited as if each of them were the only one. -/

namespace Rephrase

namespace Disk

variable {disk : Disk} {path : String}

theorem rewritten_rewrite {content : Option ByteArray}
    (h : content ≠ none → ∃ location old,
      disk.resolve true path = .ok ⟨location, some (.file old)⟩) :
    disk.Rewritten path (disk.rewrite path content) := by
  cases content with
  | none => exact .inl rfl
  | some content =>
    obtain ⟨location, old, hresolve⟩ := h nofun
    refine .inr ⟨location, old, content, hresolve, ?_⟩
    unfold rewrite
    rw [hresolve]

/-- What a file holds when its content may have been replaced. -/
theorem bytesAt_rewrite {content : Option ByteArray}
    (h : content ≠ none → ∃ location old,
      disk.resolve true path = .ok ⟨location, some (.file old)⟩) :
    (disk.rewrite path content).bytesAt path = content.elim (disk.bytesAt path) .ok := by
  cases content with
  | none => rfl
  | some content =>
    obtain ⟨location, old, hresolve⟩ := h nofun
    unfold rewrite
    rw [hresolve]
    exact bytesAt_of_resolve (resolve_put hresolve content)

end Disk

namespace Patch

variable {options : Options}

/-! ## One file -/

theorem resolve_of_yield {limit : Option Nat} {disk : Disk} {plan : FilePlan}
    {yield : Patch × Option ByteArray}
    (h : plan.yield options limit (disk.textAt plan.location) = .ok yield)
    (hcontent : yield.2 ≠ none) :
    ∃ location old, disk.resolve true plan.location = .ok ⟨location, some (.file old)⟩ := by
  unfold FilePlan.yield at h
  split at h
  · cases h
    exact absurd rfl hcontent
  · cases h
    exact absurd rfl hcontent
  · exact Disk.resolve_of_textAt ‹_›

/-- Where no failure is told of, a draft is written as it was rehearsed, and shown as a diff. -/
theorem Draft.rehearsed {diffs : Bool} {limit : Option Nat} {file : String} {before : List Char}
    {draft : Draft} (h : (draft.yield ⟨true, diffs⟩ limit file before).1.failures = []) :
    (∀ limit', draft.yield ⟨false, diffs⟩ limit' file before =
      ((draft.yield ⟨true, diffs⟩ limit file before).1, none)) ∧
    (draft.yield ⟨true, diffs⟩ limit file before).2 =
      (if draft.applied.isEmpty then none else some (String.ofList draft.content).toUTF8) ∧
    (diffs = true → draft.applied ≠ [] →
      ⟨file, String.ofList (Diff.unified file before draft.content)⟩ ∈
        (draft.yield ⟨true, diffs⟩ limit file before).1.diffs) := by
  unfold Draft.yield at h ⊢
  dsimp only at h ⊢
  split at h
  · rename_i happlied
    refine ⟨fun _ => by rw [if_pos happlied, if_pos happlied], by rw [if_pos happlied, if_pos happlied],
      fun _ hne => absurd (List.isEmpty_iff.mp happlied) hne⟩
  rename_i happlied
  rw [if_pos rfl] at h
  split at h
  · rw [if_neg happlied, if_pos rfl]
    refine ⟨fun _ => if_neg happlied, (if_neg happlied).symm, fun hdiffs _ => ?_⟩
    simp [append_eq, modified, hdiffs]
  · simp [append_eq, failed] at h

/-- Where no failure is told of, a file is written as it was rehearsed, and shown as a diff. -/
theorem rehearsed_of_yield {diffs : Bool} {limit : Option Nat} {plan : FilePlan}
    {first : PlannedEdit} {rest : List PlannedEdit} {text : String}
    {yield : Patch × Option ByteArray} (hedits : plan.edits = first :: rest)
    (h : plan.yield ⟨true, diffs⟩ limit (.ok text) = .ok yield)
    (hfailures : yield.1.failures = []) : ∃ draft,
      draftOf first.node.file text.toList plan.edits = .ok draft ∧
      (∀ limit', plan.yield ⟨false, diffs⟩ limit' (.ok text) = .ok (yield.1, none)) ∧
      yield.2 = (if draft.applied.isEmpty then none
        else some (String.ofList draft.content).toUTF8) ∧
      (diffs = true → draft.applied ≠ [] →
        ⟨first.node.file, String.ofList (Diff.unified first.node.file text.toList
          draft.content)⟩ ∈ yield.1.diffs) := by
  unfold FilePlan.yield at h ⊢
  rw [hedits] at h ⊢
  dsimp only at h ⊢
  cases hdraft : draftOf first.node.file text.toList (first :: rest) with
  | error fault =>
    rw [hdraft] at h
    cases h
  | ok draft =>
    rw [hdraft] at h
    cases h
    obtain ⟨hrehearsed, hcontent, hdiff⟩ := Draft.rehearsed hfailures
    exact ⟨draft, rfl, fun limit' => congrArg Except.ok (hrehearsed limit'), hcontent, hdiff⟩

/-! ## All files -/

theorem YieldInTurn.bytesAt {disk disk' : Disk} {plans : List FilePlan}
    {yields : List (Patch × Option ByteArray)} (h : YieldInTurn options disk plans yields disk')
    {path : String} (hapart : ∀ plan ∈ plans, disk.Apart path plan.location) :
    disk'.bytesAt path = disk.bytesAt path :=
  (editedInTurn_of_foldlM (h.run {})).bytesAt hapart

/-- Each file yields what it would yield alone, and is left so. -/
theorem YieldInTurn.alone {disk disk' : Disk} {plans : List FilePlan}
    {yields : List (Patch × Option ByteArray)} (h : YieldInTurn options disk plans yields disk')
    (hapart : plans.Pairwise fun a b => disk.Apart a.location b.location) :
    List.Forall₂ (fun plan yield =>
      plan.yield options disk.limit (disk.textAt plan.location) = .ok yield ∧
        disk'.bytesAt plan.location = yield.2.elim (disk.bytesAt plan.location) .ok)
      plans yields := by
  induction h with
  | nil => exact .nil
  | @cons disk disk' plan plans yield yields hfirst hrest ih =>
    obtain ⟨hplan, hplans⟩ := List.pairwise_cons.mp hapart
    have hresolve := resolve_of_yield hfirst
    have hrewritten := Disk.rewritten_rewrite hresolve
    have hlater := ih (hplans.imp hrewritten.apart)
    refine .cons ⟨hfirst, ?_⟩ ?_
    · rw [hrest.bytesAt fun other hother => hrewritten.apart (hplan other hother),
        Disk.bytesAt_rewrite hresolve]
    · rw [List.forall₂_iff_zip] at hlater ⊢
      refine ⟨hlater.1, fun {other yield'} hmem => ?_⟩
      -- The other files were not touched when the first one was written.
      have hother := hplan other (List.of_mem_zip hmem).1
      rw [← hrewritten.textAt hother, ← hrewritten.bytesAt hother, ← hrewritten.limit]
      exact hlater.2 hmem

end Patch

end Rephrase
