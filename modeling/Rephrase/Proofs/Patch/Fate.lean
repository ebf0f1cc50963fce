import Rephrase.Proofs.Patch.Yield

/-! Every edit of a file is applied or passed over, and the patch tells which, under the name of the
file. -/

namespace Rephrase.Patch

/-- What a patch tells of an edit, if it tells of its file under a name. -/
inductive IsFate (file : String) (edit : PlannedEdit) : Applied ⊕ Skipped → Prop
  | applied (way : Edit.Way) : IsFate file edit (.inl ⟨file, edit.node.start.line, way⟩)
  | skipped (reason : Reason) : IsFate file edit (.inr (edit.skip reason))

def appliedOf (fates : List (Applied ⊕ Skipped)) : List Applied := fates.filterMap Sum.getLeft?

def skippedOf (fates : List (Applied ⊕ Skipped)) : List Skipped := fates.filterMap Sum.getRight?

theorem length_fates (fates : List (Applied ⊕ Skipped)) :
    (appliedOf fates).length + (skippedOf fates).length = fates.length := by
  induction fates with
  | nil => rfl
  | cons fate fates ih =>
    obtain a | s := fate
    · show (appliedOf fates).length + 1 + (skippedOf fates).length = fates.length + 1
      omega
    · show (appliedOf fates).length + ((skippedOf fates).length + 1) = fates.length + 1
      omega

/-! ## Drafts -/

theorem exists_fate {file : String} {draft draft' : Draft} {edit : PlannedEdit}
    (h : draft.edit file edit = .ok draft') : ∃ fate, IsFate file edit fate ∧
      draft'.applied = draft.applied ++ appliedOf [fate] ∧
      draft'.skipped = draft.skipped ++ skippedOf [fate] := by
  have hskip : ∀ reason, ∃ fate, IsFate file edit fate ∧
      (draft.skip edit reason).applied = draft.applied ++ appliedOf [fate] ∧
      (draft.skip edit reason).skipped = draft.skipped ++ skippedOf [fate] :=
    fun reason => ⟨_, .skipped reason, (List.append_nil _).symm, rfl⟩
  unfold Draft.edit at h
  split at h
  · cases h
    exact hskip .noop
  split at h
  · cases h
    exact hskip .declined
  obtain ⟨result, -, h⟩ := bind_eq_ok.mp h
  split at h
  · rename_i content way
    split at h
    · cases h
      exact hskip .unchanged
    · cases h
      exact ⟨_, .applied way, rfl, (List.append_nil _).symm⟩
  · cases h
    exact hskip .unmatched

/-- Every edit has a fate, and the draft tells of all of them in their order. -/
theorem exists_fates {file : String} {content : List Char} {edits : List PlannedEdit}
    {draft : Draft} (h : draftOf file content edits = .ok draft) :
    ∃ fates, List.Forall₂ (IsFate file) edits fates ∧ draft.applied = appliedOf fates ∧
      draft.skipped = skippedOf fates := by
  suffices ∀ start : Draft, edits.foldlM (Draft.edit file) start = .ok draft →
      ∃ fates, List.Forall₂ (IsFate file) edits fates ∧
        draft.applied = start.applied ++ appliedOf fates ∧
        draft.skipped = start.skipped ++ skippedOf fates from this { content } h
  clear h
  induction edits with
  | nil =>
    intro start h
    cases h
    exact ⟨[], .nil, (List.append_nil _).symm, (List.append_nil _).symm⟩
  | cons edit edits ih =>
    intro start h
    rw [List.foldlM_cons] at h
    obtain ⟨next, hnext, h⟩ := bind_eq_ok.mp h
    obtain ⟨fate, hfate, happlied, hskipped⟩ := exists_fate hnext
    obtain ⟨fates, hfates, happlied', hskipped'⟩ := ih next h
    refine ⟨fate :: fates, .cons hfate hfates, ?_, ?_⟩
    · rw [happlied', happlied, List.append_assoc, appliedOf, appliedOf, appliedOf,
        ← List.filterMap_append, List.singleton_append]
    · rw [hskipped', hskipped, List.append_assoc, skippedOf, skippedOf, skippedOf,
        ← List.filterMap_append, List.singleton_append]

theorem file_of_fates {file : String} {edits : List PlannedEdit}
    {fates : List (Applied ⊕ Skipped)} (h : List.Forall₂ (IsFate file) edits fates) :
    (∀ a ∈ appliedOf fates, a.file = file) ∧
      ∀ s ∈ skippedOf fates, ∃ edit ∈ edits, s.file = edit.node.file := by
  induction h with
  | nil => exact ⟨nofun, nofun⟩
  | @cons edit fate edits fates hfate _ ih =>
    obtain ⟨happlied, hskipped⟩ := ih
    have hlater : ∀ s ∈ skippedOf fates, ∃ other ∈ edit :: edits, s.file = other.node.file := by
      intro s hs
      obtain ⟨other, hother, hfile⟩ := hskipped s hs
      exact ⟨other, List.mem_cons_of_mem _ hother, hfile⟩
    cases hfate with
    | applied way => exact ⟨List.forall_mem_cons.mpr ⟨rfl, happlied⟩, hlater⟩
    | skipped reason =>
      exact ⟨happlied, List.forall_mem_cons.mpr ⟨⟨edit, List.mem_cons_self, rfl⟩, hlater⟩⟩

/-! ## Accounts -/

/-- The account that a patch gives of a file's edits. -/
inductive IsAccount (options : Options) (limit : Option Nat) (file : String)
    (edits : List PlannedEdit) : Except Disk.Error String → Patch → Prop
  /-- The file cannot be read. -/
  | unread (e : Disk.Error) :
      IsAccount options limit file edits (.error e) { failures := [⟨file, e.message⟩] }
  /-- There is no room for the new text. -/
  | unwritten {text : String} {draft : Draft} {fates : List (Applied ⊕ Skipped)} {room : Nat}
      (hdraft : draftOf file text.toList edits = .ok draft)
      (hfates : List.Forall₂ (IsFate file) edits fates) (happlied : appliedOf fates ≠ [])
      (hwrite : options.write = true) (hlimit : limit = some room)
      (hroom : room < (String.ofList draft.content).toUTF8.size) :
      IsAccount options limit file edits (.ok text)
        { skipped := skippedOf fates, failures := [⟨file, Disk.Error.tooLarge.message⟩] }
  /-- No edit changes the file. -/
  | idle {text : String} {fates : List (Applied ⊕ Skipped)}
      (hfates : List.Forall₂ (IsFate file) edits fates) (happlied : appliedOf fates = []) :
      IsAccount options limit file edits (.ok text) { skipped := skippedOf fates }
  /-- The file is changed, or would be. -/
  | changed {text : String} {draft : Draft} {fates : List (Applied ⊕ Skipped)}
      (hdraft : draftOf file text.toList edits = .ok draft)
      (hfates : List.Forall₂ (IsFate file) edits fates) (happlied : appliedOf fates ≠ [])
      (hroom : options.write = true → ∀ room, limit = some room →
        (String.ofList draft.content).toUTF8.size ≤ room) :
      IsAccount options limit file edits (.ok text)
        { filesModified := [file]
          replacements := (appliedOf fates).length
          diffs := if options.diffs then
            [⟨file, String.ofList (Diff.unified file text.toList draft.content)⟩] else []
          applied := appliedOf fates
          skipped := skippedOf fates }

theorem isAccount_of_draft (options : Options) (limit : Option Nat) {file text : String}
    {edits : List PlannedEdit} {draft : Draft}
    (hdraft : draftOf file text.toList edits = .ok draft) :
    IsAccount options limit file edits (.ok text)
      (draft.yield options limit file text.toList).1 := by
  obtain ⟨fates, hfates, happlied, hskipped⟩ := exists_fates hdraft
  unfold Draft.yield
  dsimp only
  rw [happlied, hskipped]
  split
  · rename_i hnone
    exact .idle hfates (List.isEmpty_iff.mp hnone)
  rename_i hsome
  have hsome : appliedOf fates ≠ [] := fun hnil => hsome (List.isEmpty_iff.mpr hnil)
  -- A run that only shows its changes gives the same account as one whose text has room.
  have hchanged : (options.write = true → ∀ room, limit = some room →
      (String.ofList draft.content).toUTF8.size ≤ room) →
      IsAccount options limit file edits (.ok text)
        ({ skipped := skippedOf fates } ++ modified {} options file text.toList draft) := by
    intro hroom
    have hsum : ({ skipped := skippedOf fates } ++ modified {} options file text.toList draft :
        Patch) =
          { filesModified := [file]
            replacements := (appliedOf fates).length
            diffs := if options.diffs then
              [⟨file, String.ofList (Diff.unified file text.toList draft.content)⟩] else []
            applied := appliedOf fates
            skipped := skippedOf fates } := by
      simp [append_eq, modified, happlied]
    rw [hsum]
    exact .changed hdraft hfates hsome hroom
  split
  · rename_i hwrite
    split
    · rename_i hfilter
      exact hchanged fun _ room hlimit => by simpa [hlimit, Option.filter] using hfilter
    · rename_i room hfilter
      obtain ⟨hlimit, hroom⟩ := Option.filter_eq_some_iff.mp hfilter
      have hsum : ({ skipped := skippedOf fates } ++ failed {} file .tooLarge : Patch) =
          { skipped := skippedOf fates, failures := [⟨file, Disk.Error.tooLarge.message⟩] } := by
        simp [append_eq, failed]
      rw [hsum]
      exact .unwritten hdraft hfates hsome hwrite hlimit (of_decide_eq_true hroom)
  · rename_i hwrite
    exact hchanged fun h => absurd h hwrite

theorem isAccount_of_yield {options : Options} {limit : Option Nat} {plan : FilePlan}
    {first : PlannedEdit} {rest : List PlannedEdit} {text : Except Disk.Error String}
    {yield : Patch × Option ByteArray} (hedits : plan.edits = first :: rest)
    (h : plan.yield options limit text = .ok yield) :
    IsAccount options limit first.node.file plan.edits text yield.1 := by
  unfold FilePlan.yield at h
  rw [hedits] at h ⊢
  cases text with
  | error e =>
    cases h
    exact .unread e
  | ok text =>
    dsimp only at h
    cases hdraft : draftOf first.node.file text.toList (first :: rest) with
    | error fault =>
      rw [hdraft] at h
      cases h
    | ok draft =>
      rw [hdraft] at h
      cases h
      exact isAccount_of_draft options limit hdraft

namespace IsAccount

variable {options : Options} {limit : Option Nat} {file : String} {edits : List PlannedEdit}
  {text : Except Disk.Error String} {patch : Patch}
  (h : IsAccount options limit file edits text patch)
include h

theorem isCounted : patch.IsCounted := by
  cases h <;> rfl

/-- Edits are told of under the names that they have for the file. -/
theorem of_mem_files {other : String} (hother : other ∈ patch.files) :
    other = file ∨ ∃ edit ∈ edits, other = edit.node.file := by
  -- What is skipped is told of under its own name, all else under that of the file.
  have hskipped : ∀ {fates}, List.Forall₂ (IsFate file) edits fates →
      other ∈ (skippedOf fates).map (·.file) → ∃ edit ∈ edits, other = edit.node.file := by
    intro fates hfates hmem
    obtain ⟨s, hs, rfl⟩ := List.mem_map.mp hmem
    exact (file_of_fates hfates).2 s hs
  cases h with
  | unread => exact .inl (by simpa [files] using hother)
  | unwritten _ hfates =>
    obtain hmem | hmem : other ∈ (skippedOf _).map (·.file) ∨ other = file := by
      simpa [files] using hother
    · exact .inr (hskipped hfates hmem)
    · exact .inl hmem
  | idle hfates => exact .inr (hskipped hfates (by simpa [files] using hother))
  | @changed text draft fates _ hfates =>
    simp only [files, List.mem_append, or_assoc] at hother
    obtain hmem | hmem | hmem | hmem | hmem := hother
    · exact .inl (List.mem_singleton.mp hmem)
    · left
      cases hdiffs : options.diffs with
      | true => simpa [hdiffs] using hmem
      | false => simp [hdiffs] at hmem
    · obtain ⟨a, ha, rfl⟩ := List.mem_map.mp hmem
      exact .inl ((file_of_fates hfates).1 a ha)
    · exact .inr (hskipped hfates hmem)
    · exact absurd hmem List.not_mem_nil

end IsAccount

end Rephrase.Patch
