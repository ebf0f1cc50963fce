import Mathlib
import Rephrase.Proofs.Patch.Answer
import Rephrase.Proofs.Patch.Effect

/-! A file that a failure is recorded for was not touched, or it has lost its text and holds as much
of the new one as there was room for. -/

namespace Rephrase.Patch

open Disk (Action)

/-- What a failure tells of a planned file. -/
inductive Failed (disk disk' : Disk) (plan : FilePlan) : Failure → Prop
  /-- The file could not be read, and is as it was. -/
  | unread {first : PlannedEdit} {rest : List PlannedEdit} {e : Disk.Error}
      (hedits : plan.edits = first :: rest) (htext : disk.textAt plan.location = .error e)
      (hafter : disk'.bytesAt plan.location = disk.bytesAt plan.location) :
      Failed disk disk' plan ⟨first.node.file, e.message⟩
  /-- There was not enough room for the new text. -/
  | cut {first : PlannedEdit} {rest : List PlannedEdit} {text : String} {draft : Draft}
      {limit : Nat} (hedits : plan.edits = first :: rest)
      (htext : disk.textAt plan.location = .ok text)
      (hdraft : draftOf first.node.file text.toList plan.edits = .ok draft)
      (hlimit : disk.limit = some limit)
      (hroom : limit < (String.ofList draft.content).toUTF8.size)
      (hafter : disk'.bytesAt plan.location =
        .ok ((String.ofList draft.content).toUTF8.extract 0 limit)) :
      Failed disk disk' plan ⟨first.node.file, Disk.Error.tooLarge.message⟩

/-- A failure that is new after a file's edits is one of this file. -/
theorem Edited.failed {options : Options} {patch patch' : Patch} {disk disk' : Disk}
    {plan : FilePlan} (h : Edited options patch disk plan patch' disk') {failure : Failure}
    (hfailure : failure ∈ patch'.failures) :
    failure ∈ patch.failures ∨ Failed disk disk' plan failure := by
  cases h with
  | empty => exact .inl hfailure
  | unread hedits htext =>
    obtain hfailure | hfailure := List.mem_append.mp hfailure
    · exact .inl hfailure
    · obtain rfl := List.mem_singleton.mp hfailure
      exact .inr (.unread hedits htext rfl)
  | idle => exact .inl hfailure
  | reported => exact .inl hfailure
  | written => exact .inl hfailure
  | cut hedits htext hdraft _ hresolve hlimit hroom =>
    obtain hfailure | hfailure := List.mem_append.mp hfailure
    · exact .inl hfailure
    · obtain rfl := List.mem_singleton.mp hfailure
      exact .inr (.cut hedits htext hdraft hlimit hroom
        (Disk.bytesAt_of_resolve (Disk.resolve_put hresolve _)))

section

variable {options : Options} {patch patch' : Patch} {disk disk' disk'' : Disk}

/-- What has become of a file stays so while other files are edited. -/
theorem Failed.before {plan : FilePlan} {failure : Failure}
    (h : Failed disk disk' plan failure)
    (hafter : disk''.bytesAt plan.location = disk'.bytesAt plan.location) :
    Failed disk disk'' plan failure := by
  cases h with
  | unread hedits htext hsame => exact .unread hedits htext (hafter.trans hsame)
  | cut hedits htext hdraft hlimit hroom hcut =>
    exact .cut hedits htext hdraft hlimit hroom (hafter.trans hcut)

/-- A file is found as it was before other files were edited. -/
theorem Failed.behind {plan : FilePlan} {path : String} {failure : Failure}
    (h : Failed disk' disk'' plan failure) (hrewritten : disk.Rewritten path disk')
    (hapart : disk.Apart path plan.location) : Failed disk disk'' plan failure := by
  have htextAt := hrewritten.textAt hapart
  cases h with
  | unread hedits htext hsame =>
    exact .unread hedits (htextAt ▸ htext) (hsame.trans (hrewritten.bytesAt hapart))
  | cut hedits htext hdraft hlimit hroom hcut =>
    exact .cut hedits (htextAt ▸ htext) hdraft (hrewritten.limit ▸ hlimit) hroom hcut

theorem EditedInTurn.failed {plans : List FilePlan}
    (h : EditedInTurn options patch disk plans patch' disk')
    (hapart : plans.Pairwise fun a b => disk.Apart a.location b.location) {failure : Failure}
    (hfailure : failure ∈ patch'.failures) :
    failure ∈ patch.failures ∨ ∃ plan ∈ plans, Failed disk disk' plan failure := by
  induction h with
  | none => exact .inl hfailure
  | next hfirst hrest ih =>
    obtain ⟨hplan, hplans⟩ := List.pairwise_cons.mp hapart
    have hrewritten := hfirst.rewritten
    obtain hold | ⟨plan, hmem, hfailed⟩ := ih (hplans.imp hrewritten.apart) hfailure
    · obtain hold | hfailed := hfirst.failed hold
      · exact .inl hold
      · refine .inr ⟨_, List.mem_cons_self, hfailed.before (hrest.bytesAt fun plan hmem => ?_)⟩
        exact hrewritten.apart (hplan plan hmem)
    · exact .inr ⟨plan, List.mem_cons_of_mem _ hmem, hfailed.behind hrewritten (hplan plan hmem)⟩

end

/-- A disk with a note, where no file can grow beyond four bytes. -/
def smallDisk : Disk :=
  { entries := [(["a.md"], .file "Sign in".toUTF8)], limit := some 4 }

def noteEdit : PlannedEdit :=
  ⟨"batch-001", ⟨.text, "Sign in", "a.md", "a.md", ⟨1, 0⟩, ⟨1, 7⟩, [], [], 1, none, none⟩,
    ⟨0, none, none, "Sign in", "Log in", "", 1, true, .contentReplace, []⟩⟩

def noteBatch : Batch := ⟨"batch-001", "Sign in", "Log in", "", [noteEdit.node], 1⟩

def noteResult : Batch.Result :=
  ⟨"batch-001", [noteEdit.proposal], true, none, 1, 1, "", 1⟩

theorem run_apply_note : (Patch.apply ⟨true, false⟩ [noteBatch] [noteResult]).run.run smallDisk =
    (.ok { failures := [⟨"a.md", Disk.Error.tooLarge.message⟩] },
      smallDisk.put ["a.md"] (.file "Log ".toUTF8)) := by
  cbv

theorem plans_note : plans [noteBatch] [noteResult] = [⟨"a.md", [noteEdit]⟩] := by
  cbv

end Rephrase.Patch
