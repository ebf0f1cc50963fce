import Rephrase.Proofs.Disk.Access
import Rephrase.Proofs.Patch.Plan

/-! An answer to the nodes of a file changes the file in the stretches that the accepted nodes are
recorded for, and nowhere else. -/

namespace Rephrase.Patch

open Disk Edit Text

theorem run_write {disk : Disk} {location old : String} (patch : Patch) (diffs : Bool)
    (file : String) (before : List Char) (draft : Draft) (htext : disk.textAt location = .ok old)
    (hroom : disk.HasRoom (String.ofList draft.content).toUTF8.size) :
    ∃ disk', (patch.write ⟨true, diffs⟩ location file before draft).run.run disk =
        (.ok (patch.modified ⟨true, diffs⟩ file before draft), disk') ∧
      disk'.textAt location = .ok (String.ofList draft.content) := by
  obtain ⟨disk', hwrite, htext'⟩ := run_writeText htext (String.ofList draft.content) hroom
  refine ⟨disk', ?_, htext'⟩
  unfold write
  rw [if_pos rfl, run_bind_ok (run_attempt_ok hwrite)]
  exact run_pure _ disk'

/-- A file that can be read and written gets the text of its draft. -/
theorem run_editFile {disk : Disk} {location : String} {first : PlannedEdit}
    {rest : List PlannedEdit} {content : List Char} {draft : Draft} (patch : Patch) (diffs : Bool)
    (htext : disk.textAt location = .ok (String.ofList content))
    (hdraft : draftOf first.node.file content (first :: rest) = .ok draft)
    (hroom : disk.HasRoom (String.ofList draft.content).toUTF8.size) :
    ∃ patch' disk',
      (editFile ⟨true, diffs⟩ patch ⟨location, first :: rest⟩).run.run disk = (.ok patch', disk') ∧
      disk'.textAt location = .ok (String.ofList draft.content) ∧
      patch'.failures = patch.failures ∧ patch'.applied = patch.applied ++ draft.applied ∧
      patch'.skipped = patch.skipped ++ draft.skipped := by
  -- With nothing applied the file is left alone, and the draft has its text anyway.
  unfold editFile
  dsimp only
  rw [run_bind_ok (run_get disk), htext]
  dsimp only
  rw [String.toList_ofList, run_bind_ok (run_compute hdraft disk)]
  split
  · rename_i happlied
    have hnone := List.isEmpty_iff.mp happlied
    refine ⟨_, disk, run_pure _ disk, ?_, rfl, ?_, rfl⟩
    · rw [htext, content_of_draftOf hdraft hnone]
    · rw [hnone, List.append_nil]
  · obtain ⟨disk', hwrite, htext'⟩ := run_write
      { patch with skipped := patch.skipped ++ draft.skipped } diffs first.node.file content draft
      htext hroom
    exact ⟨_, disk', hwrite, htext', rfl, rfl, rfl⟩

/-- Everything that was asked for was done in the same way, but for what changed nothing. -/
structure IsExact (way : Way) (patch : Patch) : Prop where
  failures : patch.failures = []
  applied : ∀ a ∈ patch.applied, a.way = way
  skipped : ∀ s ∈ patch.skipped, s.reason = Reason.unchanged.message

/-- What an answer to a batch of one file's nodes comes to. -/
structure Landing (source : Source) (batch : Batch) (result : Batch.Result) (way : Way)
    (after : List Char) : Prop where
  /-- The stretches of the accepted nodes have their new texts, and nothing else has changed. -/
  replaced : Replaced 0 (editsOn source.content (chosen batch.nodes result.proposals))
    source.content after
  /-- Every accepted node was edited, whatever had become of the text behind it. -/
  made : MadeInTurn way source.content ((plans [batch] [result]).flatMap (·.edits)) after
  /-- The file has the new text in the end. -/
  written : ∀ (disk : Disk) (diffs : Bool),
    disk.textAt source.location = .ok (String.ofList source.content) →
    disk.HasRoom (String.ofList after).toUTF8.size →
    ∃ patch disk', (Patch.apply ⟨true, diffs⟩ [batch] [result]).run.run disk = (.ok patch, disk') ∧
      disk'.textAt source.location = .ok (String.ofList after) ∧ patch.IsExact way

theorem map_fst_chosen (nodes : List Node) (proposals : List Proposal) :
    (chosen nodes proposals).map Prod.fst = nodes := by
  unfold chosen
  rw [List.map_map]
  exact List.zipIdx_map_fst 0 nodes

/-- The edits of one file are written as they are made in turn. -/
theorem run_apply_of_plan {disk : Disk} {batches : List Batch} {results : List Batch.Result}
    {location : String} {first : PlannedEdit} {rest : List PlannedEdit} {way : Way}
    {content after : List Char} (diffs : Bool)
    (hplans : plans batches results = [⟨location, first :: rest⟩])
    (hmade : MadeInTurn way content (first :: rest) after)
    (htext : disk.textAt location = .ok (String.ofList content))
    (hroom : disk.HasRoom (String.ofList after).toUTF8.size) :
    ∃ patch disk', (Patch.apply ⟨true, diffs⟩ batches results).run.run disk = (.ok patch, disk') ∧
      disk'.textAt location = .ok (String.ofList after) ∧ patch.IsExact way := by
  obtain ⟨draft, hdraft, rfl, hexact⟩ := draftOf_of_madeInTurn first.node.file hmade
  obtain ⟨patch, disk', hrun, htext', hfailures, happlied, hskipped⟩ :=
    run_editFile {} diffs htext hdraft hroom
  refine ⟨patch, disk', ?_, htext', hfailures, ?_, ?_⟩
  · unfold Patch.apply
    rw [hplans, List.foldlM_cons, run_bind_ok hrun]
    exact run_pure patch disk'
  · rw [happlied]
    exact hexact.applied
  · rw [hskipped]
    exact hexact.skipped

/-- An answer lands if each accepted proposal does. -/
theorem landing_of_lands {source : Source} {batch : Batch} {result : Batch.Result} {way : Way}
    (hnodes : source.AreRecorded batch.nodes) (hanswers : Answers batch.nodes result.proposals)
    (hid : result.batchId = batch.id) (hsuccess : result.success = true)
    (hlands : ∀ p ∈ result.proposals, p.accepted = true → ∀ node,
      batch.nodes[p.nodeIndex]? = some node → Lands source.content way node p) :
    ∃ after, Landing source batch result way after := by
  have hplans := plans_of_answers hnodes hanswers hid hsuccess
  have hfst := map_fst_chosen batch.nodes result.proposals
  have hrecorded : ∀ choice ∈ chosen batch.nodes result.proposals,
      choice.1.IsRecorded source := by
    intro choice hchoice
    exact hnodes.records _ (hfst ▸ List.mem_map_of_mem hchoice)
  -- A chosen proposal is an accepted one of the answer, and its number leads back to the node.
  have hrewrites : ∀ choice ∈ chosen batch.nodes result.proposals, ∀ p, choice.2 = some p →
      Rewrites p choice.1 ∧ Lands source.content way choice.1 p := by
    rintro ⟨node, p?⟩ hchoice p rfl
    obtain ⟨hp, haccepted, hnode⟩ := (mem_chosen hanswers.once).mp hchoice
    obtain ⟨node', hnode', hrewrites⟩ := hanswers.rewrites p hp
    rw [hnode] at hnode'
    obtain rfl := Option.some.inj hnode'
    exact ⟨hrewrites, hlands p hp haccepted node hnode⟩
  obtain ⟨stop, hascend⟩ := hnodes.ascend
  rw [← hfst, List.flatMap_map] at hascend
  obtain ⟨after, hmade, hreplaced⟩ := madeInTurn_reverse batch.id
    (chosen batch.nodes result.proposals) hrecorded hrewrites [] rfl hascend
  rw [List.nil_append] at hmade
  refine ⟨after, hreplaced, ?_, fun disk diffs htext hroom => ?_⟩
  · rw [hplans]
    split
    · rename_i hempty
      rwa [List.isEmpty_iff.mp hempty] at hmade
    · rwa [List.flatMap_singleton]
  -- Where nothing was accepted no file is touched.
  · split at hplans
    · rename_i hempty
      rw [List.isEmpty_iff.mp hempty] at hmade
      rw [hmade.eq_of_nil]
      refine ⟨{}, disk, ?_, htext, rfl, nofun, nofun⟩
      unfold Patch.apply
      rw [hplans]
      exact run_pure _ disk
    · rename_i hempty
      obtain ⟨first, rest, hcons⟩ := List.exists_cons_of_ne_nil
        (List.reverse_ne_nil_iff.mpr fun hnil => hempty (List.isEmpty_iff.mpr hnil))
      rw [hcons] at hplans hmade
      exact run_apply_of_plan diffs hplans hmade htext hroom

end Rephrase.Patch
