import Rephrase.Proofs.Batch
import Rephrase.Proofs.Oracle.Containment
import Rephrase.Proofs.Run.Change

/-! No answer reaches beyond its batch. In a run, every proposal is for a node that was shown to the
oracle in the call that the proposal came from. -/

namespace Rephrase

open Oracle (Exchange ProposedFrom)

/-! ## Results -/

namespace Oracle

/-- What a response to a batch's request may come to. -/
inductive IsResultOf (timeout : Nat) (batch : Batch) (exchange : Exchange) : Batch.Result → Prop
  | late (hlate : timeout < exchange.response.seconds) :
      IsResultOf timeout batch exchange (.failed batch
        ("oracle timed out after " ++ String.ofList (Decimal.natural timeout) ++ "s"))
  | failed {causes : List String} (houtcome : exchange.response.outcome = .failed causes) :
      IsResultOf timeout batch exchange (.failed batch (causesText causes))
  | malformed {text : String} (houtcome : exchange.response.outcome = .answered text)
      (hraw : rawReply? text.toList = none) :
      IsResultOf timeout batch exchange (.failed batch (malformed noAnswer))
  | contained {text : String} {raw : RawReply} {reply : Reply}
      (houtcome : exchange.response.outcome = .answered text)
      (hraw : rawReply? text.toList = some raw)
      (hreply : reply.IsContained exchange.request.nodes raw) :
      IsResultOf timeout batch exchange (resultOfReply batch reply)

theorem ShowFrom.areNumbered {ds : List Descriptor} {nodes : List Node}
    (h : ShowFrom 0 ds nodes) : AreNumbered ds := by
  intro number d hd
  obtain ⟨node, -, hshows⟩ := h.exists_node hd
  rw [hshows.index, Nat.zero_add]

theorem isResultOf_result (timeout : Nat) {batch : Batch} {exchange : Exchange}
    (hshows : exchange.request.Shows batch) :
    IsResultOf timeout batch exchange (exchange.result timeout batch) := by
  unfold Exchange.result resultOf
  split
  · rename_i hlate
    exact .late hlate
  split
  · rename_i causes houtcome
    exact .failed houtcome
  · rename_i text houtcome
    cases hraw : rawReply? text.toList with
    | none =>
      have hreply : Reply.ofText? exchange.request.nodes text.toList = none := by
        rw [Reply.ofText?, hraw, Option.map_none]
      rw [hreply]
      exact .malformed houtcome hraw
    | some raw =>
      obtain ⟨reply, hreply, hcontained⟩ :=
        isContained_of_rawReply? hshows.nodes.areNumbered hraw
      rw [hreply]
      exact .contained houtcome hraw hcontained

namespace IsResultOf

variable {timeout : Nat} {batch : Batch} {exchange : Exchange} {result : Batch.Result}
  (h : IsResultOf timeout batch exchange result)
include h

theorem batchId : result.batchId = batch.id := by
  cases h <;> rfl

theorem within : ∀ p ∈ result.proposals, p.nodeIndex < exchange.request.nodes.length := by
  cases h with
  | late | failed | malformed => nofun
  | contained _ _ hreply => exact hreply.within

end IsResultOf

end Oracle

/-! ## Runs -/

namespace Run

open Patch (batchOf? plannedEdits)

/-- Where a run stands to a batch, to the exchange about it and to the result of this. -/
structure IsAsked (timeout : Nat) (batches : List Batch) (batch : Batch) (exchange : Exchange)
    (result : Batch.Result) : Prop where
  shows : exchange.request.Shows batch
  made : Oracle.IsResultOf timeout batch exchange result
  /-- The result's name leads back to the batch, where edits are planned and where files are kept. -/
  planned : batchOf? batches result.batchId = some batch
  kept : (batches.find? fun other => other.id = result.batchId) = some batch
  /-- The numbers of the proposals lead to nodes that were shown under them. -/
  nodes : ∀ p ∈ result.proposals, ∃ d node, exchange.request.nodes[p.nodeIndex]? = some d ∧
    batch.nodes[p.nodeIndex]? = some node ∧ d.Shows p.nodeIndex node

theorem isAsked_result (timeout : Nat) {batches : List Batch}
    (hids : (batches.map (·.id)).Nodup) {batch : Batch} (hbatch : batch ∈ batches)
    {exchange : Exchange} (hshows : exchange.request.Shows batch) :
    IsAsked timeout batches batch exchange (exchange.result timeout batch) := by
  have hmade := Oracle.isResultOf_result timeout hshows
  refine ⟨hshows, hmade, ?_, ?_, fun p hp => ?_⟩
  · rw [hmade.batchId]
    exact Batch.batchOf?_of_mem hids hbatch
  · rw [hmade.batchId]
    exact Batch.find?_of_mem hids hbatch
  · have hd := List.getElem?_eq_getElem (hmade.within p hp)
    obtain ⟨node, hnode, hshown⟩ := hshows.nodes.exists_node hd
    rw [Nat.zero_add] at hshown
    exact ⟨_, node, hd, hnode, hshown⟩

/-- Every batch is asked about once, and has one result. -/
inductive AreAsked (timeout : Nat) (batches : List Batch) :
    List Batch → List Exchange → List Batch.Result → Prop
  | nil : AreAsked timeout batches [] [] []
  | cons {batch : Batch} {exchange : Exchange} {result : Batch.Result} {rest : List Batch}
      {noted : List Exchange} {results : List Batch.Result}
      (hfirst : IsAsked timeout batches batch exchange result)
      (hrest : AreAsked timeout batches rest noted results) :
      AreAsked timeout batches (batch :: rest) (exchange :: noted) (result :: results)

theorem areAsked_results (timeout : Nat) {batches : List Batch}
    (hids : (batches.map (·.id)).Nodup) {part : List Batch} (hpart : part ⊆ batches)
    {noted : List Exchange} (hshow : List.Forall₂
      (fun batch exchange => exchange.request.Shows batch) part noted) :
    AreAsked timeout batches part noted (List.zipWith (Exchange.result timeout) part noted) := by
  induction hshow with
  | nil => exact .nil
  | cons hshows _ ih =>
    obtain ⟨hfirst, hrest⟩ := List.cons_subset.mp hpart
    exact .cons (isAsked_result timeout hids hfirst hshows) (ih hrest)

/-- Whether the node that an edit is for was shown to the oracle, in a call about its batch. -/
def WasShown (noted : List Exchange) (edit : Patch.PlannedEdit) : Prop :=
  ∃ exchange ∈ noted, exchange.request.batchId = edit.batchId ∧
    ∃ d, exchange.request.nodes[edit.proposal.nodeIndex]? = some d ∧
      d.Shows edit.proposal.nodeIndex edit.node

theorem AreAsked.wasShown {timeout : Nat} {batches part : List Batch} {noted : List Exchange}
    {results : List Batch.Result} (h : AreAsked timeout batches part noted results) :
    ∀ edit ∈ plannedEdits batches results, WasShown noted edit := by
  suffices ∀ result ∈ results, ∀ batch, batchOf? batches result.batchId = some batch →
      ∀ edit ∈ Patch.editsOf batch result, WasShown noted edit by
    intro edit hedit
    obtain ⟨result, hresult, hedit⟩ := List.mem_flatMap.mp hedit
    split at hedit
    · rename_i batch hbatch
      exact this result (List.mem_filter.mp hresult).1 batch hbatch edit hedit
    · nomatch hedit
  induction h with
  | nil => nofun
  | @cons batch exchange result rest noted results hfirst _ ih =>
    refine List.forall_mem_cons.mpr ⟨fun other hother edit hedit => ?_, fun other hother => ?_⟩
    · obtain rfl : batch = other := Option.some.inj (hfirst.planned.symm.trans hother)
      obtain ⟨hproposal, -, hnode, hid⟩ := Patch.mem_editsOf.mp hedit
      obtain ⟨d, node, hd, hnode', hshows⟩ := hfirst.nodes _ hproposal
      obtain rfl : edit.node = node := Option.some.inj (hnode.symm.trans hnode')
      exact ⟨exchange, List.mem_cons_self, hfirst.shows.batchId.trans hid.symm, d, hd, hshows⟩
    · intro batch hbatch edit hedit
      obtain ⟨exchange, hmem, hshown⟩ := ih other hother batch hbatch edit hedit
      exact ⟨exchange, List.mem_cons_of_mem _ hmem, hshown⟩

/-- A run that has found nodes shows each batch in one call, and does what the responses come to. -/
theorem of_run_noting {μ : Type} {task : Task} {parser : Parser} {oracle : Oracle μ} {times : Times}
    {memory memory' : μ} {before after : Disk} {outcome : Except Disk.Failure Report}
    {noted : List Exchange} {stats : Stats} {nodes : List Node}
    (hfind : task.find parser before = .ok ⟨stats, .ok nodes⟩)
    (hrun : (task.run parser oracle.noting times).run.run (([], memory), before) =
      (outcome, ((noted, memory'), after))) : ∃ middle result,
    List.Forall₂ (fun batch exchange => exchange.request.Shows batch) (task.batches nodes) noted ∧
      (task.commit times (task.batches nodes) (List.zipWith
        (Exchange.result task.config.timeoutSeconds) (task.batches nodes) noted)).run.run middle =
          (result, after) ∧
      outcome = result.map (task.completed stats (task.batches nodes) (List.zipWith
        (Exchange.result task.config.timeoutSeconds) (task.batches nodes) noted)) := by
  rcases hconsult : (oracle.noting.consultAll task.config.timeoutSeconds
    (task.batches nodes)).run (([], memory), before) with ⟨results, ⟨noted', memory''⟩, middle⟩
  rw [run_of_find hfind hconsult] at hrun
  obtain ⟨houtcome, hstate⟩ := Prod.mk.inj hrun
  obtain ⟨hmemory, hafter⟩ := Prod.mk.inj hstate
  obtain ⟨rfl, -⟩ := Prod.mk.inj hmemory
  obtain ⟨rfl, hshow, -⟩ := Oracle.of_run_consultAll hconsult
  exact ⟨middle, _, hshow, Prod.ext rfl hafter, houtcome.symm⟩

/-- What becomes of an answer to some nodes: its proposals are contained in it, or it is malformed. -/
inductive Answered (nodes : List Oracle.Descriptor) (cs : List Char) : Prop
  | contained {raw : Oracle.RawReply} {reply : Oracle.Reply}
      (hraw : Oracle.rawReply? cs = some raw) (hreply : Oracle.Reply.ofText? nodes cs = some reply)
      (hcontained : reply.IsContained nodes raw)
  | malformed (hraw : Oracle.rawReply? cs = none) (hreply : Oracle.Reply.ofText? nodes cs = none)

/-- Every answer is contained. So whatever comes of a run, its oracle is asked about each batch of
what it has found, and no edit is for a node that was not shown in a call about its batch. -/
theorem contained_of_run {μ : Type} (task : Task) (parser : Parser) (oracle : Oracle μ)
    (times : Times) :
    (∀ nodes cs, Oracle.AreNumbered nodes → Answered nodes cs) ∧
      ∀ memory before outcome noted memory' after stats nodes,
        (task.run parser oracle.noting times).run.run (([], memory), before) =
          (outcome, ((noted, memory'), after)) →
        task.find parser before = .ok ⟨stats, .ok nodes⟩ →
        ∃ results middle result,
          AreAsked task.config.timeoutSeconds (task.batches nodes) (task.batches nodes) noted
            results ∧
          (∀ edit ∈ plannedEdits (task.batches nodes) results, WasShown noted edit) ∧
          (task.commit times (task.batches nodes) results).run.run middle = (result, after) ∧
          outcome = result.map (task.completed stats (task.batches nodes) results) := by
  refine ⟨fun nodes cs hindex => ?_,
    fun memory before outcome noted memory' after stats nodes hrun hfind => ?_⟩
  · cases hraw : Oracle.rawReply? cs with
    | none => exact .malformed hraw (by rw [Oracle.Reply.ofText?, hraw, Option.map_none])
    | some raw =>
      obtain ⟨reply, hreply, hcontained⟩ := Oracle.isContained_of_rawReply? hindex hraw
      exact .contained hraw hreply hcontained
  · obtain ⟨middle, result, hshow, hcommit, houtcome⟩ := of_run_noting hfind hrun
    have hids := Batch.nodup_ids nodes task.search task.replacement task.instruction
      task.config.batchSize
    have hasked := areAsked_results task.config.timeoutSeconds hids (List.Subset.refl _) hshow
    exact ⟨_, middle, result, hasked, hasked.wasShown, hcommit, houtcome⟩

/-- The answer about the note is contained, and the node that it asks to edit is the one that was
shown. -/
theorem contained_of_note : ∃ ds noted report after nodes,
    Oracle.AreNumbered ds ∧ Answered ds answer.toList ∧
    (noteTask.run noParser answering.noting midnight).run.run (([], ()), noteDisk) =
      (.ok report, ((noted, ()), after)) ∧ nodes.length = 1 ∧
    AreAsked 120 (noteTask.batches nodes) (noteTask.batches nodes) noted report.batchResults ∧
    ∀ edit ∈ plannedEdits (noteTask.batches nodes) report.batchResults, WasShown noted edit := by
  have htext : noteDisk.textAt "/a.md" = .ok "Sign in" := by cbv
  have hfind := find_note htext files_note
  obtain ⟨report, hrun, -⟩ := run_note
  obtain ⟨noted, hnoted⟩ := exists_run_noting hrun
  obtain ⟨request, hshows⟩ : ∃ request : Oracle.Request, request.Shows (noteBatch 1 1) :=
    ⟨_, Oracle.shows_requestFor noteDisk (noteBatch 1 1) []⟩
  obtain ⟨hanswered, hcontained⟩ := contained_of_run noteTask noParser answering midnight
  obtain ⟨results, middle, result, hasked, hshown, -, houtcome⟩ :=
    hcontained _ _ _ _ _ _ _ _ hnoted hfind
  cases result with
  | error failure => cases houtcome
  | ok patch =>
    have hreport := Except.ok.inj houtcome
    obtain rfl : report.batchResults = results := by
      rw [hreport]
      rfl
    exact ⟨request.nodes, noted, report, _, [_], hshows.nodes.areNumbered,
      hanswered _ answer.toList hshows.nodes.areNumbered, hnoted, rfl, hasked, hshown⟩

end Run

end Rephrase
