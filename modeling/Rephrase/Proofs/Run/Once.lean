import Rephrase.Proofs.Oracle.Accepted
import Rephrase.Proofs.Patch.Account
import Rephrase.Proofs.Run.Containment
import Rephrase.Proofs.Run.Isolation

/-! No node is edited more often than the answer about it has values that are meant for it. In a run
whose answers have no two values for one node, no node is edited twice. -/

namespace Rephrase

open Oracle (Exchange isAcceptedFor)

/-! ## Results -/

namespace Oracle

theorem ShowFrom.length_eq {number : Nat} {ds : List Descriptor} {nodes : List Node}
    (h : ShowFrom number ds nodes) : ds.length = nodes.length := by
  induction h with
  | nil => rfl
  | cons _ _ ih => exact congrArg Nat.succ ih

/-- Whether no two values of the answer in an exchange are meant for the node of a number. -/
def Exchange.AcceptsOnce (exchange : Exchange) (number : Nat) : Prop :=
  ∀ text raw, exchange.response.outcome = .answered text → rawReply? text.toList = some raw →
    Oracle.AcceptsOnce number raw.modifications

theorem Exchange.AcceptsOnce.countP_result_le_one {exchange : Exchange} {batch : Batch}
    {number : Nat} (h : exchange.AcceptsOnce number) (hshows : exchange.request.Shows batch)
    (hsize : batch.nodes.length < 2 ^ 63) (hnumber : number < batch.nodes.length)
    (timeout : Nat) :
    (exchange.result timeout batch).proposals.countP (isAcceptedFor number) ≤ 1 := by
  have hlength := hshows.nodes.length_eq
  unfold Exchange.result resultOf
  split
  · exact Nat.zero_le 1
  split
  · exact Nat.zero_le 1
  · rename_i text houtcome
    cases hraw : rawReply? text.toList with
    | none =>
      have hreply : Reply.ofText? exchange.request.nodes text.toList = none := by
        rw [Reply.ofText?, hraw, Option.map_none]
      rw [hreply]
      exact Nat.zero_le 1
    | some raw =>
      unfold Reply.ofText?
      rw [hraw]
      exact (countP_proposals_le_one_iff hshows.nodes.areNumbered (by omega) (by omega) _).mpr
        (h text raw houtcome hraw)

end Oracle

/-! ## Batches -/

/-- Where all keys are different, no two batches have nodes of one key. -/
theorem Batch.eq_of_key {batches : List Batch}
    (hkeys : ((batches.flatMap (·.nodes)).map Node.key).Nodup) {batch other : Batch}
    (hbatch : batch ∈ batches) (hother : other ∈ batches) {node node' : Node}
    (hnode : node ∈ batch.nodes) (hnode' : node' ∈ other.nodes) (hkey : node.key = node'.key) :
    batch = other := by
  rw [List.map_flatMap, List.nodup_flatMap] at hkeys
  obtain ⟨-, hacross⟩ := hkeys
  have hsymm : Std.Symm (Function.onFun List.Disjoint fun batch : Batch =>
      batch.nodes.map Node.key) := ⟨fun _ _ h => List.Disjoint.symm h⟩
  by_contra hne
  have hdisjoint := hacross.forall hbatch hother hne
  exact hdisjoint (List.mem_map_of_mem hnode) (hkey ▸ List.mem_map_of_mem hnode')

/-- Where all keys are different, a node's key leads to its batch and to its place there. -/
theorem Batch.place_of_key {batches : List Batch}
    (hkeys : ((batches.flatMap (·.nodes)).map Node.key).Nodup) {batch other : Batch}
    (hbatch : batch ∈ batches) (hother : other ∈ batches) {place place' : Nat} {node node' : Node}
    (hnode : batch.nodes[place]? = some node) (hnode' : other.nodes[place']? = some node')
    (hkey : node.key = node'.key) : batch = other ∧ place = place' := by
  obtain rfl := Batch.eq_of_key hkeys hbatch hother (List.mem_of_getElem? hnode)
    (List.mem_of_getElem? hnode') hkey
  refine ⟨rfl, ?_⟩
  rw [List.map_flatMap, List.nodup_flatMap] at hkeys
  have hwithin : (batch.nodes.map Node.key).Nodup := hkeys.1 batch hbatch
  have hget : (batch.nodes.map Node.key)[place]? = (batch.nodes.map Node.key)[place']? := by
    rw [List.getElem?_map, List.getElem?_map, hnode, hnode', Option.map_some, Option.map_some, hkey]
  have hlt : place < (batch.nodes.map Node.key).length := by
    rw [List.length_map]
    exact (List.getElem?_eq_some_iff.mp hnode).1
  exact (List.getElem?_inj hlt hwithin).mp hget

/-! ## Edits -/

namespace Patch

/-- Whether an edit is for the node under a number in the batch of a name. -/
def PlannedEdit.isFor (id : String) (number : Nat) (edit : PlannedEdit) : Bool :=
  edit.batchId = id && edit.proposal.nodeIndex = number

theorem countP_editsOf_le (batch : Batch) (result : Batch.Result) (id : String) (number : Nat) :
    (editsOf batch result).countP (·.isFor id number) ≤
      result.proposals.countP (isAcceptedFor number) := by
  unfold editsOf
  rw [List.countP_filterMap, List.countP_filter]
  refine List.countP_mono_left fun p _ h => ?_
  unfold isAcceptedFor
  cases hnode : batch.nodes[p.nodeIndex]? with
  | none => simp [hnode] at h
  | some node =>
    simp only [hnode, Option.map_some, Option.getD_some, PlannedEdit.isFor, Bool.and_eq_true] at h ⊢
    exact ⟨h.2, h.1.2⟩

theorem plannedEdits_singleton_le {batches : List Batch} (result : Batch.Result) (id : String)
    (number : Nat) : (plannedEdits batches [result]).countP (·.isFor id number) ≤
      result.proposals.countP (isAcceptedFor number) := by
  unfold plannedEdits
  cases hsuccess : result.success with
  | true =>
    rw [List.filter_cons_of_pos hsuccess, List.filter_nil, List.flatMap_singleton]
    split
    · exact countP_editsOf_le _ _ _ _
    · exact Nat.zero_le _
  | false =>
    rw [List.filter_cons_of_neg (by simp [hsuccess]), List.filter_nil, List.flatMap_nil]
    exact Nat.zero_le _

/-- Edits go by the names of the batches that were asked about. -/
theorem batchId_mem_of_mem_plannedEdits {timeout : Nat} {all part : List Batch}
    {noted : List Exchange} {edit : PlannedEdit}
    (h : edit ∈ plannedEdits all (List.zipWith (Exchange.result timeout) part noted)) :
    edit.batchId ∈ part.map (·.id) := by
  obtain ⟨result, hresult, -, batch, -, hid, hedit⟩ := isAskedFor_of_mem_plannedEdits h
  obtain ⟨place, hplace, rfl⟩ := List.getElem_of_mem hresult
  rw [List.getElem_zipWith, Exchange.result, Oracle.batchId_resultOf] at hid
  rw [(mem_editsOf.mp hedit).2.2.2, hid]
  exact List.mem_map_of_mem (List.getElem_mem _)

theorem countP_plannedEdits_le_one {timeout : Nat} {all part : List Batch} {noted : List Exchange}
    (hshow : List.Forall₂ (fun batch exchange => exchange.request.Shows batch) part noted)
    (hids : (part.map (·.id)).Nodup) (hsize : ∀ batch ∈ part, batch.nodes.length < 2 ^ 63)
    {batch : Batch} (hbatch : batch ∈ part) {number : Nat} (hnumber : number < batch.nodes.length)
    (honce : ∀ exchange ∈ noted, exchange.request.Shows batch → exchange.AcceptsOnce number) :
    (plannedEdits all (List.zipWith (Exchange.result timeout) part noted)).countP
      (·.isFor batch.id number) ≤ 1 := by
  induction hshow with
  | nil => nomatch hbatch
  | @cons first exchange part noted hshows _ ih =>
    obtain ⟨hfirst, hrest⟩ := List.nodup_cons.mp hids
    obtain ⟨hsize', hsizes⟩ := List.forall_mem_cons.mp hsize
    obtain ⟨honce', honces⟩ := List.forall_mem_cons.mp honce
    rw [List.zipWith_cons_cons, plannedEdits_cons, List.countP_append]
    obtain rfl | hbatch := List.mem_cons.mp hbatch
    · -- Later edits are for batches of other names.
      have hlater : (plannedEdits all (List.zipWith (Exchange.result timeout) part noted)).countP
          (·.isFor batch.id number) = 0 := by
        refine List.countP_eq_zero.mpr fun edit hedit hfor => hfirst ?_
        unfold PlannedEdit.isFor at hfor
        rw [Bool.and_eq_true, decide_eq_true_eq] at hfor
        have hname := batchId_mem_of_mem_plannedEdits hedit
        rwa [hfor.1] at hname
      rw [hlater, Nat.add_zero]
      exact Nat.le_trans (plannedEdits_singleton_le _ _ _)
        ((honce' hshows).countP_result_le_one hshows hsize' hnumber timeout)
    · -- The first edits are for another batch, too.
      have hnone : (plannedEdits all [exchange.result timeout first]).countP
          (·.isFor batch.id number) = 0 := by
        refine List.countP_eq_zero.mpr fun edit hedit hfor => hfirst ?_
        have hplanned : edit ∈ plannedEdits all
            (List.zipWith (Exchange.result timeout) [first] [exchange]) := hedit
        have hname := batchId_mem_of_mem_plannedEdits hplanned
        unfold PlannedEdit.isFor at hfor
        rw [Bool.and_eq_true, decide_eq_true_eq] at hfor
        rw [← List.mem_singleton.mp hname, hfor.1]
        exact List.mem_map_of_mem hbatch
      rw [hnone, Nat.zero_add]
      exact ih hrest hsizes hbatch honces

end Patch

/-! ## Runs -/

namespace Run

open Patch (Carries plannedEdits plans)

/-- Whether none of the answers of a run has two values that are meant for a node. -/
def IsAcceptedOnce (noted : List Exchange) (node : Node) : Prop :=
  ∀ exchange ∈ noted, ∀ (number : Nat) (d : Oracle.Descriptor),
    exchange.request.nodes[number]? = some d → d.Shows number node → exchange.AcceptsOnce number

/-- How many of some edits are for a node. -/
def editsFor (node : Node) (edits : List Patch.PlannedEdit) : Nat :=
  edits.countP fun edit => edit.node.key = node.key

theorem nodup_keys_of_find {task : Task} {parser : Parser} {disk : Disk} {stats : Stats}
    {nodes : List Node} (h : task.find parser disk = .ok ⟨stats, .ok nodes⟩) :
    (nodes.map Node.key).Nodup := by
  obtain ⟨parts, -, hnodes⟩ := bind_eq_ok.mp (allNodes_of_find h)
  cases hnodes
  exact Node.nodup_keys_dedup _

theorem exists_carries_of_commit {task : Task} {times : Times} {batches : List Batch}
    {results : List Batch.Result} {patch : Patch} {before after : Disk}
    (h : (task.commit times batches results).run.run before = (.ok patch, after)) :
    ∃ done, Carries (plans batches results) done patch := by
  cases hdry : task.config.dryRun with
  | true => exact Patch.exists_carries_of_apply (apply_of_commit h hdry)
  | false =>
    obtain ⟨kept, edited, -, happly, -⟩ := of_commit h hdry
    exact Patch.exists_carries_of_apply happly

theorem editsFor_plannedEdits_le_one {task : Task} {nodes : List Node} {noted : List Exchange}
    (hkeys : (nodes.map Node.key).Nodup) (hsize : nodes.length < 2 ^ 63)
    (hshow : List.Forall₂ (fun batch exchange => exchange.request.Shows batch)
      (task.batches nodes) noted)
    {node : Node} (hnode : node ∈ nodes) (honce : IsAcceptedOnce noted node) (timeout : Nat) :
    editsFor node (plannedEdits (task.batches nodes)
      (List.zipWith (Exchange.result timeout) (task.batches nodes) noted)) ≤ 1 := by
  have hall : (task.batches nodes).flatMap (·.nodes) = nodes := Batch.flatMap_nodes_ofNodes ..
  have hids : ((task.batches nodes).map (·.id)).Nodup := Batch.nodup_ids ..
  have hsizes : ∀ batch ∈ task.batches nodes, batch.nodes.length < 2 ^ 63 := by
    intro batch hbatch
    have hsub := List.sublist_flatten_of_mem (List.mem_map_of_mem (f := (·.nodes)) hbatch)
    rw [← List.flatMap_def, hall] at hsub
    exact Nat.lt_of_le_of_lt hsub.length_le hsize
  rw [← hall] at hkeys hnode
  obtain ⟨batch, hbatch, hmem⟩ := List.mem_flatMap.mp hnode
  obtain ⟨number, hnumber, rfl⟩ := List.getElem_of_mem hmem
  have hplace := List.getElem?_eq_getElem hnumber
  -- What is planned for the node is planned for its number in its batch.
  refine Nat.le_trans (List.countP_mono_left fun edit hedit hkey => ?_)
    (Patch.countP_plannedEdits_le_one hshow hids hsizes hbatch hnumber fun exchange hexchange
      hshows => ?_)
  · obtain ⟨result, -, -, other, hother, -, hedit⟩ := Patch.isAskedFor_of_mem_plannedEdits hedit
    obtain ⟨-, -, hother', hid⟩ := Patch.mem_editsOf.mp hedit
    obtain ⟨rfl, hsame⟩ := Batch.place_of_key hkeys hother hbatch hother' hplace
      (of_decide_eq_true hkey)
    unfold Patch.PlannedEdit.isFor
    rw [Bool.and_eq_true, decide_eq_true_eq, decide_eq_true_eq]
    exact ⟨hid, hsame⟩
  · have hd := List.getElem?_eq_getElem (hshows.nodes.length_eq ▸ hnumber)
    obtain ⟨other, hother, hshown⟩ := hshows.nodes.exists_node hd
    rw [hplace] at hother
    rw [Nat.zero_add, ← Option.some.inj hother] at hshown
    exact honce exchange hexchange number _ hd hshown

/-- The accepted proposals that are read from an answer are for different nodes just if no two of
its values are meant for the same one, by the number that they say or by their place. So in a run no
two edits are planned for a node, and none is carried out twice, unless an answer about the node has
two values that are meant for it. -/
theorem edited_once_of_run {μ : Type} (task : Task) (parser : Parser) (oracle : Oracle μ)
    (times : Times) :
    (∀ nodes cs reply, Oracle.AreNumbered nodes → nodes.length < 2 ^ 63 →
      Oracle.Reply.ofText? nodes cs = some reply →
      ∃ raw, Oracle.rawReply? cs = some raw ∧
        (((reply.proposals.filter (·.accepted)).map (·.nodeIndex)).Nodup ↔
          ∀ number < nodes.length, Oracle.AcceptsOnce number raw.modifications)) ∧
      ∀ memory before outcome noted memory' after stats nodes,
        (task.run parser oracle.noting times).run.run (([], memory), before) =
          (outcome, ((noted, memory'), after)) →
        task.find parser before = .ok ⟨stats, .ok nodes⟩ → nodes.length < 2 ^ 63 →
        ∃ results middle result,
          results = List.zipWith (Exchange.result task.config.timeoutSeconds)
            (task.batches nodes) noted ∧
          (task.commit times (task.batches nodes) results).run.run middle = (result, after) ∧
          outcome = result.map (task.completed stats (task.batches nodes) results) ∧
          (∀ node ∈ nodes, IsAcceptedOnce noted node →
            editsFor node ((plans (task.batches nodes) results).flatMap (·.edits)) ≤ 1) ∧
          ∀ patch, result = .ok patch →
            ∃ done, Carries (plans (task.batches nodes) results) done patch ∧
              ∀ node ∈ nodes, IsAcceptedOnce noted node → editsFor node done ≤ 1 := by
  refine ⟨fun nodes cs reply hindex hsize hreply => ?_,
    fun memory before outcome noted memory' after stats nodes hrun hfind hsize => ?_⟩
  · obtain ⟨raw, hraw, rfl⟩ := Option.map_eq_some_iff.mp hreply
    exact ⟨raw, hraw, Oracle.nodup_proposals_iff hindex hsize raw.modifications⟩
  · obtain ⟨middle, result, hshow, hcommit, houtcome⟩ := of_run_noting hfind hrun
    -- The plans hold the planned edits in another order.
    have hplanned : ∀ node ∈ nodes, IsAcceptedOnce noted node →
        editsFor node ((plans (task.batches nodes) (List.zipWith
          (Exchange.result task.config.timeoutSeconds) (task.batches nodes) noted)).flatMap
            (·.edits)) ≤ 1 := by
      intro node hnode honce
      unfold editsFor
      rw [(Patch.flatMap_edits_plans _ _).countP_eq]
      exact editsFor_plannedEdits_le_one (nodup_keys_of_find hfind) hsize hshow hnode honce _
    refine ⟨_, middle, result, rfl, hcommit, houtcome, hplanned, fun patch hpatch => ?_⟩
    obtain ⟨done, hcarries⟩ := exists_carries_of_commit (hpatch ▸ hcommit)
    exact ⟨done, hcarries, fun node hnode honce =>
      Nat.le_trans hcarries.sublist.countP_le (hplanned node hnode honce)⟩

theorem acceptsOnce_answer {raw : Oracle.RawReply}
    (h : Oracle.rawReply? answer.toList = some raw) (number : Nat) :
    Oracle.AcceptsOnce number raw.modifications := by
  obtain rfl := Option.some.inj (rawReply?_answer.symm.trans h)
  exact List.pairwise_singleton _ _

/-- The answer about the note has one value only, so the note is edited once. -/
theorem edited_once_of_note : ∃ report exchange after node patch reply,
    (noteTask.run noParser answering.noting midnight).run.run (([], ()), noteDisk) =
      (.ok report, (([exchange], ()), after)) ∧ IsAcceptedOnce [exchange] node ∧
    (∃ done, Carries (plans (noteTask.batches [node]) report.batchResults) done patch ∧
      editsFor node done ≤ 1) ∧
    Oracle.Reply.ofText? exchange.request.nodes answer.toList = some reply ∧
      ((reply.proposals.filter (·.accepted)).map (·.nodeIndex)).Nodup := by
  have htext : noteDisk.textAt "/a.md" = .ok "Sign in" := by cbv
  have hfind := find_note htext files_note
  have hbatches := batches_note Node.Kind.lineMatch.relevance
  obtain ⟨exchange, hconsult, houtcome, hshows⟩ := exists_consult_noting noteDisk
    Node.Kind.lineMatch.relevance (mean [Node.Kind.lineMatch.relevance])
  rw [← hbatches] at hconsult
  obtain ⟨report, hreport, -⟩ := run_note
  obtain ⟨noted, hrun⟩ := exists_run_noting hreport
  obtain rfl : [exchange] = noted :=
    congrArg (·.2.1.1) ((run_of_find hfind hconsult).symm.trans hrun)
  -- The answer names its one value once, so it accepts every number at most once.
  have honce : ∀ number, exchange.AcceptsOnce number := by
    intro number text raw htext hraw
    obtain rfl := Oracle.Outcome.answered.inj (houtcome.symm.trans htext)
    exact acceptsOnce_answer hraw number
  have hnode : IsAcceptedOnce [exchange] (noteNode Node.Kind.lineMatch.relevance) := by
    intro other hother number d _ _
    rw [List.mem_singleton.mp hother]
    exact honce number
  obtain ⟨hreply, hedited⟩ := edited_once_of_run noteTask noParser answering midnight
  have hnumbered := hshows.nodes.areNumbered
  have hlength : exchange.request.nodes.length < 2 ^ 63 := by
    rw [hshows.nodes.length_eq]
    decide
  obtain ⟨reply, htold, -⟩ := Oracle.isContained_of_rawReply? hnumbered rawReply?_answer
  obtain ⟨raw', hraw', hdistinct⟩ := hreply _ _ _ hnumbered hlength htold
  obtain ⟨results, middle, result, -, -, hresult, -, hcarries⟩ :=
    hedited _ _ _ _ _ _ _ _ hrun hfind (by decide)
  cases result with
  | error failure => cases hresult
  | ok patch =>
    obtain rfl : report.batchResults = results := by
      rw [Except.ok.inj hresult]
      rfl
    obtain ⟨done, hdone, hnodes⟩ := hcarries patch rfl
    exact ⟨report, exchange, _, _, patch, reply, hrun, hnode,
      ⟨done, hdone, hnodes _ List.mem_cons_self hnode⟩, htold,
      hdistinct.mpr fun number _ => acceptsOnce_answer hraw' number⟩

/-- An answer with two values for one node: for its place, and for the number that it says. -/
def doubledAnswer : String :=
  "\x7b\"modifications\": [\x7b\"modifiedContent\": \"Log in\"\x7d, " ++
    "\x7b\"nodeIndex\": 0, \"originalContent\": \"Log in\", \"modifiedContent\": \"Enter\"\x7d]\x7d"

def doubling : Oracle Unit := fun _ => return { outcome := .answered doubledAnswer }

def doubledResult (confidence trust : Float) : Batch.Result :=
  ⟨"batch-001",
    [⟨0, none, none, "Sign in", "Log in", "", confidence, true, .unspecified, []⟩,
      ⟨0, none, none, "Log in", "Enter", "", confidence, true, .unspecified, []⟩],
    true, none, 1, 2, "unspecified", trust⟩

def doubledPatch : Patch :=
  { filesModified := ["a.md"], replacements := 2,
    applied := [⟨"a.md", 1, .direct⟩, ⟨"a.md", 1, .direct⟩] }

theorem rawReply?_doubledAnswer : Oracle.rawReply? doubledAnswer.toList =
    some ⟨[.object [("modifiedContent", .string "Log in")],
      .object [("modifiedContent", .string "Enter"), ("nodeIndex", .number (.integer 0)),
        ("originalContent", .string "Log in")]], none, none⟩ :=
  Oracle.rawReply?_object (by cbv)

theorem consult_doubled (disk : Disk) (weight trust : Float) :
    (doubling.consultAll 120 [noteBatch weight trust]).run ((), disk) =
      ([doubledResult Oracle.unstatedConfidence
        (mean [Oracle.unstatedConfidence, Oracle.unstatedConfidence])], ((), disk)) :=
  Oracle.run_consultAll_answered (fun _ => congrArg (Option.map _) rawReply?_doubledAnswer) 120
    (noteBatch weight trust) disk

theorem apply_doubled (weight trust confidence trust' : Float) :
    (Patch.apply (.ofConfig noteTask.config) [noteBatch weight trust]
      [doubledResult confidence trust']).run.run noteDisk =
        (.ok doubledPatch, noteDisk.put ["a.md"] (.file "Enter".toUTF8)) := by
  show (Patch.apply ⟨true, false⟩ _ _).run.run _ = _
  cbv

/-- The note is edited twice, and the second edit is made to what the first one has written. -/
theorem note_edited_twice : ∃ stats node report result,
    noteTask.find noParser noteDisk = .ok ⟨stats, .ok [node]⟩ ∧
    (noteTask.run noParser doubling midnight).run.run ((), noteDisk) =
      (.ok report, ((), noteDisk.put ["a.md"] (.file "Enter".toUTF8))) ∧
    report.batchResults = [result] ∧
    (result.proposals.filter (·.accepted)).map (·.nodeIndex) = [0, 0] ∧
    report.replacements = 2 := by
  have htext : noteDisk.textAt "/a.md" = .ok "Sign in" := by cbv
  have hfind := find_note htext files_note
  have hbatches := batches_note Node.Kind.lineMatch.relevance
  generalize Node.Kind.lineMatch.relevance = weight at hfind hbatches
  have hconsult := consult_doubled noteDisk weight (mean [weight])
  have happly := apply_doubled weight (mean [weight]) Oracle.unstatedConfidence
    (mean [Oracle.unstatedConfidence, Oracle.unstatedConfidence])
  rw [← hbatches] at hconsult happly
  exact ⟨_, _, _, _, hfind, run_of_commit hfind hconsult (run_commit_note happly), rfl, rfl, rfl⟩

end Run

end Rephrase
