import Mathlib.Data.List.Pairwise
import Mathlib.Data.List.Perm.Basic
import Rephrase.Patch.Plan
import Rephrase.Proofs.Patch.Draft
import Rephrase.Proofs.Path

/-! One file's edits are planned from the last node to the first, in whatever order the proposals
come. -/

namespace Rephrase

namespace Patch

open Edit Text

/-! ## Grouping -/

theorem foldl_addEdit {location : String} (done : List PlannedEdit) (edits : List PlannedEdit)
    (h : ∀ edit ∈ edits, edit.node.location = location) :
    edits.foldl (fun plans edit => addEdit edit plans) [⟨location, done⟩] =
      [⟨location, done ++ edits⟩] := by
  induction edits generalizing done with
  | nil => rw [List.append_nil]; rfl
  | cons edit edits ih =>
    have hadd : addEdit edit [⟨location, done⟩] = [⟨location, done ++ [edit]⟩] := by
      rw [addEdit, h edit List.mem_cons_self, Path.compare_self]
    rw [List.foldl_cons, hadd, ih (done ++ [edit]) fun e he => h e (List.mem_cons_of_mem _ he),
      List.append_assoc]
    rfl

/-- Edits of one file make one plan. -/
theorem foldl_addEdit_nil {location : String} {edits : List PlannedEdit}
    (h : ∀ edit ∈ edits, edit.node.location = location) (hne : edits ≠ []) :
    edits.foldl (fun plans edit => addEdit edit plans) [] = [⟨location, edits⟩] := by
  obtain ⟨first, rest, rfl⟩ := List.exists_cons_of_ne_nil hne
  have hfirst : addEdit first [] = [⟨location, [first]⟩] := by
    rw [addEdit, h first List.mem_cons_self]
  rw [List.foldl_cons, hfirst,
    foldl_addEdit [first] rest fun e he => h e (List.mem_cons_of_mem _ he)]
  rfl

/-! ## Order -/

theorem notBefore_iff {a b : PlannedEdit} :
    notBefore a b = true ↔ ¬a.node.start.Before b.node.start := by
  unfold notBefore Position.Before
  simp only [Bool.or_eq_true, Bool.and_eq_true, decide_eq_true_eq]
  omega

/-- Edits whose nodes start in different places have one order only. -/
theorem mergeSort_eq_reverse {edits sorted : List PlannedEdit} (hperm : edits.Perm sorted)
    (hsorted : sorted.Pairwise fun a b => a.node.start.Before b.node.start) :
    edits.mergeSort notBefore = sorted.reverse := by
  have htrans : ∀ a b c : PlannedEdit, notBefore a b = true → notBefore b c = true →
      notBefore a c = true := by
    intro a b c
    simp only [notBefore_iff, Position.Before]
    omega
  have htotal : ∀ a b : PlannedEdit, (notBefore a b || notBefore b a) = true := by
    intro a b
    simp only [Bool.or_eq_true, notBefore_iff, Position.Before]
    omega
  -- Two edits that start in one place are the same edit, so the sort leaves no choice.
  have hunique : ∀ a ∈ sorted, ∀ b ∈ sorted,
      a = b ∨ a.node.start.Before b.node.start ∨ b.node.start.Before a.node.start := by
    intro a ha b hb
    exact List.Pairwise.forall_of_forall_of_flip (R := fun a b : PlannedEdit =>
      a = b ∨ a.node.start.Before b.node.start ∨ b.node.start.Before a.node.start)
      (fun _ _ => .inl rfl) (hsorted.imp fun h => .inr (.inl h))
      (hsorted.imp fun h => .inr (.inr h)) ha hb
  have hreverse : (edits.mergeSort notBefore).Perm sorted.reverse :=
    ((List.mergeSort_perm edits notBefore).trans hperm).trans sorted.reverse_perm.symm
  refine List.Perm.eq_of_pairwise (fun a b ha hb hab hba => ?_)
    (List.pairwise_mergeSort htrans htotal edits) ?_ hreverse
  · have ha : a ∈ sorted := hperm.mem_iff.mp (List.mem_mergeSort.mp ha)
    obtain heq | h | h := hunique a ha b (List.mem_reverse.mp hb)
    · exact heq
    · exact absurd h (notBefore_iff.mp hab)
    · exact absurd h (notBefore_iff.mp hba)
  · rw [List.pairwise_reverse]
    exact hsorted.imp fun h => notBefore_iff.mpr h.asymm

/-- A recorded node starts where its first stretch does. -/
theorem exists_start {source : Source} {node : Node} (h : node.IsRecorded source) :
    ∃ front back, source.content = front ++ back ∧ node.start = positionBehind front ∧
      ∃ span ∈ node.stretches source.content, span.start = size front := by
  unfold Node.stretches
  split
  · rename_i pieces hpieces
    obtain ⟨⟨first, rest, rfl, hfirst⟩, hrecorded⟩ := h.pieces pieces hpieces
    obtain ⟨front, back, hcontent, hstart, hstop⟩ := (hrecorded first List.mem_cons_self).holds
    refine ⟨front, _, hcontent.trans (List.append_assoc _ _ _), hfirst ▸ hstart, _,
      List.mem_map_of_mem List.mem_cons_self, ?_⟩
    rw [hcontent, hstart, hstop, spanBetween_append]
  · rename_i hpieces
    obtain ⟨front, back, hcontent, hstart, hstop⟩ := (h.whole hpieces).1
    refine ⟨front, _, hcontent.trans (List.append_assoc _ _ _), hstart, _, List.mem_cons_self, ?_⟩
    rw [hcontent, hstart, hstop, spanBetween_append]

/-- The nodes of a file start one after another. -/
theorem pairwise_start {source : Source} {nodes : List Node} (h : source.AreRecorded nodes) :
    nodes.Pairwise fun a b => a.start.Before b.start := by
  obtain ⟨stop, hascend⟩ := h.ascend
  obtain ⟨-, hpairwise⟩ := List.pairwise_flatMap.mp hascend.pairwise
  refine hpairwise.imp_of_mem fun {a b} ha hb hab => ?_
  obtain ⟨front, back, hcontent, hstart, span, hspan, hsize⟩ := exists_start (h.records a ha)
  obtain ⟨front', back', hcontent', hstart', span', hspan', hsize'⟩ :=
    exists_start (h.records b hb)
  have hlt := hab span hspan span' hspan'
  obtain ⟨mid, rfl, -⟩ := append_split_of_size_le (hcontent.symm.trans hcontent') (by omega)
  -- Different offsets are different places, since no character is between them otherwise.
  have hmid : mid ≠ [] := by
    rintro rfl
    rw [List.append_nil] at hsize'
    omega
  rw [hstart, hstart', positionBehind_append]
  exact Position.before_behind _ hmid

/-! ## Answers -/

/-- An answer that gives some nodes new contents, each of them at most once. -/
structure Answers (nodes : List Node) (proposals : List Proposal) : Prop where
  once : (proposals.map (·.nodeIndex)).Nodup
  rewrites : ∀ p ∈ proposals, ∃ node, nodes[p.nodeIndex]? = some node ∧ Rewrites p node

theorem find?_of_mem {proposals : List Proposal} (honce : (proposals.map (·.nodeIndex)).Nodup)
    {p : Proposal} (hp : p ∈ proposals) (haccepted : p.accepted = true) :
    (proposals.find? fun q => q.nodeIndex = p.nodeIndex && q.accepted) = some p := by
  induction proposals with
  | nil => simp at hp
  | cons first rest ih =>
    rw [List.map_cons, List.nodup_cons] at honce
    obtain rfl | hp := List.mem_cons.mp hp
    · rw [List.find?_cons_of_pos (by simp [haccepted])]
    · have hne : first.nodeIndex ≠ p.nodeIndex := by
        intro heq
        exact honce.1 (heq ▸ List.mem_map_of_mem hp)
      rw [List.find?_cons_of_neg (by simp [hne]), ih honce.2 hp]

theorem mem_chosen {nodes : List Node} {proposals : List Proposal}
    (honce : (proposals.map (·.nodeIndex)).Nodup) {node : Node} {p : Proposal} :
    (node, some p) ∈ chosen nodes proposals ↔
      p ∈ proposals ∧ p.accepted = true ∧ nodes[p.nodeIndex]? = some node := by
  constructor
  · intro h
    obtain ⟨⟨other, number⟩, hmem, heq⟩ := List.mem_map.mp h
    obtain ⟨rfl, hfind⟩ := Prod.mk.inj heq
    have hp := List.find?_some hfind
    simp only [Bool.and_eq_true, decide_eq_true_eq] at hp
    obtain ⟨rfl, haccepted⟩ := hp
    exact ⟨List.mem_of_find?_eq_some hfind, haccepted, List.mk_mem_zipIdx_iff_getElem?.mp hmem⟩
  · rintro ⟨hp, haccepted, hnode⟩
    refine List.mem_map.mpr ⟨(node, p.nodeIndex), List.mk_mem_zipIdx_iff_getElem?.mpr hnode, ?_⟩
    show (node, _) = _
    rw [find?_of_mem honce hp haccepted]

theorem mem_editsOf {batch : Batch} {result : Batch.Result} {edit : PlannedEdit} :
    edit ∈ editsOf batch result ↔ edit.proposal ∈ result.proposals ∧
      edit.proposal.accepted = true ∧
        batch.nodes[edit.proposal.nodeIndex]? = some edit.node ∧ edit.batchId = batch.id := by
  unfold editsOf
  constructor
  · intro h
    obtain ⟨p, hp, hedit⟩ := List.mem_filterMap.mp h
    obtain ⟨hp, haccepted⟩ := List.mem_filter.mp hp
    obtain ⟨node, hnode, rfl⟩ := Option.map_eq_some_iff.mp hedit
    exact ⟨hp, haccepted, hnode, rfl⟩
  · rintro ⟨hp, haccepted, hnode, hid⟩
    refine List.mem_filterMap.mpr ⟨edit.proposal, List.mem_filter.mpr ⟨hp, haccepted⟩, ?_⟩
    rw [hnode, ← hid]
    rfl

/-- Whether a successful result for a batch asks for an edit. -/
def IsAskedFor (batches : List Batch) (results : List Batch.Result) (edit : PlannedEdit) : Prop :=
  ∃ result ∈ results, result.success = true ∧
    ∃ batch ∈ batches, batch.id = result.batchId ∧ edit ∈ editsOf batch result

theorem isAskedFor_of_mem_plannedEdits {batches : List Batch} {results : List Batch.Result}
    {edit : PlannedEdit} (h : edit ∈ plannedEdits batches results) :
    IsAskedFor batches results edit := by
  obtain ⟨result, hresult, hedit⟩ := List.mem_flatMap.mp h
  obtain ⟨hresult, hsuccess⟩ := List.mem_filter.mp hresult
  split at hedit
  · rename_i batch hbatch
    have hmem := List.mem_reverse.mp (List.mem_of_find?_eq_some hbatch)
    have hid := List.find?_some hbatch
    exact ⟨result, hresult, hsuccess, batch, hmem, of_decide_eq_true hid, hedit⟩
  · nomatch hedit

theorem mem_editsOfChoices {batchId : String} {choices : List (Node × Option Proposal)}
    {edit : PlannedEdit} : edit ∈ editsOfChoices batchId choices ↔
      (edit.node, some edit.proposal) ∈ choices ∧ edit.batchId = batchId := by
  unfold editsOfChoices
  constructor
  · intro h
    obtain ⟨⟨node, p?⟩, hmem, hedit⟩ := List.mem_filterMap.mp h
    obtain ⟨p, rfl, rfl⟩ := Option.map_eq_some_iff.mp hedit
    exact ⟨hmem, rfl⟩
  · rintro ⟨hmem, rfl⟩
    exact List.mem_filterMap.mpr ⟨_, hmem, rfl⟩

theorem pairwise_editsOfChoices {nodes : List Node} (proposals : List Proposal) (batchId : String)
    (hsorted : nodes.Pairwise fun a b => a.start.Before b.start) :
    (editsOfChoices batchId (chosen nodes proposals)).Pairwise fun a b =>
      a.node.start.Before b.node.start := by
  have hnumbered : nodes.zipIdx.Pairwise fun a b => a.1.start.Before b.1.start := by
    rw [← List.zipIdx_map_fst 0 nodes, List.pairwise_map] at hsorted
    exact hsorted
  have hchosen : (chosen nodes proposals).Pairwise fun a b => a.1.start.Before b.1.start :=
    List.pairwise_map.mpr hnumbered
  refine List.pairwise_filterMap.mpr (hchosen.imp fun {a b} hab edit hedit edit' hedit' => ?_)
  obtain ⟨p, -, rfl⟩ := Option.map_eq_some_iff.mp hedit
  obtain ⟨p', -, rfl⟩ := Option.map_eq_some_iff.mp hedit'
  exact hab

/-- The edits that an answer asks for are those of the chosen proposals, in some order. -/
theorem editsOf_perm {batch : Batch} {result : Batch.Result}
    (hanswers : Answers batch.nodes result.proposals)
    (hsorted : batch.nodes.Pairwise fun a b => a.start.Before b.start) :
    (editsOf batch result).Perm
      (editsOfChoices batch.id (chosen batch.nodes result.proposals)) := by
  have hdistinct : result.proposals.Pairwise fun p q => p.nodeIndex ≠ q.nodeIndex :=
    List.pairwise_map.mp hanswers.once
  have honce : (editsOf batch result).Nodup := by
    refine List.pairwise_filterMap.mpr
      ((hdistinct.filter _).imp fun {p q} hpq edit hedit edit' hedit' heq => hpq ?_)
    obtain ⟨node, -, rfl⟩ := Option.map_eq_some_iff.mp hedit
    obtain ⟨node', -, rfl⟩ := Option.map_eq_some_iff.mp hedit'
    exact congrArg (fun edit => edit.proposal.nodeIndex) heq
  have honce' : (editsOfChoices batch.id (chosen batch.nodes result.proposals)).Nodup :=
    (pairwise_editsOfChoices result.proposals batch.id hsorted).imp fun {a b} hab heq => by
      rw [heq] at hab
      exact hab.asymm hab
  -- Without repetitions it is enough to compare what the two lists hold.
  rw [List.perm_ext_iff_of_nodup honce honce']
  intro edit
  rw [mem_editsOf, mem_editsOfChoices, mem_chosen hanswers.once, and_assoc, and_assoc]

/-- The plan for the answer to one batch of a file's nodes. -/
theorem plans_of_answers {source : Source} {batch : Batch} {result : Batch.Result}
    (hnodes : source.AreRecorded batch.nodes) (hanswers : Answers batch.nodes result.proposals)
    (hid : result.batchId = batch.id) (hsuccess : result.success = true) :
    plans [batch] [result] =
      if (editsOfChoices batch.id (chosen batch.nodes result.proposals)).isEmpty then []
      else [⟨source.location,
        (editsOfChoices batch.id (chosen batch.nodes result.proposals)).reverse⟩] := by
  have hstart := pairwise_start hnodes
  have hperm := editsOf_perm hanswers hstart
  have hsorted := pairwise_editsOfChoices result.proposals batch.id hstart
  have hplanned : plannedEdits [batch] [result] = editsOf batch result := by
    -- The answer names the batch, so its proposals are looked up in it.
    have hbatch : batchOf? [batch] result.batchId = some batch := by
      rw [batchOf?, List.reverse_singleton, List.find?_cons_of_pos (by simp [hid])]
    rw [plannedEdits, List.filter_cons_of_pos (by simpa using hsuccess), List.filter_nil,
      List.flatMap_singleton, hbatch]
  have hlocation : ∀ edit ∈ editsOf batch result, edit.node.location = source.location := by
    intro edit hedit
    obtain ⟨-, -, hnode, -⟩ := mem_editsOf.mp hedit
    exact (hnodes.records _ (List.mem_of_getElem? hnode)).location
  unfold plans
  dsimp only
  rw [hplanned]
  generalize editsOfChoices batch.id (chosen batch.nodes result.proposals) = sorted at *
  split
  · rename_i hempty
    rw [List.isEmpty_iff.mp hempty] at hperm
    rw [hperm.eq_nil]
    rfl
  · rename_i hempty
    have hne : editsOf batch result ≠ [] := by
      intro hnil
      rw [hnil] at hperm
      exact hempty (List.isEmpty_iff.mpr hperm.symm.eq_nil)
    rw [foldl_addEdit_nil hlocation hne, List.map_singleton, mergeSort_eq_reverse hperm hsorted]

end Patch

end Rephrase
