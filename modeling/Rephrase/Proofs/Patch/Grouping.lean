import Rephrase.Proofs.Batch
import Rephrase.Proofs.Patch.Plan

/-! Edits are planned file by file. Every edit that is asked for is in the plan of its file, once,
and no file has two plans. -/

namespace Rephrase.Patch

/-- Whether an edit is for the file of a path. -/
def PlannedEdit.isAt (location : String) (edit : PlannedEdit) : Bool :=
  Path.same edit.node.location location

theorem PlannedEdit.isAt_self (edit : PlannedEdit) : edit.isAt edit.node.location = true :=
  Path.compare_eq_iff_same.mp (Path.compare_self _)

theorem PlannedEdit.isAt_congr {edit : PlannedEdit} {location : String}
    (h : edit.isAt location = true) (other : PlannedEdit) :
    other.isAt location = other.isAt edit.node.location := by
  unfold isAt Path.same at *
  rw [beq_iff_eq.mp h]

theorem PlannedEdit.isAt_eq_false_of_lt {edit : PlannedEdit} {a b : String}
    (h : edit.isAt a = true) (hlt : Path.compare a b = .lt) : edit.isAt b = false := by
  rw [Bool.eq_false_iff]
  intro hb
  have hsame : Path.same a b = true := by
    unfold isAt Path.same at *
    rw [beq_iff_eq] at *
    rw [← h, hb]
  nomatch hlt.symm.trans (Path.compare_eq_iff_same.mpr hsame)

theorem PlannedEdit.isAt_eq_false_of_gt {edit : PlannedEdit} {a b : String}
    (h : edit.isAt b = true) (hlt : Path.compare a b = .lt) : edit.isAt a = false := by
  rw [Bool.eq_false_iff]
  intro ha
  nomatch (isAt_eq_false_of_lt ha hlt).symm.trans h

/-! ## Steps -/

def AreSorted (plans : List FilePlan) : Prop :=
  plans.Pairwise fun a b => Path.compare a.location b.location = .lt

/-- An edit is put to those of its file, or it makes a plan of its own between those of other
files. -/
theorem addEdit_cases (edit : PlannedEdit) {plans : List FilePlan} (h : AreSorted plans) :
    (∃ front plan back, plans = front ++ plan :: back ∧ edit.isAt plan.location = true ∧
      addEdit edit plans = front ++ { plan with edits := plan.edits ++ [edit] } :: back) ∨
    ∃ front back, plans = front ++ back ∧
      (∀ plan ∈ front, Path.compare plan.location edit.node.location = .lt) ∧
      (∀ plan ∈ back, Path.compare edit.node.location plan.location = .lt) ∧
      addEdit edit plans = front ++ ⟨edit.node.location, [edit]⟩ :: back := by
  induction plans with
  | nil => exact .inr ⟨[], [], rfl, nofun, nofun, rfl⟩
  | cons plan rest ih =>
    obtain ⟨hplan, hrest⟩ := List.pairwise_cons.mp h
    rw [addEdit]
    split
    · rename_i hlt
      refine .inr ⟨[], plan :: rest, rfl, nofun, ?_, rfl⟩
      exact List.forall_mem_cons.mpr
        ⟨hlt, fun other hother => Std.TransCmp.lt_trans hlt (hplan other hother)⟩
    · rename_i heq
      exact .inl ⟨[], plan, rest, rfl, Path.compare_eq_iff_same.mp heq, rfl⟩
    -- Behind the first plan it is the same question again, and that plan stays in front.
    · rename_i hgt
      obtain ⟨front, other, back, hsplit, hat, hadd⟩ | ⟨front, back, hsplit, hfront, hback, hadd⟩ :=
        ih hrest
      · exact .inl ⟨plan :: front, other, back, by rw [hsplit]; rfl, hat, by rw [hadd]; rfl⟩
      · refine .inr ⟨plan :: front, back, by rw [hsplit]; rfl, ?_, hback, by rw [hadd]; rfl⟩
        exact List.forall_mem_cons.mpr ⟨Std.OrientedCmp.lt_of_gt hgt, hfront⟩

/-- Plans for some edits: one for each of their files, in the order of the paths. -/
structure AreGrouped (edits : List PlannedEdit) (plans : List FilePlan) : Prop where
  sorted : AreSorted plans
  exact : ∀ plan ∈ plans, plan.edits = edits.filter (·.isAt plan.location)
  located : ∀ plan ∈ plans, ∃ edit ∈ edits, edit.node.location = plan.location
  complete : ∀ edit ∈ edits, ∃ plan ∈ plans, edit.isAt plan.location = true

/-- The plans of other files stay as they are. -/
theorem AreGrouped.exact_append {edits : List PlannedEdit} {plans : List FilePlan}
    (h : AreGrouped edits plans) {edit : PlannedEdit} {plan : FilePlan} (hplan : plan ∈ plans)
    (hnot : edit.isAt plan.location = false) :
    plan.edits = (edits ++ [edit]).filter (·.isAt plan.location) := by
  rw [List.filter_append, ← h.exact plan hplan, List.filter_singleton, hnot]
  exact (List.append_nil _).symm

theorem AreGrouped.located_append {edits : List PlannedEdit} {plans : List FilePlan}
    (h : AreGrouped edits plans) (edit : PlannedEdit) : ∀ plan ∈ plans,
      ∃ other ∈ edits ++ [edit], other.node.location = plan.location := by
  intro plan hplan
  obtain ⟨other, hother, hlocation⟩ := h.located plan hplan
  exact ⟨other, List.mem_append_left _ hother, hlocation⟩

section

variable {edits : List PlannedEdit} {edit : PlannedEdit} {front back : List FilePlan}

theorem AreGrouped.extended {plan : FilePlan} (h : AreGrouped edits (front ++ plan :: back))
    (hat : edit.isAt plan.location = true) : AreGrouped (edits ++ [edit])
      (front ++ { plan with edits := plan.edits ++ [edit] } :: back) := by
  obtain ⟨hfront, hbehind, hbetween⟩ := List.pairwise_append.mp h.sorted
  obtain ⟨hplan, hback⟩ := List.pairwise_cons.mp hbehind
  have hmem : plan ∈ front ++ plan :: back := List.mem_append_right _ List.mem_cons_self
  refine ⟨?_, List.forall_mem_append.mpr ⟨fun other hother => ?_,
    List.forall_mem_cons.mpr ⟨?_, fun other hother => ?_⟩⟩, ?_, ?_⟩
  · refine List.pairwise_append.mpr ⟨hfront, List.pairwise_cons.mpr ⟨hplan, hback⟩, ?_⟩
    intro a ha
    obtain ⟨hfirst, hrest⟩ := List.forall_mem_cons.mp (hbetween a ha)
    exact List.forall_mem_cons.mpr ⟨hfirst, hrest⟩
  -- The edit is not at the place of another plan, which stands in front of it or behind it.
  · exact h.exact_append (List.mem_append_left _ hother)
      (PlannedEdit.isAt_eq_false_of_gt hat (hbetween other hother plan List.mem_cons_self))
  · rw [List.filter_append, ← h.exact plan hmem, List.filter_singleton, hat]
    rfl
  · exact h.exact_append (List.mem_append_right _ (List.mem_cons_of_mem _ hother))
      (PlannedEdit.isAt_eq_false_of_lt hat (hplan other hother))
  · obtain ⟨hfrontLocated, hlocated⟩ := List.forall_mem_append.mp (h.located_append edit)
    obtain ⟨hplanLocated, hbackLocated⟩ := List.forall_mem_cons.mp hlocated
    exact List.forall_mem_append.mpr
      ⟨hfrontLocated, List.forall_mem_cons.mpr ⟨hplanLocated, hbackLocated⟩⟩
  · have hsame : ∀ other : PlannedEdit, (∃ p ∈ front ++ plan :: back, other.isAt p.location = true) →
        ∃ p ∈ front ++ { plan with edits := plan.edits ++ [edit] } :: back,
          other.isAt p.location = true := by
      simp only [List.mem_append, List.mem_cons, or_and_right, exists_or, exists_eq_left]
      exact fun other hother => hother
    refine List.forall_mem_append.mpr ⟨fun other hother => hsame other (h.complete other hother), ?_⟩
    exact List.forall_mem_singleton.mpr (hsame edit ⟨plan, hmem, hat⟩)

theorem AreGrouped.inserted (h : AreGrouped edits (front ++ back))
    (hfront : ∀ plan ∈ front, Path.compare plan.location edit.node.location = .lt)
    (hback : ∀ plan ∈ back, Path.compare edit.node.location plan.location = .lt) :
    AreGrouped (edits ++ [edit]) (front ++ ⟨edit.node.location, [edit]⟩ :: back) := by
  obtain ⟨hfrontSorted, hbackSorted, hbetween⟩ := List.pairwise_append.mp h.sorted
  have hself := edit.isAt_self
  -- No edit before was for this file, since it has no plan.
  have hnone : edits.filter (·.isAt edit.node.location) = [] := by
    refine List.filter_eq_nil_iff.mpr fun other hother hat => ?_
    obtain ⟨plan, hplan, hat'⟩ := h.complete other hother
    obtain hplan | hplan := List.mem_append.mp hplan
    · nomatch (PlannedEdit.isAt_eq_false_of_gt hat (hfront plan hplan)).symm.trans hat'
    · nomatch (PlannedEdit.isAt_eq_false_of_lt hat (hback plan hplan)).symm.trans hat'
  refine ⟨?_, List.forall_mem_append.mpr ⟨fun other hother => ?_,
    List.forall_mem_cons.mpr ⟨?_, fun other hother => ?_⟩⟩, ?_, ?_⟩
  · refine List.pairwise_append.mpr
      ⟨hfrontSorted, List.pairwise_cons.mpr ⟨hback, hbackSorted⟩, fun a ha => ?_⟩
    exact List.forall_mem_cons.mpr ⟨hfront a ha, hbetween a ha⟩
  · exact h.exact_append (List.mem_append_left _ hother)
      (PlannedEdit.isAt_eq_false_of_gt hself (hfront other hother))
  · rw [List.filter_append, hnone, List.filter_singleton, hself]
    rfl
  · exact h.exact_append (List.mem_append_right _ hother)
      (PlannedEdit.isAt_eq_false_of_lt hself (hback other hother))
  · obtain ⟨hfrontLocated, hbackLocated⟩ := List.forall_mem_append.mp (h.located_append edit)
    refine List.forall_mem_append.mpr ⟨hfrontLocated, List.forall_mem_cons.mpr ⟨?_, hbackLocated⟩⟩
    exact ⟨edit, List.mem_append_right _ List.mem_cons_self, rfl⟩
  · refine List.forall_mem_append.mpr ⟨fun other hother => ?_, List.forall_mem_singleton.mpr ?_⟩
    · obtain ⟨plan, hplan, hat⟩ := h.complete other hother
      refine ⟨plan, ?_, hat⟩
      rw [List.mem_append, List.mem_cons]
      exact (List.mem_append.mp hplan).imp_right .inr
    · exact ⟨_, List.mem_append_right _ List.mem_cons_self, hself⟩

end

theorem areGrouped_addEdit {edits : List PlannedEdit} {plans : List FilePlan}
    (h : AreGrouped edits plans) (edit : PlannedEdit) :
    AreGrouped (edits ++ [edit]) (addEdit edit plans) := by
  obtain ⟨front, plan, back, rfl, hat, hadd⟩ | ⟨front, back, rfl, hfront, hback, hadd⟩ :=
    addEdit_cases edit h.sorted
  · rw [hadd]
    exact h.extended hat
  · rw [hadd]
    exact h.inserted hfront hback

theorem areGrouped_foldl (edits : List PlannedEdit) :
    AreGrouped edits (edits.foldl (fun plans edit => addEdit edit plans) []) := by
  induction edits using List.reverseRecOn with
  | nil =>
    exact ⟨.nil, List.forall_mem_nil _, List.forall_mem_nil _, List.forall_mem_nil _⟩
  | append_singleton edits edit ih =>
    rw [List.foldl_append]
    exact areGrouped_addEdit ih edit

/-! ## Plans -/

/-- What the plans for some batches' results are. -/
structure ArePlanned (edits : List PlannedEdit) (plans : List FilePlan) : Prop where
  sorted : AreSorted plans
  exact : ∀ plan ∈ plans,
    plan.edits = (edits.filter (·.isAt plan.location)).mergeSort notBefore
  located : ∀ plan ∈ plans, ∃ edit ∈ edits, edit.node.location = plan.location
  complete : ∀ edit ∈ edits, ∃ plan ∈ plans, edit.isAt plan.location = true

theorem arePlanned (batches : List Batch) (results : List Batch.Result) :
    ArePlanned (plannedEdits batches results) (plans batches results) := by
  have h := areGrouped_foldl (plannedEdits batches results)
  refine ⟨List.pairwise_map.mpr h.sorted, ?_, ?_, fun edit hedit => ?_⟩
  · intro _ hplan
    obtain ⟨plan, hmem, rfl⟩ := List.mem_map.mp hplan
    dsimp only
    rw [h.exact plan hmem]
  · intro _ hplan
    obtain ⟨plan, hmem, rfl⟩ := List.mem_map.mp hplan
    exact h.located plan hmem
  · obtain ⟨plan, hplan, hat⟩ := h.complete edit hedit
    exact ⟨_, List.mem_map_of_mem hplan, hat⟩

namespace ArePlanned

variable {edits : List PlannedEdit} {plans : List FilePlan} (h : ArePlanned edits plans)
  {plan : FilePlan} (hplan : plan ∈ plans)
include h hplan

theorem perm : plan.edits.Perm (edits.filter (·.isAt plan.location)) := by
  rw [h.exact plan hplan]
  exact List.mergeSort_perm _ _

theorem exists_cons : ∃ first rest, plan.edits = first :: rest ∧ first ∈ edits ∧
    first.isAt plan.location = true := by
  obtain ⟨edit, hedit, hlocation⟩ := h.located plan hplan
  have hat : edit.isAt plan.location = true := hlocation ▸ edit.isAt_self
  have hmem := (h.perm hplan).mem_iff.mpr (List.mem_filter.mpr ⟨hedit, hat⟩)
  obtain ⟨first, rest, hcons⟩ := List.exists_cons_of_ne_nil (List.ne_nil_of_mem hmem)
  have hfirst := (h.perm hplan).mem_iff.mp (hcons ▸ List.mem_cons_self)
  obtain ⟨hfirst, hat⟩ := List.mem_filter.mp hfirst
  exact ⟨first, rest, hcons, hfirst, hat⟩

end ArePlanned

theorem flatMap_edits_addEdit (edit : PlannedEdit) (plans : List FilePlan) :
    ((addEdit edit plans).flatMap (·.edits)).Perm (edit :: plans.flatMap (·.edits)) := by
  induction plans with
  | nil => exact .refl _
  | cons plan rest ih =>
    rw [addEdit]
    split
    · exact .refl _
    · rw [List.flatMap_cons, List.flatMap_cons, List.append_assoc]
      exact List.perm_middle
    · rw [List.flatMap_cons, List.flatMap_cons]
      exact (ih.append_left plan.edits).trans List.perm_middle

/-- The plans have all edits that are asked for, each of them once. -/
theorem flatMap_edits_plans (batches : List Batch) (results : List Batch.Result) :
    ((plans batches results).flatMap (·.edits)).Perm (plannedEdits batches results) := by
  have hgrouped : ∀ edits : List PlannedEdit,
      ((edits.foldl (fun plans edit => addEdit edit plans) []).flatMap (·.edits)).Perm edits := by
    intro edits
    induction edits using List.reverseRecOn with
    | nil => exact .refl _
    | append_singleton edits edit ih =>
      rw [List.foldl_append, List.foldl_cons, List.foldl_nil]
      refine (flatMap_edits_addEdit edit _).trans ((ih.cons edit).trans ?_)
      exact (List.perm_append_singleton edit edits).symm
  refine List.Perm.trans ?_ (hgrouped (plannedEdits batches results))
  unfold plans
  rw [List.flatMap_map]
  exact List.Perm.flatMap_left _ fun plan _ => List.mergeSort_perm _ _

end Rephrase.Patch
