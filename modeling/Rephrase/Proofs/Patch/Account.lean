import Rephrase.Proofs.Edit.Range
import Rephrase.Proofs.Patch.Failure
import Rephrase.Proofs.Patch.Fate
import Rephrase.Proofs.Patch.Grouping

/-! A patch accounts for the edits that are asked for, file by file: for all of a file's edits, each
of them once, or for the file's failure. -/

namespace Rephrase.Patch

/-! ## What is asked for -/

/-- The accepted proposals of successful results for nodes of their batches. -/
def asked (batches : List Batch) (results : List Batch.Result) : List PlannedEdit :=
  (results.filter (·.success)).flatMap fun result =>
    (batches.filter (·.id = result.batchId)).flatMap fun batch =>
      (result.proposals.filter (·.accepted)).flatMap fun p =>
        (batch.nodes[p.nodeIndex]?).toList.map fun node => ⟨batch.id, node, p⟩

theorem editsOf_eq_flatMap (batch : Batch) (result : Batch.Result) :
    editsOf batch result = (result.proposals.filter (·.accepted)).flatMap fun p =>
      (batch.nodes[p.nodeIndex]?).toList.map fun node => ⟨batch.id, node, p⟩ := by
  unfold editsOf
  induction result.proposals.filter (·.accepted) with
  | nil => rfl
  | cons p ps ih =>
    rw [List.flatMap_cons, ← ih, List.filterMap_cons]
    cases batch.nodes[p.nodeIndex]? <;> rfl

theorem plannedEdits_eq_asked {batches : List Batch} (hids : (batches.map (·.id)).Nodup)
    (results : List Batch.Result) : plannedEdits batches results = asked batches results := by
  unfold plannedEdits asked
  refine List.flatMap_congr fun result _ => ?_
  rw [Batch.filter_id hids]
  cases batchOf? batches result.batchId with
  | none => rfl
  | some batch =>
    rw [Option.toList_some, List.flatMap_singleton]
    exact editsOf_eq_flatMap batch result

/-- A result with those proposals alone that ask for an edit. -/
def asking (batches : List Batch) (result : Batch.Result) : Batch.Result :=
  { result with
    proposals := result.proposals.filter fun p => result.success && p.accepted &&
      batches.any fun batch => batch.id = result.batchId && p.nodeIndex < batch.nodes.length }

theorem editsOf_asking {batches : List Batch} {batch : Batch} {result : Batch.Result}
    (hbatch : batchOf? batches result.batchId = some batch) (hsuccess : result.success = true) :
    editsOf batch (asking batches result) = editsOf batch result := by
  unfold editsOf asking
  dsimp only
  rw [List.filter_filter, List.filterMap_filter, List.filterMap_filter]
  refine List.filterMap_congr fun p _ => ?_
  cases hnode : batch.nodes[p.nodeIndex]? with
  | none => simp
  | some node =>
    obtain ⟨hplace, -⟩ := List.getElem?_eq_some_iff.mp hnode
    have hknown : (batches.any fun batch =>
        batch.id = result.batchId && p.nodeIndex < batch.nodes.length) = true := by
      refine List.any_eq_true.mpr ⟨batch, List.mem_reverse.mp (List.mem_of_find?_eq_some hbatch), ?_⟩
      simpa [hplace] using List.find?_some hbatch
    rw [hsuccess, hknown]
    simp

theorem plannedEdits_asking (batches : List Batch) (results : List Batch.Result) :
    plannedEdits batches (results.map (asking batches)) = plannedEdits batches results := by
  unfold plannedEdits
  rw [List.filter_map, List.flatMap_map]
  refine List.flatMap_congr fun result hresult => ?_
  have hsame : (asking batches result).batchId = result.batchId := rfl
  rw [hsame]
  cases hbatch : batchOf? batches result.batchId with
  | none => rfl
  | some batch => exact editsOf_asking hbatch (List.mem_filter.mp hresult).2

/-- Proposals that ask for nothing have no part in what is done. -/
theorem apply_asking (options : Options) (batches : List Batch) (results : List Batch.Result) :
    Patch.apply options batches (results.map (asking batches)) =
      Patch.apply options batches results := by
  unfold Patch.apply plans
  rw [plannedEdits_asking]

/-! ## Turns -/

/-- The disk as a planned file finds it when its turn has come. -/
def IsTurn (options : Options) (plans : List FilePlan) (disk : Disk) (plan : FilePlan)
    (turn : Disk) : Prop :=
  ∃ done rest patch, plans = done ++ plan :: rest ∧
    (done.foldlM (editFile options) {}).run.run disk = (.ok patch, turn)

/-- A file's edits up to one whose node has numbers that are out of range when it comes to it. -/
structure IsStuck (plan : FilePlan) (turn : Disk) (edit : PlannedEdit) : Prop where
  mem : edit ∈ plan.edits
  outOfRange : ∃ file text done rest draft, turn.textAt plan.location = .ok text ∧
    plan.edits = done ++ edit :: rest ∧ draftOf file text.toList done = .ok draft ∧
      edit.node.IsOutOfRange draft.content

theorem outOfRange_of_draftOf {file : String} {content : List Char} {edits : List PlannedEdit}
    {fault : Fault} (h : draftOf file content edits = .error fault) :
    ∃ done edit rest draft, edits = done ++ edit :: rest ∧
      draftOf file content done = .ok draft ∧ edit.node.IsOutOfRange draft.content := by
  unfold draftOf at *
  generalize ({ content } : Draft) = start at h
  induction edits generalizing start with
  | nil => cases h
  | cons edit edits ih =>
    rw [List.foldlM_cons] at h
    -- The edit that breaks is the first one to do so, on what those in front of it have made.
    cases hedit : Draft.edit file start edit with
    | error fault' =>
      refine ⟨[], edit, edits, start, rfl, rfl, ?_⟩
      unfold Draft.edit at hedit
      split at hedit
      · cases hedit
      split at hedit
      · cases hedit
      cases happly : Edit.apply start.content edit.node edit.proposal with
      | error _ => exact Edit.isOutOfRange_of_apply happly
      | ok result =>
        rw [happly, ok_bind] at hedit
        split at hedit
        · split at hedit <;> cases hedit
        · cases hedit
    | ok next =>
      rw [hedit, ok_bind] at h
      obtain ⟨done, other, rest, draft, hedits, hdraft, hrange⟩ := ih next h
      refine ⟨edit :: done, other, rest, draft, by rw [hedits]; rfl, ?_, hrange⟩
      rw [List.foldlM_cons, hedit, ok_bind, hdraft]

theorem exists_isStuck {options : Options} {plan : FilePlan} {turn : Disk} {fault : Fault}
    (h : plan.yield options turn.limit (turn.textAt plan.location) = .error fault) :
    ∃ edit, IsStuck plan turn edit := by
  unfold FilePlan.yield at h
  split at h
  · cases h
  · cases h
  · rename_i first rest text hedits htext
    cases hdraft : draftOf first.node.file text.toList plan.edits with
    | ok draft =>
      rw [hdraft] at h
      cases h
    | error fault' =>
      obtain ⟨done, edit, later, draft, hsplit, hdone, hrange⟩ := outOfRange_of_draftOf hdraft
      have hmem : edit ∈ plan.edits := hsplit ▸ List.mem_append_right _ List.mem_cons_self
      exact ⟨edit, hmem, first.node.file, text, done, later, draft, htext, hsplit, hdone, hrange⟩

/-! ## Accounts -/

section

variable {options : Options} {edits : List PlannedEdit} {plans : List FilePlan}
  (h : ArePlanned edits plans)
include h

theorem ArePlanned.account {plan : FilePlan} (hplan : plan ∈ plans) {limit : Option Nat}
    {text : Except Disk.Error String} {yield : Patch × Option ByteArray}
    (hyield : plan.yield options limit text = .ok yield) :
    ∃ first rest, plan.edits = first :: rest ∧
      IsAccount options limit first.node.file plan.edits text yield.1 := by
  obtain ⟨first, rest, hedits, -, -⟩ := h.exists_cons hplan
  exact ⟨first, rest, hedits, isAccount_of_yield hedits hyield⟩

/-- The names in what a file's edits yield are those of edits for this file. -/
theorem ArePlanned.files {plan : FilePlan} (hplan : plan ∈ plans) {limit : Option Nat}
    {text : Except Disk.Error String} {yield : Patch × Option ByteArray}
    (hyield : plan.yield options limit text = .ok yield) :
    ∀ file ∈ yield.1.files, ∃ edit ∈ edits, edit.isAt plan.location = true ∧
      file = edit.node.file := by
  intro file hfile
  obtain ⟨first, rest, hedits, haccount⟩ := h.account hplan hyield
  have hedit : ∃ edit ∈ plan.edits, file = edit.node.file := by
    obtain rfl | hedit := haccount.of_mem_files hfile
    · exact ⟨first, hedits ▸ List.mem_cons_self, rfl⟩
    · exact hedit
  obtain ⟨edit, hedit, hname⟩ := hedit
  obtain ⟨hedit, hat⟩ := List.mem_filter.mp ((h.perm hplan).mem_iff.mp hedit)
  exact ⟨edit, hedit, hat, hname⟩

section

variable {own : String → Bool} {yields : List (Patch × Option ByteArray)}
  (hyields : List.Forall₂ (fun plan yield =>
    ∃ limit text, plan.yield options limit text = .ok yield) plans yields)
include hyields

/-- For the names of a file a patch tells what this file's edits yield, and nothing else. -/
theorem ArePlanned.only_sum {plan : FilePlan} {yield : Patch × Option ByteArray}
    (hmem : (plan, yield) ∈ plans.zip yields)
    (hown : ∀ edit ∈ edits, own edit.node.file = edit.isAt plan.location) :
    (sum (yields.map Prod.fst)).only own = yield.1 := by
  have hlength := hyields.length_eq
  obtain ⟨front, back, hzip⟩ := List.append_of_mem hmem
  have hplans : (plans.zip yields).map Prod.fst = plans := List.map_fst_zip hlength.le
  have hyields' : (plans.zip yields).map Prod.snd = yields := List.map_snd_zip hlength.ge
  rw [hzip, List.map_append, List.map_cons] at hplans hyields'
  have hplan : plan ∈ plans := (List.of_mem_zip hmem).1
  obtain ⟨limit, text, hyield⟩ := List.forall₂_zip hyields hmem
  -- Edits in other plans are for other files.
  have hothers : ∀ other ∈ front ++ back, ∀ e : PlannedEdit, e.isAt other.1.location = true →
      e.isAt plan.location = false := by
    have hsorted := h.sorted
    rw [AreSorted, ← hplans] at hsorted
    obtain ⟨-, hbehind, hbetween⟩ := List.pairwise_append.mp hsorted
    refine List.forall_mem_append.mpr ⟨fun other hother e he => ?_, fun other hother e he => ?_⟩
    · exact PlannedEdit.isAt_eq_false_of_lt he
        (hbetween _ (List.mem_map_of_mem hother) plan List.mem_cons_self)
    · exact PlannedEdit.isAt_eq_false_of_gt he
        ((List.pairwise_cons.mp hbehind).1 _ (List.mem_map_of_mem hother))
  rw [← hyields', List.map_append, List.map_cons]
  refine only_sum_of_split (fun file hfile => ?_) ?_ fun patch hpatch file hfile => ?_
  · obtain ⟨edit, hedit, hat, rfl⟩ := h.files hplan hyield file hfile
    exact (hown edit hedit).trans hat
  · obtain ⟨_, _, _, haccount⟩ := h.account hplan hyield
    exact haccount.isCounted
  · rw [← List.map_append, ← List.map_append, List.map_map] at hpatch
    obtain ⟨other, hother, rfl⟩ := List.mem_map.mp hpatch
    have hmem' : other ∈ plans.zip yields := by
      rw [hzip]
      simp only [List.mem_append, List.mem_cons] at hother ⊢
      tauto
    obtain ⟨limit, text, hyield⟩ := List.forall₂_zip hyields hmem'
    obtain ⟨edit, hedit, hat, rfl⟩ := h.files (List.of_mem_zip hmem').1 hyield file hfile
    exact (hown edit hedit).trans (hothers other hother edit hat)

/-- The names in a patch are those of edits that were asked for. -/
theorem ArePlanned.files_sum : ∀ file ∈ (sum (yields.map Prod.fst)).files,
    ∃ edit ∈ edits, file = edit.node.file := by
  intro file hfile
  obtain ⟨_, hpatch, hmem⟩ := mem_files_sum.mp hfile
  obtain ⟨yield, hyield, rfl⟩ := List.mem_map.mp hpatch
  obtain ⟨place, hplace, rfl⟩ := List.getElem_of_mem hyield
  have hplace' : place < plans.length := hyields.length_eq ▸ hplace
  obtain ⟨limit, text, hmade⟩ := hyields.get hplace' hplace
  obtain ⟨edit, hedit, -, hname⟩ := h.files (List.getElem_mem hplace') hmade file hmem
  exact ⟨edit, hedit, hname⟩

theorem ArePlanned.isCounted_sum : (sum (yields.map Prod.fst)).IsCounted := by
  refine Patch.isCounted_sum (List.forall_mem_map.mpr fun yield hyield => ?_)
  obtain ⟨place, hplace, rfl⟩ := List.getElem_of_mem hyield
  have hplace' : place < plans.length := hyields.length_eq ▸ hplace
  obtain ⟨limit, text, hmade⟩ := hyields.get hplace' hplace
  obtain ⟨_, _, _, haccount⟩ := h.account (List.getElem_mem hplace') hmade
  exact haccount.isCounted

end

end

/-- How an edit that is asked for is accounted for: together with all others of its file. -/
structure IsSettled (options : Options) (batches : List Batch) (results : List Batch.Result)
    (disk : Disk) (patch : Patch) (edit : PlannedEdit) (plan : FilePlan) (turn : Disk) : Prop where
  reached : IsTurn options (plans batches results) disk plan turn
  /-- These are all that are asked for in the file. -/
  edits : plan.edits.Perm ((asked batches results).filter (·.isAt edit.node.location))
  account : ∃ first rest, plan.edits = first :: rest ∧
    IsAccount options turn.limit first.node.file plan.edits (turn.textAt plan.location)
      (patch.only (Path.same · edit.node.file))
  number : (patch.only (Path.same · edit.node.file)).failures = [] →
    (patch.only (Path.same · edit.node.file)).applied.length +
        (patch.only (Path.same · edit.node.file)).skipped.length =
      ((asked batches results).filter (·.isAt edit.node.location)).length

theorem IsAccount.length_eq {options : Options} {limit : Option Nat} {file : String}
    {edits : List PlannedEdit} {text : Except Disk.Error String} {patch : Patch}
    (h : IsAccount options limit file edits text patch) (hfailures : patch.failures = []) :
    patch.applied.length + patch.skipped.length = edits.length := by
  cases h with
  | unread => cases hfailures
  | unwritten => cases hfailures
  | @idle text fates hfates happlied =>
    have hlength := length_fates fates
    rw [happlied] at hlength
    exact hlength.trans hfates.length_eq.symm
  | @changed text draft fates _ hfates => exact (length_fates fates).trans hfates.length_eq.symm

theorem asked_note : asked [noteBatch] [noteResult] = [noteEdit] := by
  cbv

/-- An edit for a node with a piece that ends above the line that it starts on. -/
def crossedEdit : PlannedEdit :=
  ⟨"batch-001", ⟨.fragmented, "Sign in", "a.md", "a.md", ⟨2, 0⟩, ⟨2, 2⟩, [], [], 1,
      some [⟨"in", ⟨2, 0⟩, ⟨1, 2⟩, 1⟩], none⟩,
    ⟨0, none, none, "Sign in", "Log in", "", 1, true, .contentReplace, []⟩⟩

def crossedDisk : Disk := { entries := [(["a.md"], .file "Sign\nin".toUTF8)] }

/-- Whether a record is that of an applied edit. -/
def IsRecord (edit : PlannedEdit) (record : Applied) : Prop :=
  ∃ file, IsFate file edit (.inl record)

/-- What a patch carries out of some plans: some of their edits, in their order, with one record
each. -/
structure Carries (plans : List FilePlan) (done : List PlannedEdit) (patch : Patch) : Prop where
  sublist : done.Sublist (plans.flatMap (·.edits))
  records : List.Forall₂ IsRecord done patch.applied
  counted : patch.replacements = done.length

theorem exists_done_of_fates {file : String} {edits : List PlannedEdit}
    {fates : List (Applied ⊕ Skipped)} (h : List.Forall₂ (IsFate file) edits fates) :
    ∃ done, done.Sublist edits ∧ List.Forall₂ IsRecord done (appliedOf fates) := by
  induction h with
  | nil => exact ⟨[], .refl _, .nil⟩
  | @cons edit fate edits fates hfate _ ih =>
    obtain ⟨done, hsub, hrecords⟩ := ih
    cases hfate with
    | applied way => exact ⟨edit :: done, hsub.cons_cons edit, .cons ⟨file, .applied way⟩ hrecords⟩
    | skipped reason => exact ⟨done, hsub.cons edit, hrecords⟩

theorem IsAccount.exists_done {options : Options} {limit : Option Nat} {file : String}
    {edits : List PlannedEdit} {text : Except Disk.Error String} {patch : Patch}
    (h : IsAccount options limit file edits text patch) :
    ∃ done, done.Sublist edits ∧ List.Forall₂ IsRecord done patch.applied := by
  cases h with
  | unread => exact ⟨[], List.nil_sublist _, .nil⟩
  | unwritten => exact ⟨[], List.nil_sublist _, .nil⟩
  | idle => exact ⟨[], List.nil_sublist _, .nil⟩
  | changed _ hfates => exact exists_done_of_fates hfates

theorem exists_carries_of_apply {options : Options} {batches : List Batch}
    {results : List Batch.Result} {patch : Patch} {disk disk' : Disk}
    (h : (Patch.apply options batches results).run.run disk = (.ok patch, disk')) :
    ∃ done, Carries (plans batches results) done patch := by
  obtain ⟨yields, hturns, rfl⟩ := exists_yields_of_apply h
  have hplanned := arePlanned batches results
  have hyields := hturns.forall₂
  have hcounted := hplanned.isCounted_sum hyields
  -- By induction on the plans: each of them carries out some of its own edits.
  suffices ∀ plans' ⊆ plans batches results, ∀ yields', List.Forall₂ (fun plan yield =>
      ∃ limit text, FilePlan.yield options limit plan text = .ok yield) plans' yields' →
      ∃ done, done.Sublist (plans'.flatMap (·.edits)) ∧
        List.Forall₂ IsRecord done (sum (yields'.map Prod.fst)).applied by
    obtain ⟨done, hsub, hrecords⟩ := this _ (List.Subset.refl _) _ hyields
    exact ⟨done, hsub, hrecords, hcounted.trans hrecords.length_eq.symm⟩
  intro plans' hplans yields' hall
  induction hall with
  | nil => exact ⟨[], .refl _, .nil⟩
  | @cons plan yield rest yields' hfirst _ ih =>
    obtain ⟨hplan, hrest⟩ := List.cons_subset.mp hplans
    obtain ⟨limit, text, hyield⟩ := hfirst
    obtain ⟨_, _, _, haccount⟩ := hplanned.account hplan hyield
    obtain ⟨done, hsub, hrecords⟩ := haccount.exists_done
    obtain ⟨later, hsub', hrecords'⟩ := ih hrest
    exact ⟨done ++ later, hsub.append hsub', List.rel_append hrecords hrecords'⟩

end Rephrase.Patch
