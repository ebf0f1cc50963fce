import Rephrase.Proofs.Decimal.Digits
import Rephrase.Proofs.Patch.Plan
import Rephrase.Run.Record

/-! Batches hold the nodes of a run one after another. Every batch has a name of its own, and is found
under it, so that the name of a batch and the number of a node in it lead back to this node. -/

namespace Rephrase.Batch

open Patch (PlannedEdit batchOf? isAskedFor_of_mem_plannedEdits mem_editsOf plannedEdits)

/-! ## Names -/

theorem idOf_injective : Function.Injective idOf := by
  intro place place' h
  have hdigits := String.ofList_injective (String.append_right_inj "batch-" |>.mp h)
  exact Nat.succ.inj (Decimal.padded_injective 3 hdigits)

theorem ids_ofNodes (nodes : List Node) (search replacement instruction : String) (size : Nat) :
    (ofNodes nodes search replacement instruction size).map (·.id) =
      (List.range (chunks (size - 1) nodes).length).map idOf := by
  refine List.ext_getElem (by simp [ofNodes]) fun place hplace hplace' => ?_
  simp [ofNodes]

theorem nodup_ids (nodes : List Node) (search replacement instruction : String) (size : Nat) :
    ((ofNodes nodes search replacement instruction size).map (·.id)).Nodup := by
  rw [ids_ofNodes]
  exact List.nodup_range.map idOf_injective

/-! ## Parts -/

section

variable {α : Type} {n : Nat} {xs part : List α}

theorem flatten_chunks (n : Nat) (xs : List α) : (chunks n xs).flatten = xs := by
  fun_induction chunks n xs with
  | case1 => rfl
  | case2 x rest ih => rw [List.flatten_cons, ih, List.cons_append, List.take_append_drop]

theorem ne_nil_of_mem_chunks (h : part ∈ chunks n xs) : part ≠ [] := by
  fun_induction chunks n xs with
  | case1 => cases h
  | case2 x rest ih =>
    obtain rfl | h := List.mem_cons.mp h
    · exact List.cons_ne_nil _ _
    · exact ih h

theorem length_le_of_mem_chunks (h : part ∈ chunks n xs) : part.length ≤ n + 1 := by
  fun_induction chunks n xs with
  | case1 => cases h
  | case2 x rest ih =>
    obtain rfl | h := List.mem_cons.mp h
    · exact Nat.succ_le_succ (List.length_take_le n rest)
    · exact ih h

/-- Only the last part may be short. -/
theorem length_of_mem_dropLast_chunks (h : part ∈ (chunks n xs).dropLast) :
    part.length = n + 1 := by
  fun_induction chunks n xs with
  | case1 => cases h
  | case2 x rest ih =>
    cases hdrop : rest.drop n with
    | nil =>
      rw [hdrop, chunks] at h
      cases h
    | cons y more =>
      have hlater : chunks n (rest.drop n) ≠ [] := by
        rw [hdrop, chunks]
        exact List.cons_ne_nil _ _
      have hn : n ≤ rest.length := by
        have hlength := congrArg List.length hdrop
        rw [List.length_drop, List.length_cons] at hlength
        omega
      rw [List.dropLast_cons_of_ne_nil hlater] at h
      obtain rfl | h := List.mem_cons.mp h
      · rw [List.length_cons, List.length_take_of_le hn]
      · exact ih h

/-- The members of a part are counted from where the part begins. -/
theorem getElem?_chunks (n : Nat) (xs : List α) (place : Nat) {number : Nat} (h : number ≤ n) :
    ((chunks n xs)[place]?).bind (·[number]?) = xs[place * (n + 1) + number]? := by
  fun_induction chunks n xs generalizing place with
  | case1 => simp
  | case2 x rest ih =>
    cases place with
    | zero =>
      rw [List.getElem?_cons_zero, Option.bind_some, Nat.zero_mul, Nat.zero_add]
      cases number with
      | zero => rfl
      | succ number =>
        rw [List.getElem?_cons_succ, List.getElem?_cons_succ, List.getElem?_take_of_lt h]
    | succ place =>
      have hskip : (place + 1) * (n + 1) + number = n + (place * (n + 1) + number) + 1 := by
        rw [Nat.succ_mul]
        omega
      rw [List.getElem?_cons_succ, ih, List.getElem?_drop, hskip, List.getElem?_cons_succ]

end

theorem map_nodes_ofNodes (nodes : List Node) (search replacement instruction : String)
    (size : Nat) : (ofNodes nodes search replacement instruction size).map (·.nodes) =
      chunks (size - 1) nodes := by
  refine List.ext_getElem (by simp [ofNodes]) fun place hplace hplace' => ?_
  simp [ofNodes]

/-- Every node is in one batch. -/
theorem flatMap_nodes_ofNodes (nodes : List Node) (search replacement instruction : String)
    (size : Nat) :
    (ofNodes nodes search replacement instruction size).flatMap (·.nodes) = nodes := by
  rw [List.flatMap_def, map_nodes_ofNodes, flatten_chunks]

/-! ## Lookups -/

/-- Where names are different, a batch is found under its own. -/
theorem find?_of_mem {batches : List Batch} (hids : (batches.map (·.id)).Nodup) {batch : Batch}
    (h : batch ∈ batches) : (batches.find? fun other => other.id = batch.id) = some batch := by
  induction batches with
  | nil => nomatch h
  | cons first rest ih =>
    obtain ⟨hfirst, hrest⟩ := List.nodup_cons.mp hids
    obtain rfl | h := List.mem_cons.mp h
    · exact List.find?_cons_of_pos (decide_eq_true rfl)
    · have hne : first.id ≠ batch.id := fun heq => hfirst (List.mem_map.mpr ⟨batch, h, heq.symm⟩)
      rw [List.find?_cons_of_neg (by simpa using hne), ih hrest h]

theorem batchOf?_of_mem {batches : List Batch} (hids : (batches.map (·.id)).Nodup) {batch : Batch}
    (h : batch ∈ batches) : batchOf? batches batch.id = some batch := by
  refine find?_of_mem ?_ (List.mem_reverse.mpr h)
  rw [List.map_reverse]
  exact List.nodup_reverse.mpr hids

/-- Where names are different, the first batch of a name is the last one. -/
theorem batchOf?_eq_find? {batches : List Batch} (hids : (batches.map (·.id)).Nodup)
    (id : String) : batchOf? batches id = batches.find? fun batch => batch.id = id := by
  cases hfind : batches.find? fun batch => batch.id = id with
  | none =>
    refine List.find?_eq_none.mpr fun batch hbatch => ?_
    exact List.find?_eq_none.mp hfind batch (List.mem_reverse.mp hbatch)
  | some batch =>
    obtain rfl : batch.id = id := by simpa using List.find?_some hfind
    exact batchOf?_of_mem hids (List.mem_of_find?_eq_some hfind)

/-- Where names are different, a snapshot is taken of the files that edits are planned for. -/
theorem targets_eq {batches : List Batch} (hids : (batches.map (·.id)).Nodup)
    (results : List Batch.Result) : Run.targets batches results =
      ((plannedEdits batches results).map (·.node.file)).eraseDups := by
  unfold Run.targets plannedEdits
  dsimp only
  rw [List.map_flatMap]
  congr 2
  funext result
  rw [batchOf?_eq_find? hids]
  cases batches.find? fun batch => batch.id = result.batchId <;> rfl

/-- Where names are different, the batches of a name are the one that is found under it. -/
theorem filter_id {batches : List Batch} (hids : (batches.map (·.id)).Nodup) (id : String) :
    batches.filter (·.id = id) = (batchOf? batches id).toList := by
  cases hbatch : batchOf? batches id with
  | none =>
    refine List.filter_eq_nil_iff.mpr fun batch hmem => ?_
    exact List.find?_eq_none.mp hbatch batch (List.mem_reverse.mpr hmem)
  | some batch =>
    have hid : decide (batch.id = id) = true := by
      simpa using List.find?_some hbatch
    have hmem : batch ∈ batches.filter (·.id = id) :=
      List.mem_filter.mpr ⟨List.mem_reverse.mp (List.mem_of_find?_eq_some hbatch), hid⟩
    have hnodup := hids.of_map.filter (·.id = id)
    refine List.perm_singleton.mp ((List.perm_ext_iff_of_nodup hnodup (by simp)).mpr fun other => ?_)
    refine ⟨fun hother => ?_, fun hother => List.mem_singleton.mp hother ▸ hmem⟩
    obtain ⟨hother, hid⟩ := List.mem_filter.mp hother
    have hfound := batchOf?_of_mem hids hother
    rw [of_decide_eq_true hid, hbatch] at hfound
    exact List.mem_singleton.mpr (Option.some.inj hfound).symm

/-! ## Addresses -/

section

variable (nodes : List Node) (search replacement instruction : String) (size : Nat)

theorem id_of_getElem? {place : Nat} {batch : Batch}
    (h : (ofNodes nodes search replacement instruction size)[place]? = some batch) :
    batch.id = idOf place := by
  rw [ofNodes, List.getElem?_mapIdx] at h
  obtain ⟨part, -, rfl⟩ := Option.map_eq_some_iff.mp h
  rfl

theorem nodes_mem_chunks {batch : Batch}
    (h : batch ∈ ofNodes nodes search replacement instruction size) :
    batch.nodes ∈ chunks (size - 1) nodes := by
  rw [← map_nodes_ofNodes nodes search replacement instruction size]
  exact List.mem_map_of_mem h

theorem length_nodes_le {batch : Batch}
    (h : batch ∈ ofNodes nodes search replacement instruction size) :
    batch.nodes.length ≤ max size 1 := by
  have hlength := length_le_of_mem_chunks (nodes_mem_chunks _ _ _ _ _ h)
  omega

/-- A batch is found under the name of its place, and under no other. -/
theorem find?_idOf (place : Nat) :
    ((ofNodes nodes search replacement instruction size).find? fun batch => batch.id = idOf place) =
      (ofNodes nodes search replacement instruction size)[place]? := by
  cases hplace : (ofNodes nodes search replacement instruction size)[place]? with
  | some batch =>
    rw [← id_of_getElem? _ _ _ _ _ hplace]
    exact find?_of_mem (nodup_ids ..) (List.mem_of_getElem? hplace)
  | none =>
    refine List.find?_eq_none.mpr fun batch hbatch => ?_
    obtain ⟨other, hother⟩ := List.mem_iff_getElem?.mp hbatch
    rw [id_of_getElem? _ _ _ _ _ hother, decide_eq_true_eq]
    intro heq
    rw [idOf_injective heq, hplace] at hother
    cases hother

/-- The node of a number in the batch of a place. -/
theorem getElem?_ofNodes (place : Nat) {number : Nat} (h : number < max size 1) :
    ((ofNodes nodes search replacement instruction size)[place]?).bind (·.nodes[number]?) =
      nodes[place * max size 1 + number]? := by
  have hsize : size - 1 + 1 = max size 1 := by omega
  rw [← hsize] at h ⊢
  rw [← getElem?_chunks _ _ _ (Nat.le_of_lt_succ h),
    ← map_nodes_ofNodes nodes search replacement instruction size, List.getElem?_map]
  cases (ofNodes nodes search replacement instruction size)[place]? <;> rfl

/-- What a successful result asks for is planned, each time for the node of the number that the
proposal gives, counted from where the result's batch begins. -/
theorem mem_plannedEdits_ofNodes (results : List Batch.Result) (edit : PlannedEdit) :
    edit ∈ plannedEdits (ofNodes nodes search replacement instruction size) results ↔
      ∃ result ∈ results, result.success = true ∧ edit.proposal ∈ result.proposals ∧
        edit.proposal.accepted = true ∧ edit.proposal.nodeIndex < max size 1 ∧
          ∃ place, result.batchId = idOf place ∧ edit.batchId = idOf place ∧
            nodes[place * max size 1 + edit.proposal.nodeIndex]? = some edit.node := by
  have hids := nodup_ids nodes search replacement instruction size
  have hget := getElem?_ofNodes nodes search replacement instruction size
  have hfind := find?_idOf nodes search replacement instruction size
  constructor
  · intro hedit
    obtain ⟨result, hresult, hsuccess, batch, hbatch, hid, hedit⟩ :=
      isAskedFor_of_mem_plannedEdits hedit
    obtain ⟨hproposal, haccepted, hnode, hname⟩ := mem_editsOf.mp hedit
    -- The id of a batch is made of its place, so the result is about the batch at one place.
    obtain ⟨place, hplace⟩ := List.mem_iff_getElem?.mp hbatch
    have hidOf := id_of_getElem? _ _ _ _ _ hplace
    have hlt : edit.proposal.nodeIndex < max size 1 :=
      Nat.lt_of_lt_of_le (List.getElem?_eq_some_iff.mp hnode).1 (length_nodes_le _ _ _ _ _ hbatch)
    refine ⟨result, hresult, hsuccess, hproposal, haccepted, hlt, place, ?_, ?_, ?_⟩
    · rw [← hid, hidOf]
    · rw [hname, hidOf]
    · rw [← hget place hlt, hplace]
      exact hnode
  · rintro ⟨result, hresult, hsuccess, hproposal, haccepted, hlt, place, hid, hname, hnode⟩
    rw [← hget place hlt] at hnode
    obtain ⟨batch, hplace, hnode⟩ := Option.bind_eq_some_iff.mp hnode
    have hbatch : batchOf? (ofNodes nodes search replacement instruction size) result.batchId =
        some batch := by
      rw [batchOf?_eq_find? hids, hid, hfind, hplace]
    refine List.mem_flatMap.mpr ⟨result, List.mem_filter.mpr ⟨hresult, hsuccess⟩, ?_⟩
    rw [hbatch]
    refine mem_editsOf.mpr ⟨hproposal, haccepted, hnode, ?_⟩
    rw [hname, id_of_getElem? _ _ _ _ _ hplace]

end

/-- Batches that hold some nodes one after another: the name of a batch and the number of a node in it
lead back to the node, wherever they are looked up. -/
structure Addresses (size : Nat) (nodes : List Node) (batches : List Batch) : Prop where
  ne_nil : ∀ batch ∈ batches, batch.nodes ≠ []
  all : batches.flatMap (·.nodes) = nodes
  full : ∀ batch ∈ batches.dropLast, batch.nodes.length = max size 1
  length_le : ∀ batch ∈ batches, batch.nodes.length ≤ max size 1
  names : batches.map (·.id) = (List.range batches.length).map idOf
  distinct : (batches.map (·.id)).Nodup
  /-- Files are kept by the first batch of a name, -/
  first : ∀ place number, number < max size 1 →
    (batches.find? fun batch => batch.id = idOf place).bind (·.nodes[number]?) =
      nodes[place * max size 1 + number]?
  /-- and edits are planned by the last one. -/
  last : ∀ place number, number < max size 1 →
    (batchOf? batches (idOf place)).bind (·.nodes[number]?) =
      nodes[place * max size 1 + number]?
  planned : ∀ results edit, edit ∈ plannedEdits batches results ↔
    ∃ result ∈ results, result.success = true ∧ edit.proposal ∈ result.proposals ∧
      edit.proposal.accepted = true ∧ edit.proposal.nodeIndex < max size 1 ∧
        ∃ place, result.batchId = idOf place ∧ edit.batchId = idOf place ∧
          nodes[place * max size 1 + edit.proposal.nodeIndex]? = some edit.node
  kept : ∀ results, Run.targets batches results =
    ((plannedEdits batches results).map (·.node.file)).eraseDups

/-- Any number of nodes is split so, in batches of any size; a size of zero counts as one. -/
theorem addresses_of_ofNodes (nodes : List Node) (search replacement instruction : String)
    (size : Nat) : Addresses size nodes (ofNodes nodes search replacement instruction size) := by
  have hnodup := nodup_ids nodes search replacement instruction size
  have hget := getElem?_ofNodes nodes search replacement instruction size
  have hfind := find?_idOf nodes search replacement instruction size
  refine {
    ne_nil := fun batch hbatch => ?_
    all := flatMap_nodes_ofNodes ..
    full := fun batch hbatch => ?_
    length_le := fun batch hbatch => length_nodes_le _ _ _ _ _ hbatch
    names := ?_
    distinct := hnodup
    first := fun place number hlt => ?_
    last := fun place number hlt => ?_
    planned := fun results edit => mem_plannedEdits_ofNodes ..
    kept := targets_eq hnodup }
  · exact ne_nil_of_mem_chunks (nodes_mem_chunks _ _ _ _ _ hbatch)
  · have hpart : batch.nodes ∈ (chunks (size - 1) nodes).dropLast := by
      rw [← map_nodes_ofNodes nodes search replacement instruction size, ← List.map_dropLast]
      exact List.mem_map_of_mem hbatch
    have hlength := length_of_mem_dropLast_chunks hpart
    omega
  · rw [ids_ofNodes, ← map_nodes_ofNodes nodes search replacement instruction size,
      List.length_map]
  · rw [hfind, hget place hlt]
  · rw [batchOf?_eq_find? hnodup, hfind, hget place hlt]

example : [0, 98, 998, 999].map idOf = ["batch-001", "batch-099", "batch-999", "batch-1000"] := by
  cbv

end Rephrase.Batch
