import Rephrase.Proofs.Batch
import Rephrase.Proofs.Patch.Account
import Rephrase.Proofs.Run.Commit

/-! A file of the project fares alike in two runs whose oracles answer alike what is asked about the
file, whatever they answer otherwise. -/

namespace Rephrase

open Oracle (Exchange)

/-! ## Responses -/

namespace Oracle

/-- Whether two responses come to the same within a timeout. -/
def Response.Like (timeout : Nat) (a b : Response) : Prop :=
  (timeout < a.seconds ∧ timeout < b.seconds) ∨
    (a.seconds ≤ timeout ∧ b.seconds ≤ timeout ∧ a.outcome = b.outcome)

theorem Response.Like.resultOf_eq {timeout : Nat} {a b : Response} (h : a.Like timeout b)
    (batch : Batch) (request : Request) :
    resultOf timeout batch request a = resultOf timeout batch request b := by
  unfold resultOf
  obtain ⟨ha, hb⟩ | ⟨ha, hb, houtcome⟩ := h
  · rw [if_pos ha, if_pos hb]
  · rw [if_neg (Nat.not_lt.mpr ha), if_neg (Nat.not_lt.mpr hb), houtcome]

theorem batchId_resultOf (timeout : Nat) (batch : Batch) (request : Request)
    (response : Response) : (resultOf timeout batch request response).batchId = batch.id := by
  unfold resultOf
  split
  · rfl
  split
  · rfl
  · split <;> rfl

/-- A failed result proposes nothing. -/
theorem proposals_resultOf {timeout : Nat} {batch : Batch} {request : Request}
    {response : Response} (h : (resultOf timeout batch request response).success = false) :
    (resultOf timeout batch request response).proposals = [] := by
  unfold resultOf at h ⊢
  by_cases hlate : timeout < response.seconds
  · rw [if_pos hlate]
    rfl
  rw [if_neg hlate] at h ⊢
  split at h
  · rfl
  · split at h
    · cases h
    · rfl

/-- Every batch has one result, in its turn and under its name, and one that failed proposes
nothing. -/
theorem results_consultAll {μ : Type} (oracle : Oracle μ) (timeout : Nat) (batches : List Batch)
    (state : μ × Disk) :
    ((consultAll oracle timeout batches).run state).1.map (·.batchId) = batches.map (·.id) ∧
      ∀ result ∈ ((consultAll oracle timeout batches).run state).1, result.success = false →
        result.proposals = [] := by
  obtain ⟨memory, disk⟩ := state
  rcases hconsult : (consultAll oracle timeout batches).run (memory, disk) with
    ⟨results, memory', disk'⟩
  obtain ⟨noted, hnoted⟩ := exists_run_noting hconsult
  obtain ⟨rfl, hshow, -⟩ := of_run_consultAll hnoted
  clear hconsult hnoted
  dsimp only
  induction hshow with
  | nil => exact ⟨rfl, nofun⟩
  | @cons batch exchange batches noted _ _ ih =>
    rw [List.zipWith_cons_cons]
    refine ⟨?_, List.forall_mem_cons.mpr ⟨proposals_resultOf, ih.2⟩⟩
    rw [List.map_cons, List.map_cons, ih.1, Exchange.result, batchId_resultOf]

/-- A node of a batch is shown in the request for it. -/
theorem ShowFrom.exists_descriptor {number : Nat} {ds : List Descriptor} {nodes : List Node}
    (h : ShowFrom number ds nodes) {node : Node} (hnode : node ∈ nodes) :
    ∃ d ∈ ds, d.file = node.file := by
  induction h with
  | nil => nomatch hnode
  | cons hfirst _ ih =>
    obtain rfl | hnode := List.mem_cons.mp hnode
    · exact ⟨_, List.mem_cons_self, hfirst.file⟩
    · obtain ⟨d, hd, hfile⟩ := ih hnode
      exact ⟨d, List.mem_cons_of_mem _ hd, hfile⟩

/-- Whether some calls have like responses wherever they ask about a file. -/
def AgreeOn (timeout : Nat) (file : String) (asked asked' : List Exchange) : Prop :=
  ∀ (place : Nat) (exchange exchange' : Exchange),
    asked[place]? = some exchange → asked'[place]? = some exchange' →
    (∃ d ∈ exchange.request.nodes, d.file = file) →
      exchange.response.Like timeout exchange'.response

end Oracle

/-! ## Edits -/

namespace Patch

open Oracle (AgreeOn)

theorem plannedEdits_cons (batches : List Batch) (result : Batch.Result)
    (results : List Batch.Result) : plannedEdits batches (result :: results) =
      plannedEdits batches [result] ++ plannedEdits batches results := by
  unfold plannedEdits
  rw [← List.flatMap_append, ← List.filter_append, List.singleton_append]

theorem node_mem_of_mem_plannedEdits {all : List Batch} (hids : (all.map (·.id)).Nodup)
    {batch : Batch} (hbatch : batch ∈ all) {result : Batch.Result}
    (hid : result.batchId = batch.id) {edit : PlannedEdit}
    (hedit : edit ∈ plannedEdits all [result]) : edit.node ∈ batch.nodes := by
  obtain ⟨other, hother, -, found, hfound, hsame, hmem⟩ := isAskedFor_of_mem_plannedEdits hedit
  obtain rfl := List.mem_singleton.mp hother
  obtain rfl : found = batch :=
    List.inj_on_of_nodup_map hids hfound hbatch (hsame.trans hid)
  exact List.mem_of_getElem? (mem_editsOf.mp hmem).2.2.1

/-- What is asked for in a file depends on the calls about the file. -/
theorem filter_plannedEdits_eq {timeout : Nat} {file : String} {all batches : List Batch}
    {noted noted' : List Exchange} (hids : (all.map (·.id)).Nodup) (hbatches : batches ⊆ all)
    (hshow : List.Forall₂ (fun batch exchange => exchange.request.Shows batch) batches noted)
    (hrequests : noted.map (·.request) = noted'.map (·.request))
    (hagree : AgreeOn timeout file noted noted') :
    (plannedEdits all (List.zipWith (Exchange.result timeout) batches noted)).filter
        (·.node.file = file) =
      (plannedEdits all (List.zipWith (Exchange.result timeout) batches noted')).filter
        (·.node.file = file) := by
  induction hshow generalizing noted' with
  | nil =>
    obtain rfl := List.map_eq_nil_iff.mp hrequests.symm
    rfl
  | @cons batch exchange batches noted hfirst _ ih =>
    obtain ⟨exchange', rest', rfl, hrequest, hrest⟩ := List.map_eq_cons_iff.mp hrequests.symm
    obtain ⟨hbatch, hbatches⟩ := List.cons_subset.mp hbatches
    rw [List.zipWith_cons_cons, List.zipWith_cons_cons, plannedEdits_cons,
      plannedEdits_cons all (exchange'.result timeout batch), List.filter_append,
      List.filter_append]
    have hlater : AgreeOn timeout file noted rest' :=
      fun place _ _ hplace hplace' => hagree (place + 1) _ _ hplace hplace'
    refine congrArg₂ (· ++ ·) ?_ (ih hbatches hrest.symm hlater)
    -- A batch without a node of the file asks for nothing in it, whatever the answer is.
    by_cases hfile : ∃ node ∈ batch.nodes, node.file = file
    · obtain ⟨node, hnode, rfl⟩ := hfile
      have hlike := hagree 0 exchange exchange' rfl rfl (hfirst.nodes.exists_descriptor hnode)
      unfold Exchange.result
      rw [hrequest, hlike.resultOf_eq]
    · have hnone : ∀ result : Batch.Result, result.batchId = batch.id →
          (plannedEdits all [result]).filter (·.node.file = file) = [] := by
        refine fun result hid => List.filter_eq_nil_iff.mpr fun edit hedit hsame => hfile ?_
        exact ⟨_, node_mem_of_mem_plannedEdits hids hbatch hid hedit, of_decide_eq_true hsame⟩
      exact (hnone _ (Oracle.batchId_resultOf ..)).trans (hnone _ (Oracle.batchId_resultOf ..)).symm

end Patch

/-! ## Runs -/

namespace Run

open Disk (KeepsTo Location)
open Discovery (pathBelow)
open Oracle (AgreeOn)
open Patch (FilePlan)
open Session (IsProject IsReady IsRecording)

section

variable {task : Task} {parser : Parser} {times : Times} {stats : Stats} {nodes : List Node}
  {results : List Batch.Result} {patch : Patch} {before after : Disk} {base : Location}
  {names : List String}

/-- The edits for a file go by its name in reports as they go by its path. -/
theorem filter_isAt_eq (htree : before.IsTree) (hleads : before.LeadsTo task.root base)
    (hfind : task.find parser before = .ok ⟨stats, .ok nodes⟩) (hne : names ≠ [])
    (hnames : ∀ n ∈ names, Path.IsName n) (results : List Batch.Result) :
    ∀ edit ∈ Patch.plannedEdits (task.batches nodes) results,
      decide (edit.node.file = "/".intercalate names) =
        edit.isAt (pathBelow task.root names) := by
  intro edit hedit
  have hroot := (Disk.walk_of_resolve hleads).1
  obtain ⟨names', hlooks, hin, -⟩ := exists_looksAt_of_planned htree hleads hfind hedit
  rw [Bool.eq_iff_iff, decide_eq_true_iff, hin.1]
  unfold Patch.PlannedEdit.isAt
  rw [hin.2]
  constructor
  · intro hsame
    obtain rfl := Path.intercalate_injective hlooks.found.ne_nil hne hlooks.found.named hnames hsame
    exact Path.compare_eq_iff_same.mp (Path.compare_self _)
  · intro hsame
    have hsame := Path.compare_eq_iff_same.mpr hsame
    rw [Path.eq_of_compare_pathBelow hroot hlooks.found.named hnames hsame]

/-- An edit of a file of the project has a plan that writes to the file. -/
theorem exists_isTarget_of_isAt (htree : before.IsTree) (hleads : before.LeadsTo task.root base)
    (hfind : task.find parser before = .ok ⟨stats, .ok nodes⟩) (hproject : IsProject names)
    (hnames : ∀ n ∈ names, Path.IsName n) {edit : Patch.PlannedEdit}
    (hedit : edit ∈ Patch.plannedEdits (task.batches nodes) results)
    (hat : edit.isAt (pathBelow task.root names) = true) :
    ∃ plan ∈ Patch.plans (task.batches nodes) results, task.IsTarget before base plan names ∧
      plan.location ≠ Path.join task.root ".gitignore" := by
  have hroot := (Disk.walk_of_resolve hleads).1
  obtain ⟨plan, hplan, hplanAt⟩ :=
    (Patch.arePlanned (task.batches nodes) results).complete edit hedit
  obtain ⟨names', htarget⟩ := exists_isTarget htree hleads hfind hplan
  have hsame : Path.compare plan.location (pathBelow task.root names) = .eq :=
    Std.TransCmp.eq_trans (Std.OrientedCmp.eq_symm (Path.compare_eq_iff_same.mpr hplanAt))
      (Path.compare_eq_iff_same.mpr hat)
  rw [htarget.location] at hsame
  obtain rfl := (Path.eq_of_compare_pathBelow hroot htarget.looked.found.named hnames hsame).symm
  refine ⟨plan, hplan, htarget, fun heq => ?_⟩
  have hlisted : ∀ n ∈ [".gitignore"], Path.IsName n := by decide
  have hlist := Path.compare_self plan.location
  nth_rewrite 2 [heq] at hlist
  rw [htarget.location] at hlist
  exact hproject.unlisted (Path.eq_of_compare_pathBelow hroot hnames hlisted hlist)

/-- What a run makes of a file of its project is what the file's edits yield. -/
theorem exists_yield_of_commit {content : ByteArray} (htree : before.IsTree)
    (hready : IsReady task.root task.session base before)
    (hfind : task.find parser before = .ok ⟨stats, .ok nodes⟩)
    (h : (task.commit times (task.batches nodes) results).run.run before = (.ok patch, after))
    (hproject : IsProject names) (hne : names ≠ []) (hnames : ∀ n ∈ names, Path.IsName n)
    (hfile : before.get? (base ++ names) = some (.file content)) : ∃ yield,
      (FilePlan.mk (pathBelow task.root names)
        (((Patch.plannedEdits (task.batches nodes) results).filter
          (·.node.file = "/".intercalate names)).mergeSort Patch.notBefore)).yield
          (.ofConfig task.config) before.limit
          (before.textAt (pathBelow task.root names)) = .ok yield ∧
      patch.only (· = "/".intercalate names) = yield.1 ∧
      after.get? (base ++ names) = some (.file (yield.2.getD content)) := by
  have hplanned := Patch.arePlanned (task.batches nodes) results
  have hat := filter_isAt_eq htree hready.leads hfind hne hnames results
  rw [List.filter_congr hat]
  obtain ⟨yields, hpatch, hall, hyields⟩ := exists_yields_of_commit htree hready hfind h
  -- With an edit, the file is the target of the one plan that holds all of its edits; without one,
  -- no plan is about it.
  by_cases hedit : ∃ edit ∈ Patch.plannedEdits (task.batches nodes) results,
      edit.isAt (pathBelow task.root names) = true
  · obtain ⟨edit, hedit, hat'⟩ := hedit
    obtain ⟨plan, hplan, htarget, hlist⟩ :=
      exists_isTarget_of_isAt htree hready.leads hfind hproject hnames hedit hat'
    obtain ⟨yield, hmem⟩ : ∃ yield,
        (plan, yield) ∈ (Patch.plans (task.batches nodes) results).zip yields := by
      rw [← List.map_fst_zip hall.length_eq.le] at hplan
      obtain ⟨⟨_, yield⟩, hmem, rfl⟩ := List.mem_map.mp hplan
      exact ⟨yield, hmem⟩
    obtain ⟨hyield, hbytes⟩ := List.forall₂_zip hyields hmem hlist
    have hexact := hplanned.exact plan hplan
    refine ⟨yield, ?_, ?_, ?_⟩
    · rw [← htarget.location, ← hexact]
      exact hyield
    · rw [hpatch]
      exact hplanned.only_sum hall hmem (htarget.location ▸ hat)
    · obtain ⟨content', hbefore, hresolve⟩ := htarget.exists_resolve
      obtain rfl : content' = content := by simpa using hbefore.symm.trans hfile
      have hafter : after.bytesAt plan.location = .ok (yield.2.getD content') := by
        rw [hbytes, Disk.bytesAt_of_resolve hresolve]
        cases yield.2 <;> rfl
      obtain ⟨location, hresolve'⟩ := Disk.resolve_of_bytesAt hafter
      obtain rfl : location = base ++ names :=
        htarget.location_of_resolve (keepsTo_of_commit hready h) hresolve'
      exact (Disk.get?_of_resolve hresolve').symm
  · have hedits : ∀ edit ∈ Patch.plannedEdits (task.batches nodes) results,
        edit.isAt (pathBelow task.root names) = false :=
      fun edit hmem => Bool.eq_false_iff.mpr fun hat' => hedit ⟨edit, hmem, hat'⟩
    have hnone : ∀ plan ∈ Patch.plans (task.batches nodes) results,
        ¬task.IsTarget before base plan names := by
      intro plan hplan htarget
      obtain ⟨first, rest, -, hfirst, hat'⟩ := hplanned.exists_cons hplan
      rw [htarget.location, hedits first hfirst] at hat'
      cases hat'
    refine ⟨({}, none), ?_, ?_, get?_of_commit htree hready hfind h hproject hfile hnone⟩
    · rw [List.filter_eq_nil_iff.mpr fun edit hmem => by rw [hedits edit hmem]; decide,
        List.mergeSort_nil]
      rfl
    · refine Patch.only_eq_empty fun file hmem => ?_
      rw [hpatch] at hmem
      obtain ⟨edit, hedit, rfl⟩ := hplanned.files_sum hall file hmem
      exact (hat edit hedit).trans (hedits edit hedit)

end

/-- What a run tells of its files when these are the results of its batches. -/
def Task.patchOf (task : Task) (parser : Parser) (times : Times) (disk : Disk)
    (results : List Batch.Result) : Patch :=
  match task.find parser disk with
  | .ok ⟨_, .ok nodes⟩ =>
    match ((task.commit times (task.batches nodes) results).run.run disk).1 with
    | .ok patch => patch
    | .error _ => {}
  | _ => {}

theorem patchOf_of_commit {task : Task} {parser : Parser} {times : Times} {stats : Stats}
    {nodes : List Node} {results : List Batch.Result} {patch : Patch} {before after : Disk}
    (hfind : task.find parser before = .ok ⟨stats, .ok nodes⟩)
    (hcommit : (task.commit times (task.batches nodes) results).run.run before =
      (.ok patch, after)) : task.patchOf parser times before results = patch := by
  unfold Task.patchOf
  rw [hfind]
  dsimp only
  rw [hcommit]

/-- A task whose run is told of in another session. -/
def Task.inSession (task : Task) (session : String) : Task := { task with session }

/-- Calls about nodes of other files tell nothing of a file. -/
theorem agreeOn_of_run {μ : Type} {task : Task} {parser : Parser} {oracle : Oracle μ}
    {times : Times} {memory memory' : μ} {before after : Disk} {report : Report}
    {asked : List Exchange} {stats : Stats} {nodes : List Node} {file : String}
    (hrun : (task.run parser oracle.noting times).run.run (([], memory), before) =
      (.ok report, ((asked, memory'), after)))
    (hfind : task.find parser before = .ok ⟨stats, .ok nodes⟩)
    (hnodes : ∀ node ∈ nodes, node.file ≠ file) (timeout : Nat) (asked' : List Exchange) :
    AgreeOn timeout file asked asked' := by
  cases passes_of_run hrun with
  | ended hfound => nomatch hfind.symm.trans hfound
  | completed hfound hconsult =>
    obtain ⟨-, hnodes'⟩ := Found.mk.inj (Except.ok.inj (hfind.symm.trans hfound))
    obtain rfl := Except.ok.inj hnodes'
    obtain ⟨-, hshow, -⟩ := Oracle.of_run_consultAll hconsult
    rintro place exchange - hexchange - ⟨d, hd, rfl⟩
    obtain ⟨hplace, rfl⟩ := List.getElem?_eq_some_iff.mp hexchange
    have hplace' : place < (task.batches nodes).length := hshow.length_eq ▸ hplace
    have hshows : asked[place].request.Shows (task.batches nodes)[place] :=
      hshow.get hplace' hplace
    obtain ⟨number, hnumber, rfl⟩ := List.getElem_of_mem hd
    obtain ⟨node, hnode, hshown⟩ := hshows.nodes.exists_node (List.getElem?_eq_getElem hnumber)
    exact absurd hshown.file.symm
      (hnodes node (mem_of_mem_batches (List.getElem_mem hplace') (List.mem_of_getElem? hnode)))

/-- A project with a note, whose session keeps a history. -/
def sessionDisk (history : Disk.Entry) : Disk :=
  { entries := [([".retext", ".lock"], .file ByteArray.empty), (["a.md"], .file "Sign in".toUTF8),
      (["notes"], .file ByteArray.empty), ([".retext"], .directory),
      ([".retext", "store.tmp"], .directory), ([".retext", "sessions"], .directory),
      ([".retext", "sessions", "s-1.jsonl"], history)] }

theorem textAt_session (history : Disk.Entry) :
    (sessionDisk history).textAt "/a.md" = .ok "Sign in" := by
  cbv

theorem files_session (history : Disk.Entry) :
    Discovery.files (sessionDisk history) noteTask.config "/" = .ok ["/a.md"] := by
  have hany : ∀ a b c, Discovery.files (sessionDisk history)
      { generateDiffs := false, fragmentMinCoverage := a, keyPhraseThreshold := b,
        wordMajorityThreshold := c } "/" = .ok ["/a.md"] := by
    intro a b c
    cases history <;> cbv
  exact hany _ _ _

theorem resolve_history : (sessionDisk (.file ByteArray.empty)).resolve true
    "/.retext/sessions/s-1.jsonl" =
      .ok ⟨[".retext", "sessions", "s-1.jsonl"], some (.file ByteArray.empty)⟩ :=
  Disk.resolve_names (by decide) (by decide) ⟨rfl, rfl, trivial⟩ rfl nofun

theorem resolve_linked_history : (sessionDisk (.link "../../notes")).resolve true
    "/.retext/sessions/s-1.jsonl" = .ok ⟨["notes"], some (.file ByteArray.empty)⟩ := by
  have hsteps : Disk.steps "../../notes" = ["..", "..", "notes"] := by decide
  have hend : (sessionDisk (.link "../../notes")).walk true 39 [] ["notes"] =
      .ok ⟨["notes"], some (.file ByteArray.empty)⟩ :=
    Disk.walk_names true 39 (by decide) trivial nofun
  unfold Disk.resolve
  rw [if_neg (by decide), if_neg (by decide), if_neg (by decide),
    show Disk.startOf (sessionDisk (.link "../../notes")).working _ = [] from rfl,
    show Disk.steps "/.retext/sessions/s-1.jsonl" = ["", ".retext", "sessions", "s-1.jsonl"] by
      decide,
    Disk.walk_empty_cons, Disk.walk_directory _ _ _ (by decide) (by decide) rfl,
    Disk.walk_directory _ _ _ (by decide) (by decide) rfl, Disk.walk,
    if_neg (by decide), if_neg (by decide), if_neg (by decide)]
  dsimp only
  rw [show (sessionDisk (.link "../../notes")).get? _ = some (.link "../../notes") from rfl]
  show (if "../../notes" = "" then Except.error Disk.Error.notFound else
    (sessionDisk (.link "../../notes")).walk true 39 [".retext", "sessions"]
      (Disk.steps "../../notes" ++ [])) = _
  rw [if_neg (by decide), hsteps, List.append_nil, Disk.walk, if_neg (by decide), if_pos rfl,
    Disk.walk, if_neg (by decide), if_pos rfl]
  exact hend

section

variable {history : Disk.Entry} {place : Location} (hplace : place ≠ [".retext", ".lock"])
  (hhistory : (sessionDisk history).resolve true "/.retext/sessions/s-1.jsonl" =
    .ok ⟨place, some (.file ByteArray.empty)⟩)
include hplace hhistory

theorem isRecording_session : IsRecording noteTask.root noteTask.session [".retext", ".lock"] place
    ByteArray.empty (sessionDisk history) where
  limit := rfl
  apart := hplace
  directory := ⟨[".retext"], Disk.resolve_names (by decide) (by decide) trivial rfl nofun⟩
  unlisted := ⟨[".gitignore"], Disk.resolve_names (by decide) (by decide) trivial rfl nofun⟩
  lock := Disk.resolve_names (by decide) (by decide) ⟨rfl, trivial⟩ rfl nofun
  passing := ⟨[".retext", "store.tmp"],
    Disk.resolve_names (by decide) (by decide) ⟨rfl, trivial⟩ rfl nofun⟩
  directories := ⟨[".retext", "sessions"], fun _ =>
    Disk.resolve_names (by decide) (by decide) ⟨rfl, trivial⟩ rfl nofun⟩
  history := by
    rw [show History.path noteTask.root noteTask.session = "/.retext/sessions/s-1.jsonl" by decide]
    exact hhistory

/-- The history tells of the edit of the note. -/
theorem run_answering_session (hother : place ≠ ["a.md"]) : ∃ report after content,
    (noteTask.run noParser answering midnight).run.run ((), sessionDisk history) =
      (.ok report, ((), after)) ∧
    report.filesModified = ["a.md"] ∧ after.get? place = some (.file content) ∧
    0 < content.size := by
  have hexpires : midnight.before.after 86400 = .ok ⟨86400, 0⟩ := by cbv
  have hexpires' : midnight.after.after 86400 = .ok ⟨86400, 0⟩ := by cbv
  have hrecording := isRecording_session hplace hhistory
  have hfind := find_note (textAt_session history) (files_session history)
  have hbatches := batches_note Node.Kind.lineMatch.relevance
  -- The weights are floats, which no evaluation opens, so they become variables.
  generalize Node.Kind.lineMatch.relevance = weight at hfind hbatches
  have hconsult := consult_note (sessionDisk history) weight (mean [weight])
  generalize Oracle.unstatedConfidence = confidence at hconsult
  generalize mean [confidence] = trust at hconsult
  have happly : (Patch.apply (.ofConfig noteTask.config) [noteBatch weight (mean [weight])]
      [noteResult confidence trust]).run.run (sessionDisk history) =
        (.ok notePatch, (sessionDisk history).put ["a.md"] (.file "Log in".toUTF8)) := by
    generalize mean [weight] = trust'
    show (Patch.apply ⟨true, false⟩ _ _).run.run _ = _
    cbv
  have hsome : (targets [noteBatch weight (mean [weight])] [noteResult confidence trust]).isEmpty =
      false := by
    generalize mean [weight] = trust'
    cbv
  rw [← hbatches] at hconsult happly hsome
  have hkeep := run_keepSnapshot hrecording span_note hexpires hsome
  have hnote : (sessionDisk history).get? ["a.md"] = some (.file "Sign in".toUTF8) := rfl
  have hedited := hrecording.put hnote "Log in".toUTF8 fun heq => absurd heq (by decide)
  rw [if_neg hother] at hedited
  obtain ⟨after, hrecord, hrecorded⟩ := exists_keepRecords hedited span_note hexpires' notePatch
  have hgrows : ByteArray.empty.size <
      (Session.extended ByteArray.empty (noteTask.records midnight.after notePatch)).size :=
    Session.size_lt_extended _ (List.cons_ne_nil _ _)
  exact ⟨_, after, _, run_of_commit hfind hconsult (run_commit rfl hkeep happly hrecord), rfl,
    hrecorded.get?_place, hgrows⟩

/-- Nothing is told of where there was no answer. -/
theorem run_failing_session : ∃ report after,
    (noteTask.run noParser failing midnight).run.run ((), sessionDisk history) =
      (.ok report, ((), after)) ∧
    report.filesModified = [] ∧ after.get? place = some (.file ByteArray.empty) := by
  have hexpires : midnight.after.after 86400 = .ok ⟨86400, 0⟩ := by cbv
  have hrecording := isRecording_session hplace hhistory
  have hfind := find_note (textAt_session history) (files_session history)
  have hbatches := batches_note Node.Kind.lineMatch.relevance
  generalize Node.Kind.lineMatch.relevance = weight at hfind hbatches
  have hconsult : (failing.consultAll noteTask.config.timeoutSeconds
      (noteTask.batches [noteNode weight])).run ((), sessionDisk history) =
        ([.failed (noteBatch weight (mean [weight])) "no answer"], ((), sessionDisk history)) := by
    rw [hbatches]
    rfl
  have happly : (Patch.apply (.ofConfig noteTask.config) (noteTask.batches [noteNode weight])
      [.failed (noteBatch weight (mean [weight])) "no answer"]).run.run (sessionDisk history) =
        (.ok ({} : Patch), sessionDisk history) := by
    rw [hbatches]
    rfl
  obtain ⟨after, hrecord, hrecorded⟩ := exists_keepRecords hrecording span_note hexpires {}
  exact ⟨_, after, run_of_commit hfind hconsult
    (run_commit rfl (Disk.run_pure () _) happly hrecord), rfl, hrecorded.get?_place⟩

end

theorem unlinked_session :
    Session.IsUnlinked "/" "s-1" (sessionDisk (.file ByteArray.empty)) := by
  intro base _ names hused target hlink
  have hmem := Disk.mem_entries_of_get? hlink (by simp [hused.ne_nil])
  simp [sessionDisk] at hmem

theorem isProject_notes : IsProject ["notes"] :=
  ⟨by decide, fun _ _ heq => nomatch (List.cons.inj heq).2⟩

/-- Whether two runs of a task leave different contents of a file though the calls about it come to
the same. -/
def Task.Entangles (task : Task) (parser : Parser) (times : Times) (before : Disk)
    (location : Location) (file : String) : Prop :=
  ∃ (oracle oracle' : Oracle Unit) (report report' : Report) (asked asked' : List Exchange)
    (after after' : Disk), oracle.IsQuiet ∧ oracle'.IsQuiet ∧
      (task.run parser oracle.noting times).run.run (([], ()), before) =
        (.ok report, ((asked, ()), after)) ∧
      (task.run parser oracle'.noting times).run.run (([], ()), before) =
        (.ok report', ((asked', ()), after')) ∧
      AgreeOn task.config.timeoutSeconds file asked asked' ∧
      after.get? location ≠ after'.get? location

/-- What a history leads to depends on what becomes of other files. -/
theorem entangles_session {history : Disk.Entry} {place : Location} {file : String}
    (hplace : place ≠ [".retext", ".lock"])
    (hhistory : (sessionDisk history).resolve true "/.retext/sessions/s-1.jsonl" =
      .ok ⟨place, some (.file ByteArray.empty)⟩)
    (hother : place ≠ ["a.md"]) (hfile : "a.md" ≠ file) :
    noteTask.Entangles noParser midnight (sessionDisk history) place file := by
  obtain ⟨report, after, content, hrun, -, hafter, hsize⟩ :=
    run_answering_session hplace hhistory hother
  obtain ⟨report', after', hrun', -, hafter'⟩ := run_failing_session hplace hhistory
  obtain ⟨asked, hrun⟩ := exists_run_noting hrun
  obtain ⟨asked', hrun'⟩ := exists_run_noting hrun'
  refine ⟨answering, failing, report, report', asked, asked', after, after', fun _ _ _ => rfl,
    fun _ _ _ => rfl, hrun, hrun', agreeOn_of_run hrun
      (find_note (textAt_session _) (files_session _)) (List.forall_mem_singleton.mpr hfile) _ _, ?_⟩
  rw [hafter, hafter']
  intro hsame
  cases hsame
  exact absurd hsize (Nat.lt_irrefl 0)

end Run

end Rephrase
