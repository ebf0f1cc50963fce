import Mathlib
import Rephrase.Proofs.Oracle.Wrapping
import Rephrase.Proofs.Run.Effect

/-! A run accounts for what it changes: every file outside its session's part that it changes is one
that was found, is told of, and has a node that an accepted proposal is for. A run that ends early
changes nothing, and neither does a dry one. -/

namespace Rephrase.Run

open Disk (Action KeepsTo Location)
open Discovery (IsFound pathBelow)
open Patch (Told)
open Session (Own IsReady)

/-! ## Runs -/

section

variable {μ α : Type}

theorem run_lift {action : StateM (μ × Disk) α} {state state' : μ × Disk} {a : α}
    (h : action.run state = (a, state')) :
    (liftM action : Stage μ α).run.run state = (.ok a, state') := by
  change (Except.ok (action.run state).1, (action.run state).2) = _
  rw [h]

theorem run_onDisk {action : Action α} {disk disk' : Disk} {a : α}
    (h : action.run.run disk = (.ok a, disk')) (memory : μ) :
    (Stage.onDisk action).run.run (memory, disk) = (.ok a, (memory, disk')) := by
  change ((action.run.run disk).1, (memory, (action.run.run disk).2)) = _
  rw [h]

theorem run_onDisk_error {action : Action α} {disk disk' : Disk} {failure : Disk.Failure}
    (h : action.run.run disk = (.error failure, disk')) (memory : μ) :
    (Stage.onDisk action).run.run (memory, disk) = (.error failure, (memory, disk')) := by
  change ((action.run.run disk).1, (memory, (action.run.run disk).2)) = _
  rw [h]

theorem of_run_lift {action : StateM (μ × Disk) α} {state state' : μ × Disk} {a : α}
    (h : (liftM action : Stage μ α).run.run state = (.ok a, state')) :
    action.run state = (a, state') := by
  change (Except.ok (action.run state).1, (action.run state).2) = _ at h
  obtain ⟨hresult, hstate⟩ := Prod.mk.inj h
  exact Prod.ext (Except.ok.inj hresult) hstate

theorem of_run_onDisk {action : Action α} {memory memory' : μ} {disk disk' : Disk} {a : α}
    (h : (Stage.onDisk action).run.run (memory, disk) = (.ok a, (memory', disk'))) :
    action.run.run disk = (.ok a, disk') ∧ memory' = memory := by
  change ((action.run.run disk).1, (memory, (action.run.run disk).2)) = _ at h
  obtain ⟨hresult, hstate⟩ := Prod.mk.inj h
  obtain ⟨hmemory, hdisk⟩ := Prod.mk.inj hstate
  exact ⟨Prod.ext hresult hdisk, hmemory.symm⟩

end

/-- What a run comes to, and the disk that it leaves. -/
inductive Task.CameTo (task : Task) (parser : Parser) (times : Times) (before : Disk) :
    Report → Disk → Prop
  | ended {stats : Stats} {ending : Ending}
      (hfound : task.find parser before = .ok ⟨stats, .error ending⟩) :
      task.CameTo parser times before (task.ended stats ending) before
  | completed {stats : Stats} {nodes : List Node} {results : List Batch.Result} {patch : Patch}
      {after : Disk} (hfound : task.find parser before = .ok ⟨stats, .ok nodes⟩)
      (hcommit : (task.commit times (task.batches nodes) results).run.run before =
        (.ok patch, after)) :
      task.CameTo parser times before
        (task.completed stats (task.batches nodes) results patch) after

theorem of_run_compute {α : Type} {r : Disk → Except Fault α} {disk disk' : Disk} {a : α}
    (h : (do Action.compute (r (← get)) : Action α).run.run disk = (.ok a, disk')) :
    r disk = .ok a ∧ disk' = disk := by
  rw [Disk.run_bind_ok (Disk.run_get disk)] at h
  cases hr : r disk with
  | error fault =>
    rw [hr] at h
    cases h
  | ok b =>
    rw [Disk.run_compute hr] at h
    cases h
    exact ⟨rfl, rfl⟩

/-! ## Runs by what was found -/

section

variable {μ : Type} {task : Task} {parser : Parser} {before : Disk}

theorem run_of_fault {fault : Fault} (hfind : task.find parser before = .error fault)
    (oracle : Oracle μ) (times : Times) (memory : μ) :
    (task.run parser oracle times).run.run (memory, before) =
      (.error (.fault fault), (memory, before)) := by
  have hcompute : (do Action.compute (task.find parser (← get)) : Action Found).run.run before =
      (.error (.fault fault), before) := by
    rw [Disk.run_bind_ok (Disk.run_get before), hfind]
    rfl
  unfold Task.run
  exact Disk.run_bind_error (run_onDisk_error hcompute memory) _

theorem run_onDisk_find {found : Found} (hfind : task.find parser before = .ok found)
    (memory : μ) : (Stage.onDisk (do Action.compute (task.find parser (← get)))).run.run
      (memory, before) = (.ok found, (memory, before)) := by
  refine run_onDisk ?_ memory
  rw [Disk.run_bind_ok (Disk.run_get before), Disk.run_compute hfind]

theorem run_of_ending {stats : Stats} {ending : Ending}
    (hfind : task.find parser before = .ok ⟨stats, .error ending⟩) (oracle : Oracle μ)
    (times : Times) (memory : μ) : (task.run parser oracle times).run.run (memory, before) =
      (.ok (task.ended stats ending), (memory, before)) := by
  unfold Task.run
  rw [Disk.run_bind_ok (run_onDisk_find hfind memory)]
  rfl

/-- A run that has found nodes asks about them and does what it is told, whether this comes to a
result or fails. -/
theorem run_of_find {oracle : Oracle μ} {times : Times} {memory memory' : μ} {middle : Disk}
    {stats : Stats} {nodes : List Node} {results : List Batch.Result}
    (hfind : task.find parser before = .ok ⟨stats, .ok nodes⟩)
    (hconsult : (oracle.consultAll task.config.timeoutSeconds (task.batches nodes)).run
      (memory, before) = (results, (memory', middle))) :
    (task.run parser oracle times).run.run (memory, before) =
      (((task.commit times (task.batches nodes) results).run.run middle).1.map
          (task.completed stats (task.batches nodes) results),
        (memory', ((task.commit times (task.batches nodes) results).run.run middle).2)) := by
  unfold Task.run
  rw [Disk.run_bind_ok (run_onDisk_find hfind memory)]
  dsimp only
  rw [Disk.run_bind_ok (run_lift hconsult)]
  rcases hcommit : (task.commit times (task.batches nodes) results).run.run middle with
    ⟨result, after⟩
  cases result with
  | ok patch =>
    rw [Disk.run_bind_ok (run_onDisk hcommit memory')]
    rfl
  | error failure =>
    rw [Disk.run_bind_error (run_onDisk_error hcommit memory')]
    rfl

/-- A run is the same when its calls are noted. -/
theorem exists_run_noting {oracle : Oracle μ} {times : Times} {memory memory' : μ} {after : Disk}
    {outcome : Except Disk.Failure Report}
    (hrun : (task.run parser oracle times).run.run (memory, before) =
      (outcome, (memory', after))) : ∃ noted,
        (task.run parser oracle.noting times).run.run (([], memory), before) =
          (outcome, ((noted, memory'), after)) := by
  cases hfind : task.find parser before with
  | error fault =>
    rw [run_of_fault hfind] at hrun
    cases hrun
    exact ⟨[], run_of_fault hfind _ _ _⟩
  | ok found =>
    obtain ⟨stats, nodes⟩ := found
    cases nodes with
    | error ending =>
      rw [run_of_ending hfind] at hrun
      cases hrun
      exact ⟨[], run_of_ending hfind _ _ _⟩
    | ok nodes =>
      rcases hconsult : (oracle.consultAll task.config.timeoutSeconds (task.batches nodes)).run
        (memory, before) with ⟨results, memory'', middle⟩
      obtain ⟨noted, hnoted⟩ := Oracle.exists_run_noting hconsult
      rw [run_of_find hfind hconsult] at hrun
      cases hrun
      exact ⟨noted, run_of_find hfind hnoted⟩

end

theorem run_of_commit {μ : Type} {task : Task} {parser : Parser} {oracle : Oracle μ}
    {times : Times} {memory memory' : μ} {before after : Disk} {stats : Stats} {nodes : List Node}
    {results : List Batch.Result} {patch : Patch}
    (hfind : task.find parser before = .ok ⟨stats, .ok nodes⟩)
    (hconsult : (oracle.consultAll task.config.timeoutSeconds (task.batches nodes)).run
      (memory, before) = (results, (memory', before)))
    (hcommit : (task.commit times (task.batches nodes) results).run.run before =
      (.ok patch, after)) :
    (task.run parser oracle times).run.run (memory, before) =
      (.ok (task.completed stats (task.batches nodes) results patch), (memory', after)) := by
  rw [run_of_find hfind hconsult, hcommit]
  rfl

/-- The stages of a run: what it finds, what the oracle makes of it, and what is done about that. -/
inductive Task.Passes {μ : Type} (task : Task) (parser : Parser) (oracle : Oracle μ) (times : Times) :
    μ × Disk → Report → μ × Disk → Prop
  | ended {memory : μ} {before : Disk} {stats : Stats} {ending : Ending}
      (hfound : task.find parser before = .ok ⟨stats, .error ending⟩) :
      task.Passes parser oracle times (memory, before) (task.ended stats ending) (memory, before)
  | completed {memory memory' : μ} {before middle after : Disk} {stats : Stats}
      {nodes : List Node} {results : List Batch.Result} {patch : Patch}
      (hfound : task.find parser before = .ok ⟨stats, .ok nodes⟩)
      (hconsult : (oracle.consultAll task.config.timeoutSeconds (task.batches nodes)).run
        (memory, before) = (results, (memory', middle)))
      (hcommit : (task.commit times (task.batches nodes) results).run.run middle =
        (.ok patch, after)) :
      task.Passes parser oracle times (memory, before)
        (task.completed stats (task.batches nodes) results patch) (memory', after)

theorem passes_of_run {μ : Type} {task : Task} {parser : Parser} {oracle : Oracle μ}
    {times : Times} {state state' : μ × Disk} {report : Report}
    (hrun : (task.run parser oracle times).run.run state = (.ok report, state')) :
    task.Passes parser oracle times state report state' := by
  unfold Task.run at hrun
  obtain ⟨memory, before⟩ := state
  obtain ⟨⟨stats, nodes⟩, ⟨memory₁, disk₁⟩, hfind, hrest⟩ := Disk.of_run_bind hrun
  obtain ⟨hfound, rfl⟩ := of_run_onDisk hfind
  obtain ⟨hfound, rfl⟩ := of_run_compute hfound
  cases nodes with
  | error ending =>
    cases hrest
    exact .ended hfound
  | ok nodes =>
    dsimp only at hrest
    obtain ⟨results, ⟨memory₂, disk₂⟩, hconsult, hchange⟩ := Disk.of_run_bind hrest
    obtain ⟨patch, ⟨memory₃, disk₃⟩, hstage, hreport⟩ := Disk.of_run_bind hchange
    obtain ⟨hcommit, rfl⟩ := of_run_onDisk hstage
    cases hreport
    exact .completed hfound (of_run_lift hconsult) hcommit

theorem cameTo_of_run {μ : Type} {task : Task} {parser : Parser} {oracle : Oracle μ}
    {times : Times} {memory memory' : μ} {before after : Disk} {report : Report}
    (hquiet : oracle.IsQuiet)
    (hrun : (task.run parser oracle times).run.run (memory, before) =
      (.ok report, (memory', after))) : task.CameTo parser times before report after := by
  cases passes_of_run hrun with
  | ended hfound => exact .ended hfound
  | @completed _ _ _ middle _ _ nodes _ _ hfound hconsult hcommit =>
    -- The oracle was asked in between, and has left the disk as it was.
    have hdisk := Oracle.disk_consultAll hquiet task.config.timeoutSeconds (task.batches nodes)
      memory before
    rw [hconsult] at hdisk
    obtain rfl : middle = before := hdisk
    exact .completed hfound hcommit

/-! ## The change -/

theorem write_ofConfig (config : Config) :
    (Patch.Options.ofConfig config).write = !config.dryRun := rfl

section

variable {task : Task} {times : Times} {batches : List Batch} {results : List Batch.Result}

theorem commit_of_dry (hdry : task.config.dryRun = true) : task.commit times batches results =
    Patch.apply (.ofConfig task.config) batches results := by
  unfold Task.commit
  dsimp only
  rw [write_ofConfig, hdry]
  exact bind_pure _

/-- Before and after the files are edited the session is told. -/
theorem commit_of_real (hdry : task.config.dryRun = false) :
    task.commit times batches results = do
      task.keepSnapshot times.before batches results
      let patch ← Patch.apply (.ofConfig task.config) batches results
      task.keepRecords times.after patch
      return patch := by
  unfold Task.commit
  dsimp only
  rw [write_ofConfig, hdry]
  rfl

end

section

variable {task : Task} {times : Times} {batches : List Batch} {results : List Batch.Result}
  {patch : Patch} {before after : Disk}
  (h : (task.commit times batches results).run.run before = (.ok patch, after))
include h

theorem apply_of_commit (hdry : task.config.dryRun = true) :
    (Patch.apply (.ofConfig task.config) batches results).run.run before = (.ok patch, after) := by
  rwa [commit_of_dry hdry] at h

theorem eq_of_commit (hdry : task.config.dryRun = true) : after = before := by
  have hwrite : (Patch.Options.ofConfig task.config).write = false := by
    rw [write_ofConfig, hdry]
    rfl
  exact (Patch.editedInTurn_of_foldlM (apply_of_commit h hdry)).eq_of_not_write hwrite

theorem of_commit (hdry : task.config.dryRun = false) : ∃ kept edited,
    (task.keepSnapshot times.before batches results).run.run before = (.ok (), kept) ∧
      (Patch.apply (.ofConfig task.config) batches results).run.run kept = (.ok patch, edited) ∧
      (task.keepRecords times.after patch).run.run edited = (.ok (), after) := by
  rw [commit_of_real hdry] at h
  obtain ⟨_, kept, hkeep, h⟩ := Disk.of_run_bind h
  obtain ⟨patch', edited, happly, h⟩ := Disk.of_run_bind h
  obtain ⟨_, recorded, hrecord, h⟩ := Disk.of_run_bind h
  cases h
  exact ⟨kept, edited, hkeep, happly, hrecord⟩

end

theorem run_commit_dry {task : Task} {times : Times} {batches : List Batch}
    {results : List Batch.Result} {patch : Patch} {before after : Disk}
    (hdry : task.config.dryRun = true)
    (happly : (Patch.apply (.ofConfig task.config) batches results).run.run before =
      (.ok patch, after)) :
    (task.commit times batches results).run.run before = (.ok patch, after) := by
  rwa [commit_of_dry hdry]

theorem run_commit {task : Task} {times : Times} {batches : List Batch}
    {results : List Batch.Result} {patch : Patch} {before kept edited after : Disk}
    (hdry : task.config.dryRun = false)
    (hkeep : (task.keepSnapshot times.before batches results).run.run before = (.ok (), kept))
    (happly : (Patch.apply (.ofConfig task.config) batches results).run.run kept =
      (.ok patch, edited))
    (hrecord : (task.keepRecords times.after patch).run.run edited = (.ok (), after)) :
    (task.commit times batches results).run.run before = (.ok patch, after) := by
  rw [commit_of_real hdry, Disk.run_bind_ok hkeep, Disk.run_bind_ok happly,
    Disk.run_bind_ok hrecord]
  exact Disk.run_pure patch after

/-! ## Accounts -/

/-- Where a run stands to a file below its root that it has changed. -/
structure IsAccounted (task : Task) (disk : Disk) (base : Location) (batches : List Batch)
    (results : List Batch.Result) (patch : Patch) (names : List String) : Prop where
  /-- The run has looked at the file. -/
  looked : task.LooksAt disk base names
  /-- The file is in no directory that is ignored or hidden. -/
  entered : ∀ n ∈ names.dropLast, Discovery.entersDirectory task.config n = true
  /-- The run tells of the file, as one that was modified or could not be. -/
  told : patch.Told ("/".intercalate names)
  /-- An accepted proposal of a successful result is for a node in the file. -/
  accepted : ∃ result ∈ results, result.success = true ∧
    ∃ batch ∈ batches, batch.id = result.batchId ∧
      ∃ p ∈ result.proposals, p.accepted = true ∧ ∃ node, batch.nodes[p.nodeIndex]? = some node ∧
        node.IsIn ("/".intercalate names) (pathBelow task.root names)

section

variable {task : Task} {parser : Parser} {disk : Disk} {stats : Stats} {nodes : List Node}
  (htree : disk.IsTree) (hfind : task.find parser disk = .ok ⟨stats, .ok nodes⟩)
include htree hfind

/-- A planned file that is told of is accounted for, and stands where the plan leads. -/
theorem exists_isAccounted {results : List Batch.Result} {patch : Patch} {plan : Patch.FilePlan}
    (hplan : plan ∈ Patch.plans (task.batches nodes) results) {first : Patch.PlannedEdit}
    {rest : List Patch.PlannedEdit} (hedits : plan.edits = first :: rest)
    (htold : patch.Told first.node.file) : ∃ base names,
      plan.location = pathBelow task.root names ∧
        IsAccounted task disk base (task.batches nodes) results patch names := by
  obtain ⟨base, hleads⟩ := exists_leadsTo_of_find hfind
  obtain ⟨names, htarget⟩ := exists_isTarget htree hleads hfind hplan
  have hmem : first ∈ plan.edits := hedits ▸ List.mem_cons_self
  have hin := htarget.nodes first hmem
  have hfirst := (List.mem_filter.mp
    (((Patch.arePlanned _ results).perm hplan).mem_iff.mp hmem)).1
  refine ⟨base, names, htarget.location, htarget.looked, htarget.looked.found.entered,
    hin.1 ▸ htold, ?_⟩
  obtain ⟨result, hresult, hsuccess, batch, hbatch, hid, hmem⟩ :=
    Patch.isAskedFor_of_mem_plannedEdits hfirst
  obtain ⟨hproposal, haccepted, hnode, -⟩ := Patch.mem_editsOf.mp hmem
  exact ⟨result, hresult, hsuccess, batch, hbatch, hid, _, hproposal, haccepted, _, hnode,
    htarget.location ▸ hin⟩

end

theorem isAccounted_of_commit {task : Task} {parser : Parser} {times : Times} {stats : Stats}
    {nodes : List Node} {results : List Batch.Result} {patch : Patch} {before after : Disk}
    {base : Location} (htree : before.IsTree) (hready : IsReady task.root task.session base before)
    (hfind : task.find parser before = .ok ⟨stats, .ok nodes⟩)
    (hcommit : (task.commit times (task.batches nodes) results).run.run before = (.ok patch, after))
    {location : Location} (hchanged : after.get? location ≠ before.get? location)
    (hown : ¬Own base location) : ∃ names, location = base ++ names ∧
      IsAccounted task before base (task.batches nodes) results patch names := by
  cases hdry : task.config.dryRun with
  | true => exact absurd (by rw [eq_of_commit hcommit hdry]) hchanged
  | false =>
    obtain ⟨kept, edited, hkeep, happly, hrecord⟩ := of_commit hcommit hdry
    have hturn := Patch.editedInTurn_of_foldlM happly
    have hkept := (keeps_keepSnapshot hready _ _ _).ok (.refl _ before) hkeep
    have hready' := (hready.of_keepsTo hkept).of_keepsTo hturn.keepsTo
    have hafter := (keeps_keepRecords hready' _ _).ok (.refl _ edited) hrecord
    -- What is not the session's was changed by the edits.
    have hedited : edited.get? location ≠ kept.get? location := by
      rw [← hafter.outside location hown, hkept.outside location hown]
      exact hchanged
    obtain ⟨plan, hplan, ⟨place, hresolve, rfl⟩, first, rest, hedits, htold⟩ :=
      Classical.byContradiction fun hnot => hedited (hturn.keepsTo.outside location hnot)
    obtain ⟨base', names, hlocation, haccounted⟩ :=
      exists_isAccounted htree hfind hplan hedits htold
    have hsame := hready.leads.symm.trans haccounted.looked.leads
    obtain rfl : base = base' := congrArg Disk.Place.location (Except.ok.inj hsame)
    rw [hlocation] at hresolve
    exact ⟨names, haccounted.looked.location_of_resolve hkept hresolve, haccounted⟩

/-- Whether a run accounts for a place that it has changed, as its session's or as a file's. -/
def Task.AccountsFor (task : Task) (parser : Parser) (times : Times) (before after : Disk)
    (report : Report) (location : Location) : Prop :=
  ∃ base, before.LeadsTo task.root base ∧ (Own base location ∨ ∃ stats nodes patch names,
    task.find parser before = .ok ⟨stats, .ok nodes⟩ ∧
    (task.commit times (task.batches nodes) report.batchResults).run.run before =
      (.ok patch, after) ∧
    report = task.completed stats (task.batches nodes) report.batchResults patch ∧
    location = base ++ names ∧
    IsAccounted task before base (task.batches nodes) report.batchResults patch names)

/-- A run that ends early or is dry leaves the disk as it was. Otherwise it accounts for what it
changes, as long as none of what its session looks at is a link. -/
theorem changes_of_run {μ : Type} {task : Task} {parser : Parser} {oracle : Oracle μ}
    {times : Times} {memory memory' : μ} {before after : Disk} {report : Report}
    (hquiet : oracle.IsQuiet)
    (hrun : (task.run parser oracle times).run.run (memory, before) =
      (.ok report, (memory', after))) :
    (report.status ≠ .completed ∨ task.config.dryRun = true → after = before) ∧
      (before.IsTree → Session.IsUnlinked task.root task.session before →
        ∀ location, after.get? location ≠ before.get? location →
          task.AccountsFor parser times before after report location) := by
  cases cameTo_of_run hquiet hrun with
  | ended hfound =>
    exact ⟨fun _ => rfl, fun _ _ location hchanged => absurd rfl hchanged⟩
  | @completed stats nodes results patch _ hfound hcommit =>
    refine ⟨?_, fun htree hunlinked location hchanged => ?_⟩
    · rintro (hstatus | hdry)
      · exact absurd rfl hstatus
      · exact eq_of_commit hcommit hdry
    · obtain ⟨base, hleads⟩ := exists_leadsTo_of_find hfound
      refine ⟨base, hleads, ?_⟩
      by_cases hown : Own base location
      · exact .inl hown
      · obtain ⟨names, hlocation, haccounted⟩ := isAccounted_of_commit htree
          ⟨hleads, hunlinked base hleads⟩ hfound hcommit hchanged hown
        exact .inr ⟨stats, nodes, patch, names, hfound, hcommit, rfl, hlocation, haccounted⟩

/-! ## Runs on a note -/

/-- A task that leads to one node of a file with a note. -/
def noteTask : Task := ⟨"/", { generateDiffs := false }, "s-1", "Sign in", "Log in", "rename"⟩

def Task.withConfig (task : Task) (config : Config) : Task :=
  { task with config }

def noteNode (weight : Float) : Node :=
  ⟨.lineMatch, "Sign in", "a.md", "/a.md", ⟨1, 0⟩, ⟨1, 7⟩, [], [], weight, none, none⟩

def noteBatch (weight trust : Float) : Batch :=
  ⟨"batch-001", "Sign in", "Log in", "rename", [noteNode weight], trust⟩

def noteCandidate : Candidate :=
  ⟨"a.md", "/a.md", .ofPath "/a.md", .exact, Phrase.MatchGrade.exact.confidence⟩

/-- The settings of the task, but for its shares. -/
def noteConfig (coverage keyPhrases words : Float) : Config :=
  { generateDiffs := false, fragmentMinCoverage := coverage, keyPhraseThreshold := keyPhrases,
    wordMajorityThreshold := words }

/-- Without trees all files are searched by pattern. -/
def noParser : Parser := fun _ _ => none

def midnight : Times := ⟨⟨0, 0⟩, ⟨0, 0⟩⟩

section

variable {disk : Disk} (htext : disk.textAt "/a.md" = .ok "Sign in")
include htext

theorem ofFile?_note (config : Config) :
    Candidate.ofFile? disk config "Sign in".toList "/" "/a.md" = some noteCandidate := by
  have hgrade : Phrase.grade? config "Sign in".toList "Sign in".toList = some .exact := by
    cbv
  have hbelow : Path.below? "/" "/a.md" = some "a.md" := by cbv
  unfold Candidate.ofFile?
  rw [htext]
  dsimp only
  rw [hgrade, hbelow]
  rfl

theorem allNodes_note {config : Config} (hcontext : config.contextLines = 3) :
    Candidate.allNodes disk noParser config "Sign in".toList [noteCandidate] =
      .ok [noteNode Node.Kind.lineMatch.relevance] := by
  have hfind : Phrase.find "Sign in".toList "Sign in".toList = [⟨0, 7⟩] := by cbv
  have hslice : Text.slice? "Sign in".toList 0 7 = some "Sign in".toList := by cbv
  -- The weight is a float, which no evaluation opens, so it is any number here.
  have hnode : ∀ weight, (Source.ofContent "a.md" "/a.md" "Sign in".toList 3).nodeAt .lineMatch
      "Sign in".toList ⟨0, 7⟩ weight none none = .ok (noteNode weight) := by
    intro weight
    cbv
  have hnodes : Candidate.nodes disk noParser config "Sign in".toList noteCandidate =
      .ok [noteNode Node.Kind.lineMatch.relevance] := by
    unfold Candidate.nodes
    rw [show noteCandidate.location = "/a.md" from rfl, htext]
    dsimp only
    rw [hcontext, show (if noteCandidate.language.hasTrees then
      noParser noteCandidate.language "Sign in".toList else none) = none from ite_self none]
    show (Source.ofContent "a.md" "/a.md" "Sign in".toList 3).patternNodes "Sign in".toList = _
    unfold Source.patternNodes
    rw [show (Source.ofContent "a.md" "/a.md" "Sign in".toList 3).content =
      "Sign in".toList from rfl, hfind, List.mapM_cons, List.mapM_nil]
    dsimp only
    rw [hslice]
    dsimp only
    rw [hnode]
    rfl
  unfold Candidate.allNodes
  rw [List.mapM_cons, List.mapM_nil, hnodes]
  rfl

theorem among_note (config : Config) :
    Candidate.among disk config "Sign in".toList "/" ["/a.md"] = [noteCandidate] := by
  unfold Candidate.among
  rw [List.filterMap_cons, ofFile?_note htext]
  exact List.mergeSort_singleton _

theorem candidates_note (hfiles : Discovery.files disk noteTask.config "/" = .ok ["/a.md"]) :
    noteTask.candidates disk = [noteCandidate] := by
  unfold Task.candidates
  rw [show noteTask.root = "/" from rfl, hfiles]
  exact among_note htext noteTask.config

theorem find_note_with {config : Config} (hcontext : config.contextLines = 3)
    (hfiles : Discovery.files disk config "/" = .ok ["/a.md"]) :
    (noteTask.withConfig config).find noParser disk =
      .ok ⟨{ filesScanned := 1, candidateFiles := 1, nodesExtracted := 1 },
        .ok [noteNode Node.Kind.lineMatch.relevance]⟩ := by
  unfold Task.find
  dsimp only [Task.withConfig]
  rw [if_neg (by decide), show noteTask.root = "/" from rfl, hfiles]
  dsimp only
  rw [show noteTask.search.toList = "Sign in".toList from rfl, among_note htext,
    if_neg (by decide), allNodes_note htext hcontext]
  rfl

theorem find_note (hfiles : Discovery.files disk noteTask.config "/" = .ok ["/a.md"]) :
    noteTask.find noParser disk =
      .ok ⟨{ filesScanned := 1, candidateFiles := 1, nodesExtracted := 1 },
        .ok [noteNode Node.Kind.lineMatch.relevance]⟩ :=
  find_note_with htext rfl hfiles

end

theorem batches_note (weight : Float) :
    noteTask.batches [noteNode weight] = [noteBatch weight (mean [weight])] := by
  have hchunks : Batch.chunks 9 [noteNode weight] = [[noteNode weight]] := by
    rw [Batch.chunks, List.take_nil, List.drop_nil, Batch.chunks]
  have hid : Batch.idOf 0 = "batch-001" := by cbv
  unfold Task.batches Batch.ofNodes
  rw [show noteTask.config.batchSize - 1 = 9 from rfl, hchunks, List.mapIdx_cons, List.mapIdx_nil,
    hid]
  rfl

theorem span_note : Instant.spanOfHours noteTask.config.sessionHours = .ok 86400 := by
  show Instant.spanOfHours 24 = _
  cbv

/-! ## A run that is accounted for -/

/-- A project with a note, whose session cannot be locked. -/
def noteDisk : Disk :=
  { entries := [(["a.md"], .file "Sign in".toUTF8), ([".retext"], .directory),
      ([".retext", ".lock"], .directory)] }

def answer : String := "\x7b\"modifications\": [\x7b\"modifiedContent\": \"Log in\"\x7d]\x7d"

/-- An oracle that always gives the same answer. -/
def answering : Oracle Unit := fun _ => return { outcome := .answered answer }

def noteResult (confidence trust : Float) : Batch.Result :=
  ⟨"batch-001",
    [⟨0, none, none, "Sign in", "Log in", "", confidence, true, .unspecified, []⟩],
    true, none, 1, 1, "unspecified", trust⟩

def notePatch : Patch :=
  { filesModified := ["a.md"], replacements := 1, applied := [⟨"a.md", 1, .direct⟩] }

theorem rawReply?_answer : Oracle.rawReply? answer.toList =
    some ⟨[.object [("modifiedContent", .string "Log in")]], none, none⟩ :=
  Oracle.rawReply?_object (by cbv)

theorem consult_note (disk : Disk) (weight trust : Float) :
    (answering.consultAll 120 [noteBatch weight trust]).run ((), disk) =
      ([noteResult Oracle.unstatedConfidence (mean [Oracle.unstatedConfidence])], ((), disk)) :=
  Oracle.run_consultAll_answered (fun _ => congrArg (Option.map _) rawReply?_answer) 120
    (noteBatch weight trust) disk

theorem exists_consult_noting (disk : Disk) (weight trust : Float) : ∃ exchange,
    (answering.noting.consultAll 120 [noteBatch weight trust]).run (([], ()), disk) =
      ([noteResult Oracle.unstatedConfidence (mean [Oracle.unstatedConfidence])],
        (([exchange], ()), disk)) ∧ exchange.response.outcome = .answered answer ∧
      exchange.request.Shows (noteBatch weight trust) := by
  obtain ⟨noted, hnoted⟩ := Oracle.exists_run_noting (consult_note disk weight trust)
  have hrun : (answering.noting.consultAll 120 [noteBatch weight trust]).run (([], ()), disk) =
      ([Oracle.resultOf 120 (noteBatch weight trust)
          (Oracle.requestFor disk (noteBatch weight trust) []).1 { outcome := .answered answer }],
        (([⟨(Oracle.requestFor disk (noteBatch weight trust) []).1,
          { outcome := .answered answer }⟩], ()), disk)) := rfl
  have hshows := Oracle.shows_requestFor disk (noteBatch weight trust) []
  rw [hrun] at hnoted
  rw [(Prod.mk.inj hnoted).1] at hrun
  exact ⟨_, hrun, rfl, hshows⟩

theorem apply_note (weight trust confidence trust' : Float) :
    (Patch.apply (.ofConfig noteTask.config) [noteBatch weight trust]
      [noteResult confidence trust']).run.run noteDisk =
        (.ok notePatch, noteDisk.put ["a.md"] (.file "Log in".toUTF8)) := by
  show (Patch.apply ⟨true, false⟩ _ _).run.run _ = _
  cbv

theorem files_note_with (coverage keyPhrases words : Float) :
    Discovery.files noteDisk (noteConfig coverage keyPhrases words) "/" = .ok ["/a.md"] := by
  cbv

theorem files_note : Discovery.files noteDisk noteTask.config "/" = .ok ["/a.md"] :=
  files_note_with _ _ _

section

variable {disk : Disk} (hdirectory : disk.get? [".retext"] = some .directory)
include hdirectory

theorem holds_directory : disk.holds "/.retext" = true := by
  have hresolve : disk.resolve true "/.retext" = .ok ⟨[".retext"], some .directory⟩ :=
    Disk.resolve_names (by decide) (by decide) trivial hdirectory nofun
  unfold Disk.holds Disk.find?
  rw [hresolve]
  rfl

theorem writable_lock (hlock : disk.get? [".retext", ".lock"] = some .directory) :
    disk.writable "/.retext/.lock" = .error .isDirectory := by
  have hresolve : disk.resolve true "/.retext/.lock" =
      .ok ⟨[".retext", ".lock"], some .directory⟩ :=
    Disk.resolve_names (by decide) (by decide) ⟨hdirectory, trivial⟩ hlock nofun
  unfold Disk.writable
  rw [hresolve]

end

theorem run_hide_unlisted {disk : Disk} (hlist : disk.get? [".gitignore"] = none) :
    (Session.hide "/").run.run disk = (.ok (), disk) := by
  have hresolve : disk.resolve true "/.gitignore" = .ok ⟨[".gitignore"], none⟩ :=
    Disk.resolve_names (by decide) (by decide) trivial hlist nofun
  have hholds : disk.holds "/.gitignore" = false := by
    unfold Disk.holds Disk.find?
    rw [hresolve]
    rfl
  exact Session.run_hide_absent hholds

theorem run_lockToWrite_note {disk : Disk} (hdirectory : disk.get? [".retext"] = some .directory)
    (hlock : disk.get? [".retext", ".lock"] = some .directory)
    (hlist : disk.get? [".gitignore"] = none) :
    (Session.lockToWrite "/").run.run disk = (.error (.refused .isDirectory), disk) :=
  Session.run_lockToWrite_refused (holds_directory hdirectory) (run_hide_unlisted hlist)
    (writable_lock hdirectory hlock)

/-- Nothing is kept of the edits of the note, which go on all the same. -/
theorem run_commit_note {batches : List Batch} {results : List Batch.Result} {patch : Patch}
    {content : ByteArray}
    (happly : (Patch.apply (.ofConfig noteTask.config) batches results).run.run noteDisk =
      (.ok patch, noteDisk.put ["a.md"] (.file content))) :
    (noteTask.commit midnight batches results).run.run noteDisk =
      (.ok patch, noteDisk.put ["a.md"] (.file content)) := by
  have hlock : (Session.lockToWrite noteTask.root).run.run noteDisk =
      (.error (.refused .isDirectory), noteDisk) := run_lockToWrite_note rfl rfl rfl
  have hlock' : (Session.lockToWrite noteTask.root).run.run
      (noteDisk.put ["a.md"] (.file content)) =
        (.error (.refused .isDirectory), noteDisk.put ["a.md"] (.file content)) :=
    run_lockToWrite_note rfl rfl rfl
  have hkeep := run_keepSnapshot_refused hlock span_note midnight.before batches results fun _ => rfl
  exact run_commit rfl hkeep happly (run_keepRecords_refused hlock' span_note midnight.after patch)

theorem run_note_with (coverage keyPhrases words : Float) : ∃ report,
    ((noteTask.withConfig (noteConfig coverage keyPhrases words)).run noParser answering
      midnight).run.run ((), noteDisk) =
        (.ok report, ((), noteDisk.put ["a.md"] (.file "Log in".toUTF8))) ∧
      report.stats.writeFailures = 0 := by
  have htext : noteDisk.textAt "/a.md" = .ok "Sign in" := by cbv
  have hfind := find_note_with htext rfl (files_note_with coverage keyPhrases words)
  have hbatches := batches_note Node.Kind.lineMatch.relevance
  generalize Node.Kind.lineMatch.relevance = weight at hfind hbatches
  have hconsult := consult_note noteDisk weight (mean [weight])
  have happly := apply_note weight (mean [weight]) Oracle.unstatedConfidence
    (mean [Oracle.unstatedConfidence])
  rw [← hbatches] at hconsult happly
  exact ⟨_, run_of_commit hfind hconsult (run_commit_note happly), rfl⟩

theorem run_note : ∃ report, (noteTask.run noParser answering midnight).run.run ((), noteDisk) =
    (.ok report, ((), noteDisk.put ["a.md"] (.file "Log in".toUTF8))) ∧
      report.stats.writeFailures = 0 :=
  run_note_with _ _ _

theorem unlinked_note : Session.IsUnlinked "/" "s-1" noteDisk := by
  intro base _ names hused target hlink
  have hmem := Disk.mem_entries_of_get? hlink (by simp [hused.ne_nil])
  simp [noteDisk] at hmem

/-- The note is changed, and this is accounted for. -/
theorem changes_of_note : answering.IsQuiet ∧ noteDisk.IsTree ∧ Session.IsUnlinked "/" "s-1" noteDisk ∧
    ¬Own [] ["a.md"] ∧ ∃ report after,
      (noteTask.run noParser answering midnight).run.run ((), noteDisk) =
        (.ok report, ((), after)) ∧
      after.get? ["a.md"] ≠ noteDisk.get? ["a.md"] ∧
      noteTask.AccountsFor noParser midnight noteDisk after report ["a.md"] := by
  have htree : noteDisk.IsTree := by decide
  have hown : ¬Own [] ["a.md"] := by
    rintro ⟨names, hnames, heq⟩
    obtain rfl : ["a.md"] = names := heq
    exact absurd hnames (by decide)
  have hchanged : (noteDisk.put ["a.md"] (.file "Log in".toUTF8)).get? ["a.md"] ≠
      noteDisk.get? ["a.md"] := by
    rw [Disk.get?_put_self noteDisk (by simp)]
    decide
  have hquiet : answering.IsQuiet := fun _ _ _ => rfl
  obtain ⟨report, hrun, -⟩ := run_note
  exact ⟨hquiet, htree, unlinked_note, hown, report, _, hrun, hchanged,
    (changes_of_run hquiet hrun).2 htree unlinked_note _ hchanged⟩

/-! ## Links on the way -/

section

variable {disk : Disk} {target text : String} (htarget : Path.IsName target)
  (hshort : target.utf8ByteSize ≤ Disk.maxName)
  (hlink : disk.get? [".gitignore"] = some (.link target))
  (hfile : disk.get? [target] = some (.file text.toUTF8))
include htarget hshort hlink hfile

/-- A list of ignored files may be a link to another file. -/
theorem resolve_listed :
    disk.resolve true "/.gitignore" = .ok ⟨[target], some (.file text.toUTF8)⟩ := by
  have hsteps : Disk.steps target = [target] := by
    unfold Disk.steps
    rw [Path.segments_of_not_mem htarget.slash, List.map_singleton, String.ofList_toList]
  have hstart : Disk.startOf [] target = [] := by
    unfold Disk.startOf
    rw [htarget.not_isAbsolute]
    rfl
  have hend : disk.walk true 39 [] [target] = .ok ⟨[target], some (.file text.toUTF8)⟩ := by
    rw [Disk.walk_end htarget.not_empty htarget.ne_parent (Nat.not_lt.mpr hshort) rfl
      fun entry hentry => ⟨_, Option.some.inj (hentry.symm.trans hfile)⟩, List.nil_append, hfile]
  unfold Disk.resolve
  rw [if_neg (by decide), if_neg (by decide), if_neg (by decide),
    show Disk.startOf disk.working "/.gitignore" = [] from rfl,
    show Disk.steps "/.gitignore" = ["", ".gitignore"] by decide, Disk.walk_empty_cons, Disk.walk,
    if_neg (by decide), if_neg (by decide), if_neg (by decide)]
  dsimp only
  rw [List.nil_append, hlink]
  show (if target = "" then _ else
    disk.walk true 39 (Disk.startOf [] target) (Disk.steps target ++ [])) = _
  rw [if_neg htarget.ne_empty, hsteps, hstart]
  exact hend

theorem holds_listed : disk.holds "/.gitignore" = true := by
  unfold Disk.holds Disk.find?
  rw [resolve_listed htarget hshort hlink hfile]
  rfl

/-- Then this file is told to ignore the session's directory. -/
theorem run_hide_listed (hlimit : disk.limit = none)
    (hhidden : Session.isHidden text.toList = false) :
    (Session.hide "/").run.run disk = (.ok (), disk.put [target]
      (.file (text.toUTF8 ++ (Session.ignoreAddition text.toList).toUTF8))) := by
  have hresolve := resolve_listed htarget hshort hlink hfile
  have hwritable : disk.writable "/.gitignore" = .ok ([target], text.toUTF8) := by
    unfold Disk.writable
    rw [hresolve]
  unfold Session.hide
  rw [Disk.run_bind_ok (Disk.run_get disk)]
  dsimp only
  rw [show Path.join "/" ".gitignore" = "/.gitignore" by decide,
    holds_listed htarget hshort hlink hfile, if_pos rfl, Disk.textAt_of_resolve hresolve]
  show (if (!Session.isHidden text.toList) = true then _ else _ : Action Unit).run.run disk = _
  rw [if_pos (by rw [hhidden]; rfl)]
  exact Disk.run_appendText hwritable hlimit _

theorem run_hide_told (hhidden : Session.isHidden text.toList = true) :
    (Session.hide "/").run.run disk = (.ok (), disk) := by
  unfold Session.hide
  rw [Disk.run_bind_ok (Disk.run_get disk)]
  dsimp only
  rw [show Path.join "/" ".gitignore" = "/.gitignore" by decide,
    holds_listed htarget hshort hlink hfile, if_pos rfl,
    Disk.textAt_of_resolve (resolve_listed htarget hshort hlink hfile)]
  show (if (!Session.isHidden text.toList) = true then _ else _ : Action Unit).run.run disk = _
  rw [if_neg (by rw [hhidden]; decide)]
  rfl

end

/-! ## A run that is not -/

/-- A project whose list of ignored files is a link to other notes. -/
def linkedDisk : Disk :=
  { entries := [(["a.md"], .file "Sign in".toUTF8), (["notes.txt"], .file "".toUTF8),
      ([".gitignore"], .link "notes.txt"), ([".retext"], .directory),
      ([".retext", ".lock"], .directory)] }

/-- An oracle that never answers. -/
def failing : Oracle Unit := fun _ => return { outcome := .failed ["no answer"] }

def listedDisk : Disk :=
  linkedDisk.put ["notes.txt"] (.file (Session.ignoreAddition []).toUTF8)

theorem run_hide_linked : (Session.hide "/").run.run linkedDisk = (.ok (), listedDisk) := by
  have htarget : Path.IsName "notes.txt" := by decide
  have hfile : linkedDisk.get? ["notes.txt"] = some (.file "".toUTF8) := rfl
  exact run_hide_listed htarget (by decide) rfl hfile rfl (by cbv)

/-- The other notes are changed, and nothing in the report tells of it. -/
theorem notes_changed_through_link : failing.IsQuiet ∧ linkedDisk.IsTree ∧
    linkedDisk.LeadsTo "/" [] ∧ ¬Own [] ["notes.txt"] ∧
    Discovery.files linkedDisk noteTask.config "/" = .ok ["/a.md"] ∧ ∃ report after,
      (noteTask.run noParser failing midnight).run.run ((), linkedDisk) =
        (.ok report, ((), after)) ∧
      after.get? ["notes.txt"] ≠ linkedDisk.get? ["notes.txt"] ∧ report.filesModified = [] ∧
      report.stats.writeFailures = 0 ∧ report.batchResults.all (!·.success) = true := by
  have hown : ¬Own [] ["notes.txt"] := by
    rintro ⟨names, hnames, heq⟩
    obtain rfl : ["notes.txt"] = names := heq
    exact absurd hnames (by decide)
  -- The thresholds are floats, which no evaluation opens, so they are left open here.
  have hfiles : Discovery.files linkedDisk noteTask.config "/" = .ok ["/a.md"] := by
    have hany : ∀ a b c, Discovery.files linkedDisk
        { generateDiffs := false, fragmentMinCoverage := a, keyPhraseThreshold := b,
          wordMajorityThreshold := c } "/" = .ok ["/a.md"] := by
      intro a b c
      cbv
    exact hany _ _ _
  have hchanged : listedDisk.get? ["notes.txt"] ≠ linkedDisk.get? ["notes.txt"] := by
    unfold listedDisk
    rw [Disk.get?_put_self linkedDisk (by simp)]
    decide
  have htext : linkedDisk.textAt "/a.md" = .ok "Sign in" := by cbv
  have hfind := find_note htext hfiles
  have hbatches := batches_note Node.Kind.lineMatch.relevance
  generalize Node.Kind.lineMatch.relevance = weight at hfind hbatches
  have hconsult : (failing.consultAll noteTask.config.timeoutSeconds
      (noteTask.batches [noteNode weight])).run ((), linkedDisk) =
        ([.failed (noteBatch weight (mean [weight])) "no answer"], ((), linkedDisk)) := by
    rw [hbatches]
    rfl
  have happly : (Patch.apply (.ofConfig noteTask.config) (noteTask.batches [noteNode weight])
      [.failed (noteBatch weight (mean [weight])) "no answer"]).run.run linkedDisk =
        (.ok ({} : Patch), linkedDisk) := by
    rw [hbatches]
    rfl
  -- The list is written through the link before the lock turns out to be a directory.
  have hlock : (Session.lockToWrite noteTask.root).run.run linkedDisk =
      (.error (.refused .isDirectory), listedDisk) :=
    Session.run_lockToWrite_refused (holds_directory rfl) run_hide_linked (writable_lock rfl rfl)
  have hrecord := run_keepRecords_refused hlock span_note midnight.after {}
  have hcommit : (noteTask.commit midnight (noteTask.batches [noteNode weight])
      [.failed (noteBatch weight (mean [weight])) "no answer"]).run.run linkedDisk =
        (.ok {}, listedDisk) :=
    run_commit rfl (Disk.run_pure () linkedDisk) happly hrecord
  exact ⟨fun _ _ _ => rfl, by decide, by cbv, hown, hfiles, _, _,
    run_of_commit hfind hconsult hcommit, hchanged, rfl, rfl, rfl⟩

end Rephrase.Run
