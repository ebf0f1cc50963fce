import Rephrase.Proofs.Disk.Discovery
import Rephrase.Proofs.Node.Origin
import Rephrase.Proofs.Oracle.Exchange
import Rephrase.Proofs.Patch.Effect
import Rephrase.Proofs.Patch.Grouping
import Rephrase.Proofs.Patch.Plan
import Rephrase.Proofs.Session.Recording
import Rephrase.Proofs.Session.Spare
import Rephrase.Run.Engine

/-! What the parts of a run do to a disk: what is kept of the run changes the session's part only, and
the nodes that are edited stand in files that were found. The files that a run plans to edit are among
those that it has looked at, and each of them stands in a place of its own. -/

namespace Rephrase

open Disk (Action KeepsTo Location)
open Discovery (pathBelow)
open Session (Keeps IsReady)

/-! ## The session -/

namespace Run

section

variable {kind : Disk → Prop}

theorem holds_ignoringRefusal {action : Action Unit} (h : Action.Holds kind action) :
    Action.Holds kind (ignoringRefusal action) := by
  unfold ignoringRefusal
  refine h.attempt.bind fun result => ?_
  split
  · exact .throw _
  · exact .pure ()

theorem holds_untilRefusal {actions : List (Action Unit)}
    (h : ∀ action ∈ actions, Action.Holds kind action) :
    Action.Holds kind (untilRefusal actions) := by
  induction actions with
  | nil => exact .pure true
  | cons action rest ih =>
    obtain ⟨hfirst, hrest⟩ := List.forall_mem_cons.mp h
    rw [untilRefusal]
    refine hfirst.attempt.bind fun result => ?_
    split
    · exact ih hrest
    · exact .pure false
    · exact .throw _

variable {task : Task}

/-- What is kept before the change goes to the store. -/
theorem holds_keepSnapshot
    (hset : ∀ now key value span, Action.Holds kind (Store.set task.root now key value span))
    (now : Instant) (batches : List Batch) (results : List Batch.Result) :
    Action.Holds kind (task.keepSnapshot now batches results) := by
  unfold Task.keepSnapshot
  dsimp only
  split
  · exact .pure ()
  refine Action.Holds.get.bind fun disk => (Action.Holds.compute _).bind fun span => ?_
  exact holds_ignoringRefusal (hset _ _ _ _)

/-- What is kept after it goes to the history and to the store. -/
theorem holds_keepRecords {now : Instant} {patch : Patch}
    (hset : ∀ span, Action.Holds kind
      (Store.set task.root now summaryKey (task.summary now patch) span))
    (happend : ∀ record, Action.Holds kind (History.append task.root task.session record)) :
    Action.Holds kind (task.keepRecords now patch) := by
  have hadditions : ∀ addition ∈
      (task.records now patch).map (History.append task.root task.session),
      Action.Holds kind addition := by
    intro addition haddition
    obtain ⟨record, -, rfl⟩ := List.mem_map.mp haddition
    exact happend record
  unfold Task.keepRecords
  refine (holds_untilRefusal hadditions).bind fun complete => ?_
  split
  · exact (Action.Holds.compute _).bind fun span => holds_ignoringRefusal (hset span)
  · exact .pure ()

variable {base : Location} {before : Disk} (hready : IsReady task.root task.session base before)
include hready

theorem keeps_keepSnapshot (now : Instant) (batches : List Batch) (results : List Batch.Result) :
    Keeps base before (task.keepSnapshot now batches results) :=
  holds_keepSnapshot (Store.keeps_set hready) now batches results

theorem keeps_keepRecords (now : Instant) (patch : Patch) :
    Keeps base before (task.keepRecords now patch) :=
  holds_keepRecords (fun span => Store.keeps_set hready _ _ _ span) (History.keeps_append hready)

end

/-! ## What is kept -/

section

variable {task : Task} {now : Instant} {span : Int}
  (hspan : Instant.spanOfHours task.config.sessionHours = .ok span)
include hspan

/-- With something to be changed, what is kept before is a snapshot of it. -/
theorem run_keepSnapshot_eq {batches : List Batch} {results : List Batch.Result} {disk : Disk}
    (hsome : (targets batches results).isEmpty = false) :
    (task.keepSnapshot now batches results).run.run disk =
      (ignoringRefusal (Snapshot.save task.root now task.session
        (Snapshot.take disk task.root (targets batches results)) span)).run.run disk := by
  unfold Task.keepSnapshot
  dsimp only
  rw [hsome, if_neg Bool.false_ne_true, Disk.run_bind_ok (Disk.run_get disk),
    Disk.run_bind_ok (Disk.run_compute hspan disk)]

/-- With all records added, what is kept afterwards is the summary. -/
theorem run_keepRecords_eq {patch : Patch} {edited recorded : Disk}
    (hadditions : (untilRefusal ((task.records now patch).map
      (History.append task.root task.session))).run.run edited = (.ok true, recorded)) :
    (task.keepRecords now patch).run.run edited =
      (ignoringRefusal (Store.set task.root now summaryKey (task.summary now patch)
        span)).run.run recorded := by
  unfold Task.keepRecords
  dsimp only
  rw [Disk.run_bind_ok hadditions, if_pos rfl, Disk.run_bind_ok (Disk.run_compute hspan recorded)]

end

/-! ## A session that cannot be locked -/

theorem run_ignoringRefusal {action : Action Unit} {disk disk' : Disk} {e : Disk.Error}
    (h : action.run.run disk = (.error (.refused e), disk')) :
    (ignoringRefusal action).run.run disk = (.ok (), disk') := by
  unfold ignoringRefusal
  rw [Disk.run_bind_ok (Disk.run_attempt_error h)]
  rfl

theorem run_set_refused {root : String} {disk disk' : Disk} {e : Disk.Error}
    (hlock : (Session.lockToWrite root).run.run disk = (.error (.refused e), disk'))
    (now : Instant) (key : String) (value : Json) (span : Int) :
    (Store.set root now key value span).run.run disk = (.error (.refused e), disk') := by
  unfold Store.set
  exact Disk.run_bind_error hlock _

section

variable {task : Task} {disk disk' : Disk} {e : Disk.Error} {span : Int}
  (hlock : (Session.lockToWrite task.root).run.run disk = (.error (.refused e), disk'))
  (hspan : Instant.spanOfHours task.config.sessionHours = .ok span) (now : Instant)
include hlock hspan

/-- Then no records are kept, but the run goes on. -/
theorem run_keepRecords_refused (patch : Patch) :
    (task.keepRecords now patch).run.run disk = (.ok (), disk') := by
  cases hrecords : task.records now patch with
  | nil =>
    have hadditions : (untilRefusal ((task.records now patch).map
        (History.append task.root task.session))).run.run disk = (.ok true, disk) := by
      rw [hrecords]
      rfl
    rw [run_keepRecords_eq hspan hadditions]
    exact run_ignoringRefusal (run_set_refused hlock now _ _ _)
  | cons record rest =>
    have happend : (History.append task.root task.session record).run.run disk =
        (.error (.refused e), disk') := by
      unfold History.append
      exact Disk.run_bind_error hlock _
    have huntil : (untilRefusal ((record :: rest).map
        (History.append task.root task.session))).run.run disk = (.ok false, disk') := by
      rw [List.map_cons, untilRefusal, Disk.run_bind_ok (Disk.run_attempt_error happend)]
      rfl
    unfold Task.keepRecords
    dsimp only
    rw [hrecords, Disk.run_bind_ok huntil]
    rfl

theorem run_keepSnapshot_refused (batches : List Batch) (results : List Batch.Result)
    (hnone : (targets batches results).isEmpty = true → disk' = disk) :
    (task.keepSnapshot now batches results).run.run disk = (.ok (), disk') := by
  cases hempty : (targets batches results).isEmpty with
  | true =>
    unfold Task.keepSnapshot
    dsimp only
    rw [hempty, if_pos rfl, hnone hempty]
    exact Disk.run_pure () disk
  | false =>
    rw [run_keepSnapshot_eq hspan hempty]
    exact run_ignoringRefusal (run_set_refused hlock now _ _ _)

end

/-! ## A session that is recorded -/

section

open Session (IsRecording)

variable {lock place : Disk.Location} {content : ByteArray}

theorem exists_untilRefusal {root session : String} {disk : Disk}
    (h : IsRecording root session lock place content disk) (records : List History.Record) :
    ∃ disk', (untilRefusal (records.map (History.append root session))).run.run disk =
      (.ok true, disk') ∧
        IsRecording root session lock place (Session.extended content records) disk' := by
  induction records generalizing content disk with
  | nil => exact ⟨disk, rfl, h⟩
  | cons record rest ih =>
    obtain ⟨added, happend, hadded⟩ := h.exists_append record
    obtain ⟨disk', hrest, hrecording⟩ := ih hadded
    refine ⟨disk', ?_, hrecording⟩
    rw [List.map_cons, untilRefusal, Disk.run_bind_ok (Disk.run_attempt_ok happend)]
    exact hrest

variable {task : Task} {disk : Disk} {now expires : Instant} {span : Int}
  (h : IsRecording task.root task.session lock place content disk)
  (hspan : Instant.spanOfHours task.config.sessionHours = .ok span)
  (hexpires : now.after span = .ok expires)
include h hspan hexpires

/-- All that a run does to its files is recorded, also without a summary. -/
theorem exists_keepRecords (patch : Patch) : ∃ disk',
    (task.keepRecords now patch).run.run disk = (.ok (), disk') ∧
      IsRecording task.root task.session lock place
        (Session.extended content (task.records now patch)) disk' := by
  obtain ⟨recorded, huntil, hrecording⟩ := exists_untilRefusal h (task.records now patch)
  refine ⟨_, ?_, hrecording.locked⟩
  rw [run_keepRecords_eq hspan huntil]
  exact run_ignoringRefusal (hrecording.run_set hexpires _ _)

theorem run_keepSnapshot {batches : List Batch} {results : List Batch.Result}
    (hsome : (targets batches results).isEmpty = false) :
    (task.keepSnapshot now batches results).run.run disk =
      (.ok (), disk.put lock (.file ByteArray.empty)) := by
  rw [run_keepSnapshot_eq hspan hsome]
  exact run_ignoringRefusal (h.run_set hexpires _ _)

end

/-! ## What was found -/

theorem mem_of_mem_batches {task : Task} {nodes : List Node} {batch : Batch}
    (hbatch : batch ∈ task.batches nodes) {node : Node} (hnode : node ∈ batch.nodes) :
    node ∈ nodes := by
  have hall : (task.batches nodes).flatMap (·.nodes) = nodes := Batch.flatMap_nodes_ofNodes ..
  rw [← hall]
  exact List.mem_flatMap.mpr ⟨batch, hbatch, hnode⟩

/-- The candidates of a task. -/
def Task.candidates (task : Task) (disk : Disk) : List Candidate :=
  match Discovery.files disk task.config task.root with
  | .ok files => Candidate.among disk task.config task.search.toList task.root files
  | .error _ => []

theorem allNodes_of_find {task : Task} {parser : Parser} {disk : Disk} {stats : Stats}
    {nodes : List Node} (h : task.find parser disk = .ok ⟨stats, .ok nodes⟩) :
    Candidate.allNodes disk parser task.config task.search.toList (task.candidates disk) =
      .ok nodes := by
  unfold Task.find at h
  unfold Task.candidates
  dsimp only at h
  split at h
  · cases h
  split at h
  · cases h
  rename_i files hfiles
  split at h
  · cases h
  obtain ⟨found, hfound, h⟩ := bind_eq_ok.mp h
  split at h
  · cases h
  cases h
  rw [hfiles]
  exact hfound

/-- Every node that is found is in a candidate. -/
theorem exists_candidate_of_find {task : Task} {parser : Parser} {disk : Disk} {stats : Stats}
    {nodes : List Node} (h : task.find parser disk = .ok ⟨stats, .ok nodes⟩) {node : Node}
    (hnode : node ∈ nodes) : ∃ c ∈ task.candidates disk, node.IsIn c.file c.location :=
  Candidate.isIn_of_mem_allNodes (allNodes_of_find h) hnode

/-- A candidate is one of the files that are looked at, and a text. -/
theorem of_mem_candidates {task : Task} {disk : Disk} {c : Candidate}
    (h : c ∈ task.candidates disk) :
    ∃ files, Discovery.files disk task.config task.root = .ok files ∧ c.location ∈ files ∧
      c.file = (Path.below? task.root c.location).getD c.location ∧
        ∃ text, disk.textAt c.location = .ok text := by
  unfold Task.candidates at h
  split at h
  · rename_i files hfiles
    obtain ⟨hlocation, hfile⟩ := Candidate.of_mem_among h
    exact ⟨files, hfiles, hlocation, hfile, Candidate.exists_text_of_mem_among h⟩
  · nomatch h

theorem exists_leadsTo_of_find {task : Task} {parser : Parser} {disk : Disk} {stats : Stats}
    {nodes : List Node} (h : task.find parser disk = .ok ⟨stats, .ok nodes⟩) :
    ∃ base, disk.LeadsTo task.root base := by
  unfold Task.find at h
  dsimp only at h
  split at h
  · cases h
  split at h
  · cases h
  · exact Discovery.exists_leadsTo_of_files ‹_›

end Run

end Rephrase

namespace Rephrase.Run

open Disk (KeepsTo Location)
open Discovery (IsFound pathBelow)

/-- A file below the root that a run looks at. -/
structure Task.LooksAt (task : Task) (disk : Disk) (base : Location) (names : List String) :
    Prop where
  leads : disk.LeadsTo task.root base
  listed : ∃ files, Discovery.files disk task.config task.root = .ok files ∧
    pathBelow task.root names ∈ files
  found : IsFound disk task.config base names

/-- A file that is looked at is found where it was as long as no link is made. -/
theorem Task.LooksAt.location_of_resolve {task : Task} {area : Location → Prop}
    {disk disk' : Disk} {base : Location} {names : List String} {follow : Bool} {place : Disk.Place}
    (h : task.LooksAt disk base names) (hkeeps : KeepsTo area disk disk')
    (hresolve : disk'.resolve follow (pathBelow task.root names) = .ok place) :
    place.location = base ++ names := by
  have hlinks : ∀ front, front ≠ [] → front <+: names → ∀ target,
      disk'.get? (base ++ front) ≠ some (.link target) := by
    intro front _ hfront target hlink
    have hbefore := hkeeps.links _ _ hlink
    by_cases hsame : front = names
    · obtain ⟨content, hfile, -⟩ := h.found.file
      rw [hsame, hfile] at hbefore
      cases hbefore
    · rw [h.found.passed front hfront hsame] at hbefore
      cases hbefore
  exact (Disk.of_resolve_below (h.leads.of_stands hkeeps.stands hkeeps.working) h.found.named
    h.found.ne_nil hlinks hresolve).1

/-- A file that edits are planned for, as the run has found it. -/
structure Task.IsTarget (task : Task) (disk : Disk) (base : Location) (plan : Patch.FilePlan)
    (names : List String) : Prop where
  looked : task.LooksAt disk base names
  location : plan.location = pathBelow task.root names
  candidate : ∃ c ∈ task.candidates disk, c.location = plan.location
  text : ∃ text, disk.textAt plan.location = .ok text
  filled : ∃ first rest, plan.edits = first :: rest
  nodes : ∀ edit ∈ plan.edits, edit.node.IsIn ("/".intercalate names) plan.location

section

variable {task : Task} {parser : Parser} {disk : Disk} {base : Location} {stats : Stats}
  {nodes : List Node} (htree : disk.IsTree) (hleads : disk.LeadsTo task.root base)
  (hfind : task.find parser disk = .ok ⟨stats, .ok nodes⟩)
include htree hleads hfind

theorem exists_looksAt {node : Node} (hnode : node ∈ nodes) : ∃ names,
    task.LooksAt disk base names ∧
      node.IsIn ("/".intercalate names) (pathBelow task.root names) ∧
      ∃ c ∈ task.candidates disk, c.location = pathBelow task.root names := by
  obtain ⟨c, hc, hin⟩ := exists_candidate_of_find hfind hnode
  obtain ⟨files, hfiles, hlocation, hfile, -⟩ := of_mem_candidates hc
  obtain ⟨base', names, hleads', hpath, hfound⟩ :=
    Discovery.isFound_of_mem_files htree hfiles hlocation
  obtain rfl : base = base' :=
    congrArg Disk.Place.location (Except.ok.inj (hleads.symm.trans hleads'))
  have hroot := (Disk.walk_of_resolve hleads).1
  rw [hpath, Path.below?_pathBelow hroot hfound.named, Option.getD_some] at hfile
  rw [hfile, hpath] at hin
  exact ⟨names, ⟨hleads, ⟨files, hfiles, hpath ▸ hlocation⟩, hfound⟩, hin, c, hc, hpath⟩

theorem exists_looksAt_of_planned {results : List Batch.Result} {edit : Patch.PlannedEdit}
    (hedit : edit ∈ Patch.plannedEdits (task.batches nodes) results) : ∃ names,
    task.LooksAt disk base names ∧
      edit.node.IsIn ("/".intercalate names) (pathBelow task.root names) ∧
      ∃ c ∈ task.candidates disk, c.location = pathBelow task.root names := by
  obtain ⟨result, -, -, batch, hbatch, -, hmem⟩ := Patch.isAskedFor_of_mem_plannedEdits hedit
  have hnode := List.mem_of_getElem? (Patch.mem_editsOf.mp hmem).2.2.1
  exact exists_looksAt htree hleads hfind (mem_of_mem_batches hbatch hnode)

/-- Every planned file is a target. -/
theorem exists_isTarget {results : List Batch.Result} {plan : Patch.FilePlan}
    (hplan : plan ∈ Patch.plans (task.batches nodes) results) :
    ∃ names, task.IsTarget disk base plan names := by
  have hplanned := Patch.arePlanned (task.batches nodes) results
  have hroot := (Disk.walk_of_resolve hleads).1
  -- The plan goes by the path of one edit, and the others have paths of the same names.
  obtain ⟨edit, hedit, hlocation⟩ := hplanned.located plan hplan
  obtain ⟨names, hlooks, hin, c, hc, hpath⟩ := exists_looksAt_of_planned htree hleads hfind hedit
  obtain ⟨first, rest, hedits, -⟩ := hplanned.exists_cons hplan
  have hsame := hlocation.symm.trans hin.2
  obtain ⟨files, -, -, -, htext⟩ := of_mem_candidates hc
  refine ⟨names, hlooks, hsame, ⟨c, hc, hpath.trans hsame.symm⟩, ?_, ⟨first, rest, hedits⟩, ?_⟩
  · rwa [hsame, ← hpath]
  intro other hother
  obtain ⟨hother, hat⟩ := List.mem_filter.mp ((hplanned.perm hplan).mem_iff.mp hother)
  obtain ⟨names', hlooks', hin', -⟩ := exists_looksAt_of_planned htree hleads hfind hother
  have heq := Path.compare_eq_iff_same.mpr hat
  rw [hin'.2, hsame] at heq
  obtain rfl := Path.eq_of_compare_pathBelow hroot hlooks'.found.named hlooks.found.named heq
  exact hsame ▸ hin'

end

namespace Task.IsTarget

variable {task : Task} {disk : Disk} {base : Location} {plan : Patch.FilePlan}
  {names : List String} (h : task.IsTarget disk base plan names)
include h

/-- A planned file is found where it was as long as no link is made. -/
theorem location_of_resolve {area : Location → Prop} {disk' : Disk} {follow : Bool}
    {place : Disk.Place} (hkeeps : KeepsTo area disk disk')
    (hresolve : disk'.resolve follow plan.location = .ok place) :
    place.location = base ++ names := by
  rw [h.location] at hresolve
  exact h.looked.location_of_resolve hkeeps hresolve

theorem exists_resolve : ∃ content, disk.get? (base ++ names) = some (.file content) ∧
    disk.resolve true plan.location = .ok ⟨base ++ names, some (.file content)⟩ := by
  obtain ⟨text, htext⟩ := h.text
  obtain ⟨location, content, hresolve⟩ := Disk.resolve_of_textAt htext
  obtain rfl : location = base ++ names :=
    h.location_of_resolve (KeepsTo.refl (fun _ => False) disk) hresolve
  exact ⟨content, (Disk.get?_of_resolve hresolve).symm, hresolve⟩

/-- A file in the session's directory is not looked at. -/
theorem outside (name : String) (rest : List String) :
    names ≠ Session.directoryName :: name :: rest := by
  intro heq
  have hentered := h.looked.found.entered Session.directoryName (by simp [heq])
  have hhidden : Session.directoryName.toList.head? = some '.' := by decide
  unfold Discovery.entersDirectory at hentered
  rw [hhidden] at hentered
  simp at hentered

theorem isProject (hlist : plan.location ≠ Path.join task.root ".gitignore") :
    Session.IsProject names :=
  ⟨fun heq => hlist (by rw [h.location, heq]; rfl), h.outside⟩

end Task.IsTarget

/-- Plans of different files lead to different places. -/
theorem pairwise_apart_of_plans {task : Task} {parser : Parser} {area : Location → Prop}
    {disk disk' : Disk} {base : Location} {stats : Stats} {nodes : List Node} (htree : disk.IsTree)
    (hleads : disk.LeadsTo task.root base)
    (hfind : task.find parser disk = .ok ⟨stats, .ok nodes⟩) (hkeeps : KeepsTo area disk disk')
    (results : List Batch.Result) : (Patch.plans (task.batches nodes) results).Pairwise fun a b =>
      disk'.Apart a.location b.location := by
  have hsorted := (Patch.arePlanned (task.batches nodes) results).sorted
  refine hsorted.imp_of_mem fun {a b} ha hb hlt place place' hplace hplace' heq => ?_
  obtain ⟨names, hfirst⟩ := exists_isTarget htree hleads hfind ha
  obtain ⟨names', hsecond⟩ := exists_isTarget htree hleads hfind hb
  rw [hfirst.location_of_resolve hkeeps hplace, hsecond.location_of_resolve hkeeps hplace'] at heq
  obtain rfl := List.append_cancel_left heq
  rw [hfirst.location, hsecond.location, Path.compare_self] at hlt
  cases hlt

end Rephrase.Run
