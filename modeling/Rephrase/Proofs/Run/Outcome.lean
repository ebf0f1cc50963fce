import Rephrase.Proofs.Disk.Fault
import Rephrase.Proofs.Node.Size
import Rephrase.Proofs.Patch.Account
import Rephrase.Proofs.Run.Change
import Rephrase.Proofs.Toml.Integer

/-! A run ends with a report, whatever the disk refuses and whatever the oracle answers, unless what
is kept for its session outlasts the calendar. -/

namespace Rephrase

open Disk (Action)

/-! ## The session -/

section

variable {faults : Fault → Prop} (root : String)

theorem Session.faultsBy_hide : Action.FaultsBy faults (Session.hide root) := by
  unfold Session.hide
  refine .bind .get fun disk => ?_
  split
  · dsimp only
    split
    · exact Disk.faultsBy_appendText _ _
    · exact .pure _
  · exact .pure _

theorem Session.faultsBy_lockToWrite : Action.FaultsBy faults (Session.lockToWrite root) := by
  unfold Session.lockToWrite Session.prepare
  refine .bind (.bind .get fun disk => ?_) fun _ => Disk.faultsBy_touch _
  split
  · exact .bind (Disk.faultsBy_makeDirectories _) fun _ => faultsBy_hide root
  · exact faultsBy_hide root

theorem History.faultsBy_append (session : String) (record : History.Record) :
    Action.FaultsBy faults (History.append root session record) :=
  .bind (Session.faultsBy_lockToWrite root) fun _ => .bind (Disk.faultsBy_makeDirectories _)
    fun _ => Disk.faultsBy_appendText _ _

theorem Store.faultsBy_set {now : Instant} {span : Int}
    (h : ∀ fault, now.after span = .error fault → faults fault) (key : String) (value : Json) :
    Action.FaultsBy faults (Store.set root now key value span) :=
  .bind (Session.faultsBy_lockToWrite root) fun _ => .bind .get fun _ => .bind (.compute h)
    fun _ => Disk.faultsBy_replaceText _ _ _

end

namespace Run

/-! ## What is kept -/

section

variable {faults : Fault → Prop}

theorem onlyFaultsBy_ignoringRefusal {action : Action Unit} (h : Action.FaultsBy faults action) :
    Action.OnlyFaultsBy faults (ignoringRefusal action) :=
  .attempt_bind h (fun _ => .pure ()) (fun _ => .pure ()) fun _ hf => .fault hf

theorem onlyFaultsBy_untilRefusal {actions : List (Action Unit)}
    (h : ∀ action ∈ actions, Action.FaultsBy faults action) :
    Action.OnlyFaultsBy faults (untilRefusal actions) := by
  induction actions with
  | nil => exact .pure true
  | cons action rest ih =>
    obtain ⟨hfirst, hrest⟩ := List.forall_mem_cons.mp h
    exact .attempt_bind hfirst (fun _ => ih hrest) (fun _ => .pure false) fun _ hf => .fault hf

end

/-- Whether what a run keeps for its session would expire at a time that is outside the calendar, or
after a span that is too long to be counted. -/
def Task.OutlastsCalendar (task : Task) (now : Instant) : Prop :=
  (task.config.sessionHours * 3600 < -Instant.longestSpan ∨
    Instant.longestSpan < task.config.sessionHours * 3600) ∨
  Calendar.covers (now.seconds + task.config.sessionHours * 3600) = false

section

variable {task : Task} {now : Instant}

theorem outlastsCalendar_of_spanOfHours {fault : Fault}
    (h : Instant.spanOfHours task.config.sessionHours = .error fault) :
    fault = .badTime ∧ task.OutlastsCalendar now := by
  unfold Instant.spanOfHours Instant.spanOfSeconds at h
  split at h
  · cases h
  · rename_i hspan
    cases h
    refine ⟨rfl, .inl ?_⟩
    simp only [Bool.and_eq_true, decide_eq_true_eq] at hspan
    omega

theorem outlastsCalendar_of_after {span : Int} {fault : Fault}
    (hspan : Instant.spanOfHours task.config.sessionHours = .ok span)
    (h : now.after span = .error fault) : fault = .badTime ∧ task.OutlastsCalendar now := by
  unfold Instant.spanOfHours Instant.spanOfSeconds at hspan
  unfold Instant.after at h
  split at hspan
  · cases hspan
    split at h
    · cases h
    · rename_i hcovers
      cases h
      exact ⟨rfl, .inr (Bool.eq_false_iff.mpr hcovers)⟩
  · cases hspan

theorem faultsBy_set (key : String) (value : Json) {span : Int}
    (hspan : Instant.spanOfHours task.config.sessionHours = .ok span) :
    Action.FaultsBy (fun fault => fault = .badTime ∧ task.OutlastsCalendar now)
      (Store.set task.root now key value span) :=
  Store.faultsBy_set task.root (fun _ => outlastsCalendar_of_after hspan) key value

theorem onlyFaultsBy_keepSnapshot (batches : List Batch) (results : List Batch.Result) :
    Action.OnlyFaultsBy (fun fault => fault = .badTime ∧ task.OutlastsCalendar now)
      (task.keepSnapshot now batches results) := by
  unfold Task.keepSnapshot
  dsimp only
  split
  · exact .pure ()
  · exact .bind .get fun disk => .compute_bind (fun _ => outlastsCalendar_of_spanOfHours)
      fun span hspan => onlyFaultsBy_ignoringRefusal (faultsBy_set _ _ hspan)

theorem onlyFaultsBy_keepRecords (patch : Patch) :
    Action.OnlyFaultsBy (fun fault => fault = .badTime ∧ task.OutlastsCalendar now)
      (task.keepRecords now patch) := by
  unfold Task.keepRecords
  refine .bind (onlyFaultsBy_untilRefusal fun addition haddition => ?_) fun complete => ?_
  · obtain ⟨record, -, rfl⟩ := List.mem_map.mp haddition
    exact History.faultsBy_append task.root task.session record
  · split
    · exact .compute_bind (fun _ => outlastsCalendar_of_spanOfHours) fun span hspan =>
        onlyFaultsBy_ignoringRefusal (faultsBy_set _ _ hspan)
    · exact .pure ()

end

/-! ## Edits -/

/-- Edits are made, or one of them is for a node with numbers that are out of their range. -/
theorem exists_run_apply (options : Patch.Options) (batches : List Batch)
    (results : List Batch.Result) (disk : Disk) :
    (∃ patch disk', (Patch.apply options batches results).run.run disk = (.ok patch, disk')) ∨
      ∃ fault plan turn edit,
        (Patch.apply options batches results).run.run disk = (.error (.fault fault), turn) ∧
        Patch.IsTurn options (Patch.plans batches results) disk plan turn ∧
        edit ∈ Patch.plannedEdits batches results ∧ Patch.IsStuck plan turn edit := by
  unfold Patch.apply
  obtain ⟨yields, disk', hturns⟩ | ⟨done, plan, rest, yields, turn, fault, hsplit, hdone, hplan⟩ :=
    Patch.yieldInTurn_or_error options (Patch.plans batches results) disk
  · exact .inl ⟨_, disk', hturns.run {}⟩
  · obtain ⟨edit, hstuck⟩ := Patch.exists_isStuck hplan
    have hmem : plan ∈ Patch.plans batches results :=
      hsplit ▸ List.mem_append_right _ List.mem_cons_self
    have hedit := ((Patch.arePlanned batches results).perm hmem).mem_iff.mp hstuck.mem
    refine .inr ⟨fault, plan, turn, edit, ?_, ⟨done, rest, _, hsplit, hdone.run {}⟩,
      (List.mem_filter.mp hedit).1, hstuck⟩
    rw [hsplit]
    exact hdone.run_error hplan {} rest

/-- Whether edits make the text of a file longer than any that can be kept. -/
def GrowsImmense (options : Patch.Options) (batches : List Batch) (results : List Batch.Result)
    (disk : Disk) : Prop :=
  ∃ plan turn file text done rest draft,
    Patch.IsTurn options (Patch.plans batches results) disk plan turn ∧
      turn.textAt plan.location = .ok text ∧ plan.edits = done ++ rest ∧
      Patch.draftOf file text.toList done = .ok draft ∧ Text.IsImmense draft.content

/-- The disk that a run finds when it comes to its edits. -/
def Task.Prepares (task : Task) (times : Times) (batches : List Batch)
    (results : List Batch.Result) (disk kept : Disk) : Prop :=
  if task.config.dryRun then kept = disk
  else (task.keepSnapshot times.before batches results).run.run disk = (.ok (), kept)

/-! ## Nodes -/

theorem exists_allNodes_of_find {task : Task} {parser : Parser} {disk : Disk} {fault : Fault}
    (h : task.find parser disk = .error fault) :
    ∃ fault', Candidate.allNodes disk parser task.config task.search.toList
      (task.candidates disk) = .error fault' := by
  unfold Task.find at h
  unfold Task.candidates
  dsimp only at h
  split at h
  · cases h
  split at h
  · cases h
  rename_i files hfiles
  rw [hfiles]
  dsimp only
  split at h
  · cases h
  cases hnodes : Candidate.allNodes disk parser task.config task.search.toList
      (Candidate.among disk task.config task.search.toList task.root files) with
  | error fault' => exact ⟨fault', rfl⟩
  | ok nodes =>
    rw [hnodes, ok_bind] at h
    split at h <;> cases h

/-! ## Runs -/

/-- A run has found nodes and asked an oracle about them. -/
structure Task.HasAsked {μ : Type} (task : Task) (parser : Parser) (oracle : Oracle μ)
    (state : μ × Disk) (nodes : List Node) (results : List Batch.Result) (state' : μ × Disk) :
    Prop where
  found : ∃ stats, task.find parser state.2 = .ok ⟨stats, .ok nodes⟩
  asked : (oracle.consultAll task.config.timeoutSeconds (task.batches nodes)).run state =
    (results, state')

/-- Whether a run comes to a text that is longer than any that can be kept: in a file that it looks
at, or in one that it edits. -/
def Task.MeetsImmense {μ : Type} (task : Task) (parser : Parser) (oracle : Oracle μ) (times : Times)
    (state : μ × Disk) : Prop :=
  (∃ c ∈ task.candidates state.2, state.2.HoldsImmense c.location) ∨
  ∃ nodes results state' kept, task.HasAsked parser oracle state nodes results state' ∧
    task.Prepares times (task.batches nodes) results state'.2 kept ∧
    GrowsImmense (.ofConfig task.config) (task.batches nodes) results kept

/-- What a change comes to, if it does not come to its end. -/
inductive Task.Breaks (task : Task) (times : Times) (batches : List Batch)
    (results : List Batch.Result) (disk : Disk) : Disk.Failure → Prop
  | late (hdry : task.config.dryRun = false)
      (hlate : task.OutlastsCalendar times.before ∨ task.OutlastsCalendar times.after) :
      task.Breaks times batches results disk (.fault .badTime)
  | stuck {kept turn : Disk} {plan : Patch.FilePlan} {edit : Patch.PlannedEdit} (fault : Fault)
      (hprepared : task.Prepares times batches results disk kept)
      (hturn : Patch.IsTurn (.ofConfig task.config) (Patch.plans batches results) kept plan turn)
      (hedit : edit ∈ Patch.plannedEdits batches results) (hstuck : Patch.IsStuck plan turn edit) :
      task.Breaks times batches results disk (.fault fault)

/-- Edits that do not come to their end are stuck. -/
theorem breaks_of_apply {task : Task} {times : Times} {batches : List Batch}
    {results : List Batch.Result} {disk kept disk' : Disk} {failure : Disk.Failure}
    (hprepared : task.Prepares times batches results disk kept)
    (h : (Patch.apply (.ofConfig task.config) batches results).run.run kept =
      (.error failure, disk')) : task.Breaks times batches results disk failure := by
  obtain ⟨patch, edited, happly⟩ | ⟨fault, plan, turn, edit, happly, hturn, hedit, hstuck⟩ :=
    exists_run_apply (.ofConfig task.config) batches results kept
  · cases h.symm.trans happly
  · cases h.symm.trans happly
    exact .stuck fault hprepared hturn hedit hstuck

theorem breaks_of_commit {task : Task} {times : Times} {batches : List Batch}
    {results : List Batch.Result} {disk disk' : Disk} {failure : Disk.Failure}
    (h : (task.commit times batches results).run.run disk = (.error failure, disk')) :
    task.Breaks times batches results disk failure := by
  cases hdry : task.config.dryRun with
  | true =>
    have hprepared : task.Prepares times batches results disk disk := by
      unfold Task.Prepares
      rw [hdry, if_pos rfl]
    rw [commit_of_dry hdry] at h
    exact breaks_of_apply hprepared h
  | false =>
    rw [commit_of_real hdry] at h
    obtain hkeep | ⟨_, kept, hkeep, h⟩ := Disk.of_run_bind_error h
    · obtain ⟨fault, rfl, rfl, hlate⟩ := (onlyFaultsBy_keepSnapshot batches results).of_run hkeep
      exact .late hdry (.inl hlate)
    have hprepared : task.Prepares times batches results disk kept := by
      unfold Task.Prepares
      rwa [hdry, if_neg Bool.false_ne_true]
    obtain happly | ⟨patch, edited, -, h⟩ := Disk.of_run_bind_error h
    · exact breaks_of_apply hprepared happly
    obtain hrecord | ⟨_, after, -, h⟩ := Disk.of_run_bind_error h
    · obtain ⟨fault, rfl, rfl, hlate⟩ := (onlyFaultsBy_keepRecords patch).of_run hrecord
      exact .late hdry (.inr hlate)
    · cases h

/-- An edit that has no place in a text is for a node of another one, and one of them is long. -/
theorem meetsImmense_of_isStuck {μ : Type} {task : Task} {parser : Parser} {oracle : Oracle μ}
    {times : Times} {state state' : μ × Disk} {nodes : List Node} {results : List Batch.Result}
    {kept turn : Disk} {plan : Patch.FilePlan} {edit : Patch.PlannedEdit}
    (hasked : task.HasAsked parser oracle state nodes results state')
    (hprepared : task.Prepares times (task.batches nodes) results state'.2 kept)
    (hturn : Patch.IsTurn (.ofConfig task.config) (Patch.plans (task.batches nodes) results) kept
      plan turn)
    (hedit : edit ∈ Patch.plannedEdits (task.batches nodes) results)
    (hstuck : Patch.IsStuck plan turn edit) : task.MeetsImmense parser oracle times state := by
  obtain ⟨result, -, -, batch, hbatch, -, hmem⟩ := Patch.isAskedFor_of_mem_plannedEdits hedit
  have hnode := List.mem_of_getElem? (Patch.mem_editsOf.mp hmem).2.2.1
  obtain ⟨stats, hfind⟩ := hasked.found
  obtain ⟨c, hc, source, text, hrecorded, htext, hcontent⟩ :=
    Candidate.isRecorded_of_mem_allNodes (allNodes_of_find hfind)
      (mem_of_mem_batches hbatch hnode)
  obtain ⟨file, text', done, rest, draft, htext', hsplit, hdraft, hrange⟩ := hstuck.outOfRange
  obtain himmense | himmense := hrecorded.isImmense hrange
  · exact .inl ⟨c, hc, text, htext, hcontent ▸ himmense⟩
  · exact .inr ⟨nodes, results, state', kept, hasked, hprepared, plan, turn, file, text', done,
      edit :: rest, draft, hturn, htext', hsplit, hdraft, himmense⟩

/-- With settings from a text a run ends with a report, unless what it keeps for its session, after
it has asked the oracle, outlasts the calendar, or a text is longer than any that can be kept. -/
theorem reports_of_run {μ : Type} {toml : List Char} {task : Task}
    (hconfig : Config.ofToml? toml = some task.config) (parser : Parser) (oracle : Oracle μ)
    (times : Times) (memory : μ) (disk : Disk) :
    ∃ outcome state, (task.run parser oracle times).run.run (memory, disk) = (outcome, state) ∧
      ((∃ report, outcome = .ok report) ∨
        (outcome = .error (.fault .badTime) ∧ task.config.dryRun = false ∧
          (∃ nodes results state',
            task.HasAsked parser oracle (memory, disk) nodes results state') ∧
          (task.OutlastsCalendar times.before ∨ task.OutlastsCalendar times.after)) ∨
        (∃ fault, outcome = .error (.fault fault)) ∧
          task.MeetsImmense parser oracle times (memory, disk)) := by
  have hcontext := Config.contextLines_lt_of_ofToml? hconfig
  cases hfind : task.find parser disk with
  | error fault =>
    obtain ⟨fault', hnodes⟩ := exists_allNodes_of_find hfind
    exact ⟨_, _, run_of_fault hfind oracle times memory, .inr (.inr ⟨⟨fault, rfl⟩,
      .inl (Candidate.holdsImmense_of_allNodes hcontext hnodes)⟩)⟩
  | ok found =>
    -- With nothing to ask about the run ends here, with a report.
    obtain ⟨stats, ending | nodes⟩ := found
    · exact ⟨_, _, run_of_ending hfind oracle times memory, .inl ⟨_, rfl⟩⟩
    rcases hconsult : (oracle.consultAll task.config.timeoutSeconds (task.batches nodes)).run
      (memory, disk) with ⟨results, memory', middle⟩
    have hasked : task.HasAsked parser oracle (memory, disk) nodes results (memory', middle) :=
      ⟨⟨stats, hfind⟩, hconsult⟩
    refine ⟨_, _, run_of_find hfind hconsult, ?_⟩
    rcases hcommit : (task.commit times (task.batches nodes) results).run.run middle with
      ⟨outcome, after⟩
    cases outcome with
    | ok patch => exact .inl ⟨_, rfl⟩
    | error failure =>
      cases breaks_of_commit hcommit with
      | late hdry hlate =>
        exact .inr (.inl ⟨rfl, hdry, ⟨nodes, results, _, hasked⟩, hlate⟩)
      | stuck fault hprepared hturn hedit hstuck =>
        exact .inr (.inr ⟨⟨fault, rfl⟩,
          meetsImmense_of_isStuck hasked hprepared hturn hedit hstuck⟩)

theorem extensions_clean :
    ({} : Config).extensions.map Config.cleanExtension = ({} : Config).extensions := by
  decide +kernel

/-- The settings of the note's task as they are read, which moves shares into their range. -/
def readConfig : Config :=
  noteConfig (Config.clampShare 0.6) (Config.clampShare 0.4) (Config.clampShare 0.6)

theorem ofToml?_note : Config.ofToml? "generate_diffs = false".toList = some readConfig := by
  have htext : Toml.ofText? "generate_diffs = false".toList =
      some (.table [("generate_diffs", .boolean false)]) := by cbv
  unfold Config.ofToml?
  rw [htext]
  show some (({ generateDiffs := false } : Config).sensible) = _
  unfold Config.sensible
  dsimp only
  rw [extensions_clean]
  rfl

/-- The note is changed, and this is reported. -/
theorem reports_of_note :
    Config.ofToml? "generate_diffs = false".toList = some (noteTask.withConfig readConfig).config ∧
    ∃ report state, ((noteTask.withConfig readConfig).run noParser answering midnight).run.run
      ((), noteDisk) = (.ok report, state) := by
  obtain ⟨outcome, state, hrun, hreport⟩ := reports_of_run
    (show _ = some (noteTask.withConfig readConfig).config from ofToml?_note) noParser answering
    midnight () noteDisk
  obtain ⟨report, hnote, -⟩ := run_note_with (Config.clampShare 0.6) (Config.clampShare 0.4)
    (Config.clampShare 0.6)
  have houtcome : outcome = .ok report := (Prod.mk.inj (hrun.symm.trans hnote)).1
  refine ⟨ofToml?_note, ?_⟩
  obtain ⟨report', rfl⟩ | ⟨rfl, -⟩ | ⟨⟨fault, rfl⟩, -⟩ := hreport
  · exact ⟨report', state, hrun⟩
  · cases houtcome
  · cases houtcome

/-! ## A run that is not -/

/-- A span that is too long is only noticed when something is to be kept. -/
theorem run_commit_late {task : Task} {batches : List Batch} {results : List Batch.Result}
    {fault : Fault} (hdry : task.config.dryRun = false)
    (hsome : (targets batches results).isEmpty = false)
    (hspan : Instant.spanOfHours task.config.sessionHours = .error fault) (times : Times)
    (disk : Disk) : (task.commit times batches results).run.run disk =
      (.error (.fault fault), disk) := by
  have hkeep : (task.keepSnapshot times.before batches results).run.run disk =
      (.error (.fault fault), disk) := by
    unfold Task.keepSnapshot
    dsimp only
    rw [hsome, if_neg Bool.false_ne_true, Disk.run_bind_ok (Disk.run_get disk), hspan]
    rfl
  rw [commit_of_real hdry]
  exact Disk.run_bind_error hkeep _

/-- The same settings with a session that is to be kept for as long as can be said. -/
def lastingConfig : Config := { readConfig with sessionHours := 0x7fffffffffffffff }

def lastingText : String := "generate_diffs = false\nsession_ttl_hours = 9223372036854775807"

theorem ofToml?_lasting : Config.ofToml? lastingText.toList = some lastingConfig := by
  have htext : Toml.ofText? lastingText.toList = some (.table
      [("generate_diffs", .boolean false),
        ("session_ttl_hours", .integer 9223372036854775807)]) := by cbv
  unfold Config.ofToml?
  rw [htext]
  show some (({ generateDiffs := false, sessionHours := 0x7fffffffffffffff } : Config).sensible) = _
  unfold Config.sensible
  dsimp only
  rw [extensions_clean]
  rfl

theorem files_lasting : Discovery.files noteDisk lastingConfig "/" = .ok ["/a.md"] := by
  have hany : ∀ a b c, Discovery.files noteDisk
      { noteConfig a b c with sessionHours := 0x7fffffffffffffff } "/" = .ok ["/a.md"] := by
    intro a b c
    cbv
  exact hany _ _ _

/-- The oracle has been asked, but there is no report. -/
theorem lasting_session_unreported :
    Config.ofToml? lastingText.toList = some (noteTask.withConfig lastingConfig).config ∧
    ∃ exchange, ((noteTask.withConfig lastingConfig).run noParser answering.noting
      midnight).run.run (([], ()), noteDisk) =
        (.error (.fault .badTime), (([exchange], ()), noteDisk)) := by
  have htext : noteDisk.textAt "/a.md" = .ok "Sign in" := by cbv
  have hfind := find_note_with htext rfl files_lasting
  have hbatches : ∀ weight, (noteTask.withConfig lastingConfig).batches [noteNode weight] =
      [noteBatch weight (mean [weight])] := batches_note
  generalize Node.Kind.lineMatch.relevance = weight at hfind
  obtain ⟨exchange, hconsult, -⟩ := exists_consult_noting noteDisk weight (mean [weight])
  rw [← hbatches weight] at hconsult
  have htargets : (targets ((noteTask.withConfig lastingConfig).batches [noteNode weight])
      [noteResult Oracle.unstatedConfidence
        (mean [Oracle.unstatedConfidence])]).isEmpty = false := by
    rw [hbatches]
    rfl
  have hspan : Instant.spanOfHours (noteTask.withConfig lastingConfig).config.sessionHours =
      .error .badTime := by
    show Instant.spanOfHours 0x7fffffffffffffff = _
    decide
  have hcommit := run_commit_late rfl htargets hspan midnight noteDisk
  refine ⟨ofToml?_lasting, exchange, ?_⟩
  rw [run_of_find hfind hconsult, hcommit]
  rfl

end Run

end Rephrase
