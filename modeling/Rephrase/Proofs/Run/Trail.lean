import Mathlib
import Rephrase.Proofs.Run.Open
import Rephrase.Proofs.Session.History

/-! The history of a session tells of all that was done in it: what was added by hand and what its runs
have done to their files, in the order in which it happened. -/

namespace Rephrase.Run

open Disk (Action Location)
open History (Tells)
open Json (Number)
open Session (Differs IsReady directoryName)

/-! ## The records of a run -/

/-- The lines that a patch tells of are counts like others. -/
def CountsLines (patch : Patch) : Prop :=
  (∀ edit ∈ patch.applied, edit.line < Fault.wordLimit) ∧
    ∀ edit ∈ patch.skipped, edit.line < Fault.wordLimit

/-- Details that hold nothing nested are read again. -/
theorem isSound_of_members {r : History.Record} {members : List (String × Json)}
    (htime : r.time.IsPlain) (hdetails : r.details = .object members)
    (hnormal : (Json.object members).normalize = .object members)
    (hflat : ∀ m ∈ members, m.2.allNumbers Number.isWord = true ∧ m.2.depth = 0) : r.IsSound where
  time := htime
  numbers := by
    rw [hdetails]
    exact Json.allNumbers_object_iff.mpr fun m hm => (hflat m hm).1
  normal := by rw [hdetails, hnormal]
  depth := by
    rw [hdetails]
    exact Json.depth_object_le_iff.mpr fun m hm => (hflat m hm).2 ▸ Nat.zero_le _

/-- What a run tells of its edits is read again as it was written. -/
theorem isSound_records {task : Task} {now : Instant} {patch : Patch} (hnow : now.IsPlain)
    (hlines : CountsLines patch) : ∀ r ∈ task.records now patch, r.IsSound := by
  have hmember : ∀ {n : Nat}, n < Fault.wordLimit →
      (Json.ofNat n).allNumbers Number.isWord = true ∧ (Json.ofNat n).depth = 0 :=
    fun hn => ⟨Json.allNumbers_ofNat hn, rfl⟩
  have hstring : ∀ s, (Json.string s).allNumbers Number.isWord = true ∧ (Json.string s).depth = 0 :=
    fun _ => ⟨rfl, rfl⟩
  unfold Task.records
  refine List.forall_mem_append.mpr ⟨List.forall_mem_append.mpr ⟨?_, ?_⟩, ?_⟩
  · refine List.forall_mem_map.mpr fun edit hedit =>
      isSound_of_members hnow rfl (by cbv) (List.forall_mem_singleton.mpr ?_)
    exact hmember (hlines.1 edit hedit)
  · refine List.forall_mem_map.mpr fun edit hedit => ?_
    have hdetails : (task.recordOfSkipped now edit).details = .object [("batchId",
        .string edit.batchId), ("line", .ofNat edit.line), ("reason", .string edit.reason)] := by
      unfold Task.recordOfSkipped
      cbv
    refine isSound_of_members hnow hdetails (by cbv) (List.forall_mem_cons.mpr ⟨hstring _, ?_⟩)
    exact List.forall_mem_cons.mpr
      ⟨hmember (hlines.2 edit hedit), List.forall_mem_singleton.mpr (hstring _)⟩
  · exact List.forall_mem_map.mpr fun failure _ =>
      isSound_of_members hnow rfl (by cbv) (List.forall_mem_singleton.mpr (hstring _))

theorem isCounted_of_apply {options : Patch.Options} {batches : List Batch}
    {results : List Batch.Result} {patch : Patch} {disk disk' : Disk}
    (h : (Patch.apply options batches results).run.run disk = (.ok patch, disk')) :
    patch.IsCounted := by
  obtain ⟨yields, hturns, rfl⟩ := Patch.exists_yields_of_apply h
  exact (Patch.arePlanned batches results).isCounted_sum hturns.forall₂

/-- A completed run has one record for every edit that it has applied, then one for every proposal that
it has not, then one for every file that it could not write. -/
theorem kinds_of_run {μ : Type} {task : Task} {parser : Parser} {oracle : Oracle μ} {times : Times}
    {memory memory' : μ} {before after : Disk} {report : Report} (hquiet : oracle.IsQuiet)
    (hrun : (task.run parser oracle times).run.run (memory, before) =
      (.ok report, (memory', after))) (hcompleted : report.status = .completed) (now : Instant) :
    (task.records now (task.patchOf parser times before report.batchResults)).map (·.kind) =
      List.replicate report.stats.applied "modification" ++
        List.replicate report.stats.skipped "skipped" ++
          List.replicate report.stats.writeFailures "write_failure" := by
  cases cameTo_of_run hquiet hrun with
  | @ended stats ending => cases ending <;> cases hcompleted
  | @completed stats nodes results patch _ hfound hcommit =>
    have hcounted : patch.IsCounted := by
      cases hdry : task.config.dryRun with
      | true => exact isCounted_of_apply (apply_of_commit hcommit hdry)
      | false =>
        obtain ⟨_, _, -, happly, -⟩ := of_commit hcommit hdry
        exact isCounted_of_apply happly
    have hkind : ∀ {α : Type} (xs : List α) (f : α → History.Record) (kind : String),
        (∀ x, (f x).kind = kind) → (xs.map f).map (·.kind) = List.replicate xs.length kind := by
      intro α xs f kind hkind
      rw [List.map_map, ← List.map_const']
      exact List.map_congr_left fun x _ => hkind x
    rw [show task.patchOf parser times before
      (task.completed stats (task.batches nodes) results patch).batchResults = patch from
        patchOf_of_commit hfound hcommit, Task.records, List.map_append, List.map_append,
      hkind _ _ "modification" fun _ => rfl, hkind _ _ "skipped" fun _ => rfl,
      hkind _ _ "write_failure" fun _ => rfl, ← hcounted]
    rfl

/-! ## Histories with runs -/

section

variable {root session : String} {base : Location} {records : List History.Record}
  {before after : Disk} (h : Tells root session base records before)
include h

/-- Records that were all added stand at the end of the history. -/
theorem tells_of_untilRefusal {added : List History.Record}
    (hrun : (untilRefusal (added.map (History.append root session))).run.run before =
      (.ok true, after)) : Tells root session base (records ++ added) after := by
  induction added generalizing records before with
  | nil =>
    rw [List.map_nil, untilRefusal, Disk.run_pure] at hrun
    cases hrun
    rwa [List.append_nil]
  | cons r rest ih =>
    rw [List.map_cons, untilRefusal] at hrun
    obtain ⟨result, middle, hattempt, hrest⟩ := Disk.of_run_bind hrun
    have hleads : Action.Leads (· = before) (History.append root session r).attempt _
      fun _ _ => False := (History.leads_append h.settled r).attempt
    have hadded := hleads.ok rfl hattempt
    cases result with
    | ok _ =>
      rw [List.append_cons]
      exact ih (h.added hadded) hrest
    | error failure => cases failure <;> cases hrest

end

/-- Edits leave the session's directory alone. -/
theorem differs_of_apply {task : Task} {parser : Parser} {options : Patch.Options} {stats : Stats}
    {nodes : List Node} {results : List Batch.Result} {patch : Patch} {before kept edited : Disk}
    {base : Location} {area : Location → Prop} (htree : before.IsTree)
    (hleads : before.LeadsTo task.root base)
    (hfind : task.find parser before = .ok ⟨stats, .ok nodes⟩)
    (hkept : Disk.KeepsTo area before kept) (htree' : kept.IsTree)
    (happly : (Patch.apply options (task.batches nodes) results).run.run kept =
      (.ok patch, edited)) :
    Differs base (fun names => ∀ name rest, names ≠ directoryName :: name :: rest) kept edited := by
  have hturn := Patch.editedInTurn_of_foldlM happly
  refine ⟨hturn.keepsTo.mono ?_, hturn.isTree htree', fun _ hmade => .inl (hturn.directory hmade)⟩
  rintro location ⟨plan, hplan, ⟨place, hresolve, rfl⟩, -⟩
  obtain ⟨names, htarget⟩ := exists_isTarget htree hleads hfind hplan
  exact ⟨names, htarget.outside, htarget.location_of_resolve hkept hresolve⟩

/-- Whether all records of a change are added to the history, when it comes to their turn. -/
def Task.RecordsAll (task : Task) (times : Times) (batches : List Batch)
    (results : List Batch.Result) (before : Disk) : Prop :=
  ∃ kept edited patch recorded,
    (task.keepSnapshot times.before batches results).run.run before = (.ok (), kept) ∧
    (Patch.apply (.ofConfig task.config) batches results).run.run kept = (.ok patch, edited) ∧
    (untilRefusal ((task.records times.after patch).map
      (History.append task.root task.session))).run.run edited = (.ok true, recorded)

theorem tells_of_commit {task : Task} {parser : Parser} {times : Times} {stats : Stats}
    {nodes : List Node} {results : List Batch.Result} {patch : Patch} {before after : Disk}
    {base : Location} {records : List History.Record}
    (h : Tells task.root task.session base records before)
    (hfind : task.find parser before = .ok ⟨stats, .ok nodes⟩)
    (hdry : task.config.dryRun = false)
    (hrecords : task.RecordsAll times (task.batches nodes) results before)
    (hcommit : (task.commit times (task.batches nodes) results).run.run before =
      (.ok patch, after)) :
    Tells task.root task.session base (records ++ task.records times.after patch) after := by
  obtain ⟨kept, edited, hkeep, happly, hrecord⟩ := of_commit hcommit hdry
  obtain ⟨kept', edited', patch', recorded, hkeep', happly', huntil⟩ := hrecords
  obtain rfl : kept = kept' := (Prod.mk.inj (hkeep.symm.trans hkeep')).2
  obtain ⟨hpatch, rfl⟩ := Prod.mk.inj (happly.symm.trans happly')
  obtain rfl := Except.ok.inj hpatch
  -- What is set in the store leaves the history alone, and so do the edits.
  have hset : ∀ {disk}, Session.IsSettled task.root task.session base disk →
      ∀ now key value span, Action.Holds (Differs base (· ∈ Store.writtenPlaces) disk)
        (Store.set task.root now key value span) :=
    fun hdisk => Store.holds_set (Session.admits_differs hdisk.ready _) fun _ => id
  have hplace : [directoryName, "sessions", History.fileName task.session] ∉
      Store.writtenPlaces := by
    simp [Store.writtenPlaces, Store.places, Session.lockPlaces]
  have hkept := (holds_keepSnapshot (hset h.settled) _ _ _).of_run (.refl h.settled.tree) hkeep
  have hedited := differs_of_apply h.settled.tree h.settled.ready.leads hfind hkept.keeps hkept.tree
    happly
  have htells := tells_of_untilRefusal
    ((h.of_differs hkept hplace).of_differs hedited fun houtside => houtside _ _ rfl) huntil
  unfold Task.keepRecords at hrecord
  dsimp only at hrecord
  rw [Disk.run_bind_ok huntil, if_pos rfl] at hrecord
  have hsummary : Action.Holds (Differs base (· ∈ Store.writtenPlaces) recorded) (do
      let span ← Action.compute (Instant.spanOfHours task.config.sessionHours)
      ignoringRefusal (Store.set task.root times.after summaryKey
        (task.summary times.after patch) span)) :=
    (Action.Holds.compute _).bind fun _ => holds_ignoringRefusal (hset htells.settled _ _ _ _)
  exact htells.of_differs (hsummary.of_run (.refl htells.settled.tree) hrecord) hplace

/-- What is done to a project in a session, with the records that this leaves: some are added by hand,
and runs that are no rehearsals leave theirs. -/
inductive Trail (root session : String) (before : Disk) : List History.Record → Disk → Prop
  | start : Trail root session before [] before
  | append {records : List History.Record} {r : History.Record} {middle after : Disk}
      (h : Trail root session before records middle) (hsound : r.IsSound)
      (hrun : (History.append root session r).run.run middle = (.ok (), after)) :
      Trail root session before (records ++ [r]) after
  | run {μ : Type} {task : Task} {parser : Parser} {oracle : Oracle μ} {times : Times}
      {memory memory' : μ} {records : List History.Record} {middle after : Disk} {report : Report}
      (h : Trail root session before records middle) (hroot : task.root = root)
      (hsession : task.session = session) (hdry : task.config.dryRun = false)
      (hquiet : oracle.IsQuiet) (hclock : times.after.IsPlain)
      (hlines : CountsLines (task.patchOf parser times middle report.batchResults))
      (hrecords : ∀ stats nodes, task.find parser middle = .ok ⟨stats, .ok nodes⟩ →
        task.RecordsAll times (task.batches nodes) report.batchResults middle)
      (hrun : (task.run parser oracle times).run.run (memory, middle) =
        (.ok report, (memory', after))) :
      Trail root session before
        (records ++ task.records times.after (task.patchOf parser times middle report.batchResults))
        after

theorem Trail.tells {root session : String} {base : Location} {records : List History.Record}
    {before after : Disk} (h : Trail root session before records after)
    (hbefore : Tells root session base [] before) :
    Tells root session base records after ∧ ∀ r ∈ records, r.IsSound := by
  induction h with
  | start => exact ⟨hbefore, nofun⟩
  | append _ hsound hrun ih =>
    refine ⟨ih.1.added ((History.leads_append ih.1.settled _).ok rfl hrun), ?_⟩
    exact List.forall_mem_append.mpr ⟨ih.2, List.forall_mem_singleton.mpr hsound⟩
  | @run _ task parser _ times _ _ records middle after report _ hroot hsession hdry hquiet hclock
      hlines hrecords hrun ih =>
    refine ⟨?_, List.forall_mem_append.mpr ⟨ih.2, isSound_records hclock hlines⟩⟩
    subst hroot hsession
    cases cameTo_of_run hquiet hrun with
    | ended hfound =>
      have hnone : ∀ results, task.patchOf parser times middle results = {} := by
        intro results
        unfold Task.patchOf
        rw [hfound]
      rw [hnone]
      exact (List.append_nil records).symm ▸ ih.1
    | completed hfound hcommit =>
      rw [Task.completed, patchOf_of_commit hfound hcommit]
      exact tells_of_commit ih.1 hfound hdry (hrecords _ _ hfound) hcommit

/-- The history of a session that had none tells of all that was done in it, first of what was done
first. -/
theorem load_of_trail {root session : String} {base : Location} {records : List History.Record}
    {before after : Disk} (hready : IsReady root session base before) (htree : before.IsTree)
    (habsent : before.get? (base ++ [directoryName, "sessions", History.fileName session]) = none)
    (h : Trail root session before records after) :
    (∃ locked, (History.load root session).run.run after = (.ok records, locked)) ∧
      ∀ {μ : Type} {task : Task} {parser : Parser} {oracle : Oracle μ} {times : Times}
        {memory memory' : μ} {disk disk' : Disk} {report : Report}, oracle.IsQuiet →
        (task.run parser oracle times).run.run (memory, disk) = (.ok report, (memory', disk')) →
        report.status = .completed →
          (task.records times.after
            (task.patchOf parser times disk report.batchResults)).map (·.kind) =
              List.replicate report.stats.applied "modification" ++
                List.replicate report.stats.skipped "skipped" ++
                  List.replicate report.stats.writeFailures "write_failure" := by
  obtain ⟨htells, hsound⟩ := h.tells (History.tells_nil hready htree habsent)
  exact ⟨htells.exists_run_load hsound,
    fun hquiet hrun hcompleted => kinds_of_run hquiet hrun hcompleted _⟩

/-! ## A session with a run -/

/-- A project with a note, where no session was yet. -/
def freshDisk : Disk := { entries := [(["a.md"], .file "Sign in".toUTF8)] }

theorem isOpen_fresh : Session.IsOpen "/" "s-1" [] freshDisk :=
  Session.isOpen_of_fits (Disk.leadsTo_top _) (by decide) rfl (by decide) (by decide)

theorem files_fresh : Discovery.files freshDisk noteTask.config "/" = .ok ["/a.md"] := by
  have hany : ∀ a b c, Discovery.files freshDisk
      { generateDiffs := false, fragmentMinCoverage := a, keyPhraseThreshold := b,
        wordMajorityThreshold := c } "/" = .ok ["/a.md"] := by
    intro a b c
    cbv
  exact hany _ _ _

/-- A run on a note leaves a trail. -/
theorem trail_of_note {disk after : Disk}
    (hfile : disk.get? ["a.md"] = some (.file "Sign in".toUTF8))
    (hfiles : Discovery.files disk noteTask.config "/" = .ok ["/a.md"])
    (hrecords : noteTask.RecordsAll midnight noteBatches noteResults disk)
    (hcommit : (noteTask.commit midnight noteBatches noteResults).run.run disk =
      (.ok notePatch, after)) :
    Trail "/" "s-1" disk (noteTask.records midnight.after notePatch) after := by
  have hclock : midnight.after.IsPlain := ⟨by decide, .inl (by decide)⟩
  have hfind := find_note_of_file hfile hfiles
  have hpatch : noteTask.patchOf noParser midnight disk noteReport.batchResults = notePatch :=
    patchOf_of_commit hfind hcommit
  have hlines : CountsLines
      (noteTask.patchOf noParser midnight disk noteReport.batchResults) := by
    rw [hpatch]
    exact ⟨List.forall_mem_singleton.mpr (by decide), nofun⟩
  have hrecords' : ∀ stats nodes, noteTask.find noParser disk = .ok ⟨stats, .ok nodes⟩ →
      noteTask.RecordsAll midnight (noteTask.batches nodes) noteReport.batchResults disk := by
    intro stats nodes hfound
    obtain ⟨-, hnodes⟩ := Found.mk.inj (Except.ok.inj (hfind.symm.trans hfound))
    obtain rfl := Except.ok.inj hnodes
    exact hrecords
  have htrail : Trail "/" "s-1" disk ([] ++ noteTask.records midnight.after
      (noteTask.patchOf noParser midnight disk noteReport.batchResults)) after :=
    .run .start rfl rfl rfl (fun _ _ _ => rfl) hclock hlines hrecords'
      (run_note_of_commit hfile hfiles hcommit)
  rwa [hpatch, List.nil_append] at htrail

/-- Nothing stands in the way of what comes next. -/
theorem exists_trail_note : ∃ after,
    Trail "/" "s-1" freshDisk (noteTask.records midnight.after notePatch) after ∧
      Session.IsOpen "/" "s-1" [] after := by
  have hexpires : midnight.after.after 86400 = .ok ⟨86400, 0⟩ := by cbv
  obtain ⟨_, kept, -, hkeep, -, -, happly, hedited⟩ := exists_edited_note rfl isOpen_fresh
  have hopen : Session.IsOpen noteTask.root noteTask.session [] _ := hedited
  obtain ⟨recorded, hadditions, hrecorded⟩ :=
    exists_additions hopen (noteTask.records midnight.after notePatch)
  obtain ⟨after, -, hrecord, hopen', -⟩ :=
    exists_keepRecords_of_additions hrecorded span_note hexpires hadditions
  exact ⟨after, trail_of_note rfl files_fresh
    ⟨kept, _, notePatch, recorded, hkeep, happly, hadditions⟩
    (run_commit rfl hkeep happly hrecord), hopen'⟩

/-- What a run has done to the note is told of first, then what was added by hand. -/
theorem load_of_note_trail : IsReady "/" "s-1" [] freshDisk ∧ freshDisk.IsTree ∧
    freshDisk.get? [directoryName, "sessions", "s-1.jsonl"] = none ∧ ∃ after locked,
      Trail "/" "s-1" freshDisk
        (noteTask.records midnight.after notePatch ++ [History.someRecord]) after ∧
      (History.load "/" "s-1").run.run after =
        (.ok (noteTask.records midnight.after notePatch ++ [History.someRecord]), locked) := by
  have hready := isOpen_fresh.settled.ready
  have htree := isOpen_fresh.settled.tree
  obtain ⟨middle, htrail, hopen⟩ := exists_trail_note
  obtain ⟨after, hrun, -⟩ := hopen.exists_append History.someRecord
  have htrail' := htrail.append History.isSound_someRecord hrun
  obtain ⟨⟨locked, hload⟩, -⟩ := load_of_trail hready htree rfl htrail'
  exact ⟨hready, htree, rfl, after, locked, htrail', hload⟩

/-! ## A history that is lost -/

/-- A project with a note, where the history of a session is a link to another file of the session's
directory. -/
def tiedDisk (name : String) : Disk :=
  { entries := [(["a.md"], .file "Sign in".toUTF8), ([directoryName], .directory),
      ([directoryName, "sessions"], .directory),
      ([directoryName, "sessions", "s-1.jsonl"], .link ("../" ++ name))] }

/-- The names of the files that the link leads to here. -/
def storeNames : List String := ["store.json", "store.tmp"]

/-- A disk with such a link, where another session has its place. -/
structure IsTied (name : String) (disk : Disk) : Prop where
  opened : Session.IsOpen "/" "s-2" [] disk
  stands : Disk.Stands (tiedDisk name) disk

section

variable {name : String} (hname : name ∈ storeNames)
include hname

theorem isTied_tiedDisk : IsTied name (tiedDisk name) := by
  refine ⟨?_, fun _ _ hentry _ => hentry⟩
  unfold storeNames at hname
  simp only [List.mem_cons, List.not_mem_nil, or_false] at hname
  obtain rfl | rfl := hname
  · exact Session.isOpen_of_fits (Disk.leadsTo_top _) (by decide) rfl (by decide) (by decide)
  · exact Session.isOpen_of_fits (Disk.leadsTo_top _) (by decide) rfl (by decide) (by decide)

theorem isUsed_of_mem_storeNames (session : String) :
    Session.IsUsed session [directoryName, name] := by
  unfold storeNames at hname
  simp only [List.mem_cons, List.not_mem_nil, or_false] at hname
  obtain rfl | rfl := hname
  · exact .inside (by decide)
  · exact .inside (by decide)

variable {disk : Disk} (h : IsTied name disk)
include h

/-- What is added to the history is added to the file. -/
theorem IsTied.resolve_history : disk.resolve true "/.retext/sessions/s-1.jsonl" =
    .ok ⟨[directoryName, name], disk.get? [directoryName, name]⟩ := by
  have hdirectory : disk.get? [directoryName] = some .directory :=
    h.stands _ _ rfl Disk.not_isFile_directory
  have hsessions : disk.get? [directoryName, "sessions"] = some .directory :=
    h.stands _ _ rfl Disk.not_isFile_directory
  have hlink : disk.get? [directoryName, "sessions", "s-1.jsonl"] = some (.link ("../" ++ name)) :=
    h.stands _ _ rfl (Disk.not_isFile_link _)
  have hused := isUsed_of_mem_storeNames hname "s-2"
  -- The link goes up from the sessions, to a file of the store beside them.
  obtain ⟨hsize, hsteps, hrelative⟩ : name.utf8ByteSize ≤ Disk.maxName ∧
      Disk.steps ("../" ++ name) = ["..", name] ∧ Path.isAbsolute ("../" ++ name) = false := by
    unfold storeNames at hname
    simp only [List.mem_cons, List.not_mem_nil, or_false] at hname
    obtain rfl | rfl := hname <;> decide
  have hstart : Disk.startOf [directoryName, "sessions"] ("../" ++ name) =
      [directoryName, "sessions"] := by
    unfold Disk.startOf
    rw [hrelative, if_neg Bool.false_ne_true]
  have hend : disk.walk true 39 [directoryName] [name] =
      .ok ⟨[directoryName, name], disk.get? [directoryName, name]⟩ :=
    Disk.walk_names true 39 (List.forall_mem_singleton.mpr ⟨hused.named name (by simp), hsize⟩)
      trivial (h.opened.settled.ready.unlinked _ hused)
  have hlinked : disk.walk true (39 + 1) [directoryName, "sessions"] ["s-1.jsonl"] =
      .ok ⟨[directoryName, name], disk.get? [directoryName, name]⟩ := by
    rw [Disk.walk_link 39 [] (by decide) (by decide) hlink (by simp [String.append_eq_empty_iff]),
      hstart, hsteps, List.append_nil, Disk.walk, if_neg (by decide), if_pos rfl]
    exact hend
  have hwalk : disk.resolve true "/.retext/sessions/s-1.jsonl" =
      disk.walk true Disk.maxLinks [] [directoryName, "sessions", "s-1.jsonl"] :=
    Disk.resolve_absolute true (by decide)
  rw [hwalk, Disk.walk_directory _ _ _ (by decide) (by decide) hdirectory,
    Disk.walk_directory _ _ _ (by decide) (by decide) hsessions]
  exact hlinked

/-- What is added to the history is added to the file that it leads to. -/
theorem IsTied.exists_append (r : History.Record) : ∃ content added,
    (History.append "/" "s-1" r).run.run disk = (.ok (), added) ∧ IsTied name added ∧
    (disk.get? [directoryName, name] = some (.file content) ∨
      disk.get? [directoryName, name] = none ∧ content = ByteArray.empty) ∧
    added.get? [directoryName, name] = some (.file (content ++ (History.line r).toUTF8)) := by
  have hused := isUsed_of_mem_storeNames hname "s-2"
  have hplaces : [directoryName, name] ∉ Session.directoryPlaces ∧
      [directoryName, name] ∉ Session.lockPlaces := by
    unfold storeNames at hname
    simp only [List.mem_cons, List.not_mem_nil, or_false] at hname
    obtain rfl | rfl := hname <;> decide
  -- The lock is taken first, and changes neither the link nor the file behind it.
  obtain ⟨locked, hlock, hopen, hdirectory⟩ := h.opened.exists_lockToWrite
  have hdiffers : Differs [] (· ∈ Session.lockPlaces) disk locked :=
    ((Session.admits_differs h.opened.settled.ready _).leads_lockToWrite fun _ => id).ok
      (.refl h.opened.settled.tree) hlock |>.1
  have htied : IsTied name locked := ⟨hopen, h.stands.trans hdiffers.keeps.stands⟩
  have hsessions : locked.get? [directoryName, "sessions"] = some .directory :=
    htied.stands _ _ rfl Disk.not_isFile_directory
  have hentered : ∀ follow, locked.resolve follow (History.directory "/") =
      .ok ⟨[directoryName, "sessions"], some .directory⟩ := by
    have hsession : Session.IsUsed "s-2" [directoryName, "sessions"] := .inside (by decide)
    intro follow
    rw [← hsessions]
    exact hopen.resolve hsession ⟨hdirectory, trivial⟩ follow
  have hfile := hopen.get?_file hused hplaces.1
  have hsame : locked.get? [directoryName, name] = disk.get? [directoryName, name] := by
    refine hdiffers.keeps.outside _ ?_
    rintro ⟨names, hnames, heq⟩
    obtain rfl : [directoryName, name] = names := heq
    exact hplaces.2 hnames
  obtain ⟨content, hcontent, hwritable⟩ : ∃ content,
      (locked.get? [directoryName, name] = some (.file content) ∨
        locked.get? [directoryName, name] = none ∧ content = ByteArray.empty) ∧
      locked.writable (History.path "/" "s-1") = .ok ([directoryName, name], content) := by
    unfold Disk.writable
    rw [show History.path "/" "s-1" = "/.retext/sessions/s-1.jsonl" by decide,
      htied.resolve_history hname]
    cases hget : locked.get? [directoryName, name] with
    | none => exact ⟨ByteArray.empty, .inr ⟨rfl, rfl⟩, rfl⟩
    | some entry =>
      obtain ⟨content, rfl⟩ := hfile entry hget
      exact ⟨content, .inl rfl, rfl⟩
  refine ⟨content, _, ?_, ⟨hopen.put_file hused ⟨hdirectory, trivial⟩ hplaces.1 _,
    htied.stands.trans (Disk.stands_put _ hfile)⟩, hsame ▸ hcontent,
    Disk.get?_put_self locked (by simp) _⟩
  unfold History.append
  rw [Disk.run_bind_ok hlock, Disk.run_bind_ok (Disk.run_makeDirectories hentered)]
  exact Disk.run_appendText hwritable hopen.limit _

end

theorem files_tied {name : String} (hname : name ∈ storeNames) :
    Discovery.files (tiedDisk name) noteTask.config "/" = .ok ["/a.md"] := by
  have hany : ∀ a b c, Discovery.files (tiedDisk name)
      { generateDiffs := false, fragmentMinCoverage := a, keyPhraseThreshold := b,
        wordMajorityThreshold := c } "/" = .ok ["/a.md"] := by
    unfold storeNames at hname
    simp only [List.mem_cons, List.not_mem_nil, or_false] at hname
    intro a b c
    obtain rfl | rfl := hname <;> cbv
  exact hany _ _ _

def noteRecord : History.Record := noteTask.recordOfApplied midnight.after ⟨"a.md", 1, .direct⟩

/-- The run on the note goes through, from what it keeps at first to its summary. -/
theorem exists_run_tied {name : String} (hname : name ∈ storeNames) :
    ∃ store content kept added after,
      (Snapshot.save "/" midnight.before "s-1" (Snapshot.take (tiedDisk name) "/" ["a.md"])
        86400).run.run (tiedDisk name) = (.ok (), kept) ∧
      kept.get? [directoryName, "store.json"] = some (.file (Store.toText store).toUTF8) ∧
      (kept.get? [directoryName, name] = some (.file content) ∨
        kept.get? [directoryName, name] = none ∧ content = ByteArray.empty) ∧
      added.get? [directoryName, name] =
        some (.file (content ++ (History.line noteRecord).toUTF8)) ∧
      IsTied name added ∧
      (Store.set "/" midnight.after summaryKey (noteTask.summary midnight.after notePatch)
        86400).run.run added = (.ok (), after) ∧
      (noteTask.run noParser answering midnight).run.run ((), tiedDisk name) =
        (.ok noteReport, ((), after)) ∧
      Trail "/" "s-1" (tiedDisk name) [noteRecord] after ∧ IsTied name after ∧
      after.get? [directoryName, "store.tmp"] = none := by
  have hexpires : midnight.after.after 86400 = .ok ⟨86400, 0⟩ := by cbv
  have htied := isTied_tiedDisk hname
  obtain ⟨store, kept, hset, hkeep, hdiffers, hstore, happly, hopen⟩ :=
    exists_edited_note rfl htied.opened
  have hnote : kept.get? ["a.md"] = some (.file "Sign in".toUTF8) := by
    rw [hdiffers.keeps.outside]
    · rfl
    · rintro ⟨names, hnames, heq⟩
      obtain rfl : ["a.md"] = names := heq
      exact absurd hnames (by decide)
  -- The edit of the note leaves the link, so the record goes through it.
  have hedited : IsTied name (kept.put ["a.md"] (.file "Log in".toUTF8)) :=
    ⟨hopen, hdiffers.keeps.stands.trans (Disk.stands_put _ fun _ hfound =>
      ⟨_, Option.some.inj (hfound.symm.trans hnote)⟩)⟩
  obtain ⟨content, added, happend, hadded, hcontent, hbytes⟩ :=
    hedited.exists_append hname noteRecord
  rw [Disk.get?_put_of_ne kept (by simp)] at hcontent
  have hadditions : (untilRefusal ((noteTask.records midnight.after notePatch).map
      (History.append noteTask.root noteTask.session))).run.run
        (kept.put ["a.md"] (.file "Log in".toUTF8)) = (.ok true, added) := by
    show (untilRefusal [History.append "/" "s-1" noteRecord]).run.run _ = _
    rw [untilRefusal, Disk.run_bind_ok (Disk.run_attempt_ok happend)]
    rfl
  have hrecorded : Session.IsOpen noteTask.root "s-2" [] added := hadded.opened
  obtain ⟨after, hsummary, hrecord, hopen', hpassing⟩ :=
    exists_keepRecords_of_additions hrecorded span_note hexpires hadditions
  have hafter : Differs [] (· ∈ Store.writtenPlaces) added after :=
    (Store.holds_set (Session.admits_differs hrecorded.settled.ready _) (fun _ => id) _ _ _
      _).of_run (.refl hrecorded.settled.tree) hsummary
  have hcommit := run_commit rfl hkeep happly hrecord
  exact ⟨store, content, kept, added, after, hset, hstore, hcontent, hbytes, hadded, hsummary,
    run_note_of_commit rfl (files_tied hname) hcommit,
    trail_of_note rfl (files_tied hname)
      ⟨kept, _, notePatch, added, hkeep, happly, hadditions⟩ hcommit,
    ⟨hopen', hadded.stands.trans hafter.keeps.stands⟩, hpassing⟩

/-- What the summary is passed through takes the history with it. -/
theorem records_lost_through_link : (tiedDisk "store.tmp").IsTree ∧
    (tiedDisk "store.tmp").LeadsTo "/" [] ∧
    (tiedDisk "store.tmp").holds (History.path "/" "s-1") = false ∧ ∃ after locked,
      Trail "/" "s-1" (tiedDisk "store.tmp") [noteRecord] after ∧
      (History.load "/" "s-1").run.run after = (.ok [], locked) := by
  have hname : "store.tmp" ∈ storeNames := by decide
  have hpath : History.path "/" "s-1" = "/.retext/sessions/s-1.jsonl" := by decide
  obtain ⟨_, _, _, _, after, -, -, -, -, -, -, -, htrail, htied, hpassing⟩ := exists_run_tied hname
  have hbefore := (isTied_tiedDisk hname).resolve_history hname
  refine ⟨by decide, Disk.leadsTo_top _, ?_, after, ?_⟩
  · unfold Disk.holds Disk.find?
    rw [hpath, hbefore]
    rfl
  -- The history is asked for under the lock, or nothing is read at all.
  by_cases hlock : Session.IsLockable "/" after
  · obtain ⟨locked, hrun, hdiffers⟩ := hlock.exists_run htied.opened.settled
    obtain ⟨result, locked', hrun', hopen⟩ := htied.opened.exists_lockToRead
    obtain rfl : locked = locked' := (Prod.mk.inj ((Disk.run_attempt_ok hrun).symm.trans hrun')).2
    have htied' : IsTied "store.tmp" locked := ⟨hopen, htied.stands.trans hdiffers.keeps.stands⟩
    have hnone : locked.get? [directoryName, "store.tmp"] = none := by
      rw [hdiffers.keeps.outside, hpassing]
      rintro ⟨names, hnames, heq⟩
      obtain rfl : [directoryName, "store.tmp"] = names := heq
      exact absurd hnames (by decide)
    have hresolve := htied'.resolve_history hname
    rw [hnone] at hresolve
    have htext : locked.textAt (History.path "/" "s-1") = .error .notFound := by
      unfold Disk.textAt Disk.bytesAt
      rw [hpath, hresolve]
      rfl
    refine ⟨locked, htrail, ?_⟩
    unfold History.load
    rw [Disk.run_bind_ok (Disk.run_attempt_ok hrun), Disk.run_bind_ok (Disk.run_get locked), htext]
    rfl
  · exact ⟨after, htrail, History.run_load_refused hlock⟩

end Rephrase.Run
