import Mathlib
import Rephrase.Proofs.Run.Trail
import Rephrase.Proofs.Session.Snapshot

/-! What a run has changed can be undone: the snapshot of its session holds what the files held
before. -/

namespace Rephrase.Run

open Disk (Action Location)
open Session (Differs IsReady IsSettled directoryName)

/-! ## The files of a snapshot -/

/-- Where batches have names of their own, the files that are told of as modified are among those that
a snapshot is taken of. -/
theorem mem_targets_of_apply {options : Patch.Options} {batches : List Batch}
    {results : List Batch.Result} {patch : Patch} {disk disk' : Disk}
    (hids : (batches.map (·.id)).Nodup)
    (happly : (Patch.apply options batches results).run.run disk = (.ok patch, disk')) :
    ∀ file ∈ patch.filesModified, file ∈ targets batches results := by
  intro file hfile
  obtain ⟨yields, hturns, rfl⟩ := Patch.exists_yields_of_apply happly
  have hmem : file ∈ (Patch.sum (yields.map Prod.fst)).files := by
    simp only [Patch.files, List.mem_append]
    exact .inl (.inl (.inl (.inl hfile)))
  obtain ⟨edit, hedit, rfl⟩ :=
    (Patch.arePlanned batches results).files_sum hturns.forall₂ file hmem
  rw [Batch.targets_eq hids, List.mem_eraseDups]
  exact List.mem_map_of_mem hedit

/-- All of them are texts when the run begins. -/
theorem exists_text_of_mem_targets {task : Task} {parser : Parser} {disk : Disk} {base : Location}
    {stats : Stats} {nodes : List Node} {results : List Batch.Result} (htree : disk.IsTree)
    (hleads : disk.LeadsTo task.root base)
    (hfind : task.find parser disk = .ok ⟨stats, .ok nodes⟩) {file : String}
    (hfile : file ∈ targets (task.batches nodes) results) :
    ∃ content, disk.textAt (Path.join task.root file) = .ok content := by
  have hids : ((task.batches nodes).map (·.id)).Nodup := Batch.nodup_ids ..
  rw [Batch.targets_eq hids, List.mem_eraseDups] at hfile
  obtain ⟨edit, hedit, rfl⟩ := List.mem_map.mp hfile
  obtain ⟨_, -, -, batch, hbatch, -, hasked⟩ := Patch.isAskedFor_of_mem_plannedEdits hedit
  have hnode := mem_of_mem_batches hbatch (List.mem_of_getElem? (Patch.mem_editsOf.mp hasked).2.2.1)
  obtain ⟨names, hlooks, hin, c, hc, hpath⟩ := exists_looksAt htree hleads hfind hnode
  obtain ⟨-, -, -, -, htext⟩ := of_mem_candidates hc
  rw [hin.1, Path.join_intercalate hlooks.found.ne_nil hlooks.found.named, ← hpath]
  exact htext

/-! ## From the snapshot to the end of a run -/

/-- Whether the snapshot of a change is saved, if there is anything to be changed. -/
def Task.SavesSnapshot (task : Task) (times : Times) (batches : List Batch)
    (results : List Batch.Result) (before : Disk) : Prop :=
  ∀ span, Instant.spanOfHours task.config.sessionHours = .ok span →
    ∃ kept, (Snapshot.save task.root times.before task.session
      (Snapshot.take before task.root (targets batches results)) span).run.run before =
        (.ok (), kept)

theorem exists_span_of_keepSnapshot {task : Task} {now : Instant} {batches : List Batch}
    {results : List Batch.Result} {before kept : Disk}
    (hsome : (targets batches results).isEmpty = false)
    (hkeep : (task.keepSnapshot now batches results).run.run before = (.ok (), kept)) :
    ∃ span, Instant.spanOfHours task.config.sessionHours = .ok span ∧
      (ignoringRefusal (Snapshot.save task.root now task.session
        (Snapshot.take before task.root (targets batches results)) span)).run.run before =
          (.ok (), kept) := by
  unfold Task.keepSnapshot at hkeep
  dsimp only at hkeep
  rw [hsome, if_neg Bool.false_ne_true, Disk.run_bind_ok (Disk.run_get before)] at hkeep
  obtain ⟨span, middle, hcompute, hsave⟩ := Disk.of_run_bind hkeep
  cases hspan : Instant.spanOfHours task.config.sessionHours with
  | error fault =>
    rw [hspan] at hcompute
    cases hcompute
  | ok span' =>
    rw [hspan] at hcompute
    cases hcompute
    exact ⟨_, rfl, hsave⟩

/-- The summary of a run holds no floats, and is not nested deep. -/
theorem allNumbers_summary {task : Task} {now : Instant} {patch : Patch}
    (hcount : patch.replacements < Fault.wordLimit) :
    (task.summary now patch).allNumbers Json.Number.isWord = true := by
  unfold Task.summary
  rw [Json.allNumbers_object_iff]
  simp only [List.forall_mem_cons]
  exact ⟨rfl, rfl, Json.allNumbers_ofStrings _, Json.allNumbers_ofNat hcount, rfl,
    List.forall_mem_nil _⟩

theorem depth_summary_le (task : Task) (now : Instant) (patch : Patch) :
    (task.summary now patch).depth ≤ Store.valueLevels := by
  have hfiles : (Json.ofStrings patch.filesModified).depth ≤ 1 :=
    Json.depth_array_le_iff.mpr (List.forall_mem_map.mpr fun _ _ => Nat.le_refl 0)
  have hsummary : (task.summary now patch).depth ≤ 2 := by
    unfold Task.summary
    rw [Json.depth_object_le_iff]
    simp only [List.forall_mem_cons]
    exact ⟨Nat.zero_le _, Nat.zero_le _, hfiles, Nat.zero_le _, Nat.zero_le _, List.forall_mem_nil _⟩
  exact Nat.le_trans hsummary (by decide)

/-- What is in a snapshot stays there when the files are edited and the session is told. -/
theorem keeps_of_commit {task : Task} {parser : Parser} {times : Times} {stats : Stats}
    {nodes : List Node} {results : List Batch.Result} {patch : Patch} {before after : Disk}
    {base : Location} {now : Instant} (hready : IsReady task.root task.session base before)
    (htree : before.IsTree) (hfind : task.find parser before = .ok ⟨stats, .ok nodes⟩)
    (hdry : task.config.dryRun = false)
    (hcommit : (task.commit times (task.batches nodes) results).run.run before =
      (.ok patch, after))
    (hsome : (targets (task.batches nodes) results).isEmpty = false)
    (hsaves : task.SavesSnapshot times (task.batches nodes) results before)
    (hcount : patch.replacements < Fault.wordLimit)
    (hbefore : times.before.nanos < 1000000000) (hafter : times.after.nanos < 1000000000)
    (hclock : now.before times.after = false)
    (hlive : ∀ span expires, Instant.spanOfHours task.config.sessionHours = .ok span →
      times.before.after span = .ok expires → now.before expires = true) :
    ∃ expires, now.before expires = true ∧
      Store.Keeps task.root task.session base (Snapshot.key task.session)
        ⟨(Snapshot.take before task.root (targets (task.batches nodes) results)).toJson, expires⟩
        after := by
  obtain ⟨kept, edited, hkeep, happly, hrecord⟩ := of_commit hcommit hdry
  obtain ⟨span, hspan, hignored⟩ := exists_span_of_keepSnapshot hsome hkeep
  obtain ⟨saved, hsave⟩ := hsaves span hspan
  obtain rfl : kept = saved :=
    (Prod.mk.inj (hignored.symm.trans (run_ignoringRefusal_ok hsave))).2
  have hkeys := Snapshot.ascending_take before task.root (targets (task.batches nodes) results)
  obtain ⟨expires, hexpires, hdiffers, hkept⟩ :=
    (Snapshot.leads_save ⟨hready, htree⟩ hkeys hbefore task.session span).ok rfl hsave
  have hnow := hlive span expires hspan hexpires
  have hword := Snapshot.allNumbers_toJson Json.Number.isWord
    (Snapshot.take before task.root (targets (task.batches nodes) results))
  have hnormal := Snapshot.normalize_toJson hkeys
  have hother : Snapshot.key task.session ≠ summaryKey := by
    intro heq
    have hfirst := congrArg (fun s : String => s.toList.head?) heq
    simp [Snapshot.key, summaryKey] at hfirst
  have hedited := hkept.of_differs
    (differs_of_apply htree hready.leads hfind hdiffers.keeps hdiffers.tree happly)
    fun houtside => houtside _ _ rfl
  -- What is live at the later time has been live when the session was told of the edits.
  have hlong : Store.Entry.isLive times.after ⟨(Snapshot.take before task.root
      (targets (task.batches nodes) results)).toJson, expires⟩ = true :=
    Store.Entry.isLive_of_later hclock (show Store.Entry.isLive now _ = true from hnow)
  refine ⟨expires, hnow, ?_⟩
  refine (holds_keepRecords (fun span' => ?_) History.holds_append_kept).of_run hedited hrecord
  exact Store.Keeps.holds_set hword hnormal hother hlong hafter (allNumbers_summary hcount)
    (depth_summary_le task times.after patch) span'

/-- A run can be undone as long as its snapshot is kept: what a file held before it was modified is
found there, and the files that now hold something else are told of. -/
theorem undo_of_run {μ : Type} {task : Task} {parser : Parser} {oracle : Oracle μ} {times : Times}
    {memory memory' : μ} {before after : Disk} {base : Location} {report : Report} {now : Instant}
    (hquiet : oracle.IsQuiet) (htree : before.IsTree)
    (hready : IsReady task.root task.session base before) (hdry : task.config.dryRun = false)
    (hrun : (task.run parser oracle times).run.run (memory, before) =
      (.ok report, (memory', after)))
    (hsaves : ∀ stats nodes, task.find parser before = .ok ⟨stats, .ok nodes⟩ →
      task.SavesSnapshot times (task.batches nodes) report.batchResults before)
    (hcount : report.replacements < Fault.wordLimit)
    (hbefore : times.before.nanos < 1000000000) (hafter : times.after.nanos < 1000000000)
    (hclock : now.before times.after = false)
    (hlive : ∀ span expires, Instant.spanOfHours task.config.sessionHours = .ok span →
      times.before.after span = .ok expires → now.before expires = true)
    (hmodified : report.filesModified ≠ []) :
    ∃ snapshot locked,
      (Snapshot.load task.root now task.session).run.run after = (.ok (some snapshot), locked) ∧
      ∀ file ∈ report.filesModified, ∃ content,
        before.textAt (Path.join task.root file) = .ok content ∧
        snapshot.lookup file = some (.ofContent content) ∧
        ∀ later : Disk, (∀ text, later.textAt (Path.join task.root file) = .ok text →
          text ≠ content → Digest.ofText text ≠ Digest.ofText content) →
          later.textAt (Path.join task.root file) ≠ .ok content →
            file ∈ Snapshot.changed later task.root snapshot := by
  cases cameTo_of_run hquiet hrun with
  | ended hfound => exact absurd rfl hmodified
  | @completed stats nodes results patch _ hfound hcommit =>
    obtain ⟨kept, edited, -, happly, -⟩ := of_commit hcommit hdry
    have hids : ((task.batches nodes).map (·.id)).Nodup := Batch.nodup_ids ..
    have htargets := mem_targets_of_apply hids happly
    have hsome : (targets (task.batches nodes) results).isEmpty = false := by
      obtain ⟨file, hfile⟩ := List.exists_mem_of_ne_nil _ hmodified
      exact List.isEmpty_eq_false_iff.mpr (List.ne_nil_of_mem (htargets file hfile))
    obtain ⟨expires, hnow, hkeeps⟩ := keeps_of_commit hready htree hfound hdry hcommit hsome
      (hsaves _ _ hfound) hcount hbefore hafter hclock hlive
    obtain ⟨locked, hload⟩ := Snapshot.exists_load (Snapshot.ascending_take _ _ _) hkeeps hnow
    refine ⟨_, locked, hload, fun file hfile => ?_⟩
    obtain ⟨content, htext⟩ :=
      exists_text_of_mem_targets htree hready.leads hfound (htargets file hfile)
    have hlookup := Snapshot.lookup_take (htargets file hfile) htext
    refine ⟨content, htext, hlookup, fun later hdigest hdiffers => ?_⟩
    refine Snapshot.mem_changed hlookup fun text hread => hdigest text hread ?_
    rintro rfl
    exact hdiffers hread

/-- The note that a run has edited is found in its snapshot as it was before. -/
theorem undo_of_note : ∃ after snapshot locked,
    (noteTask.run noParser answering midnight).run.run ((), freshDisk) =
      (.ok noteReport, ((), after)) ∧
    noteReport.filesModified = ["a.md"] ∧
    (Snapshot.load "/" midnight.after "s-1").run.run after = (.ok (some snapshot), locked) ∧
    snapshot.lookup "a.md" = some (.ofContent "Sign in") := by
  have hexpires : midnight.after.after 86400 = .ok ⟨86400, 0⟩ := by cbv
  obtain ⟨_, kept, hsave, hkeep, -, -, happly, hedited⟩ := exists_edited_note rfl isOpen_fresh
  have hopen : Session.IsOpen noteTask.root noteTask.session [] _ := hedited
  obtain ⟨recorded, hadditions, hrecorded⟩ :=
    exists_additions hopen (noteTask.records midnight.after notePatch)
  obtain ⟨after, -, hrecord, -⟩ :=
    exists_keepRecords_of_additions hrecorded span_note hexpires hadditions
  have hrun := run_note_of_commit rfl files_fresh (run_commit rfl hkeep happly hrecord)
  -- What is found in the note is one node, and its file is what the snapshot takes.
  have hsaves : ∀ stats nodes, noteTask.find noParser freshDisk = .ok ⟨stats, .ok nodes⟩ →
      noteTask.SavesSnapshot midnight (noteTask.batches nodes) noteReport.batchResults freshDisk := by
    intro stats nodes hfound span hspan
    obtain ⟨-, hnodes⟩ := Found.mk.inj (Except.ok.inj
      ((find_note_of_file rfl files_fresh).symm.trans hfound))
    obtain rfl := Except.ok.inj hnodes
    obtain rfl := Except.ok.inj (span_note.symm.trans hspan)
    refine ⟨kept, ?_⟩
    show (Snapshot.save _ _ _ (Snapshot.take _ _ (targets noteBatches noteResults)) _).run.run _ = _
    rw [targets_note]
    exact hsave
  have hlive : ∀ span expires, Instant.spanOfHours noteTask.config.sessionHours = .ok span →
      midnight.before.after span = .ok expires → midnight.after.before expires = true := by
    intro span expires hspan hends
    obtain rfl := Except.ok.inj (span_note.symm.trans hspan)
    obtain rfl := Except.ok.inj (hexpires.symm.trans hends)
    decide
  obtain ⟨snapshot, locked, hload, hfiles⟩ := undo_of_run (fun _ _ _ => rfl)
    isOpen_fresh.settled.tree isOpen_fresh.settled.ready rfl hrun hsaves (by decide) (by decide)
    (by decide) (by decide) hlive (List.cons_ne_nil _ _)
  obtain ⟨content, htext, hlookup, -⟩ := hfiles "a.md" (List.mem_singleton.mpr rfl)
  have hresolve : freshDisk.resolve true "/a.md" = .ok ⟨["a.md"], some (.file "Sign in".toUTF8)⟩ :=
    Disk.resolve_names (by decide) (by decide) trivial rfl fun _ hlink => by cases hlink
  obtain rfl : "Sign in" = content :=
    Except.ok.inj ((Disk.textAt_of_resolve hresolve).symm.trans htext)
  exact ⟨after, snapshot, locked, hrun, rfl, hload, hlookup⟩

/-! ## A snapshot that is lost -/

/-- A store with a record behind its text cannot be read. -/
theorem load_tied_store {store : Store} {disk : Disk} (h : IsTied "store.json" disk)
    (hbytes : disk.get? [directoryName, "store.json"] =
      some (.file (store.toText.toUTF8 ++ (History.line noteRecord).toUTF8))) :
    Store.load disk "/" = [] := by
  have hused : Session.IsUsed "s-2" [directoryName, "store.json"] := .inside (by decide)
  have hdirectory : disk.get? [directoryName] = some .directory :=
    h.stands _ _ rfl Disk.not_isFile_directory
  have hresolve : disk.resolve true (Store.path "/") =
      .ok ⟨[directoryName, "store.json"], disk.get? [directoryName, "store.json"]⟩ :=
    h.opened.resolve hused ⟨hdirectory, trivial⟩ true
  rw [hbytes] at hresolve
  have hline : ∃ rest, History.line noteRecord = String.ofList ('\x7b' :: rest) := ⟨_, rfl⟩
  obtain ⟨rest, hrest⟩ := hline
  have hlost := Store.ofText_toText_append store (rfl : Json.isSpace '\x7b' = false)
    (.cons (by decide) rest)
  rw [Store.load_eq, Disk.bytesAt_of_resolve hresolve, hrest, ← Disk.toUTF8_append]
  show ((String.fromUTF8? _).map Store.ofText).getD [] = []
  rw [Disk.fromUTF8?_toUTF8]
  exact hlost

/-- What is added to a history that leads to the store takes the snapshot with it. -/
theorem snapshot_lost_through_link : (tiedDisk "store.json").IsTree ∧
    (tiedDisk "store.json").LeadsTo "/" [] ∧ ∃ kept after locked,
      (Snapshot.save "/" midnight.before "s-1" (Snapshot.take (tiedDisk "store.json") "/" ["a.md"])
        86400).run.run (tiedDisk "store.json") = (.ok (), kept) ∧
      (noteTask.run noParser answering midnight).run.run ((), tiedDisk "store.json") =
        (.ok noteReport, ((), after)) ∧
      Trail "/" "s-1" (tiedDisk "store.json") [noteRecord] after ∧
      noteReport.filesModified = ["a.md"] ∧
      (Snapshot.load "/" midnight.after "s-1").run.run after = (.ok none, locked) := by
  have hname : "store.json" ∈ storeNames := by decide
  obtain ⟨store, content, kept, added, after, hsave, hstore, hcontent, hadded, htied, hset, hrun,
    htrail, -, -⟩ := exists_run_tied hname
  obtain rfl : content = store.toText.toUTF8 := by
    obtain hcontent | ⟨hnone, -⟩ := hcontent
    · exact Disk.Entry.file.inj (Option.some.inj (hcontent.symm.trans hstore))
    · cases hnone.symm.trans hstore
  have hlost := load_tied_store htied hadded
  have hsettled := htied.opened.settled
  obtain ⟨expires, hexpires, hwrote⟩ := (Store.leads_put hsettled true midnight.after summaryKey
    (noteTask.summary midnight.after notePatch) 86400).ok rfl hset
  rw [hlost] at hwrote
  -- With the record behind it the store is no value, so the summary goes into an empty one.
  have hnone : (Store.load after "/").find? (Snapshot.key "s-1") = none := by
    have hsummary := Store.Entry.isSound_of_after (allNumbers_summary (by decide))
      (depth_summary_le noteTask midnight.after notePatch) (by decide) hexpires
    rw [hwrote.loaded]
    refine Store.find?_ofText_toText_none (Store.isSound_nil.insert hsummary summaryKey) ?_
    rw [Store.find?_insert, if_neg (by decide)]
    rfl
  obtain ⟨locked, hload⟩ := Store.exists_get_none (hsettled.of_differs hwrote.differs) hnone
    midnight.after Snapshot.decode
  exact ⟨by decide, Disk.leadsTo_top _, kept, after, locked, hsave, hrun, htrail, rfl, hload⟩

end Rephrase.Run
