import Rephrase.Proofs.Run.Isolation
import Rephrase.Proofs.Run.Rehearsal
import Rephrase.Proofs.Session.Open

/-! Where nothing stands in the way of a session, a run keeps all that it has to keep. -/

namespace Rephrase

open Disk (Action KeepsTo Location)
open Session (IsOpen IsUsed)

/-- A file beside the session's may get another content. -/
theorem Session.IsOpen.put_beside {root session : String} {base location : Location} {disk : Disk}
    {content : ByteArray} (h : IsOpen root session base disk)
    (hfile : disk.get? location = some (.file content))
    (hbeside : ∀ names, IsUsed session names → base ++ names ≠ location) (content' : ByteArray) :
    IsOpen root session base (disk.put location (.file content')) where
  settled := by
    have hkeeps : KeepsTo (fun _ => True) disk (disk.put location (.file content')) :=
      Disk.keepsTo_put (fun _ hfound => ⟨content, Option.some.inj (hfound.symm.trans hfile)⟩) nofun
        trivial
    exact ⟨h.settled.ready.of_keepsTo hkeeps, h.settled.tree.put_file hfile content'⟩
  limit := h.limit
  fits := fun {names} hused entry hentry => by
    rw [Disk.get?_put_of_ne disk (hbeside names hused)] at hentry
    exact h.fits hused hentry
  short := h.short

namespace Run

theorem run_ignoringRefusal_ok {action : Action Unit} {disk disk' : Disk}
    (h : action.run.run disk = (.ok (), disk')) :
    (ignoringRefusal action).run.run disk = (.ok (), disk') := by
  unfold ignoringRefusal
  rw [Disk.run_bind_ok (Disk.run_attempt_ok h)]
  rfl

section

variable {task : Task} {session : String} {base : Location} {disk : Disk} {now expires : Instant}
  {span : Int} (h : IsOpen task.root session base disk)
include h

/-- All records are added. -/
theorem exists_additions (records : List History.Record) : ∃ disk',
    (untilRefusal (records.map (History.append task.root session))).run.run disk =
      (.ok true, disk') ∧ IsOpen task.root session base disk' := by
  induction records generalizing disk with
  | nil => exact ⟨disk, rfl, h⟩
  | cons r rest ih =>
    obtain ⟨added, happend, hadded⟩ := h.exists_append r
    obtain ⟨disk', hrest, hopen⟩ := ih hadded
    refine ⟨disk', ?_, hopen⟩
    rw [List.map_cons, untilRefusal, Disk.run_bind_ok (Disk.run_attempt_ok happend)]
    exact hrest

variable (hspan : Instant.spanOfHours task.config.sessionHours = .ok span)
  (hexpires : now.after span = .ok expires)
include hspan hexpires

/-- What files hold is kept, if there is any to be kept. -/
theorem exists_kept {batches : List Batch} {results : List Batch.Result}
    (hsome : (targets batches results).isEmpty = false) : ∃ store kept,
    (Snapshot.save task.root now task.session
      (Snapshot.take disk task.root (targets batches results)) span).run.run disk =
        (.ok (), kept) ∧
    (task.keepSnapshot now batches results).run.run disk = (.ok (), kept) ∧
      IsOpen task.root session base kept ∧
      kept.get? (base ++ [Session.directoryName, "store.json"]) =
        some (.file (Store.toText store).toUTF8) := by
  obtain ⟨store, kept, hset, hopen, hstore, -⟩ := h.exists_set hexpires
    (Snapshot.key task.session) (Snapshot.take disk task.root (targets batches results)).toJson
  refine ⟨store, kept, hset, ?_, hopen, hstore⟩
  rw [run_keepSnapshot_eq hspan hsome]
  exact run_ignoringRefusal_ok hset

/-- After its records a run leaves its summary. -/
theorem exists_keepRecords_of_additions {patch : Patch} {edited : Disk}
    (hadditions : (untilRefusal ((task.records now patch).map
      (History.append task.root task.session))).run.run edited = (.ok true, disk)) : ∃ after,
    (Store.set task.root now summaryKey (task.summary now patch) span).run.run disk =
      (.ok (), after) ∧
    (task.keepRecords now patch).run.run edited = (.ok (), after) ∧
      IsOpen task.root session base after ∧
      after.get? (base ++ [Session.directoryName, "store.tmp"]) = none := by
  obtain ⟨_, after, hset, hopen, -, hpassing⟩ :=
    h.exists_set hexpires summaryKey (task.summary now patch)
  refine ⟨after, hset, ?_, hopen, hpassing⟩
  rw [run_keepRecords_eq hspan hadditions]
  exact run_ignoringRefusal_ok hset

end

/-! ## The note -/

/-- The note is edited, wherever it is found. -/
theorem run_apply_note {disk : Disk} (hfile : disk.get? ["a.md"] = some (.file "Sign in".toUTF8))
    (hlimit : disk.limit = none) (weight trust confidence trust' : Float) :
    (Patch.apply (.ofConfig noteTask.config) [noteBatch weight trust]
      [noteResult confidence trust']).run.run disk =
        (.ok notePatch, disk.put ["a.md"] (.file "Log in".toUTF8)) := by
  have hresolve : disk.resolve true "/a.md" = .ok ⟨["a.md"], some (.file "Sign in".toUTF8)⟩ :=
    Disk.resolve_names (by decide) (by decide) trivial hfile nofun
  have hyield : (Patch.FilePlan.mk "/a.md" [noteEdit weight confidence]).yield ⟨true, false⟩
      disk.limit (disk.textAt "/a.md") = .ok (notePatch, some "Log in".toUTF8) := by
    rw [hlimit, Disk.textAt_of_resolve hresolve]
    show (Patch.draftOf "a.md" "Sign in".toList [noteEdit weight confidence]).map _ = _
    rw [draftOf_note]
    cbv
  have hturns : Patch.YieldInTurn ⟨true, false⟩ disk
      [⟨"/a.md", [noteEdit weight confidence]⟩] [(notePatch, some "Log in".toUTF8)]
      (disk.rewrite "/a.md" (some "Log in".toUTF8)) := .cons hyield (.nil _)
  have hdisk : disk.rewrite "/a.md" (some "Log in".toUTF8) =
      disk.put ["a.md"] (.file "Log in".toUTF8) := by
    unfold Disk.rewrite
    rw [hresolve]
  unfold Patch.apply
  rw [plans_note, ← hdisk]
  exact hturns.run {}

/-- The only batch of the task, and the result of a call that was answered. -/
def noteBatches : List Batch := noteTask.batches [noteNode Node.Kind.lineMatch.relevance]

def noteResults : List Batch.Result :=
  [noteResult Oracle.unstatedConfidence (mean [Oracle.unstatedConfidence])]

def noteStats : Stats := { filesScanned := 1, candidateFiles := 1, nodesExtracted := 1 }

def noteReport : Report := noteTask.completed noteStats noteBatches noteResults notePatch

theorem targets_note : targets noteBatches noteResults = ["a.md"] := by
  have hany : ∀ weight trust confidence trust', targets [noteBatch weight trust]
      [noteResult confidence trust'] = ["a.md"] := by
    intro weight trust confidence trust'
    cbv
  rw [noteBatches, batches_note]
  exact hany _ _ _ _

section

variable {disk : Disk} (hfile : disk.get? ["a.md"] = some (.file "Sign in".toUTF8))
include hfile

theorem find_note_of_file (hfiles : Discovery.files disk noteTask.config "/" = .ok ["/a.md"]) :
    noteTask.find noParser disk =
      .ok ⟨noteStats, .ok [noteNode Node.Kind.lineMatch.relevance]⟩ := by
  have hresolve : disk.resolve true "/a.md" = .ok ⟨["a.md"], some (.file "Sign in".toUTF8)⟩ :=
    Disk.resolve_names (by decide) (by decide) trivial hfile nofun
  exact find_note (Disk.textAt_of_resolve hresolve) hfiles

/-- A run on the note does what it is told. -/
theorem run_note_of_commit (hfiles : Discovery.files disk noteTask.config "/" = .ok ["/a.md"])
    {after : Disk} (hcommit : (noteTask.commit midnight noteBatches noteResults).run.run disk =
      (.ok notePatch, after)) :
    (noteTask.run noParser answering midnight).run.run ((), disk) =
      (.ok noteReport, ((), after)) := by
  have hconsult : (answering.consultAll noteTask.config.timeoutSeconds noteBatches).run ((), disk) =
      (noteResults, ((), disk)) := by
    rw [noteBatches, batches_note]
    exact consult_note disk _ _
  exact run_of_commit (find_note_of_file hfile hfiles) hconsult hcommit

/-- The note is kept and then edited. -/
theorem exists_edited_note {session : String} (h : IsOpen "/" session [] disk) : ∃ store kept,
    (Snapshot.save "/" midnight.before "s-1" (Snapshot.take disk "/" ["a.md"]) 86400).run.run disk =
      (.ok (), kept) ∧
    (noteTask.keepSnapshot midnight.before noteBatches noteResults).run.run disk = (.ok (), kept) ∧
    Session.Differs [] (· ∈ Store.writtenPlaces) disk kept ∧
    kept.get? [Session.directoryName, "store.json"] = some (.file (Store.toText store).toUTF8) ∧
    (Patch.apply (.ofConfig noteTask.config) noteBatches noteResults).run.run kept =
      (.ok notePatch, kept.put ["a.md"] (.file "Log in".toUTF8)) ∧
    IsOpen "/" session [] (kept.put ["a.md"] (.file "Log in".toUTF8)) := by
  have hexpires : midnight.before.after 86400 = .ok ⟨86400, 0⟩ := by cbv
  have hopen : IsOpen noteTask.root session [] disk := h
  have hsome : (targets noteBatches noteResults).isEmpty = false := by rw [targets_note]; rfl
  obtain ⟨store, kept, hset, hkeep, hkept, hstore⟩ := exists_kept hopen span_note hexpires hsome
  rw [targets_note] at hset
  have hdiffers : Session.Differs [] (· ∈ Store.writtenPlaces) disk kept :=
    (Store.holds_set (Session.admits_differs hopen.settled.ready _) (fun _ => id) _ _ _ _).of_run
      (.refl h.settled.tree) hset
  have hnote : kept.get? ["a.md"] = some (.file "Sign in".toUTF8) := by
    rw [hdiffers.keeps.outside, hfile]
    rintro ⟨names, hnames, heq⟩
    obtain rfl : ["a.md"] = names := heq
    exact absurd hnames (by decide)
  have happly : (Patch.apply (.ofConfig noteTask.config) noteBatches noteResults).run.run kept =
      (.ok notePatch, kept.put ["a.md"] (.file "Log in".toUTF8)) := by
    rw [noteBatches, batches_note]
    exact run_apply_note hnote hkept.limit _ _ _ _
  refine ⟨store, kept, hset, hkeep, hdiffers, hstore, happly, hkept.put_beside hnote ?_ _⟩
  rintro names hused rfl
  exact absurd hused.own (by decide)

end

end Run

end Rephrase
