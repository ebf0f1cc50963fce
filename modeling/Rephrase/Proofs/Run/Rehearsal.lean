import Rephrase.Proofs.Run.Commit

/-! A dry run tells what a run would do: both ask the same and report the same, and the texts that the
dry run compares with the old ones are those that the run leaves. -/

namespace Rephrase.Run

open Oracle (Exchange)
open Patch (FilePlan)

/-- A task that only rehearses what it would do, or does it. -/
def Task.withDryRun (task : Task) (dryRun : Bool) : Task :=
  { task with config := { task.config with dryRun } }

/-- Whether a planned file has become what its edits make of it, and some diffs show this. -/
def Task.IsRehearsed (task : Task) (before after : Disk) (diffs : List FileChange)
    (plan : FilePlan) : Prop :=
  ∃ first rest text draft, plan.edits = first :: rest ∧
    before.textAt plan.location = .ok text ∧
    Patch.draftOf first.node.file text.toList plan.edits = .ok draft ∧
    after.textAt plan.location = .ok (String.ofList draft.content) ∧
    (task.config.generateDiffs = true → draft.applied ≠ [] →
      ⟨first.node.file, String.ofList
        (Diff.unified first.node.file text.toList draft.content)⟩ ∈ diffs)

theorem textAt_of_bytesAt {disk : Disk} {path text : String}
    (h : disk.bytesAt path = .ok text.toUTF8) : disk.textAt path = .ok text := by
  obtain ⟨location, hresolve⟩ := Disk.resolve_of_bytesAt h
  exact Disk.textAt_of_resolve hresolve

/-- A file without a failure is left with the text that was rehearsed. -/
theorem isRehearsed_of_yield {task : Task} {before after : Disk} {base : Disk.Location}
    {plan : FilePlan} {names : List String} {yield : Patch × Option ByteArray}
    (htarget : task.IsTarget before base plan names)
    (hyield : plan.yield ⟨true, task.config.generateDiffs⟩ before.limit
      (before.textAt plan.location) = .ok yield) (hfailures : yield.1.failures = [])
    (hbytes : after.bytesAt plan.location = yield.2.elim (before.bytesAt plan.location) .ok) :
    (∀ limit, plan.yield ⟨false, task.config.generateDiffs⟩ limit
      (before.textAt plan.location) = .ok (yield.1, none)) ∧
      task.IsRehearsed before after yield.1.diffs plan := by
  obtain ⟨text, htext⟩ := htarget.text
  obtain ⟨first, rest, hedits⟩ := htarget.filled
  rw [htext] at hyield ⊢
  obtain ⟨draft, hdraft, hrehearsed, hcontent, hdiff⟩ :=
    Patch.rehearsed_of_yield hedits hyield hfailures
  refine ⟨hrehearsed, first, rest, text, draft, hedits, htext, hdraft, ?_, hdiff⟩
  rw [hcontent] at hbytes
  by_cases happlied : draft.applied = []
  · rw [if_pos (List.isEmpty_iff.mpr happlied)] at hbytes
    rw [Patch.content_of_draftOf hdraft happlied, String.ofList_toList, ← htext]
    unfold Disk.textAt
    rw [hbytes]
    rfl
  · rw [if_neg (mt List.isEmpty_iff.mp happlied)] at hbytes
    exact textAt_of_bytesAt hbytes

theorem exists_yields_withDryRun {task : Task} {dryRun : Bool} {parser : Parser} {times : Times}
    {stats : Stats} {nodes : List Node} {results : List Batch.Result} {patch : Patch}
    {before after : Disk} {base : Disk.Location} (htree : before.IsTree)
    (hready : Session.IsReady task.root task.session base before)
    (hfind : task.find parser before = .ok ⟨stats, .ok nodes⟩)
    (h : ((task.withDryRun dryRun).commit times (task.batches nodes) results).run.run before =
      (.ok patch, after)) : ∃ yields, patch = Patch.sum (yields.map Prod.fst) ∧
    List.Forall₂ (fun plan yield => plan.location ≠ Path.join task.root ".gitignore" →
      plan.yield ⟨!dryRun, task.config.generateDiffs⟩ before.limit
        (before.textAt plan.location) = .ok yield ∧
        after.bytesAt plan.location = yield.2.elim (before.bytesAt plan.location) .ok)
      (Patch.plans (task.batches nodes) results) yields := by
  have hready' : Session.IsReady (task.withDryRun dryRun).root (task.withDryRun dryRun).session
      base before := hready
  have hfind' : (task.withDryRun dryRun).find parser before = .ok ⟨stats, .ok nodes⟩ := hfind
  obtain ⟨yields, hpatch, -, hyields⟩ := exists_yields_of_commit htree hready' hfind' h
  exact ⟨yields, hpatch, hyields⟩

theorem rehearsed_of_commit {task : Task} {parser : Parser} {times times' : Times} {stats : Stats}
    {nodes : List Node} {results : List Batch.Result} {rehearsal patch : Patch}
    {before rehearsed after : Disk} {base : Disk.Location} (htree : before.IsTree)
    (hready : Session.IsReady task.root task.session base before)
    (hfind : task.find parser before = .ok ⟨stats, .ok nodes⟩)
    (hlist : ∀ c ∈ task.candidates before, c.location ≠ Path.join task.root ".gitignore")
    (hdry : ((task.withDryRun true).commit times (task.batches nodes) results).run.run before =
      (.ok rehearsal, rehearsed))
    (hreal : ((task.withDryRun false).commit times' (task.batches nodes) results).run.run before =
      (.ok patch, after)) (hfailures : patch.failures = []) :
    rehearsal = patch ∧ ∀ plan ∈ Patch.plans (task.batches nodes) results,
      task.IsRehearsed before after patch.diffs plan := by
  obtain ⟨dry, rfl, hdryYields⟩ := exists_yields_withDryRun htree hready hfind hdry
  obtain ⟨real, rfl, hrealYields⟩ := exists_yields_withDryRun htree hready hfind hreal
  rw [Patch.failures_sum, List.flatMap_map, List.flatMap_eq_nil_iff] at hfailures
  have hunlisted : ∀ plan ∈ Patch.plans (task.batches nodes) results,
      ∃ names, task.IsTarget before base plan names ∧
        plan.location ≠ Path.join task.root ".gitignore" := by
    intro plan hplan
    obtain ⟨names, htarget⟩ := exists_isTarget htree hready.leads hfind hplan
    obtain ⟨c, hc, hlocation⟩ := htarget.candidate
    exact ⟨names, htarget, hlocation ▸ hlist c hc⟩
  have hboth : List.Forall₂ (fun plan yield =>
      (∀ limit, plan.yield ⟨false, task.config.generateDiffs⟩ limit
        (before.textAt plan.location) = .ok (yield.1, none)) ∧
      task.IsRehearsed before after yield.1.diffs plan)
      (Patch.plans (task.batches nodes) results) real := by
    rw [List.forall₂_iff_zip] at hrealYields ⊢
    refine ⟨hrealYields.1, fun {plan yield} hmem => ?_⟩
    obtain ⟨hplan, hyield⟩ := List.of_mem_zip hmem
    obtain ⟨names, htarget, hne⟩ := hunlisted plan hplan
    obtain ⟨hmade, hbytes⟩ := hrealYields.2 hmem hne
    exact isRehearsed_of_yield htarget hmade (hfailures yield hyield) hbytes
  have hmade : List.Forall₂ (fun plan yield =>
      plan.yield ⟨false, task.config.generateDiffs⟩ before.limit
        (before.textAt plan.location) = .ok yield)
      (Patch.plans (task.batches nodes) results) dry := by
    rw [List.forall₂_iff_zip] at hdryYields ⊢
    refine ⟨hdryYields.1, fun {plan yield} hmem => ?_⟩
    obtain ⟨names, -, hne⟩ := hunlisted plan (List.of_mem_zip hmem).1
    exact (hdryYields.2 hmem hne).1
  -- A file yields the same in both runs, but for its new content.
  have hsame : dry = real.map fun yield => (yield.1, none) := by
    refine List.right_unique_forall₂' (fun plan a b ha hb => ?_) hmade
      (List.forall₂_map_right_iff.mpr (hboth.imp fun plan yield h => h.1 before.limit))
    exact Except.ok.inj (ha.symm.trans hb)
  refine ⟨by rw [hsame, List.map_map]; rfl, fun plan hplan => ?_⟩
  obtain ⟨place, hplace, rfl⟩ := List.getElem_of_mem hplan
  have hplace' : place < real.length := hboth.length_eq ▸ hplace
  obtain ⟨-, first, rest, text, draft, hedits, htext, hdraft, hafter, hdiff⟩ :=
    hboth.get hplace hplace'
  refine ⟨first, rest, text, draft, hedits, htext, hdraft, hafter, fun hdiffs happlied => ?_⟩
  rw [Patch.diffs_sum, List.flatMap_map]
  exact List.mem_flatMap.mpr ⟨_, List.getElem_mem hplace', hdiff hdiffs happlied⟩

theorem apply_note_dry (weight trust confidence trust' : Float) :
    (Patch.apply (.ofConfig (noteTask.withDryRun true).config) [noteBatch weight trust]
      [noteResult confidence trust']).run.run noteDisk = (.ok notePatch, noteDisk) := by
  show (Patch.apply ⟨false, false⟩ _ _).run.run _ = _
  cbv

theorem run_note_dry : ∃ rehearsal,
    ((noteTask.withDryRun true).run noParser answering midnight).run.run ((), noteDisk) =
      (.ok rehearsal, ((), noteDisk)) := by
  have htext : noteDisk.textAt "/a.md" = .ok "Sign in" := by cbv
  have hfind := find_note htext files_note
  have hbatches := batches_note Node.Kind.lineMatch.relevance
  generalize Node.Kind.lineMatch.relevance = weight at hfind hbatches
  have hconsult := consult_note noteDisk weight (mean [weight])
  have happly := apply_note_dry weight (mean [weight]) Oracle.unstatedConfidence
    (mean [Oracle.unstatedConfidence])
  rw [← hbatches] at hconsult happly
  have hfind' : (noteTask.withDryRun true).find noParser noteDisk = _ := hfind
  exact ⟨_, run_of_commit hfind' hconsult (run_commit_dry rfl happly)⟩

/-- A project whose list of ignored files is a link to its note. -/
def sharedDisk : Disk :=
  { entries := [(["a.md"], .file "Sign in".toUTF8), ([".gitignore"], .link "a.md"),
      ([".retext"], .directory), ([".retext", ".lock"], .directory)] }

/-- The note with the list that is added to it. -/
def extendedDisk : Disk :=
  sharedDisk.put ["a.md"]
    (.file ("Sign in".toUTF8 ++ (Session.ignoreAddition "Sign in".toList).toUTF8))

def editedDisk : Disk :=
  extendedDisk.put ["a.md"] (.file "Log in\n# retext session store\n.retext/\n".toUTF8)

def noteEdit (weight confidence : Float) : Patch.PlannedEdit :=
  ⟨"batch-001", noteNode weight,
    ⟨0, none, none, "Sign in", "Log in", "", confidence, true, .unspecified, []⟩⟩

theorem plans_note (weight trust confidence trust' : Float) :
    Patch.plans [noteBatch weight trust] [noteResult confidence trust'] =
      [⟨"/a.md", [noteEdit weight confidence]⟩] := by
  cbv

theorem draftOf_note (weight confidence : Float) :
    Patch.draftOf "a.md" "Sign in".toList [noteEdit weight confidence] =
      .ok ⟨"Log in".toList, [⟨"a.md", 1, .direct⟩], []⟩ := by
  cbv

theorem apply_extended (weight trust confidence trust' : Float) :
    (Patch.apply (.ofConfig noteTask.config) [noteBatch weight trust]
      [noteResult confidence trust']).run.run extendedDisk = (.ok notePatch, editedDisk) := by
  show (Patch.apply ⟨true, false⟩ _ _).run.run _ = _
  cbv

theorem apply_shared_dry (weight trust confidence trust' : Float) :
    (Patch.apply (.ofConfig (noteTask.withDryRun true).config) [noteBatch weight trust]
      [noteResult confidence trust']).run.run sharedDisk = (.ok notePatch, sharedDisk) := by
  show (Patch.apply ⟨false, false⟩ _ _).run.run _ = _
  cbv

theorem run_lockToWrite_shared : (Session.lockToWrite noteTask.root).run.run sharedDisk =
    (.error (.refused .isDirectory), extendedDisk) := by
  have htarget : Path.IsName "a.md" := by decide
  have hfile : sharedDisk.get? ["a.md"] = some (.file "Sign in".toUTF8) := rfl
  exact Session.run_lockToWrite_refused (holds_directory rfl)
    (run_hide_listed htarget (by decide) rfl hfile rfl (by cbv)) (writable_lock rfl rfl)

theorem run_lockToWrite_edited : (Session.lockToWrite noteTask.root).run.run editedDisk =
    (.error (.refused .isDirectory), editedDisk) := by
  have htarget : Path.IsName "a.md" := by decide
  have hfile : editedDisk.get? ["a.md"] =
    some (.file "Log in\n# retext session store\n.retext/\n".toUTF8) := rfl
  exact Session.run_lockToWrite_refused (holds_directory rfl)
    (run_hide_told htarget (by decide) rfl hfile (by cbv)) (writable_lock rfl rfl)

theorem files_shared : Discovery.files sharedDisk noteTask.config "/" = .ok ["/a.md"] := by
  have hany : ∀ a b c, Discovery.files sharedDisk
      { generateDiffs := false, fragmentMinCoverage := a, keyPhraseThreshold := b,
        wordMajorityThreshold := c } "/" = .ok ["/a.md"] := by
    intro a b c
    cbv
  exact hany _ _ _

end Rephrase.Run
