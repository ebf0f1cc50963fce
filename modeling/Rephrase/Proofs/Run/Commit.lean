import Rephrase.Proofs.Patch.Apart
import Rephrase.Proofs.Run.Change

/-! What a run makes of a file depends on the file alone: neither what is kept of the run nor what is
done to other files has a part in it. -/

namespace Rephrase.Run

open Disk (KeepsTo Location)
open Patch (FilePlan)
open Session (IsProject IsReady Spares)

section

variable {task : Task} {times : Times} {batches : List Batch} {results : List Batch.Result}
  {patch : Patch} {before after : Disk} {base : Location}
  (hready : IsReady task.root task.session base before)
  (h : (task.commit times batches results).run.run before = (.ok patch, after))
include hready h

/-- Before a run's edits its session spares the files of the project, and after them again. -/
theorem exists_edited_of_commit : ∃ kept edited yields,
    KeepsTo (fun _ => True) before kept ∧ KeepsTo (fun _ => True) before edited ∧
      KeepsTo (fun _ => True) before after ∧
      Patch.YieldInTurn (.ofConfig task.config) kept (Patch.plans batches results) yields edited ∧
      patch = Patch.sum (yields.map Prod.fst) ∧ ∀ names, IsProject names →
        (∀ content, before.get? (base ++ names) = some (.file content) →
          Spares base before (base ++ names) content kept) ∧
        ∀ content, edited.get? (base ++ names) = some (.file content) →
          Spares base edited (base ++ names) content after := by
  -- A dry run keeps nothing and tells of nothing, so its disk is that of the edits all along.
  cases hdry : task.config.dryRun with
  | true =>
    obtain ⟨yields, hturns, hpatch⟩ := Patch.exists_yields_of_apply (apply_of_commit h hdry)
    obtain rfl := eq_of_commit h hdry
    have hsame : ∀ location content, after.get? location = some (.file content) →
        Spares base after location content after := fun _ _ hfile => ⟨.refl _ _, hfile⟩
    exact ⟨after, after, yields, .refl _ _, .refl _ _, .refl _ _, hturns, hpatch, fun names _ =>
      ⟨hsame _, hsame _⟩⟩
  | false =>
    obtain ⟨kept, edited, hkeep, happly, hrecord⟩ := of_commit h hdry
    obtain ⟨yields, hturns, hpatch⟩ := Patch.exists_yields_of_apply happly
    have hkept := (keeps_keepSnapshot hready _ _ _).ok (.refl _ before) hkeep
    have hedited := hkept.mono (fun _ _ => trivial)
      |>.trans ((Patch.editedInTurn_of_foldlM happly).keepsTo.mono fun _ _ => trivial)
    have hready' := hready.of_keepsTo hedited
    have hafter := (keeps_keepRecords hready' _ _).ok (.refl _ edited) hrecord
    refine ⟨kept, edited, yields, hkept.mono fun _ _ => trivial, hedited,
      hedited.trans (hafter.mono fun _ _ => trivial), hturns, hpatch,
      fun names hproject => ⟨fun content hfile => ?_, fun content hfile => ?_⟩⟩
    · exact (holds_keepSnapshot (Session.holds_set hready hproject hfile) _ _ _).ok
        ⟨.refl _ _, hfile⟩ hkeep
    · exact (holds_keepRecords (fun span => Session.holds_set hready' hproject hfile _ _ _ span)
        (Session.holds_append hready' hproject hfile)).ok ⟨.refl _ _, hfile⟩ hrecord

theorem keepsTo_of_commit : KeepsTo (fun _ => True) before after := by
  obtain ⟨_, _, _, -, -, hafter, -⟩ := exists_edited_of_commit hready h
  exact hafter

end

section

variable {task : Task} {parser : Parser} {times : Times} {stats : Stats} {nodes : List Node}
  {results : List Batch.Result} {patch : Patch} {before after : Disk} {base : Location}
  (htree : before.IsTree) (hready : IsReady task.root task.session base before)
  (hfind : task.find parser before = .ok ⟨stats, .ok nodes⟩)
  (h : (task.commit times (task.batches nodes) results).run.run before = (.ok patch, after))
include htree hready hfind h

/-- A planned file yields what its text in front of the run makes of its edits, and holds this
afterwards. -/
theorem exists_yields_of_commit : ∃ yields, patch = Patch.sum (yields.map Prod.fst) ∧
    List.Forall₂ (fun plan yield =>
      ∃ limit text, plan.yield (.ofConfig task.config) limit text = .ok yield)
      (Patch.plans (task.batches nodes) results) yields ∧
    List.Forall₂ (fun plan yield => plan.location ≠ Path.join task.root ".gitignore" →
      plan.yield (.ofConfig task.config) before.limit (before.textAt plan.location) = .ok yield ∧
        after.bytesAt plan.location = yield.2.elim (before.bytesAt plan.location) .ok)
      (Patch.plans (task.batches nodes) results) yields := by
  obtain ⟨kept, edited, yields, hkept, hedited, -, hturns, hpatch, hspares⟩ :=
    exists_edited_of_commit hready h
  refine ⟨yields, hpatch, hturns.forall₂, ?_⟩
  have halone := hturns.alone (pairwise_apart_of_plans htree hready.leads hfind hkept results)
  rw [List.forall₂_iff_zip] at halone ⊢
  refine ⟨halone.1, fun {plan yield} hmem hlist => ?_⟩
  obtain ⟨hyield, hbytes⟩ := halone.2 hmem
  obtain ⟨names, htarget⟩ :=
    exists_isTarget htree hready.leads hfind (List.of_mem_zip hmem).1
  obtain ⟨content, hfile, hresolve⟩ := htarget.exists_resolve
  obtain ⟨hsnapshot, hrecords⟩ := hspares names (htarget.isProject hlist)
  -- The file is found by the edits as it was before the run.
  have hbefore : kept.bytesAt plan.location = before.bytesAt plan.location := by
    rw [Disk.bytesAt_of_resolve ((hsnapshot content hfile).resolve hresolve),
      Disk.bytesAt_of_resolve hresolve]
  have htext : kept.textAt plan.location = before.textAt plan.location := by
    unfold Disk.textAt
    rw [hbefore]
  rw [htext, hkept.limit] at hyield
  refine ⟨hyield, ?_⟩
  rw [hbefore, Disk.bytesAt_of_resolve hresolve] at hbytes
  -- And it is left as they have made it.
  obtain ⟨content', hcontent'⟩ : ∃ content', edited.bytesAt plan.location = .ok content' := by
    rw [hbytes]
    cases yield.2 with
    | none => exact ⟨content, rfl⟩
    | some content' => exact ⟨content', rfl⟩
  obtain ⟨location, hresolve'⟩ := Disk.resolve_of_bytesAt hcontent'
  obtain rfl : location = base ++ names := htarget.location_of_resolve hedited hresolve'
  have hafter := (hrecords content' (Disk.get?_of_resolve hresolve').symm).resolve hresolve'
  rw [Disk.bytesAt_of_resolve hafter, ← hcontent', hbytes, Disk.bytesAt_of_resolve hresolve]

/-- A file of the project that nothing is planned for stays as it is. -/
theorem get?_of_commit {names : List String} {content : ByteArray} (hproject : IsProject names)
    (hfile : before.get? (base ++ names) = some (.file content))
    (hplans : ∀ plan ∈ Patch.plans (task.batches nodes) results,
      ¬task.IsTarget before base plan names) :
    after.get? (base ++ names) = some (.file content) := by
  obtain ⟨kept, edited, yields, hkept, hedited, -, hturns, -, hspares⟩ :=
    exists_edited_of_commit hready h
  obtain ⟨hsnapshot, hrecords⟩ := hspares names hproject
  refine (hrecords content ?_).file
  rw [← (hsnapshot content hfile).file]
  refine (Patch.editedInTurn_of_foldlM (hturns.run {})).keepsTo.outside _ ?_
  rintro ⟨plan, hplan, ⟨place, hresolve, hlocation⟩, -⟩
  obtain ⟨names', htarget⟩ := exists_isTarget htree hready.leads hfind hplan
  rw [htarget.location_of_resolve hkept hresolve] at hlocation
  obtain rfl := List.append_cancel_left hlocation
  exact hplans plan hplan htarget

end

end Rephrase.Run
