import Rephrase.Patch.Apply
import Rephrase.Proofs.Disk.Tree

/-! What applying edits does to a disk: a planned file is rewritten or left alone, and no other one
changes. -/

namespace Rephrase

namespace Disk

/-- A disk in which the file that a path leads to may have another content. -/
def Rewritten (disk : Disk) (path : String) (disk' : Disk) : Prop :=
  disk' = disk ∨ ∃ location old new, disk.resolve true path = .ok ⟨location, some (.file old)⟩ ∧
    disk' = disk.put location (.file new)

/-- Paths that lead to different places. -/
def Apart (disk : Disk) (path other : String) : Prop :=
  ∀ place place', disk.resolve true path = .ok place → disk.resolve true other = .ok place' →
    place.location ≠ place'.location

namespace Rewritten

variable {disk disk' : Disk} {path : String} (h : disk.Rewritten path disk')
include h

theorem limit : disk'.limit = disk.limit := by
  obtain rfl | ⟨location, old, new, -, rfl⟩ := h
  · rfl
  · rfl

theorem working : disk'.working = disk.working := by
  obtain rfl | ⟨location, old, new, -, rfl⟩ := h
  · rfl
  · rfl

theorem isTree (htree : disk.IsTree) : disk'.IsTree := by
  obtain rfl | ⟨location, old, new, hresolve, rfl⟩ := h
  · exact htree
  · exact htree.put_file (get?_of_resolve hresolve).symm new

/-- No directory is made. -/
theorem directory {other : Location} (hdirectory : disk'.get? other = some .directory) :
    disk.get? other = some .directory := by
  obtain rfl | ⟨location, old, new, hresolve, rfl⟩ := h
  · exact hdirectory
  · have hfile := (get?_of_resolve hresolve).symm
    by_cases hsame : other = location
    · rw [hsame, get?_put_self disk (ne_nil_of_get? hfile)] at hdirectory
      cases hdirectory
    · rwa [get?_put_of_ne disk hsame] at hdirectory

/-- Paths lead where they led before. -/
theorem exists_resolve {follow : Bool} {other : String} {place' : Place}
    (hplace : disk'.resolve follow other = .ok place') :
    ∃ place, disk.resolve follow other = .ok place ∧ place.location = place'.location := by
  obtain rfl | ⟨location, old, new, hresolve, rfl⟩ := h
  · exact ⟨place', hplace, rfl⟩
  · rw [resolve_put_file (get?_of_resolve hresolve).symm] at hplace
    cases hother : disk.resolve follow other with
    | error e =>
      rw [hother] at hplace
      cases hplace
    | ok place =>
      rw [hother] at hplace
      cases hplace
      exact ⟨place, rfl, rfl⟩

theorem apart {a b : String} (hapart : disk.Apart a b) : disk'.Apart a b := by
  intro place place' ha hb
  obtain ⟨before, ha, hlocation⟩ := h.exists_resolve ha
  obtain ⟨before', hb, hlocation'⟩ := h.exists_resolve hb
  rw [← hlocation, ← hlocation']
  exact hapart before before' ha hb

theorem bytesAt {other : String} (hapart : disk.Apart path other) :
    disk'.bytesAt other = disk.bytesAt other := by
  obtain rfl | ⟨location, old, new, hresolve, rfl⟩ := h
  · rfl
  · refine bytesAt_put_of_ne (get?_of_resolve hresolve).symm new fun place hplace => ?_
    exact (hapart _ place hresolve hplace).symm

/-- Only the place that the path leads to may have changed. -/
theorem keepsTo : KeepsTo (fun location => ∃ place, disk.resolve true path = .ok place ∧
    place.location = location) disk disk' := by
  obtain rfl | ⟨location, old, new, hresolve, rfl⟩ := h
  · exact .refl _ _
  · refine keepsTo_put (fun found hfound => ⟨old, ?_⟩) nofun ⟨_, hresolve, rfl⟩
    exact Option.some.inj (hfound.symm.trans (get?_of_resolve hresolve).symm)

theorem textAt {other : String} (hapart : disk.Apart path other) :
    disk'.textAt other = disk.textAt other := by
  unfold Disk.textAt
  rw [h.bytesAt hapart]

end Rewritten

end Disk

namespace Patch

open Disk (Action)

/-! ## One file -/

/-- What comes of the planned edits of a file. -/
inductive Edited (options : Options) (patch : Patch) (disk : Disk) (plan : FilePlan) :
    Patch → Disk → Prop
  | empty (hedits : plan.edits = []) : Edited options patch disk plan patch disk
  /-- The file cannot be read. -/
  | unread {first : PlannedEdit} {rest : List PlannedEdit} {e : Disk.Error}
      (hedits : plan.edits = first :: rest) (htext : disk.textAt plan.location = .error e) :
      Edited options patch disk plan (patch.failed first.node.file e) disk
  /-- There is nothing to write. -/
  | idle {first : PlannedEdit} {rest : List PlannedEdit} {text : String} {draft : Draft}
      (hedits : plan.edits = first :: rest) (htext : disk.textAt plan.location = .ok text)
      (hdraft : draftOf first.node.file text.toList plan.edits = .ok draft) :
      Edited options patch disk plan
        { patch with skipped := patch.skipped ++ draft.skipped } disk
  /-- The changes are only reported. -/
  | reported {first : PlannedEdit} {rest : List PlannedEdit} {text : String} {draft : Draft}
      (hedits : plan.edits = first :: rest) (htext : disk.textAt plan.location = .ok text)
      (hdraft : draftOf first.node.file text.toList plan.edits = .ok draft)
      (hwrite : options.write = false) :
      Edited options patch disk plan
        (modified { patch with skipped := patch.skipped ++ draft.skipped } options first.node.file
          text.toList draft) disk
  | written {first : PlannedEdit} {rest : List PlannedEdit} {text : String} {draft : Draft}
      {location : Disk.Location} {old : ByteArray}
      (hedits : plan.edits = first :: rest) (htext : disk.textAt plan.location = .ok text)
      (hdraft : draftOf first.node.file text.toList plan.edits = .ok draft)
      (hwrite : options.write = true)
      (hresolve : disk.resolve true plan.location = .ok ⟨location, some (.file old)⟩) :
      Edited options patch disk plan
        (modified { patch with skipped := patch.skipped ++ draft.skipped } options first.node.file
          text.toList draft)
        (disk.put location (.file (String.ofList draft.content).toUTF8))
  /-- The file is emptied, and filled as far as there is room. -/
  | cut {first : PlannedEdit} {rest : List PlannedEdit} {text : String} {draft : Draft}
      {location : Disk.Location} {old : ByteArray} {limit : Nat}
      (hedits : plan.edits = first :: rest) (htext : disk.textAt plan.location = .ok text)
      (hdraft : draftOf first.node.file text.toList plan.edits = .ok draft)
      (hwrite : options.write = true)
      (hresolve : disk.resolve true plan.location = .ok ⟨location, some (.file old)⟩)
      (hlimit : disk.limit = some limit)
      (hroom : limit < (String.ofList draft.content).toUTF8.size) :
      Edited options patch disk plan
        (failed { patch with skipped := patch.skipped ++ draft.skipped } first.node.file .tooLarge)
        (disk.put location (.file ((String.ofList draft.content).toUTF8.extract 0 limit)))

theorem leads_editFile (options : Options) (patch : Patch) (plan : FilePlan) (disk : Disk) :
    Action.Leads (· = disk) (editFile options patch plan) (Edited options patch disk plan)
      (fun _ disk' => disk' = disk) := by
  obtain ⟨path, edits⟩ := plan
  unfold editFile
  cases edits with
  | nil => exact .done (Disk.run_pure patch disk) (.empty rfl)
  | cons first rest =>
    dsimp only
    refine .step (Disk.run_get disk) ?_
    cases htext : disk.textAt path with
    | error e => exact .done (Disk.run_pure _ disk) (.unread rfl htext)
    | ok text =>
      dsimp only
      cases hdraft : draftOf first.node.file text.toList (first :: rest) with
      | error fault => exact .stop rfl rfl
      | ok draft =>
        refine .step (Disk.run_compute rfl disk) ?_
        split
        · exact .done (Disk.run_pure _ disk) (.idle rfl htext hdraft)
        unfold write
        dsimp only
        split
        · rename_i hwrite
          -- What can be read can be written, so that only the room may be missing.
          obtain ⟨location, old, hresolve⟩ := Disk.resolve_of_textAt htext
          have hwritable : disk.writable path = .ok (location, old) := by
            unfold Disk.writable
            rw [hresolve]
          refine .bind (Disk.leads_writeBytes path _ disk).attempt fun result => ?_
          cases result with
          | ok _ =>
            refine .pure ?_
            rintro disk' ⟨location', old', hwritable', rfl⟩
            obtain ⟨rfl, rfl⟩ := Prod.mk.inj (Except.ok.inj (hwritable.symm.trans hwritable'))
            exact .written rfl htext hdraft hwrite hresolve
          | error failure =>
            refine .of_forall ?_
            rintro disk' (⟨e, -, herror, -⟩ | ⟨location', old', limit, rfl, hwritable', hlimit,
              hroom, rfl⟩)
            · nomatch hwritable.symm.trans herror
            · obtain ⟨rfl, rfl⟩ := Prod.mk.inj (Except.ok.inj (hwritable.symm.trans hwritable'))
              exact .done (Disk.run_pure _ _)
                (.cut rfl htext hdraft hwrite hresolve hlimit hroom)
        · rename_i hwrite
          exact .done (Disk.run_pure _ disk)
            (.reported rfl htext hdraft (Bool.eq_false_iff.mpr hwrite))

theorem Edited.rewritten {options : Options} {patch patch' : Patch} {disk disk' : Disk}
    {plan : FilePlan} (h : Edited options patch disk plan patch' disk') :
    disk.Rewritten plan.location disk' := by
  cases h with
  | empty | unread | idle | reported => exact .inl rfl
  | written _ _ _ _ hresolve => exact .inr ⟨_, _, _, hresolve, rfl⟩
  | cut _ _ _ _ hresolve => exact .inr ⟨_, _, _, hresolve, rfl⟩

theorem Edited.eq_of_not_write {options : Options} {patch patch' : Patch} {disk disk' : Disk}
    {plan : FilePlan} (h : Edited options patch disk plan patch' disk')
    (hwrite : options.write = false) : disk' = disk := by
  cases h with
  | empty | unread | idle | reported => rfl
  | written _ _ _ hwrite' => cases hwrite.symm.trans hwrite'
  | cut _ _ _ hwrite' => cases hwrite.symm.trans hwrite'

/-- Whether a file is told of, as one that was modified or as one that could not be. -/
def Told (patch : Patch) (file : String) : Prop :=
  file ∈ patch.filesModified ∨ ∃ failure ∈ patch.failures, failure.file = file

theorem Told.mono {patch patch' : Patch} {file : String} (h : patch.Told file)
    (hmodified : patch.filesModified ⊆ patch'.filesModified)
    (hfailures : patch.failures ⊆ patch'.failures) : patch'.Told file := by
  obtain hfile | ⟨failure, hfailure, hfile⟩ := h
  · exact .inl (hmodified hfile)
  · exact .inr ⟨failure, hfailures hfailure, hfile⟩

theorem Told.edited {options : Options} {patch patch' : Patch} {disk disk' : Disk}
    {plan : FilePlan} {file : String} (h : patch.Told file)
    (hedited : Edited options patch disk plan patch' disk') : patch'.Told file := by
  cases hedited with
  | empty | idle => exact h
  | unread | cut => exact h.mono (List.Subset.refl _) (List.subset_append_left _ _)
  | reported | written => exact h.mono (List.subset_append_left _ _) (List.Subset.refl _)

/-- If the disk changes, the planned file is told of. -/
theorem Edited.told {options : Options} {patch patch' : Patch} {disk disk' : Disk}
    {plan : FilePlan} (h : Edited options patch disk plan patch' disk')
    (hchanged : disk' ≠ disk) : ∃ first rest, plan.edits = first :: rest ∧
      patch'.Told first.node.file := by
  cases h with
  | empty | unread | idle | reported => exact absurd rfl hchanged
  | written hedits =>
    exact ⟨_, _, hedits, .inl (List.mem_append_right _ List.mem_cons_self)⟩
  | cut hedits =>
    exact ⟨_, _, hedits, .inr ⟨_, List.mem_append_right _ List.mem_cons_self, rfl⟩⟩

/-! ## All files -/

/-- What comes of some planned files, one after the other. -/
inductive EditedInTurn (options : Options) : Patch → Disk → List FilePlan → Patch → Disk → Prop
  | none (patch : Patch) (disk : Disk) : EditedInTurn options patch disk [] patch disk
  | next {patch patch' patch'' : Patch} {disk disk' disk'' : Disk} {plan : FilePlan}
      {plans : List FilePlan} (hfirst : Edited options patch disk plan patch' disk')
      (hrest : EditedInTurn options patch' disk' plans patch'' disk'') :
      EditedInTurn options patch disk (plan :: plans) patch'' disk''

theorem editedInTurn_of_foldlM {options : Options} {patch patch' : Patch} {disk disk' : Disk}
    {plans : List FilePlan}
    (h : (plans.foldlM (editFile options) patch).run.run disk = (.ok patch', disk')) :
    EditedInTurn options patch disk plans patch' disk' := by
  induction plans generalizing patch disk with
  | nil =>
    rw [List.foldlM_nil, Disk.run_pure] at h
    cases h
    exact .none _ _
  | cons plan plans ih =>
    rw [List.foldlM_cons] at h
    obtain ⟨between, middle, hfirst, hrest⟩ := Disk.of_run_bind h
    exact .next ((leads_editFile options patch plan disk).ok rfl hfirst) (ih hrest)

/-- A file that no planned file is the same as does not change. -/
theorem EditedInTurn.bytesAt {options : Options} {patch patch' : Patch} {disk disk' : Disk}
    {plans : List FilePlan} (h : EditedInTurn options patch disk plans patch' disk')
    {path : String} (hapart : ∀ plan ∈ plans, disk.Apart path plan.location) :
    disk'.bytesAt path = disk.bytesAt path := by
  induction h with
  | none => rfl
  | next hfirst hrest ih =>
    obtain ⟨hplan, hplans⟩ := List.forall_mem_cons.mp hapart
    have hrewritten := hfirst.rewritten
    rw [ih fun plan hplan => hrewritten.apart (hplans plan hplan), hrewritten.bytesAt
      fun place place' hplace hplace' => (hplan place' place hplace' hplace).symm]

namespace EditedInTurn

variable {options : Options} {patch patch' : Patch} {disk disk' : Disk} {plans : List FilePlan}
  (h : EditedInTurn options patch disk plans patch' disk')
include h

theorem eq_of_not_write (hwrite : options.write = false) : disk' = disk := by
  induction h with
  | none => rfl
  | next hfirst hrest ih => rw [ih, hfirst.eq_of_not_write hwrite]

theorem isTree (htree : disk.IsTree) : disk'.IsTree := by
  induction h with
  | none => exact htree
  | next hfirst _ ih => exact ih (hfirst.rewritten.isTree htree)

theorem directory {location : Disk.Location} (hdirectory : disk'.get? location = some .directory) :
    disk.get? location = some .directory := by
  induction h with
  | none => exact hdirectory
  | next hfirst _ ih => exact hfirst.rewritten.directory (ih hdirectory)

theorem told {file : String} (htold : patch.Told file) : patch'.Told file := by
  induction h with
  | none => exact htold
  | next hfirst hrest ih => exact ih (htold.edited hfirst)

/-- A place that has changed is that of a planned file, which is told of. -/
theorem keepsTo : Disk.KeepsTo (fun location => ∃ plan ∈ plans,
    (∃ place, disk.resolve true plan.location = .ok place ∧ place.location = location) ∧
      ∃ first rest, plan.edits = first :: rest ∧ patch'.Told first.node.file) disk disk' := by
  induction h with
  | none => exact .refl _ _
  | @next patch patch' patch'' disk disk' disk'' plan plans hfirst hrest ih =>
    have hrewritten := hfirst.rewritten
    refine Disk.KeepsTo.trans ?_ (ih.mono ?_)
    · by_cases hsame : disk' = disk
      · rw [hsame]
        exact .refl _ disk
      · obtain ⟨first, rest, hedits, htold⟩ := hfirst.told hsame
        exact hrewritten.keepsTo.mono fun location hlocation =>
          ⟨plan, List.mem_cons_self, hlocation, first, rest, hedits, hrest.told htold⟩
    · rintro location ⟨plan, hmem, ⟨place', hresolve, rfl⟩, htold⟩
      -- The plan's path led there already before the first file was rewritten.
      obtain ⟨place, hbefore, hlocation⟩ := hrewritten.exists_resolve hresolve
      exact ⟨plan, List.mem_cons_of_mem _ hmem, ⟨place, hbefore, hlocation⟩, htold⟩

end EditedInTurn

end Patch

end Rephrase
