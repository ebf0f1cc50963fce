import Rephrase.Proofs.Patch.Effect

/-! What becomes of a file's edits depends on the file's text, on how much room there is and on
nothing else: what they add to the patch, and what they leave in the file. -/

namespace Rephrase

namespace Disk

/-- A disk with a new content of the file that a path leads to, if there is one. -/
def rewrite (disk : Disk) (path : String) (content : Option ByteArray) : Disk :=
  match content, disk.resolve true path with
  | some content, .ok place => disk.put place.location (.file content)
  | _, _ => disk

end Disk

namespace Patch

open Disk (Action)

/-! ## Sums of patches -/

instance : Append Patch where
  append a b :=
    { filesModified := a.filesModified ++ b.filesModified
      replacements := a.replacements + b.replacements
      diffs := a.diffs ++ b.diffs
      applied := a.applied ++ b.applied
      skipped := a.skipped ++ b.skipped
      failures := a.failures ++ b.failures }

theorem append_eq (a b : Patch) : a ++ b =
    ⟨a.filesModified ++ b.filesModified, a.replacements + b.replacements, a.diffs ++ b.diffs,
      a.applied ++ b.applied, a.skipped ++ b.skipped, a.failures ++ b.failures⟩ := rfl

theorem append_empty (patch : Patch) : patch ++ ({} : Patch) = patch := by
  simp [append_eq]

theorem append_assoc (a b c : Patch) : a ++ b ++ c = a ++ (b ++ c) := by
  simp [append_eq, Nat.add_assoc]

theorem failed_eq (patch : Patch) (file : String) (e : Disk.Error) :
    patch.failed file e = patch ++ failed {} file e := by
  simp [failed, append_eq]

theorem skipped_eq (patch : Patch) (skipped : List Skipped) :
    { patch with skipped := patch.skipped ++ skipped } = patch ++ { skipped } := by
  simp [append_eq]

theorem modified_eq (patch : Patch) (options : Options) (file : String) (before : List Char)
    (draft : Draft) :
    patch.modified options file before draft = patch ++ modified {} options file before draft := by
  unfold modified
  cases options.diffs <;> simp [append_eq]

def sum (patches : List Patch) : Patch := patches.foldr (· ++ ·) {}

theorem sum_append (front back : List Patch) : sum (front ++ back) = sum front ++ sum back := by
  induction front with
  | nil => simp [sum, append_eq]
  | cons patch front ih =>
    show patch ++ sum (front ++ back) = patch ++ sum front ++ sum back
    rw [ih, append_assoc]

theorem failures_sum (patches : List Patch) :
    (sum patches).failures = patches.flatMap (·.failures) := by
  induction patches with
  | nil => rfl
  | cons patch patches ih =>
    rw [List.flatMap_cons, ← ih]
    rfl

theorem diffs_sum (patches : List Patch) : (sum patches).diffs = patches.flatMap (·.diffs) := by
  induction patches with
  | nil => rfl
  | cons patch patches ih =>
    rw [List.flatMap_cons, ← ih]
    rfl

/-! ## One file -/

/-- What a draft adds to the patch, and what is left in the file if it is written. -/
def Draft.yield (options : Options) (limit : Option Nat) (file : String) (before : List Char)
    (draft : Draft) : Patch × Option ByteArray :=
  let skipped : Patch := { skipped := draft.skipped }
  let content := (String.ofList draft.content).toUTF8
  if draft.applied.isEmpty then (skipped, none)
  else if options.write then
    match limit.filter (· < content.size) with
    | none => (skipped ++ modified {} options file before draft, some content)
    -- The file is emptied, and filled as far as there is room.
    | some limit => (skipped ++ failed {} file .tooLarge, some (content.extract 0 limit))
  else (skipped ++ modified {} options file before draft, none)

/-- What the planned edits of a file add to the patch, and what they leave in the file. -/
def FilePlan.yield (options : Options) (limit : Option Nat) (plan : FilePlan)
    (text : Except Disk.Error String) : Except Fault (Patch × Option ByteArray) :=
  match plan.edits, text with
  | [], _ => .ok ({}, none)
  | first :: _, .error e => .ok (failed {} first.node.file e, none)
  | first :: _, .ok text =>
    (draftOf first.node.file text.toList plan.edits).map
      (Draft.yield options limit first.node.file text.toList)

theorem run_write_eq {disk : Disk} {path : String} {location : Disk.Location} {old : ByteArray}
    (h : disk.resolve true path = .ok ⟨location, some (.file old)⟩) (patch : Patch)
    (options : Options) (file : String) (before : List Char) {draft : Draft}
    (happlied : draft.applied.isEmpty = false) :
    (write { patch with skipped := patch.skipped ++ draft.skipped } options path file before
      draft).run.run disk =
        (.ok (patch ++ (draft.yield options disk.limit file before).1),
          disk.rewrite path (draft.yield options disk.limit file before).2) := by
  unfold write Draft.yield
  dsimp only
  rw [happlied, if_neg Bool.false_ne_true, modified_eq, skipped_eq]
  split
  · have hwrite : (Disk.writeText path (String.ofList draft.content)).run.run disk = _ :=
      Disk.run_writeBytes h (String.ofList draft.content).toUTF8
    -- With too little room the file is cut, and the patch tells of the failure.
    split
    · rename_i hroom
      rw [hroom] at hwrite
      dsimp only at hwrite
      rw [Disk.run_bind_ok (Disk.run_attempt_ok hwrite)]
      unfold Disk.rewrite
      rw [h, append_assoc]
      rfl
    · rename_i limit hlimit
      rw [hlimit] at hwrite
      dsimp only at hwrite
      rw [Disk.run_bind_ok (Disk.run_attempt_error hwrite)]
      dsimp only
      rw [failed_eq, append_assoc]
      unfold Disk.rewrite
      rw [h]
      rfl
  · rw [append_assoc]
    rfl

/-- A file's edits do what they yield. -/
theorem run_editFile_eq (options : Options) (patch : Patch) (plan : FilePlan) (disk : Disk) :
    (editFile options patch plan).run.run disk =
      match plan.yield options disk.limit (disk.textAt plan.location) with
      | .ok yield => (.ok (patch ++ yield.1), disk.rewrite plan.location yield.2)
      | .error fault => (.error (.fault fault), disk) := by
  obtain ⟨path, edits⟩ := plan
  unfold editFile FilePlan.yield
  cases edits with
  | nil =>
    dsimp only
    rw [append_empty]
    rfl
  | cons first rest =>
    dsimp only
    rw [Disk.run_bind_ok (Disk.run_get disk)]
    cases htext : disk.textAt path with
    | error e =>
      dsimp only
      rw [failed_eq]
      rfl
    | ok text =>
      dsimp only
      cases hdraft : draftOf first.node.file text.toList (first :: rest) with
      | error fault => rfl
      | ok draft =>
        rw [Disk.run_bind_ok (Disk.run_compute rfl disk)]
        dsimp only [Except.map]
        -- Without a change that was made the file is not written.
        split
        · rename_i happlied
          unfold Draft.yield
          rw [if_pos happlied, skipped_eq]
          rfl
        · rename_i happlied
          obtain ⟨location, old, hresolve⟩ := Disk.resolve_of_textAt htext
          exact run_write_eq hresolve patch options first.node.file text.toList
            (Bool.eq_false_iff.mpr happlied)

/-! ## All files -/

/-- What becomes of planned files, one after the other. -/
inductive YieldInTurn (options : Options) :
    Disk → List FilePlan → List (Patch × Option ByteArray) → Disk → Prop
  | nil (disk : Disk) : YieldInTurn options disk [] [] disk
  | cons {disk disk' : Disk} {plan : FilePlan} {plans : List FilePlan}
      {yield : Patch × Option ByteArray} {yields : List (Patch × Option ByteArray)}
      (hfirst : plan.yield options disk.limit (disk.textAt plan.location) = .ok yield)
      (hrest : YieldInTurn options (disk.rewrite plan.location yield.2) plans yields disk') :
      YieldInTurn options disk (plan :: plans) (yield :: yields) disk'

theorem YieldInTurn.run {options : Options} {disk disk' : Disk} {plans : List FilePlan}
    {yields : List (Patch × Option ByteArray)} (h : YieldInTurn options disk plans yields disk')
    (patch : Patch) : (plans.foldlM (editFile options) patch).run.run disk =
      (.ok (patch ++ sum (yields.map Prod.fst)), disk') := by
  induction h generalizing patch with
  | nil disk =>
    rw [List.foldlM_nil, Disk.run_pure]
    exact congrArg (fun patch => (Except.ok patch, disk)) (append_empty patch).symm
  | @cons disk _ plan _ yield _ hfirst _ ih =>
    have hrun := run_editFile_eq options patch plan disk
    rw [hfirst] at hrun
    rw [List.foldlM_cons, Disk.run_bind_ok hrun, ih, append_assoc]
    rfl

/-- The planned files are gone through to the end, or up to one of them whose edits come to
nothing. -/
theorem yieldInTurn_or_error (options : Options) (plans : List FilePlan) (disk : Disk) :
    (∃ yields disk', YieldInTurn options disk plans yields disk') ∨
    ∃ done plan rest yields turn fault, plans = done ++ plan :: rest ∧
      YieldInTurn options disk done yields turn ∧
      plan.yield options turn.limit (turn.textAt plan.location) = .error fault := by
  induction plans generalizing disk with
  | nil => exact .inl ⟨[], disk, .nil disk⟩
  | cons plan plans ih =>
    cases hyield : plan.yield options disk.limit (disk.textAt plan.location) with
    | error fault => exact .inr ⟨[], plan, plans, [], disk, fault, rfl, .nil disk, hyield⟩
    | ok yield =>
      obtain ⟨yields, disk', hturn⟩ | ⟨done, other, rest, yields, turn, fault, hplans, hturn,
          hother⟩ := ih (disk.rewrite plan.location yield.2)
      · exact .inl ⟨yield :: yields, disk', .cons hyield hturn⟩
      · exact .inr ⟨plan :: done, other, rest, yield :: yields, turn, fault, by rw [hplans]; rfl,
          .cons hyield hturn, hother⟩

theorem YieldInTurn.run_error {options : Options} {disk turn : Disk} {done : List FilePlan}
    {plan : FilePlan} {yields : List (Patch × Option ByteArray)} {fault : Fault}
    (h : YieldInTurn options disk done yields turn)
    (hplan : plan.yield options turn.limit (turn.textAt plan.location) = .error fault)
    (patch : Patch) (rest : List FilePlan) :
    ((done ++ plan :: rest).foldlM (editFile options) patch).run.run disk =
      (.error (.fault fault), turn) := by
  have hrun := run_editFile_eq options (patch ++ sum (yields.map Prod.fst)) plan turn
  rw [hplan] at hrun
  rw [List.foldlM_append, Disk.run_bind_ok (h.run patch), List.foldlM_cons,
    Disk.run_bind_error hrun]

/-- When all edits were applied, every planned file has its yield. -/
theorem exists_yields_of_apply {options : Options} {batches : List Batch}
    {results : List Batch.Result} {patch : Patch} {disk disk' : Disk}
    (h : (Patch.apply options batches results).run.run disk = (.ok patch, disk')) :
    ∃ yields, YieldInTurn options disk (plans batches results) yields disk' ∧
      patch = sum (yields.map Prod.fst) := by
  unfold Patch.apply at h
  obtain ⟨yields, disk'', hturns⟩ | ⟨done, plan, rest, yields, turn, fault, hsplit, hdone, hplan⟩ :=
    yieldInTurn_or_error options (plans batches results) disk
  · rw [hturns.run] at h
    cases h
    exact ⟨yields, hturns, by simp [append_eq]⟩
  · rw [hsplit, hdone.run_error hplan] at h
    cases h

theorem YieldInTurn.forall₂ {options : Options} {disk disk' : Disk} {plans : List FilePlan}
    {yields : List (Patch × Option ByteArray)} (h : YieldInTurn options disk plans yields disk') :
    List.Forall₂ (fun plan yield => ∃ limit text, plan.yield options limit text = .ok yield)
      plans yields := by
  induction h with
  | nil => exact .nil
  | cons hfirst _ ih => exact .cons ⟨_, _, hfirst⟩ ih

/-- Every file has its turn. -/
theorem YieldInTurn.split {options : Options} {disk disk' : Disk} {done rest : List FilePlan}
    {plan : FilePlan} {yields : List (Patch × Option ByteArray)}
    (h : YieldInTurn options disk (done ++ plan :: rest) yields disk') :
    ∃ before yield after turn, yields = before ++ yield :: after ∧
      YieldInTurn options disk done before turn ∧
      plan.yield options turn.limit (turn.textAt plan.location) = .ok yield ∧
      YieldInTurn options (turn.rewrite plan.location yield.2) rest after disk' := by
  induction done generalizing disk yields with
  | nil =>
    obtain _ | ⟨hfirst, hrest⟩ := h
    exact ⟨[], _, _, disk, rfl, .nil disk, hfirst, hrest⟩
  | cons first done ih =>
    obtain _ | ⟨hfirst, hrest⟩ := h
    obtain ⟨before, yield, after, turn, rfl, hdone, hplan, hafter⟩ := ih hrest
    exact ⟨_ :: before, yield, after, turn, rfl, .cons hfirst hdone, hplan, hafter⟩

/-! ## Entries of some files -/

/-- The files that a patch has entries for. -/
def files (patch : Patch) : List String :=
  patch.filesModified ++ patch.diffs.map (·.path) ++ patch.applied.map (·.file) ++
    patch.skipped.map (·.file) ++ patch.failures.map (·.file)

/-- The entries of a patch for some files. -/
def only (own : String → Bool) (patch : Patch) : Patch :=
  { filesModified := patch.filesModified.filter own
    replacements := (patch.applied.filter (own ·.file)).length
    diffs := patch.diffs.filter (own ·.path)
    applied := patch.applied.filter (own ·.file)
    skipped := patch.skipped.filter (own ·.file)
    failures := patch.failures.filter (own ·.file) }

theorem mem_files_append {a b : Patch} {file : String} :
    file ∈ (a ++ b).files ↔ file ∈ a.files ∨ file ∈ b.files := by
  simp only [files, append_eq, List.map_append, List.mem_append]
  tauto

theorem only_append (own : String → Bool) (a b : Patch) :
    (a ++ b).only own = a.only own ++ b.only own := by
  simp only [only, append_eq, List.filter_append, List.length_append]

/-- Every applied edit is counted. -/
def IsCounted (patch : Patch) : Prop := patch.replacements = patch.applied.length

theorem IsCounted.append {a b : Patch} (ha : a.IsCounted) (hb : b.IsCounted) :
    (a ++ b).IsCounted := by
  unfold IsCounted at *
  rw [append_eq, List.length_append, ha, hb]

section

variable {own : String → Bool} {patch : Patch}

theorem only_eq_self (h : ∀ file ∈ patch.files, own file = true) (hcounted : patch.IsCounted) :
    patch.only own = patch := by
  simp only [files, List.forall_mem_append, List.forall_mem_map] at h
  obtain ⟨⟨⟨⟨hmodified, hdiffs⟩, happlied⟩, hskipped⟩, hfailures⟩ := h
  unfold only
  rw [List.filter_eq_self.mpr hmodified, List.filter_eq_self.mpr hdiffs,
    List.filter_eq_self.mpr happlied, List.filter_eq_self.mpr hskipped,
    List.filter_eq_self.mpr hfailures, ← hcounted]

theorem only_eq_empty (h : ∀ file ∈ patch.files, own file = false) : patch.only own = {} := by
  simp only [files, List.forall_mem_append, List.forall_mem_map] at h
  obtain ⟨⟨⟨⟨hmodified, hdiffs⟩, happlied⟩, hskipped⟩, hfailures⟩ := h
  have hnone : ∀ {α : Type} {xs : List α} {f : α → Bool}, (∀ x ∈ xs, f x = false) →
      xs.filter f = [] := fun h => List.filter_eq_nil_iff.mpr fun x hx => by rw [h x hx]; decide
  unfold only
  rw [hnone hmodified, hnone hdiffs, hnone happlied, hnone hskipped, hnone hfailures]
  rfl

end

theorem mem_files_sum {patches : List Patch} {file : String} :
    file ∈ (sum patches).files ↔ ∃ patch ∈ patches, file ∈ patch.files := by
  induction patches with
  | nil => simp [sum, files]
  | cons patch patches ih =>
    show file ∈ (patch ++ sum patches).files ↔ _
    rw [mem_files_append, ih]
    simp

theorem isCounted_sum {patches : List Patch} (h : ∀ patch ∈ patches, patch.IsCounted) :
    (sum patches).IsCounted := by
  induction patches with
  | nil => rfl
  | cons patch patches ih =>
    obtain ⟨hpatch, hpatches⟩ := List.forall_mem_cons.mp h
    exact hpatch.append (ih hpatches)

/-- Of a sum there is only left what there is in one of its parts. -/
theorem only_sum_of_split {own : String → Bool} {front back : List Patch} {patch : Patch}
    (hpatch : ∀ file ∈ patch.files, own file = true) (hcounted : patch.IsCounted)
    (hothers : ∀ other ∈ front ++ back, ∀ file ∈ other.files, own file = false) :
    (sum (front ++ patch :: back)).only own = patch := by
  obtain ⟨hfront, hback⟩ := List.forall_mem_append.mp hothers
  have hnone : ∀ {patches : List Patch},
      (∀ other ∈ patches, ∀ file ∈ other.files, own file = false) →
        (sum patches).only own = {} := by
    refine fun h => only_eq_empty fun file hfile => ?_
    obtain ⟨other, hother, hmem⟩ := mem_files_sum.mp hfile
    exact h other hother file hmem
  rw [sum_append]
  show (sum front ++ (patch ++ sum back)).only own = patch
  rw [only_append, only_append, hnone hfront, hnone hback, only_eq_self hpatch hcounted]
  simp [append_eq]

end Patch

end Rephrase
