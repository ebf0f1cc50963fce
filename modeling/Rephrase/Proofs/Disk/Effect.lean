import Rephrase.Proofs.Disk.Access
import Rephrase.Proofs.Disk.Below

/-! What each operation does to a disk, whether it comes to a result or fails. -/

namespace Rephrase.Disk

variable {α β : Type}

/-! ## Runs of operations -/

/-- From a disk of one kind an operation comes to a result, or it fails, and the disk is then of
another kind. -/
structure Action.Leads (pre : Disk → Prop) (action : Action α) (post : α → Disk → Prop)
    (fail : Failure → Disk → Prop) : Prop where
  outcome : ∀ disk, pre disk → match action.run.run disk with
    | (.ok a, disk') => post a disk'
    | (.error failure, disk') => fail failure disk'

namespace Action.Leads

variable {pre mid : Disk → Prop} {action : Action α} {post post' : α → Disk → Prop}
  {fail fail' : Failure → Disk → Prop}

theorem ok (h : Leads pre action post fail) {disk disk' : Disk} {a : α} (hpre : pre disk)
    (hrun : action.run.run disk = (.ok a, disk')) : post a disk' := by
  have hdisk := h.outcome disk hpre
  rwa [hrun] at hdisk

theorem mono (h : Leads mid action post' fail') (hpre : ∀ disk, pre disk → mid disk)
    (hpost : ∀ a disk, post' a disk → post a disk)
    (hfail : ∀ failure disk, fail' failure disk → fail failure disk) :
    Leads pre action post fail := by
  refine ⟨fun disk hdisk => ?_⟩
  have hmid := h.outcome disk (hpre disk hdisk)
  rcases hrun : action.run.run disk with ⟨result, disk'⟩
  rw [hrun] at hmid
  cases result with
  | ok a => exact hpost a disk' hmid
  | error failure => exact hfail failure disk' hmid

/-- It is enough to know what comes of each disk. -/
theorem of_forall (h : ∀ disk, pre disk → Leads (· = disk) action post fail) :
    Leads pre action post fail :=
  ⟨fun disk hdisk => (h disk hdisk).outcome disk rfl⟩

theorem bind {f : α → Action β} {mid : α → Disk → Prop} {post : β → Disk → Prop}
    (h : Leads pre action mid fail) (hf : ∀ a, Leads (mid a) (f a) post fail) :
    Leads pre (action >>= f) post fail := by
  refine ⟨fun disk hdisk => ?_⟩
  have hmid := h.outcome disk hdisk
  rw [ExceptT.run_bind, StateT.run_bind]
  rcases hrun : action.run.run disk with ⟨result, disk'⟩
  rw [hrun] at hmid
  cases result with
  | ok a => exact (hf a).outcome disk' hmid
  | error failure => exact hmid

theorem pure {a : α} (h : ∀ disk, pre disk → post a disk) :
    Leads pre (Pure.pure a : Action α) post fail := ⟨h⟩

theorem throw {failure : Failure} (h : ∀ disk, pre disk → fail failure disk) :
    Leads pre (MonadExcept.throw failure : Action α) post fail := ⟨h⟩

theorem done {disk disk' : Disk} {a : α} (hrun : action.run.run disk = (.ok a, disk'))
    (h : post a disk') : Leads (· = disk) action post fail := by
  constructor
  rintro _ rfl
  rwa [hrun]

/-- The first operation comes to a result, and the others go on from there. -/
theorem step {f : α → Action β} {post : β → Disk → Prop} {disk disk' : Disk} {a : α}
    (hrun : action.run.run disk = (.ok a, disk')) (h : Leads (· = disk') (f a) post fail) :
    Leads (· = disk) (action >>= f) post fail := by
  constructor
  rintro _ rfl
  rw [run_bind_ok hrun]
  exact h.outcome disk' rfl

/-- The first operation fails, and the others are left out. -/
theorem stop {f : α → Action β} {post : β → Disk → Prop} {disk disk' : Disk} {failure : Failure}
    (hrun : action.run.run disk = (.error failure, disk')) (h : fail failure disk') :
    Leads (· = disk) (action >>= f) post fail := by
  constructor
  rintro _ rfl
  rwa [run_bind_error hrun]

/-- Attempts do not fail. -/
theorem attempt (h : Leads pre action post fail) : Leads pre action.attempt
    (fun result disk => match result with
      | .ok a => post a disk
      | .error failure => fail failure disk) fail' := by
  refine ⟨fun disk hdisk => ?_⟩
  have hmid := h.outcome disk hdisk
  unfold Action.attempt
  rw [ExceptT.run_tryCatch, StateT.run_bind, ExceptT.run_bind, StateT.run_bind]
  rcases hrun : action.run.run disk with ⟨result, disk'⟩
  rw [hrun] at hmid
  cases result with
  | ok a => exact hmid
  | error failure => exact hmid

end Action.Leads

/-- Whether it comes to a result or fails, an operation leaves a disk of a kind as one of this
kind. -/
def Action.Holds (kind : Disk → Prop) (action : Action α) : Prop :=
  Leads kind action (fun _ => kind) (fun _ => kind)

namespace Action.Holds

variable {kind : Disk → Prop}

theorem of_run {action : Action α} (h : Holds kind action) {disk disk' : Disk}
    {result : Except Failure α} (hdisk : kind disk)
    (hrun : action.run.run disk = (result, disk')) : kind disk' := by
  have houtcome := h.outcome disk hdisk
  rw [hrun] at houtcome
  cases result <;> exact houtcome

theorem pure (a : α) : Holds kind (Pure.pure a : Action α) := Leads.pure fun _ => id

theorem throw (failure : Failure) : Holds kind (MonadExcept.throw failure : Action α) :=
  Leads.throw fun _ => id

theorem bind {action : Action α} {f : α → Action β} (h : Holds kind action)
    (hf : ∀ a, Holds kind (f a)) : Holds kind (action >>= f) := Leads.bind h hf

theorem attempt {action : Action α} (h : Holds kind action) : Holds kind action.attempt :=
  Leads.mono (Leads.attempt h) (fun _ => id)
    (fun result _ hdisk => match result with
      | .ok _ => hdisk
      | .error _ => hdisk)
    (fun _ _ => id)

theorem get : Holds kind (MonadState.get : Action Disk) :=
  .of_forall fun disk hdisk => .done (run_get disk) hdisk

theorem compute (r : Except Fault α) : Holds kind (Action.compute r) := by
  cases r with
  | ok a => exact .pure a
  | error fault => exact .throw (.fault fault)

end Action.Holds

/-- Where it fails an operation has changed nothing. -/
def Action.IsClean {α : Type} (action : Action α) : Prop :=
  ∀ disk, Leads (· = disk) action (fun _ _ => True) (fun _ disk' => disk' = disk)

/-! ## Writing -/

theorem of_writable {disk : Disk} {path : String} {location : Location} {content : ByteArray}
    (h : disk.writable path = .ok (location, content)) :
    ∃ entry, disk.resolve true path = .ok ⟨location, entry⟩ ∧
      ∀ entry, disk.get? location = some entry → entry.IsFile := by
  unfold writable at h
  split at h
  · rename_i content' hresolve
    cases h
    refine ⟨_, hresolve, fun entry hentry => ⟨content, ?_⟩⟩
    have hget := get?_of_resolve hresolve
    exact Option.some.inj (hentry.symm.trans hget.symm)
  · rename_i hresolve
    cases h
    refine ⟨_, hresolve, fun entry hentry => ?_⟩
    have hget := get?_of_resolve hresolve
    nomatch hentry.symm.trans hget.symm
  · cases h
  · cases h

/-- A file that was put where one may be written is found there. -/
theorem resolve_writable {disk : Disk} {path : String} {location : Location} {before : ByteArray}
    (h : disk.writable path = .ok (location, before)) (content : ByteArray) :
    (disk.put location (.file content)).resolve true path =
      .ok ⟨location, some (.file content)⟩ := by
  obtain ⟨entry, hresolve, hfile⟩ := of_writable h
  have hne := ne_nil_of_isFile hfile
  have hresolve' := resolve_of_stands (stands_put (.file content) hfile) rfl hresolve
    fun entry hentry hnot => by
      rw [get?_put_self disk hne] at hentry
      exact absurd ⟨content, (Option.some.inj hentry).symm⟩ hnot
  rwa [get?_put_self disk hne] at hresolve'

theorem writable_put {disk : Disk} {path : String} {location : Location} {before : ByteArray}
    (h : disk.writable path = .ok (location, before)) (content : ByteArray) :
    (disk.put location (.file content)).writable path = .ok (location, content) := by
  unfold writable
  rw [resolve_writable h]

/-- A file that is missing counts as an empty one. -/
theorem getD_bytesAt {disk : Disk} {path : String} {location : Location} {content : ByteArray}
    (h : disk.writable path = .ok (location, content)) :
    (disk.bytesAt path).toOption.getD ByteArray.empty = content := by
  unfold writable at h
  unfold bytesAt
  split at h
  · rename_i hresolve
    rw [hresolve]
    cases h
    rfl
  · rename_i hresolve
    rw [hresolve]
    cases h
    rfl
  · cases h
  · cases h

/-- What there is no room for is cut off. -/
theorem leads_fill (location : Location) (before added : ByteArray) (disk : Disk) :
    Action.Leads (· = disk) (fill location before added)
      (fun _ disk' => disk' = disk.put location (.file (before ++ added)) ∧
        ∀ limit ∈ disk.limit, (before ++ added).size ≤ max limit before.size)
      (fun failure disk' => failure = .refused .tooLarge ∧ ∃ limit, disk.limit = some limit ∧
        max limit before.size < (before ++ added).size ∧
        disk' = disk.put location
          (.file ((before ++ added).extract 0 (max limit before.size)))) := by
  unfold fill
  refine .step (run_get disk) ?_
  cases hlimit : disk.limit with
  | none => exact .done (run_set disk _) ⟨rfl, fun _ hmem => by cases hmem⟩
  | some limit =>
    dsimp only
    refine .step (run_set disk _) ?_
    split
    · rename_i hroom
      exact .throw fun disk' hdisk' => ⟨rfl, limit, rfl, hroom, hdisk'⟩
    · rename_i hroom
      have hle := Nat.le_of_not_lt hroom
      refine .pure fun disk' hdisk' => ⟨?_, fun other hmem => Option.some.inj hmem ▸ hle⟩
      rw [hdisk', extract_zero_of_le hle]

/-- A file is written whole, or it is left alone, or it is cut off where there is no more room. -/
theorem leads_writeBytes (path : String) (content : ByteArray) (disk : Disk) :
    Action.Leads (· = disk) (writeBytes path content)
      (fun _ disk' => ∃ location before, disk.writable path = .ok (location, before) ∧
        disk' = disk.put location (.file content))
      (fun failure disk' =>
        (∃ e, failure = .refused e ∧ disk.writable path = .error e ∧ disk' = disk) ∨
        ∃ location before limit, failure = .refused .tooLarge ∧
          disk.writable path = .ok (location, before) ∧ disk.limit = some limit ∧
          limit < content.size ∧ disk' = disk.put location (.file (content.extract 0 limit))) := by
  unfold writeBytes
  cases hwritable : disk.writable path with
  | error e => exact .stop (run_look_error hwritable) (.inl ⟨e, rfl, rfl, rfl⟩)
  | ok target =>
    obtain ⟨location, before⟩ := target
    refine .step (run_look hwritable) (.step (run_modify _ disk) ?_)
    refine (leads_fill location ByteArray.empty content _).mono (fun _ => id) ?_ ?_
    · rintro _ disk' ⟨rfl, -⟩
      rw [ByteArray.empty_append, put_put]
      exact ⟨location, before, rfl, rfl⟩
    · rintro failure disk' ⟨rfl, limit, hlimit, hroom, rfl⟩
      have hmax : max limit ByteArray.empty.size = limit := Nat.max_eq_left (Nat.zero_le limit)
      rw [ByteArray.empty_append, hmax] at hroom
      rw [ByteArray.empty_append, hmax, put_put]
      exact .inr ⟨location, before, limit, rfl, rfl, hlimit, hroom, rfl⟩

/-- A disk with another content of the file that a path leads to. -/
def Written (path : String) (disk disk' : Disk) : Prop :=
  ∃ location before after, disk.writable path = .ok (location, before) ∧
    disk' = disk.put location (.file after)

/-- A disk with a text added at the end of the file that a path leads to. -/
def Extended (path text : String) (disk disk' : Disk) : Prop :=
  ∃ location before, disk.writable path = .ok (location, before) ∧
    disk' = disk.put location (.file (before ++ text.toUTF8))

theorem Extended.bytesAt {path text : String} {disk disk' : Disk} (h : Extended path text disk disk') :
    disk'.bytesAt path =
      .ok ((disk.bytesAt path).toOption.getD ByteArray.empty ++ text.toUTF8) := by
  obtain ⟨location, before, hwritable, rfl⟩ := h
  rw [getD_bytesAt hwritable]
  exact bytesAt_of_resolve (resolve_writable hwritable _)

/-- A text is added whole, or it is cut off where there is no more room. -/
theorem leads_appendText_of_writable {path : String} {disk : Disk} {location : Location}
    {before : ByteArray} (h : disk.writable path = .ok (location, before)) (text : String) :
    Action.Leads (· = disk) (appendText path text)
      (fun _ disk' => disk' = disk.put location (.file (before ++ text.toUTF8)) ∧
        ∀ limit ∈ disk.limit, (before ++ text.toUTF8).size ≤ max limit before.size)
      (fun _ disk' => ∃ limit, disk.limit = some limit ∧
        max limit before.size < (before ++ text.toUTF8).size ∧
        disk' = disk.put location
          (.file ((before ++ text.toUTF8).extract 0 (max limit before.size)))) := by
  unfold appendText
  refine .step (run_look h) (.step (run_modify _ disk) ?_)
  refine (leads_fill location before text.toUTF8 _).mono (fun _ => id) ?_ ?_
  · rintro _ disk' ⟨rfl, hroom⟩
    exact ⟨put_put _ _ _ _, hroom⟩
  · rintro failure disk' ⟨-, limit, hlimit, hroom, rfl⟩
    exact ⟨limit, hlimit, hroom, put_put _ _ _ _⟩

theorem leads_extended (path text : String) (disk : Disk) :
    Action.Leads (· = disk) (appendText path text) (fun _ => Extended path text disk)
      (fun _ disk' => disk' = disk ∨ Written path disk disk') := by
  cases hwritable : disk.writable path with
  | error e =>
    unfold appendText
    exact .stop (run_look_error hwritable) (.inl rfl)
  | ok target =>
    obtain ⟨location, before⟩ := target
    refine (leads_appendText_of_writable hwritable text).mono (fun _ => id) ?_ ?_
    · rintro _ disk' ⟨rfl, -⟩
      exact ⟨location, before, hwritable, rfl⟩
    · rintro failure disk' ⟨limit, -, -, rfl⟩
      exact .inr ⟨location, before, _, hwritable, rfl⟩

theorem leads_appendText (path text : String) (disk : Disk) :
    Action.Leads (· = disk) (appendText path text) (fun _ => Written path disk)
      (fun _ disk' => disk' = disk ∨ Written path disk disk') :=
  (leads_extended path text disk).mono (fun _ => id)
    (fun _ _ ⟨location, before, hwritable, hdisk'⟩ => ⟨location, before, _, hwritable, hdisk'⟩)
    (fun _ _ => id)

theorem leads_touch (path : String) (disk : Disk) :
    Action.Leads (· = disk) (touch path) (fun _ => Written path disk)
      (fun _ disk' => disk' = disk) := by
  unfold touch
  cases hwritable : disk.writable path with
  | error e => exact .stop (run_look_error hwritable) rfl
  | ok target =>
    obtain ⟨location, before⟩ := target
    exact .step (run_look hwritable)
      (.done (run_modify _ disk) ⟨location, before, before, hwritable, rfl⟩)

/-! ## Directories -/

/-- A disk with a new directory in the place that a path leads to. -/
def Made (path : String) (disk disk' : Disk) : Prop :=
  ∃ location, disk.resolve false path = .ok ⟨location, none⟩ ∧
    disk' = disk.put location .directory

theorem leads_makeDirectory (path : String) (disk : Disk) :
    Action.Leads (· = disk) (makeDirectory path) (fun _ => Made path disk)
      (fun failure disk' => disk' = disk ∧
        (failure = .refused .notFound → disk.resolve false path = .error .notFound)) := by
  unfold makeDirectory
  cases hresolve : disk.resolve false path with
  | error e =>
    refine .stop (run_look_error hresolve) ⟨rfl, fun heq => ?_⟩
    rw [Failure.refused.inj heq]
  | ok place =>
    obtain ⟨location, entry⟩ := place
    refine .step (run_look hresolve) ?_
    cases entry with
    | some entry => exact .throw fun disk' hdisk' => ⟨hdisk', nofun⟩
    | none => exact .done (run_modify _ disk) ⟨location, hresolve, rfl⟩

/-- Only one directory is made where the one above it stands. -/
theorem leads_makeDirectories (path : String) (disk : Disk)
    (h : disk.resolve false path ≠ .error .notFound) :
    Action.Leads (· = disk) (makeDirectories path)
      (fun _ disk' => disk' = disk ∨ Made path disk disk') (fun _ disk' => disk' = disk) := by
  unfold makeDirectories makeDirectoriesFrom
  split
  · exact .pure fun disk' hdisk' => .inl hdisk'
  refine .bind (leads_makeDirectory path disk).attempt fun result => ?_
  cases result with
  | ok _ => exact .pure fun disk' hdisk' => .inr hdisk'
  | error failure =>
    refine .of_forall fun disk' hdisk' => ?_
    obtain ⟨rfl, hfailure⟩ := hdisk'
    split
    · cases ‹Except.error _ = _›
    · rename_i heq
      exact absurd (hfailure (Except.error.inj heq)) h
    · refine .step (run_get disk') ?_
      split
      · exact .pure fun disk' hdisk' => .inl hdisk'
      · exact .throw fun disk' hdisk' => hdisk'

/-! ## Moves -/

/-- A disk with a file taken from one path to another. -/
def Moved (source target : String) (disk disk' : Disk) : Prop :=
  ∃ old new entry, disk.resolve false source = .ok ⟨old, some entry⟩ ∧
    disk.resolve false target = .ok new ∧ new.entry ≠ some .directory ∧
    disk' = (disk.erase old).put new.location entry

theorem leads_rename (source target : String) (disk : Disk)
    (h : ∀ location, disk.resolve false source ≠ .ok ⟨location, some .directory⟩) :
    Action.Leads (· = disk) (rename source target) (fun _ => Moved source target disk)
      (fun _ disk' => disk' = disk) := by
  unfold rename
  cases hold : disk.resolve false source with
  | error e => exact .stop (run_look_error hold) rfl
  | ok old =>
    refine .step (run_look hold) ?_
    cases hnew : disk.resolve false target with
    | error e => exact .stop (run_look_error hnew) rfl
    | ok new =>
      refine .step (run_look hnew) ?_
      obtain ⟨old, entry⟩ := old
      obtain ⟨new, entry'⟩ := new
      dsimp only
      split
      · exact .throw fun disk' hdisk' => hdisk'
      · exact absurd hold (h old)
      · exact absurd hold (h old)
      · exact absurd hold (h old)
      · exact .throw fun disk' hdisk' => hdisk'
      · rename_i hdirectory
        exact .done (run_modify _ disk) ⟨old, _, _, hold, hnew, hdirectory, rfl⟩

theorem isClean_rename (source target : String) : Action.IsClean (rename source target) := by
  intro disk
  unfold rename
  cases hold : disk.resolve false source with
  | error e => exact .stop (run_look_error hold) rfl
  | ok old =>
    refine .step (run_look hold) ?_
    cases hnew : disk.resolve false target with
    | error e => exact .stop (run_look_error hnew) rfl
    | ok new =>
      refine .step (run_look hnew) ?_
      split
      · exact .throw fun _ => id
      · exact .done (run_modify _ disk) trivial
      · exact .throw fun _ => id
      · exact .throw fun _ => id
      · exact .throw fun _ => id
      · exact .done (run_modify _ disk) trivial

/-- A disk without the file that a path leads to. -/
def Removed (path : String) (disk disk' : Disk) : Prop :=
  ∃ location entry, disk.resolve false path = .ok ⟨location, some entry⟩ ∧
    entry ≠ .directory ∧ disk' = disk.erase location

theorem leads_remove (path : String) (disk : Disk) :
    Action.Leads (· = disk) (remove path) (fun _ => Removed path disk)
      (fun _ disk' => disk' = disk) := by
  unfold remove
  cases hresolve : disk.resolve false path with
  | error e => exact .stop (run_look_error hresolve) rfl
  | ok place =>
    refine .step (run_look hresolve) ?_
    obtain ⟨location, entry⟩ := place
    dsimp only
    split
    · exact .throw fun disk' hdisk' => hdisk'
    · exact .throw fun disk' hdisk' => hdisk'
    · rename_i hdirectory
      exact .done (run_modify _ disk) ⟨location, _, hresolve, hdirectory, rfl⟩

end Rephrase.Disk
