import Rephrase.Disk.Access
import Rephrase.Proofs.Disk.Below
import Rephrase.Proofs.Fault

/-! What operations on a disk come to when they are run. A file that can be read can be written, and
then it reads as what was written. -/

namespace Rephrase.Disk

/-! ## Runs -/

section

variable {α β : Type}

section

variable {σ : Type} {first : ExceptT Failure (StateM σ) α} {state state' : σ}

theorem run_bind_ok {a : α} (h : first.run.run state = (.ok a, state'))
    (f : α → ExceptT Failure (StateM σ) β) :
    (first >>= f).run.run state = (f a).run.run state' := by
  rw [ExceptT.run_bind, StateT.run_bind, h]
  rfl

theorem run_bind_error {failure : Failure} (h : first.run.run state = (.error failure, state'))
    (f : α → ExceptT Failure (StateM σ) β) :
    (first >>= f).run.run state = (.error failure, state') := by
  rw [ExceptT.run_bind, StateT.run_bind, h]
  rfl

theorem of_run_bind {f : α → ExceptT Failure (StateM σ) β} {b : β}
    (h : (first >>= f).run.run state = (.ok b, state')) :
    ∃ a middle, first.run.run state = (.ok a, middle) ∧ (f a).run.run middle = (.ok b, state') := by
  rcases hrun : first.run.run state with ⟨result, middle⟩
  cases result with
  | ok a => exact ⟨a, middle, rfl, (run_bind_ok hrun f).symm.trans h⟩
  | error failure =>
    rw [run_bind_error hrun] at h
    cases h

theorem of_run_bind_error {f : α → ExceptT Failure (StateM σ) β} {failure : Failure}
    (h : (first >>= f).run.run state = (.error failure, state')) :
    first.run.run state = (.error failure, state') ∨
      ∃ a middle, first.run.run state = (.ok a, middle) ∧
        (f a).run.run middle = (.error failure, state') := by
  rcases hrun : first.run.run state with ⟨result, middle⟩
  cases result with
  | ok a => exact .inr ⟨a, middle, rfl, (run_bind_ok hrun f).symm.trans h⟩
  | error failure' =>
    rw [run_bind_error hrun] at h
    cases h
    exact .inl rfl

end

theorem run_pure (a : α) (disk : Disk) : (pure a : Action α).run.run disk = (.ok a, disk) := rfl

theorem run_get (disk : Disk) : (get : Action Disk).run.run disk = (.ok disk, disk) := rfl

theorem run_set (disk disk' : Disk) :
    (set disk' : Action PUnit).run.run disk = (.ok (), disk') := rfl

theorem run_modify (f : Disk → Disk) (disk : Disk) :
    (modify f : Action Unit).run.run disk = (.ok (), f disk) := rfl

theorem run_compute {r : Except Fault α} {a : α} (h : r = .ok a) (disk : Disk) :
    (Action.compute r).run.run disk = (.ok a, disk) := by
  rw [h]
  rfl

theorem run_look {f : Disk → Except Error α} {disk : Disk} {a : α} (h : f disk = .ok a) :
    (Action.look f).run.run disk = (.ok a, disk) := by
  unfold Action.look
  rw [run_bind_ok (run_get disk), h]
  rfl

theorem run_look_error {f : Disk → Except Error α} {disk : Disk} {e : Error}
    (h : f disk = .error e) : (Action.look f).run.run disk = (.error (.refused e), disk) := by
  unfold Action.look
  rw [run_bind_ok (run_get disk), h]
  rfl

theorem run_attempt_ok {action : Action α} {disk disk' : Disk} {a : α}
    (h : action.run.run disk = (.ok a, disk')) :
    action.attempt.run.run disk = (.ok (.ok a), disk') := by
  have hwrapped : (action >>= fun a => pure (.ok a) : Action (Except Failure α)).run.run disk =
      (.ok (.ok a), disk') := by
    rw [run_bind_ok h]
    rfl
  unfold Action.attempt
  rw [ExceptT.run_tryCatch, StateT.run_bind, hwrapped]
  rfl

theorem run_attempt_error {action : Action α} {disk disk' : Disk} {failure : Failure}
    (h : action.run.run disk = (.error failure, disk')) :
    action.attempt.run.run disk = (.ok (.error failure), disk') := by
  have hwrapped : (action >>= fun a => pure (.ok a) : Action (Except Failure α)).run.run disk =
      (.error failure, disk') := run_bind_error h _
  unfold Action.attempt
  rw [ExceptT.run_tryCatch, StateT.run_bind, hwrapped]
  rfl

end

/-! ## Files -/

theorem resolve_put {disk : Disk} {follow : Bool} {path : String} {location : Location}
    {content : ByteArray}
    (h : disk.resolve follow path = .ok ⟨location, some (.file content)⟩)
    (content' : ByteArray) : (disk.put location (.file content')).resolve follow path =
      .ok ⟨location, some (.file content')⟩ := by
  have hget : disk.get? location = some (.file content) := (get?_of_resolve h).symm
  rw [resolve_put_file hget, h]
  show Except.ok (Place.mk location _) = _
  rw [get?_put_self disk (ne_nil_of_get? hget)]

/-- A path that leads elsewhere leads to what was there. -/
theorem resolve_put_of_ne {disk : Disk} {follow : Bool} {path : String} {target location : Location}
    {content : ByteArray} {entry : Option Entry} (hget : disk.get? target = some (.file content))
    (h : disk.resolve follow path = .ok ⟨location, entry⟩) (hne : location ≠ target)
    (content' : ByteArray) :
    (disk.put target (.file content')).resolve follow path = .ok ⟨location, entry⟩ := by
  rw [resolve_put_file hget, h]
  show Except.ok (Place.mk location _) = _
  rw [get?_put_of_ne disk hne, ← get?_of_resolve h]

theorem bytesAt_of_resolve {disk : Disk} {path : String} {location : Location}
    {content : ByteArray} (h : disk.resolve true path = .ok ⟨location, some (.file content)⟩) :
    disk.bytesAt path = .ok content := by
  unfold bytesAt
  rw [h]

theorem resolve_of_bytesAt {disk : Disk} {path : String} {content : ByteArray}
    (h : disk.bytesAt path = .ok content) :
    ∃ location, disk.resolve true path = .ok ⟨location, some (.file content)⟩ := by
  unfold bytesAt at h
  split at h
  · rename_i location content hresolve
    cases h
    exact ⟨location, hresolve⟩
  all_goals cases h

/-- Another file does not change. -/
theorem bytesAt_put_of_ne {disk : Disk} {location : Location} {content : ByteArray}
    (h : disk.get? location = some (.file content)) (content' : ByteArray) {path : String}
    (hne : ∀ place, disk.resolve true path = .ok place → place.location ≠ location) :
    (disk.put location (.file content')).bytesAt path = disk.bytesAt path := by
  unfold bytesAt
  rw [resolve_put_file h]
  cases hresolve : disk.resolve true path with
  | error e => rfl
  | ok place =>
    obtain ⟨other, entry⟩ := place
    have hget : entry = disk.get? other := get?_of_resolve hresolve
    have hother : other ≠ location := hne _ hresolve
    dsimp only [Except.map]
    rw [hget, get?_put_of_ne disk hother]

/-! ## Texts -/

theorem toUTF8_append (a b : String) : (a ++ b).toUTF8 = a.toUTF8 ++ b.toUTF8 :=
  String.toByteArray_append

theorem fromUTF8?_toUTF8 (text : String) : String.fromUTF8? text.toUTF8 = some text := by
  unfold String.fromUTF8?
  rw [String.toUTF8_eq_toByteArray, dif_pos text.isValidUTF8]
  rfl

theorem textAt_of_resolve {disk : Disk} {path text : String} {location : Location}
    (h : disk.resolve true path = .ok ⟨location, some (.file text.toUTF8)⟩) :
    disk.textAt path = .ok text := by
  have hbytes : disk.bytesAt path = .ok text.toUTF8 := by
    unfold bytesAt
    rw [h]
  unfold textAt
  rw [hbytes]
  rw [ok_bind]
  rw [fromUTF8?_toUTF8]

/-- A name alone is that of a file in the working directory. -/
theorem textAt_name {disk : Disk} {name text : String}
    (hname : Path.IsName name ∧ name.utf8ByteSize ≤ maxName) (hnul : name.toList.elem '\x00' = false)
    (hfile : disk.get? (disk.working ++ [name]) = some (.file text.toUTF8)) :
    disk.textAt name = .ok text := by
  have hlong : ¬maxPath < name.utf8ByteSize :=
    Nat.not_lt.mpr (Nat.le_trans hname.2 (by decide))
  have hwalk : disk.walk true maxLinks disk.working [name] = _ :=
    walk_names true maxLinks (List.forall_mem_singleton.mpr hname) trivial (by rw [hfile]; nofun)
  have hresolve : disk.resolve true name =
      .ok ⟨disk.working ++ [name], some (.file text.toUTF8)⟩ := by
    unfold resolve
    rw [if_neg (Bool.eq_false_iff.mp hnul), if_neg hname.1.ne_empty, if_neg hlong,
      startOf_name hname.1, steps_name hname.1, hwalk, hfile]
  exact textAt_of_resolve hresolve

theorem resolve_of_textAt {disk : Disk} {path text : String} (h : disk.textAt path = .ok text) :
    ∃ location content, disk.resolve true path = .ok ⟨location, some (.file content)⟩ := by
  unfold textAt bytesAt at h
  split at h
  · rename_i location content hresolve
    exact ⟨location, content, hresolve⟩
  all_goals cases h

theorem extract_zero_of_le {content : ByteArray} {n : Nat} (h : content.size ≤ n) :
    content.extract 0 n = content := by
  have hmax : max n content.size = n := Nat.max_eq_left h
  exact hmax ▸ ByteArray.extract_zero_max_size

theorem extract_append_of_le {content added : ByteArray} {n : Nat} (h : content.size ≤ n) :
    (content ++ added).extract 0 n = content ++ added.extract 0 (n - content.size) := by
  rw [ByteArray.extract_append, Nat.zero_sub, extract_zero_of_le h]

/-- Whether there is room for a file of a size. -/
def HasRoom (disk : Disk) (size : Nat) : Prop := ∀ limit ∈ disk.limit, size ≤ limit

theorem run_fill {disk : Disk} {added : ByteArray} (hroom : disk.HasRoom added.size)
    (location : Location) : (fill location ByteArray.empty added).run.run disk =
      (.ok (), disk.put location (.file added)) := by
  unfold fill
  rw [run_bind_ok (run_get disk), ByteArray.empty_append]
  cases hlimit : disk.limit with
  | none => exact run_set disk _
  | some limit =>
    have hle : added.size ≤ max limit ByteArray.empty.size :=
      Nat.le_trans (hroom limit hlimit) (Nat.le_max_left _ _)
    dsimp only
    -- Under the limit nothing is cut off.
    rw [extract_zero_of_le hle, run_bind_ok (run_set disk _), if_neg (Nat.not_lt.mpr hle)]
    rfl

theorem run_fill_unlimited {disk : Disk} (hlimit : disk.limit = none) (location : Location)
    (before added : ByteArray) : (fill location before added).run.run disk =
      (.ok (), disk.put location (.file (before ++ added))) := by
  unfold fill
  rw [run_bind_ok (run_get disk), hlimit]
  exact run_set disk _

theorem run_appendText {disk : Disk} {path : String} {location : Location} {content : ByteArray}
    (h : disk.writable path = .ok (location, content)) (hlimit : disk.limit = none)
    (text : String) : (appendText path text).run.run disk =
      (.ok (), disk.put location (.file (content ++ text.toUTF8))) := by
  unfold appendText
  rw [run_bind_ok (run_look h), run_bind_ok (run_modify _ _),
    run_fill_unlimited (show (disk.put _ _).limit = none from hlimit), put_put]

theorem run_touch {disk : Disk} {path : String} {location : Location} {content : ByteArray}
    (h : disk.writable path = .ok (location, content)) :
    (touch path).run.run disk = (.ok (), disk.put location (.file content)) := by
  unfold touch
  rw [run_bind_ok (run_look h)]
  exact run_modify _ _

theorem run_writeBytes_unlimited {disk : Disk} {path : String} {location : Location}
    {old : ByteArray} (h : disk.writable path = .ok (location, old)) (hlimit : disk.limit = none)
    (content : ByteArray) : (writeBytes path content).run.run disk =
      (.ok (), disk.put location (.file content)) := by
  unfold writeBytes
  rw [run_bind_ok (run_look h), run_bind_ok (run_modify _ _),
    run_fill_unlimited (show (disk.put _ _).limit = none from hlimit), put_put,
    ByteArray.empty_append]

/-- A directory is made below one that is there. -/
theorem run_makeDirectories_new {disk : Disk} {path : String} {location : Location}
    (hpath : path ≠ "") (h : disk.resolve false path = .ok ⟨location, none⟩) :
    (makeDirectories path).run.run disk = (.ok (), disk.put location .directory) := by
  have hmake : (makeDirectory path).run.run disk = (.ok (), disk.put location .directory) := by
    unfold makeDirectory
    rw [run_bind_ok (run_look h)]
    exact run_modify _ _
  unfold makeDirectories makeDirectoriesFrom
  rw [if_neg hpath, run_bind_ok (run_attempt_ok hmake)]
  rfl

/-- A file or a link is moved to where no directory stands. -/
theorem run_rename {disk : Disk} {source target : String} {old : Location} {entry : Entry}
    {new : Place} (hold : disk.resolve false source = .ok ⟨old, some entry⟩)
    (hentry : entry ≠ .directory) (hnew : disk.resolve false target = .ok new)
    (hdirectory : new.entry ≠ some .directory) : (rename source target).run.run disk =
      (.ok (), (disk.erase old).put new.location entry) := by
  obtain ⟨location, found⟩ := new
  unfold rename
  rw [run_bind_ok (run_look hold), run_bind_ok (run_look hnew)]
  dsimp only at hdirectory ⊢
  cases entry with
  | directory => exact absurd rfl hentry
  | file content =>
    cases found with
    | none => exact run_modify _ _
    | some other =>
      cases other with
      | directory => exact absurd rfl hdirectory
      | _ => exact run_modify _ _
  | link target =>
    cases found with
    | none => exact run_modify _ _
    | some other =>
      cases other with
      | directory => exact absurd rfl hdirectory
      | _ => exact run_modify _ _

/-- A directory that is there is not made. -/
theorem run_makeDirectories {disk : Disk} {path : String} {location : Location}
    (h : ∀ follow, disk.resolve follow path = .ok ⟨location, some .directory⟩) :
    (makeDirectories path).run.run disk = (.ok (), disk) := by
  have hmake : (makeDirectory path).run.run disk = (.error (.refused .exists), disk) := by
    unfold makeDirectory
    rw [run_bind_ok (run_look (h false))]
    rfl
  have hfound : disk.isDirectory path = true := by
    unfold isDirectory find?
    rw [h true]
    rfl
  unfold makeDirectories makeDirectoriesFrom
  split
  · rfl
  rw [run_bind_ok (run_attempt_error hmake)]
  dsimp only
  rw [run_bind_ok (run_get disk), if_pos hfound]
  rfl

/-- What there is no room for is cut off. -/
theorem run_fill_tooLarge {disk : Disk} {added : ByteArray} {limit : Nat}
    (hlimit : disk.limit = some limit) (hroom : limit < added.size) (location : Location) :
    (fill location ByteArray.empty added).run.run disk = (.error (.refused .tooLarge),
      disk.put location (.file (added.extract 0 limit))) := by
  unfold fill
  rw [run_bind_ok (run_get disk), ByteArray.empty_append, hlimit]
  have hmax : max limit ByteArray.empty.size = limit := Nat.max_eq_left (Nat.zero_le limit)
  dsimp only
  rw [hmax, run_bind_ok (run_set disk _), if_pos hroom]
  rfl

/-- A file that is there is written whole, or it is cut off where there is no more room. -/
theorem run_writeBytes {disk : Disk} {path : String} {location : Location} {old : ByteArray}
    (h : disk.resolve true path = .ok ⟨location, some (.file old)⟩) (content : ByteArray) :
    (writeBytes path content).run.run disk =
      match disk.limit.filter (· < content.size) with
      | none => (.ok (), disk.put location (.file content))
      | some limit =>
        (.error (.refused .tooLarge), disk.put location (.file (content.extract 0 limit))) := by
  have hwritable : disk.writable path = .ok (location, old) := by
    unfold writable
    rw [h]
  unfold writeBytes
  rw [run_bind_ok (run_look hwritable), run_bind_ok (run_modify _ disk)]
  split
  · rename_i hroom
    have hempty : (disk.put location (.file ByteArray.empty)).HasRoom content.size := by
      intro limit hlimit
      have hnot := Option.filter_eq_none_iff.mp hroom limit hlimit
      simpa using hnot
    rw [run_fill hempty, put_put]
  · rename_i limit hlimit
    obtain ⟨hlimit, hroom⟩ := Option.filter_eq_some_iff.mp hlimit
    rw [run_fill_tooLarge (show (disk.put location _).limit = _ from hlimit)
      (of_decide_eq_true hroom), put_put]

/-- Writing a text to a file that is there succeeds if there is room, and the text is read again. -/
theorem run_writeText {disk : Disk} {path old : String} (h : disk.textAt path = .ok old)
    (text : String) (hroom : disk.HasRoom text.toUTF8.size) :
    ∃ disk', (writeText path text).run.run disk = (.ok (), disk') ∧
      disk'.textAt path = .ok text := by
  -- The file is emptied first and then filled, and found at the same place after either.
  obtain ⟨location, content, hresolve⟩ := resolve_of_textAt h
  have hemptied := resolve_put hresolve ByteArray.empty
  have hfilled := resolve_put hemptied text.toUTF8
  have hwritable : disk.writable path = .ok (location, content) := by
    unfold writable
    rw [hresolve]
  refine ⟨_, ?_, textAt_of_resolve hfilled⟩
  unfold writeText writeBytes
  rw [run_bind_ok (run_look hwritable), run_bind_ok (run_modify _ disk)]
  exact run_fill (show (disk.put location _).HasRoom _ from hroom) location

end Rephrase.Disk
