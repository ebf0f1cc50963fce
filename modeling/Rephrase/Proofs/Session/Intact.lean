import Rephrase.Proofs.Disk.Ways
import Rephrase.Proofs.Session.Calls

/-! Whatever is done before the store's file is replaced as a whole is done to other files, as long
as no link makes one of them the store. -/

namespace Rephrase.Store

open Disk (Action Failure Gains Location)
open Discovery (pathBelow)
open Rephrase.Path (IsName)
open Session (IsLockable directoryName)

variable {root : String} {before made disk : Disk}

/-! ## Files apart from the store -/

/-- By what a session writes to the store cannot be reached: the list of ignored files is not the
store's file, the lock does not stand for one that is missing, and the file that a new store is
passed through does not have its place. -/
structure IsApart (root : String) (disk : Disk) : Prop where
  list : ∀ place location content, disk.resolve true (Path.join root ".gitignore") = .ok place →
    disk.resolve true (path root) = .ok ⟨location, some (.file content)⟩ →
      place.location ≠ location
  lock : ∀ place location, disk.resolve true (Session.inside root ".lock") = .ok place →
    disk.resolve true (path root) = .ok ⟨location, none⟩ → place.location ≠ location
  passing : ∀ place store, disk.resolve true (passing root) = .ok place →
    disk.resolve true (path root) = .ok store → place.location ≠ store.location

/-- A disk that has gained files, none of them where the path of the store leads to. -/
structure IsIntact (root : String) (before disk : Disk) : Prop where
  gains : Gains before disk
  same : ∀ place, before.resolve true (path root) = .ok place →
    disk.get? place.location = before.get? place.location

namespace IsIntact

theorem refl (root : String) (disk : Disk) : IsIntact root disk disk :=
  ⟨.refl disk, fun _ _ => rfl⟩

theorem toOption_bytesAt (h : IsIntact root before disk) :
    (disk.bytesAt (path root)).toOption = (before.bytesAt (path root)).toOption :=
  h.gains.toOption_bytesAt h.same

/-- A file is written that is not the store, or it is given the content that it has. -/
theorem put (h : IsIntact root before disk) {file : String} {location : Location}
    {old : ByteArray} (hwritable : disk.writable file = .ok (location, old)) (content : ByteArray)
    (hsafe : ∀ place, before.resolve true file = .ok ⟨location, before.get? location⟩ →
      before.resolve true (path root) = .ok place → place.location = location →
        place.entry = some (.file content)) :
    IsIntact root before (disk.put location (.file content)) := by
  obtain ⟨entry, hresolve, hfile⟩ := Disk.of_writable hwritable
  refine ⟨h.gains.trans (.put hfile content), fun place hplace => ?_⟩
  by_cases hlocation : place.location = location
  · have hentry := hsafe place (h.gains.resolve_back hresolve) hplace hlocation
    have hne := Disk.ne_nil_of_isFile hfile
    rw [hlocation, Disk.get?_put_self disk hne, ← hentry, Disk.get?_of_resolve hplace, hlocation]
  · rw [Disk.get?_put_of_ne disk hlocation, h.same place hplace]

end IsIntact

/-! ## The lock -/

/-- What may be written has the content that is known, or is missing and counts as empty. -/
theorem entry_of_writable {file : String} {location : Location} {content : ByteArray}
    (h : disk.writable file = .ok (location, content)) :
    disk.get? location = some (.file content) ∨
      disk.get? location = none ∧ content = ByteArray.empty := by
  unfold Disk.writable at h
  split at h
  · rename_i hresolve
    cases h
    exact .inl (Disk.get?_of_resolve hresolve).symm
  · rename_i hresolve
    cases h
    exact .inr ⟨(Disk.get?_of_resolve hresolve).symm, rfl⟩
  · cases h
  · cases h

theorem exists_file_of_holds {file : String} {location : Location} {content : ByteArray}
    (hholds : disk.holds file = true) (h : disk.writable file = .ok (location, content)) :
    ∃ content, disk.get? location = some (.file content) := by
  obtain hfound | ⟨hmissing, -⟩ := entry_of_writable h
  · exact ⟨content, hfound⟩
  · obtain ⟨entry, hresolve, -⟩ := Disk.of_writable h
    obtain rfl : entry = none := (Disk.get?_of_resolve hresolve).trans hmissing
    unfold Disk.holds Disk.find? at hholds
    rw [hresolve] at hholds
    cases hholds

/-- A file may still be written where nothing but files was put. -/
theorem exists_writable {file : String} {disk' : Disk}
    (hresolve : ∀ place, disk.resolve true file = .ok place →
      disk'.resolve true file = .ok ⟨place.location, disk'.get? place.location⟩)
    (hstands : Disk.Stands disk' disk) (h : ∃ target, disk.writable file = .ok target) :
    ∃ target, disk'.writable file = .ok target := by
  rw [Session.writable_iff] at h ⊢
  obtain ⟨place, hplace, hdirectory, hlink⟩ := h
  have hentry := Disk.get?_of_resolve hplace
  exact ⟨_, hresolve place hplace,
    fun heq => hdirectory (hentry.trans (hstands _ _ heq Disk.not_isFile_directory)),
    fun target heq => hlink target (hentry.trans (hstands _ _ heq (Disk.not_isFile_link target)))⟩

/-- The same, when the session was locked. -/
structure IsLocked (root : String) (before disk : Disk) : Prop where
  intact : IsIntact root before disk
  lock : ∃ target, disk.writable (Session.inside root ".lock") = .ok target

section

variable (h : IsApart root before)
include h

/-- Only a list that is there is added to. -/
theorem holds_hide : Action.Holds (IsIntact root before) (Session.hide root) := by
  unfold Session.hide
  refine .of_forall fun disk hdisk => .step (Disk.run_get disk) ?_
  dsimp only
  split
  · rename_i hholds
    split
    · have hput {disk' : Disk} (hwritten : Disk.Written (Path.join root ".gitignore") disk disk') :
          IsIntact root before disk' := by
        obtain ⟨location, old, new, hwritable, rfl⟩ := hwritten
        refine hdisk.put hwritable new fun place hlist hplace hlocation => ?_
        obtain ⟨content, hfile⟩ := exists_file_of_holds hholds hwritable
        -- Had the list been the store, it would have been a store that is there.
        obtain ⟨store, entry⟩ := place
        obtain rfl : store = location := hlocation
        obtain rfl : entry = some (.file content) :=
          (Disk.get?_of_resolve hplace).trans ((hdisk.same _ hplace).symm.trans hfile)
        exact absurd rfl (h.list _ _ _ hlist hplace)
      refine (Disk.leads_appendText _ _ disk).mono (fun _ => id) (fun _ disk' => hput)
        (fun _ disk' => ?_)
      rintro (rfl | hwritten)
      · exact hdisk
      · exact hput hwritten
    · exact .pure fun disk' hsame => hsame ▸ hdisk
  · exact .pure fun disk' hsame => hsame ▸ hdisk

theorem leads_touch :
    Action.Leads (IsIntact root before) (Disk.touch (Session.inside root ".lock"))
      (fun _ => IsLocked root before) (fun _ => IsIntact root before) := by
  refine .of_forall fun disk hdisk => ?_
  cases hwritable : disk.writable (Session.inside root ".lock") with
  | error e =>
    unfold Disk.touch
    exact .stop (Disk.run_look_error hwritable) hdisk
  | ok target =>
    obtain ⟨location, content⟩ := target
    refine .done (Disk.run_touch hwritable)
      ⟨hdisk.put hwritable content ?_, _, Disk.writable_put hwritable content⟩
    intro place hlock hplace hlocation
    obtain ⟨store, entry⟩ := place
    obtain rfl : store = location := hlocation
    have hentry : entry = disk.get? store :=
      (Disk.get?_of_resolve hplace).trans (hdisk.same _ hplace).symm
    -- A lock that is there keeps its content, so it may even be the store.
    obtain hfound | ⟨hmissing, -⟩ := entry_of_writable hwritable
    · exact hentry.trans hfound
    · rw [hentry, hmissing] at hplace
      exact absurd rfl (h.lock _ _ hlock hplace)

/-- What a new store is passed through is a file of its own when it was filled. -/
theorem leads_writeText (text : String) :
    Action.Leads (IsLocked root before) (Disk.writeText (passing root) text)
      (fun _ disk => IsLocked root before disk ∧ ∃ location content,
        disk.resolve true (passing root) = .ok ⟨location, some (.file content)⟩)
      (fun _ => IsLocked root before) := by
  refine .of_forall fun disk hdisk => ?_
  have hput {location : Location} {old : ByteArray}
      (hwritable : disk.writable (passing root) = .ok (location, old)) (content : ByteArray) :
      IsLocked root before (disk.put location (.file content)) := by
    obtain ⟨-, -, hfile⟩ := Disk.of_writable hwritable
    have hgains : Gains disk (disk.put location (.file content)) := .put hfile content
    refine ⟨hdisk.intact.put hwritable content fun place hpassing hplace hlocation => ?_,
      exists_writable (fun _ => hgains.resolve) hgains.back hdisk.lock⟩
    exact absurd hlocation.symm (h.passing _ place hpassing hplace)
  refine (Disk.leads_writeBytes _ _ disk).mono (fun _ => id) ?_ ?_
  · rintro _ disk' ⟨location, old, hwritable, rfl⟩
    exact ⟨hput hwritable _, location, _, Disk.resolve_writable hwritable _⟩
  · rintro failure disk' (⟨e, -, -, rfl⟩ | ⟨location, old, limit, -, hwritable, -, -, rfl⟩)
    · exact hdisk
    · exact hput hwritable _

end

/-- Puts a text into a file by way of another one, however this is then moved to its place. -/
def replaceBy (move : Action Unit) (passing text : String) : Action Unit := do
  Disk.writeText passing text
  match ← move.attempt with
  | .ok _ => return
  | .error e => do
    let _ ← (Disk.remove passing).attempt
    throw e

/-! ## A store that is kept -/

/-- The store's file reads the same, and can be locked as before if there is one. -/
structure IsUnharmed (root : String) (before disk : Disk) : Prop where
  bytes : (disk.bytesAt (path root)).toOption = (before.bytesAt (path root)).toOption
  lockable : (before.bytesAt (path root)).toOption = none ∨
    (IsLockable root disk ↔ IsLockable root before)

namespace IsUnharmed

theorem refl (root : String) (disk : Disk) : IsUnharmed root disk disk := ⟨rfl, .inr .rfl⟩

theorem of_none (hbefore : (before.bytesAt (path root)).toOption = none)
    (hdisk : (disk.bytesAt (path root)).toOption = none) : IsUnharmed root before disk :=
  ⟨hdisk.trans hbefore.symm, .inl hbefore⟩

theorem trans (h : IsUnharmed root before made) (h' : IsUnharmed root made disk) :
    IsUnharmed root before disk where
  bytes := h'.bytes.trans h.bytes
  lockable := by
    obtain hnone | hlock := h.lockable
    · exact .inl hnone
    · exact h'.lockable.imp h.bytes.symm.trans fun hlock' => hlock'.trans hlock

end IsUnharmed

theorem IsIntact.isLockable_iff (h : IsIntact root before disk)
    (hholds : before.holds (Session.directory root) = true) :
    IsLockable root disk ↔ IsLockable root before :=
  ⟨fun hlock => ⟨hholds,
      exists_writable (fun _ => h.gains.resolve_back) h.gains.stands hlock.lock⟩,
    fun hlock => ⟨h.gains.holds hholds,
      exists_writable (fun _ => h.gains.resolve) h.gains.back hlock.lock⟩⟩

/-- A disk where whatever a session does before it replaces the store is done to other files, and
where there is a directory for a store that there is. -/
structure IsGuarded (root : String) (base : Location) (disk : Disk) : Prop where
  leads : disk.LeadsTo root base
  way : disk.IsWay base
  apart : IsApart root disk
  held : (disk.bytesAt (path root)).toOption = none ∨ disk.holds (Session.directory root) = true

variable {base : Location}

theorem IsIntact.isUnharmed (h : IsIntact root before disk)
    (hguarded : IsGuarded root base before) : IsUnharmed root before disk :=
  ⟨h.toOption_bytesAt, hguarded.held.imp_right h.isLockable_iff⟩

/-! ## A new store in place of the old one -/

/-- What could be written can be written without what another path ends in. -/
theorem exists_writable_erase {gone target : Location} (hends : disk.IsEnd gone target)
    {file : String} (h : ∃ target, disk.writable file = .ok target) :
    ∃ target, (disk.erase gone).writable file = .ok target := by
  rw [Session.writable_iff] at h ⊢
  obtain ⟨place, hplace, hdirectory, hlink⟩ := h
  obtain hresolve | ⟨-, hresolve⟩ := hends.resolve_erase hplace
  · have hleft {entry : Disk.Entry} (hentry : (disk.erase gone).get? place.location = some entry) :
        place.entry = some entry :=
      (Disk.get?_of_resolve hplace).trans (Disk.get?_of_erase hends.ne_nil hentry)
    exact ⟨_, hresolve, fun heq => hdirectory (hleft heq),
      fun target heq => hlink target (hleft heq)⟩
  · exact ⟨_, hresolve, nofun, nofun⟩

/-- What a new store is passed through is taken away again. -/
theorem IsLocked.unharmed_of_removed (h : IsLocked root made disk)
    (hguarded : IsGuarded root base made) {location : Location} {content : ByteArray}
    (hpassing : disk.resolve true (passing root) = .ok ⟨location, some (.file content)⟩)
    {removed : Disk} (hremoved : Disk.Removed (passing root) disk removed) :
    IsUnharmed root made removed := by
  obtain ⟨gone, entry, hgone, -, rfl⟩ := hremoved
  have hgains := h.intact.gains
  have hleads := hguarded.leads.of_stands hgains.stands hgains.working
  have hway := hguarded.way.of_stands hgains.stands
  have hother : ∀ place, disk.resolve true (path root) = .ok place → place.location ≠ location :=
    fun place hplace heq => hguarded.apart.passing _ _ (hgains.resolve_back hpassing)
      (hgains.resolve_back hplace) heq.symm
  have hpath : passing root = pathBelow root ([directoryName] ++ ["store.tmp"]) := rfl
  have hnames : ∀ n ∈ [directoryName] ++ ["store.tmp"], IsName n := by decide
  rw [hpath] at hgone hpassing
  have hends := Disk.IsEnd.of_resolve hleads hway hnames (List.cons_ne_nil _ _) hgone hpassing rfl
  refine ⟨(hends.toOption_bytesAt_erase hother).trans h.intact.toOption_bytesAt,
    hguarded.held.imp_right fun hholds => ?_⟩
  have hheld := hgains.holds hholds
  obtain ⟨directory, hdirectory⟩ := Disk.leadsTo_of_resolve_below hleads hway hnames
    (List.cons_ne_nil _ _) hheld hpassing
  exact ⟨fun _ => (h.intact.isLockable_iff hholds).mp ⟨hheld, h.lock⟩, fun _ =>
    ⟨Disk.holds_of_leadsTo (hends.leadsTo_erase hdirectory), exists_writable_erase hends h.lock⟩⟩

/-- The old store stays until it is replaced. -/
theorem leads_replaceBy (hguarded : IsGuarded root base made) {move : Action Unit}
    (hmove : Action.IsClean move) (text : String) :
    Action.Leads (IsLocked root made) (replaceBy move (passing root) text) (fun _ _ => True)
      (fun _ => IsUnharmed root made) := by
  unfold replaceBy
  refine .bind ((leads_writeText hguarded.apart text).mono (fun _ => id) (fun _ _ => id)
    fun _ _ hdisk => hdisk.intact.isUnharmed hguarded) fun _ => .of_forall fun disk hdisk => ?_
  obtain ⟨hlocked, location, content, hpassing⟩ := hdisk
  refine .bind (hmove disk).attempt fun result => ?_
  cases result with
  | ok _ => exact .pure fun _ _ => trivial
  | error failure =>
    refine .of_forall fun disk' hsame => ?_
    obtain rfl : disk' = disk := hsame
    -- The old store is there whether or not the new one can be taken away.
    refine .bind (Disk.leads_remove (passing root) disk').attempt fun outcome =>
      .throw fun disk'' houtcome => ?_
    cases outcome with
    | ok _ => exact hlocked.unharmed_of_removed hguarded hpassing houtcome
    | error failure' =>
      obtain rfl : disk'' = disk' := houtcome
      exact hlocked.intact.isUnharmed hguarded

end Rephrase.Store
