import Rephrase.Proofs.Session.Intact

/-! A store operation that fails leaves the store as it was, and with it all that it answers. -/

namespace Rephrase.Store

open Disk (Action Failure Gains Location)
open Discovery (pathBelow)
open Rephrase.Path (IsName)
open Session (IsLockable directoryName)

variable {root : String} {base : Location} {before made disk : Disk}

/-! ## A new directory -/

/-- In the session's directory there is nothing, if there is this directory. -/
structure IsVacant (root : String) (base : Location) (disk : Disk) : Prop where
  leads : disk.LeadsTo root base
  unlinked : ∀ target, disk.get? (base ++ [directoryName]) ≠ some (.link target)
  vacant : ∀ name, disk.get? (base ++ [directoryName, name]) = none

namespace IsVacant

section

variable (h : IsVacant root base disk)
include h

/-- Whatever the session has is looked for in its directory. -/
theorem resolve {name : String} (hname : IsName name) {follow : Bool} {place : Disk.Place}
    (hplace : disk.resolve follow (Session.inside root name) = .ok place) :
    place = ⟨base ++ [directoryName, name], none⟩ := by
  have hnames : ∀ n ∈ [directoryName, name], IsName n :=
    List.forall_mem_cons.mpr ⟨by decide, List.forall_mem_singleton.mpr hname⟩
  have hlinks : ∀ front, front ≠ [] → front <+: [directoryName, name] → ∀ target,
      disk.get? (base ++ front) ≠ some (.link target) := by
    intro front hne hfront target hlink
    rw [← List.mem_inits] at hfront
    obtain rfl | rfl : front = [directoryName] ∨ front = [directoryName, name] := by
      simpa [hne] using hfront
    · exact h.unlinked target hlink
    · nomatch (h.vacant name).symm.trans hlink
  rw [Session.inside_eq] at hplace
  obtain ⟨hlocation, -⟩ :=
    Disk.of_resolve_below h.leads hnames (List.cons_ne_nil _ _) hlinks hplace
  have hentry := Disk.get?_of_resolve hplace
  rw [hlocation, h.vacant] at hentry
  rw [← hlocation, ← hentry]

theorem bytesAt : (disk.bytesAt (path root)).toOption = none := by
  cases hbytes : disk.bytesAt (path root) with
  | error e => rfl
  | ok content =>
    obtain ⟨location, hplace⟩ := Disk.resolve_of_bytesAt hbytes
    nomatch h.resolve (by decide) hplace

/-- Each path leads to a name of its own. -/
theorem isApart : IsApart root disk where
  list _ _ _ _ hstore := nomatch h.resolve (by decide) hstore
  lock _ _ hlock hstore heq := by
    cases h.resolve (by decide) hlock
    cases h.resolve (by decide) hstore
    exact absurd (List.append_cancel_left heq) (by decide)
  passing _ _ hpassing hstore heq := by
    cases h.resolve (by decide) hpassing
    cases h.resolve (by decide) hstore
    exact absurd (List.append_cancel_left heq) (by decide)

end

theorem of_missing (hleads : before.LeadsTo root base) (htree : before.IsTree)
    (hnone : before.get? (base ++ [directoryName]) = none) : IsVacant root base before where
  leads := hleads
  unlinked target hlink := nomatch hnone.symm.trans hlink
  vacant name := by
    by_contra hsome
    obtain ⟨hdirectory, -⟩ := htree.passes hsome
    nomatch hnone.symm.trans hdirectory

/-- The directory is made. -/
theorem put (h : IsVacant root base before) (hnone : before.get? (base ++ [directoryName]) = none) :
    IsVacant root base (before.put (base ++ [directoryName]) .directory) := by
  have hfile : ∀ entry, before.get? (base ++ [directoryName]) = some entry → entry.IsFile :=
    fun entry hentry => nomatch hnone.symm.trans hentry
  refine ⟨h.leads.of_stands (Disk.stands_put .directory hfile) rfl, fun target hlink => ?_,
    fun name => ?_⟩
  · nomatch hlink.symm.trans (Disk.get?_put_self before (Disk.ne_nil_of_isFile hfile) _)
  · rw [Disk.get?_put_of_ne before (by simp), h.vacant]

end IsVacant

/-! ## Failures -/

/-- The session's directory is there, and whatever was done since is done to other files. -/
def IsPrepared (root : String) (base : Location) (before disk : Disk) : Prop :=
  ∃ made, IsGuarded root base made ∧ IsUnharmed root before made ∧ IsIntact root made disk

section

variable (hroot : before.LeadsTo root base) (htree : before.IsTree)
include hroot htree

theorem isGuarded (hapart : IsApart root before)
    (hholds : before.holds (Session.directory root) = true) : IsGuarded root base before :=
  ⟨hroot, htree.isWay (Disk.get?_of_resolve hroot).symm, hapart, .inr hholds⟩

/-- A directory that was just made holds no store, and there was none before. -/
theorem guarded_of_made (hmade : Disk.Made (Session.directory root) before made) :
    IsGuarded root base made ∧ IsUnharmed root before made := by
  obtain ⟨location, hresolve, rfl⟩ := hmade
  obtain ⟨rfl, hnone⟩ := Disk.of_resolve_new hroot (by decide : IsName directoryName) hresolve
  have hfile : ∀ entry, before.get? (base ++ [directoryName]) = some entry → entry.IsFile :=
    fun entry hentry => nomatch hnone.symm.trans hentry
  have hway := (htree.isWay (Disk.get?_of_resolve hroot).symm).of_stands
    (Disk.stands_put .directory hfile)
  have hbefore := IsVacant.of_missing hroot htree hnone
  have hmade := hbefore.put hnone
  exact ⟨⟨hmade.leads, hway, hmade.isApart, .inl hmade.bytesAt⟩,
    .of_none hbefore.bytesAt hmade.bytesAt⟩

variable (hapart : IsApart root before)
include hapart

theorem leads_prepare :
    Action.Leads (· = before) (Session.prepare root) (fun _ => IsPrepared root base before)
      (fun _ => IsUnharmed root before) := by
  -- The list is only added to, on the disk as it was or with the directory made.
  have hhide {made : Disk} (hguarded : IsGuarded root base made)
      (hmade : IsUnharmed root before made) :
      Action.Leads (· = made) (Session.hide root) (fun _ => IsPrepared root base before)
        (fun _ => IsUnharmed root before) :=
    (holds_hide hguarded.apart).mono (fun _ hsame => hsame ▸ .refl root made)
      (fun _ _ hdisk => ⟨made, hguarded, hmade, hdisk⟩)
      (fun _ _ hdisk => hmade.trans (hdisk.isUnharmed hguarded))
  unfold Session.prepare
  refine .step (Disk.run_get before) ?_
  cases hholds : before.holds (Session.directory root) with
  | true => exact hhide (isGuarded hroot htree hapart hholds) (.refl root before)
  | false =>
    have hpath : Session.directory root = pathBelow root [directoryName] := rfl
    have hnames : ∀ n ∈ [directoryName], IsName n := List.forall_mem_singleton.mpr (by decide)
    have hempty : Session.directory root ≠ "" := by
      rw [hpath]
      exact Path.pathBelow_ne_empty (Disk.walk_of_resolve hroot).1 hnames
    have hfound : before.resolve false (Session.directory root) ≠ .error .notFound := by
      rw [hpath]
      exact Disk.resolve_below_ne_notFound hroot hnames (List.cons_ne_nil _ _) trivial
    refine .bind ((Disk.leads_makeDirectories_absent hempty hfound hholds).mono (fun _ => id)
      (fun _ _ => id) (fun _ disk hsame => hsame ▸ .refl root before)) fun _ =>
        .of_forall fun made hmade => ?_
    obtain ⟨hguarded, hunharmed⟩ := guarded_of_made hroot htree hmade
    exact hhide hguarded hunharmed

/-- What is done under a lock does no harm to a store if it does none to one that is guarded. -/
theorem leads_locked {α : Type} {action : Action α}
    (haction : ∀ made, IsGuarded root base made →
      Action.Leads (IsLocked root made) action (fun _ _ => True) (fun _ => IsUnharmed root made)) :
    Action.Leads (· = before) (Session.lockToWrite root >>= fun _ => action) (fun _ _ => True)
      (fun _ => IsUnharmed root before) := by
  unfold Session.lockToWrite
  rw [bind_assoc]
  refine .bind (leads_prepare hroot htree hapart) fun _ => .of_forall fun disk hprepared => ?_
  obtain ⟨made, hguarded, hmade, hdisk⟩ := hprepared
  refine .bind ((leads_touch hguarded.apart).mono (fun _ hsame => hsame ▸ hdisk) (fun _ _ => id)
    fun _ _ hdisk => hmade.trans (hdisk.isUnharmed hguarded)) fun _ => ?_
  exact (haction made hguarded).mono (fun _ => id) (fun _ _ => id)
    fun _ _ hdisk => hmade.trans hdisk

end

/-- Changes a store while it is locked, unless the change is refused: the new store is filled into
another file, and moved to the place of the old one in some way. -/
def update {α : Type} (root : String) (move : Action Unit)
    (change : Store → Except Failure (α × Store)) : Action α := do
  Session.lockToWrite root
  match change (load (← MonadState.get) root) with
  | .error failure => throw failure
  | .ok (a, store) =>
    replaceBy move (passing root) store.toText
    return a

theorem set_eq_update (root : String) (now : Instant) (key : String) (value : Json) (span : Int) :
    set root now key value span = update root (Disk.rename (passing root) (path root)) fun store =>
      match now.after span with
      | .error fault => .error (.fault fault)
      | .ok expires => .ok ((), (store.purge now).insert key ⟨value.normalize, expires⟩) := by
  unfold set update
  refine congrArg _ (funext fun _ => congrArg _ (funext fun disk => ?_))
  cases now.after span with
  | error fault => rfl
  | ok expires => exact (bind_pure (save root _)).symm

theorem remove_eq_update (root : String) (now : Instant) (key : String) :
    remove root now key = (do
      if !(← MonadState.get).holds (Session.directory root) then return false
      update root (Disk.rename (passing root) (path root)) fun store =>
        .ok (((store.find? key).filter (Entry.isLive now)).isSome, store.erase key)) := rfl

section

variable (hroot : before.LeadsTo root base) (htree : before.IsTree) (hapart : IsApart root before)
include hroot htree hapart

theorem leads_update {α : Type} {move : Action Unit}
    (hmove : Action.IsClean move) (change : Store → Except Failure (α × Store)) :
    Action.Leads (· = before) (update root move change) (fun _ _ => True)
      (fun _ => IsUnharmed root before) := by
  unfold update
  refine leads_locked hroot htree hapart fun made hguarded => .of_forall fun disk hdisk =>
    .step (Disk.run_get disk) ?_
  cases change (load disk root) with
  | error failure => exact .throw fun _ hsame => hsame ▸ hdisk.intact.isUnharmed hguarded
  | ok changed =>
    have hreplace : Action.Leads (· = disk) (replaceBy move (passing root) changed.2.toText)
        (fun _ _ => True) (fun _ => IsUnharmed root made) :=
      (leads_replaceBy hguarded hmove _).mono (fun _ hsame => hsame ▸ hdisk) (fun _ _ => id)
        (fun _ _ => id)
    exact hreplace.bind fun _ => .pure fun _ _ => trivial

theorem leads_set_unharmed (now : Instant) (key : String) (value : Json) (span : Int) :
    Action.Leads (· = before) (set root now key value span) (fun _ _ => True)
      (fun _ => IsUnharmed root before) := by
  rw [set_eq_update]
  exact leads_update hroot htree hapart (Disk.isClean_rename _ _) _

theorem leads_remove_unharmed (now : Instant) (key : String) :
    Action.Leads (· = before) (remove root now key) (fun _ _ => True)
      (fun _ => IsUnharmed root before) := by
  rw [remove_eq_update]
  refine .step (Disk.run_get before) ?_
  split
  · exact .pure fun _ _ => trivial
  · exact leads_update hroot htree hapart (Disk.isClean_rename _ _) _

end

/-! ## Answers -/

theorem ofText_empty : ofText "" = [] := rfl

/-- What is opened without being written holds the same store: an empty file is none. -/
theorem load_touch {file : String} {location : Location} {content : ByteArray}
    (h : disk.writable file = .ok (location, content)) :
    load (disk.put location (.file content)) root = load disk root := by
  obtain ⟨-, -, hfile⟩ := Disk.of_writable h
  have hgains : Gains disk (disk.put location (.file content)) := .put hfile content
  have hne := Disk.ne_nil_of_isFile hfile
  have hother (hsame : ∀ place, disk.resolve true (path root) = .ok place →
      (disk.put location (.file content)).get? place.location = disk.get? place.location) :
      load (disk.put location (.file content)) root = load disk root := by
    rw [load_eq, load_eq, hgains.toOption_bytesAt hsame]
  by_cases hstore : ∃ entry, disk.resolve true (path root) = .ok ⟨location, entry⟩
  · obtain ⟨entry, hstore⟩ := hstore
    -- An empty file in the place of a missing one is read, but holds nothing either.
    obtain hfound | ⟨hmissing, rfl⟩ := entry_of_writable h
    · refine hother fun place hplace => ?_
      cases hstore.symm.trans hplace
      exact (Disk.get?_put_self disk hne _).trans hfound.symm
    · have hnew := hgains.resolve hstore
      rw [Disk.get?_put_self disk hne] at hnew
      obtain rfl : entry = none := (Disk.get?_of_resolve hstore).trans hmissing
      rw [load_eq, load_eq, Disk.bytesAt_of_resolve hnew, Disk.bytesAt, hstore]
      exact ofText_empty
  · refine hother fun place hplace => Disk.get?_put_of_ne disk (fun hsame => hstore ?_) _
    exact ⟨place.entry, hsame ▸ hplace⟩

section

variable {α : Type} (now : Instant) (key : String) (decode : Json.Decoder α)

theorem run_get_of_lockable (h : IsLockable root disk) :
    ((get root now key decode).run.run disk).1 =
      .ok ((((load disk root).find? key).filter (Entry.isLive now)).bind fun entry =>
        Json.decode? decode entry.value) := by
  obtain ⟨⟨location, content⟩, hwritable⟩ := h.lock
  have hread : (Session.lockToRead root).run.run disk =
      (.ok (), disk.put location (.file content)) := by
    unfold Session.lockToRead
    rw [Disk.run_bind_ok (Disk.run_get disk)]
    dsimp only
    rw [h.directory]
    exact Disk.run_touch hwritable
  unfold get
  rw [Disk.run_bind_ok (Disk.run_attempt_ok hread), Disk.run_bind_ok (Disk.run_get _),
    load_touch hwritable]
  rfl

theorem run_get_of_refused (h : ¬IsLockable root disk) :
    ((get root now key decode).run.run disk).1 = .ok none := by
  obtain ⟨failure, hrun⟩ := Session.run_lockToRead_refused h
  unfold get
  rw [Disk.run_bind_ok (Disk.run_attempt_error hrun)]
  rfl

theorem run_get_of_empty (h : load disk root = []) :
    ((get root now key decode).run.run disk).1 = .ok none := by
  by_cases hlock : IsLockable root disk
  · rw [run_get_of_lockable now key decode hlock, h]
    rfl
  · exact run_get_of_refused now key decode hlock

end

/-- The store of a disk has the same bytes as before, or there is none, and answers as before. -/
structure IsKept (root : String) (before after : Disk) : Prop where
  bytes : (after.bytesAt (path root)).toOption = (before.bytesAt (path root)).toOption
  answers : ∀ {α : Type} (now : Instant) (key : String) (decode : Json.Decoder α),
    ((get root now key decode).run.run after).1 = ((get root now key decode).run.run before).1

theorem IsUnharmed.isKept (h : IsUnharmed root before disk) : IsKept root before disk := by
  have hload : load disk root = load before root := by rw [load_eq, load_eq, h.bytes]
  refine ⟨h.bytes, fun now key decode => ?_⟩
  obtain hnone | hlockable := h.lockable
  · have hempty : load before root = [] := by
      rw [load_eq, hnone]
      rfl
    rw [run_get_of_empty now key decode (hload.trans hempty),
      run_get_of_empty now key decode hempty]
  · by_cases hlock : IsLockable root before
    · rw [run_get_of_lockable now key decode (hlockable.mpr hlock),
        run_get_of_lockable now key decode hlock, hload]
    · rw [run_get_of_refused now key decode fun hlock' => hlock (hlockable.mp hlock'),
        run_get_of_refused now key decode hlock]

/-- Where nothing that a session looks at is a link, each path leads to a place of its own. -/
theorem isApart_of_ready {session : String} (h : Session.IsReady root session base disk) :
    IsApart root disk := by
  have hinside {name : String} (hname : name ∈ [".lock", "store.json", "store.tmp", "sessions"])
      {place : Disk.Place} (hplace : disk.resolve true (Session.inside root name) = .ok place) :
      place.location = base ++ [directoryName, name] :=
    (h.of_resolve (.inside hname) hplace).1
  have hstore {place : Disk.Place} (hplace : disk.resolve true (path root) = .ok place) :
      place.location = base ++ [directoryName, "store.json"] := hinside (by decide) hplace
  refine ⟨fun place location content hlist hplace heq => ?_,
    fun place location hlock hplace heq => ?_, fun place store hpassing hplace heq => ?_⟩
  · have hlist : place.location = base ++ [".gitignore"] := (h.of_resolve .ignoreList hlist).1
    exact absurd (List.append_cancel_left (hlist.symm.trans (heq.trans (hstore hplace))))
      (by decide)
  · have hlock := hinside (by decide) hlock
    exact absurd (List.append_cancel_left (hlock.symm.trans (heq.trans (hstore hplace))))
      (by decide)
  · have hpassing := hinside (by decide) hpassing
    exact absurd (List.append_cancel_left (hpassing.symm.trans (heq.trans (hstore hplace))))
      (by decide)

section

variable (hdirectory : disk.get? [directoryName] = some .directory)
include hdirectory

/-- At the top of the disk a session's names lead to their places. -/
theorem resolve_top {name : String} (hname : name ∈ [".lock", "store.json", "store.tmp"])
    {entry : Option Disk.Entry} (hentry : disk.get? [directoryName, name] = entry)
    (hlink : ∀ target, entry ≠ some (.link target)) :
    disk.resolve true (Session.inside "/" name) = .ok ⟨[directoryName, name], entry⟩ := by
  subst hentry
  have hnames : ∀ n ∈ [directoryName, name], IsName n ∧ n.utf8ByteSize ≤ Disk.maxName := by
    fin_cases hname <;> decide
  have hpath : (pathBelow "/" [directoryName, name]).toList.elem '\x00' = false ∧
      (pathBelow "/" [directoryName, name]).utf8ByteSize ≤ Disk.maxPath := by
    fin_cases hname <;> decide
  exact Disk.resolve_below (Disk.leadsTo_top disk) hnames (List.cons_ne_nil _ _) hpath
    ⟨hdirectory, trivial⟩ hlink true

theorem holds_top : disk.holds (Session.directory "/") = true := by
  have hresolve : disk.resolve true "/.retext" = .ok ⟨[directoryName], some .directory⟩ :=
    Disk.resolve_names (by decide) (by decide) trivial hdirectory nofun
  unfold Disk.holds Disk.find?
  rw [show Session.directory "/" = "/.retext" by decide, hresolve]
  rfl

/-- A session without a lock yet is locked. -/
theorem run_lockToWrite_top {disk' : Disk}
    (hdirectory' : disk'.get? [directoryName] = some .directory)
    (hhide : (Session.hide "/").run.run disk = (.ok (), disk'))
    (hlock : disk'.get? [directoryName, ".lock"] = none) :
    (Session.lockToWrite "/").run.run disk =
      (.ok (), disk'.put [directoryName, ".lock"] (.file ByteArray.empty)) := by
  refine Session.run_lockToWrite (holds_top hdirectory) hhide ?_
  unfold Disk.writable
  rw [resolve_top hdirectory' (by decide) hlock nofun]

/-- A value is looked up in the text that stands in the store's place. -/
theorem get_top {text : String}
    (hstore : disk.get? [directoryName, "store.json"] = some (.file text.toUTF8))
    (hlock : ∀ entry, disk.get? [directoryName, ".lock"] = some entry → entry.IsFile)
    (now : Instant) (key : String) : ((get "/" now key Json.Decode.any).run.run disk).1 =
      .ok ((((ofText text).find? key).filter (Entry.isLive now)).bind fun entry =>
        Json.decode? Json.Decode.any entry.value) := by
  have hload : load disk "/" = ofText text := by
    unfold load path
    rw [Disk.textAt_of_resolve (resolve_top hdirectory (by decide) hstore nofun)]
  have hlockable : IsLockable "/" disk := by
    refine ⟨holds_top hdirectory, Session.writable_iff.mpr ?_⟩
    refine ⟨_, resolve_top hdirectory (by decide) rfl fun target hlink => ?_, ?_, ?_⟩
    · exact Disk.not_isFile_link target (hlock _ hlink)
    · exact fun hentry => Disk.not_isFile_directory (hlock _ hentry)
    · exact fun target hlink => Disk.not_isFile_link target (hlock _ hlink)
  rw [run_get_of_lockable now key Json.Decode.any hlockable, hload]

end

/-- The text of a store with one value. -/
def keptText : String :=
  "\x7b\"a\":\x7b\"value\":\"x\",\"expires_at\":\"1970-01-01T00:00:10Z\"\x7d\x7d"

/-- A project with a store and what was left of another one, where a file takes only one byte. -/
def fullDisk : Disk :=
  { entries := [([directoryName], .directory),
      ([directoryName, "store.json"], .file keptText.toUTF8),
      ([directoryName, "store.tmp"], .file ByteArray.empty)]
    limit := some 1 }

/-- A store's text has two braces at least. -/
theorem one_lt_size_toText (store : Store) : 1 < store.toText.toUTF8.size := by
  obtain ⟨inner, htext⟩ : ∃ inner, store.toText =
      String.ofList ['\x7b'] ++ inner ++ String.ofList ['\x7d'] := by
    rw [toText, Json.compact]
    exact ⟨String.ofList _, by rw [← String.ofList_append, ← String.ofList_append]; rfl⟩
  have hleft : (String.ofList ['\x7b']).utf8ByteSize = 1 := by decide
  have hright : (String.ofList ['\x7d']).utf8ByteSize = 1 := by decide
  show 1 < store.toText.utf8ByteSize
  rw [htext, String.utf8ByteSize_append, String.utf8ByteSize_append, hleft, hright]
  omega

theorem isReady_full : Session.IsReady "/" "s-1" [] fullDisk := by
  have hfits : ∀ names ∈ Session.usedPlaces "s-1", ∀ entry ∈ fullDisk.get? ([] ++ names),
      Session.Fits names entry := by decide
  exact ⟨Disk.leadsTo_top _, fun names hused target hlink =>
    Session.Fits.not_link (hfits names hused.mem_usedPlaces _ hlink)⟩

def fullLocked : Disk := fullDisk.put [directoryName, ".lock"] (.file ByteArray.empty)

theorem run_lockToWrite_full :
    (Session.lockToWrite "/").run.run fullDisk = (.ok (), fullLocked) := by
  have hlist : fullDisk.resolve true "/.gitignore" = .ok ⟨[".gitignore"], none⟩ :=
    Disk.resolve_names (by decide) (by decide) trivial rfl nofun
  have hunlisted : fullDisk.holds (Path.join "/" ".gitignore") = false := by
    unfold Disk.holds Disk.find?
    rw [show Path.join "/" ".gitignore" = "/.gitignore" by decide, hlist]
    rfl
  exact run_lockToWrite_top rfl rfl (Session.run_hide_absent hunlisted) rfl

/-- There is room for the first byte of a new store. -/
theorem run_save_full (store : Store) : (save "/" store).run.run fullLocked =
    (.error (.refused .tooLarge), fullLocked.put [directoryName, "store.tmp"]
      (.file (store.toText.toUTF8.extract 0 1))) := by
  have hresolve : fullLocked.resolve true (passing "/") = _ :=
    resolve_top rfl (by decide) rfl nofun
  have hlimit : fullLocked.limit.filter (· < store.toText.toUTF8.size) = some 1 :=
    Option.filter_some_pos (decide_eq_true (one_lt_size_toText store))
  have hwrite := Disk.run_writeBytes hresolve store.toText.toUTF8
  rw [hlimit] at hwrite
  unfold save Disk.replaceText Disk.writeText
  exact Disk.run_bind_error hwrite _

/-- A project whose list of ignored files is a link to its store, and where there is no room for
another one. -/
def mergedDisk : Disk :=
  { entries := [([".gitignore"], .link ".retext/store.json"), ([directoryName], .directory),
      ([directoryName, "store.json"], .file keptText.toUTF8),
      ([directoryName, "store.tmp"], .directory)] }

/-- The same, with the directory hidden from version control in its own store. -/
def mergedHidden : Disk := mergedDisk.put [directoryName, "store.json"]
  (.file (keptText ++ Session.ignoreAddition keptText.toList).toUTF8)

def mergedLocked : Disk := mergedHidden.put [directoryName, ".lock"] (.file ByteArray.empty)

theorem run_hide_merged : (Session.hide "/").run.run mergedDisk = (.ok (), mergedHidden) := by
  have hlink : mergedDisk.get? ([] ++ [".gitignore"]) = some (.link ".retext/store.json") := rfl
  have hnames : ∀ n ∈ [directoryName, "store.json"], IsName n ∧ n.utf8ByteSize ≤ Disk.maxName := by
    decide
  have hresolve : mergedDisk.resolve true "/.gitignore" =
      .ok ⟨[directoryName, "store.json"], some (.file keptText.toUTF8)⟩ := by
    rw [Disk.resolve_absolute true (by decide : _ ∧ _ ∧ _ ∧ _ ∧
        Disk.steps "/.gitignore" = "" :: [".gitignore"]),
      show Disk.maxLinks = 39 + 1 from rfl,
      Disk.walk_link 39 [] (by decide) (by decide) hlink (by decide),
      show Disk.steps ".retext/store.json" ++ [] = [directoryName, "store.json"] by decide,
      show Disk.startOf [] ".retext/store.json" = [] by decide]
    exact Disk.walk_names true 39 hnames ⟨rfl, trivial⟩ nofun
  have hholds : mergedDisk.holds "/.gitignore" = true := by
    unfold Disk.holds Disk.find?
    rw [hresolve]
    rfl
  have hwritable : mergedDisk.writable "/.gitignore" =
      .ok ([directoryName, "store.json"], keptText.toUTF8) := by
    unfold Disk.writable
    rw [hresolve]
  -- The store is read as a list of ignored files, and the directory is not in it.
  have hhidden : Session.isHidden keptText.toList = false := by cbv
  unfold Session.hide
  rw [Disk.run_bind_ok (Disk.run_get _)]
  dsimp only
  rw [show Path.join "/" ".gitignore" = "/.gitignore" by decide, hholds, if_pos rfl,
    Disk.textAt_of_resolve hresolve]
  show (if (!Session.isHidden keptText.toList) = true then _ else _ : Action Unit).run.run _ = _
  rw [hhidden, mergedHidden, Disk.toUTF8_append]
  exact Disk.run_appendText hwritable rfl _

end Rephrase.Store
