import Mathlib.Data.List.Infix
import Rephrase.Proofs.Disk.Tree
import Rephrase.Session.History
import Rephrase.Session.Snapshot

/-! What a session does to a disk stays in the session's directory and in the list of ignored files,
as long as no links lead out of them. -/

namespace Rephrase

open Disk (Action KeepsTo Location)
open Discovery (pathBelow)
open Rephrase.Path (IsName)

/-! ## The session's part -/

theorem History.isName_fileName (session : String) : IsName (fileName session) := by
  have hplain : '/' ∉ session.toList.map plainChar := by
    intro hmem
    obtain ⟨c, -, hc⟩ := List.mem_map.mp hmem
    unfold plainChar at hc
    split at hc
    · rename_i hplain
      rw [hc] at hplain
      exact absurd hplain (by decide)
    · exact absurd hc (by decide)
  have hlist : (fileName session).toList =
      session.toList.map plainChar ++ ".jsonl".toList := by
    rw [fileName, String.toList_append, String.toList_ofList]
  -- With its ending the name is too long to be one of the names for directories.
  have hlong : ∀ short : String, short.toList.length < 6 → fileName session ≠ short := by
    rintro _ hshort rfl
    rw [hlist, List.length_append] at hshort
    exact absurd hshort (Nat.not_lt.mpr (Nat.le_add_left 6 _))
  have hslash : '/' ∉ (fileName session).toList := by
    rw [hlist, List.mem_append]
    rintro (hmem | hmem)
    · exact hplain hmem
    · exact absurd hmem (by decide)
  exact ⟨hlong "" (by decide), hlong "." (by decide), hlong ".." (by decide), hslash⟩

namespace Session

/-- Names below a project's root that its session looks at. -/
inductive IsUsed (session : String) : List String → Prop
  | ignoreList : IsUsed session [".gitignore"]
  | directory : IsUsed session [directoryName]
  | inside {name : String} (hname : name ∈ [".lock", "store.json", "store.tmp", "sessions"]) :
      IsUsed session [directoryName, name]
  | history : IsUsed session [directoryName, "sessions", History.fileName session]

/-- Names below a project's root where its session may change something. -/
inductive IsOwn : List String → Prop
  | ignoreList : IsOwn [".gitignore"]
  | inside (names : List String) : IsOwn (directoryName :: names)

theorem isOwn_iff {names : List String} :
    IsOwn names ↔ names = [".gitignore"] ∨ names.head? = some directoryName := by
  constructor
  · rintro (_ | _)
    · exact .inl rfl
    · exact .inr rfl
  · rintro (rfl | hhead)
    · exact .ignoreList
    · obtain ⟨rest, rfl⟩ := List.head?_eq_some_iff.mp hhead
      exact .inside rest

instance (names : List String) : Decidable (IsOwn names) := decidable_of_iff' _ isOwn_iff

namespace IsUsed

variable {session : String} {names : List String} (h : IsUsed session names)
include h

theorem ne_nil : names ≠ [] := by
  cases h <;> exact List.cons_ne_nil _ _

theorem own : IsOwn names := by
  cases h with
  | ignoreList => exact .ignoreList
  | directory | inside | history => exact .inside _

theorem named : ∀ n ∈ names, IsName n := by
  have hdirectory : IsName directoryName := by decide
  have hinside : ∀ name ∈ [".lock", "store.json", "store.tmp", "sessions"], IsName name := by decide
  cases h with
  | ignoreList => decide
  | directory => decide
  | inside hname =>
    exact List.forall_mem_cons.mpr
      ⟨hdirectory, List.forall_mem_singleton.mpr (hinside _ hname)⟩
  | history =>
    exact List.forall_mem_cons.mpr ⟨hdirectory, List.forall_mem_cons.mpr
      ⟨hinside _ (by decide), List.forall_mem_singleton.mpr (History.isName_fileName session)⟩⟩

/-- The directories on the way are looked at too. -/
theorem front {front : List String} (hne : front ≠ []) (hfront : front <+: names) :
    IsUsed session front := by
  rw [← List.mem_inits] at hfront
  cases h with
  | ignoreList =>
    obtain rfl : front = [".gitignore"] := by simpa [hne] using hfront
    exact .ignoreList
  | directory =>
    obtain rfl : front = [directoryName] := by simpa [hne] using hfront
    exact .directory
  | @inside name hname =>
    obtain rfl | rfl : front = [directoryName] ∨ front = [directoryName, name] := by
      simpa [hne] using hfront
    · exact .directory
    · exact .inside hname
  | history =>
    obtain rfl | rfl | rfl : front = [directoryName] ∨ front = [directoryName, "sessions"] ∨
        front = [directoryName, "sessions", History.fileName session] := by
      simpa [hne] using hfront
    · exact .directory
    · exact .inside (by decide)
    · exact .history

end IsUsed

/-- The part of a disk that a session may change. -/
def Own (base location : Location) : Prop := ∃ names, IsOwn names ∧ location = base ++ names

/-- A project's root is a directory, and none of what its session looks at is a link. -/
structure IsReady (root session : String) (base : Location) (disk : Disk) : Prop where
  leads : disk.LeadsTo root base
  unlinked : ∀ names, IsUsed session names → ∀ target,
    disk.get? (base ++ names) ≠ some (.link target)

/-- None of what a session looks at is a link, wherever the root is. -/
def IsUnlinked (root session : String) (disk : Disk) : Prop :=
  ∀ base, disk.LeadsTo root base → ∀ names, IsUsed session names → ∀ target,
    disk.get? (base ++ names) ≠ some (.link target)

variable {root session : String} {base : Location} {before : Disk}

theorem IsReady.of_keepsTo {area : Location → Prop} {disk disk' : Disk}
    (h : IsReady root session base disk) (hkeeps : KeepsTo area disk disk') :
    IsReady root session base disk' where
  leads := h.leads.of_stands hkeeps.stands hkeeps.working
  unlinked names hused target hlink := h.unlinked names hused target (hkeeps.links _ target hlink)

/-- The paths of a session lead into its part of the disk. -/
theorem IsReady.of_resolve {disk : Disk} {names : List String} {follow : Bool} {place : Disk.Place}
    (h : IsReady root session base disk) (hused : IsUsed session names)
    (hresolve : disk.resolve follow (pathBelow root names) = .ok place) :
    place.location = base ++ names ∧ disk.Passes base names :=
  Disk.of_resolve_below h.leads hused.named hused.ne_nil
    (fun front hne hfront => h.unlinked front (hused.front hne hfront)) hresolve

/-- Names of the directories that a session makes. -/
def directoryPlaces : List (List String) :=
  [[directoryName], [directoryName, "sessions"]]

/-- Whether a session puts an entry at some names. -/
def Puts (names : List String) (entry : Disk.Entry) : Prop :=
  entry.IsFile ∨ (entry = .directory ∧ names ∈ directoryPlaces)

theorem Puts.not_link {names : List String} {entry : Disk.Entry} (h : Puts names entry)
    (target : String) : entry ≠ .link target := by
  rintro rfl
  obtain hfile | ⟨heq, -⟩ := h
  · exact Disk.not_isFile_link target hfile
  · cases heq

/-- A kind of disks that stays one when a file or a directory comes to some of the places that a
session uses, or a file is taken from there. -/
structure Admits (kind : Disk → Prop) (root session : String) (base : Location)
    (places : List String → Prop) : Prop where
  ready : ∀ {disk}, kind disk → IsReady root session base disk
  put : ∀ {disk names entry}, kind disk → IsUsed session names → places names →
    disk.Passes base names →
      (∀ found, disk.get? (base ++ names) = some found → found.IsFile) →
        Puts names entry → kind (disk.put (base ++ names) entry)
  erase : ∀ {disk names}, kind disk → IsUsed session names → places names →
    (∀ found, disk.get? (base ++ names) = some found → found.IsFile) →
      kind (disk.erase (base ++ names))

/-- What a session does stays in its part. -/
theorem admits_own (h : IsReady root session base before) :
    Admits (KeepsTo (Own base) before) root session base fun _ => True where
  ready := h.of_keepsTo
  put := fun hdisk hused _ _ hfile hentry =>
    hdisk.trans (Disk.keepsTo_put hfile hentry.not_link ⟨_, hused.own, rfl⟩)
  erase := fun hdisk hused _ hfile => hdisk.trans (Disk.keepsTo_erase hfile ⟨_, hused.own, rfl⟩)

/-- Whether it comes to a result or fails, an operation changes the session's part only. -/
def Keeps (base : Location) (before : Disk) {α : Type} (action : Action α) : Prop :=
  Action.Leads (KeepsTo (Own base) before) action (fun _ => KeepsTo (Own base) before)
    (fun _ => KeepsTo (Own base) before)

namespace Admits

variable {kind : Disk → Prop} {places : List String → Prop} (h : Admits kind root session base places)
  {names : List String} (hused : IsUsed session names) (hplace : places names)
include h hused hplace

theorem written {disk disk' : Disk} (hdisk : kind disk)
    (hwritten : Disk.Written (pathBelow root names) disk disk') : kind disk' := by
  obtain ⟨location, old, new, hwritable, rfl⟩ := hwritten
  obtain ⟨entry, hresolve, hfile⟩ := Disk.of_writable hwritable
  obtain ⟨rfl, hpasses⟩ := (h.ready hdisk).of_resolve hused hresolve
  exact h.put hdisk hused hplace hpasses hfile (.inl ⟨new, rfl⟩)

/-- A file that has been written holds what was written. -/
theorem leads_writeText (text : String) :
    Action.Leads kind (Disk.writeText (pathBelow root names) text)
      (fun _ disk => kind disk ∧ disk.get? (base ++ names) = some (.file text.toUTF8))
      (fun _ => kind) := by
  refine .of_forall fun disk hdisk => ?_
  refine (Disk.leads_writeBytes _ text.toUTF8 disk).mono (fun _ => id)
    (fun _ disk' => ?_) (fun _ disk' => ?_)
  · rintro ⟨location, old, hwritable, rfl⟩
    refine ⟨h.written hused hplace hdisk ⟨location, old, _, hwritable, rfl⟩, ?_⟩
    obtain ⟨entry, hresolve, -⟩ := Disk.of_writable hwritable
    obtain ⟨rfl, -⟩ := (h.ready hdisk).of_resolve hused hresolve
    exact Disk.get?_put_self disk (by simp [hused.ne_nil]) _
  · rintro (⟨e, -, -, rfl⟩ | ⟨location, old, limit, -, hwritable, -, -, rfl⟩)
    · exact hdisk
    · exact h.written hused hplace hdisk ⟨location, old, _, hwritable, rfl⟩

theorem holds_appendText (text : String) :
    Action.Holds kind (Disk.appendText (pathBelow root names) text) := by
  refine .of_forall fun disk hdisk => ?_
  refine (Disk.leads_appendText _ text disk).mono (fun _ => id)
    (fun _ disk' => h.written hused hplace hdisk) (fun _ disk' => ?_)
  rintro (rfl | hwritten)
  · exact hdisk
  · exact h.written hused hplace hdisk hwritten

theorem holds_remove : Action.Holds kind (Disk.remove (pathBelow root names)) := by
  refine .of_forall fun disk hdisk => ?_
  refine (Disk.leads_remove _ disk).mono (fun _ => id) (fun _ disk' hremoved => ?_)
    (fun _ disk' hsame => hsame ▸ hdisk)
  obtain ⟨location, entry, hresolve, hdirectory, rfl⟩ := hremoved
  have hready := h.ready hdisk
  have hget := Disk.get?_of_resolve hresolve
  obtain ⟨rfl, -⟩ := hready.of_resolve hused hresolve
  exact h.erase hdisk hused hplace (Disk.isFile_of_entry hget
    (fun heq => hdirectory (Option.some.inj heq)) (hready.unlinked names hused))

/-- Directories are made one below the other. -/
theorem leads_makeDirectories (hmade : names ∈ directoryPlaces) :
    Action.Leads (fun disk => kind disk ∧ disk.Passes base names)
      (Disk.makeDirectories (pathBelow root names)) (fun _ => kind) (fun _ => kind) := by
  refine .of_forall fun disk hdisk => ?_
  obtain ⟨hdisk, hpasses⟩ := hdisk
  have hfound := Disk.resolve_below_ne_notFound (h.ready hdisk).leads hused.named hused.ne_nil
    hpasses
  refine (Disk.leads_makeDirectories _ disk hfound).mono (fun _ => id) (fun _ disk' => ?_)
    (fun _ disk' hsame => hsame ▸ hdisk)
  rintro (rfl | ⟨location, hresolve, rfl⟩)
  · exact hdisk
  · have hnone := Disk.get?_of_resolve hresolve
    obtain ⟨rfl, -⟩ := (h.ready hdisk).of_resolve hused hresolve
    exact h.put hdisk hused hplace hpasses (fun found hfound => nomatch hnone.trans hfound)
      (.inr ⟨rfl, hmade⟩)

end Admits

section

variable (hready : IsReady root session base before) {names : List String}
  (hused : IsUsed session names)
include hready hused

theorem keepsTo_written {disk disk' : Disk} (hdisk : KeepsTo (Own base) before disk)
    (h : Disk.Written (pathBelow root names) disk disk') : KeepsTo (Own base) before disk' :=
  (admits_own hready).written hused trivial hdisk h

end

/-! ## The session's directory -/

theorem inside_eq (root name : String) : inside root name = pathBelow root [directoryName, name] :=
  rfl

/-- Whether a session can be locked as it stands. -/
structure IsLockable (root : String) (disk : Disk) : Prop where
  directory : disk.holds (Session.directory root) = true
  lock : ∃ target, disk.writable (inside root ".lock") = .ok target

/-- The lock stands in the directory. -/
theorem IsReady.isLockable {disk : Disk} (h : IsReady root session base disk)
    {target : Location × ByteArray} (hlock : disk.writable (inside root ".lock") = .ok target) :
    disk.get? (base ++ [directoryName]) = some .directory ∧ IsLockable root disk := by
  have hused : IsUsed session [directoryName, ".lock"] := .inside (by decide)
  obtain ⟨entry, hresolve, -⟩ := Disk.of_writable hlock
  obtain ⟨-, hdirectory, -⟩ := h.of_resolve hused hresolve
  refine ⟨hdirectory, ?_, target, hlock⟩
  have hfront := Disk.resolve_front [directoryName] ".lock" h.leads hused.named
    (List.cons_ne_nil _ _) (fun passed hne hpassed => h.unlinked passed (hused.front hne hpassed))
    hresolve true
  have hpath : Session.directory root = pathBelow root [directoryName] := rfl
  unfold Disk.holds Disk.find?
  rw [hpath, hfront, hdirectory]
  rfl

/-- Names of what is looked at when a session is locked. -/
def lockPlaces : List (List String) :=
  [[".gitignore"], [directoryName], [directoryName, ".lock"]]

namespace Admits

variable {kind : Disk → Prop} {places : List String → Prop} (h : Admits kind root session base places)
  (hplace : places [".gitignore"])
include h hplace

theorem holds_hide : Action.Holds kind (hide root) := by
  unfold hide
  refine Action.Holds.get.bind fun disk => ?_
  dsimp only
  split
  · split
    · exact h.holds_appendText .ignoreList hplace _
    · exact .pure ()
  · exact .pure ()

end Admits

/-! What the lock does to a disk follows from what hiding the directory does. -/

section

variable {kind hidden fail : Disk → Prop} {places : List String → Prop}

theorem leads_prepare (h : Admits kind root session base places) (hplace : places [directoryName])
    (hfail : ∀ disk, kind disk → fail disk)
    (hhide : Action.Leads kind (hide root) (fun _ => hidden) (fun _ => fail)) :
    Action.Leads kind (prepare root) (fun _ => hidden) (fun _ => fail) := by
  unfold prepare
  refine .bind (.of_forall fun disk hdisk => .done (Disk.run_get disk) hdisk) fun disk => ?_
  dsimp only
  split
  · refine .bind ?_ fun _ => hhide
    exact (h.leads_makeDirectories .directory hplace (by decide)).mono
      (fun _ hdisk => ⟨hdisk, trivial⟩) (fun _ _ => id) (fun _ => hfail)
  · exact hhide

/-- Once the session is locked its directory is there, and it can be locked again. -/
theorem leads_lockToWrite_of_hide (h : Admits kind root session base places)
    (hafter : Admits hidden root session base places) (hplace : places [directoryName])
    (hlock : places [directoryName, ".lock"]) (hfail : ∀ disk, kind disk → fail disk)
    (hfailAfter : ∀ disk, hidden disk → fail disk)
    (hhide : Action.Leads kind (hide root) (fun _ => hidden) (fun _ => fail)) :
    Action.Leads kind (lockToWrite root)
      (fun _ disk => hidden disk ∧ disk.get? (base ++ [directoryName]) = some .directory ∧
        IsLockable root disk)
      (fun _ => fail) := by
  have hused : IsUsed session [directoryName, ".lock"] := .inside (by decide)
  unfold lockToWrite
  refine .bind (leads_prepare h hplace hfail hhide) fun _ => .of_forall fun disk hdisk => ?_
  refine (Disk.leads_touch _ disk).mono (fun _ => id) (fun _ disk' hwritten => ?_)
    (fun _ disk' hsame => hsame ▸ hfailAfter disk hdisk)
  have hkind := hafter.written hused hlock hdisk hwritten
  obtain ⟨location, old, new, hwritable, rfl⟩ := hwritten
  exact ⟨hkind, (hafter.ready hkind).isLockable (Disk.writable_put hwritable new)⟩

theorem Admits.leads_lockToWrite (h : Admits kind root session base places)
    (hplaces : ∀ names ∈ lockPlaces, places names) :
    Action.Leads kind (lockToWrite root)
      (fun _ disk => kind disk ∧ disk.get? (base ++ [directoryName]) = some .directory ∧
        IsLockable root disk)
      (fun _ => kind) :=
  leads_lockToWrite_of_hide h h (hplaces _ (by decide)) (hplaces _ (by decide)) (fun _ => id)
    (fun _ => id) (h.holds_hide (hplaces _ (by decide)))

end

/-! ## A lock -/

/-- A list of ignored files is not made. -/
theorem run_hide_absent {root : String} {disk : Disk}
    (hlist : disk.holds (Path.join root ".gitignore") = false) :
    (hide root).run.run disk = (.ok (), disk) := by
  unfold hide
  rw [Disk.run_bind_ok (Disk.run_get disk)]
  dsimp only
  rw [hlist]
  rfl

section

variable {root : String} {disk disk' : Disk} {location : Location} {content : ByteArray}
  {e : Disk.Error} (hholds : disk.holds (directory root) = true)
  (hhide : (hide root).run.run disk = (.ok (), disk'))
include hholds hhide

theorem run_prepare : (prepare root).run.run disk = (.ok (), disk') := by
  unfold prepare
  rw [Disk.run_bind_ok (Disk.run_get disk)]
  dsimp only
  rw [hholds]
  exact hhide

theorem run_lockToWrite
    (hlock : disk'.writable (inside root ".lock") = .ok (location, content)) :
    (lockToWrite root).run.run disk = (.ok (), disk'.put location (.file content)) := by
  unfold lockToWrite
  rw [Disk.run_bind_ok (run_prepare hholds hhide)]
  exact Disk.run_touch hlock

/-- The session's lock may be refused, but what is done before stays. -/
theorem run_lockToWrite_refused (hlock : disk'.writable (inside root ".lock") = .error e) :
    (lockToWrite root).run.run disk = (.error (.refused e), disk') := by
  unfold lockToWrite
  rw [Disk.run_bind_ok (run_prepare hholds hhide)]
  unfold Disk.touch
  exact Disk.run_bind_error (Disk.run_look_error hlock) _

end

end Session

open Session (Admits Keeps Own IsReady IsUsed directoryName)

variable {root session : String} {base : Location} {before : Disk}
  (hready : IsReady root session base before)

/-! ## The store -/

namespace Store

/-- Names of what is looked at when the store is replaced. -/
def places : List (List String) :=
  [[directoryName, "store.json"], [directoryName, "store.tmp"]]

/-- A disk where a text has come to stand in the store's place, and that was of a kind before. -/
structure Replaced (root : String) (base : Location) (kind : Disk → Prop) (store : Store)
    (disk : Disk) : Prop where
  text : disk.textAt (path root) = .ok store.toText
  put : ∃ middle, kind middle ∧ middle.Passes base [directoryName, "store.json"] ∧
    (∀ found, middle.get? (base ++ [directoryName, "store.json"]) = some found → found.IsFile) ∧
    disk = middle.put (base ++ [directoryName, "store.json"]) (.file store.toText.toUTF8)

/-- The passing file comes to stand in the store's place when it is moved there. -/
theorem Replaced.of_moved {kind : Disk → Prop} {allowed : List String → Prop} {store : Store}
    {disk disk' : Disk} (h : Admits kind root session base allowed)
    (hplace : allowed [directoryName, "store.tmp"]) (hdisk : kind disk)
    (hcontent : disk.get? (base ++ [directoryName, "store.tmp"]) =
      some (.file store.toText.toUTF8))
    (hmoved : Disk.Moved (passing root) (path root) disk disk') :
    Replaced root base kind store disk' := by
  have hpath : IsUsed session [directoryName, "store.json"] := .inside (by decide)
  have hpassing : IsUsed session [directoryName, "store.tmp"] := .inside (by decide)
  have hready := h.ready hdisk
  obtain ⟨old, new, entry, hold, hnew, hdirectory, rfl⟩ := hmoved
  obtain ⟨rfl, -⟩ := hready.of_resolve hpassing hold
  obtain rfl : entry = _ := Option.some.inj ((Disk.get?_of_resolve hold).trans hcontent)
  obtain ⟨hlocation, hpasses⟩ := hready.of_resolve hpath hnew
  have hfile : ∀ found, disk.get? (base ++ [directoryName, "store.tmp"]) = some found →
      found.IsFile := fun found hfound => ⟨_, Option.some.inj (hfound.symm.trans hcontent)⟩
  have hother : base ++ [directoryName, "store.json"] ≠ base ++ [directoryName, "store.tmp"] :=
    fun heq => absurd (List.append_cancel_left heq) (by decide)
  have herased := Disk.stands_erase hfile
  have hfound : ∀ found, (disk.erase (base ++ [directoryName, "store.tmp"])).get?
      (base ++ [directoryName, "store.json"]) = some found → found.IsFile := by
    intro found hfound
    rw [Disk.get?_erase_of_ne disk hother, ← hlocation] at hfound
    refine Disk.isFile_of_entry (Disk.get?_of_resolve hnew) hdirectory ?_ found hfound
    rw [hlocation]
    exact hready.unlinked _ hpath
  rw [hlocation]
  refine ⟨?_, _, h.erase hdisk hpassing hplace hfile, hpasses.of_stands herased, hfound, rfl⟩
  -- The path of the store leads to the same place as before, where no link stands.
  have hlink : ∀ target, new.entry ≠ some (.link target) := by
    intro target hlink
    rw [Disk.get?_of_resolve hnew, hlocation] at hlink
    exact hready.unlinked _ hpath target hlink
  have hresolve := Disk.resolve_of_stands (herased.trans (Disk.stands_put
      (.file store.toText.toUTF8) hfound)) rfl (Disk.resolve_follow hnew hlink)
    fun entry hentry hnot => by
      rw [hlocation, Disk.get?_put_self _ (by simp)] at hentry
      exact absurd ⟨_, (Option.some.inj hentry).symm⟩ hnot
  rw [hlocation, Disk.get?_put_self _ (by simp)] at hresolve
  exact Disk.textAt_of_resolve hresolve

/-- What is written to the passing file comes to stand in the store's place. If this fails the store
is left alone. -/
theorem leads_save {kind : Disk → Prop} {allowed : List String → Prop}
    (h : Admits kind root session base allowed) (hplace : allowed [directoryName, "store.tmp"])
    (store : Store) : Action.Leads kind (save root store)
      (fun _ => Replaced root base kind store) (fun _ => kind) := by
  have hpassing : IsUsed session [directoryName, "store.tmp"] := .inside (by decide)
  unfold save Disk.replaceText
  refine (h.leads_writeText hpassing hplace store.toText).bind fun _ =>
    .of_forall fun disk hdisk => ?_
  obtain ⟨hdisk, hcontent⟩ := hdisk
  have hnot : ∀ location,
      disk.resolve false (passing root) ≠ .ok ⟨location, some .directory⟩ := by
    intro location hresolve
    obtain ⟨rfl, -⟩ := (h.ready hdisk).of_resolve hpassing hresolve
    nomatch (Disk.get?_of_resolve hresolve).trans hcontent
  refine .bind (Disk.leads_rename (passing root) (path root) disk hnot).attempt fun result => ?_
  cases result with
  | ok _ => exact .pure fun disk' => .of_moved h hplace hdisk hcontent
  | error failure =>
    refine .of_forall fun disk' hsame => ?_
    obtain rfl : disk' = disk := hsame
    refine Action.Leads.mono ?_ (fun _ hsame => hsame ▸ hdisk) (fun _ _ => id) (fun _ _ => id)
    exact Action.Leads.bind (h.holds_remove hpassing hplace).attempt fun _ => .throw fun _ => id

/-- The same for a kind of disks where the store may be replaced. -/
theorem Replaced.of_admits {kind : Disk → Prop} {allowed : List String → Prop} {store : Store}
    {disk : Disk} (h : Replaced root base kind store disk)
    (hadmits : Admits kind root session base allowed)
    (hplace : allowed [directoryName, "store.json"]) : kind disk := by
  obtain ⟨middle, hmiddle, hpasses, hfile, rfl⟩ := h.put
  exact hadmits.put hmiddle (.inside (by decide)) hplace hpasses hfile (.inl ⟨_, rfl⟩)

theorem holds_save {kind : Disk → Prop} {allowed : List String → Prop}
    (h : Admits kind root session base allowed) (hplaces : ∀ names ∈ places, allowed names)
    (store : Store) : Action.Holds kind (save root store) :=
  (leads_save h (hplaces _ (by decide)) store).mono (fun _ => id)
    (fun _ _ hreplaced => hreplaced.of_admits h (hplaces _ (by decide))) (fun _ _ => id)

/-- Names of what is changed where something is set. -/
def writtenPlaces : List (List String) := Session.lockPlaces ++ places

theorem leads_set_of_lock {kind hidden fail : Disk → Prop} {allowed : List String → Prop}
    (h : Admits hidden root session base allowed) (hplaces : ∀ names ∈ places, allowed names)
    (hfail : ∀ disk, hidden disk → fail disk)
    (hlock : Action.Leads kind (Session.lockToWrite root) (fun _ => hidden) (fun _ => fail))
    (now : Instant) (key : String) (value : Json) (span : Int) :
    Action.Leads kind (set root now key value span) (fun _ => hidden) (fun _ => fail) := by
  unfold set
  refine hlock.bind fun _ => Action.Leads.mono (Action.Holds.bind .get fun disk => ?_)
    (fun _ => id) (fun _ _ => id) (fun _ => hfail)
  exact (Action.Holds.compute _).bind fun _ => holds_save h hplaces _

theorem holds_set {kind : Disk → Prop} {allowed : List String → Prop}
    (h : Admits kind root session base allowed) (hplaces : ∀ names ∈ writtenPlaces, allowed names)
    (now : Instant) (key : String) (value : Json) (span : Int) :
    Action.Holds kind (set root now key value span) := by
  have hlock : Action.Holds kind (Session.lockToWrite root) :=
    (h.leads_lockToWrite fun names hnames => hplaces names (List.mem_append_left _ hnames)).mono
      (fun _ => id) (fun _ _ => And.left) (fun _ _ => id)
  exact leads_set_of_lock h (fun names hnames => hplaces names (List.mem_append_right _ hnames))
    (fun _ => id) hlock now key value span

include hready

theorem keeps_set (now : Instant) (key : String) (value : Json) (span : Int) :
    Keeps base before (set root now key value span) :=
  holds_set (Session.admits_own hready) (fun _ _ => trivial) now key value span

end Store

/-! ## The history -/

namespace History

theorem path_eq (root session : String) :
    path root session = pathBelow root [directoryName, "sessions", fileName session] := by
  unfold path directory pathBelow
  rw [List.foldl_cons, List.foldl_cons, List.foldl_cons, List.foldl_nil]
  rfl

/-- Names of what is looked at when a record is added. -/
def places (session : String) : List (List String) :=
  Session.lockPlaces ++
    [[directoryName, "sessions"], [directoryName, "sessions", fileName session]]

theorem leads_append_of_lock {kind hidden fail : Disk → Prop} {allowed : List String → Prop}
    (h : Admits hidden root session base allowed) (hsessions : allowed [directoryName, "sessions"])
    (hfile : allowed [directoryName, "sessions", fileName session])
    (hfail : ∀ disk, hidden disk → fail disk)
    (hlock : Action.Leads kind (Session.lockToWrite root)
      (fun _ disk => hidden disk ∧ disk.get? (base ++ [directoryName]) = some .directory)
      (fun _ => fail))
    (r : History.Record) :
    Action.Leads kind (append root session r) (fun _ => hidden) (fun _ => fail) := by
  have hmake : Action.Leads
      (fun disk => hidden disk ∧ disk.get? (base ++ [directoryName]) = some .directory)
      (Disk.makeDirectories (directory root)) (fun _ => hidden) (fun _ => fail) := by
    unfold directory
    rw [Session.inside_eq]
    exact (h.leads_makeDirectories (.inside (by decide)) hsessions (by decide)).mono
      (fun _ ⟨hdisk, hmade⟩ => ⟨hdisk, hmade, trivial⟩) (fun _ _ => id) (fun _ => hfail)
  unfold append
  rw [path_eq]
  exact hlock.bind fun _ => hmake.bind fun _ =>
    (h.holds_appendText .history hfile (line r)).mono (fun _ => id) (fun _ _ => id) (fun _ => hfail)

theorem holds_append {kind : Disk → Prop} {allowed : List String → Prop}
    (h : Admits kind root session base allowed) (hplaces : ∀ names ∈ places session, allowed names)
    (r : History.Record) : Action.Holds kind (append root session r) := by
  have hlock := h.leads_lockToWrite fun names hnames => hplaces names (List.mem_append_left _ hnames)
  exact leads_append_of_lock h (hplaces _ (by simp [places])) (hplaces _ (by simp [places]))
    (fun _ => id) (hlock.mono (fun _ => id) (fun _ _ ⟨hdisk, hmade, _⟩ => ⟨hdisk, hmade⟩)
      (fun _ _ => id)) r

include hready

theorem keeps_append (r : History.Record) : Keeps base before (append root session r) :=
  holds_append (Session.admits_own hready) (fun _ _ => trivial) r

end History

end Rephrase
