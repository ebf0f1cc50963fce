import Rephrase.Proofs.Session.Text

/-! A session that nothing stands in the way of: every operation on it comes to a result, and leaves it
so. -/

namespace Rephrase

open Disk (Action Location)
open Discovery (pathBelow)

namespace Session

/-- What may stand at names that a session looks at. -/
def Fits (names : List String) (entry : Disk.Entry) : Prop :=
  if names ∈ directoryPlaces then entry = .directory else entry.IsFile

/-- A disk where a session has its place: there is room, its paths are not too long, and where it has
files there are no directories. -/
structure IsOpen (root session : String) (base : Location) (disk : Disk) : Prop where
  settled : IsSettled root session base disk
  limit : disk.limit = none
  fits : ∀ {names}, IsUsed session names → ∀ {entry}, disk.get? (base ++ names) = some entry →
    Fits names entry
  short : ∀ {names}, IsUsed session names → (pathBelow root names).toList.elem '\x00' = false ∧
    (pathBelow root names).utf8ByteSize ≤ Disk.maxPath ∧
      ∀ n ∈ names, n.utf8ByteSize ≤ Disk.maxName

/-- All names below a project's root that its session looks at. -/
def usedPlaces (session : String) : List (List String) :=
  [[".gitignore"], [directoryName], [directoryName, ".lock"], [directoryName, "store.json"],
    [directoryName, "store.tmp"], [directoryName, "sessions"],
    [directoryName, "sessions", History.fileName session]]

theorem IsUsed.mem_usedPlaces {session : String} {names : List String} (h : IsUsed session names) :
    names ∈ usedPlaces session := by
  cases h with
  | ignoreList | directory | history => simp [usedPlaces]
  | @inside name hname =>
    simp only [List.mem_cons, List.not_mem_nil, or_false] at hname
    obtain rfl | rfl | rfl | rfl := hname <;> simp [usedPlaces]

instance (entry : Disk.Entry) : Decidable entry.IsFile :=
  match entry with
  | .file content => .isTrue ⟨content, rfl⟩
  | .directory => .isFalse Disk.not_isFile_directory
  | .link target => .isFalse (Disk.not_isFile_link target)

instance (names : List String) (entry : Disk.Entry) : Decidable (Fits names entry) :=
  inferInstanceAs (Decidable (if names ∈ directoryPlaces then entry = .directory else entry.IsFile))

theorem Fits.not_link {names : List String} {target : String} : ¬Fits names (.link target) := by
  unfold Fits
  split
  · nofun
  · exact Disk.not_isFile_link target

/-- It is enough to look at each of the names. -/
theorem isOpen_of_fits {root session : String} {base : Location} {disk : Disk}
    (hroot : disk.LeadsTo root base) (htree : disk.IsTree) (hlimit : disk.limit = none)
    (hfits : ∀ names ∈ usedPlaces session, ∀ entry ∈ disk.get? (base ++ names), Fits names entry)
    (hshort : ∀ names ∈ usedPlaces session, (pathBelow root names).toList.elem '\x00' = false ∧
      (pathBelow root names).utf8ByteSize ≤ Disk.maxPath ∧
        ∀ n ∈ names, n.utf8ByteSize ≤ Disk.maxName) : IsOpen root session base disk where
  settled := ⟨⟨hroot, fun names hused _ hlink =>
    Fits.not_link (hfits names hused.mem_usedPlaces _ hlink)⟩, htree⟩
  limit := hlimit
  fits := fun hused _ hentry => hfits _ hused.mem_usedPlaces _ hentry
  short := fun hused => hshort _ hused.mem_usedPlaces

/-- A project without any file. -/
def bareDisk : Disk := { entries := [] }

theorem isOpen_bare {session : String}
    (hshort : ∀ names ∈ usedPlaces session, (pathBelow "/" names).toList.elem '\x00' = false ∧
      (pathBelow "/" names).utf8ByteSize ≤ Disk.maxPath ∧
        ∀ n ∈ names, n.utf8ByteSize ≤ Disk.maxName) : IsOpen "/" session [] bareDisk := by
  refine isOpen_of_fits (Disk.leadsTo_top _) (by decide) rfl ?_ hshort
  simp [usedPlaces, bareDisk, Disk.get?]

namespace IsOpen

variable {root session : String} {base : Location} {disk : Disk}
  (h : IsOpen root session base disk)
include h

theorem get?_file {names : List String} (hused : IsUsed session names)
    (hnames : names ∉ directoryPlaces) :
    ∀ found, disk.get? (base ++ names) = some found → found.IsFile := by
  intro found hfound
  have hfits := h.fits hused hfound
  rwa [Fits, if_neg hnames] at hfits

/-- What is put in its place leaves the session open. -/
theorem put {names : List String} {entry : Disk.Entry} (hused : IsUsed session names)
    (hbefore : ∀ found, disk.get? (base ++ names) = some found → found.IsFile)
    (hpasses : disk.Passes base names) (hentry : Fits names entry) :
    IsOpen root session base (disk.put (base ++ names) entry) := by
  have hputs : Puts names entry := by
    unfold Fits at hentry
    split at hentry
    · exact .inr ⟨hentry, ‹_›⟩
    · exact .inl hentry
  have hdiffers := (admits_differs h.settled.ready (fun _ => True)).put (.refl h.settled.tree)
    hused trivial hpasses hbefore hputs
  refine ⟨h.settled.of_differs hdiffers, h.limit, fun {other} hother found hfound => ?_, h.short⟩
  by_cases hsame : base ++ other = base ++ names
  · obtain rfl := List.append_cancel_left hsame
    rw [Disk.get?_put_self disk (by simp [hused.ne_nil])] at hfound
    exact Option.some.inj hfound ▸ hentry
  · rw [Disk.get?_put_of_ne disk hsame] at hfound
    exact h.fits hother hfound

theorem erase {names : List String} (hused : IsUsed session names)
    (hnames : names ∉ directoryPlaces) : IsOpen root session base (disk.erase (base ++ names)) := by
  have hdiffers := (admits_differs h.settled.ready (fun _ => True)).erase (.refl h.settled.tree)
    hused trivial (h.get?_file hused hnames)
  refine ⟨h.settled.of_differs hdiffers, h.limit, fun {other} hother found hfound => ?_, h.short⟩
  by_cases hsame : base ++ other = base ++ names
  · rw [hsame, Disk.get?_erase_self disk (by simp [hused.ne_nil])] at hfound
    cases hfound
  · rw [Disk.get?_erase_of_ne disk hsame] at hfound
    exact h.fits hother hfound

section

variable {names : List String} (hused : IsUsed session names) (hpasses : disk.Passes base names)
include hused hpasses

theorem resolve (follow : Bool) : disk.resolve follow (pathBelow root names) =
    .ok ⟨base ++ names, disk.get? (base ++ names)⟩ := by
  obtain ⟨hnul, hsize, hshort⟩ := h.short hused
  exact Disk.resolve_below h.settled.ready.leads (fun n hn => ⟨hused.named n hn, hshort n hn⟩)
    hused.ne_nil ⟨hnul, hsize⟩ hpasses (h.settled.ready.unlinked names hused) follow

theorem writable (hnames : names ∉ directoryPlaces) :
    ∃ content, disk.writable (pathBelow root names) = .ok (base ++ names, content) := by
  have hfile := h.get?_file hused hnames
  unfold Disk.writable
  rw [h.resolve hused hpasses true]
  cases hget : disk.get? (base ++ names) with
  | none => exact ⟨_, rfl⟩
  | some entry =>
    obtain ⟨content, rfl⟩ := hfile entry hget
    exact ⟨content, rfl⟩

theorem put_file (hnames : names ∉ directoryPlaces) (content : ByteArray) :
    IsOpen root session base (disk.put (base ++ names) (.file content)) :=
  h.put hused (h.get?_file hused hnames) hpasses (by rw [Fits, if_neg hnames]; exact ⟨content, rfl⟩)

theorem exists_appendText (hnames : names ∉ directoryPlaces) (text : String) : ∃ content,
    (Disk.appendText (pathBelow root names) text).run.run disk =
      (.ok (), disk.put (base ++ names) (.file content)) := by
  obtain ⟨content, hwritable⟩ := h.writable hused hpasses hnames
  exact ⟨_, Disk.run_appendText hwritable h.limit text⟩

/-- After it was made, or before, there is the directory. -/
theorem exists_makeDirectories (hnames : names ∈ directoryPlaces) : ∃ disk',
    (Disk.makeDirectories (pathBelow root names)).run.run disk = (.ok (), disk') ∧
      IsOpen root session base disk' ∧ disk'.get? (base ++ names) = some .directory := by
  have hresolve := h.resolve hused hpasses
  cases hget : disk.get? (base ++ names) with
  | none =>
    rw [hget] at hresolve
    refine ⟨_, Disk.run_makeDirectories_new ?_ (hresolve false), h.put hused ?_ hpasses ?_,
      Disk.get?_put_self disk (by simp [hused.ne_nil]) _⟩
    · exact Path.pathBelow_ne_empty (Disk.walk_of_resolve h.settled.ready.leads).1 hused.named
    · exact fun found hfound => nomatch hget.symm.trans hfound
    · rw [Fits, if_pos hnames]
  | some entry =>
    have hfits := h.fits hused hget
    rw [Fits, if_pos hnames] at hfits
    subst hfits
    rw [hget] at hresolve
    exact ⟨disk, Disk.run_makeDirectories hresolve, h, hget⟩

end

/-! ## Operations -/

theorem exists_hide : ∃ disk', (hide root).run.run disk = (.ok (), disk') ∧
    IsOpen root session base disk' ∧
      disk'.get? (base ++ [directoryName]) = disk.get? (base ++ [directoryName]) := by
  unfold hide
  rw [Disk.run_bind_ok (Disk.run_get disk)]
  dsimp only
  split
  · split
    · obtain ⟨content, hrun⟩ := h.exists_appendText .ignoreList trivial (by decide)
        (ignoreAddition ((disk.textAt (Path.join root ".gitignore")).toOption.getD "").toList)
      have hother : base ++ [directoryName] ≠ base ++ [".gitignore"] := by
        intro heq
        exact absurd (List.append_cancel_left heq) (by decide)
      exact ⟨_, hrun, h.put_file .ignoreList trivial (by decide) content,
        Disk.get?_put_of_ne disk hother _⟩
    · exact ⟨disk, rfl, h, rfl⟩
  · exact ⟨disk, rfl, h, rfl⟩

theorem exists_prepare : ∃ disk', (prepare root).run.run disk = (.ok (), disk') ∧
    IsOpen root session base disk' ∧ disk'.get? (base ++ [directoryName]) = some .directory := by
  have hused : IsUsed session [directoryName] := .directory
  have hfind : disk.find? (Session.directory root) = disk.get? (base ++ [directoryName]) := by
    have hpath : Session.directory root = pathBelow root [directoryName] := rfl
    unfold Disk.find?
    rw [hpath, h.resolve hused trivial true]
  unfold prepare
  rw [Disk.run_bind_ok (Disk.run_get disk)]
  dsimp only
  cases hholds : disk.holds (Session.directory root) with
  | false =>
    obtain ⟨made, hmade, hopen, hdirectory⟩ :=
      h.exists_makeDirectories hused trivial (List.mem_cons_self)
    obtain ⟨disk', hhide, hopen', hsame⟩ := hopen.exists_hide
    refine ⟨disk', ?_, hopen', hsame.trans hdirectory⟩
    have hmade' : (Disk.makeDirectories (Session.directory root)).run.run disk = (.ok (), made) :=
      hmade
    rw [if_pos (by rfl), Disk.run_bind_ok hmade']
    exact hhide
  | true =>
    -- What stands there can only be the directory.
    rw [Disk.holds, hfind] at hholds
    obtain ⟨entry, hentry⟩ := Option.isSome_iff_exists.mp hholds
    have hfits := h.fits hused hentry
    rw [Fits, if_pos (by decide)] at hfits
    obtain ⟨disk', hhide, hopen', hsame⟩ := h.exists_hide
    exact ⟨disk', hhide, hopen', hsame.trans (hentry.trans (congrArg some hfits))⟩

theorem exists_lockToWrite : ∃ disk', (lockToWrite root).run.run disk = (.ok (), disk') ∧
    IsOpen root session base disk' ∧ disk'.get? (base ++ [directoryName]) = some .directory := by
  have hused : IsUsed session [directoryName, ".lock"] := .inside (by decide)
  obtain ⟨prepared, hprepare, hopen, hdirectory⟩ := h.exists_prepare
  obtain ⟨content, hwritable⟩ := hopen.writable hused ⟨hdirectory, trivial⟩ (by decide)
  refine ⟨_, ?_, hopen.put_file hused ⟨hdirectory, trivial⟩ (by decide) content, ?_⟩
  · unfold lockToWrite
    rw [Disk.run_bind_ok hprepare]
    exact Disk.run_touch hwritable
  · rw [Disk.get?_put_of_ne _ (by simp)]
    exact hdirectory

/-- Where the session's directory is, the store can be replaced, and what it was passed through is
gone then. -/
theorem exists_save (hdirectory : disk.get? (base ++ [directoryName]) = some .directory)
    (store : Store) : ∃ disk', (Store.save root store).run.run disk = (.ok (), disk') ∧
      IsOpen root session base disk' ∧
      disk'.get? (base ++ [directoryName, "store.json"]) = some (.file store.toText.toUTF8) ∧
      disk'.get? (base ++ [directoryName, "store.tmp"]) = none := by
  have hpath : IsUsed session [directoryName, "store.json"] := .inside (by decide)
  have hpassing : IsUsed session [directoryName, "store.tmp"] := .inside (by decide)
  obtain ⟨content, hwritable⟩ := h.writable hpassing ⟨hdirectory, trivial⟩ (by decide)
  have hfilled := h.put_file hpassing ⟨hdirectory, trivial⟩ (by decide) store.toText.toUTF8
  have hdirectory' : (disk.put (base ++ [directoryName, "store.tmp"])
      (.file store.toText.toUTF8)).get? (base ++ [directoryName]) = some .directory := by
    rw [Disk.get?_put_of_ne _ (by simp)]
    exact hdirectory
  -- With its new text in the other file, the store is replaced by a move, which takes that file
  -- away.
  have hold := hfilled.resolve hpassing ⟨hdirectory', trivial⟩ false
  rw [Disk.get?_put_self disk (by simp)] at hold
  have hnew := hfilled.resolve hpath ⟨hdirectory', trivial⟩ false
  have hnot : (disk.put (base ++ [directoryName, "store.tmp"])
      (.file store.toText.toUTF8)).get? (base ++ [directoryName, "store.json"]) ≠
        some .directory := fun hstands =>
    Disk.not_isFile_directory (hfilled.get?_file hpath (by decide) _ hstands)
  refine ⟨_, ?_, (hfilled.erase hpassing (by decide)).put_file hpath ⟨?_, trivial⟩ (by decide)
    store.toText.toUTF8, Disk.get?_put_self _ (by simp) _, ?_⟩
  · unfold Store.save Disk.replaceText Disk.writeText
    have hwrite : (Disk.writeBytes (Store.passing root) store.toText.toUTF8).run.run disk = _ :=
      Disk.run_writeBytes_unlimited hwritable h.limit _
    have hmove : (Disk.rename (Store.passing root) (Store.path root)).run.run _ = _ :=
      Disk.run_rename hold nofun hnew hnot
    rw [Disk.run_bind_ok hwrite, Disk.run_bind_ok (Disk.run_attempt_ok hmove)]
    rfl
  · rw [Disk.get?_erase_of_ne _ (by simp)]
    exact hdirectory'
  · rw [Disk.get?_put_of_ne _ (by simp), Disk.get?_erase_self _ (by simp)]

theorem exists_set {now expires : Instant} {span : Int} (hexpires : now.after span = .ok expires)
    (key : String) (value : Json) : ∃ store disk',
      (Store.set root now key value span).run.run disk = (.ok (), disk') ∧
        IsOpen root session base disk' ∧
        disk'.get? (base ++ [directoryName, "store.json"]) =
          some (.file (Store.toText store).toUTF8) ∧
        disk'.get? (base ++ [directoryName, "store.tmp"]) = none := by
  obtain ⟨locked, hlock, hopen, hdirectory⟩ := h.exists_lockToWrite
  unfold Store.set
  rw [Disk.run_bind_ok hlock, Disk.run_bind_ok (Disk.run_get locked),
    Disk.run_bind_ok (Disk.run_compute hexpires locked)]
  exact ⟨_, hopen.exists_save hdirectory _⟩

theorem exists_remove (now : Instant) (key : String) : ∃ was disk',
    (Store.remove root now key).run.run disk = (.ok was, disk') ∧
      IsOpen root session base disk' := by
  unfold Store.remove
  rw [Disk.run_bind_ok (Disk.run_get disk)]
  cases disk.holds (Session.directory root) with
  | false => exact ⟨false, disk, rfl, h⟩
  | true =>
    obtain ⟨locked, hlock, hopen, hdirectory⟩ := h.exists_lockToWrite
    obtain ⟨disk', hsave, hopen', -⟩ := hopen.exists_save hdirectory
      ((Store.load locked root).erase key)
    rw [if_neg (by decide), Disk.run_bind_ok hlock, Disk.run_bind_ok (Disk.run_get locked),
      Disk.run_bind_ok hsave]
    exact ⟨_, disk', rfl, hopen'⟩

/-- A session that is looked at stays open, whether it could be locked or not. -/
theorem exists_lockToRead : ∃ result disk',
    (lockToRead root).attempt.run.run disk = (.ok result, disk') ∧
      IsOpen root session base disk' := by
  have hused : IsUsed session [directoryName, ".lock"] := .inside (by decide)
  by_cases hlock : IsLockable root disk
  · obtain ⟨target, hwritable⟩ := hlock.lock
    obtain ⟨hdirectory, -⟩ := h.settled.ready.isLockable hwritable
    obtain ⟨content, hwritable⟩ := h.writable hused ⟨hdirectory, trivial⟩ (by decide)
    refine ⟨.ok (), _, Disk.run_attempt_ok ?_,
      h.put_file hused ⟨hdirectory, trivial⟩ (by decide) content⟩
    unfold lockToRead
    rw [Disk.run_bind_ok (Disk.run_get disk)]
    dsimp only
    rw [hlock.directory]
    exact Disk.run_touch hwritable
  · obtain ⟨failure, hrun⟩ := run_lockToRead_refused hlock
    exact ⟨_, disk, Disk.run_attempt_error hrun, h⟩

theorem exists_get {α : Type} (now : Instant) (key : String) (decode : Json.Decoder α) :
    ∃ found disk', (Store.get root now key decode).run.run disk = (.ok found, disk') ∧
      IsOpen root session base disk' := by
  obtain ⟨result, disk', hlock, hopen⟩ := h.exists_lockToRead
  unfold Store.get
  rw [Disk.run_bind_ok hlock]
  cases result with
  | ok _ => exact ⟨_, disk', rfl, hopen⟩
  | error failure => exact ⟨none, disk', rfl, hopen⟩

theorem exists_append (r : History.Record) : ∃ disk',
    (History.append root session r).run.run disk = (.ok (), disk') ∧
      IsOpen root session base disk' := by
  have hhistory : [directoryName, "sessions", History.fileName session] ∉ directoryPlaces := by
    simp [directoryPlaces]
  obtain ⟨locked, hlock, hopen, hdirectory⟩ := h.exists_lockToWrite
  obtain ⟨made, hmade, hopen', hsessions⟩ := hopen.exists_makeDirectories
    (.inside (by decide) : IsUsed session [directoryName, "sessions"]) ⟨hdirectory, trivial⟩
      (by decide)
  have hpasses : made.Passes base [directoryName, "sessions", History.fileName session] := by
    have hreached : made.get? (base ++ [directoryName, "sessions"]) ≠ none :=
      hsessions ▸ Option.some_ne_none _
    refine ⟨(hopen'.settled.tree.passes hreached).1, ?_, trivial⟩
    rwa [List.append_assoc]
  obtain ⟨content, happend⟩ := hopen'.exists_appendText .history hpasses hhistory (History.line r)
  refine ⟨_, ?_, hopen'.put_file .history hpasses hhistory content⟩
  unfold History.append
  rw [Disk.run_bind_ok hlock, History.path_eq]
  unfold History.directory
  rw [inside_eq, Disk.run_bind_ok hmade]
  exact happend

end IsOpen

end Session

end Rephrase
