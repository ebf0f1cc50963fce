import Mathlib
import Rephrase.Proofs.Json.Decode
import Rephrase.Proofs.Json.Line
import Rephrase.Proofs.Session.Open
import Rephrase.Proofs.Time.Stamp

/-! A history tells of the records that were added to it, in their order, whatever stands in them, and
it tells of no other session's unless the names of both are taken for the same. -/

namespace Rephrase.History

open Disk (Action Location)
open Json (Number)
open Session (Differs IsLockable IsReady IsSettled IsUsed directoryName lockPlaces)

/-! ## Lines -/

/-- How deep the details of a record may be nested. -/
def detailLevels : Nat := Json.Decode.textLevels - 1

/-- A record that is read back from its line: its details are a value without floats that is kept as
it is. -/
structure Record.IsSound (r : Record) : Prop where
  time : r.time.IsPlain
  numbers : r.details.allNumbers Number.isWord = true
  normal : r.details.normalize = r.details
  depth : r.details.depth ≤ detailLevels

/-- The members of a record as they are read again. -/
def Record.members (r : Record) : List (String × Json.Document) :=
  [("type", .string (some r.kind)), ("file", .string (some r.file)),
    ("description", .string (some r.description)), ("timestamp", r.time.toJson.reread),
    ("approach", .string (some r.approach)), ("success", .bool r.success),
    ("details", r.details.reread)]

theorem Record.reread_toJson (r : Record) :
    r.toJson.reread = .object (r.members.map fun m => (some m.1, m.2)) := rfl

theorem Record.decode_reread {r : Record} (h : r.IsSound) :
    Record.decode (detailLevels + 1) r.toJson.reread = some r := by
  have htime : Instant.decode detailLevels r.time.toJson.reread = some r.time := by
    show (some r.time.write).bind (fun s => Instant.read? s.toList) = _
    rw [Option.bind_some, Instant.read?_write h.time]
  have hdetails : r.details.reread.value? detailLevels = some r.details :=
    (Json.value?_reread h.numbers h.depth).trans (congrArg some h.normal)
  have honce : (r.members.map Prod.fst).Nodup := by simp [Record.members]
  rw [Record.decode, Record.reread_toJson, Json.Decode.record_map _ _ honce]
  simp [Record.members, Json.Decode.Slot.required, Json.Decode.Slot.withDefault,
    Json.Decode.string, Json.Decode.bool, Json.Decode.any, List.lookup_cons, htime, hdetails]

theorem Record.decodeText?_compact {r : Record} (h : r.IsSound) :
    Json.decodeText? Record.decode (Json.compact r.toJson) = some r := by
  unfold Json.decodeText?
  rw [Json.ofText?_compact]
  exact Record.decode_reread h

theorem toList_line (r : Record) : (line r).toList = Json.compact r.toJson ++ ['\n'] :=
  String.toList_ofList

theorem getLast?_compact (r : Record) : (Json.compact r.toJson).getLast? = some '\x7d' := by
  rw [Record.toJson, Json.compact, List.getLast?_concat]

/-- The text of a history that some records were added to. -/
def textOf (records : List Record) : String :=
  records.foldl (fun text r => text ++ line r) ""

theorem textOf_concat (records : List Record) (r : Record) :
    textOf (records ++ [r]) = textOf records ++ line r := List.foldl_concat ..

theorem toList_textOf (records : List Record) :
    (textOf records).toList = records.flatMap fun r => Json.compact r.toJson ++ ['\n'] := by
  induction records using List.reverseRecOn with
  | nil => rfl
  | append_singleton records r ih =>
    rw [textOf_concat, String.toList_append, ih, toList_line, List.flatMap_append]
    simp

/-- Every record is found on its own line. -/
theorem ofText_textOf {records : List Record} (h : ∀ r ∈ records, r.IsSound) :
    ofText (textOf records) = records := by
  unfold ofText
  rw [toList_textOf]
  induction records with
  | nil => rfl
  | cons r rest ih =>
    obtain ⟨hfirst, hrest⟩ := List.forall_mem_cons.mp h
    have hreturn : (Json.compact r.toJson).getLast? ≠ some '\r' := by
      rw [getLast?_compact]
      decide
    rw [List.flatMap_cons, List.append_assoc, List.singleton_append,
      Text.lines_append (Json.newline_not_mem_compact _) hreturn, List.filterMap_cons,
      Record.decodeText?_compact hfirst, ih hrest]

/-! ## Histories on disk -/

/-- The records that are found once a session is locked. -/
def recordsAt (disk : Disk) (root session : String) : List Record :=
  (((disk.bytesAt (path root session)).toOption.bind String.fromUTF8?).map ofText).getD []

section

variable {root session : String} {base : Location} {allowed : List String → Prop}
  {before disk : Disk}

/-- Where a session cannot be locked there are no records. -/
theorem run_load_refused (h : ¬IsLockable root disk) :
    (load root session).run.run disk = (.ok [], disk) := by
  obtain ⟨failure, hlock⟩ := Session.run_lockToRead_refused h
  unfold load
  rw [Disk.run_bind_ok (Disk.run_attempt_error hlock)]
  rfl

theorem exists_run_load (hsettled : IsSettled root session base disk) (h : IsLockable root disk) :
    ∃ locked, (load root session).run.run disk = (.ok (recordsAt disk root session), locked) := by
  obtain ⟨locked, hlock, hdiffers⟩ := h.exists_run hsettled
  have hbytes := hsettled.bytesAt hdiffers (.history : IsUsed session _) (by simp [lockPlaces])
  refine ⟨locked, ?_⟩
  unfold load
  rw [Disk.run_bind_ok (Disk.run_attempt_ok hlock), Disk.run_bind_ok (Disk.run_get locked),
    recordsAt, path_eq, ← hbytes, ← Disk.toOption_textAt]
  cases locked.textAt _ <;> rfl

/-- What can be read stands in the session's directory. -/
theorem directory_of_recordsAt (h : IsReady root session base disk)
    (hsome : recordsAt disk root session ≠ []) :
    disk.get? (base ++ [directoryName]) = some .directory := by
  unfold recordsAt at hsome
  cases hbytes : disk.bytesAt (path root session) with
  | error e =>
    rw [hbytes] at hsome
    exact absurd rfl hsome
  | ok content =>
    obtain ⟨location, hresolve⟩ := Disk.resolve_of_bytesAt hbytes
    rw [path_eq] at hresolve
    exact (h.of_resolve .history hresolve).2.1

section

variable (h : IsSettled root session base before) (hdiffers : Differs base allowed before disk)
  (hplace : ¬allowed [directoryName, "sessions", fileName session])
include h hdiffers hplace

theorem recordsAt_of_differs : recordsAt disk root session = recordsAt before root session := by
  rw [recordsAt, recordsAt, path_eq, h.bytesAt hdiffers .history hplace]

/-- Where its file is left alone a history is read as before. -/
theorem load_of_differs : ∃ records locked locked',
    (load root session).run.run before = (.ok records, locked) ∧
      (load root session).run.run disk = (.ok records, locked') := by
  have hrecords := recordsAt_of_differs h hdiffers hplace
  have hsettled := h.of_differs hdiffers
  by_cases hlock : IsLockable root before
  · obtain ⟨target, hwritable⟩ := hlock.lock
    have hdirectory := (h.ready.isLockable hwritable).1
    obtain ⟨locked, hrun⟩ := exists_run_load h hlock
    obtain ⟨locked', hrun'⟩ :=
      exists_run_load hsettled ((Session.isLockable_iff h hdiffers hdirectory).mpr hlock)
    rw [hrecords] at hrun'
    exact ⟨_, locked, locked', hrun, hrun'⟩
  · refine ⟨[], before, ?_⟩
    by_cases hlock' : IsLockable root disk
    · obtain ⟨locked', hrun'⟩ := exists_run_load hsettled hlock'
      refine ⟨locked', run_load_refused hlock, ?_⟩
      -- A session that could not be locked has no directory, or its lock stands in the way still.
      have hempty : recordsAt before root session = [] := by
        by_contra hsome
        exact hlock ((Session.isLockable_iff h hdiffers
          (directory_of_recordsAt h.ready hsome)).mp hlock')
      rw [hrecords, hempty] at hrun'
      exact hrun'
    · exact ⟨disk, run_load_refused hlock, run_load_refused hlock'⟩

end

end

/-! ## Additions -/

/-- What is left of a disk when a record was added. -/
structure Added (root session : String) (base : Location) (before : Disk) (r : Record)
    (disk : Disk) : Prop where
  differs : Differs base (· ∈ places session) before disk
  directory : disk.get? (base ++ [directoryName]) = some .directory
  lockable : IsLockable root disk
  bytes : disk.bytesAt (path root session) = .ok
    ((before.bytesAt (path root session)).toOption.getD ByteArray.empty ++ (line r).toUTF8)

/-- Names of what is looked at before a record is added. -/
def frontPlaces : List (List String) := lockPlaces ++ [[directoryName, "sessions"]]

/-- A record is added at the end of what was there. -/
theorem leads_append {root session : String} {base : Location} {before : Disk}
    (h : IsSettled root session base before) (r : Record) :
    Action.Leads (· = before) (append root session r)
      (fun _ => Added root session base before r)
      (fun _ => Differs base (· ∈ places session) before) := by
  have hsessions : IsUsed session [directoryName, "sessions"] := .inside (by decide)
  have hmore : ∀ {before disk}, Differs base (· ∈ frontPlaces) before disk →
      Differs base (· ∈ places session) before disk := fun hdiffers =>
    hdiffers.mono fun _ => List.mem_append_left _
  have hlock : Action.Leads (· = before) (Session.lockToWrite root) _ _ :=
    ((Session.admits_differs h.ready (· ∈ frontPlaces)).leads_lockToWrite
      fun _ => List.mem_append_left _).mono (fun _ hsame => hsame.symm ▸ .refl h.tree)
        (fun _ _ => id) (fun _ _ => hmore)
  unfold append
  rw [path_eq]
  refine hlock.bind fun _ => .of_forall fun locked hlocked => ?_
  obtain ⟨hdiffers, hdirectory, hlockable⟩ := hlocked
  have hsettled := h.of_differs hdiffers
  have hmake : Action.Leads (· = locked) (Disk.makeDirectories (directory root))
      (fun _ => Differs base (· ∈ frontPlaces) locked)
      (fun _ => Differs base (· ∈ places session) before) :=
    ((Session.admits_differs hsettled.ready (· ∈ frontPlaces)).leads_makeDirectories hsessions
      (by decide) (by decide)).mono
        (fun _ hsame => hsame.symm ▸ ⟨.refl hsettled.tree, hdirectory, trivial⟩) (fun _ _ => id)
        (fun _ _ hmade => hmore (hdiffers.trans hmade))
  refine hmake.bind fun _ => .of_forall fun made hmade => ?_
  have hfront := hdiffers.trans hmade
  have hwritten : ∀ {disk}, Disk.Written (Discovery.pathBelow root
      [directoryName, "sessions", fileName session]) made disk →
        Differs base (· ∈ places session) made disk :=
    (Session.admits_differs (hsettled.of_differs hmade).ready (· ∈ places session)).written
      .history (by simp [places]) (.refl hmade.tree)
  refine (Disk.leads_extended _ (line r) made).mono (fun _ => id) (fun _ disk hextended => ?_)
    (fun _ disk hlost => ?_)
  · obtain ⟨location, content, hwritable, heq⟩ := hextended
    have hadded := hwritten ⟨location, content, _, hwritable, heq⟩
    have hboth := hmore hmade |>.trans hadded
    refine ⟨hmore hfront |>.trans hadded,
      hboth.keeps.stands _ _ hdirectory Disk.not_isFile_directory,
      (Session.isLockable_iff hsettled hboth hdirectory).mpr hlockable, ?_⟩
    -- Until the record is added the history is as it was.
    rw [path_eq, Disk.Extended.bytesAt ⟨location, content, hwritable, heq⟩,
      h.bytesAt hfront .history (by simp [frontPlaces, lockPlaces])]
  · obtain rfl | hextended := hlost
    · exact hmore hfront
    · exact hmore hfront |>.trans (hwritten hextended)

/-- A disk whose history is made of some records. -/
structure Tells (root session : String) (base : Location) (records : List Record) (disk : Disk) :
    Prop where
  settled : IsSettled root session base disk
  bytes : (disk.bytesAt (path root session)).toOption =
    if records = [] then none else some (textOf records).toUTF8
  lockable : records = [] ∨
    (disk.get? (base ++ [directoryName]) = some .directory ∧ IsLockable root disk)

section

variable {root session : String} {base : Location} {records : List Record} {before disk : Disk}

/-- Without a file there are no records. -/
theorem tells_nil (hready : IsReady root session base disk) (htree : disk.IsTree)
    (habsent : disk.get? (base ++ [directoryName, "sessions", fileName session]) = none) :
    Tells root session base [] disk where
  settled := ⟨hready, htree⟩
  lockable := .inl rfl
  bytes := by
    rw [if_pos rfl, path_eq]
    cases hbytes : disk.bytesAt _ with
    | error e => rfl
    | ok content =>
      obtain ⟨location, hresolve⟩ := Disk.resolve_of_bytesAt hbytes
      have hentry := Disk.get?_of_resolve hresolve
      rw [(hready.of_resolve .history hresolve).1] at hentry
      exact nomatch hentry.trans habsent

variable (h : Tells root session base records before)
include h

theorem Tells.getD_bytes :
    (before.bytesAt (path root session)).toOption.getD ByteArray.empty = (textOf records).toUTF8 := by
  rw [h.bytes]
  split
  · rename_i hempty
    rw [hempty]
    rfl
  · rfl

theorem Tells.of_differs {allowed : List String → Prop} (hdiffers : Differs base allowed before disk)
    (hplace : ¬allowed [directoryName, "sessions", fileName session]) :
    Tells root session base records disk where
  settled := h.settled.of_differs hdiffers
  bytes := by rw [path_eq, h.settled.bytesAt hdiffers .history hplace, ← path_eq, h.bytes]
  lockable := h.lockable.imp_right fun ⟨hdirectory, hlock⟩ =>
    ⟨hdiffers.keeps.stands _ _ hdirectory Disk.not_isFile_directory,
      (Session.isLockable_iff h.settled hdiffers hdirectory).mpr hlock⟩

theorem Tells.added {r : Record} (hadded : Added root session base before r disk) :
    Tells root session base (records ++ [r]) disk where
  settled := h.settled.of_differs hadded.differs
  bytes := by
    have htext : (textOf (records ++ [r])).toUTF8 = (textOf records).toUTF8 ++ (line r).toUTF8 := by
      rw [textOf_concat, Disk.toUTF8_append]
    rw [hadded.bytes, h.getD_bytes, if_neg (by simp), htext]
    rfl
  lockable := .inr ⟨hadded.directory, hadded.lockable⟩

/-- Then these are what is read, first the one that was added first. -/
theorem Tells.exists_run_load (hsound : ∀ r ∈ records, r.IsSound) :
    ∃ locked, (load root session).run.run before = (.ok records, locked) := by
  have hrecords : recordsAt before root session = records := by
    unfold recordsAt
    rw [h.bytes]
    split
    · rename_i hempty
      exact hempty.symm
    · rw [Option.bind_some, Disk.fromUTF8?_toUTF8, Option.map_some, Option.getD_some,
        ofText_textOf hsound]
  by_cases hlock : IsLockable root before
  · obtain ⟨locked, hrun⟩ := History.exists_run_load h.settled hlock
    exact ⟨locked, hrecords ▸ hrun⟩
  · obtain rfl := h.lockable.resolve_right fun hlocked => hlock hlocked.2
    exact ⟨before, run_load_refused hlock⟩

end

/-! ## Other sessions -/

/-- Whatever comes of adding a record, the history of a session whose name is not taken for the same
is read as before. -/
theorem load_of_append {root session other : String} {base : Location} {before after : Disk}
    {result : Except Disk.Failure Unit} (hready : IsReady root session base before)
    (hready' : IsReady root other base before) (htree : before.IsTree)
    (hother : fileName session ≠ fileName other) {r : Record}
    (hrun : (append root session r).run.run before = (result, after)) :
    ∃ records locked locked', (load root other).run.run before = (.ok records, locked) ∧
      (load root other).run.run after = (.ok records, locked') := by
  have hdiffers : Differs base (· ∈ places session) before after :=
    (holds_append (Session.admits_differs hready _) (fun _ => id) r).of_run (.refl htree) hrun
  exact load_of_differs ⟨hready', htree⟩ hdiffers (by simp [places, lockPlaces, hother.symm])

def someRecord : Record :=
  { kind := "modification", file := "a.md", description := "\"Sign in\" -> \"Log in\"",
    time := ⟨0, 0⟩, approach := "direct", success := true, details := .null }

theorem isSound_someRecord : someRecord.IsSound where
  time := ⟨by decide, .inl (by decide)⟩
  numbers := rfl
  normal := by simp [someRecord, Json.normalize]
  depth := by decide

/-- A project where a session has left a record. -/
def toldDisk : Disk :=
  { entries := [([directoryName], .directory), ([directoryName, "sessions"], .directory),
      ([directoryName, "sessions", "s-2.jsonl"], .file (textOf [someRecord]).toUTF8)] }

/-- One session's record is found after another one has left its own. -/
theorem load_beside_other : IsReady "/" "s-1" [] toldDisk ∧ IsReady "/" "s-2" [] toldDisk ∧
    toldDisk.IsTree ∧ fileName "s-1" ≠ fileName "s-2" ∧ ∃ after locked locked',
      (append "/" "s-1" someRecord).run.run toldDisk = (.ok (), after) ∧
      (load "/" "s-2").run.run toldDisk = (.ok [someRecord], locked) ∧
      (load "/" "s-2").run.run after = (.ok [someRecord], locked') := by
  have hopen : Session.IsOpen "/" "s-1" [] toldDisk :=
    Session.isOpen_of_fits (Disk.leadsTo_top _) (by decide) rfl (by decide) (by decide)
  have hopen' : Session.IsOpen "/" "s-2" [] toldDisk :=
    Session.isOpen_of_fits (Disk.leadsTo_top _) (by decide) rfl (by decide) (by decide)
  have hnames : fileName "s-1" ≠ fileName "s-2" := by decide
  have hready := hopen.settled.ready
  have hready' := hopen'.settled.ready
  have hresolve : toldDisk.resolve true (path "/" "s-2") =
      .ok ⟨[directoryName, "sessions", "s-2.jsonl"], some (.file (textOf [someRecord]).toUTF8)⟩ := by
    rw [show path "/" "s-2" = "/.retext/sessions/s-2.jsonl" by decide]
    exact Disk.resolve_names (by decide) (by decide) ⟨rfl, rfl, trivial⟩ rfl nofun
  have hlock : toldDisk.resolve true (Session.inside "/" ".lock") =
      .ok ⟨[directoryName, ".lock"], none⟩ := by
    rw [show Session.inside "/" ".lock" = "/.retext/.lock" by decide]
    exact Disk.resolve_names (by decide) (by decide) ⟨rfl, trivial⟩ rfl nofun
  have hwritable : toldDisk.writable (Session.inside "/" ".lock") =
      .ok ([directoryName, ".lock"], ByteArray.empty) := by
    unfold Disk.writable
    rw [hlock]
  -- The other session can read its record at first.
  have htells : Tells "/" "s-2" [] [someRecord] toldDisk := by
    refine ⟨hopen'.settled, ?_, .inr (hready'.isLockable hwritable)⟩
    rw [Disk.bytesAt_of_resolve hresolve]
    rfl
  obtain ⟨locked, hload⟩ :=
    htells.exists_run_load (List.forall_mem_singleton.mpr isSound_someRecord)
  obtain ⟨after, hrun, -⟩ := hopen.exists_append someRecord
  obtain ⟨records, _, locked', hbefore, hafter⟩ :=
    load_of_append hready hready' hopen.settled.tree hnames hrun
  obtain rfl : [someRecord] = records := Except.ok.inj (Prod.mk.inj (hload.symm.trans hbefore)).1
  exact ⟨hready, hready', hopen.settled.tree, hnames, after, locked, locked', hrun, hload, hafter⟩

/-- Sessions whose names differ in a slash alone have one history. -/
theorem histories_mixed : "a/b" ≠ "a_b" ∧ ∃ after locked locked',
    (append "/" "a/b" someRecord).run.run Session.bareDisk = (.ok (), after) ∧
    (load "/" "a_b").run.run Session.bareDisk = (.ok [], locked) ∧
    (load "/" "a_b").run.run after = (.ok [someRecord], locked') := by
  have hopen : Session.IsOpen "/" "a/b" [] Session.bareDisk := Session.isOpen_bare (by decide)
  have hload : load "/" "a_b" = load "/" "a/b" := by
    unfold load path
    rw [show fileName "a_b" = fileName "a/b" by decide]
  have htells := tells_nil hopen.settled.ready hopen.settled.tree rfl
  obtain ⟨after, hrun, -⟩ := hopen.exists_append someRecord
  have hadded := htells.added ((leads_append hopen.settled someRecord).ok rfl hrun)
  obtain ⟨locked, hbefore⟩ := htells.exists_run_load (List.forall_mem_nil _)
  obtain ⟨locked', hafter⟩ :=
    hadded.exists_run_load (List.forall_mem_singleton.mpr isSound_someRecord)
  rw [hload]
  exact ⟨by decide, after, locked, locked', hrun, hbefore, hafter⟩

end Rephrase.History
