import Mathlib
import Rephrase.Proofs.Session.Calls

/-! A snapshot holds what files held, and it is loaded again as it was saved, whatever else is put in
the store or added to the history until its time is over. -/

namespace Rephrase

open Disk (Action Location)
open Json (Number)
open Session (Differs IsLockable IsSettled directoryName)

/-! ## What a snapshot holds -/

namespace Snapshot

open Keyed (Ascending)

theorem take_eq (disk : Disk) (root : String) (paths : List String) :
    take disk root paths = Keyed.ofList (paths.filterMap fun path =>
      ((disk.textAt (Path.join root path)).toOption.map fun content =>
        (path, KeptFile.ofContent content))) := by
  unfold take
  rw [Keyed.ofFiles_eq]
  congr 2
  funext path
  cases disk.textAt (Path.join root path) <;> rfl

theorem ascending_take (disk : Disk) (root : String) (paths : List String) :
    Ascending (take disk root paths) := by
  rw [take_eq]
  exact Keyed.ascending_ofList _

/-- Every file that can be read is kept with what it holds. -/
theorem lookup_take {disk : Disk} {root path content : String} {paths : List String}
    (hpath : path ∈ paths) (htext : disk.textAt (Path.join root path) = .ok content) :
    (take disk root paths).lookup path = some (.ofContent content) := by
  have hgiven : (path, KeptFile.ofContent content) ∈ paths.filterMap fun path =>
      ((disk.textAt (Path.join root path)).toOption.map fun content =>
        (path, KeptFile.ofContent content)) :=
    List.mem_filterMap.mpr ⟨path, hpath, by rw [htext]; rfl⟩
  obtain ⟨file, hfile⟩ := Keyed.exists_mem_ofList hgiven
  -- Whatever stands under the path was read there.
  obtain ⟨other, -, hother⟩ := List.mem_filterMap.mp (Keyed.of_mem_ofList hfile)
  obtain ⟨text, hread, heq⟩ := Option.map_eq_some_iff.mp hother
  obtain ⟨rfl, rfl⟩ := Prod.mk.inj heq
  rw [htext] at hread
  obtain rfl := Option.some.inj hread
  refine Keyed.lookup_of_mem (ascending_take disk root paths) ?_
  rwa [take_eq]

/-- A file is told of once it holds another text, unless both texts have the same digest. -/
theorem mem_changed {disk : Disk} {root path content : String} {snapshot : Snapshot}
    (hkept : snapshot.lookup path = some (.ofContent content))
    (hchanged : ∀ text, disk.textAt (Path.join root path) = .ok text →
      Digest.ofText text ≠ Digest.ofText content) : path ∈ changed disk root snapshot := by
  obtain ⟨front, rest, rfl, -⟩ := List.lookup_eq_some_iff.mp hkept
  refine List.mem_filterMap.mpr
    ⟨(path, .ofContent content), List.mem_append_right _ List.mem_cons_self, ?_⟩
  dsimp only
  split
  · rename_i text htext
    exact if_neg (hchanged text htext)
  · rfl

/-! ## Snapshots as values -/

theorem normalize_file (file : KeptFile) : file.toJson.normalize = file.toJson := by
  unfold KeptFile.toJson
  cbv

variable {snapshot : Snapshot}

theorem normalize_toJson (h : Ascending snapshot) : snapshot.toJson.normalize = snapshot.toJson := by
  have hsame : (snapshot.map fun e => (e.1, e.2.toJson)).map (fun m => (m.1, m.2.normalize)) =
      snapshot.map fun e => (e.1, e.2.toJson) := by
    rw [List.map_map]
    exact List.map_congr_left fun e _ => Prod.ext rfl (normalize_file e.2)
  have hkeys : Ascending (snapshot.map fun e => (e.1, e.2.toJson)) :=
    List.pairwise_map.mpr (h.imp id)
  unfold toJson
  rw [Json.normalize_object, hsame, Keyed.ofList_of_ascending hkeys]

theorem allNumbers_toJson (kind : Number → Bool) (snapshot : Snapshot) :
    snapshot.toJson.allNumbers kind = true := by
  unfold toJson
  rw [Json.allNumbers_object_iff]
  exact List.forall_mem_map.mpr fun e _ => rfl

theorem depth_toJson_le (snapshot : Snapshot) : snapshot.toJson.depth ≤ 2 := by
  unfold toJson
  rw [Json.depth_object_le_iff]
  exact List.forall_mem_map.mpr fun e _ => Nat.le_refl 1

/-- A file is made of what it was written as. -/
theorem decode_file (file : KeptFile) (levels : Nat) :
    KeptFile.decode (levels + 1) file.toJson.toDocument = some file := by
  have hrecord := Json.Decode.record_map ["content", "hash"] levels
    (show (["content", "hash"].zip [Json.Document.string (some file.content),
      .string (some file.digest)]).map Prod.fst |>.Nodup by simp)
  have hdocument : file.toJson.toDocument = .object ((["content", "hash"].zip
    [Json.Document.string (some file.content), .string (some file.digest)]).map
      fun m => (some m.1, m.2)) := rfl
  rw [KeptFile.decode, hdocument, hrecord]
  simp [Json.Decode.Slot.required, Json.Decode.string, List.lookup_cons]

/-- A snapshot is made of what it was written as. -/
theorem decode?_toJson (h : Ascending snapshot) :
    Json.decode? decode snapshot.toJson = some snapshot := by
  have hdocument : snapshot.toJson.toDocument =
      .object (snapshot.map fun e => (some e.1, e.2.toJson.toDocument)) := by
    rw [toJson, Json.toDocument, Json.membersToDocuments_eq_map, List.map_map]
    rfl
  -- One level is that of the snapshot, and what is left is enough for its files.
  obtain ⟨levels, hdepth, hlevels⟩ : ∃ levels, snapshot.toJson.toDocument.depth = levels + 1 ∧
      ∀ e ∈ snapshot, 1 ≤ levels := by
    refine ⟨_, rfl, fun e he => ?_⟩
    exact (Json.membersDepth_le_iff.mp (Nat.le_refl _)) (e.1, e.2.toJson) (List.mem_map_of_mem he)
  have hfiles : ∀ e ∈ snapshot, KeptFile.decode levels e.2.toJson.toDocument = some (id e.2) := by
    intro e he
    obtain ⟨inner, rfl⟩ := Nat.exists_eq_add_of_le' (hlevels e he)
    exact decode_file e.2 inner
  have hmembers := Json.Decode.members_map (fun file : KeptFile => file.toJson.toDocument) id
    hfiles
  unfold Json.decode?
  rw [hdepth, hdocument, decode, hmembers]
  exact congrArg some ((Keyed.ofFiles_eq _).trans
    ((congrArg _ (List.map_id snapshot)).trans (Keyed.ofList_of_ascending h)))

end Snapshot

/-! ## What the store keeps -/

namespace Store

variable {root session : String} {base : Location} {places : List String → Prop}
  {before disk : Disk} {key : String} {entry : Entry}

/-- A disk whose store can be looked into and holds an entry. -/
structure Keeps (root session : String) (base : Location) (key : String) (entry : Entry)
    (disk : Disk) : Prop where
  settled : IsSettled root session base disk
  directory : disk.get? (base ++ [directoryName]) = some .directory
  lockable : IsLockable root disk
  found : (load disk root).find? key = some entry

/-- An entry is kept that was written, if it is as it will be read. -/
theorem Keeps.of_wrote {store : Store} (hbefore : IsSettled root session base before)
    (hwrote : Wrote root base before store disk) (hsound : store.IsSound)
    (hfind : store.find? key = some entry) (hword : entry.value.allNumbers Number.isWord = true)
    (hnormal : entry.value.normalize = entry.value) : Keeps root session base key entry disk where
  settled := hbefore.of_differs hwrote.differs
  directory := hwrote.directory
  lockable := hwrote.lockable
  found := by rw [hwrote.loaded, find?_ofText_toText hsound hfind hword, hnormal]

/-- What the store does not hold is not found in it. -/
theorem exists_get_none {α : Type} (h : IsSettled root session base before)
    (hnone : (load before root).find? key = none) (now : Instant) (decode : Json.Decoder α) :
    ∃ locked, (get root now key decode).run.run before = (.ok none, locked) := by
  obtain ⟨found, locked, hrun, ⟨-, rfl⟩ | rfl⟩ := exists_run_get h now key decode
  · exact ⟨locked, hrun⟩
  · rw [hnone] at hrun
    exact ⟨locked, hrun⟩

section

variable (h : Keeps root session base key entry before)
include h

/-- It is kept as long as the store is not written. -/
theorem Keeps.of_differs (hdiffers : Differs base places before disk)
    (hplace : ¬places [directoryName, "store.json"]) : Keeps root session base key entry disk where
  settled := h.settled.of_differs hdiffers
  directory := hdiffers.keeps.stands _ _ h.directory Disk.not_isFile_directory
  lockable := (Session.isLockable_iff h.settled hdiffers h.directory).mpr h.lockable
  found := (congrArg (·.find? key) (load_of_differs h.settled hdiffers hplace)).trans h.found

/-- It can be looked up as long as its time is not over. -/
theorem Keeps.exists_get {α : Type} {now : Instant} (hlive : entry.isLive now = true)
    (decode : Json.Decoder α) : ∃ locked, (get root now key decode).run.run before =
      (.ok (Json.decode? decode entry.value), locked) := by
  obtain ⟨found, locked, hrun, ⟨hlock, -⟩ | rfl⟩ := exists_run_get h.settled now key decode
  · exact absurd h.lockable hlock
  · rw [h.found, Option.filter_some, if_pos hlive] at hrun
    exact ⟨locked, hrun⟩

end

variable (hword : entry.value.allNumbers Number.isWord = true)
  (hnormal : entry.value.normalize = entry.value)
include hword hnormal

/-- It is kept when something else is set in time. -/
theorem Keeps.holds_set {now : Instant} {other : String} {value : Json} (hother : key ≠ other)
    (hlive : entry.isLive now = true) (hnanos : now.nanos < 1000000000)
    (hnumbers : value.allNumbers Number.isWord = true) (hdepth : value.depth ≤ valueLevels)
    (span : Int) :
    Action.Holds (Keeps root session base key entry) (set root now other value span) := by
  refine .of_forall fun disk h => ?_
  rw [set_eq_put]
  refine (leads_put h.settled true now other value span).mono (fun _ => id)
    (fun _ disk' ⟨expires, hexpires, hwrote⟩ => ?_)
    (fun _ disk' hdiffers => h.of_differs hdiffers (by decide))
  have hsound := isSound_load disk root
  refine .of_wrote h.settled hwrote ((isSound_purgeIf hsound true now).insert
    (Entry.isSound_of_after hnumbers hdepth hnanos hexpires) other) ?_ hword hnormal
  rw [find?_insert, if_neg hother, purgeIf, if_pos rfl, find?_purge hsound.isMap, h.found,
    Option.filter_some, if_pos hlive]

end Store

/-- It is kept when something is added to a history. -/
theorem History.holds_append_kept {root session : String} {base : Location} {key : String}
    {entry : Store.Entry} (record : History.Record) :
    Action.Holds (Store.Keeps root session base key entry) (append root session record) := by
  refine .of_forall fun disk h => ?_
  have hkept : ∀ disk', Differs base (· ∈ places session) disk disk' →
      Store.Keeps root session base key entry disk' := fun disk' hdiffers =>
    h.of_differs hdiffers (by simp [places, Session.lockPlaces])
  exact (holds_append (Session.admits_differs h.settled.ready _) (fun _ => id) record).mono
    (fun _ hsame => hsame.symm ▸ .refl h.settled.tree) (fun _ => hkept) (fun _ => hkept)

namespace Snapshot

variable {root session : String} {base : Location} {before : Disk} {snapshot : Snapshot}

/-- A snapshot that was saved is kept until its time is over. -/
theorem leads_save (h : IsSettled root session base before) (hkeys : Keyed.Ascending snapshot)
    {now : Instant} (hnanos : now.nanos < 1000000000) (name : String) (span : Int) :
    Action.Leads (· = before) (save root now name snapshot span)
      (fun _ disk => ∃ expires, now.after span = .ok expires ∧
        Differs base (· ∈ Store.writtenPlaces) before disk ∧
        Store.Keeps root session base (key name) ⟨snapshot.toJson, expires⟩ disk)
      (fun _ _ => True) := by
  unfold save
  rw [Store.set_eq_put]
  refine (Store.leads_put h true now (key name) snapshot.toJson span).mono (fun _ => id)
    (fun _ disk ⟨expires, hexpires, hwrote⟩ => ⟨expires, hexpires, hwrote.differs, ?_⟩)
    (fun _ _ _ => trivial)
  have hsound := Store.isSound_load before root
  have hnormal := normalize_toJson hkeys
  have hword := allNumbers_toJson Number.isWord snapshot
  have hentry := Store.Entry.isSound_of_after hword
    (Nat.le_trans (depth_toJson_le snapshot) (by decide)) hnanos hexpires
  refine .of_wrote h hwrote ((Store.isSound_purgeIf hsound true now).insert hentry _) ?_ hword hnormal
  rw [Store.find?_insert, if_pos rfl, hnormal]

/-- It is loaded then as it was saved. -/
theorem exists_load {name : String} {now expires : Instant} (hkeys : Keyed.Ascending snapshot)
    (h : Store.Keeps root session base (key name) ⟨snapshot.toJson, expires⟩ before)
    (hlive : now.before expires = true) :
    ∃ locked, (load root now name).run.run before = (.ok (some snapshot), locked) := by
  have hget := h.exists_get hlive decode
  rwa [decode?_toJson hkeys] at hget

end Snapshot

end Rephrase
