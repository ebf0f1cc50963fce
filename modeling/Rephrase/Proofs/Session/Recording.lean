import Rephrase.Proofs.Disk.Access
import Rephrase.Proofs.Session.Effect

/-! A session whose store cannot be replaced keeps its history all the same: every record is added to
what its path leads to, be this a file of the session or not. -/

namespace Rephrase.Session

open Disk (Location)

/-- A disk where a session can be locked and its history can be added to, but its store cannot be
replaced. -/
structure IsRecording (root session : String) (lock place : Location) (content : ByteArray)
    (disk : Disk) : Prop where
  limit : disk.limit = none
  apart : place ≠ lock
  directory : ∃ location,
    disk.resolve true (Session.directory root) = .ok ⟨location, some .directory⟩
  unlisted : ∃ location, disk.resolve true (Path.join root ".gitignore") = .ok ⟨location, none⟩
  lock : disk.resolve true (inside root ".lock") = .ok ⟨lock, some (.file ByteArray.empty)⟩
  passing : ∃ location,
    disk.resolve true (Store.passing root) = .ok ⟨location, some .directory⟩
  directories : ∃ location, ∀ follow,
    disk.resolve follow (History.directory root) = .ok ⟨location, some .directory⟩
  history : disk.resolve true (History.path root session) = .ok ⟨place, some (.file content)⟩

namespace IsRecording

variable {root session : String} {lock place : Location} {content : ByteArray} {disk : Disk}
  (h : IsRecording root session lock place content disk)
include h

theorem get?_place : disk.get? place = some (.file content) :=
  (Disk.get?_of_resolve h.history).symm

/-- What stands beside files does not change with them. -/
theorem put {target : Location} {old : ByteArray} (hget : disk.get? target = some (.file old))
    (new : ByteArray) (hlock : lock = target → new = ByteArray.empty) :
    IsRecording root session lock place (if place = target then new else content)
      (disk.put target (.file new)) := by
  -- A path leads past the changed file unless it ends there, where its content is the new one.
  have hother : ∀ {follow path location entry},
      disk.resolve follow path = .ok ⟨location, entry⟩ → (∀ found, entry ≠ some (.file found)) →
        (disk.put target (.file new)).resolve follow path = .ok ⟨location, entry⟩ := by
    intro follow path location entry hresolve hentry
    refine Disk.resolve_put_of_ne hget hresolve ?_ new
    rintro rfl
    exact hentry old ((Disk.get?_of_resolve hresolve).trans hget)
  have hfile : ∀ {path location found},
      disk.resolve true path = .ok ⟨location, some (.file found)⟩ →
        (disk.put target (.file new)).resolve true path =
          .ok ⟨location, some (.file (if location = target then new else found))⟩ := by
    intro path location found hresolve
    split
    · rename_i heq
      subst heq
      exact Disk.resolve_put hresolve new
    · rename_i hne
      exact Disk.resolve_put_of_ne hget hresolve hne new
  obtain ⟨directory, hdirectory⟩ := h.directory
  obtain ⟨list, hlist⟩ := h.unlisted
  obtain ⟨passing, hpassing⟩ := h.passing
  obtain ⟨directories, hdirectories⟩ := h.directories
  refine ⟨h.limit, h.apart, ⟨directory, hother hdirectory nofun⟩, ⟨list, hother hlist nofun⟩, ?_,
    ⟨passing, hother hpassing nofun⟩, ⟨directories, fun follow => hother (hdirectories follow) nofun⟩,
    hfile h.history⟩
  have hsame : (if lock = target then new else ByteArray.empty) = ByteArray.empty := by
    split
    · rename_i heq
      exact hlock heq
    · rfl
  have hlocked := hfile h.lock
  rwa [hsame] at hlocked

theorem run_lockToWrite : (lockToWrite root).run.run disk =
    (.ok (), disk.put lock (.file ByteArray.empty)) := by
  have hdirectory : disk.holds (Session.directory root) = true := by
    obtain ⟨location, hresolve⟩ := h.directory
    unfold Disk.holds Disk.find?
    rw [hresolve]
    rfl
  have hlist : disk.holds (Path.join root ".gitignore") = false := by
    obtain ⟨location, hresolve⟩ := h.unlisted
    unfold Disk.holds Disk.find?
    rw [hresolve]
    rfl
  refine Session.run_lockToWrite hdirectory (run_hide_absent hlist) ?_
  unfold Disk.writable
  rw [h.lock]

theorem locked : IsRecording root session lock place content
    (disk.put lock (.file ByteArray.empty)) := by
  have hlocked := h.put (Disk.get?_of_resolve h.lock).symm ByteArray.empty fun _ => rfl
  rwa [if_neg h.apart] at hlocked

/-- The store is refused, when the session is locked. -/
theorem run_set {now expires : Instant} {span : Int} (hexpires : now.after span = .ok expires)
    (key : String) (value : Json) : (Store.set root now key value span).run.run disk =
      (.error (.refused .isDirectory), disk.put lock (.file ByteArray.empty)) := by
  obtain ⟨location, hpassing⟩ := h.locked.passing
  have hwritable : (disk.put lock (.file ByteArray.empty)).writable (Store.passing root) =
      .error .isDirectory := by
    unfold Disk.writable
    rw [hpassing]
  unfold Store.set
  rw [Disk.run_bind_ok h.run_lockToWrite, Disk.run_bind_ok (Disk.run_get _),
    Disk.run_bind_ok (Disk.run_compute hexpires _)]
  unfold Store.save Disk.replaceText Disk.writeText Disk.writeBytes
  exact Disk.run_bind_error (Disk.run_bind_error (Disk.run_look_error hwritable) _) _

/-- A record is added to the history. -/
theorem exists_append (record : History.Record) : ∃ disk',
    (History.append root session record).run.run disk = (.ok (), disk') ∧
      IsRecording root session lock place (content ++ (History.line record).toUTF8) disk' := by
  obtain ⟨location, hdirectories⟩ := h.locked.directories
  have hwritable : (disk.put lock (.file ByteArray.empty)).writable (History.path root session) =
      .ok (place, content) := by
    unfold Disk.writable
    rw [h.locked.history]
  have hadded := h.locked.put h.locked.get?_place (content ++ (History.line record).toUTF8)
    fun heq => absurd heq.symm h.apart
  rw [if_pos rfl] at hadded
  refine ⟨_, ?_, hadded⟩
  unfold History.append
  rw [Disk.run_bind_ok h.run_lockToWrite, Disk.run_bind_ok (Disk.run_makeDirectories hdirectories)]
  exact Disk.run_appendText hwritable h.locked.limit _

end IsRecording

/-! ## Longer histories -/

/-- A history that some records are added to. -/
def extended (content : ByteArray) (records : List History.Record) : ByteArray :=
  records.foldl (fun content record => content ++ (History.line record).toUTF8) content

theorem size_le_extended (content : ByteArray) (records : List History.Record) :
    content.size ≤ (extended content records).size := by
  induction records generalizing content with
  | nil => exact Nat.le_refl _
  | cons record rest ih =>
    refine Nat.le_trans ?_ (ih _)
    rw [ByteArray.size_append]
    exact Nat.le_add_right _ _

/-- No record is lost in a history. -/
theorem size_lt_extended (content : ByteArray) {records : List History.Record} (hne : records ≠ []) :
    content.size < (extended content records).size := by
  obtain ⟨record, rest, rfl⟩ := List.exists_cons_of_ne_nil hne
  have hline : 0 < (History.line record).toUTF8.size := by
    rw [String.toUTF8_eq_toByteArray, String.size_toByteArray, Nat.pos_iff_ne_zero, ne_eq,
      String.utf8ByteSize_eq_zero_iff]
    intro hempty
    have hchars := congrArg String.toList hempty
    unfold History.line at hchars
    simp at hchars
  refine Nat.lt_of_lt_of_le ?_ (size_le_extended _ rest)
  rw [ByteArray.size_append]
  omega

end Rephrase.Session
