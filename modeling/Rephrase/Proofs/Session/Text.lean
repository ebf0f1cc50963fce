import Rephrase.Proofs.Disk.Tree
import Rephrase.Proofs.Session.Effect

/-! The texts that a session keeps. An operation leaves those that it does not write as they were, and
a session that could be locked once can be locked again. -/

namespace Rephrase

open Disk (Action KeepsTo Location)
open Discovery (pathBelow)

namespace Session

/-- The part of a disk at some places below a directory. -/
def At (base : Location) (places : List String → Prop) (location : Location) : Prop :=
  ∃ names, places names ∧ location = base ++ names

/-- A session is ready on a disk that is a tree. -/
structure IsSettled (root session : String) (base : Location) (disk : Disk) : Prop where
  ready : IsReady root session base disk
  tree : disk.IsTree

/-- A disk that differs from another one at some places below a root, as a session makes it. -/
structure Differs (base : Location) (places : List String → Prop) (before disk : Disk) : Prop where
  keeps : KeepsTo (At base places) before disk
  tree : disk.IsTree
  made : ∀ names, disk.get? (base ++ names) = some .directory →
    before.get? (base ++ names) = some .directory ∨ names ∈ directoryPlaces

variable {root session : String} {base : Location} {places : List String → Prop}
  {before disk : Disk}

namespace Differs

theorem refl (h : before.IsTree) : Differs base places before before :=
  ⟨.refl _ _, h, fun _ => .inl⟩

theorem trans {middle : Disk} (h : Differs base places before middle)
    (h' : Differs base places middle disk) : Differs base places before disk where
  keeps := h.keeps.trans h'.keeps
  tree := h'.tree
  made names hnames := (h'.made names hnames).elim (h.made names) .inr

theorem mono {larger : List String → Prop} (h : Differs base places before disk)
    (hlarger : ∀ names, places names → larger names) : Differs base larger before disk :=
  ⟨h.keeps.mono fun _ ⟨names, hplace, heq⟩ => ⟨names, hlarger names hplace, heq⟩, h.tree, h.made⟩

end Differs

theorem IsSettled.of_differs (h : IsSettled root session base before)
    (hdiffers : Differs base places before disk) : IsSettled root session base disk :=
  ⟨h.ready.of_keepsTo hdiffers.keeps, hdiffers.tree⟩

theorem admits_differs (h : IsReady root session base before) (places : List String → Prop) :
    Admits (Differs base places before) root session base places where
  ready := fun hdisk => h.of_keepsTo hdisk.keeps
  put := by
    refine fun {disk names entry} hdisk hused hplace hpasses hfile hentry => hdisk.trans ⟨?_, ?_, ?_⟩
    · exact Disk.keepsTo_put hfile hentry.not_link ⟨_, hplace, rfl⟩
    · exact hdisk.tree.put_below (Disk.get?_of_resolve (h.of_keepsTo hdisk.keeps).leads).symm
        hused.named hpasses hfile
    · intro other hdirectory
      by_cases hsame : base ++ other = base ++ names
      · have hne := Disk.ne_nil_of_isFile hfile
        obtain rfl := List.append_cancel_left hsame
        rw [Disk.get?_put_self disk hne] at hdirectory
        obtain rfl := Option.some.inj hdirectory
        exact .inr (hentry.resolve_left Disk.not_isFile_directory).2
      · rw [Disk.get?_put_of_ne disk hsame] at hdirectory
        exact .inl hdirectory
  -- What is taken away makes no directory.
  erase := by
    refine fun {disk names} hdisk _ hplace hfile => hdisk.trans ⟨?_, hdisk.tree.erase hfile, ?_⟩
    · exact Disk.keepsTo_erase hfile ⟨_, hplace, rfl⟩
    · intro other hdirectory
      by_cases hsame : base ++ other = base ++ names
      · have hne := Disk.ne_nil_of_isFile hfile
        rw [hsame, Disk.get?_erase_self disk hne] at hdirectory
        cases hdirectory
      · rw [Disk.get?_erase_of_ne disk hsame] at hdirectory
        exact .inl hdirectory

/-- What a session does not write reads as before. -/
theorem IsSettled.bytesAt (h : IsSettled root session base before)
    (hdiffers : Differs base places before disk) {names : List String}
    (hused : IsUsed session names) (hplace : ¬places names) :
    (disk.bytesAt (pathBelow root names)).toOption =
      (before.bytesAt (pathBelow root names)).toOption := by
  have hready := h.ready.of_keepsTo hdiffers.keeps
  refine Disk.toOption_bytesAt_congr h.ready.leads hready.leads hused.named hused.ne_nil
    (hdiffers.keeps.outside _ ?_) h.tree hdiffers.tree
    (fun front hne hfront => h.ready.unlinked front (hused.front hne hfront))
    (fun front hne hfront => hready.unlinked front (hused.front hne hfront))
  rintro ⟨other, hother, heq⟩
  exact hplace (List.append_cancel_left heq ▸ hother)

/-! ## Locks -/

/-- A session that can be locked is locked without a change of any other file. -/
theorem IsLockable.exists_run (h : IsLockable root disk) (hsettled : IsSettled root session base disk) :
    ∃ locked, (lockToRead root).run.run disk = (.ok (), locked) ∧
      Differs base (· ∈ lockPlaces) disk locked := by
  have hused : IsUsed session [directoryName, ".lock"] := .inside (by decide)
  obtain ⟨⟨location, content⟩, hwritable⟩ := h.lock
  refine ⟨disk.put location (.file content), ?_, ?_⟩
  · unfold lockToRead
    rw [Disk.run_bind_ok (Disk.run_get disk)]
    dsimp only
    rw [h.directory]
    exact Disk.run_touch hwritable
  · exact (admits_differs hsettled.ready _).written hused (by decide) (.refl hsettled.tree)
      ⟨location, content, content, hwritable, rfl⟩

theorem run_lockToRead_refused (h : ¬IsLockable root disk) :
    ∃ failure, (lockToRead root).run.run disk = (.error failure, disk) := by
  unfold lockToRead
  rw [Disk.run_bind_ok (Disk.run_get disk)]
  dsimp only
  cases hdirectory : disk.holds (Session.directory root) with
  | false => exact ⟨_, rfl⟩
  | true =>
    cases hlock : disk.writable (inside root ".lock") with
    | ok target => exact absurd ⟨hdirectory, target, hlock⟩ h
    | error e =>
      unfold Disk.touch
      exact ⟨_, Disk.run_bind_error (Disk.run_look_error hlock) _⟩

theorem writable_iff {path : String} : (∃ target, disk.writable path = .ok target) ↔
    ∃ place, disk.resolve true path = .ok place ∧ place.entry ≠ some .directory ∧
      ∀ target, place.entry ≠ some (.link target) := by
  unfold Disk.writable
  cases disk.resolve true path with
  | error e => simp
  | ok place =>
    obtain ⟨location, entry⟩ := place
    cases entry with
    | none => simp
    | some entry => cases entry <;> simp

section

variable (h : IsSettled root session base before) (hdiffers : Differs base places before disk)
  (hdirectory : before.get? (base ++ [directoryName]) = some .directory)
include h hdiffers hdirectory

/-- Once there is the directory nothing comes to stand in the way of the lock. -/
theorem isLockable_iff : IsLockable root disk ↔ IsLockable root before := by
  have hready := h.ready.of_keepsTo hdiffers.keeps
  have hentered : IsUsed session [directoryName] := .directory
  have hused : IsUsed session [directoryName, ".lock"] := .inside (by decide)
  have hdirectory' := hdiffers.keeps.stands _ _ hdirectory Disk.not_isFile_directory
  -- Both paths lead to the same places before and after, so only the entries there are compared.
  have hdir := Disk.resolve_below_map h.ready.leads hready.leads hentered.named hentered.ne_nil true
    trivial trivial (h.ready.unlinked _ hentered) (hready.unlinked _ hentered)
  have hlock := Disk.resolve_below_map h.ready.leads hready.leads hused.named hused.ne_nil true
    ⟨hdirectory, trivial⟩ ⟨hdirectory', trivial⟩ (h.ready.unlinked _ hused)
    (hready.unlinked _ hused)
  have hholds : disk.holds (Session.directory root) = before.holds (Session.directory root) := by
    have hpath : Session.directory root = pathBelow root [directoryName] := rfl
    unfold Disk.holds Disk.find?
    rw [hpath, hdir]
    cases hplace : before.resolve true (pathBelow root [directoryName]) with
    | error e => rfl
    | ok place =>
      have hentry := Disk.get?_of_resolve hplace
      rw [(h.ready.of_resolve hentered hplace).1, hdirectory] at hentry
      dsimp only [Except.map]
      rw [hentry, hdirectory']
  have hwritable : (∃ target, disk.writable (inside root ".lock") = .ok target) ↔
      ∃ target, before.writable (inside root ".lock") = .ok target := by
    rw [writable_iff, writable_iff, inside_eq, hlock]
    cases hplace : before.resolve true (pathBelow root [directoryName, ".lock"]) with
    | error e => simp [Except.map]
    | ok place =>
      have hentry := Disk.get?_of_resolve hplace
      rw [(h.ready.of_resolve hused hplace).1] at hentry
      have hsame : disk.get? (base ++ [directoryName, ".lock"]) = some .directory ↔
          before.get? (base ++ [directoryName, ".lock"]) = some .directory :=
        ⟨fun hmade => (hdiffers.made _ hmade).resolve_right (by decide),
          fun hstands => hdiffers.keeps.stands _ _ hstands Disk.not_isFile_directory⟩
      have hlinks := h.ready.unlinked _ hused
      have hlinks' := hready.unlinked _ hused
      simp [Except.map, hentry, hsame, hlinks, hlinks']
  exact ⟨fun hdisk => ⟨hholds ▸ hdisk.directory, hwritable.mp hdisk.lock⟩,
    fun hdisk => ⟨hholds ▸ hdisk.directory, hwritable.mpr hdisk.lock⟩⟩

end

end Session

open Session (Differs IsLockable IsSettled directoryName lockPlaces)

variable {root session : String} {base : Location} {places : List String → Prop}
  {before disk : Disk}

/-! ## The store -/

namespace Store

theorem load_eq (disk : Disk) (root : String) : load disk root =
    (((disk.bytesAt (path root)).toOption.bind String.fromUTF8?).map ofText).getD [] := by
  rw [← Disk.toOption_textAt]
  unfold load
  cases disk.textAt (path root) <;> rfl

/-- Where there is no store there is no value. -/
theorem load_of_absent (h : Session.IsReady root session base disk)
    (habsent : disk.get? (base ++ [directoryName, "store.json"]) = none) : load disk root = [] := by
  rw [load_eq]
  cases hbytes : disk.bytesAt (path root) with
  | error e => rfl
  | ok content =>
    obtain ⟨location, hplace⟩ := Disk.resolve_of_bytesAt hbytes
    have hentry := Disk.get?_of_resolve hplace
    have hused : Session.IsUsed session [directoryName, "store.json"] := .inside (by decide)
    rw [path, Session.inside_eq] at hplace
    rw [(h.of_resolve hused hplace).1] at hentry
    exact nomatch hentry.trans habsent

/-- A store that is not written is loaded as before. -/
theorem load_of_differs (h : IsSettled root session base before)
    (hdiffers : Differs base places before disk)
    (hplace : ¬places [directoryName, "store.json"]) : load disk root = load before root := by
  have hbytes := h.bytesAt hdiffers (.inside (by decide)) hplace
  rw [load_eq, load_eq, path, Session.inside_eq, hbytes]

end Store

end Rephrase
