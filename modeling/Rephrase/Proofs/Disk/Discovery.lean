import Mathlib.Data.List.Induction
import Mathlib.Data.List.Nodup
import Rephrase.Proofs.Disk.Below

/-! The files that are found below a root are files on the disk, and their paths lead to them by way
of directories that are looked into. -/

namespace Rephrase

open Disk (Location)
open Rephrase.Path (IsName)

namespace Disk

/-- A disk whose entries stand in directories, each in a place of its own. -/
structure IsTree (disk : Disk) : Prop where
  once : (disk.entries.map Prod.fst).Nodup
  named : ∀ e ∈ disk.entries, ∀ n ∈ e.1, IsName n
  above : ∀ e ∈ disk.entries, disk.get? e.1.dropLast = some .directory

theorem isTree_iff {disk : Disk} : disk.IsTree ↔ (disk.entries.map Prod.fst).Nodup ∧
    (∀ e ∈ disk.entries, ∀ n ∈ e.1, IsName n) ∧
      ∀ e ∈ disk.entries, disk.get? e.1.dropLast = some .directory :=
  ⟨fun h => ⟨h.once, h.named, h.above⟩, fun ⟨honce, hnamed, habove⟩ => ⟨honce, hnamed, habove⟩⟩

instance (disk : Disk) : Decidable disk.IsTree := decidable_of_iff' _ isTree_iff

theorem mem_entries_of_get? {disk : Disk} {location : Location} {entry : Entry}
    (h : disk.get? location = some entry) (hne : location ≠ []) :
    (location, entry) ∈ disk.entries := by
  rw [get?, if_neg hne, List.lookup_eq_some_iff] at h
  obtain ⟨front, back, hsplit, -⟩ := h
  rw [hsplit]
  exact List.mem_append_right _ List.mem_cons_self

namespace IsTree

variable {disk : Disk} (h : disk.IsTree)
include h

theorem get?_of_mem {location : Location} {entry : Entry}
    (hmem : (location, entry) ∈ disk.entries) (hne : location ≠ []) :
    disk.get? location = some entry := by
  obtain ⟨front, back, hsplit⟩ := List.append_of_mem hmem
  have honce := h.once
  rw [hsplit, List.map_append, List.map_cons, List.nodup_middle, List.nodup_cons] at honce
  rw [get?, if_neg hne, List.lookup_eq_some_iff]
  refine ⟨front, back, hsplit, fun e he => ?_⟩
  have hother : location ≠ e.1 := by
    intro heq
    refine honce.1 (List.mem_append_left _ ?_)
    show location ∈ front.map Prod.fst
    rw [heq]
    exact List.mem_map_of_mem he
  simpa using hother

/-- What something stands below is a directory. -/
theorem directory_of_prefix {location front : Location} {entry : Entry}
    (hentry : disk.get? location = some entry) (hfront : front <+: location)
    (hproper : front ≠ location) : disk.get? front = some .directory := by
  induction location using List.reverseRecOn generalizing entry with
  | nil => exact absurd (List.prefix_nil.mp hfront) hproper
  | append_singleton above name ih =>
    have hne : above ++ [name] ≠ [] := by simp
    have habove := h.above _ (mem_entries_of_get? hentry hne)
    rw [List.dropLast_concat] at habove
    obtain heq | hunder := List.prefix_concat_iff.mp hfront
    · exact absurd heq hproper
    by_cases hsame : front = above
    · rwa [hsame]
    · exact ih habove hunder hsame

end IsTree

end Disk

namespace Discovery

/-- A file that is found under some names below a root's place. -/
structure IsFound (disk : Disk) (config : Config) (base : Location) (names : List String) :
    Prop where
  ne_nil : names ≠ []
  named : ∀ n ∈ names, IsName n
  file : ∃ content, disk.get? (base ++ names) = some (.file content) ∧
    takes config names content = true
  passed : ∀ front, front <+: names → front ≠ names →
    disk.get? (base ++ front) = some .directory

theorem IsFound.entered {disk : Disk} {config : Config} {base : Location} {names : List String}
    (h : IsFound disk config base names) :
    ∀ n ∈ names.dropLast, entersDirectory config n = true := by
  obtain ⟨content, -, htakes⟩ := h.file
  unfold takes at htakes
  split at htakes
  · exact List.all_eq_true.mp (Bool.and_eq_true_iff.mp htakes).1
  · cases htakes

theorem exists_leadsTo_of_files {disk : Disk} {config : Config} {root : String}
    {paths : List String} (h : files disk config root = .ok paths) :
    ∃ base, disk.LeadsTo root base := by
  unfold files at h
  split at h
  · rename_i base hroot
    exact ⟨base, hroot⟩
  · cases h

theorem isFound_of_mem_files {disk : Disk} {config : Config} {root path : String}
    {paths : List String} (htree : disk.IsTree) (hfiles : files disk config root = .ok paths)
    (hpath : path ∈ paths) :
    ∃ base names, disk.LeadsTo root base ∧ path = pathBelow root names ∧
      IsFound disk config base names := by
  unfold files at hfiles
  split at hfiles
  · rename_i base hroot
    cases hfiles
    obtain ⟨⟨location, entry⟩, hmem, hfile⟩ := List.mem_filterMap.mp hpath
    unfold fileOf? at hfile
    split at hfile
    · rename_i location content hentry
      obtain ⟨rfl, rfl⟩ := Prod.mk.inj hentry
      dsimp only at hfile
      split at hfile
      · rename_i htaken
        obtain ⟨hunder, htakes⟩ := Bool.and_eq_true_iff.mp htaken
        obtain ⟨names, rfl⟩ := List.isPrefixOf_iff_prefix.mp hunder
        rw [List.drop_left] at htakes hfile
        -- The root itself is no file that is taken.
        have hne : names ≠ [] := by
          rintro rfl
          cases htakes
        have hget := htree.get?_of_mem hmem (by simp [hne])
        refine ⟨base, names, hroot, (Option.some.inj hfile).symm, hne, fun n hn => ?_,
          ⟨content, hget, htakes⟩, fun front hfront hproper => ?_⟩
        · exact htree.named _ hmem n (List.mem_append_right _ hn)
        · refine htree.directory_of_prefix hget ((List.prefix_append_right_inj _).mpr hfront) ?_
          simpa using hproper
      · cases hfile
    · cases hfile
  · cases hfiles

end Discovery

end Rephrase
