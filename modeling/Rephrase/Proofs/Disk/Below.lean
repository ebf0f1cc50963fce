import Rephrase.Proofs.Disk.Walk

/-! A path of names below a directory leads to these names below the directory's location, unless a
link stands on the way. -/

namespace Rephrase.Disk

open Rephrase.Path (IsName)
open Discovery (pathBelow)

section

variable (disk : Disk) (follow : Bool) (links : Nat) (location : Location) {directory : String}

theorem walk_join {name : String} (hdirectory : directory ≠ "") (hname : IsName name)
    (more : List String) :
    disk.walk follow links location (steps (Path.join directory name) ++ more) =
      disk.walk follow links location (steps directory ++ name :: more) := by
  obtain ⟨parts, -, hjoin, hparts⟩ := Path.segments_join hdirectory hname
  have hsteps : steps (Path.join directory name) = parts.map String.ofList ++ [name] := by
    rw [steps, hjoin, List.map_append, List.map_singleton, String.ofList_toList]
  rw [hsteps, List.append_assoc, List.singleton_append]
  obtain hparts | ⟨hparts, -⟩ := hparts
  -- Behind a slash at the end there is an empty step.
  · rw [steps, hparts, List.map_append, List.append_assoc]
    have hskip : ∀ links location, disk.walk follow links location (name :: more) =
        disk.walk follow links location ("" :: name :: more) :=
      fun links location => (walk_empty_cons disk follow links location _).symm
    have hempty : (name :: more).isEmpty = ("" :: name :: more).isEmpty := rfl
    exact walk_congr hempty hskip links location _
  · rw [steps, hparts]

theorem walk_pathBelow {names : List String} (hdirectory : directory ≠ "")
    (hnames : ∀ n ∈ names, IsName n) :
    disk.walk follow links location (steps (pathBelow directory names)) =
      disk.walk follow links location (steps directory ++ names) := by
  suffices ∀ more, disk.walk follow links location (steps (pathBelow directory names) ++ more) =
      disk.walk follow links location (steps directory ++ (names ++ more)) by
    simpa using this []
  intro more
  induction names generalizing directory with
  | nil => rfl
  | cons n rest ih =>
    obtain ⟨hn, hrest⟩ := List.forall_mem_cons.mp hnames
    change disk.walk follow links location
      (steps (pathBelow (Path.join directory n) rest) ++ more) = _
    rw [ih (Path.join_ne_empty hdirectory hn) hrest,
      walk_join disk follow links location hdirectory hn]
    rfl

end

theorem startOf_pathBelow (base : Location) {directory : String} {names : List String}
    (hdirectory : directory ≠ "") (hnames : ∀ n ∈ names, IsName n) :
    startOf base (pathBelow directory names) = startOf base directory := by
  induction names generalizing directory with
  | nil => rfl
  | cons n rest ih =>
    obtain ⟨hn, hrest⟩ := List.forall_mem_cons.mp hnames
    show startOf base (pathBelow (Path.join directory n) rest) = _
    rw [ih (Path.join_ne_empty hdirectory hn) hrest, startOf, startOf,
      Path.isAbsolute_join hdirectory hn]

/-- What a path leads to is what a walk comes to, if the path is one at all. -/
theorem resolve_eq (disk : Disk) (follow : Bool) (path : String) :
    disk.resolve follow path = disk.walk follow maxLinks (startOf disk.working path) (steps path) ∨
      disk.resolve follow path = .error .nulInPath ∨ path = "" ∨
        disk.resolve follow path = .error .nameTooLong := by
  unfold resolve
  split
  · exact .inr (.inl rfl)
  split
  · rename_i hempty
    exact .inr (.inr (.inl hempty))
  split
  · exact .inr (.inr (.inr rfl))
  · exact .inl rfl

theorem walk_of_resolve {disk : Disk} {follow : Bool} {path : String} {place : Place}
    (h : disk.resolve follow path = .ok place) : path ≠ "" ∧
      disk.walk follow maxLinks (startOf disk.working path) (steps path) = .ok place := by
  unfold resolve at h
  split at h
  · cases h
  split at h
  · cases h
  split at h
  · cases h
  · rename_i hempty hlong
    exact ⟨hempty, h⟩

theorem get?_of_resolve {disk : Disk} {follow : Bool} {path : String} {place : Place}
    (h : disk.resolve follow path = .ok place) : place.entry = disk.get? place.location :=
  get?_of_walk (walk_of_resolve h).2

/-- Unless a link stands at its end, a path leads to the same place if that link were followed. -/
theorem resolve_follow {disk : Disk} {follow : Bool} {path : String} {place : Place}
    (h : disk.resolve follow path = .ok place) (hlink : ∀ target, place.entry ≠ some (.link target)) :
    disk.resolve true path = .ok place := by
  unfold resolve at h ⊢
  split at h
  · cases h
  split at h
  · cases h
  split at h
  · cases h
  rename_i hnul hempty hlong
  rw [if_neg hnul, if_neg hempty, if_neg hlong]
  exact walk_follow h hlink

/-- A path leads to the same place where the directories and links still stand, unless one of them
has come to stand in that place. -/
theorem resolve_of_stands {disk disk' : Disk} (hstands : Stands disk disk')
    (hworking : disk'.working = disk.working) {follow : Bool} {path : String} {place : Place}
    (h : disk.resolve follow path = .ok place)
    (hend : ∀ entry, disk'.get? place.location = some entry → ¬entry.IsFile →
      place.entry = some entry) :
    disk'.resolve follow path = .ok ⟨place.location, disk'.get? place.location⟩ := by
  unfold resolve at h ⊢
  split at h
  · cases h
  split at h
  · cases h
  split at h
  · cases h
  rename_i hnul hempty hlong
  rw [if_neg hnul, if_neg hempty, if_neg hlong, hworking]
  exact walk_of_stands hstands h hend

theorem resolve_put_file {disk : Disk} {target : Location} {content : ByteArray}
    (h : disk.get? target = some (.file content)) (content' : ByteArray) (follow : Bool)
    (path : String) : (disk.put target (.file content')).resolve follow path =
      (disk.resolve follow path).map fun place =>
        ⟨place.location, (disk.put target (.file content')).get? place.location⟩ := by
  unfold resolve
  split
  · rfl
  split
  · rfl
  split
  · rfl
  · exact walk_put_file h content' follow _ _ _

/-- An absolute path leads along its names. -/
theorem resolve_absolute {disk : Disk} (follow : Bool) {path : String} {names : List String}
    (hpath : path.toList.elem '\x00' = false ∧ path ≠ "" ∧ path.utf8ByteSize ≤ maxPath ∧
      Path.isAbsolute path = true ∧ steps path = "" :: names) :
    disk.resolve follow path = disk.walk follow maxLinks [] names := by
  obtain ⟨hnul, hempty, hlong, habsolute, hsteps⟩ := hpath
  have hstart : startOf disk.working path = [] := by
    unfold startOf
    rw [if_pos habsolute]
  unfold resolve
  rw [if_neg (Bool.eq_false_iff.mp hnul), if_neg hempty, if_neg (Nat.not_lt.mpr hlong), hstart,
    hsteps, walk_empty_cons]

/-- Where no link is on the way, the names say where it ends. -/
theorem resolve_names {disk : Disk} {follow : Bool} {path : String} {names : Location}
    {entry : Option Entry}
    (hpath : path.toList.elem '\x00' = false ∧ path ≠ "" ∧ path.utf8ByteSize ≤ maxPath ∧
      Path.isAbsolute path = true ∧ steps path = "" :: names)
    (hnames : ∀ n ∈ names, IsName n ∧ n.utf8ByteSize ≤ maxName) (hpasses : disk.Passes [] names)
    (hentry : disk.get? names = entry) (hlink : ∀ target, entry ≠ some (.link target)) :
    disk.resolve follow path = .ok ⟨names, entry⟩ := by
  subst hentry
  rw [resolve_absolute follow hpath, walk_names follow maxLinks hnames hpasses hlink]
  rfl

/-- A directory at the end of a path. -/
def LeadsTo (disk : Disk) (path : String) (base : Location) : Prop :=
  disk.resolve true path = .ok ⟨base, some .directory⟩

theorem leadsTo_top (disk : Disk) : disk.LeadsTo "/" [] := by
  unfold LeadsTo
  rw [resolve_absolute true (by decide : _ ∧ _ ∧ _ ∧ _ ∧ steps "/" = "" :: [""]), walk_empty_cons,
    walk]
  rfl

theorem LeadsTo.of_stands {disk disk' : Disk} {path : String} {base : Location}
    (h : disk.LeadsTo path base) (hstands : Stands disk disk')
    (hworking : disk'.working = disk.working) : disk'.LeadsTo path base := by
  have hget := (get?_of_resolve h).symm
  have hget' := hstands base .directory hget not_isFile_directory
  unfold LeadsTo
  rw [resolve_of_stands hstands hworking h fun entry hentry _ => ?_]
  · show Except.ok (Place.mk base (disk'.get? base)) = _
    rw [hget']
  · rw [← hentry, hget']

section

variable {disk : Disk} {root : String} {base : Location} {names : List String}
  (hroot : disk.LeadsTo root base) (hnames : ∀ n ∈ names, IsName n) (hne : names ≠ [])
include hroot hnames hne

theorem walk_below : ∃ left, ∀ follow : Bool, disk.walk follow maxLinks
    (startOf disk.working (pathBelow root names)) (steps (pathBelow root names)) =
      disk.walk follow left base names := by
  obtain ⟨hempty, hwalk⟩ := walk_of_resolve hroot
  obtain ⟨left, hleft⟩ := walk_append hwalk
  refine ⟨left, fun follow => ?_⟩
  rw [walk_pathBelow disk follow _ _ hempty hnames, startOf_pathBelow _ hempty hnames]
  exact hleft follow hne

/-- Where no link is on the way, names below a directory lead to the same names below its location,
and what is passed are directories. -/
theorem of_resolve_below {follow : Bool} {place : Place}
    (hlinks : ∀ front, front ≠ [] → front <+: names → ∀ target,
      disk.get? (base ++ front) ≠ some (.link target))
    (h : disk.resolve follow (pathBelow root names) = .ok place) :
    place.location = base ++ names ∧ disk.Passes base names := by
  obtain ⟨left, hleft⟩ := walk_below hroot hnames hne
  exact of_walk_names hnames hlinks ((hleft follow).symm.trans (walk_of_resolve h).2)

theorem resolve_below_ne_notFound (hpasses : disk.Passes base names) :
    disk.resolve false (pathBelow root names) ≠ .error .notFound := by
  obtain ⟨hempty, -⟩ := walk_of_resolve hroot
  obtain ⟨left, hleft⟩ := walk_below hroot hnames hne
  obtain h | h | h | h := resolve_eq disk false (pathBelow root names)
  · rw [h, hleft]
    exact walk_names_ne_notFound left hnames hpasses
  · rw [h]
    nofun
  · exact absurd h (Path.pathBelow_ne_empty hempty hnames)
  · rw [h]
    nofun

end

end Rephrase.Disk
