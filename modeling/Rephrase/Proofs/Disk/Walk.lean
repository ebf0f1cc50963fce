import Rephrase.Disk.Resolve
import Rephrase.Proofs.Path

/-! What a path leads to depends only on the directories and links that it passes and on what stands
at its end. -/

namespace Rephrase.Disk

open Rephrase.Path (IsName)

/-! ## What stands where -/

theorem get?_put_self (disk : Disk) {location : Location} (h : location ≠ []) (entry : Entry) :
    (disk.put location entry).get? location = some entry := by
  rw [get?, if_neg h, put, List.lookup_cons_self]

theorem lookup_filter_ne {κ α : Type} [BEq κ] [LawfulBEq κ] [DecidableEq κ] {key other : κ}
    (h : other ≠ key) (entries : List (κ × α)) :
    (entries.filter fun e => e.1 ≠ key).lookup other = entries.lookup other := by
  induction entries with
  | nil => rfl
  | cons e rest ih =>
    obtain ⟨here, entry⟩ := e
    by_cases hhere : here = key
    · have hother : (other == here) = false := by
        rw [hhere]
        exact beq_eq_false_iff_ne.mpr h
      rw [List.filter_cons_of_neg (by simpa using hhere), ih, List.lookup_cons, hother]
    · rw [List.filter_cons_of_pos (by simpa using hhere), List.lookup_cons, List.lookup_cons, ih]

theorem get?_put_of_ne (disk : Disk) {location other : Location} (h : other ≠ location)
    (entry : Entry) : (disk.put location entry).get? other = disk.get? other := by
  have hother : (other == location) = false := by simpa using h
  unfold get? put
  split
  · rfl
  · rw [List.lookup_cons, hother]
    exact lookup_filter_ne h disk.entries

theorem ne_nil_of_get? {disk : Disk} {location : Location} {content : ByteArray}
    (h : disk.get? location = some (.file content)) : location ≠ [] := by
  rintro rfl
  rw [get?, if_pos rfl] at h
  cases h

theorem put_put (disk : Disk) (location : Location) (entry entry' : Entry) :
    (disk.put location entry).put location entry' = disk.put location entry' := by
  unfold put
  dsimp only
  rw [List.filter_cons_of_neg (by simp), List.filter_filter]
  simp

/-! ## Walks -/

/-- Whether an entry is passed on a walk, or is where one ends. -/
def Entry.IsFile (entry : Entry) : Prop := ∃ content, entry = .file content

/-- The directories and links of a disk stand in another one too. -/
def Stands (disk disk' : Disk) : Prop :=
  ∀ location entry, disk.get? location = some entry → ¬entry.IsFile →
    disk'.get? location = some entry

theorem not_isFile_directory : ¬Entry.directory.IsFile := nofun

theorem ne_nil_of_isFile {disk : Disk} {location : Location}
    (h : ∀ entry, disk.get? location = some entry → entry.IsFile) : location ≠ [] := by
  rintro rfl
  exact not_isFile_directory (h .directory rfl)

theorem not_isFile_link (target : String) : ¬(Entry.link target).IsFile := nofun

theorem Stands.trans {disk disk' disk'' : Disk} (h : Stands disk disk')
    (h' : Stands disk' disk'') : Stands disk disk'' :=
  fun location entry hentry hfile => h' location entry (h location entry hentry hfile) hfile

/-- Only a file gives way to another entry. -/
theorem stands_put {disk : Disk} {target : Location} (entry' : Entry)
    (htarget : ∀ entry, disk.get? target = some entry → entry.IsFile) :
    Stands disk (disk.put target entry') := by
  intro location entry hentry hfile
  have hne : location ≠ target := by
    rintro rfl
    exact hfile (htarget entry hentry)
  rw [get?_put_of_ne disk hne, hentry]

section

variable {disk : Disk} {follow : Bool} {links : Nat} {location : Location} {step : String}
  {rest : List String}

theorem walk_here (hstep : (step = "" || step = ".") = true) :
    disk.walk follow links location (step :: rest) = disk.walk follow links location rest := by
  rw [walk, if_pos hstep]

theorem walk_parent : disk.walk follow links location (".." :: rest) =
    disk.walk follow links location.dropLast rest := by
  rw [walk, if_neg (by decide), if_pos rfl]

variable (hstep : ¬(step = "" || step = ".") = true) (hparent : step ≠ "..")
  (hname : ¬maxName < step.utf8ByteSize)
include hstep hparent hname

theorem walk_down (h : disk.get? (location ++ [step]) = some .directory) :
    disk.walk follow links location (step :: rest) =
      disk.walk follow links (location ++ [step]) rest := by
  rw [walk, if_neg hstep, if_neg hparent, if_neg hname]
  dsimp only
  rw [h]

/-- A link is followed from its own directory. -/
theorem walk_on {target : String} (h : disk.get? (location ++ [step]) = some (.link target))
    (hrest : ¬(rest.isEmpty && !follow) = true) (htarget : target ≠ "") :
    disk.walk follow (links + 1) location (step :: rest) =
      disk.walk follow links (startOf location target) (steps target ++ rest) := by
  rw [walk, if_neg hstep, if_neg hparent, if_neg hname]
  dsimp only
  rw [h]
  dsimp only
  rw [if_neg hrest, if_neg htarget]

/-- There is an end to following links. -/
theorem walk_spent {target : String} (h : disk.get? (location ++ [step]) = some (.link target))
    (hrest : ¬(rest.isEmpty && !follow) = true) :
    disk.walk follow 0 location (step :: rest) = .error .tooManyLinks := by
  rw [walk, if_neg hstep, if_neg hparent, if_neg hname]
  dsimp only
  rw [h]
  exact if_neg hrest

/-- At the end of a path it need not be followed. -/
theorem walk_end_link {target : String} (h : disk.get? (location ++ [step]) = some (.link target))
    (hrest : (rest.isEmpty && !follow) = true) :
    disk.walk follow links location (step :: rest) =
      .ok ⟨location ++ [step], some (.link target)⟩ := by
  rw [walk, if_neg hstep, if_neg hparent, if_neg hname]
  dsimp only
  rw [h]
  exact if_pos hrest

/-- A name at the end of a path may be missing or that of a file. -/
theorem walk_end (hrest : rest.isEmpty = true)
    (hfile : ∀ entry, disk.get? (location ++ [step]) = some entry → entry.IsFile) :
    disk.walk follow links location (step :: rest) =
      .ok ⟨location ++ [step], disk.get? (location ++ [step])⟩ := by
  rw [walk, if_neg hstep, if_neg hparent, if_neg hname]
  dsimp only
  cases hget : disk.get? (location ++ [step]) with
  | none => exact if_pos hrest
  | some entry =>
    obtain ⟨content, rfl⟩ := hfile entry hget
    exact if_pos hrest

/-- A file has nothing below it. -/
theorem walk_below_file {content : ByteArray}
    (h : disk.get? (location ++ [step]) = some (.file content)) (hrest : ¬rest.isEmpty = true) :
    disk.walk follow links location (step :: rest) = .error .notDirectory := by
  rw [walk, if_neg hstep, if_neg hparent, if_neg hname]
  dsimp only
  rw [h]
  exact if_neg hrest

/-- Nor has what is missing. -/
theorem walk_below_missing (h : disk.get? (location ++ [step]) = none)
    (hrest : ¬rest.isEmpty = true) :
    disk.walk follow links location (step :: rest) = .error .notFound := by
  rw [walk, if_neg hstep, if_neg hparent, if_neg hname]
  dsimp only
  rw [h]
  exact if_neg hrest

/-- A link without a target leads nowhere. -/
theorem walk_nowhere (h : disk.get? (location ++ [step]) = some (.link ""))
    (hrest : ¬(rest.isEmpty && !follow) = true) :
    disk.walk follow (links + 1) location (step :: rest) = .error .notFound := by
  rw [walk, if_neg hstep, if_neg hparent, if_neg hname]
  dsimp only
  rw [h]
  dsimp only
  rw [if_neg hrest, if_pos rfl]

end

/-- How a walk that comes to a place gets there. -/
inductive Arrives (disk : Disk) (follow : Bool) :
    Nat → Location → List String → Place → Prop
  | done (links : Nat) (location : Location) :
      Arrives disk follow links location [] ⟨location, disk.get? location⟩
  | here {links : Nat} {location : Location} {step : String} {rest : List String} {place : Place}
      (hstep : (step = "" || step = ".") = true) (h : Arrives disk follow links location rest place) :
      Arrives disk follow links location (step :: rest) place
  | parent {links : Nat} {location : Location} {rest : List String} {place : Place}
      (h : Arrives disk follow links location.dropLast rest place) :
      Arrives disk follow links location (".." :: rest) place
  | down {links : Nat} {location : Location} {step : String} {rest : List String} {place : Place}
      (hstep : ¬(step = "" || step = ".") = true) (hparent : step ≠ "..")
      (hname : ¬maxName < step.utf8ByteSize)
      (hnext : disk.get? (location ++ [step]) = some .directory)
      (h : Arrives disk follow links (location ++ [step]) rest place) :
      Arrives disk follow links location (step :: rest) place
  /-- The last name is missing or that of a file. -/
  | last (links : Nat) {location : Location} {step : String}
      (hstep : ¬(step = "" || step = ".") = true) (hparent : step ≠ "..")
      (hname : ¬maxName < step.utf8ByteSize)
      (hfile : ∀ entry, disk.get? (location ++ [step]) = some entry → entry.IsFile) :
      Arrives disk follow links location [step]
        ⟨location ++ [step], disk.get? (location ++ [step])⟩
  | link (links : Nat) {location : Location} {step target : String} (hfollow : follow = false)
      (hstep : ¬(step = "" || step = ".") = true) (hparent : step ≠ "..")
      (hname : ¬maxName < step.utf8ByteSize)
      (hnext : disk.get? (location ++ [step]) = some (.link target)) :
      Arrives disk follow links location [step] ⟨location ++ [step], some (.link target)⟩
  | on {links : Nat} {location : Location} {step target : String} {rest : List String}
      {place : Place} (hstep : ¬(step = "" || step = ".") = true) (hparent : step ≠ "..")
      (hname : ¬maxName < step.utf8ByteSize)
      (hnext : disk.get? (location ++ [step]) = some (.link target))
      (hrest : ¬(rest.isEmpty && !follow) = true) (htarget : target ≠ "")
      (h : Arrives disk follow links (startOf location target) (steps target ++ rest) place) :
      Arrives disk follow (links + 1) location (step :: rest) place

theorem arrives_of_walk {disk : Disk} {follow : Bool} {links : Nat} {location : Location}
    {path : List String} {place : Place}
    (h : disk.walk follow links location path = .ok place) :
    disk.Arrives follow links location path place := by
  fun_induction disk.walk follow links location path with
  | case1 links location =>
    cases h
    exact .done links location
  | case2 _ _ _ _ hstep ih => exact .here hstep (ih h)
  | case3 _ _ _ _ ih => exact .parent (ih h)
  | case4 => cases h
  | case5 _ _ _ _ hstep hparent hname next hnext ih => exact .down hstep hparent hname hnext (ih h)
  | case6 links _ _ _ hstep hparent hname next content hnext hrest =>
    cases h
    obtain rfl := List.isEmpty_iff.mp hrest
    rw [← hnext]
    exact .last links hstep hparent hname fun entry hentry =>
      ⟨content, Option.some.inj (hentry.symm.trans hnext)⟩
  | case7 => cases h
  -- A link that is last is where the walk ends only if links are not followed.
  | case8 links _ _ _ hstep hparent hname next target hnext hrest =>
    cases h
    rw [Bool.and_eq_true, Bool.not_eq_true'] at hrest
    obtain rfl := List.isEmpty_iff.mp hrest.1
    exact .link links hrest.2 hstep hparent hname hnext
  | case9 => cases h
  | case10 => cases h
  | case11 _ _ _ hstep hparent hname next target hnext hrest _ htarget ih =>
    exact .on hstep hparent hname hnext hrest htarget (ih h)
  | case12 links _ _ _ hstep hparent hname next hnext hrest =>
    cases h
    obtain rfl := List.isEmpty_iff.mp hrest
    rw [← hnext]
    exact .last links hstep hparent hname fun entry hentry => nomatch hentry.symm.trans hnext
  | case13 => cases h

theorem walk_of_arrives {disk : Disk} {follow : Bool} {links : Nat} {location : Location}
    {path : List String} {place : Place} (h : disk.Arrives follow links location path place) :
    disk.walk follow links location path = .ok place := by
  induction h with
  | done => rw [walk]
  | here hstep _ ih => rw [walk_here hstep, ih]
  | parent _ ih => rw [walk_parent, ih]
  | down hstep hparent hname hnext _ ih => rw [walk_down hstep hparent hname hnext, ih]
  | last links hstep hparent hname hfile => exact walk_end hstep hparent hname rfl hfile
  | link links hfollow hstep hparent hname hnext =>
    rw [hfollow, walk_end_link hstep hparent hname hnext rfl]
  | on hstep hparent hname hnext hrest htarget _ ih =>
    rw [walk_on hstep hparent hname hnext hrest htarget, ih]

/-- A walk does not go on from a file or a missing name. -/
theorem of_walk_end {disk : Disk} {follow : Bool} {links : Nat} {location : Location}
    {step : String} {rest : List String} {place : Place}
    (hstep : ¬(step = "" || step = ".") = true) (hparent : step ≠ "..")
    (hfile : ∀ entry, disk.get? (location ++ [step]) = some entry → entry.IsFile)
    (h : disk.walk follow links location (step :: rest) = .ok place) :
    place.location = location ++ [step] ∧ rest = [] := by
  cases arrives_of_walk h with
  | here hhere => exact absurd hhere hstep
  | parent => exact absurd rfl hparent
  | down _ _ _ hnext => exact absurd (hfile _ hnext) not_isFile_directory
  | last => exact ⟨rfl, rfl⟩
  | link _ _ _ _ _ hnext => exact absurd (hfile _ hnext) (not_isFile_link _)
  | on _ _ _ hnext => exact absurd (hfile _ hnext) (not_isFile_link _)

theorem get?_of_walk {disk : Disk} {follow : Bool} {links : Nat} {location : Location}
    {path : List String} {place : Place}
    (h : disk.walk follow links location path = .ok place) :
    place.entry = disk.get? place.location := by
  replace h := arrives_of_walk h
  induction h with
  | done => rfl
  | here _ _ ih => exact ih
  | parent _ ih => exact ih
  | down _ _ _ _ _ ih => exact ih
  | last => rfl
  | link _ _ _ _ _ hnext => exact hnext.symm
  | on _ _ _ _ _ _ _ ih => exact ih

theorem walk_directory {disk : Disk} (follow : Bool) (links : Nat) {location : Location}
    {step : String} (rest : List String) (hstep : IsName step)
    (hname : ¬maxName < step.utf8ByteSize)
    (h : disk.get? (location ++ [step]) = some .directory) :
    disk.walk follow links location (step :: rest) =
      disk.walk follow links (location ++ [step]) rest :=
  walk_down hstep.not_empty hstep.ne_parent hname h

theorem walk_link {disk : Disk} (links : Nat) {location : Location} {step target : String}
    (rest : List String) (hstep : IsName step) (hname : ¬maxName < step.utf8ByteSize)
    (h : disk.get? (location ++ [step]) = some (.link target)) (htarget : target ≠ "") :
    disk.walk true (links + 1) location (step :: rest) =
      disk.walk true links (startOf location target) (steps target ++ rest) :=
  walk_on hstep.not_empty hstep.ne_parent hname h (by simp) htarget

theorem walk_last_link {disk : Disk} (links : Nat) {location : Location} {step target : String}
    (hstep : IsName step) (hname : ¬maxName < step.utf8ByteSize)
    (h : disk.get? (location ++ [step]) = some (.link target)) :
    disk.walk false links location [step] = .ok ⟨location ++ [step], some (.link target)⟩ :=
  walk_end_link hstep.not_empty hstep.ne_parent hname h rfl

theorem steps_name {name : String} (h : IsName name) : steps name = [name] := by
  unfold steps
  rw [Path.segments_of_not_mem h.slash, List.map_singleton, String.ofList_toList]

theorem startOf_name {name : String} (h : IsName name) (location : Location) :
    startOf location name = location := by
  unfold startOf
  rw [h.not_isAbsolute, if_neg Bool.false_ne_true]

/-- A link to itself leads nowhere. -/
theorem walk_circle {disk : Disk} (links : Nat) {location : Location} {step : String}
    (rest : List String) (hstep : IsName step) (hname : ¬maxName < step.utf8ByteSize)
    (h : disk.get? (location ++ [step]) = some (.link step)) :
    disk.walk true links location (step :: rest) = .error .tooManyLinks := by
  induction links with
  | zero => exact walk_spent hstep.not_empty hstep.ne_parent hname h (by simp)
  | succ links ih =>
    rw [walk_link links rest hstep hname h hstep.ne_empty, steps_name hstep, startOf_name hstep]
    exact ih

/-- A walk ends in the same place where the directories and links still stand, unless one of them
has come to stand in that place. -/
theorem walk_of_stands {disk disk' : Disk} (hstands : Stands disk disk') {follow : Bool}
    {links : Nat} {location : Location} {path : List String} {place : Place}
    (h : disk.walk follow links location path = .ok place)
    (hend : ∀ entry, disk'.get? place.location = some entry → ¬entry.IsFile →
      place.entry = some entry) :
    disk'.walk follow links location path =
      .ok ⟨place.location, disk'.get? place.location⟩ := by
  replace h := arrives_of_walk h
  induction h with
  | done => rw [walk]
  | here hstep _ ih => rw [walk_here hstep, ih hend]
  | parent _ ih => rw [walk_parent, ih hend]
  | down hstep hparent hname hnext _ ih =>
    rw [walk_down hstep hparent hname (hstands _ _ hnext not_isFile_directory), ih hend]
  | last links hstep hparent hname hfile =>
    refine walk_end hstep hparent hname rfl fun entry hentry =>
      Classical.byContradiction fun hnot => ?_
    exact hnot (hfile entry (hend entry hentry hnot))
  | link links hfollow hstep hparent hname hnext =>
    have hlink := hstands _ _ hnext (not_isFile_link _)
    rw [hfollow, walk_end_link hstep hparent hname hlink rfl, hlink]
  | on hstep hparent hname hnext hrest htarget _ ih =>
    rw [walk_on hstep hparent hname (hstands _ _ hnext (not_isFile_link _)) hrest htarget, ih hend]

/-- A walk that does not end at a link ends there too if links at the end are followed. -/
theorem walk_follow {disk : Disk} {follow : Bool} {links : Nat} {location : Location}
    {path : List String} {place : Place}
    (h : disk.walk follow links location path = .ok place)
    (hlink : ∀ target, place.entry ≠ some (.link target)) :
    disk.walk true links location path = .ok place := by
  replace h := arrives_of_walk h
  induction h with
  | done => rw [walk]
  | here hstep _ ih => rw [walk_here hstep, ih hlink]
  | parent _ ih => rw [walk_parent, ih hlink]
  | down hstep hparent hname hnext _ ih => rw [walk_down hstep hparent hname hnext, ih hlink]
  | last links hstep hparent hname hfile => exact walk_end hstep hparent hname rfl hfile
  | link => exact absurd rfl (hlink _)
  | on hstep hparent hname hnext _ htarget _ ih =>
    rw [walk_on hstep hparent hname hnext (by simp) htarget, ih hlink]

/-- A walk does not tell one content of a file from another. -/
theorem walk_put_file {disk : Disk} {target : Location} {content : ByteArray}
    (h : disk.get? target = some (.file content)) (content' : ByteArray) (follow : Bool)
    (links : Nat) (location : Location) (path : List String) :
    (disk.put target (.file content')).walk follow links location path =
      (disk.walk follow links location path).map fun place =>
        ⟨place.location, (disk.put target (.file content')).get? place.location⟩ := by
  have hself := get?_put_self disk (ne_nil_of_get? h) (.file content')
  -- A step looks at one entry. It is either another place's, which stays, or still a file.
  have hother : ∀ {next : Location} {found : Option Entry}, disk.get? next = found →
      found ≠ some (.file content) → (disk.put target (.file content')).get? next = found := by
    intro next found hnext hentry
    have hne : next ≠ target := by
      rintro rfl
      exact hentry (hnext.symm.trans h)
    rw [get?_put_of_ne disk hne, hnext]
  have hfile : ∀ {next : Location} {c : ByteArray}, disk.get? next = some (.file c) →
      ∃ c', (disk.put target (.file content')).get? next = some (.file c') := by
    intro next c hnext
    by_cases hne : next = target
    · exact ⟨content', hne ▸ hself⟩
    · exact ⟨c, (get?_put_of_ne disk hne _).trans hnext⟩
  generalize disk.put target (.file content') = disk' at *
  fun_induction disk.walk follow links location path with
  | case1 =>
    rw [walk]
    rfl
  | case2 _ _ _ _ hstep ih => rw [walk_here hstep, ih]
  | case3 _ _ _ _ ih => rw [walk_parent, ih]
  | case4 _ _ _ _ hstep hparent hname =>
    rw [walk, if_neg hstep, if_neg hparent, if_pos hname]
    rfl
  | case5 _ _ _ _ hstep hparent hname next hnext ih =>
    rw [walk_down hstep hparent hname (hother hnext nofun)]
    exact ih
  | case6 _ _ _ _ hstep hparent hname next c hnext hrest =>
    refine walk_end hstep hparent hname hrest fun entry hentry => ?_
    obtain ⟨c', hc'⟩ := hfile hnext
    exact ⟨c', Option.some.inj (hentry.symm.trans hc')⟩
  | case7 _ _ _ _ hstep hparent hname next c hnext hrest =>
    obtain ⟨c', hc'⟩ := hfile hnext
    exact walk_below_file hstep hparent hname hc' hrest
  | case8 _ _ _ _ hstep hparent hname next link hnext hrest =>
    have hlink := hother hnext nofun
    rw [walk_end_link hstep hparent hname hlink hrest, ← hlink]
    rfl
  | case9 _ _ _ hstep hparent hname next link hnext hrest =>
    exact walk_spent hstep hparent hname (hother hnext nofun) hrest
  | case10 _ _ _ hstep hparent hname next hrest links hnext =>
    exact walk_nowhere hstep hparent hname (hother hnext nofun) hrest
  | case11 _ _ rest hstep hparent hname next link hnext hrest links hlink ih =>
    rw [walk_on hstep hparent hname (hother hnext nofun) hrest hlink]
    exact ih
  | case12 _ _ _ _ hstep hparent hname next hnext hrest =>
    refine walk_end hstep hparent hname hrest fun entry hentry => ?_
    cases hentry.symm.trans (hother hnext nofun)
  | case13 _ _ _ _ hstep hparent hname next hnext hrest =>
    exact walk_below_missing hstep hparent hname (hother hnext nofun) hrest

/-- On the way to some steps it does not matter how these are written. -/
theorem walk_congr {disk : Disk} {follow : Bool} {a b : List String}
    (hempty : a.isEmpty = b.isEmpty)
    (hwalk : ∀ links location, disk.walk follow links location a =
      disk.walk follow links location b) (links : Nat) (location : Location)
    (path : List String) : disk.walk follow links location (path ++ a) =
      disk.walk follow links location (path ++ b) := by
  have hrest : ∀ rest : List String, (rest ++ a).isEmpty = (rest ++ b).isEmpty := by
    intro rest
    cases rest with
    | nil => exact hempty
    | cons => rfl
  -- Links take the walk to longer paths, but there are fewer of them left.
  induction links generalizing location path with
  | zero =>
    induction path generalizing location with
    | nil => exact hwalk 0 location
    | cons step rest ih =>
      rw [List.cons_append, List.cons_append, walk, walk]
      simp only [ih, hrest]
  | succ links ihLinks =>
    induction path generalizing location with
    | nil => exact hwalk (links + 1) location
    | cons step rest ih =>
      rw [List.cons_append, List.cons_append, walk, walk]
      simp only [ih, hrest, ← List.append_assoc, ihLinks]

theorem walk_empty_cons (disk : Disk) (follow : Bool) (links : Nat) (location : Location)
    (path : List String) : disk.walk follow links location ("" :: path) =
      disk.walk follow links location path := by
  exact walk_here (by simp)

/-- A walk to a directory goes on from there. -/
theorem walk_append {disk : Disk} {links : Nat} {location target : Location}
    {path : List String} (h : disk.walk true links location path =
      .ok ⟨target, some .directory⟩) :
    ∃ left, ∀ (follow : Bool) {more : List String}, more ≠ [] →
      disk.walk follow links location (path ++ more) = disk.walk follow left target more := by
  replace h := arrives_of_walk h
  generalize hplace : (⟨target, some .directory⟩ : Place) = place at h
  induction h with
  | done links location =>
    exact ⟨links, fun follow more _ =>
      congrArg (disk.walk follow links · more) (congrArg Place.location hplace).symm⟩
  | here hstep _ ih =>
    obtain ⟨left, hleft⟩ := ih hplace
    refine ⟨left, fun follow more hmore => ?_⟩
    rw [List.cons_append, walk_here hstep]
    exact hleft follow hmore
  | parent _ ih =>
    obtain ⟨left, hleft⟩ := ih hplace
    refine ⟨left, fun follow more hmore => ?_⟩
    rw [List.cons_append, walk_parent]
    exact hleft follow hmore
  | down hstep hparent hname hnext _ ih =>
    obtain ⟨left, hleft⟩ := ih hplace
    refine ⟨left, fun follow more hmore => ?_⟩
    rw [List.cons_append, walk_down hstep hparent hname hnext]
    exact hleft follow hmore
  | last links hstep hparent hname hfile =>
    exact absurd (hfile _ (congrArg Place.entry hplace).symm) not_isFile_directory
  | link => nomatch congrArg Place.entry hplace
  -- With more to go the link is not the last name, so it is followed in any case.
  | @on _ _ _ _ rest _ hstep hparent hname hnext hrest htarget _ ih =>
    obtain ⟨left, hleft⟩ := ih hplace
    refine ⟨left, fun follow more hmore => ?_⟩
    have hnot : ¬((rest ++ more).isEmpty && !follow) = true := by simp [hmore]
    rw [List.cons_append, walk_on hstep hparent hname hnext hnot htarget, ← List.append_assoc]
    exact hleft follow hmore

/-! ## Walks along names -/

/-- Whether directories lead along some names to the last one, whatever that stands for. -/
def Passes (disk : Disk) (base : Location) : List String → Prop
  | [] | [_] => True
  | first :: second :: rest => disk.get? (base ++ [first]) = some .directory ∧
    disk.Passes (base ++ [first]) (second :: rest)

theorem Passes.cons {disk : Disk} {base : Location} {name : String} {names : List String}
    (hdirectory : disk.get? (base ++ [name]) = some .directory)
    (hnames : disk.Passes (base ++ [name]) names) : disk.Passes base (name :: names) := by
  cases names with
  | nil => exact trivial
  | cons second rest => exact ⟨hdirectory, hnames⟩

theorem Passes.of_stands {disk disk' : Disk} (hstands : Stands disk disk') {base : Location}
    {names : List String} (h : disk.Passes base names) : disk'.Passes base names := by
  induction names generalizing base with
  | nil => exact trivial
  | cons first rest ih =>
    cases rest with
    | nil => exact trivial
    | cons second rest => exact ⟨hstands _ _ h.1 not_isFile_directory, ih h.2⟩

theorem Passes.of_append {disk : Disk} {base : Location} {names : List String} {more : List String}
    (h : disk.Passes base (names ++ more)) : disk.Passes base names := by
  induction names generalizing base with
  | nil => exact trivial
  | cons first rest ih =>
    cases rest with
    | nil => exact trivial
    | cons second rest => exact ⟨h.1, ih h.2⟩

/-- Where no link is on the way, a walk along names ends where they say, and what it passes are
directories. -/
theorem of_walk_names {disk : Disk} {follow : Bool} {links : Nat} {base : Location}
    {names : List String} {place : Place} (hnames : ∀ n ∈ names, IsName n)
    (hlinks : ∀ front, front ≠ [] → front <+: names → ∀ target,
      disk.get? (base ++ front) ≠ some (.link target))
    (h : disk.walk follow links base names = .ok place) :
    place.location = base ++ names ∧ disk.Passes base names := by
  induction names generalizing base with
  | nil =>
    cases arrives_of_walk h
    exact ⟨(List.append_nil base).symm, trivial⟩
  | cons n rest ih =>
    obtain ⟨hn, hrest⟩ := List.forall_mem_cons.mp hnames
    have hlink : ∀ target, disk.get? (base ++ [n]) ≠ some (.link target) :=
      hlinks [n] (List.cons_ne_nil n []) (List.prefix_cons_inj n |>.mpr List.nil_prefix)
    -- A name leads down or is the last one; the other steps are for what no name is, and for links.
    cases arrives_of_walk h with
    | here hhere => exact absurd hhere hn.not_empty
    | parent => exact absurd rfl hn.ne_parent
    | down _ _ _ hdirectory hwalk =>
      have hlinks' : ∀ front, front ≠ [] → front <+: rest → ∀ target,
          disk.get? (base ++ [n] ++ front) ≠ some (.link target) := by
        intro front _ hfront target
        rw [List.append_assoc]
        exact hlinks _ (List.cons_ne_nil n front) (List.prefix_cons_inj n |>.mpr hfront) target
      obtain ⟨hlocation, hpassed⟩ := ih hrest hlinks' (walk_of_arrives hwalk)
      refine ⟨?_, .cons hdirectory hpassed⟩
      rw [hlocation, List.append_assoc, List.singleton_append]
    | last => exact ⟨rfl, trivial⟩
    | link _ _ _ _ _ hnext => exact absurd hnext (hlink _)
    | on _ _ _ hnext => exact absurd hnext (hlink _)

/-- Where directories lead to its last name, a walk along names comes to what that stands for, if it
is no link, unless a name is too long. -/
theorem walk_names_eq {disk : Disk} (follow : Bool) (links : Nat) {base : Location}
    {names : List String} (hnames : ∀ n ∈ names, IsName n) (hpasses : disk.Passes base names)
    (hlink : ∀ target, disk.get? (base ++ names) ≠ some (.link target)) :
    disk.walk follow links base names = if ∀ n ∈ names, n.utf8ByteSize ≤ maxName then
      .ok ⟨base ++ names, disk.get? (base ++ names)⟩ else .error .nameTooLong := by
  induction names generalizing base with
  | nil => rw [walk, if_pos (List.forall_mem_nil _), List.append_nil]
  | cons n rest ih =>
    obtain ⟨hn, hrest⟩ := List.forall_mem_cons.mp hnames
    rw [walk, if_neg hn.not_empty, if_neg hn.ne_parent]
    simp only [List.forall_mem_cons]
    split
    · rename_i hlong
      rw [if_neg fun hshort => Nat.not_lt.mpr hshort.1 hlong]
    rename_i hshort
    simp only [Nat.le_of_not_lt hshort, true_and]
    -- The last name may stand for anything but a link; the others are directories.
    cases rest with
    | nil =>
      rw [if_pos (List.forall_mem_nil _)]
      cases hget : disk.get? (base ++ [n]) with
      | none => rfl
      | some entry =>
        cases entry with
        | file content => rfl
        | directory =>
          dsimp only
          rw [walk, hget]
        | link target => exact absurd hget (hlink target)
    | cons second rest =>
      obtain ⟨hdirectory, hmore⟩ := hpasses
      rw [hdirectory]
      rw [List.append_cons base n (second :: rest)] at hlink ⊢
      exact ih hrest hmore hlink

theorem walk_names {disk : Disk} (follow : Bool) (links : Nat) {base : Location}
    {names : List String} (hnames : ∀ n ∈ names, IsName n ∧ n.utf8ByteSize ≤ maxName)
    (hpasses : disk.Passes base names)
    (hlink : ∀ target, disk.get? (base ++ names) ≠ some (.link target)) :
    disk.walk follow links base names = .ok ⟨base ++ names, disk.get? (base ++ names)⟩ := by
  rw [walk_names_eq follow links (fun n hn => (hnames n hn).1) hpasses hlink,
    if_pos fun n hn => (hnames n hn).2]

/-- Where directories lead to its last name, a path does not lead into nothing. -/
theorem walk_names_ne_notFound {disk : Disk} (links : Nat) {base : Location}
    {names : List String} (hnames : ∀ n ∈ names, IsName n) (hpasses : disk.Passes base names) :
    disk.walk false links base names ≠ .error .notFound := by
  induction names generalizing base with
  | nil =>
    rw [walk]
    simp
  | cons n rest ih =>
    obtain ⟨hn, hrest⟩ := List.forall_mem_cons.mp hnames
    rw [walk, if_neg hn.not_empty, if_neg hn.ne_parent]
    split
    · simp
    dsimp only
    -- For the last name nothing has to stand there.
    cases rest with
    | nil =>
      cases hget : disk.get? (base ++ [n]) with
      | none => simp
      | some entry =>
        cases entry with
        | directory =>
          dsimp only
          rw [walk]
          simp
        | file => simp
        | link => simp
    | cons second rest =>
      obtain ⟨hdirectory, hmore⟩ := hpasses
      rw [hdirectory]
      exact ih hrest hmore

end Rephrase.Disk
