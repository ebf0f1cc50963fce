import Rephrase.Proofs.Disk.Tree

/-! Paths lead where they led before. A disk that only gains files, or other contents of files, has
the same ways as before. If the file or the link that a path ends in is taken away, then what other
paths lead to does not change, unless it is the same place. -/

namespace Rephrase.Disk

open Discovery (pathBelow)
open Rephrase.Path (IsName)

/-! ## New files -/

/-- Files have been put where nothing stood or a file. -/
structure Gains (disk disk' : Disk) : Prop where
  working : disk'.working = disk.working
  stands : Stands disk disk'
  back : Stands disk' disk
  kept : ∀ location, disk.get? location ≠ none → disk'.get? location ≠ none

namespace Gains

variable {disk disk' disk'' : Disk}

theorem refl (disk : Disk) : Gains disk disk :=
  ⟨rfl, fun _ _ hentry _ => hentry, fun _ _ hentry _ => hentry, fun _ => id⟩

theorem trans (h : Gains disk disk') (h' : Gains disk' disk'') : Gains disk disk'' where
  working := h'.working.trans h.working
  stands := h.stands.trans h'.stands
  back := h'.back.trans h.back
  kept location hsome := h'.kept location (h.kept location hsome)

theorem put {location : Location}
    (hbefore : ∀ entry, disk.get? location = some entry → entry.IsFile) (content : ByteArray) :
    Gains disk (disk.put location (.file content)) := by
  have hself := get?_put_self disk (ne_nil_of_isFile hbefore) (.file content)
  refine ⟨rfl, stands_put _ hbefore, fun other entry hentry hfile => ?_, fun other hsome => ?_⟩
  · have hne : other ≠ location := by
      rintro rfl
      exact hfile ⟨content, Option.some.inj (hentry.symm.trans hself)⟩
    rwa [get?_put_of_ne disk hne] at hentry
  · by_cases hsame : other = location
    · rw [hsame, hself]
      exact Option.some_ne_none _
    · rwa [get?_put_of_ne disk hsame]

section

variable (h : Gains disk disk') {follow : Bool} {path : String} {place : Place}
include h

theorem resolve (hresolve : disk.resolve follow path = .ok place) :
    disk'.resolve follow path = .ok ⟨place.location, disk'.get? place.location⟩ :=
  resolve_of_stands h.stands h.working hresolve fun entry hentry hfile =>
    (get?_of_resolve hresolve).trans (h.back _ entry hentry hfile)

theorem resolve_back (hresolve : disk'.resolve follow path = .ok place) :
    disk.resolve follow path = .ok ⟨place.location, disk.get? place.location⟩ :=
  resolve_of_stands h.back h.working.symm hresolve fun entry hentry hfile =>
    (get?_of_resolve hresolve).trans (h.stands _ entry hentry hfile)

/-- A path reads the same where nothing new was put at its end. -/
theorem toOption_bytesAt (hsame : ∀ place, disk.resolve true path = .ok place →
      disk'.get? place.location = disk.get? place.location) :
    (disk'.bytesAt path).toOption = (disk.bytesAt path).toOption := by
  unfold bytesAt
  cases hresolve : disk.resolve true path with
  | ok place =>
    rw [h.resolve hresolve, hsame place hresolve, ← get?_of_resolve hresolve]
  | error e =>
    cases hresolve' : disk'.resolve true path with
    | ok place => nomatch (h.resolve_back hresolve').symm.trans hresolve
    | error e' => rfl

theorem holds (hholds : disk.holds path = true) : disk'.holds path = true := by
  unfold Disk.holds find? at hholds ⊢
  cases hresolve : disk.resolve true path with
  | error e =>
    rw [hresolve] at hholds
    cases hholds
  | ok place =>
    rw [hresolve] at hholds
    rw [h.resolve hresolve]
    refine Option.isSome_iff_ne_none.mpr (h.kept _ ?_)
    rw [← get?_of_resolve hresolve]
    exact Option.isSome_iff_ne_none.mp hholds

end

end Gains

/-! ## New directories -/

/-- A name that stands for nothing may be given to something new. -/
theorem of_resolve_new {disk : Disk} {root name : String} {base location : Location}
    (hroot : disk.LeadsTo root base) (hname : IsName name)
    (h : disk.resolve false (pathBelow root [name]) = .ok ⟨location, none⟩) :
    location = base ++ [name] ∧ disk.get? (base ++ [name]) = none := by
  have hnames : ∀ n ∈ [name], IsName n := List.forall_mem_singleton.mpr hname
  obtain ⟨left, hbelow⟩ := walk_below hroot hnames (List.cons_ne_nil _ _)
  have hleft := hbelow false
  have hget : none = disk.get? location := get?_of_resolve h
  rw [(walk_of_resolve h).2, walk, if_neg hname.not_empty, if_neg hname.ne_parent] at hleft
  suffices hlocation : location = base ++ [name] by
    rw [← hlocation]
    exact ⟨rfl, hget.symm⟩
  split at hleft
  · cases hleft
  dsimp only at hleft
  split at hleft
  · rw [walk] at hleft
    exact congrArg Place.location (Except.ok.inj hleft)
  · exact congrArg Place.location (Except.ok.inj hleft)
  · exact congrArg Place.location (Except.ok.inj hleft)
  · exact congrArg Place.location (Except.ok.inj hleft)

/-- Directories are made where there is nothing yet, or nothing is done. -/
theorem leads_makeDirectories_absent {path : String} {disk : Disk} (hpath : path ≠ "")
    (hfound : disk.resolve false path ≠ .error .notFound) (hholds : disk.holds path = false) :
    Action.Leads (· = disk) (makeDirectories path) (fun _ => Made path disk)
      (fun _ disk' => disk' = disk) := by
  have habsent : disk.isDirectory path = false := by
    unfold isDirectory
    unfold holds at hholds
    rw [Option.not_isSome_iff_eq_none.mp (Bool.eq_false_iff.mp hholds)]
    rfl
  -- Only where nothing is found the directories above are made first. Any other refusal is
  -- final, as there is no directory.
  have hrefused (failure : Failure) (hmake : (makeDirectory path).run.run disk =
      (.error failure, disk)) (hfailure : failure ≠ .refused .notFound) :
      Action.Leads (· = disk) (makeDirectories path) (fun _ => Made path disk)
        (fun _ disk' => disk' = disk) := by
    unfold makeDirectories makeDirectoriesFrom
    rw [if_neg hpath]
    refine .step (run_attempt_error hmake) ?_
    split
    · cases ‹Except.error _ = _›
    · rename_i heq
      exact absurd (Except.error.inj heq) hfailure
    · refine .step (run_get disk) ?_
      rw [habsent]
      exact .throw fun disk' => id
  cases hresolve : disk.resolve false path with
  | error e =>
    refine hrefused (.refused e) ?_ fun heq => ?_
    · unfold makeDirectory
      exact run_bind_error (run_look_error hresolve) _
    · rw [Failure.refused.inj heq] at hresolve
      exact hfound hresolve
  | ok place =>
    obtain ⟨location, entry⟩ := place
    cases entry with
    | none => exact .done (run_makeDirectories_new hpath hresolve) ⟨location, hresolve, rfl⟩
    | some entry =>
      refine hrefused (.refused .exists) ?_ nofun
      unfold makeDirectory
      rw [run_bind_ok (run_look hresolve)]
      rfl

variable {disk : Disk}

/-! ## Ways -/

/-- There are directories from the top of the disk to a location. -/
def IsWay (disk : Disk) (location : Location) : Prop :=
  ∀ front, front <+: location → disk.get? front = some .directory

namespace IsWay

variable {location : Location}

theorem self (h : disk.IsWay location) : disk.get? location = some .directory :=
  h location (List.prefix_refl location)

theorem top (disk : Disk) : disk.IsWay [] := by
  intro front hfront
  rw [List.prefix_nil.mp hfront]
  rfl

theorem dropLast (h : disk.IsWay location) : disk.IsWay location.dropLast :=
  fun front hfront => h front (hfront.trans (List.dropLast_prefix location))

theorem concat (h : disk.IsWay location) {name : String}
    (hdirectory : disk.get? (location ++ [name]) = some .directory) :
    disk.IsWay (location ++ [name]) := by
  intro front hfront
  obtain rfl | hfront := List.prefix_concat_iff.mp hfront
  · exact hdirectory
  · exact h front hfront

theorem startOf (h : disk.IsWay location) (path : String) :
    disk.IsWay (Disk.startOf location path) := by
  unfold Disk.startOf
  split
  · exact top disk
  · exact h

theorem of_stands {disk' : Disk} (h : disk.IsWay location) (hstands : Stands disk disk') :
    disk'.IsWay location :=
  fun front hfront => hstands front _ (h front hfront) not_isFile_directory

end IsWay

theorem IsTree.isWay (h : disk.IsTree) {location : Location}
    (hdirectory : disk.get? location = some .directory) : disk.IsWay location := by
  intro front hfront
  by_cases hsame : front = location
  · rw [hsame, hdirectory]
  · exact h.directory_of_prefix hdirectory hfront hsame

/-! ## Walks to the end of a path -/

/-- A walk that has come to a file does not go on, however many links may still be followed. -/
theorem of_walk_append {links : Nat} {location : Location} {path : List String}
    {place : Place} (hway : disk.IsWay location)
    (h : disk.walk true links location path = .ok place)
    (hplace : place.entry ≠ some .directory) {links' : Nat} {rest : List String} {place' : Place}
    (h' : disk.walk true links' location (path ++ rest) = .ok place') :
    place'.location = place.location ∧ rest = [] := by
  replace h := arrives_of_walk h
  induction h generalizing links' with
  | done => exact absurd hway.self hplace
  | here hstep _ ih =>
    rw [List.cons_append, walk_here hstep] at h'
    exact ih hway hplace h'
  | parent _ ih =>
    rw [List.cons_append, walk_parent] at h'
    exact ih hway.dropLast hplace h'
  | down hstep hparent hname hnext _ ih =>
    rw [List.cons_append, walk_down hstep hparent hname hnext] at h'
    exact ih (hway.concat hnext) hplace h'
  | last links hstep hparent hname hfile => exact of_walk_end hstep hparent hfile h'
  | link _ hfollow => cases hfollow
  -- The other walk may have fewer links left, and then it fails at this one.
  | @on _ _ _ target _ _ hstep hparent hname hnext hrest htarget _ ih =>
    cases links' with
    | zero =>
      rw [List.cons_append, walk_spent hstep hparent hname hnext (by simp)] at h'
      cases h'
    | succ links' =>
      rw [List.cons_append, walk_on hstep hparent hname hnext (by simp) htarget,
        ← List.append_assoc] at h'
      exact ih (hway.startOf target) hplace h'

/-- The last step of a walk to a file is one to the file or to a link that leads to it. -/
theorem exists_last_of_walk {links : Nat} {location : Location} {path : List String} {place : Place}
    (hway : disk.IsWay location) (h : disk.walk true links location path = .ok place)
    (hplace : place.entry ≠ some .directory) :
    ∃ left above name, disk.IsWay above ∧
      disk.walk false links location path = .ok ⟨above ++ [name], disk.get? (above ++ [name])⟩ ∧
      disk.walk true left above [name] = .ok place ∧
      (place.location = above ++ [name] ∨
        ∃ link, disk.get? (above ++ [name]) = some (.link link)) := by
  replace h := arrives_of_walk h
  induction h with
  | done => exact absurd hway.self hplace
  | here hstep _ ih =>
    rw [walk_here hstep]
    exact ih hway hplace
  | parent _ ih =>
    rw [walk_parent]
    exact ih hway.dropLast hplace
  | down hstep hparent hname hnext _ ih =>
    rw [walk_down hstep hparent hname hnext]
    exact ih (hway.concat hnext) hplace
  | @last links location name hstep hparent hname hfile =>
    exact ⟨links, location, name, hway, walk_end hstep hparent hname rfl hfile,
      walk_end hstep hparent hname rfl hfile, .inl rfl⟩
  | link _ hfollow => cases hfollow
  | @on links location name target rest _ hstep hparent hname hnext hrest htarget h ih =>
    -- A link at the end is the last step itself; behind any other the walk is the target's.
    cases rest with
    | nil =>
      refine ⟨links + 1, location, name, hway, ?_, ?_, .inr ⟨target, hnext⟩⟩
      · exact hnext ▸ walk_end_link hstep hparent hname hnext rfl
      · rw [walk_on hstep hparent hname hnext hrest htarget]
        exact walk_of_arrives h
    | cons second rest =>
      rw [walk_on hstep hparent hname hnext (by simp) htarget]
      exact ih (hway.startOf target) hplace

/-- What a path goes on from is a directory. -/
theorem directory_of_resolve_below {root name : String} {names : List String} {base : Location}
    {place place' : Place} (hroot : disk.LeadsTo root base)
    (hway : disk.IsWay base) (hnames : ∀ n ∈ names ++ [name], IsName n) (hne : names ≠ [])
    (h : disk.resolve true (pathBelow root names) = .ok place)
    (h' : disk.resolve true (pathBelow root (names ++ [name])) = .ok place') :
    place.entry = some .directory := by
  by_contra hplace
  obtain ⟨left, hleft⟩ := walk_below hroot (fun n hn => hnames n (List.mem_append_left _ hn)) hne
  obtain ⟨left', hleft'⟩ := walk_below hroot hnames (by simp)
  have hwalk := (hleft true).symm.trans (walk_of_resolve h).2
  have hwalk' := (hleft' true).symm.trans (walk_of_resolve h').2
  exact List.cons_ne_nil _ _ (of_walk_append hway hwalk hplace hwalk').2

theorem holds_of_leadsTo {path : String} {base : Location} (h : disk.LeadsTo path base) :
    disk.holds path = true := by
  unfold holds find?
  rw [h]
  rfl

theorem leadsTo_of_resolve_below {root name : String} {names : List String} {base : Location}
    {place : Place} (hroot : disk.LeadsTo root base) (hway : disk.IsWay base)
    (hnames : ∀ n ∈ names ++ [name], IsName n) (hne : names ≠ [])
    (hholds : disk.holds (pathBelow root names) = true)
    (h : disk.resolve true (pathBelow root (names ++ [name])) = .ok place) :
    ∃ location, disk.LeadsTo (pathBelow root names) location := by
  unfold holds find? at hholds
  split at hholds
  · rename_i front hfront
    obtain ⟨location, entry⟩ := front
    obtain rfl : entry = some .directory :=
      directory_of_resolve_below hroot hway hnames hne hfront h
    exact ⟨location, hfront⟩
  · cases hholds

/-! ## What is taken away -/

/-- What is left stood there before. -/
theorem get?_of_erase {location other : Location} {entry : Entry} (hne : location ≠ [])
    (h : (disk.erase location).get? other = some entry) : disk.get? other = some entry := by
  have hother : other ≠ location := by
    rintro rfl
    nomatch h.symm.trans (get?_erase_self disk hne)
  rwa [get?_erase_of_ne disk hother] at h

/-- Nothing comes to be read when something is taken away. -/
theorem bytesAt_of_erase {location : Location} {path : String} {content : ByteArray}
    (hne : location ≠ []) (h : (disk.erase location).bytesAt path = .ok content) :
    disk.bytesAt path = .ok content := by
  obtain ⟨place, hresolve⟩ := resolve_of_bytesAt h
  have hget := get?_of_erase hne (get?_of_resolve hresolve).symm
  have hstands : Stands (disk.erase location) disk :=
    fun other entry hentry _ => get?_of_erase hne hentry
  have hresolve' := resolve_of_stands hstands rfl hresolve fun entry hentry hfile =>
    hget.symm.trans hentry
  rw [hget] at hresolve'
  exact bytesAt_of_resolve hresolve'

/-- A file, and what a path to it ends in: the file itself or a link to it. -/
structure IsEnd (disk : Disk) (gone target : Location) : Prop where
  file : ∃ content, disk.get? target = some (.file content)
  here : target = gone ∨ ∃ link, disk.get? gone = some (.link link)
  leads : ∀ {links above name rest place}, above ++ [name] = gone →
    disk.walk true links above (name :: rest) = .ok place → place.location = target ∧ rest = []

namespace IsEnd

theorem of_resolve {root : String} {names : List String} {base : Location} {gone file : Place}
    {content : ByteArray} (hroot : disk.LeadsTo root base) (hway : disk.IsWay base)
    (hnames : ∀ n ∈ names, IsName n) (hne : names ≠ [])
    (hgone : disk.resolve false (pathBelow root names) = .ok gone)
    (hfile : disk.resolve true (pathBelow root names) = .ok file)
    (hentry : file.entry = some (.file content)) :
    disk.IsEnd gone.location file.location := by
  have hplace : file.entry ≠ some .directory := by
    rw [hentry]
    nofun
  obtain ⟨left, hleft⟩ := walk_below hroot hnames hne
  have hwalk := (hleft true).symm.trans (walk_of_resolve hfile).2
  obtain ⟨links, above, name, habove, hnofollow, hlast, hhere⟩ :=
    exists_last_of_walk hway hwalk hplace
  obtain rfl : gone = ⟨above ++ [name], _⟩ := Except.ok.inj <|
    (walk_of_resolve hgone).2.symm.trans ((hleft false).trans hnofollow)
  refine ⟨⟨content, (get?_of_resolve hfile).symm.trans hentry⟩, hhere, ?_⟩
  intro links' above' name' rest place hsame h
  obtain ⟨rfl, hname⟩ := List.append_inj' hsame rfl
  obtain rfl := (List.cons.inj hname).1
  exact of_walk_append habove hlast hplace h

variable {gone target : Location} (hends : disk.IsEnd gone target)
include hends

theorem not_directory : disk.get? gone ≠ some .directory := by
  obtain ⟨content, hfile⟩ := hends.file
  obtain rfl | ⟨link, hlink⟩ := hends.here
  · rw [hfile]
    nofun
  · rw [hlink]
    nofun

theorem ne_nil : gone ≠ [] := by
  rintro rfl
  exact hends.not_directory rfl

/-- Without what it ends in a path leads to a place where there is nothing, and other paths lead
where they led before. -/
theorem walk_erase {links : Nat} {location : Location} {path : List String} {place : Place}
    (h : disk.walk true links location path = .ok place) :
    (disk.erase gone).walk true links location path =
        .ok ⟨place.location, (disk.erase gone).get? place.location⟩ ∨
      place.location = target ∧
        (disk.erase gone).walk true links location path = .ok ⟨gone, none⟩ := by
  have hother : ∀ {next : Location}, next ≠ gone →
      (disk.erase gone).get? next = disk.get? next := get?_erase_of_ne disk
  replace h := arrives_of_walk h
  induction h with
  | done =>
    rw [walk]
    exact .inl rfl
  | here hstep _ ih =>
    rw [walk_here hstep]
    exact ih
  | parent _ ih =>
    rw [walk_parent]
    exact ih
  | @down _ location step _ _ hstep hparent hname hnext _ ih =>
    have hne : location ++ [step] ≠ gone := by
      rintro rfl
      exact hends.not_directory hnext
    rw [walk_down hstep hparent hname ((hother hne).trans hnext)]
    exact ih
  | last links hstep hparent hname hfile =>
    exact .inl (walk_end hstep hparent hname rfl fun entry hentry =>
      hfile entry (get?_of_erase hends.ne_nil hentry))
  | link _ hfollow => cases hfollow
  | @on links location name target rest _ hstep hparent hname hnext hrest htarget h ih =>
    by_cases hsame : location ++ [name] = gone
    · -- The link itself is gone, so it has to be the last step that is left.
      have hwalk := walk_of_arrives (.on hstep hparent hname hnext hrest htarget h)
      obtain ⟨hlocation, rfl⟩ := hends.leads hsame hwalk
      refine .inr ⟨hlocation, ?_⟩
      have hvacant := get?_erase_self disk hends.ne_nil
      rw [walk_end hstep hparent hname rfl fun entry hentry => ?_, hsame, hvacant]
      rw [hsame, hvacant] at hentry
      cases hentry
    · rw [walk_on hstep hparent hname ((hother hsame).trans hnext) hrest htarget]
      exact ih

theorem resolve_erase {path : String} {place : Place} (h : disk.resolve true path = .ok place) :
    (disk.erase gone).resolve true path =
        .ok ⟨place.location, (disk.erase gone).get? place.location⟩ ∨
      place.location = target ∧ (disk.erase gone).resolve true path = .ok ⟨gone, none⟩ := by
  unfold resolve at h ⊢
  split at h
  · cases h
  split at h
  · cases h
  split at h
  · cases h
  rename_i hnul hempty hlong
  rw [if_neg hnul, if_neg hempty, if_neg hlong]
  exact hends.walk_erase h

/-- What another path leads to is left. -/
theorem resolve_erase_of_ne {path : String} {location : Location} {entry : Option Entry}
    (h : disk.resolve true path = .ok ⟨location, entry⟩) (hlocation : location ≠ target)
    (hlink : ∀ link, entry ≠ some (.link link)) :
    (disk.erase gone).resolve true path = .ok ⟨location, entry⟩ := by
  obtain hresolve | ⟨hsame, -⟩ := hends.resolve_erase h
  · have hget := get?_of_resolve h
    have hne : location ≠ gone := by
      obtain rfl | ⟨link, hgone⟩ := hends.here
      · exact hlocation
      · rintro rfl
        exact hlink link (hget.trans hgone)
    rw [hresolve, get?_erase_of_ne disk hne, ← hget]
  · exact absurd hsame hlocation

theorem leadsTo_erase {path : String} {base : Location} (h : disk.LeadsTo path base) :
    (disk.erase gone).LeadsTo path base := by
  refine hends.resolve_erase_of_ne h ?_ nofun
  rintro rfl
  obtain ⟨content, hfile⟩ := hends.file
  nomatch hfile.symm.trans (get?_of_resolve h).symm

theorem toOption_bytesAt_erase {path : String}
    (hother : ∀ place, disk.resolve true path = .ok place → place.location ≠ target) :
    ((disk.erase gone).bytesAt path).toOption = (disk.bytesAt path).toOption := by
  cases hbytes : disk.bytesAt path with
  | ok old =>
    obtain ⟨location, hresolve⟩ := resolve_of_bytesAt hbytes
    rw [bytesAt_of_resolve (hends.resolve_erase_of_ne hresolve (hother _ hresolve) nofun)]
  | error e =>
    cases hbytes' : (disk.erase gone).bytesAt path with
    | ok content' => nomatch (bytesAt_of_erase hends.ne_nil hbytes').symm.trans hbytes
    | error e' => rfl

end IsEnd

end Rephrase.Disk
