import Rephrase.Proofs.Disk.Discovery
import Rephrase.Proofs.Disk.Effect

/-! Changes that keep to one part of a disk take no directory and no link away and make no new link,
so that paths lead on to where they led before. Files can be put and taken away so that everything
still stands in a directory. A path then reads the same on two disks that hold the same at its end. -/

namespace Rephrase.Disk

open Discovery (pathBelow)
open Rephrase.Path (IsName)

/-! ## Parts of a disk -/

theorem get?_erase_self (disk : Disk) {location : Location} (h : location ≠ []) :
    (disk.erase location).get? location = none := by
  rw [get?, if_neg h]
  unfold erase
  dsimp only
  rw [List.lookup_eq_none_iff]
  intro e he
  obtain ⟨-, hne⟩ := List.mem_filter.mp he
  simpa using Ne.symm (of_decide_eq_true hne)

theorem get?_erase_of_ne (disk : Disk) {location other : Location} (h : other ≠ location) :
    (disk.erase location).get? other = disk.get? other := by
  unfold get? erase
  split
  · rfl
  · exact lookup_filter_ne h disk.entries

/-- Only the part of the disk in an area may have changed. -/
structure KeepsTo (area : Location → Prop) (disk disk' : Disk) : Prop where
  working : disk'.working = disk.working
  limit : disk'.limit = disk.limit
  stands : Stands disk disk'
  links : ∀ location target, disk'.get? location = some (.link target) →
    disk.get? location = some (.link target)
  outside : ∀ location, ¬area location → disk'.get? location = disk.get? location

namespace KeepsTo

variable {area : Location → Prop} {disk disk' disk'' : Disk}

theorem refl (area : Location → Prop) (disk : Disk) : KeepsTo area disk disk :=
  ⟨rfl, rfl, fun _ _ hentry _ => hentry, fun _ _ hlink => hlink, fun _ _ => rfl⟩

theorem trans (h : KeepsTo area disk disk') (h' : KeepsTo area disk' disk'') :
    KeepsTo area disk disk'' where
  working := h'.working.trans h.working
  limit := h'.limit.trans h.limit
  stands := h.stands.trans h'.stands
  links location target hlink := h.links location target (h'.links location target hlink)
  outside location harea := (h'.outside location harea).trans (h.outside location harea)

theorem mono {larger : Location → Prop} (h : KeepsTo area disk disk')
    (hlarger : ∀ location, area location → larger location) : KeepsTo larger disk disk' where
  working := h.working
  limit := h.limit
  stands := h.stands
  links := h.links
  outside location hnot := h.outside location fun harea => hnot (hlarger location harea)

end KeepsTo

section

variable {area : Location → Prop} {disk disk' : Disk}

/-- A file or a directory is put where nothing stood or a file. -/
theorem keepsTo_put {location : Location} {entry : Entry}
    (hbefore : ∀ found, disk.get? location = some found → found.IsFile)
    (hentry : ∀ target, entry ≠ .link target) (harea : area location) :
    KeepsTo area disk (disk.put location entry) := by
  have hne := ne_nil_of_isFile hbefore
  refine ⟨rfl, rfl, stands_put entry hbefore, fun other target hlink => ?_, fun other hother => ?_⟩
  · by_cases hsame : other = location
    · rw [hsame, get?_put_self disk hne] at hlink
      exact absurd (Option.some.inj hlink) (hentry target)
    · rwa [get?_put_of_ne disk hsame] at hlink
  · refine get?_put_of_ne disk ?_ entry
    rintro rfl
    exact hother harea

/-- Only a file is taken away. -/
theorem stands_erase {location : Location}
    (hbefore : ∀ found, disk.get? location = some found → found.IsFile) :
    Stands disk (disk.erase location) := by
  intro other found hfound hfile
  rw [get?_erase_of_ne disk, hfound]
  rintro rfl
  exact hfile (hbefore found hfound)

theorem keepsTo_erase {location : Location}
    (hbefore : ∀ found, disk.get? location = some found → found.IsFile) (harea : area location) :
    KeepsTo area disk (disk.erase location) := by
  have hne := ne_nil_of_isFile hbefore
  refine ⟨rfl, rfl, stands_erase hbefore, fun other target hlink => ?_, fun other hother => ?_⟩
  · by_cases hsame : other = location
    · rw [hsame, get?_erase_self disk hne] at hlink
      cases hlink
    · rwa [get?_erase_of_ne disk hsame] at hlink
  · refine get?_erase_of_ne disk ?_
    rintro rfl
    exact hother harea

theorem isFile_of_entry {location : Location} {entry : Option Entry}
    (hentry : entry = disk.get? location) (hdirectory : entry ≠ some .directory)
    (hlink : ∀ target, disk.get? location ≠ some (.link target)) :
    ∀ found, disk.get? location = some found → found.IsFile := by
  intro found hfound
  cases found with
  | file content => exact ⟨content, rfl⟩
  | directory => exact absurd (hentry.trans hfound) hdirectory
  | link target => exact absurd hfound (hlink target)

end

/-! ## Files in directories -/

namespace IsTree

variable {disk : Disk} (h : disk.IsTree)
include h

/-- What stands below a directory stands in directories. -/
theorem passes {base : Location} {names : List String}
    (hsome : disk.get? (base ++ names) ≠ none) : disk.Passes base names := by
  obtain ⟨entry, hentry⟩ := Option.ne_none_iff_exists'.mp hsome
  induction names generalizing base with
  | nil => exact trivial
  | cons first rest ih =>
    cases rest with
    | nil => exact trivial
    | cons second rest =>
      rw [List.append_cons] at hsome hentry
      refine ⟨h.directory_of_prefix hentry (List.prefix_append _ _) ?_, ih hsome hentry⟩
      intro heq
      exact List.cons_ne_nil _ _ (List.append_right_eq_self.mp heq.symm)

theorem named_of_get? {location : Location} {entry : Entry}
    (hentry : disk.get? location = some entry) : ∀ n ∈ location, IsName n := by
  by_cases hne : location = []
  · rw [hne]
    nofun
  · exact h.named _ (mem_entries_of_get? hentry hne)

section

variable {location : Location}
  (hbefore : ∀ found, disk.get? location = some found → found.IsFile)
include hbefore

/-- Something is put into a directory, where at most a file stands. -/
theorem put {entry : Entry} (hnamed : ∀ n ∈ location, IsName n)
    (habove : disk.get? location.dropLast = some .directory) : (disk.put location entry).IsTree := by
  have hne := ne_nil_of_isFile hbefore
  have hstays : ∀ {place}, disk.get? place = some .directory →
      (disk.put location entry).get? place = some .directory := fun hplace =>
    stands_put entry hbefore _ _ hplace not_isFile_directory
  refine ⟨?_, ?_, ?_⟩
  · show (location :: ((disk.entries.filter fun e => e.1 ≠ location).map Prod.fst)).Nodup
    refine List.nodup_cons.mpr ⟨?_, h.once.sublist (List.filter_sublist.map _)⟩
    intro hmem
    obtain ⟨e, he, rfl⟩ := List.mem_map.mp hmem
    simpa using (List.mem_filter.mp he).2
  · refine List.forall_mem_cons.mpr ⟨hnamed, fun e he => h.named e (List.mem_of_mem_filter he)⟩
  · exact List.forall_mem_cons.mpr
      ⟨hstays habove, fun e he => hstays (h.above e (List.mem_of_mem_filter he))⟩

/-- A file is taken away. -/
theorem erase : (disk.erase location).IsTree := by
  have hstays : ∀ {place}, disk.get? place = some .directory →
      (disk.erase location).get? place = some .directory := fun hplace =>
    stands_erase hbefore _ _ hplace not_isFile_directory
  exact ⟨h.once.sublist (List.filter_sublist.map _),
    fun e he => h.named e (List.mem_of_mem_filter he),
    fun e he => hstays (h.above e (List.mem_of_mem_filter he))⟩

end

theorem put_file {location : Location} {content : ByteArray}
    (hfile : disk.get? location = some (.file content)) (content' : ByteArray) :
    (disk.put location (.file content')).IsTree :=
  h.put (fun _ hfound => ⟨content, Option.some.inj (hfound.symm.trans hfile)⟩)
    (h.named_of_get? hfile) (h.above _ (mem_entries_of_get? hfile (ne_nil_of_get? hfile)))

/-- The same below a directory. -/
theorem put_below {base : Location} {names : List String} {entry : Entry}
    (hbase : disk.get? base = some .directory) (hnames : ∀ n ∈ names, IsName n)
    (hpasses : disk.Passes base names)
    (hbefore : ∀ found, disk.get? (base ++ names) = some found → found.IsFile) :
    (disk.put (base ++ names) entry).IsTree := by
  refine h.put hbefore
    (List.forall_mem_append.mpr ⟨h.named_of_get? hbase, hnames⟩) ?_
  induction names generalizing base with
  | nil =>
    rw [List.append_nil] at hbefore
    exact absurd (hbefore _ hbase) not_isFile_directory
  | cons first rest ih =>
    cases rest with
    | nil => rwa [List.dropLast_concat]
    | cons second rest =>
      rw [List.append_cons] at hbefore ⊢
      exact ih hpasses.1 (fun n hn => hnames n (List.mem_cons_of_mem _ hn)) hpasses.2 hbefore

end IsTree

/-- A path that is neither too long nor blocked leads along its names. -/
theorem resolve_below {disk : Disk} {root : String} {base : Location} {names : List String}
    (hroot : disk.LeadsTo root base) (hnames : ∀ n ∈ names, IsName n ∧ n.utf8ByteSize ≤ maxName)
    (hne : names ≠ []) (hpath : (pathBelow root names).toList.elem '\x00' = false ∧
      (pathBelow root names).utf8ByteSize ≤ maxPath)
    (hpasses : disk.Passes base names)
    (hlink : ∀ target, disk.get? (base ++ names) ≠ some (.link target)) (follow : Bool) :
    disk.resolve follow (pathBelow root names) =
      .ok ⟨base ++ names, disk.get? (base ++ names)⟩ := by
  have hnamed : ∀ n ∈ names, IsName n := fun n hn => (hnames n hn).1
  obtain ⟨hempty, -⟩ := walk_of_resolve hroot
  obtain ⟨left, hleft⟩ := walk_below hroot hnamed hne
  unfold resolve
  rw [if_neg (Bool.eq_false_iff.mp hpath.1), if_neg (Path.pathBelow_ne_empty hempty hnamed),
    if_neg (Nat.not_lt.mpr hpath.2), hleft]
  exact walk_names follow left hnames hpasses hlink

/-- What is joined to a path only makes it longer. -/
theorem isPath_of_join {path name : String} (hempty : path ≠ "") (hname : IsName name)
    (h : (Path.join path name).toList.elem '\x00' = false ∧
      (Path.join path name).utf8ByteSize ≤ maxPath) :
    path.toList.elem '\x00' = false ∧ path.utf8ByteSize ≤ maxPath := by
  obtain ⟨more, hmore⟩ : ∃ more, Path.join path name = path ++ more := by
    obtain ⟨front, hjoin, hfront | hfront⟩ := Path.toList_join hempty hname
    · refine ⟨name, String.toList_inj.mp ?_⟩
      rw [hjoin, String.toList_append, hfront, List.append_assoc, List.singleton_append]
    · refine ⟨"/" ++ name, String.toList_inj.mp ?_⟩
      rw [hjoin, String.toList_append, String.toList_append, hfront]
      rfl
  rw [hmore, String.toList_append, String.utf8ByteSize_append] at h
  refine ⟨?_, Nat.le_trans (Nat.le_add_right _ _) h.2⟩
  have hnul := h.1
  simp only [List.elem_eq_mem, List.mem_append, decide_eq_false_iff_not, not_or] at hnul ⊢
  exact hnul.1

/-- A path that goes on leads by way of its front. -/
theorem resolve_front {disk : Disk} {root : String} {base : Location} (front : List String)
    (name : String) (hroot : disk.LeadsTo root base) (hnames : ∀ n ∈ front ++ [name], IsName n)
    (hne : front ≠ []) (hlinks : ∀ passed, passed ≠ [] → passed <+: front ++ [name] → ∀ target,
      disk.get? (base ++ passed) ≠ some (.link target)) {follow : Bool} {place : Place}
    (h : disk.resolve follow (pathBelow root (front ++ [name])) = .ok place) (follow' : Bool) :
    disk.resolve follow' (pathBelow root front) =
      .ok ⟨base ++ front, disk.get? (base ++ front)⟩ := by
  have hwhole : front ++ [name] ≠ [] := by simp
  obtain ⟨-, hpasses⟩ := of_resolve_below hroot hnames hwhole hlinks h
  obtain ⟨hempty, -⟩ := walk_of_resolve hroot
  -- A name that is too long would have stopped the way to the whole path.
  have hshort : ∀ n ∈ front ++ [name], n.utf8ByteSize ≤ maxName := by
    obtain ⟨left, hbelow⟩ := walk_below hroot hnames hwhole
    have hleft := hbelow follow
    rw [(walk_of_resolve h).2, walk_names_eq follow left hnames hpasses
      (hlinks _ hwhole (List.prefix_refl _))] at hleft
    by_contra hlong
    rw [if_neg hlong] at hleft
    cases hleft
  have hfront : ∀ n ∈ front, IsName n := fun n hn => hnames n (List.mem_append_left _ hn)
  have hfrontEmpty := Path.pathBelow_ne_empty hempty hfront
  obtain ⟨hnul, hsize⟩ := isPath_of_join hfrontEmpty (hnames name (by simp)) <| by
    have hjoin : pathBelow root (front ++ [name]) = Path.join (pathBelow root front) name := by
      rw [pathBelow, List.foldl_append]
      rfl
    unfold resolve at h
    rw [hjoin] at h
    split at h
    · cases h
    split at h
    · cases h
    split at h
    · cases h
    rename_i hnul hempty hlong
    exact ⟨Bool.eq_false_iff.mpr hnul, Nat.le_of_not_lt hlong⟩
  exact resolve_below hroot (fun n hn => ⟨hfront n hn, hshort n (List.mem_append_left _ hn)⟩) hne
    ⟨hnul, hsize⟩ hpasses.of_append (hlinks front hne (List.prefix_append _ _)) follow'

section

variable {disk disk' : Disk} {root : String} {base : Location} {names : List String}
  (hroot : disk.LeadsTo root base) (hroot' : disk'.LeadsTo root base)
  (hnames : ∀ n ∈ names, IsName n) (hne : names ≠ [])
include hroot hroot' hnames hne

/-- A path below a directory leads to the same place on two disks, or fails alike. -/
theorem resolve_below_map (follow : Bool) (hpasses : disk.Passes base names)
    (hpasses' : disk'.Passes base names)
    (hlink : ∀ target, disk.get? (base ++ names) ≠ some (.link target))
    (hlink' : ∀ target, disk'.get? (base ++ names) ≠ some (.link target)) :
    disk'.resolve follow (pathBelow root names) = (disk.resolve follow (pathBelow root names)).map
      fun _ => ⟨base ++ names, disk'.get? (base ++ names)⟩ := by
  obtain ⟨left, hbelow⟩ := walk_below hroot hnames hne
  obtain ⟨left', hbelow'⟩ := walk_below hroot' hnames hne
  have hleft := hbelow follow
  have hleft' := hbelow' follow
  rw [walk_names_eq follow left hnames hpasses hlink] at hleft
  rw [walk_names_eq follow left' hnames hpasses' hlink'] at hleft'
  unfold resolve
  rw [hleft, hleft']
  split
  · rfl
  split
  · rfl
  split
  · rfl
  split <;> rfl

/-- What can be read at a path can be read at it on a disk that holds the same there. -/
theorem toOption_bytesAt_congr (hsame : disk'.get? (base ++ names) = disk.get? (base ++ names))
    (htree : disk.IsTree) (htree' : disk'.IsTree)
    (hlinks : ∀ front, front ≠ [] → front <+: names → ∀ target,
      disk.get? (base ++ front) ≠ some (.link target))
    (hlinks' : ∀ front, front ≠ [] → front <+: names → ∀ target,
      disk'.get? (base ++ front) ≠ some (.link target)) :
    (disk'.bytesAt (pathBelow root names)).toOption =
      (disk.bytesAt (pathBelow root names)).toOption := by
  -- Without an entry the refusals may differ, but nothing can be read on either disk.
  have hnothing : ∀ {disk : Disk}, disk.LeadsTo root base →
      (∀ front, front ≠ [] → front <+: names → ∀ target,
        disk.get? (base ++ front) ≠ some (.link target)) → disk.get? (base ++ names) = none →
        (disk.bytesAt (pathBelow root names)).toOption = none := by
    intro disk hroot hlinks hnone
    unfold bytesAt
    split
    · rename_i location content hresolve
      obtain ⟨rfl, -⟩ := of_resolve_below hroot hnames hne hlinks hresolve
      nomatch hnone.symm.trans (get?_of_resolve hresolve).symm
    all_goals rfl
  cases hget : disk.get? (base ++ names) with
  | none => rw [hnothing hroot hlinks hget, hnothing hroot' hlinks' (hsame.trans hget)]
  | some entry =>
    have hsome : disk.get? (base ++ names) ≠ none := hget ▸ Option.some_ne_none entry
    have hpasses := htree.passes hsome
    have hresolve := resolve_below_map hroot hroot' hnames hne true hpasses
      (htree'.passes (hsame.symm ▸ hsome)) (hlinks names hne (List.prefix_refl names))
      (hlinks' names hne (List.prefix_refl names))
    unfold bytesAt
    rw [hresolve]
    cases hplace : disk.resolve true (pathBelow root names) with
    | error e => rfl
    | ok place =>
      obtain ⟨location, found⟩ := place
      obtain rfl : location = base ++ names := (of_resolve_below hroot hnames hne hlinks hplace).1
      have hfound : found = disk.get? (base ++ names) := get?_of_resolve hplace
      dsimp only [Except.map]
      rw [hfound, hsame]

end

theorem toOption_textAt (disk : Disk) (path : String) :
    (disk.textAt path).toOption = (disk.bytesAt path).toOption.bind String.fromUTF8? := by
  unfold textAt
  cases disk.bytesAt path with
  | error e => rfl
  | ok content =>
    rw [ok_bind]
    show _ = String.fromUTF8? content
    cases String.fromUTF8? content <;> rfl

end Rephrase.Disk
