import Mathlib.Data.List.Nodup
import Mathlib.Data.List.Pairwise
import Rephrase.Proofs.Disk.Tree

/-! Going down from the root, through the directories that are looked into, comes to the files whose
whole path is let through: to each once, and to no other. -/

namespace Rephrase

open Disk (Location)
open Rephrase.Path (IsName)

/-! ## Directories -/

namespace Disk

/-- An entry's name and what it is, if it stands directly in a directory. -/
def childOf? (location : Location) (e : Location × Entry) : Option (String × Entry) :=
  match e.1.getLast? with
  | some name => if e.1.dropLast = location then some (name, e.2) else none
  | none => none

theorem childOf?_eq_some {location : Location} {e : Location × Entry} {name : String}
    {entry : Entry} :
    childOf? location e = some (name, entry) ↔ e = (location ++ [name], entry) := by
  constructor
  · intro h
    obtain ⟨place, found⟩ := e
    unfold childOf? at h
    dsimp only at h
    split at h
    · rename_i last hlast
      split at h
      · rename_i habove
        cases h
        obtain ⟨above, rfl⟩ := List.getLast?_eq_some_iff.mp hlast
        rw [List.dropLast_concat] at habove
        rw [habove]
      · cases h
    · cases h
  · rintro rfl
    rw [childOf?, List.getLast?_concat, List.dropLast_concat]
    exact if_pos rfl

/-- What stands directly in a directory, in the order of the disk. -/
def childrenOf (disk : Disk) (location : Location) : List (String × Entry) :=
  disk.entries.filterMap (childOf? location)

/-- How far down the entries go. -/
def depth (disk : Disk) : Nat :=
  disk.entries.foldr (fun e deepest => max e.1.length deepest) 0

theorem length_le_depth {disk : Disk} {e : Location × Entry} (h : e ∈ disk.entries) :
    e.1.length ≤ disk.depth := by
  unfold depth
  generalize disk.entries = entries at h
  induction entries with
  | nil => nomatch h
  | cons first rest ih =>
    obtain rfl | hrest := List.mem_cons.mp h
    · exact Nat.le_max_left _ _
    · exact Nat.le_trans (ih hrest) (Nat.le_max_right _ _)

namespace IsTree

variable {disk : Disk} (h : disk.IsTree)
include h

theorem mem_childrenOf_iff {location : Location} {name : String} {entry : Entry} :
    (name, entry) ∈ disk.childrenOf location ↔ disk.get? (location ++ [name]) = some entry := by
  have hne : location ++ [name] ≠ [] := by simp
  unfold childrenOf
  simp only [List.mem_filterMap, childOf?_eq_some, exists_eq_right]
  exact ⟨fun hmem => h.get?_of_mem hmem hne, fun hget => mem_entries_of_get? hget hne⟩

/-- The names in a directory are different. -/
theorem pairwise_childrenOf (location : Location) :
    (disk.childrenOf location).Pairwise fun a b => a.1 ≠ b.1 := by
  have honce : disk.entries.Pairwise fun e f => e.1 ≠ f.1 := List.pairwise_map.mp h.once
  unfold childrenOf
  rw [List.pairwise_filterMap]
  refine honce.imp fun {e f} hne a ha b hb heq => hne ?_
  rw [childOf?_eq_some.mp ha, childOf?_eq_some.mp hb, heq]

end IsTree

end Disk

namespace Discovery

/-! ## Paths that are let through -/

variable {config : Config} {content : ByteArray}

theorem ne_nil_of_takes {names : List String} (h : takes config names content = true) :
    names ≠ [] := by
  rintro rfl
  cases h

theorem takes_concat {names : List String} {name : String} :
    takes config (names ++ [name]) content =
      (names.all (entersDirectory config) && takesFile config name content.size) := by
  rw [takes, List.getLast?_concat, List.dropLast_concat]

theorem takes_singleton {name : String} :
    takes config [name] content = takesFile config name content.size := by
  rw [← List.nil_append [name], takes_concat]
  rfl

theorem takes_cons {name : String} {names : List String} (hne : names ≠ []) :
    takes config (name :: names) content =
      (entersDirectory config name && takes config names content) := by
  obtain ⟨front, last, rfl⟩ := (List.eq_nil_or_concat' names).resolve_left hne
  rw [← List.cons_append, takes_concat, takes_concat, List.all_cons, Bool.and_assoc]

/-! ## Going down -/

/-- The files that a child of a directory comes to: itself, or those that are come to from it. -/
def fromChild (config : Config) (down : Location → String → List String) (location : Location)
    (path : String) : String × Disk.Entry → List String
  | (name, .file content) =>
    if takesFile config name content.size then [Path.join path name] else []
  | (name, .directory) =>
    if entersDirectory config name then down (location ++ [name]) (Path.join path name) else []
  | (_, .link _) => []

/-- The files that are come to from a directory, as many levels down as are given. -/
def descend (disk : Disk) (config : Config) : Nat → Location → String → List String
  | 0, _, _ => []
  | levels + 1, location, path =>
    (disk.childrenOf location).flatMap
      (fromChild config (descend disk config levels) location path)

theorem mem_fromChild {down : Location → String → List String} {location : Location}
    {above path name : String} {entry : Disk.Entry} :
    path ∈ fromChild config down location above (name, entry) ↔
      (∃ content, entry = .file content ∧ takesFile config name content.size = true ∧
        path = Path.join above name) ∨
      entry = .directory ∧ entersDirectory config name = true ∧
        path ∈ down (location ++ [name]) (Path.join above name) := by
  cases entry with
  | file content => simp [fromChild]
  | directory => simp [fromChild]
  | link target => simp [fromChild]

section

variable {disk : Disk} (htree : disk.IsTree)
include htree

theorem mem_descend {levels : Nat} {location : Location} {above path : String} :
    path ∈ descend disk config levels location above ↔ ∃ names content, names.length ≤ levels ∧
      path = pathBelow above names ∧ disk.get? (location ++ names) = some (.file content) ∧
        takes config names content = true := by
  induction levels generalizing location above with
  | zero =>
    constructor
    · nofun
    · rintro ⟨names, content, hlength, -, -, htakes⟩
      exact absurd (List.length_eq_zero_iff.mp (Nat.le_zero.mp hlength)) (ne_nil_of_takes htakes)
  | succ levels ih =>
    rw [descend, List.mem_flatMap]
    constructor
    · rintro ⟨⟨name, entry⟩, hchild, hpath⟩
      rw [htree.mem_childrenOf_iff] at hchild
      obtain ⟨content, rfl, htakes, rfl⟩ | ⟨rfl, henters, hpath⟩ := mem_fromChild.mp hpath
      · exact ⟨[name], content, Nat.succ_le_succ (Nat.zero_le _), rfl, hchild,
          takes_singleton.trans htakes⟩
      · obtain ⟨names, content, hlength, rfl, hget, htakes⟩ := ih.mp hpath
        have hne := ne_nil_of_takes htakes
        refine ⟨name :: names, content, Nat.succ_le_succ hlength, rfl, ?_, ?_⟩
        · rw [List.append_cons, hget]
        · rw [takes_cons hne, henters, htakes]
          rfl
    · rintro ⟨names, content, hlength, rfl, hget, htakes⟩
      cases names with
      | nil => exact absurd rfl (ne_nil_of_takes htakes)
      | cons name names =>
        by_cases hne : names = []
        · subst hne
          rw [takes_singleton] at htakes
          exact ⟨(name, .file content), htree.mem_childrenOf_iff.mpr hget,
            mem_fromChild.mpr (.inl ⟨content, rfl, htakes, rfl⟩)⟩
        · rw [takes_cons hne, Bool.and_eq_true] at htakes
          rw [List.append_cons] at hget
          -- What stands further down stands below a directory.
          have hdirectory := htree.directory_of_prefix hget (List.prefix_append _ _)
            (by simpa using Ne.symm hne)
          have hpath := ih.mpr
            ⟨names, content, Nat.le_of_succ_le_succ hlength, rfl, hget, htakes.2⟩
          exact ⟨(name, .directory), htree.mem_childrenOf_iff.mpr hdirectory,
            mem_fromChild.mpr (.inr ⟨rfl, htakes.1, hpath⟩)⟩

/-- A child comes to files that go by its name. -/
theorem exists_of_mem_fromChild {levels : Nat} {location : Location} {above path name : String}
    {entry : Disk.Entry} (hchild : (name, entry) ∈ disk.childrenOf location)
    (hpath : path ∈ fromChild config (descend disk config levels) location above (name, entry)) :
    ∃ names, path = pathBelow above (name :: names) ∧ ∀ n ∈ name :: names, IsName n := by
  rw [htree.mem_childrenOf_iff] at hchild
  have hname := htree.named_of_get? hchild name (List.mem_append_right _ List.mem_cons_self)
  obtain ⟨content, rfl, -, rfl⟩ | ⟨rfl, -, hpath⟩ := mem_fromChild.mp hpath
  · exact ⟨[], rfl, List.forall_mem_singleton.mpr hname⟩
  · obtain ⟨names, content, -, rfl, hget, -⟩ := (mem_descend htree).mp hpath
    exact ⟨names, rfl, List.forall_mem_cons.mpr
      ⟨hname, fun n hn => htree.named_of_get? hget n (List.mem_append_right _ hn)⟩⟩

/-- No file is come to twice. -/
theorem nodup_descend (levels : Nat) (location : Location) {above : String} (habove : above ≠ "") :
    (descend disk config levels location above).Nodup := by
  induction levels generalizing location above with
  | zero => exact List.nodup_nil
  | succ levels ih =>
    rw [descend, List.nodup_flatMap]
    constructor
    · rintro ⟨name, entry⟩ hchild
      rw [htree.mem_childrenOf_iff] at hchild
      have hname := htree.named_of_get? hchild name (List.mem_append_right _ List.mem_cons_self)
      cases entry with
      | file content =>
        rw [fromChild]
        split
        · exact List.nodup_singleton _
        · exact List.nodup_nil
      | directory =>
        rw [fromChild]
        split
        · exact ih _ (Path.join_ne_empty habove hname)
        · exact List.nodup_nil
      | link target => exact List.nodup_nil
    -- Paths from different children differ in the name of the child.
    · refine (htree.pairwise_childrenOf location).imp_of_mem
        fun {a b} ha hb hne path hpath hpath' => hne ?_
      obtain ⟨names, rfl, hnames⟩ := exists_of_mem_fromChild htree ha hpath
      obtain ⟨names', heq, hnames'⟩ := exists_of_mem_fromChild htree hb hpath'
      have hsame := Path.eq_of_compare_pathBelow habove hnames hnames' (heq ▸ Path.compare_self _)
      exact (List.cons.inj hsame).1

end

/-! ## The files that are found -/

theorem fileOf?_eq_some {config : Config} {root path : String} {base : Location}
    {e : Location × Disk.Entry} : fileOf? config root base e = some path ↔
      ∃ names content, e = (base ++ names, .file content) ∧ takes config names content = true ∧
        path = pathBelow root names := by
  obtain ⟨location, entry⟩ := e
  constructor
  · intro h
    unfold fileOf? at h
    split at h
    · rename_i place content hentry
      obtain ⟨rfl, rfl⟩ := Prod.mk.inj hentry
      dsimp only at h
      split at h
      · rename_i htaken
        obtain ⟨hunder, htakes⟩ := Bool.and_eq_true_iff.mp htaken
        obtain ⟨names, rfl⟩ := List.isPrefixOf_iff_prefix.mp hunder
        rw [List.drop_left] at htakes h
        exact ⟨names, content, rfl, htakes, (Option.some.inj h).symm⟩
      · cases h
    · cases h
  · rintro ⟨names, content, heq, htakes, rfl⟩
    obtain ⟨rfl, rfl⟩ := Prod.mk.inj heq
    have hunder : base.isPrefixOf (base ++ names) = true :=
      List.isPrefixOf_iff_prefix.mpr (List.prefix_append _ _)
    unfold fileOf?
    dsimp only
    rw [List.drop_left, hunder, htakes]
    rfl

theorem files_of_leadsTo {disk : Disk} {root : String} {base : Location}
    (hroot : disk.LeadsTo root base) (config : Config) :
    files disk config root = .ok (disk.entries.filterMap (fileOf? config root base)) := by
  unfold files
  rw [hroot]

section

variable {disk : Disk} {root : String} {base : Location} {paths : List String}
  (htree : disk.IsTree) (hroot : disk.LeadsTo root base)
  (hfiles : files disk config root = .ok paths)
include htree hroot hfiles

theorem mem_files_iff {path : String} : path ∈ paths ↔ ∃ names content,
    path = pathBelow root names ∧ disk.get? (base ++ names) = some (.file content) ∧
      takes config names content = true := by
  obtain rfl := Except.ok.inj ((files_of_leadsTo hroot config).symm.trans hfiles)
  rw [List.mem_filterMap]
  constructor
  · rintro ⟨e, hmem, hfile⟩
    obtain ⟨names, content, rfl, htakes, rfl⟩ := fileOf?_eq_some.mp hfile
    have hne := ne_nil_of_takes htakes
    exact ⟨names, content, rfl, htree.get?_of_mem hmem (by simp [hne]), htakes⟩
  · rintro ⟨names, content, rfl, hget, htakes⟩
    exact ⟨_, Disk.mem_entries_of_get? hget (Disk.ne_nil_of_get? hget),
      fileOf?_eq_some.mpr ⟨names, content, rfl, htakes, rfl⟩⟩

/-- The files have different paths, however these are written. -/
theorem pairwise_files : paths.Pairwise fun a b => ¬Path.same a b := by
  obtain rfl := Except.ok.inj ((files_of_leadsTo hroot config).symm.trans hfiles)
  obtain ⟨hempty, -⟩ := Disk.walk_of_resolve hroot
  have honce : disk.entries.Pairwise fun e f => e.1 ≠ f.1 := List.pairwise_map.mp htree.once
  rw [List.pairwise_filterMap]
  refine honce.imp_of_mem fun {e f} he hf hne path hpath path' hpath' hsame => hne ?_
  obtain ⟨names, content, rfl, -, rfl⟩ := fileOf?_eq_some.mp hpath
  obtain ⟨names', content', rfl, -, rfl⟩ := fileOf?_eq_some.mp hpath'
  have hnames := fun n hn => htree.named _ he n (List.mem_append_right base hn)
  have hnames' := fun n hn => htree.named _ hf n (List.mem_append_right base hn)
  have heq :=
    Path.eq_of_compare_pathBelow hempty hnames hnames' (Path.compare_eq_iff_same.mpr hsame)
  exact congrArg (base ++ ·) heq

theorem nodup_files : paths.Nodup := by
  refine (pairwise_files htree hroot hfiles).imp ?_
  rintro a b hsame rfl
  exact hsame (Path.compare_eq_iff_same.mp (Path.compare_self a))

/-- What is found is what is come to, if there are levels enough. -/
theorem perm_descend {levels : Nat} (hlevels : disk.depth ≤ levels) :
    paths.Perm (descend disk config levels base root) := by
  obtain ⟨hempty, -⟩ := Disk.walk_of_resolve hroot
  rw [List.perm_ext_iff_of_nodup (nodup_files htree hroot hfiles)
    (nodup_descend htree levels base hempty)]
  intro path
  rw [mem_files_iff htree hroot hfiles, mem_descend htree]
  constructor
  · rintro ⟨names, content, hpath, hget, htakes⟩
    have hdepth := Disk.length_le_depth (Disk.mem_entries_of_get? hget (Disk.ne_nil_of_get? hget))
    rw [List.length_append] at hdepth
    exact ⟨names, content, by omega, hpath, hget, htakes⟩
  · rintro ⟨names, content, -, hpath, hget, htakes⟩
    exact ⟨names, content, hpath, hget, htakes⟩

end

theorem extension?_pathBelow {root name : String} {names : List String} (hroot : root ≠ "")
    (hnames : ∀ n ∈ names ++ [name], IsName n) :
    Path.extension? (pathBelow root (names ++ [name])) = Path.extension? name := by
  have hname := hnames name (List.mem_append_right _ List.mem_cons_self)
  unfold Path.extension? Path.fileName?
  rw [Path.components_pathBelow hroot hnames, Path.components_name hname, List.map_append,
    ← List.append_assoc]
  simp

/-- The conditions of directories and files, along a whole path. -/
theorem takes_concat_iff {names : List String} {name : String} :
    takes config (names ++ [name]) content = true ↔
      config.takesExtension ((Path.extension? name).getD "") = true ∧
        content.size ≤ config.maxFileBytes ∧ (∀ n ∈ names ++ [name], n ∉ config.ignoredNames) ∧
        ∀ n ∈ names, n.toList.head? ≠ some '.' := by
  rw [takes_concat, Bool.and_eq_true, List.all_eq_true]
  simp only [entersDirectory, takesFile, Config.passesOver, Bool.and_eq_true, Bool.not_eq_true',
    List.contains_eq_mem, decide_eq_false_iff_not, decide_eq_true_eq, List.forall_mem_append,
    List.forall_mem_singleton, forall_and]
  constructor
  · rintro ⟨⟨hignored, hhidden⟩, ⟨hname, hextension⟩, hsize⟩
    exact ⟨hextension, hsize, ⟨hignored, hname⟩, hhidden⟩
  · rintro ⟨hextension, hsize, ⟨hignored, hname⟩, hhidden⟩
    exact ⟨⟨hignored, hhidden⟩, ⟨hname, hextension⟩, hsize⟩

/-- Below a directory that is there, the files are found that the settings allow, each once: those
with an accepted extension that are not too large, whose own name and whose directories' names are
not ignored, and whose directories are not hidden. They are the files that are come to by going down
from the root through directories that are looked into. -/
theorem files_are_the_allowed_ones {disk : Disk} {root : String} {base : Location}
    (htree : disk.IsTree) (hroot : disk.LeadsTo root base) (config : Config) :
    ∃ paths, files disk config root = .ok paths ∧ paths.Nodup ∧
      (∀ levels, disk.depth ≤ levels → paths.Perm (descend disk config levels base root)) ∧
      ∀ path, path ∈ paths ↔ ∃ names name content, path = pathBelow root (names ++ [name]) ∧
        disk.get? (base ++ (names ++ [name])) = some (.file content) ∧
        config.takesExtension ((Path.extension? path).getD "") = true ∧
        content.size ≤ config.maxFileBytes ∧ (∀ n ∈ names ++ [name], n ∉ config.ignoredNames) ∧
        ∀ n ∈ names, n.toList.head? ≠ some '.' := by
  have hfiles := files_of_leadsTo hroot config
  obtain ⟨hempty, -⟩ := Disk.walk_of_resolve hroot
  refine ⟨_, hfiles, nodup_files htree hroot hfiles,
    fun levels hlevels => perm_descend htree hroot hfiles hlevels, fun path => ?_⟩
  have hextension {names : List String} {name : String} {content : ByteArray}
      (hget : disk.get? (base ++ (names ++ [name])) = some (.file content)) :=
    extension?_pathBelow hempty fun n hn => htree.named_of_get? hget n (List.mem_append_right _ hn)
  rw [mem_files_iff htree hroot hfiles]
  constructor
  · rintro ⟨names, content, rfl, hget, htakes⟩
    have hne := ne_nil_of_takes htakes
    obtain ⟨front, name, rfl⟩ := (List.eq_nil_or_concat' names).resolve_left hne
    rw [hextension hget]
    exact ⟨front, name, content, rfl, hget, takes_concat_iff.mp htakes⟩
  · rintro ⟨names, name, content, rfl, hget, hallowed⟩
    rw [hextension hget] at hallowed
    exact ⟨names ++ [name], content, rfl, hget, takes_concat_iff.mpr hallowed⟩

/-- A project in a hidden directory, with a hidden page in it and a page in a hidden directory. -/
def hiddenPages : Disk :=
  { entries := [([".site"], .directory), ([".site", ".page.html"], .file ByteArray.empty),
      ([".site", ".cache"], .directory),
      ([".site", ".cache", "page.html"], .file ByteArray.empty)] }

/-- Only the directories below the root may not be hidden. -/
theorem files_among_hidden_pages : hiddenPages.IsTree ∧ hiddenPages.LeadsTo "/.site" [".site"] ∧
    ∃ paths, files hiddenPages {} "/.site" = .ok paths ∧ "/.site/.page.html" ∈ paths ∧
      "/.site/.cache/page.html" ∉ paths := by
  have htree : hiddenPages.IsTree := by decide
  have hroot : hiddenPages.LeadsTo "/.site" [".site"] :=
    Disk.resolve_names (by decide) (by decide) trivial rfl nofun
  refine ⟨htree, hroot, ?_⟩
  have haccepted : ({} : Config).takesExtension
      ((Path.extension? "/.site/.page.html").getD "") = true :=
    List.any_eq_true.mpr ⟨"html", by decide, beq_of_eq (congrArg Config.asciiLower (by decide))⟩
  obtain ⟨paths, hfiles, -, -, hpaths⟩ := files_are_the_allowed_ones htree hroot {}
  refine ⟨paths, hfiles, (hpaths _).mpr ⟨[], ".page.html", ByteArray.empty, by decide, by decide,
    haccepted, by decide, by decide, nofun⟩, fun hmem => ?_⟩
  obtain ⟨names, name, content, hpath, hget, -, -, -, hhidden⟩ := (hpaths _).mp hmem
  have hnames : ∀ n ∈ names ++ [name], IsName n := fun n hn =>
    htree.named_of_get? hget n (List.mem_append_right _ hn)
  -- Only one way through the directories leads to a path.
  have hsame : [".cache", "page.html"] = names ++ [name] := by
    refine Path.eq_of_compare_pathBelow (by decide : "/.site" ≠ "") (by decide) hnames ?_
    rw [← hpath,
      show pathBelow "/.site" [".cache", "page.html"] = "/.site/.cache/page.html" by decide]
    exact Path.compare_self _
  obtain rfl : [".cache"] = names := by
    have hfront := congrArg List.dropLast hsame
    rwa [List.dropLast_concat] at hfront
  exact hhidden ".cache" List.mem_cons_self (by decide)

end Discovery

end Rephrase
