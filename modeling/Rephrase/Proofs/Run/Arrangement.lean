import Mathlib.Data.List.Pairwise
import Rephrase.Batch
import Rephrase.Run.Search
import Rephrase.Proofs.Disk.Descent
import Rephrase.Proofs.Node.Origin
import Rephrase.Proofs.Path

/-! What a run finds does not depend on the order in which the directories are listed: the
candidates are in the order of their paths, and no two of them have one path. -/

namespace Rephrase

instance : Std.Symm fun a b : String => ¬Path.same a b = true where
  symm a b h hsame := h (by rwa [Path.same, beq_iff_eq, eq_comm, ← beq_iff_eq])

/-! ## Candidates -/

namespace Candidate

variable {disk : Disk} {config : Config} {phrase : List Char} {root : String}

theorem notAfter_iff {a b : Candidate} :
    notAfter a b = true ↔ (Path.compare a.file b.file).isLE = true := by
  rw [notAfter, decide_eq_true_eq, Ordering.isLE_iff_ne_gt]

theorem notAfter_trans (a b c : Candidate) (hab : notAfter a b = true)
    (hbc : notAfter b c = true) : notAfter a c = true := by
  rw [notAfter_iff] at hab hbc ⊢
  exact Std.TransCmp.isLE_trans hab hbc

theorem notAfter_total (a b : Candidate) : (notAfter a b || notAfter b a) = true := by
  have hswap : Path.compare a.file b.file = (Path.compare b.file a.file).swap :=
    Std.OrientedCmp.eq_swap
  rw [Bool.or_eq_true, notAfter_iff, notAfter_iff, hswap]
  cases Path.compare b.file a.file <;> simp

theorem notAfter_antisymm {a b : Candidate} (hab : notAfter a b = true)
    (hba : notAfter b a = true) : Path.compare a.file b.file = .eq := by
  rw [notAfter_iff] at hab hba
  exact Std.OrientedCmp.isLE_antisymm hab hba

theorem of_ofFile? {location : String} {c : Candidate}
    (h : ofFile? disk config phrase root location = some c) :
    c.location = location ∧ c.file = (Path.below? root location).getD location ∧
      location ≠ "" := by
  unfold ofFile? at h
  split at h
  · rename_i text htext
    obtain ⟨grade, -, rfl⟩ := Option.map_eq_some_iff.mp h
    refine ⟨rfl, rfl, ?_⟩
    rintro rfl
    have hempty : disk.textAt "" = .error .notFound := rfl
    rw [hempty] at htext
    cases htext
  · cases h

/-- Among different files below the root, a candidate's path tells it from all others. -/
theorem eq_of_compare_file {files : List String}
    (hunder : ∀ f ∈ files, (Path.below? root f).isSome = true)
    (hdistinct : files.Pairwise fun a b => ¬Path.same a b = true)
    {a b : Candidate} (ha : a ∈ files.filterMap (ofFile? disk config phrase root))
    (hb : b ∈ files.filterMap (ofFile? disk config phrase root))
    (h : Path.compare a.file b.file = .eq) : a = b := by
  obtain ⟨f, hf, hfa⟩ := List.mem_filterMap.mp ha
  obtain ⟨g, hg, hgb⟩ := List.mem_filterMap.mp hb
  obtain ⟨-, hfile, hne⟩ := of_ofFile? hfa
  obtain ⟨-, hfile', hne'⟩ := of_ofFile? hgb
  obtain ⟨rest, hrest⟩ := Option.isSome_iff_exists.mp (hunder f hf)
  obtain ⟨rest', hrest'⟩ := Option.isSome_iff_exists.mp (hunder g hg)
  rw [hfile, hfile', hrest, hrest'] at h
  have hsame := Path.same_of_below? hne hne' hrest hrest' (Path.eq_of_compareComponents h)
  have hfg : f = g := by
    refine Classical.byContradiction fun hne => ?_
    exact hdistinct.forall hf hg hne hsame
  subst hfg
  exact Option.some.inj (hfa.symm.trans hgb)

/-- The order of the files does not matter. -/
theorem among_of_perm {files files' : List String} (hperm : files.Perm files')
    (hunder : ∀ f ∈ files, (Path.below? root f).isSome = true)
    (hdistinct : files.Pairwise fun a b => ¬Path.same a b = true) :
    among disk config phrase root files = among disk config phrase root files' := by
  have hfound : (files.filterMap (ofFile? disk config phrase root)).Perm
      (files'.filterMap (ofFile? disk config phrase root)) := hperm.filterMap _
  -- Both are in order, and no two candidates have one place in it.
  refine List.Perm.eq_of_pairwise (fun a b ha hb hab hba => ?_)
    (List.pairwise_mergeSort notAfter_trans notAfter_total _)
    (List.pairwise_mergeSort notAfter_trans notAfter_total _)
    ((List.mergeSort_perm _ _).trans (hfound.trans (List.mergeSort_perm _ _).symm))
  exact eq_of_compare_file hunder hdistinct (List.mem_mergeSort.mp ha)
    (hfound.mem_iff.mpr (List.mem_mergeSort.mp hb)) (notAfter_antisymm hab hba)

/-- From different files below the root, in whatever order they are found, come the same candidates
in the same order, and so the same nodes and the same batches. -/
theorem order_is_erased (disk : Disk) (config : Config) (phrase : List Char) (root : String)
    {files files' : List String} (hperm : files.Perm files')
    (hunder : ∀ f ∈ files, (Path.below? root f).isSome = true)
    (hdistinct : files.Pairwise fun a b => ¬Path.same a b = true) :
    among disk config phrase root files = among disk config phrase root files' ∧
      ∀ parser, allNodes disk parser config phrase (among disk config phrase root files) =
          allNodes disk parser config phrase (among disk config phrase root files') ∧
        ∀ search replacement instruction size,
          (allNodes disk parser config phrase (among disk config phrase root files)).map
              (Batch.ofNodes · search replacement instruction size) =
            (allNodes disk parser config phrase (among disk config phrase root files')).map
              (Batch.ofNodes · search replacement instruction size) := by
  have hsame : among disk config phrase root files = among disk config phrase root files' :=
    among_of_perm hperm hunder hdistinct
  rw [hsame]
  exact ⟨rfl, fun parser => ⟨rfl, fun search replacement instruction size => rfl⟩⟩

/-- Two pages that hold a phrase, listed in either order. -/
def twoPages : Disk :=
  { entries := [(["b.html"], .file "<p>Save all</p>".toUTF8),
      (["a.html"], .file "<p>Save</p>".toUTF8)] }

theorem order_erased_on_two_pages :
    ["/b.html", "/a.html"].Perm ["/a.html", "/b.html"] ∧
      among twoPages {} "save".toList "/" ["/b.html", "/a.html"] =
        among twoPages {} "save".toList "/" ["/a.html", "/b.html"] := by
  have hperm : ["/b.html", "/a.html"].Perm ["/a.html", "/b.html"] := by decide
  exact ⟨hperm, (order_is_erased twoPages {} "save".toList "/" hperm (by decide) (by decide)).1⟩

end Candidate

/-! ## Disks -/

theorem lookup_of_perm {κ α : Type} [BEq κ] [LawfulBEq κ] {xs ys : List (κ × α)} (h : xs.Perm ys)
    (honce : (xs.map Prod.fst).Nodup) (key : κ) : xs.lookup key = ys.lookup key := by
  induction h with
  | nil => rfl
  | cons e _ ih =>
    rw [List.lookup_cons, List.lookup_cons, ih (List.nodup_cons.mp honce).2]
  | swap e f rest =>
    have hne : f.1 ≠ e.1 := fun heq =>
      (List.nodup_cons.mp honce).1 (heq ▸ List.mem_cons_self)
    rw [List.lookup_cons, List.lookup_cons, List.lookup_cons, List.lookup_cons]
    by_cases he : key = e.1
    · have hf : (key == f.1) = false := beq_eq_false_iff_ne.mpr (he ▸ hne.symm)
      rw [hf]
    · have he' : (key == e.1) = false := beq_eq_false_iff_ne.mpr he
      rw [he']
  | trans h _ ih ih' => exact (ih honce).trans (ih' ((h.map Prod.fst).nodup_iff.mp honce))

namespace Disk

/-- The same disk, but for the order in which it lists its entries. -/
structure IsRearranged (disk disk' : Disk) : Prop where
  entries : disk.entries.Perm disk'.entries
  working : disk'.working = disk.working

theorem walk_of_get? {disk disk' : Disk} (h : disk'.get? = disk.get?) (follow : Bool) (links : Nat)
    (location : Location) (path : List String) :
    disk'.walk follow links location path = disk.walk follow links location path := by
  induction links generalizing location path with
  | zero =>
    induction path generalizing location with
    | nil => rw [walk, walk, h]
    | cons step rest ih =>
      rw [walk, walk, h]
      simp only [ih]
  | succ links ihLinks =>
    induction path generalizing location with
    | nil => rw [walk, walk, h]
    | cons step rest ih =>
      rw [walk, walk, h]
      simp only [ih, ihLinks]

namespace IsRearranged

variable {disk disk' : Disk} (h : IsRearranged disk disk') (htree : disk.IsTree)
include h htree

theorem get?_eq : disk'.get? = disk.get? := by
  funext location
  unfold get?
  rw [lookup_of_perm h.entries htree.once]

theorem isTree : disk'.IsTree := by
  refine ⟨(h.entries.map Prod.fst).nodup_iff.mp htree.once,
    fun e he => htree.named e (h.entries.mem_iff.mpr he), fun e he => ?_⟩
  rw [h.get?_eq htree]
  exact htree.above e (h.entries.mem_iff.mpr he)

theorem resolve_eq (follow : Bool) (path : String) :
    disk'.resolve follow path = disk.resolve follow path := by
  unfold resolve
  rw [h.working, walk_of_get? (h.get?_eq htree)]

theorem textAt_eq (path : String) : disk'.textAt path = disk.textAt path := by
  unfold textAt bytesAt
  rw [h.resolve_eq htree]

end IsRearranged

end Disk

namespace Discovery

theorem isSome_below?_of_files {disk : Disk} {config : Config} {root : String}
    {base : Disk.Location} {paths : List String} (htree : disk.IsTree)
    (hroot : disk.LeadsTo root base)
    (hfiles : files disk config root = .ok paths) {path : String} (hpath : path ∈ paths) :
    (Path.below? root path).isSome = true := by
  obtain ⟨hempty, -⟩ := Disk.walk_of_resolve hroot
  obtain ⟨names, content, rfl, hget, -⟩ := (mem_files_iff htree hroot hfiles).mp hpath
  rw [Path.below?_pathBelow hempty fun n hn =>
    htree.named_of_get? hget n (List.mem_append_right _ hn)]
  rfl

end Discovery

namespace Run

variable {disk disk' : Disk} (h : Disk.IsRearranged disk disk') (htree : disk.IsTree)
include h htree

theorem among_of_isRearranged (config : Config) (phrase : List Char) (root : String)
    (files : List String) :
    Candidate.among disk' config phrase root files =
      Candidate.among disk config phrase root files := by
  unfold Candidate.among Candidate.ofFile?
  simp only [h.textAt_eq htree]

theorem allNodes_of_isRearranged (parser : Parser) (config : Config) (phrase : List Char)
    (candidates : List Candidate) :
    Candidate.allNodes disk' parser config phrase candidates =
      Candidate.allNodes disk parser config phrase candidates := by
  unfold Candidate.allNodes Candidate.nodes
  simp only [h.textAt_eq htree]

theorem files_error_of_isRearranged {config : Config} {root : String} {e : Discovery.NoRoot}
    (hfiles : Discovery.files disk config root = .error e) :
    Discovery.files disk' config root = .error e := by
  unfold Discovery.files at hfiles ⊢
  rw [h.resolve_eq htree]
  cases hfound : disk.resolve true root with
  | error failure => rwa [hfound] at hfiles
  | ok place =>
    rw [hfound] at hfiles
    obtain ⟨location, entry⟩ := place
    cases entry with
    | none => exact hfiles
    | some entry =>
      cases entry with
      | directory => cases hfiles
      | file content => exact hfiles
      | link target => exact hfiles

/-- A run finds the same in whatever order the directories are listed. -/
theorem find_of_isRearranged (task : Task) (parser : Parser) :
    task.find parser disk' = task.find parser disk := by
  unfold Task.find
  dsimp only
  cases hfiles : Discovery.files disk task.config task.root with
  | error e => rw [files_error_of_isRearranged h htree hfiles]
  | ok paths =>
    obtain ⟨base, hroot⟩ := Discovery.exists_leadsTo_of_files hfiles
    have hroot' : disk'.LeadsTo task.root base := (h.resolve_eq htree true task.root).trans hroot
    have hfiles' := Discovery.files_of_leadsTo hroot' task.config
    have hpaths := Except.ok.inj (hfiles.symm.trans (Discovery.files_of_leadsTo hroot task.config))
    have hperm : paths.Perm
        (disk'.entries.filterMap (Discovery.fileOf? task.config task.root base)) := by
      rw [hpaths]
      exact h.entries.filterMap _
    -- The candidates are sorted by path, and no two files have the same one.
    have hamong : Candidate.among disk task.config task.search.toList task.root paths =
        Candidate.among disk task.config task.search.toList task.root
          (disk'.entries.filterMap (Discovery.fileOf? task.config task.root base)) :=
      Candidate.among_of_perm hperm
        (fun path => Discovery.isSome_below?_of_files htree hroot hfiles)
        (Discovery.pairwise_files htree hroot hfiles)
    rw [hfiles']
    simp only [among_of_isRearranged h htree, allNodes_of_isRearranged h htree, ← hamong,
      hperm.length_eq]

end Run

end Rephrase
