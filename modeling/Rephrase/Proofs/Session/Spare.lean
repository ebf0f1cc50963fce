import Rephrase.Proofs.Session.Effect

/-! A session leaves the files of its project alone, except for the list of ignored files. -/

namespace Rephrase

open Disk (Action KeepsTo Location)
open Discovery (pathBelow)

namespace Session

/-- Names below a project's root that are neither those of the list of ignored files nor lead into
the session's directory. -/
structure IsProject (names : List String) : Prop where
  unlisted : names ≠ [".gitignore"]
  outside : ∀ name rest, names ≠ directoryName :: name :: rest

theorem IsProject.of_isOwn {names : List String} (h : IsProject names) (hown : IsOwn names) :
    names = [directoryName] := by
  cases hown with
  | ignoreList => exact absurd rfl h.unlisted
  | inside rest =>
    cases rest with
    | nil => rfl
    | cons name rest => exact absurd rfl (h.outside name rest)

/-- A disk where a session has changed its part only, and a file still has its content. -/
structure Spares (base : Location) (before : Disk) (location : Location) (content : ByteArray)
    (disk : Disk) : Prop where
  keeps : KeepsTo (Own base) before disk
  file : disk.get? location = some (.file content)

variable {root session : String} {base location : Location} {before : Disk} {content : ByteArray}

/-- A path that leads to a file that is spared leads there still. -/
theorem Spares.resolve {disk : Disk} {old : ByteArray} (h : Spares base before location content disk)
    {path : String} (hresolve : before.resolve true path = .ok ⟨location, some (.file old)⟩) :
    disk.resolve true path = .ok ⟨location, some (.file content)⟩ := by
  have hend : ∀ entry, disk.get? location = some entry → ¬entry.IsFile →
      some (Disk.Entry.file old) = some entry :=
    fun entry hentry hnot => absurd ⟨content, Option.some.inj (hentry.symm.trans h.file)⟩ hnot
  rw [Disk.resolve_of_stands h.keeps.stands h.keeps.working hresolve hend, h.file]

/-- What is done in other places spares a file. -/
theorem admits_spares (hready : IsReady root session base before) (names : List String)
    (content : ByteArray) :
    Admits (Spares base before (base ++ names) content) root session base (· ≠ names) where
  ready := fun hdisk => hready.of_keepsTo hdisk.keeps
  put := fun hdisk hused hne hpasses hfile hentry =>
    ⟨(admits_own hready).put hdisk.keeps hused trivial hpasses hfile hentry,
      (Disk.get?_put_of_ne _ (fun heq => hne (List.append_cancel_left heq).symm) _).trans hdisk.file⟩
  erase := fun hdisk hused hne hfile =>
    ⟨(admits_own hready).erase hdisk.keeps hused trivial hfile,
      (Disk.get?_erase_of_ne _ fun heq => hne (List.append_cancel_left heq).symm).trans hdisk.file⟩

/-- What is not the session's is spared. -/
theorem holds_spares_of_keeps {α : Type} {action : Action α} (h : Keeps base before action)
    (hown : ¬Own base location) (hfile : before.get? location = some (.file content)) :
    Action.Holds (Spares base before location content) action := by
  have hspares : ∀ disk, KeepsTo (Own base) before disk → Spares base before location content disk :=
    fun disk hdisk => ⟨hdisk, (hdisk.outside location hown).trans hfile⟩
  exact h.mono (fun _ => Spares.keeps) (fun _ => hspares) (fun _ => hspares)

/-! ## A file in the place of the session's directory -/

section

variable (hready : IsReady root session base before)
include hready

/-- Nothing can be locked where there is no directory for it. -/
theorem leads_lockToWrite_blocked :
    Action.Leads (Spares base before (base ++ [directoryName]) content) (lockToWrite root)
      (fun _ _ => False) (fun _ => Spares base before (base ++ [directoryName]) content) := by
  have hused : IsUsed session [directoryName, ".lock"] := .inside (by decide)
  have hmake : Action.Holds (Spares base before (base ++ [directoryName]) content)
      (Disk.makeDirectories (directory root)) := by
    refine .of_forall fun disk hdisk => ?_
    have hready' := hready.of_keepsTo hdisk.keeps
    have hentered : IsUsed session [directoryName] := .directory
    have hfound :=
      Disk.resolve_below_ne_notFound hready'.leads hentered.named hentered.ne_nil trivial
    refine (Disk.leads_makeDirectories _ disk hfound).mono (fun _ => id) (fun _ disk' => ?_)
      (fun _ disk' hsame => hsame ▸ hdisk)
    rintro (rfl | ⟨location, hresolve, -⟩)
    · exact hdisk
    · -- Where the directory would be made there is the file.
      obtain rfl : location = base ++ [directoryName] := (hready'.of_resolve .directory hresolve).1
      nomatch (Disk.get?_of_resolve hresolve).trans hdisk.file
  have hprepare : Action.Holds (Spares base before (base ++ [directoryName]) content)
      (prepare root) := by
    have hhide := (admits_spares hready [directoryName] content).holds_hide (by decide)
    unfold prepare
    refine Action.Holds.get.bind fun disk => ?_
    dsimp only
    split
    · exact hmake.bind fun _ => hhide
    · exact hhide
  unfold lockToWrite
  refine Action.Leads.bind hprepare fun _ => .of_forall fun disk hdisk => ?_
  refine (Disk.leads_touch _ disk).mono (fun _ => id) (fun _ disk' hwritten => ?_)
    (fun _ disk' hsame => hsame ▸ hdisk)
  obtain ⟨location, old, new, hwritable, -⟩ := hwritten
  obtain ⟨entry, hresolve, -⟩ := Disk.of_writable hwritable
  obtain ⟨-, hdirectory, -⟩ := (hready.of_keepsTo hdisk.keeps).of_resolve hused hresolve
  nomatch hdirectory.symm.trans hdisk.file

theorem holds_blocked {α : Type} (f : Unit → Action α) :
    Action.Holds (Spares base before (base ++ [directoryName]) content)
      (lockToWrite root >>= f) :=
  (leads_lockToWrite_blocked hready).bind fun _ => ⟨fun _ hnever => hnever.elim⟩

end

/-! ## Files of the project -/

section

variable {names : List String} (hready : IsReady root session base before)
  (hproject : IsProject names) (hfile : before.get? (base ++ names) = some (.file content))
include hready hproject hfile

/-- Whatever begins with a lock spares the project's files. -/
theorem holds_spares {α : Type} {f : Unit → Action α}
    (hkeeps : Keeps base before (lockToWrite root >>= f)) :
    Action.Holds (Spares base before (base ++ names) content) (lockToWrite root >>= f) := by
  by_cases hown : Own base (base ++ names)
  · obtain ⟨names', hown, heq⟩ := hown
    obtain rfl := List.append_cancel_left heq
    obtain rfl := hproject.of_isOwn hown
    exact holds_blocked hready f
  · exact holds_spares_of_keeps hkeeps hown hfile

theorem holds_set (now : Instant) (key : String) (value : Json) (span : Int) :
    Action.Holds (Spares base before (base ++ names) content)
      (Store.set root now key value span) :=
  holds_spares hready hproject hfile (Store.keeps_set hready now key value span)

theorem holds_append (record : History.Record) :
    Action.Holds (Spares base before (base ++ names) content)
      (History.append root session record) :=
  holds_spares hready hproject hfile (History.keeps_append hready record)

end

end Session

end Rephrase
