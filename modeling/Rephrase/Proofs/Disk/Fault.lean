import Rephrase.Proofs.Disk.Effect

/-! What a disk cannot do it refuses: an operation only ends in a fault if a computation in it
does. -/

namespace Rephrase.Disk

variable {α β : Type}

/-- Whether an operation that ends in a fault ends in one of some faults. -/
def Action.FaultsBy (faults : Fault → Prop) (action : Action α) : Prop :=
  Leads (fun _ => True) action (fun _ _ => True)
    fun failure _ => ∀ fault, failure = .fault fault → faults fault

namespace Action.FaultsBy

variable {faults : Fault → Prop}

theorem pure (a : α) : FaultsBy faults (Pure.pure a : Action α) := Leads.pure fun _ => id

theorem refuse (e : Error) : FaultsBy faults (throw (.refused e) : Action α) :=
  Leads.throw fun _ _ => nofun

theorem fault {f : Fault} (h : faults f) : FaultsBy faults (throw (.fault f) : Action α) :=
  Leads.throw fun _ _ _ heq => Failure.fault.inj heq ▸ h

theorem bind {action : Action α} {f : α → Action β} (h : FaultsBy faults action)
    (hf : ∀ a, FaultsBy faults (f a)) : FaultsBy faults (action >>= f) := Leads.bind h hf

theorem get : FaultsBy faults (MonadState.get : Action Disk) :=
  .of_forall fun disk _ => .done (run_get disk) trivial

theorem set (disk : Disk) : FaultsBy faults (MonadState.set disk : Action PUnit) :=
  .of_forall fun before _ => .done (run_set before disk) trivial

theorem change (f : Disk → Disk) : FaultsBy faults (modify f : Action PUnit) :=
  .of_forall fun disk _ => .done (run_modify f disk) trivial

theorem look (f : Disk → Except Error α) : FaultsBy faults (Action.look f) := by
  refine get.bind fun disk => ?_
  cases f disk with
  | ok a => exact .pure a
  | error e => exact .refuse e

theorem compute {r : Except Fault α} (h : ∀ fault, r = .error fault → faults fault) :
    FaultsBy faults (Action.compute r) := by
  cases r with
  | ok a => exact .pure a
  | error f => exact .fault (h f rfl)

/-- What goes on from an attempt has to be able to go on from its faults, and from those alone. -/
theorem leads_attempt_bind {action : Action α} {f : Except Failure α → Action β}
    {post : β → Disk → Prop} {fail : Failure → Disk → Prop} (h : FaultsBy faults action)
    (hok : ∀ a, Leads (fun _ => True) (f (.ok a)) post fail)
    (hrefused : ∀ e, Leads (fun _ => True) (f (.error (.refused e))) post fail)
    (hfault : ∀ fault, faults fault → Leads (fun _ => True) (f (.error (.fault fault))) post fail) :
    Leads (fun _ => True) (action.attempt >>= f) post fail := by
  refine Leads.bind (Leads.attempt h) fun result => .of_forall fun disk hdisk => ?_
  match result, hdisk with
  | .ok a, _ => exact (hok a).mono (fun _ _ => trivial) (fun _ _ => id) (fun _ _ => id)
  | .error (.refused e), _ =>
    exact (hrefused e).mono (fun _ _ => trivial) (fun _ _ => id) (fun _ _ => id)
  | .error (.fault f), hf =>
    exact (hfault f (hf f rfl)).mono (fun _ _ => trivial) (fun _ _ => id) (fun _ _ => id)

theorem attempt_bind {action : Action α} {f : Except Failure α → Action β}
    (h : FaultsBy faults action) (hok : ∀ a, FaultsBy faults (f (.ok a)))
    (hrefused : ∀ e, FaultsBy faults (f (.error (.refused e))))
    (hfault : ∀ fault, faults fault → FaultsBy faults (f (.error (.fault fault)))) :
    FaultsBy faults (action.attempt >>= f) := h.leads_attempt_bind hok hrefused hfault

end Action.FaultsBy

/-- Whether an operation comes to a result or ends in one of some faults, so that the disk never has
the last word. -/
def Action.OnlyFaultsBy (faults : Fault → Prop) (action : Action α) : Prop :=
  Leads (fun _ => True) action (fun _ _ => True)
    fun failure _ => ∃ fault, failure = .fault fault ∧ faults fault

namespace Action.OnlyFaultsBy

variable {faults : Fault → Prop}

theorem of_run {action : Action α} (h : OnlyFaultsBy faults action) {disk disk' : Disk}
    {failure : Failure} (hrun : action.run.run disk = (.error failure, disk')) :
    ∃ fault, failure = .fault fault ∧ faults fault := by
  have hdisk := h.outcome disk trivial
  rwa [hrun] at hdisk

theorem pure (a : α) : OnlyFaultsBy faults (Pure.pure a : Action α) := Leads.pure fun _ => id

theorem fault {f : Fault} (h : faults f) : OnlyFaultsBy faults (throw (.fault f) : Action α) :=
  Leads.throw fun _ _ => ⟨f, rfl, h⟩

theorem bind {action : Action α} {f : α → Action β} (h : OnlyFaultsBy faults action)
    (hf : ∀ a, OnlyFaultsBy faults (f a)) : OnlyFaultsBy faults (action >>= f) := Leads.bind h hf

theorem get : OnlyFaultsBy faults (MonadState.get : Action Disk) :=
  .of_forall fun disk _ => .done (run_get disk) trivial

/-- A computation's result is handed on, with what it is the result of. -/
theorem compute_bind {r : Except Fault α} {f : α → Action β}
    (h : ∀ fault, r = .error fault → faults fault)
    (hf : ∀ a, r = .ok a → OnlyFaultsBy faults (f a)) :
    OnlyFaultsBy faults (Action.compute r >>= f) := by
  refine .of_forall fun disk _ => ?_
  cases r with
  | ok a =>
    refine .step (run_compute rfl disk) ?_
    exact (hf a rfl).mono (fun _ _ => trivial) (fun _ _ => id) (fun _ _ => id)
  | error e => exact .stop rfl ⟨e, rfl, h e rfl⟩

theorem attempt_bind {action : Action α} {f : Except Failure α → Action β}
    (h : Action.FaultsBy faults action) (hok : ∀ a, OnlyFaultsBy faults (f (.ok a)))
    (hrefused : ∀ e, OnlyFaultsBy faults (f (.error (.refused e))))
    (hfault : ∀ fault, faults fault → OnlyFaultsBy faults (f (.error (.fault fault)))) :
    OnlyFaultsBy faults (action.attempt >>= f) := h.leads_attempt_bind hok hrefused hfault

end Action.OnlyFaultsBy

/-! ## Files -/

variable {faults : Fault → Prop}

theorem faultsBy_fill (location : Location) (before added : ByteArray) :
    Action.FaultsBy faults (fill location before added) := by
  unfold fill
  refine .bind .get fun disk => ?_
  dsimp only
  split
  · exact .set _
  · refine .bind (.set _) fun _ => ?_
    split
    · exact .refuse _
    · exact .pure _

theorem faultsBy_writeText (path text : String) :
    Action.FaultsBy faults (writeText path text) :=
  .bind (.look _) fun _ => .bind (.change _) fun _ => faultsBy_fill _ _ _

theorem faultsBy_appendText (path text : String) :
    Action.FaultsBy faults (appendText path text) :=
  .bind (.look _) fun _ => .bind (.change _) fun _ => faultsBy_fill _ _ _

theorem faultsBy_touch (path : String) : Action.FaultsBy faults (touch path) :=
  .bind (.look _) fun _ => .change _

theorem faultsBy_remove (path : String) : Action.FaultsBy faults (remove path) := by
  unfold remove
  refine .bind (.look _) fun place => ?_
  split
  · exact .refuse _
  · exact .refuse _
  · exact .change _

theorem faultsBy_rename (source target : String) :
    Action.FaultsBy faults (rename source target) := by
  unfold rename
  refine .bind (.look _) fun old => .bind (.look _) fun new => ?_
  split
  · exact .refuse _
  · exact .change _
  · exact .refuse _
  · exact .refuse _
  · exact .refuse _
  · exact .change _

theorem faultsBy_replaceText (path passing text : String) :
    Action.FaultsBy faults (replaceText path passing text) := by
  unfold replaceText
  refine .bind (faultsBy_writeText passing text) fun _ =>
    .attempt_bind (faultsBy_rename passing path) (fun _ => .pure _) (fun e => ?_) fun f hf => ?_
  all_goals refine .attempt_bind (faultsBy_remove passing) (fun _ => ?_) (fun _ => ?_) fun _ _ => ?_
  all_goals first
    | exact .refuse e
    | exact .fault hf

/-! ## Directories -/

theorem faultsBy_makeDirectory (path : String) :
    Action.FaultsBy faults (makeDirectory path) := by
  unfold makeDirectory
  refine .bind (.look _) fun place => ?_
  split
  · exact .refuse _
  · exact .change _

/-- A directory that cannot be made may be there already. -/
theorem faultsBy_present (path : String) {failure : Failure}
    (h : ∀ f, failure = .fault f → faults f) :
    Action.FaultsBy faults (do
      if (← MonadState.get).isDirectory path then return else throw failure : Action Unit) := by
  refine .bind .get fun disk => ?_
  split
  · exact .pure _
  · exact .throw fun _ _ => h

theorem faultsBy_makeDirectoriesFrom (fuel : Nat) (path : String) :
    Action.FaultsBy faults (makeDirectoriesFrom fuel path) := by
  induction fuel generalizing path with
  | zero => exact .refuse _
  | succ fuel ih =>
    unfold makeDirectoriesFrom
    split
    · exact .pure _
    refine .attempt_bind (faultsBy_makeDirectory path) (fun _ => .pure _) (fun e => ?_)
      fun f hf => faultsBy_present _ fun _ heq => Failure.fault.inj heq ▸ hf
    split
    · exact .pure _
    · split
      · exact .refuse _
      -- It is tried once more when the directories above it have been made.
      · refine .bind (ih _) fun _ => .attempt_bind (faultsBy_makeDirectory path)
          (fun _ => .pure _) (fun _ => faultsBy_present _ fun _ heq => Failure.noConfusion heq)
          fun f hf => faultsBy_present _ fun _ heq => Failure.fault.inj heq ▸ hf
    · rename_i failure _ _ heq
      cases heq
      exact faultsBy_present _ fun _ heq => Failure.noConfusion heq

theorem faultsBy_makeDirectories (path : String) :
    Action.FaultsBy faults (makeDirectories path) :=
  faultsBy_makeDirectoriesFrom _ _

end Rephrase.Disk
