import Mathlib
import Rephrase.Proofs.Session.Open
import Rephrase.Proofs.Session.Store

/-! A store answers as a map whose entries end: what was last set under a key is found until its time
is over. -/

namespace Rephrase.Store

open Disk (Action Location)
open Json (Number)
open Session (Differs IsLockable IsSettled bareDisk directoryName lockPlaces)

/-! ## Operations -/

/-- A store without what is no longer kept, if this is to be dropped. -/
def purgeIf (purging : Bool) (store : Store) (now : Instant) : Store :=
  if purging then store.purge now else store

/-- Sets a value, and leaves open whether what is no longer kept is dropped on this occasion. -/
def put (purging : Bool) (root : String) (now : Instant) (key : String) (value : Json)
    (span : Int) : Action Unit := do
  Session.lockToWrite root
  let store := load (← MonadState.get) root
  let expires ← Action.compute (now.after span)
  save root ((store.purgeIf purging now).insert key ⟨value.normalize, expires⟩)

theorem set_eq_put (root : String) (now : Instant) (key : String) (value : Json) (span : Int) :
    set root now key value span = put true root now key value span := rfl

/-- Names of what is changed where something could not be set. -/
def passedPlaces : List (List String) := lockPlaces ++ [[directoryName, "store.tmp"]]

theorem mem_writtenPlaces {names : List String} (h : names ∈ passedPlaces) :
    names ∈ writtenPlaces :=
  List.mem_append.mpr ((List.mem_append.mp h).imp_right fun hmem => List.mem_cons_of_mem _ hmem)

/-- What is left of a disk when a store was written. -/
structure Wrote (root : String) (base : Location) (before : Disk) (store : Store) (disk : Disk) :
    Prop where
  differs : Differs base (· ∈ writtenPlaces) before disk
  directory : disk.get? (base ++ [directoryName]) = some .directory
  lockable : IsLockable root disk
  loaded : load disk root = ofText store.toText

variable {root session : String} {base : Location} {before disk : Disk}

theorem leads_save_wrote (h : IsSettled root session base before)
    (hdirectory : before.get? (base ++ [directoryName]) = some .directory)
    (hlock : IsLockable root before) (store : Store) :
    Action.Leads (· = before) (save root store) (fun _ => Wrote root base before store)
      (fun _ => Differs base (· ∈ passedPlaces) before) := by
  refine (leads_save (Session.admits_differs h.ready (· ∈ passedPlaces)) (by decide) store).mono
    (fun _ hsame => hsame.symm ▸ .refl h.tree) (fun _ disk hreplaced => ?_) (fun _ _ => id)
  obtain ⟨htext, middle, hmiddle, hpasses, hfile, rfl⟩ := hreplaced
  have hdiffers := (Session.admits_differs h.ready (· ∈ writtenPlaces)).put
    (hmiddle.mono fun _ => mem_writtenPlaces) (.inside (by decide)) (by decide) hpasses hfile
    (.inl ⟨store.toText.toUTF8, rfl⟩)
  refine ⟨hdiffers, hdiffers.keeps.stands _ _ hdirectory Disk.not_isFile_directory,
    (Session.isLockable_iff h hdiffers hdirectory).mpr hlock, ?_⟩
  unfold load
  rw [htext]

theorem Wrote.after {middle : Disk} {store : Store} (h : Wrote root base middle store disk)
    (hdiffers : Differs base (· ∈ lockPlaces) before middle) : Wrote root base before store disk :=
  ⟨(hdiffers.mono fun _ => List.mem_append_left _).trans h.differs, h.directory, h.lockable,
    h.loaded⟩

section

variable (h : IsSettled root session base before)
include h

/-- A session that was locked holds the same store. -/
theorem leads_lockToWrite :
    Action.Leads (· = before) (Session.lockToWrite root)
      (fun _ disk => Differs base (· ∈ lockPlaces) before disk ∧ load disk root = load before root ∧
        disk.get? (base ++ [directoryName]) = some .directory ∧ IsLockable root disk)
      (fun _ => Differs base (· ∈ lockPlaces) before) :=
  ((Session.admits_differs h.ready (· ∈ lockPlaces)).leads_lockToWrite fun _ => id).mono
    (fun _ hsame => hsame.symm ▸ .refl h.tree)
    (fun _ _ ⟨hdiffers, hlocked⟩ => ⟨hdiffers, load_of_differs h hdiffers (by decide), hlocked⟩)
    (fun _ _ => id)

theorem leads_put (purging : Bool) (now : Instant) (key : String) (value : Json) (span : Int) :
    Action.Leads (· = before) (put purging root now key value span)
      (fun _ disk => ∃ expires, now.after span = .ok expires ∧ Wrote root base before
        (((load before root).purgeIf purging now).insert key ⟨value.normalize, expires⟩) disk)
      (fun _ => Differs base (· ∈ passedPlaces) before) := by
  have hmore : ∀ {disk}, Differs base (· ∈ lockPlaces) before disk →
      Differs base (· ∈ passedPlaces) before disk :=
    fun hdiffers => hdiffers.mono fun _ => List.mem_append_left _
  unfold put
  refine .bind ((leads_lockToWrite h).mono (fun _ => id) (fun _ _ => id) (fun _ _ => hmore))
    fun _ => .of_forall fun disk hlocked => ?_
  obtain ⟨hdiffers, hload, hdirectory, hlock⟩ := hlocked
  refine .step (Disk.run_get disk) ?_
  rw [hload]
  cases hexpires : now.after span with
  | error fault => exact .stop rfl (hmore hdiffers)
  | ok expires =>
    refine .step (Disk.run_compute rfl disk) ?_
    refine (leads_save_wrote (h.of_differs hdiffers) hdirectory hlock _).mono (fun _ => id)
      (fun _ disk' hwrote => ⟨expires, rfl, hwrote.after hdiffers⟩)
      (fun _ disk' hlost => (hmore hdiffers).trans hlost)

theorem leads_remove (now : Instant) (key : String) :
    Action.Leads (· = before) (remove root now key)
      (fun was disk =>
        (before.holds (Session.directory root) = false ∧ was = false ∧ disk = before) ∨
        (was = (((load before root).find? key).filter (Entry.isLive now)).isSome ∧
          Wrote root base before ((load before root).erase key) disk))
      (fun _ => Differs base (· ∈ passedPlaces) before) := by
  have hmore : ∀ {disk}, Differs base (· ∈ lockPlaces) before disk →
      Differs base (· ∈ passedPlaces) before disk :=
    fun hdiffers => hdiffers.mono fun _ => List.mem_append_left _
  unfold remove
  refine .step (Disk.run_get before) ?_
  cases hholds : before.holds (Session.directory root) with
  | false => exact .done (Disk.run_pure false before) (.inl ⟨rfl, rfl, rfl⟩)
  | true =>
    refine .bind ((leads_lockToWrite h).mono (fun _ => id) (fun _ _ => id) (fun _ _ => hmore))
      fun _ => .of_forall fun disk hlocked => ?_
    obtain ⟨hdiffers, hload, hdirectory, hlock⟩ := hlocked
    refine .step (Disk.run_get disk) ?_
    rw [hload]
    refine .bind ((leads_save_wrote (h.of_differs hdiffers) hdirectory hlock _).mono (fun _ => id)
      (fun _ disk' hwrote => hwrote.after hdiffers)
      (fun _ disk' hlost => (hmore hdiffers).trans hlost)) fun _ => ?_
    exact .pure fun disk' hwrote => .inr ⟨rfl, hwrote⟩

/-- A value is looked up if the session can be locked, which always comes to an answer. -/
theorem leads_get {α : Type} (now : Instant) (key : String) (decode : Json.Decoder α) :
    Action.Leads (· = before) (get root now key decode)
      (fun found disk => (¬IsLockable root before ∧ found = none ∧ disk = before) ∨
        (IsLockable root before ∧ Differs base (· ∈ lockPlaces) before disk ∧
          found = (((load before root).find? key).filter (Entry.isLive now)).bind fun entry =>
            Json.decode? decode entry.value))
      (fun _ _ => False) := by
  unfold get
  by_cases hlock : IsLockable root before
  · obtain ⟨locked, hrun, hdiffers⟩ := hlock.exists_run h
    refine .step (Disk.run_attempt_ok hrun) (.step (Disk.run_get locked) ?_)
    rw [load_of_differs h hdiffers (by decide)]
    exact .done (Disk.run_pure _ locked) (.inr ⟨hlock, hdiffers, rfl⟩)
  · obtain ⟨failure, hrun⟩ := Session.run_lockToRead_refused hlock
    exact .step (Disk.run_attempt_error hrun)
      (.done (Disk.run_pure none before) (.inl ⟨hlock, rfl, rfl⟩))

theorem exists_run_get {α : Type} (now : Instant) (key : String) (decode : Json.Decoder α) :
    ∃ found locked, (get root now key decode).run.run before = (.ok found, locked) ∧
      (¬IsLockable root before ∧ found = none ∨
        found = (((load before root).find? key).filter (Entry.isLive now)).bind fun entry =>
          Json.decode? decode entry.value) := by
  have hget := (leads_get h now key decode).outcome before rfl
  rcases hrun : (get root now key decode).run.run before with ⟨result, locked⟩
  rw [hrun] at hget
  cases result with
  | error failure => exact hget.elim
  | ok found =>
    exact ⟨found, locked, rfl, hget.imp (fun hrefused => ⟨hrefused.1, hrefused.2.1⟩)
      fun hread => hread.2.2⟩

end

/-! ## Calls -/

inductive Call where
  | set (key : String) (value : Json) (span : Int)
  | get (key : String)
  | remove (key : String)

inductive Answer where
  | stored
  | found (value : Option Json)
  | removed (was : Bool)

/-- What a call comes to, where values may be dropped when something is set or not. -/
def Call.runWith (purging : Bool) (root : String) (now : Instant) : Call → Action Answer
  | .set key value span => do
    put purging root now key value span
    return .stored
  | .get key => do return .found (← Store.get root now key Json.Decode.any)
  | .remove key => do return .removed (← Store.remove root now key)

def Call.run (root : String) (now : Instant) : Call → Action Answer
  | .set key value span => do
    Store.set root now key value span
    return .stored
  | .get key => do return .found (← Store.get root now key Json.Decode.any)
  | .remove key => do return .removed (← Store.remove root now key)

theorem Call.run_eq_runWith (root : String) (now : Instant) (call : Call) :
    call.run root now = call.runWith true root now := by
  cases call <;> rfl

/-- Whether a call sets or removes a key. -/
def Call.writes (key : String) : Call → Bool
  | .set k _ _ | .remove k => k = key
  | .get _ => false

/-- What the last call that sets or removes a key has left under it. -/
def lastEntry (past : List (Instant × Call)) (key : String) : Option Entry :=
  match past.reverse.find? fun call => call.2.writes key with
  | some (start, .set _ value span) => some ⟨value.normalize, start.seconds + span, start.nanos⟩
  | _ => none

/-- The value under a key, if it was set last and its time is not over. -/
def kept (past : List (Instant × Call)) (now : Instant) (key : String) : Option Json :=
  ((lastEntry past key).filter (Entry.isLive now)).map Entry.value

def Call.answer (past : List (Instant × Call)) (now : Instant) : Call → Answer
  | .set _ _ _ => .stored
  | .get key => .found (kept past now key)
  | .remove key => .removed (kept past now key).isSome

/-- The answers of a map whose entries end. -/
def answers (past : List (Instant × Call)) : List (Instant × Call) → List Answer
  | [] => []
  | (now, call) :: rest => call.answer past now :: answers (past ++ [(now, call)]) rest

/-- Whether what a call sets can be kept. -/
def Call.IsPlain : Call → Prop
  | .set _ value _ => value.allNumbers Number.isWord = true ∧ value.depth ≤ valueLevels
  | _ => True

/-! ## The map -/

theorem lastEntry_concat (past : List (Instant × Call)) (now : Instant) (call : Call)
    (key : String) : lastEntry (past ++ [(now, call)]) key = if call.writes key then
      (match call with
        | .set _ value span => some ⟨value.normalize, now.seconds + span, now.nanos⟩
        | _ => none)
      else lastEntry past key := by
  unfold lastEntry
  rw [List.reverse_append, List.reverse_singleton, List.singleton_append, List.find?_cons]
  cases call.writes key with
  | false => rfl
  | true => cases call <;> rfl

/-- What has ended stays so. -/
theorem Entry.isLive_of_later {entry : Entry} {now later : Instant}
    (hlater : later.before now = false) (h : entry.isLive later = true) :
    entry.isLive now = true := by
  unfold isLive Instant.before at *
  simp only [Bool.or_eq_true, Bool.and_eq_true, decide_eq_true_eq, Bool.or_eq_false_iff,
    Bool.and_eq_false_iff, decide_eq_false_iff_not] at *
  omega

section

variable {store : Store} (h : store.IsSound) (purging : Bool) (now : Instant)
include h

theorem isSound_purgeIf : (store.purgeIf purging now).IsSound := by
  cases purging with
  | false => exact h
  | true => exact h.purge now

theorem of_find?_purgeIf {key : String} {entry : Entry}
    (hfind : (store.purgeIf purging now).find? key = some entry) : store.find? key = some entry := by
  cases purging with
  | false => exact hfind
  | true =>
    rw [purgeIf, if_pos rfl, find?_purge h.isMap, Option.filter_eq_some_iff] at hfind
    exact hfind.1

/-- What is dropped has ended, and so it has later on. -/
theorem filter_find?_purgeIf {later : Instant} (hlater : later.before now = false) (key : String) :
    ((store.purgeIf purging now).find? key).filter (Entry.isLive later) =
      (store.find? key).filter (Entry.isLive later) := by
  cases purging with
  | false => rfl
  | true =>
    rw [purgeIf, if_pos rfl, find?_purge h.isMap, Option.filter_filter]
    congr 1
    funext entry
    rw [Bool.and_eq_right_iff_imp]
    exact Entry.isLive_of_later hlater

end

/-- A disk whose store is what some calls have left, as far as one can tell from now on. -/
structure Reflects (root session : String) (base : Location) (past : List (Instant × Call))
    (disk : Disk) : Prop where
  settled : IsSettled root session base disk
  lockable : load disk root = [] ∨
    (disk.get? (base ++ [directoryName]) = some .directory ∧ IsLockable root disk)
  plain : ∀ {key entry}, (load disk root).find? key = some entry →
    entry.value.allNumbers Number.isWord = true ∧ entry.value.normalize = entry.value
  agrees : ∀ (later : Instant) (key : String), (∀ call ∈ past, later.before call.1 = false) →
    ((load disk root).find? key).filter (Entry.isLive later) =
      (lastEntry past key).filter (Entry.isLive later)

/-- A store of such values is found again as it was written. -/
theorem find?_ofText_toText_plain {store : Store} (h : store.IsSound)
    (hplain : ∀ {key entry}, store.find? key = some entry →
      entry.value.allNumbers Number.isWord = true ∧ entry.value.normalize = entry.value)
    (key : String) : (ofText store.toText).find? key = store.find? key := by
  cases hfind : store.find? key with
  | none => exact find?_ofText_toText_none h hfind
  | some entry =>
    obtain ⟨hword, hnormal⟩ := hplain hfind
    rw [find?_ofText_toText h hfind hword, hnormal]

section

variable {past past' : List (Instant × Call)} {now : Instant}

theorem Reflects.wrote (h : Reflects root session base past before) {store : Store}
    (hsound : store.IsSound) (hwrote : Wrote root base before store disk)
    (hplain : ∀ {key entry}, store.find? key = some entry →
      entry.value.allNumbers Number.isWord = true ∧ entry.value.normalize = entry.value)
    (hagrees : ∀ (later : Instant) (key : String),
      (∀ call ∈ past', later.before call.1 = false) →
        (store.find? key).filter (Entry.isLive later) =
          (lastEntry past' key).filter (Entry.isLive later)) :
    Reflects root session base past' disk := by
  have hfind := find?_ofText_toText_plain hsound hplain
  refine ⟨h.settled.of_differs hwrote.differs, .inr ⟨hwrote.directory, hwrote.lockable⟩, ?_, ?_⟩
  · intro key entry hentry
    rw [hwrote.loaded, hfind] at hentry
    exact hplain hentry
  · intro later key hlater
    rw [hwrote.loaded, hfind]
    exact hagrees later key hlater

variable (h : Reflects root session base past before)
include h

theorem Reflects.set {purging : Bool} {key : String} {value : Json} {span : Int}
    {expires : Instant} (hclock : now.nanos < 1000000000) (hplain : (Call.set key value span).IsPlain)
    (hexpires : now.after span = .ok expires)
    (hwrote : Wrote root base before
      (((load before root).purgeIf purging now).insert key ⟨value.normalize, expires⟩) disk) :
    Reflects root session base (past ++ [(now, .set key value span)]) disk := by
  have hsound := isSound_load before root
  have hword := Json.allNumbers_normalize value hplain.1
  have hentry := Entry.isSound_of_after hplain.1 hplain.2 hclock hexpires
  obtain ⟨rfl, -⟩ := Instant.of_after hexpires
  refine h.wrote ((isSound_purgeIf hsound purging now).insert hentry key) hwrote ?_ ?_
  · intro other entry hother
    rw [find?_insert] at hother
    split at hother
    · cases hother
      exact ⟨hword, Json.normalize_normalize value⟩
    · exact h.plain (of_find?_purgeIf hsound purging now hother)
  · intro later other hlater
    obtain ⟨hpast, hafter⟩ := List.forall_mem_append.mp hlater
    rw [find?_insert, lastEntry_concat]
    -- For the key the call is the last one to write it; for others it is as if it was not made.
    by_cases hother : other = key
    · subst hother
      have hwrites : (Call.set other value span).writes other = true := decide_eq_true rfl
      rw [if_pos rfl, if_pos hwrites]
    · have hwrites : (Call.set key value span).writes other ≠ true :=
        fun hwrites => hother (of_decide_eq_true hwrites).symm
      rw [if_neg hother, if_neg hwrites, ← h.agrees later other hpast]
      exact filter_find?_purgeIf hsound purging now (hafter _ (List.mem_singleton.mpr rfl)) other

theorem Reflects.remove {key : String}
    (hwrote : Wrote root base before ((load before root).erase key) disk) :
    Reflects root session base (past ++ [(now, .remove key)]) disk := by
  refine h.wrote ((isSound_load before root).erase key) hwrote ?_ ?_
  · intro other entry hother
    rw [find?_erase] at hother
    split at hother
    · cases hother
    · exact h.plain hother
  · intro later other hlater
    rw [find?_erase, lastEntry_concat]
    by_cases hother : other = key
    · subst hother
      have hwrites : (Call.remove other).writes other = true := decide_eq_true rfl
      rw [if_pos rfl, if_pos hwrites]
    · have hwrites : (Call.remove key).writes other ≠ true :=
        fun hwrites => hother (of_decide_eq_true hwrites).symm
      rw [if_neg hother, if_neg hwrites]
      exact h.agrees later other fun call hcall => hlater call (List.mem_append_left _ hcall)

/-- Nothing that was looked up or was not there makes a difference. -/
theorem Reflects.idle {call : Call} (hdiffers : Differs base (· ∈ lockPlaces) before disk)
    (hlock : load before root = [] ∨ disk.get? (base ++ [directoryName]) = some .directory ∧
      IsLockable root disk)
    (hcall : ∀ key, call.writes key = true → load before root = [] ∧ ∃ key, call = .remove key) :
    Reflects root session base (past ++ [(now, call)]) disk := by
  have hload := load_of_differs h.settled hdiffers (by decide)
  refine ⟨h.settled.of_differs hdiffers, hload.symm ▸ hlock, hload.symm ▸ h.plain, ?_⟩
  intro later key hlater
  rw [hload, lastEntry_concat]
  split
  · rename_i hwrites
    obtain ⟨hempty, removed, rfl⟩ := hcall key hwrites
    rw [hempty]
    rfl
  · exact h.agrees later key fun call hcall => hlater call (List.mem_append_left _ hcall)

variable (hnow : ∀ call ∈ past, now.before call.1 = false)
include hnow

theorem Reflects.kept_eq (key : String) : kept past now key =
    (((load before root).find? key).filter (Entry.isLive now)).map Entry.value := by
  rw [kept, h.agrees now key hnow]

/-- One call is answered as by the map, and leaves what the map holds then. -/
theorem leads_call (purging : Bool) (call : Call) (hclock : now.nanos < 1000000000)
    (hplain : call.IsPlain) :
    Action.Leads (· = before) (call.runWith purging root now)
      (fun answer disk => answer = call.answer past now ∧
        Reflects root session base (past ++ [(now, call)]) disk)
      (fun _ _ => True) := by
  cases call with
  | set key value span =>
    refine .bind ((leads_put h.settled purging now key value span).mono (fun _ => id)
      (fun _ _ => id) (fun _ _ _ => trivial)) fun _ => .pure fun disk hwrote => ⟨rfl, ?_⟩
    obtain ⟨expires, hexpires, hwrote⟩ := hwrote
    exact h.set hclock hplain hexpires hwrote
  | get key =>
    refine .bind ((leads_get h.settled now key Json.Decode.any).mono (fun _ => id)
      (fun _ _ => id) (fun _ _ _ => trivial)) fun found => .pure fun disk hfound => ?_
    have hanswer := h.kept_eq hnow key
    -- A session that cannot be locked is one where nothing has been set yet.
    obtain ⟨hlock, rfl, rfl⟩ | ⟨hlock, hdiffers, rfl⟩ := hfound
    · have hempty := h.lockable.resolve_right fun hlocked => hlock hlocked.2
      rw [hempty] at hanswer
      exact ⟨congrArg Answer.found hanswer.symm,
        h.idle (.refl h.settled.tree) (.inl hempty) nofun⟩
    · refine ⟨?_, h.idle hdiffers (h.lockable.imp_right fun ⟨hdirectory, _⟩ =>
        ⟨hdiffers.keeps.stands _ _ hdirectory Disk.not_isFile_directory,
          (Session.isLockable_iff h.settled hdiffers hdirectory).mpr hlock⟩) nofun⟩
      show Answer.found _ = Answer.found _
      rw [hanswer]
      cases hentry : ((load before root).find? key).filter (Entry.isLive now) with
      | none => rfl
      | some entry =>
        obtain ⟨hword, hnormal⟩ := h.plain (Option.filter_eq_some_iff.mp hentry).1
        rw [Option.bind_some, Json.decode?_any hword hnormal, Option.map_some]
  | remove key =>
    refine .bind ((leads_remove h.settled now key).mono (fun _ => id)
      (fun _ _ => id) (fun _ _ _ => trivial)) fun was => .pure fun disk hwas => ?_
    have hanswer := h.kept_eq hnow key
    -- Without a directory there is nothing to remove.
    obtain ⟨hholds, rfl, rfl⟩ | ⟨rfl, hwrote⟩ := hwas
    · have hempty := h.lockable.resolve_right fun hlocked =>
        Bool.false_ne_true (hholds.symm.trans hlocked.2.directory)
      rw [hempty] at hanswer
      refine ⟨?_, h.idle (.refl h.settled.tree) (.inl hempty) fun _ _ => ⟨hempty, key, rfl⟩⟩
      show Answer.removed _ = Answer.removed _
      rw [hanswer]
      rfl
    · refine ⟨?_, h.remove hwrote⟩
      show Answer.removed _ = Answer.removed _
      rw [hanswer, Option.isSome_map]

end

/-! ## Runs of calls -/

theorem reflects_nil (hready : Session.IsReady root session base before) (htree : before.IsTree)
    (hempty : load before root = []) : Reflects root session base [] before where
  settled := ⟨hready, htree⟩
  lockable := .inl hempty
  plain := by
    rw [hempty]
    nofun
  agrees := by
    rw [hempty]
    exact fun _ _ _ => rfl

/-- The clock never goes back, and shows no leap seconds. -/
structure IsClocked (calls : List (Instant × Call)) : Prop where
  ascending : calls.Pairwise fun call later => later.1.before call.1 = false
  nanos : ∀ call ∈ calls, call.1.nanos < 1000000000

def runAll (root : String) (calls : List (Instant × Call)) : Action (List Answer) :=
  calls.mapM fun (now, call) => call.run root now

/-- The same calls, some of which drop what has ended while others do not. -/
def runAllWith (purges : List Bool) (root : String) (calls : List (Instant × Call)) :
    Action (List Answer) :=
  (purges.zip calls).mapM fun (purging, now, call) => call.runWith purging root now

theorem runAll_eq_runAllWith (root : String) (calls : List (Instant × Call)) :
    runAll root calls = runAllWith (calls.map fun _ => true) root calls := by
  unfold runAll runAllWith
  induction calls with
  | nil => rfl
  | cons first rest ih =>
    rw [List.map_cons, List.zip_cons_cons, List.mapM_cons, List.mapM_cons, ih]
    dsimp only
    rw [Call.run_eq_runWith]

theorem eq_answers_of_run {past calls : List (Instant × Call)} {purges : List Bool}
    {given : List Answer} (hlength : purges.length = calls.length)
    (h : Reflects root session base past before) (hclock : IsClocked (past ++ calls))
    (hplain : ∀ call ∈ calls, call.2.IsPlain)
    (hrun : (runAllWith purges root calls).run.run before = (.ok given, disk)) :
    given = answers past calls := by
  induction calls generalizing past before given purges with
  | nil =>
    rw [runAllWith, List.zip_nil_right, List.mapM_nil] at hrun
    cases hrun
    rfl
  | cons first rest ih =>
    obtain ⟨now, call⟩ := first
    obtain ⟨purging, purges, rfl⟩ := List.exists_of_length_succ purges hlength
    rw [runAllWith, List.zip_cons_cons, List.mapM_cons] at hrun
    obtain ⟨answer, middle, hfirst, hrest⟩ := Disk.of_run_bind hrun
    obtain ⟨others, last, hothers, hdone⟩ := Disk.of_run_bind hrest
    cases hdone
    obtain ⟨hcall, hmore⟩ := List.forall_mem_cons.mp hplain
    rw [List.append_cons] at hclock
    have hnow : ∀ earlier ∈ past, now.before earlier.1 = false := fun earlier hearlier =>
      (List.pairwise_append.mp (List.pairwise_append.mp hclock.ascending).1).2.2 earlier hearlier
        (now, call) (List.mem_singleton.mpr rfl)
    obtain ⟨rfl, hreflects⟩ := (leads_call h hnow purging call
      (hclock.nanos (now, call) (by simp)) hcall).ok rfl hfirst
    rw [ih (Nat.succ.inj hlength) hreflects hclock hmore hothers]
    rfl

/-- Whether the end of what a call sets is in the calendar. -/
def Call.Ends (now : Instant) : Call → Prop
  | .set _ _ span => ∃ expires, now.after span = .ok expires
  | _ => True

/-- Where nothing stands in the way every call is answered. -/
theorem exists_runAll {calls : List (Instant × Call)}
    (h : Session.IsOpen root session base before) (hends : ∀ call ∈ calls, call.2.Ends call.1) :
    ∃ given after, (runAll root calls).run.run before = (.ok given, after) := by
  induction calls generalizing before with
  | nil => exact ⟨_, before, rfl⟩
  | cons first rest ih =>
    obtain ⟨now, call⟩ := first
    obtain ⟨hfirst, hrest⟩ := List.forall_mem_cons.mp hends
    -- Each kind of call leaves the disk as open as it was.
    obtain ⟨answer, middle, hcall, hopen⟩ : ∃ answer middle,
        (call.run root now).run.run before = (.ok answer, middle) ∧
          Session.IsOpen root session base middle := by
      cases call with
      | set key value span =>
        obtain ⟨expires, hexpires⟩ := hfirst
        obtain ⟨_, middle, hset, hopen, -⟩ := h.exists_set hexpires key value
        exact ⟨.stored, middle, Disk.run_bind_ok hset _, hopen⟩
      | get key =>
        obtain ⟨found, middle, hget, hopen⟩ := h.exists_get now key Json.Decode.any
        exact ⟨.found found, middle, Disk.run_bind_ok hget _, hopen⟩
      | remove key =>
        obtain ⟨was, middle, hremove, hopen⟩ := h.exists_remove now key
        exact ⟨.removed was, middle, Disk.run_bind_ok hremove _, hopen⟩
    obtain ⟨others, after, hothers⟩ := ih hopen hrest
    refine ⟨answer :: others, after, ?_⟩
    unfold runAll
    rw [List.mapM_cons, Disk.run_bind_ok hcall]
    exact Disk.run_bind_ok hothers _

/-! ## A store and its answers -/

/-- Two values, of which one ends before it is looked up. -/
def someCalls : List (Instant × Call) :=
  [(⟨0, 0⟩, .set "a" (.string "x") 10), (⟨5, 0⟩, .set "b" (.array []) 2), (⟨7, 0⟩, .get "a"),
    (⟨7, 0⟩, .get "b"), (⟨9, 0⟩, .remove "a"), (⟨9, 0⟩, .get "a")]

theorem isClocked_someCalls : IsClocked someCalls :=
  ⟨by simp [someCalls, Instant.before], by simp [someCalls]⟩

theorem isPlain_someCalls : ∀ call ∈ someCalls, call.2.IsPlain := by
  have hstring : (Json.string "x").depth ≤ valueLevels := by decide
  have harray : (Json.array []).depth ≤ valueLevels := by decide
  simp [someCalls, Call.IsPlain, Json.allNumbers, Json.allNumbersItems, hstring, harray]

theorem ends_someCalls : ∀ call ∈ someCalls, call.2.Ends call.1 := by
  have hfirst : ∃ expires, Instant.after ⟨0, 0⟩ 10 = .ok expires := ⟨_, rfl⟩
  have hsecond : ∃ expires, Instant.after ⟨5, 0⟩ 2 = .ok expires := ⟨_, rfl⟩
  simp only [someCalls, List.forall_mem_cons, Call.Ends]
  exact ⟨hfirst, hsecond, trivial, trivial, trivial, trivial, List.forall_mem_nil _⟩

/-- A project where what the store is passed through is a link to it. -/
def crossedDisk : Disk :=
  { entries := [([directoryName], .directory),
      ([directoryName, "store.tmp"], .link "store.json")] }

/-- The same with its lock. -/
def crossedLocked : Disk := crossedDisk.put [directoryName, ".lock"] (.file ByteArray.empty)

/-- The same, when the store has been replaced by the link. -/
def crossedLost (content : ByteArray) : Disk :=
  ((crossedLocked.put [directoryName, "store.json"] (.file content)).erase
    [directoryName, "store.tmp"]).put [directoryName, "store.json"] (.link "store.json")

theorem run_lockToWrite_crossed :
    (Session.lockToWrite "/").run.run crossedDisk = (.ok (), crossedLocked) := by
  have hdirectory : crossedDisk.resolve true "/.retext" = .ok ⟨[directoryName], some .directory⟩ :=
    Disk.resolve_names (by decide) (by decide) trivial rfl nofun
  have hlist : crossedDisk.resolve true "/.gitignore" = .ok ⟨[".gitignore"], none⟩ :=
    Disk.resolve_names (by decide) (by decide) trivial rfl nofun
  have hlock : crossedDisk.resolve true "/.retext/.lock" = .ok ⟨[directoryName, ".lock"], none⟩ :=
    Disk.resolve_names (by decide) (by decide) ⟨rfl, trivial⟩ rfl nofun
  have hholds : crossedDisk.holds (Session.directory "/") = true := by
    unfold Disk.holds Disk.find?
    rw [show Session.directory "/" = "/.retext" by decide, hdirectory]
    rfl
  have hunlisted : crossedDisk.holds (Path.join "/" ".gitignore") = false := by
    unfold Disk.holds Disk.find?
    rw [show Path.join "/" ".gitignore" = "/.gitignore" by decide, hlist]
    rfl
  refine Session.run_lockToWrite hholds (Session.run_hide_absent hunlisted) ?_
  unfold Disk.writable
  rw [show Session.inside "/" ".lock" = "/.retext/.lock" by decide, hlock]

/-- The text is put into the store itself, and the link into its place. -/
theorem run_save_crossed (store : Store) : (save "/" store).run.run crossedLocked =
    (.ok (), crossedLost store.toText.toUTF8) := by
  have hdirectory : Path.IsName directoryName := by decide
  have hpassing : Path.IsName "store.tmp" := by decide
  have hstore : Path.IsName "store.json" := by decide
  have hlink : crossedLocked.get? ([] ++ [directoryName] ++ ["store.tmp"]) =
      some (.link "store.json") := rfl
  -- The text goes to where the link leads, while the move takes the link itself.
  have hthrough : crossedLocked.resolve true "/.retext/store.tmp" =
      .ok ⟨[directoryName, "store.json"], none⟩ := by
    rw [Disk.resolve_absolute true (by decide : _ ∧ _ ∧ _ ∧ _ ∧
        Disk.steps "/.retext/store.tmp" = "" :: [directoryName, "store.tmp"]),
      Disk.walk_directory _ _ _ hdirectory (by decide) rfl,
      show Disk.maxLinks = 39 + 1 from rfl,
      Disk.walk_link 39 [] hpassing (by decide) hlink hstore.ne_empty, Disk.steps_name hstore,
      Disk.startOf_name hstore]
    exact Disk.walk_end hstore.not_empty hstore.ne_parent (by decide) rfl nofun
  have hwritable : crossedLocked.writable (passing "/") =
      .ok ([directoryName, "store.json"], ByteArray.empty) := by
    unfold Disk.writable
    rw [show passing "/" = "/.retext/store.tmp" by decide, hthrough]
  have hold : (crossedLocked.put [directoryName, "store.json"]
      (.file store.toText.toUTF8)).resolve false (passing "/") =
        .ok ⟨[directoryName, "store.tmp"], some (.link "store.json")⟩ := by
    rw [show passing "/" = "/.retext/store.tmp" by decide,
      Disk.resolve_absolute false (by decide : _ ∧ _ ∧ _ ∧ _ ∧
        Disk.steps "/.retext/store.tmp" = "" :: [directoryName, "store.tmp"]),
      Disk.walk_directory _ _ _ hdirectory (by decide) rfl]
    exact Disk.walk_last_link _ hpassing (by decide) rfl
  have hnew : (crossedLocked.put [directoryName, "store.json"]
      (.file store.toText.toUTF8)).resolve false (path "/") =
        .ok ⟨[directoryName, "store.json"], some (.file store.toText.toUTF8)⟩ := by
    rw [show path "/" = "/.retext/store.json" by decide]
    exact Disk.resolve_names (by decide) (by decide) ⟨rfl, trivial⟩ rfl nofun
  have hwrite : (Disk.writeBytes (passing "/") store.toText.toUTF8).run.run crossedLocked = _ :=
    Disk.run_writeBytes_unlimited hwritable rfl _
  have hmove : (Disk.rename (passing "/") (path "/")).run.run _ = _ :=
    Disk.run_rename hold nofun hnew nofun
  unfold save Disk.replaceText Disk.writeText
  rw [Disk.run_bind_ok hwrite, Disk.run_bind_ok (Disk.run_attempt_ok hmove)]
  rfl

/-- A link to itself is no store. -/
theorem load_circle {disk : Disk} (hdirectory : disk.get? [directoryName] = some .directory)
    (hstore : disk.get? [directoryName, "store.json"] = some (.link "store.json")) :
    load disk "/" = [] := by
  have hlost : disk.resolve true "/.retext/store.json" = .error .tooManyLinks := by
    rw [Disk.resolve_absolute true (by decide : _ ∧ _ ∧ _ ∧ _ ∧
        Disk.steps "/.retext/store.json" = "" :: [directoryName, "store.json"]),
      Disk.walk_directory _ _ _ (by decide) (by decide) hdirectory]
    exact Disk.walk_circle _ [] (by decide) (by decide) hstore
  rw [load_eq, show path "/" = "/.retext/store.json" by decide, Disk.bytesAt, hlost]
  rfl

end Rephrase.Store
