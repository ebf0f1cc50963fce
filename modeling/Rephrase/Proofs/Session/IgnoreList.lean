import Mathlib
import Rephrase.Proofs.Session.Open
import Rephrase.Proofs.Session.Spare
import Rephrase.Proofs.Text.RawLine

/-! A list of ignored files is only added to. One that is a text keeps its lines, and what hides the
session's directory comes to stand in it once. -/

namespace Rephrase.Session

open Disk (Action KeepsTo Location)
open Discovery (pathBelow)
open Text

/-! ## What is added -/

/-- The text of a file, or none if its bytes are not those of a text. -/
def textOf (content : ByteArray) : String := (String.fromUTF8? content).getD ""

/-- A last line is ended, unless there is nothing on it. -/
theorem ignoreAddition_cases (content : List Char) :
    ((trim content = [] ∨ content.getLast? = some '\n') ∧
      ignoreAddition content = "# retext session store\n.retext/\n") ∨
      ignoreAddition content = "\n# retext session store\n.retext/\n" := by
  unfold ignoreAddition
  dsimp only
  cases hended : (trim content).isEmpty || content.getLast? == some '\n' with
  | true => exact .inl ⟨by simpa using hended, by decide⟩
  | false => exact .inr (by decide)

/-- A list that was added to hides the directory. -/
theorem isHidden_append_ignoreAddition (content more : List Char) :
    isHidden (content ++ (ignoreAddition more).toList) = true := by
  obtain ⟨front, hfront⟩ : ∃ front, (ignoreAddition more).toList =
      front ++ '\n' :: (ignoreEntry.toList ++ ['\n']) := by
    obtain ⟨-, h⟩ | h := ignoreAddition_cases more
    · exact ⟨"# retext session store".toList, by rw [h]; decide⟩
    · exact ⟨"\n# retext session store".toList, by rw [h]; decide⟩
  have hmem : ignoreEntry.toList ++ ['\n'] ∈ rawLines (content ++ (ignoreAddition more).toList) := by
    rw [hfront, ← List.append_assoc, rawLines_append_newline]
    exact List.mem_append_right _ (by decide)
  unfold isHidden Text.lines
  rw [List.any_map, List.any_eq_true]
  exact ⟨_, hmem, by decide⟩

theorem size_ofList_ascii {cs : List Char} (h : ∀ c ∈ cs, c.utf8Size = 1) :
    (String.ofList cs).toUTF8.size = cs.length := by
  rw [String.toUTF8_eq_toByteArray, String.size_toByteArray, String.utf8ByteSize_ofList]
  induction cs with
  | nil => rfl
  | cons c cs ih =>
    obtain ⟨hc, hcs⟩ := List.forall_mem_cons.mp h
    rw [String.utf8Len_cons, ih hcs, hc, List.length_cons]

/-- A text of characters of one byte each can be cut off anywhere. -/
theorem extract_ofList_ascii {cs : List Char} (h : ∀ c ∈ cs, c.utf8Size = 1) (n : Nat) :
    (String.ofList cs).toUTF8.extract 0 n = (String.ofList (cs.take n)).toUTF8 := by
  have hfront := size_ofList_ascii fun c hc => h c (List.mem_of_mem_take (i := n) hc)
  have hwhole : (String.ofList cs).toUTF8 =
      (String.ofList (cs.take n)).toUTF8 ++ (String.ofList (cs.drop n)).toUTF8 := by
    rw [← Disk.toUTF8_append, ← String.ofList_append, List.take_append_drop]
  obtain hle | hlt := le_or_gt n cs.length
  · rw [List.length_take, Nat.min_eq_left hle] at hfront
    rw [hwhole, Disk.extract_append_of_le (Nat.le_of_eq hfront), hfront, Nat.sub_self,
      ByteArray.extract_same, ByteArray.append_empty]
  · rw [List.take_of_length_le (Nat.le_of_lt hlt)]
    exact Disk.extract_zero_of_le (Nat.le_of_lt ((size_ofList_ascii h).trans_lt hlt))

theorem toUTF8_of_fromUTF8? {content : ByteArray} {text : String}
    (h : String.fromUTF8? content = some text) : text.toUTF8 = content := by
  unfold String.fromUTF8? at h
  split at h
  · obtain rfl := Option.some.inj h
    rfl
  · cases h

theorem textOf_toUTF8 (text : String) : textOf text.toUTF8 = text := by
  unfold textOf
  rw [Disk.fromUTF8?_toUTF8, Option.getD_some]

theorem size_ignoreAddition_pos (content : List Char) : 0 < (ignoreAddition content).toUTF8.size := by
  obtain ⟨-, h⟩ | h := ignoreAddition_cases content
  · rw [h]
    decide
  · rw [h]
    decide

theorem utf8Size_ignoreAddition (content : List Char) :
    ∀ c ∈ (ignoreAddition content).toList, c.utf8Size = 1 := by
  have hascii : ((ignoreAddition content).toList.all fun c => c.utf8Size == 1) = true := by
    obtain ⟨-, h⟩ | h := ignoreAddition_cases content
    · rw [h]
      decide
    · rw [h]
      decide
  exact fun c hc => eq_of_beq (List.all_eq_true.mp hascii c hc)

/-- Each line stays one of its own, as far as what is added has come to stand in the list. -/
theorem mem_rawLines_of_added {content more raw : List Char}
    (hmore : more <+: (ignoreAddition content).toList) (hraw : raw ∈ rawLines content)
    (hblank : trim raw ≠ []) :
    raw ∈ rawLines (content ++ more) ∨ raw ++ ['\n'] ∈ rawLines (content ++ more) := by
  cases more with
  | nil =>
    rw [List.append_nil]
    exact .inl hraw
  | cons c rest =>
    refine mem_rawLines_append _ hraw ?_
    obtain ⟨hended, -⟩ | h := ignoreAddition_cases content
    · refine .inl (hended.resolve_left fun hnil => hblank ?_)
      have hwhole := flatten_rawLines content
      refine strip_eq_nil_iff.mpr fun c hc => strip_eq_nil_iff.mp hnil c ?_
      rw [← hwhole]
      exact List.mem_flatten_of_mem hraw hc
    · obtain ⟨back, hback⟩ := hmore
      rw [h] at hback
      exact .inr (congrArg some (List.cons.inj hback).1)

/-! ## Hiding once -/

/-- What a list holds when the directory was hidden in it, as far as there was room. -/
inductive Hides (limit : Option Nat) (content : ByteArray) : ByteArray → Prop
  | kept (h : isHidden (textOf content).toList = true) : Hides limit content content
  | whole (h : isHidden (textOf content).toList = false)
      (hroom : ∀ room ∈ limit,
        (content ++ (ignoreAddition (textOf content).toList).toUTF8).size ≤ max room content.size) :
      Hides limit content (content ++ (ignoreAddition (textOf content).toList).toUTF8)
  | part (h : isHidden (textOf content).toList = false) (room : Nat) (hlimit : limit = some room)
      (hroom : max room content.size <
        (content ++ (ignoreAddition (textOf content).toList).toUTF8).size) :
      Hides limit content ((content ++ (ignoreAddition (textOf content).toList).toUTF8).extract 0
        (max room content.size))

/-- Nothing is taken from a list. -/
theorem Hides.exists_append {limit : Option Nat} {content new : ByteArray}
    (h : Hides limit content new) : ∃ added, new = content ++ added := by
  cases h with
  | kept => exact ⟨ByteArray.empty, ByteArray.append_empty.symm⟩
  | whole => exact ⟨_, rfl⟩
  | part _ room => exact ⟨_, Disk.extract_append_of_le (Nat.le_max_right _ _)⟩

/-- What has come to stand behind the text of a list: nothing if the list hides the directory, or
what hides it, or as much of that as there was room for. -/
inductive IsAdded (limit : Option Nat) (original : ByteArray) (text : String) : ByteArray → Prop
  | none : IsAdded limit original text ByteArray.empty
  | whole (h : isHidden text.toList = false) :
      IsAdded limit original text (ignoreAddition text.toList).toUTF8
  | part (h : isHidden text.toList = false) {room : Nat} (hlimit : limit = some room) (n : Nat)
      (hfull : (original ++ (ignoreAddition text.toList).toUTF8.extract 0 n).size =
        max room original.size) :
      IsAdded limit original text ((ignoreAddition text.toList).toUTF8.extract 0 n)

/-- What was added is a text. -/
theorem IsAdded.exists_text {limit : Option Nat} {original added : ByteArray} {text : String}
    (h : IsAdded limit original text added) : ∃ more : String, added = more.toUTF8 ∧
      more.toList <+: (ignoreAddition text.toList).toList ∧
        (isHidden text.toList = true → more = "") := by
  cases h with
  | none => exact ⟨"", by decide, List.nil_prefix, fun _ => rfl⟩
  | whole hlisted =>
    exact ⟨_, rfl, List.prefix_refl _, fun hhidden => nomatch hlisted.symm.trans hhidden⟩
  | part hlisted _ n =>
    refine ⟨String.ofList ((ignoreAddition text.toList).toList.take n), ?_, ?_,
      fun hhidden => nomatch hlisted.symm.trans hhidden⟩
    · have hcut := extract_ofList_ascii (utf8Size_ignoreAddition text.toList) n
      rwa [String.ofList_toList] at hcut
    · rw [String.toList_ofList]
      exact List.take_prefix n _

/-- Hiding the directory once more adds nothing. -/
theorem IsAdded.hides {limit : Option Nat} {original added new : ByteArray} {text : String}
    (h : IsAdded limit original text added) (htext : String.fromUTF8? original = some text)
    (hnew : Hides limit (original ++ added) new) :
    ∃ added', new = original ++ added' ∧ IsAdded limit original text added' := by
  cases h with
  | none =>
    rw [ByteArray.append_empty] at hnew
    have hsame : textOf original = text := by rw [textOf, htext, Option.getD_some]
    cases hnew with
    | kept => exact ⟨_, ByteArray.append_empty.symm, .none⟩
    | whole hlisted =>
      rw [hsame] at hlisted ⊢
      exact ⟨_, rfl, .whole hlisted⟩
    | part hlisted room hlimit hroom =>
      rw [hsame] at hlisted hroom ⊢
      refine ⟨_, Disk.extract_append_of_le (Nat.le_max_right _ _), .part hlisted hlimit _ ?_⟩
      rw [ByteArray.size_append] at hroom
      rw [ByteArray.size_append, ByteArray.size_extract]
      omega
  | whole hlisted =>
    have hsame : textOf (original ++ (ignoreAddition text.toList).toUTF8) =
        text ++ ignoreAddition text.toList := by
      rw [← toUTF8_of_fromUTF8? htext, ← Disk.toUTF8_append, textOf_toUTF8]
    have hhidden := isHidden_append_ignoreAddition text.toList text.toList
    rw [← String.toList_append, ← hsame] at hhidden
    cases hnew with
    | kept => exact ⟨_, rfl, .whole hlisted⟩
    | whole hopen => cases hhidden.symm.trans hopen
    | part hopen => cases hhidden.symm.trans hopen
  | part hlisted hlimit n hfull =>
    have hpos := size_ignoreAddition_pos
      (textOf (original ++ (ignoreAddition text.toList).toUTF8.extract 0 n)).toList
    cases hnew with
    | kept => exact ⟨_, rfl, .part hlisted hlimit n hfull⟩
    | whole _ hroom =>
      -- There is no room left behind a part.
      have hle := hroom _ hlimit
      rw [ByteArray.size_append] at hle
      omega
    | part _ room' hlimit' =>
      obtain rfl := Option.some.inj (hlimit.symm.trans hlimit')
      refine ⟨_, ?_, .part hlisted hlimit n hfull⟩
      rw [Disk.extract_append_of_le (Nat.le_max_right _ _), Nat.max_eq_right (by omega), Nat.sub_self,
        ByteArray.extract_same, ByteArray.append_empty]

/-! ## The list of a project -/

section

variable {root session : String} {base : Location} {before : Disk} {original listed : ByteArray}

/-- What comes of a list when the directory is hidden in it. -/
theorem leads_hide (hready : IsReady root session base before)
    (hlist : before.resolve true (pathBelow root [".gitignore"]) =
      .ok ⟨base ++ [".gitignore"], some (.file original)⟩) (content : ByteArray) :
    Action.Leads (Spares base before (base ++ [".gitignore"]) content) (hide root)
      (fun _ disk => ∃ new, Hides before.limit content new ∧
        Spares base before (base ++ [".gitignore"]) new disk)
      (fun _ disk => ∃ new, Hides before.limit content new ∧
        Spares base before (base ++ [".gitignore"]) new disk) := by
  refine .of_forall fun disk hdisk => ?_
  have hresolve : disk.resolve true (Path.join root ".gitignore") = _ := hdisk.resolve hlist
  have hholds : disk.holds (Path.join root ".gitignore") = true := by
    unfold Disk.holds Disk.find?
    rw [hresolve]
    rfl
  have htext : (disk.textAt (Path.join root ".gitignore")).toOption.getD "" = textOf content := by
    rw [Disk.toOption_textAt, Disk.bytesAt_of_resolve hresolve]
    rfl
  have hwritable : disk.writable (Path.join root ".gitignore") =
      .ok (base ++ [".gitignore"], content) := by
    unfold Disk.writable
    rw [hresolve]
  -- Another content of the list.
  have hput : ∀ new, Spares base before (base ++ [".gitignore"]) new
      (disk.put (base ++ [".gitignore"]) (.file new)) := fun new =>
    ⟨keepsTo_written hready .ignoreList hdisk.keeps ⟨_, _, _, hwritable, rfl⟩,
      Disk.get?_put_self disk (by simp) _⟩
  unfold hide
  refine .step (Disk.run_get disk) ?_
  dsimp only
  rw [hholds, if_pos rfl, htext]
  cases hhidden : isHidden (textOf content).toList with
  | true => exact .pure fun disk' hsame => ⟨content, .kept hhidden, hsame ▸ hdisk⟩
  | false =>
    refine (Disk.leads_appendText_of_writable hwritable _).mono (fun _ => id) ?_ ?_
    · rintro _ _ ⟨rfl, hroom⟩
      exact ⟨_, .whole hhidden (hdisk.keeps.limit ▸ hroom), hput _⟩
    · rintro _ _ ⟨room, hlimit, hroom, rfl⟩
      exact ⟨_, .part hhidden room (hdisk.keeps.limit ▸ hlimit) hroom, hput _⟩

/-- A disk where a session has changed its part only, and has done nothing to the list of ignored
files but hide its directory there. -/
def Lists (base : Location) (before : Disk) (original : ByteArray) (disk : Disk) : Prop :=
  ∃ added, Spares base before (base ++ [".gitignore"]) (original ++ added) disk ∧
    ∀ text, String.fromUTF8? original = some text → IsAdded before.limit original text added

theorem admits_lists (hready : IsReady root session base before) :
    Admits (Lists base before original) root session base (· ≠ [".gitignore"]) where
  ready := fun ⟨_, hspares, _⟩ => (admits_spares hready _ _).ready hspares
  put := fun ⟨added, hspares, hadded⟩ hused hne hpasses hfile hentry =>
    ⟨added, (admits_spares hready _ _).put hspares hused hne hpasses hfile hentry, hadded⟩
  erase := fun ⟨added, hspares, hadded⟩ hused hne hfile =>
    ⟨added, (admits_spares hready _ _).erase hspares hused hne hfile, hadded⟩

section

variable (hready : IsReady root session base before)
  (hlist : before.resolve true (pathBelow root [".gitignore"]) =
    .ok ⟨base ++ [".gitignore"], some (.file original)⟩)
include hready hlist

theorem holds_hide_lists : Action.Holds (Lists base before original) (hide root) := by
  refine .of_forall fun disk ⟨added, hspares, hadded⟩ => ?_
  have hlists : ∀ disk', (∃ new, Hides before.limit (original ++ added) new ∧
      Spares base before (base ++ [".gitignore"]) new disk') → Lists base before original disk' := by
    rintro disk' ⟨new, hnew, hspares'⟩
    cases htext : String.fromUTF8? original with
    | none =>
      obtain ⟨more, rfl⟩ := hnew.exists_append
      rw [ByteArray.append_assoc] at hspares'
      exact ⟨added ++ more, hspares', fun text hsome => nomatch htext.symm.trans hsome⟩
    | some text =>
      obtain ⟨added', rfl, hadded'⟩ := (hadded text htext).hides htext hnew
      exact ⟨added', hspares', fun text' hsome =>
        Option.some.inj (htext.symm.trans hsome) ▸ hadded'⟩
  exact (leads_hide hready hlist (original ++ added)).mono (fun _ hsame => hsame ▸ hspares)
    (fun _ => hlists) (fun _ => hlists)

theorem leads_lockToWrite_lists :
    Action.Leads (Lists base before original) (lockToWrite root)
      (fun _ disk => Lists base before original disk ∧
        disk.get? (base ++ [directoryName]) = some .directory)
      (fun _ => Lists base before original) :=
  (leads_lockToWrite_of_hide (admits_lists hready) (admits_lists hready) (by decide) (by decide)
    (fun _ => id) (fun _ => id) (holds_hide_lists hready hlist)).mono (fun _ => id)
      (fun _ _ ⟨hdisk, hmade, _⟩ => ⟨hdisk, hmade⟩) (fun _ _ => id)

theorem holds_set_lists (now : Instant) (key : String) (value : Json) (span : Int) :
    Action.Holds (Lists base before original) (Store.set root now key value span) :=
  Store.leads_set_of_lock (admits_lists hready) (by decide) (fun _ => id)
    ((leads_lockToWrite_lists hready hlist).mono (fun _ => id) (fun _ _ => And.left) (fun _ _ => id))
    now key value span

theorem holds_append_lists (record : History.Record) :
    Action.Holds (Lists base before original) (History.append root session record) :=
  History.leads_append_of_lock (admits_lists hready) (by simp) (by simp) (fun _ => id)
    (leads_lockToWrite_lists hready hlist) record

end

end

/-! ## Calls one after the other -/

/-- A call that a session's files are written by. -/
inductive Write where
  | set (now : Instant) (key : String) (value : Json) (span : Int)
  | append (session : String) (record : History.Record)
  | snapshot (now : Instant) (session : String) (kept : Snapshot) (span : Int)

def Write.run (root : String) : Write → Action Unit
  | .set now key value span => Store.set root now key value span
  | .append session record => History.append root session record
  | .snapshot now session kept span => Snapshot.save root now session kept span

/-- Calls one after the other, whether they fail or not. -/
def writeAll (root : String) : List Write → Action Unit
  | [] => return ()
  | write :: rest => do
    let _ ← (write.run root).attempt
    writeAll root rest

section

variable {root : String} {base : Location} {before after : Disk} {original : ByteArray}

theorem Write.holds_run (hready : ∀ session, IsReady root session base before)
    (hlist : before.resolve true (pathBelow root [".gitignore"]) =
      .ok ⟨base ++ [".gitignore"], some (.file original)⟩) (write : Write) :
    Action.Holds (Lists base before original) (write.run root) := by
  cases write with
  | set now key value span => exact holds_set_lists (hready "") hlist now key value span
  | append session record => exact holds_append_lists (hready session) hlist record
  | snapshot now session kept span =>
    exact holds_set_lists (hready session) hlist now _ _ span

theorem holds_writeAll (hready : ∀ session, IsReady root session base before)
    (hlist : before.resolve true (pathBelow root [".gitignore"]) =
      .ok ⟨base ++ [".gitignore"], some (.file original)⟩) (writes : List Write) :
    Action.Holds (Lists base before original) (writeAll root writes) := by
  induction writes with
  | nil => exact .pure ()
  | cons write rest ih => exact (write.holds_run hready hlist).attempt.bind fun _ => ih

/-- Nothing is taken from a list of ignored files, whatever is written. If it is a text, its lines
stay lines of their own, and what hides the session's directory is added at most once, and only
where no line does so already. -/
theorem extended_of_writes (hready : ∀ session, IsReady root session base before)
    (hlist : before.bytesAt (Path.join root ".gitignore") = .ok original) (writes : List Write)
    {result : Except Disk.Failure Unit}
    (hrun : (writeAll root writes).run.run before = (result, after)) :
    ∃ added, after.bytesAt (Path.join root ".gitignore") = .ok (original ++ added) ∧
      ∀ text, String.fromUTF8? original = some text → ∃ more : String, added = more.toUTF8 ∧
        more.toList <+: (ignoreAddition text.toList).toList ∧
        (isHidden text.toList = true → more = "") ∧
        ∀ raw ∈ rawLines text.toList, trim raw ≠ [] →
          raw ∈ rawLines (text.toList ++ more.toList) ∨
            raw ++ ['\n'] ∈ rawLines (text.toList ++ more.toList) := by
  obtain ⟨location, hresolve⟩ := Disk.resolve_of_bytesAt hlist
  obtain rfl : location = base ++ [".gitignore"] := ((hready "").of_resolve .ignoreList hresolve).1
  have hbefore : Lists base before original before :=
    ⟨ByteArray.empty, ⟨.refl _ _, by
      rw [ByteArray.append_empty]
      exact (Disk.get?_of_resolve hresolve).symm⟩, fun _ _ => .none⟩
  obtain ⟨added, hspares, hadded⟩ :=
    (holds_writeAll hready hresolve writes).of_run hbefore hrun
  refine ⟨added, Disk.bytesAt_of_resolve (hspares.resolve hresolve), fun text htext => ?_⟩
  obtain ⟨more, hmore, hfront, hhidden⟩ := (hadded text htext).exists_text
  exact ⟨more, hmore, hfront, hhidden, fun raw => mem_rawLines_of_added hfront⟩

end

/-- A project with a list of ignored files and nothing else. -/
def listDisk (list : ByteArray) : Disk := { entries := [([".gitignore"], .file list)] }

theorem isReady_listDisk (list : ByteArray) (session : String) :
    IsReady "/" session [] (listDisk list) where
  leads := Disk.leadsTo_top _
  unlinked names _ target hlink := by
    unfold Disk.get? listDisk at hlink
    split at hlink
    · cases hlink
    · rw [List.lookup_cons] at hlink
      split at hlink <;> cases hlink

theorem bytesAt_listDisk (list : ByteArray) :
    (listDisk list).bytesAt (Path.join "/" ".gitignore") = .ok list := by
  have hresolve : (listDisk list).resolve true "/.gitignore" =
      .ok ⟨[".gitignore"], some (.file list)⟩ :=
    Disk.resolve_names (by decide) (by decide) trivial rfl nofun
  rw [show Path.join "/" ".gitignore" = "/.gitignore" by decide]
  exact Disk.bytesAt_of_resolve hresolve

def someWrites : List Write :=
  [.set ⟨0, 0⟩ "k" (.bool true) 10, .snapshot ⟨1, 0⟩ "s-1" [] 10, .set ⟨2, 0⟩ "k" (.bool false) 10]

/-- Whatever was written, the line of the list is one still. -/
theorem extended_by_someWrites : (∀ session, IsReady "/" session [] (listDisk "target/".toUTF8)) ∧
    (listDisk "target/".toUTF8).bytesAt (Path.join "/" ".gitignore") = .ok "target/".toUTF8 ∧
    ∃ result after, (writeAll "/" someWrites).run.run (listDisk "target/".toUTF8) =
      (result, after) ∧
      ∃ more : String, after.bytesAt (Path.join "/" ".gitignore") = .ok ("target/" ++ more).toUTF8 ∧
        more.toList <+: "\n# retext session store\n.retext/\n".toList ∧
        ("target/".toList ∈ rawLines ("target/".toList ++ more.toList) ∨
          "target/\n".toList ∈ rawLines ("target/".toList ++ more.toList)) := by
  have hready := isReady_listDisk "target/".toUTF8
  have hlist := bytesAt_listDisk "target/".toUTF8
  rcases hrun : (writeAll "/" someWrites).run.run (listDisk "target/".toUTF8) with ⟨result, after⟩
  obtain ⟨added, hafter, htext⟩ := extended_of_writes hready hlist someWrites hrun
  obtain ⟨more, rfl, hfront, -, hlines⟩ := htext "target/" (Disk.fromUTF8?_toUTF8 _)
  refine ⟨hready, hlist, result, after, rfl, more, Disk.toUTF8_append "target/" more ▸ hafter, ?_,
    hlines "target/".toList (by decide) (by decide)⟩
  exact (by decide : (ignoreAddition "target/".toList).toList =
    "\n# retext session store\n.retext/\n".toList) ▸ hfront

/-! ## A list that is no text -/

section

variable {root session : String} {base : Location} {before after : Disk} {original content : ByteArray}

/-- Where a list counts as empty, the directory is hidden in it once more. -/
theorem listed_of_set (hready : IsReady root session base before) (hlimit : before.limit = none)
    (hlist : before.bytesAt (Path.join root ".gitignore") = .ok content)
    (hempty : String.fromUTF8? content = none) {now : Instant} {key : String} {value : Json}
    {span : Int} (hrun : (Store.set root now key value span).run.run before = (.ok (), after)) :
    after.bytesAt (Path.join root ".gitignore") = .ok (content ++ (ignoreAddition []).toUTF8) := by
  obtain ⟨location, hresolve⟩ := Disk.resolve_of_bytesAt hlist
  obtain rfl : location = base ++ [".gitignore"] := (hready.of_resolve .ignoreList hresolve).1
  have htext : textOf content = "" := by rw [textOf, hempty, Option.getD_none]
  -- A list that cannot be read hides nothing, so the rules are added, as a whole.
  have hnew : ∀ new, Hides before.limit content new →
      new = content ++ (ignoreAddition []).toUTF8 := by
    intro new hnew
    cases hnew with
    | kept hhidden =>
      rw [htext] at hhidden
      exact absurd hhidden (by decide)
    | whole => rw [htext, String.toList_empty]
    | part _ room hroom => cases hlimit.symm.trans hroom
  have hhide := (leads_hide hready hresolve content).mono (fun _ => id)
    (fun _ disk ⟨new, hhides, hspares⟩ => hnew new hhides ▸ hspares) (fun _ _ _ => trivial)
  have hlock := leads_lockToWrite_of_hide (admits_spares hready [".gitignore"] content)
    (admits_spares hready [".gitignore"] (content ++ (ignoreAddition []).toUTF8)) (by decide)
    (by decide) (fun _ _ => trivial) (fun _ _ => trivial) hhide
  have hset := Store.leads_set_of_lock
    (admits_spares hready [".gitignore"] (content ++ (ignoreAddition []).toUTF8)) (by decide)
    (fun _ _ => trivial) (hlock.mono (fun _ => id) (fun _ _ => And.left) (fun _ _ => id))
    now key value span
  have hspares := hset.ok ⟨.refl _ _, (Disk.get?_of_resolve hresolve).symm⟩ hrun
  exact Disk.bytesAt_of_resolve (hspares.resolve hresolve)

end

/-- It is hidden each time that something is set. -/
theorem hidden_twice : ∃ middle after,
    (Store.set "/" ⟨0, 0⟩ "k" (.bool true) 10).run.run (listDisk ⟨#[0xff]⟩) = (.ok (), middle) ∧
    (Store.set "/" ⟨1, 0⟩ "k" (.bool true) 10).run.run middle = (.ok (), after) ∧
    after.bytesAt (Path.join "/" ".gitignore") =
      .ok (⟨#[0xff]⟩ ++ "# retext session store\n.retext/\n".toUTF8 ++
        "# retext session store\n.retext/\n".toUTF8) := by
  have hopen : IsOpen "/" "s-1" [] (listDisk ⟨#[0xff]⟩) :=
    isOpen_of_fits (Disk.leadsTo_top _) (by decide) rfl (by decide) (by decide)
  obtain ⟨-, middle, hfirst, hopen', -⟩ :=
    hopen.exists_set (show Instant.after ⟨0, 0⟩ 10 = .ok ⟨10, 0⟩ from rfl) "k" (.bool true)
  obtain ⟨-, after, hsecond, -⟩ :=
    hopen'.exists_set (show Instant.after ⟨1, 0⟩ 10 = .ok ⟨11, 0⟩ from rfl) "k" (.bool true)
  have hmiddle := listed_of_set hopen.settled.ready rfl (bytesAt_listDisk _) (by decide) hfirst
  have hafter := listed_of_set hopen'.settled.ready hopen'.limit hmiddle (by decide) hsecond
  exact ⟨middle, after, hfirst, hsecond, hafter⟩

end Rephrase.Session
