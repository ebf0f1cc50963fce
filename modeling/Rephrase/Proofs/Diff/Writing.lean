import Rephrase.Diff.Unified
import Rephrase.Proofs.Decimal.Digits
import Rephrase.Proofs.Diff.Line

/-! What a unified diff says: its hunks are read back and applied to a text, in either direction.
Hunks that are written as a unified diff are read back as they are. -/

namespace Rephrase.Diff

open Decimal

/-! ## Reading -/

/-- The side of a change that a line of a hunk stands on. -/
inductive Side where
  | both
  | old
  | new
  deriving DecidableEq, Repr

def Side.sign : Side → Char
  | .both => ' '
  | .old => '-'
  | .new => '+'

def Side.reversed : Side → Side
  | .both => .both
  | .old => .new
  | .new => .old

structure Line where
  side : Side
  text : String
  deriving DecidableEq, Repr

def Line.reversed (line : Line) : Line := { line with side := line.side.reversed }

/-- A hunk as it stands in a diff: the lines on either side that its header names, and its lines. -/
structure Hunk where
  old : Stretch
  new : Stretch
  lines : List Line
  deriving DecidableEq, Repr

/-- The texts of the lines that stand on a side. -/
def linesOn (side : Side) (lines : List Line) : List String :=
  (lines.filter fun line => line.side = .both || line.side = side).map Line.text

def Hunk.on (hunk : Hunk) (side : Side) : List String := linesOn side hunk.lines

/-! ## Reading -/

def range? (cs : List Char) : Option Stretch :=
  match cs.dropWhile (· != ',') with
  | [] => (Decimal.natural? cs).map fun number => ⟨number - 1, 1⟩
  | _ :: digits => do
    let number ← Decimal.natural? (cs.takeWhile (· != ','))
    let length ← Decimal.natural? digits
    some ⟨if length = 0 then number else number - 1, length⟩

def header? : List Char → Option (Stretch × Stretch)
  | '@' :: '@' :: ' ' :: '-' :: cs =>
    match cs.dropWhile (· != ' ') with
    | ' ' :: '+' :: ds =>
      if ds.dropWhile (· != ' ') = " @@\n".toList then do
        let old ← range? (cs.takeWhile (· != ' '))
        let new ← range? (ds.takeWhile (· != ' '))
        some (old, new)
      else none
    | _ => none
  | _ => none

/-- What the lines of a diff from some line on say. -/
structure Reading where
  /-- Whether the line in front ends without the line feed that is written behind it. -/
  unended : Bool
  /-- The lines of the hunk that has its header further in front. -/
  lines : List Line
  hunks : List Hunk

def Reading.put (r : Reading) (side : Side) (cs : List Char) : Reading :=
  ⟨false, ⟨side, String.ofList (if r.unended then cs.dropLast else cs)⟩ :: r.lines, r.hunks⟩

def readLine? (line : String) (r : Reading) : Option Reading :=
  match line.toList with
  | ' ' :: cs => some (r.put .both cs)
  | '-' :: cs => some (r.put .old cs)
  | '+' :: cs => some (r.put .new cs)
  | '\\' :: cs =>
    if cs = " No newline at end of file\n".toList && !r.unended then
      some { r with unended := true }
    else none
  | cs =>
    if r.unended then none
    else (header? cs).map fun (old, new) => ⟨false, [], ⟨old, new, r.lines⟩ :: r.hunks⟩

def readLines? : List String → Option Reading
  | [] => some ⟨false, [], []⟩
  | line :: rest => (readLines? rest).bind (readLine? line)

/-- The hunks of a diff for a path. -/
def read? (path : String) (diff : List Char) : Option (List Hunk) :=
  match splitLines diff with
  | first :: second :: rest =>
    if first = "--- a/" ++ path ++ "\n" && second = "+++ b/" ++ path ++ "\n" then
      (readLines? rest).bind fun r => if !r.unended && r.lines = [] then some r.hunks else none
    else none
  | _ => none

/-! ## Applying -/

/-- One step of `patched?`: `lines` are the old lines that are left once as many lines of both sides
as said have been passed. -/
def patchedFrom? (oldPassed newPassed : Nat) : List Hunk → List String → Option (List String)
  | [], lines => some lines
  | hunk :: hunks, lines =>
    let gap := hunk.old.start - oldPassed
    if oldPassed ≤ hunk.old.start && gap ≤ lines.length && hunk.new.start = newPassed + gap &&
        hunk.old.length = (hunk.on .old).length && hunk.new.length = (hunk.on .new).length &&
        (hunk.on .old).isPrefixOf (lines.drop gap) then
      (patchedFrom? hunk.old.stop hunk.new.stop hunks ((lines.drop gap).drop hunk.old.length)).map
        fun rest => lines.take gap ++ hunk.on .new ++ rest
    else none

/-- The text that hunks make of a text. Every line of the old side has to stand where the hunk
says. -/
def patched? (hunks : List Hunk) (text : List Char) : Option (List Char) :=
  (patchedFrom? 0 0 hunks (splitLines text)).map fun lines => lines.flatMap String.toList

/-- A hunk that leads from the new side to the old one. -/
def Hunk.reversed (hunk : Hunk) : Hunk :=
  ⟨hunk.new, hunk.old, hunk.lines.map Line.reversed⟩

/-! ## Headers -/

theorem not_isBreak_of_isDigit {c : Char} (h : c.isDigit = true) : ¬ IsBreak c := by
  rintro (rfl | rfl) <;> cases h

/-- The characters of a range are digits, and commas between them. -/
theorem mem_writeRange {start stop : Nat} {c : Char} (h : c ∈ writeRange start stop) :
    c.isDigit = true ∨ c = ',' := by
  unfold writeRange at h
  dsimp only at h
  split at h
  · exact .inl (isDigit_of_mem_natural h)
  · obtain h | h := List.mem_append.mp h
    · exact .inl (isDigit_of_mem_natural h)
    · obtain rfl | h := List.mem_cons.mp h
      · exact .inr rfl
      · exact .inl (isDigit_of_mem_natural h)

theorem not_isBreak_of_mem_writeRange {start stop : Nat} {c : Char}
    (h : c ∈ writeRange start stop) : ¬ IsBreak c := by
  obtain h | rfl := mem_writeRange h
  · exact not_isBreak_of_isDigit h
  · rintro (h | h) <;> cases h

theorem bne_of_notMem {cs : List Char} {c : Char} (h : c ∉ cs) : ∀ d ∈ cs, (d != c) = true :=
  fun _ hd => bne_iff_ne.mpr fun heq => h (heq ▸ hd)

theorem takeWhile_separator {cs : List Char} {c : Char} (h : c ∉ cs) (ds : List Char) :
    (cs ++ c :: ds).takeWhile (· != c) = cs := by
  rw [List.takeWhile_append_of_pos (bne_of_notMem h), List.takeWhile_cons_of_neg (by simp),
    List.append_nil]

theorem dropWhile_separator {cs : List Char} {c : Char} (h : c ∉ cs) (ds : List Char) :
    (cs ++ c :: ds).dropWhile (· != c) = c :: ds := by
  rw [List.dropWhile_append_of_pos (bne_of_notMem h), List.dropWhile_cons_of_neg (by simp)]

theorem comma_notMem_natural (n : Nat) : ',' ∉ natural n := fun h =>
  Bool.noConfusion (isDigit_of_mem_natural h)

theorem range?_writeRange (start stop : Nat) :
    range? (writeRange start stop) = some ⟨start, stop - start⟩ := by
  unfold writeRange
  dsimp only
  split
  · rename_i hone
    have hdrop := List.dropWhile_eq_nil_iff.mpr (bne_of_notMem (comma_notMem_natural (start + 1)))
    rw [range?, hdrop, natural?_natural, hone]
    rfl
  · rename_i hother
    rw [range?, dropWhile_separator (comma_notMem_natural _),
      takeWhile_separator (comma_notMem_natural _), natural?_natural]
    change (natural? (natural (stop - start))).bind _ = _
    rw [natural?_natural, Option.bind_some]
    split <;> rfl

theorem space_notMem_writeRange (start stop : Nat) : ' ' ∉ writeRange start stop := by
  intro h
  obtain h | h := mem_writeRange h <;> cases h

theorem header?_write (a b c d : Nat) :
    header? ("@@ -".toList ++ writeRange a b ++ " +".toList ++ writeRange c d ++ " @@\n".toList) =
      some (⟨a, b - a⟩, ⟨c, d - c⟩) := by
  rw [List.append_assoc, List.append_assoc, List.append_assoc]
  change header? ('@' :: '@' :: ' ' :: '-' :: (writeRange a b ++
    ' ' :: '+' :: (writeRange c d ++ ' ' :: "@@\n".toList))) = _
  rw [header?, dropWhile_separator (space_notMem_writeRange a b)]
  change (if (writeRange c d ++ ' ' :: "@@\n".toList).dropWhile (· != ' ') = " @@\n".toList then
    (range? _).bind fun old => (range? _).bind fun new => some (old, new) else none) = _
  rw [dropWhile_separator (space_notMem_writeRange c d),
    takeWhile_separator (space_notMem_writeRange a b),
    takeWhile_separator (space_notMem_writeRange c d), range?_writeRange, range?_writeRange]
  rfl

/-! ## Lines -/

/-- Whether a line of a hunk is one line of a text. -/
def Line.IsWhole (line : Line) : Prop := IsEnded line.text.toList ∨ IsRest line.text.toList

theorem IsEnded.getLast? {cs : List Char} (h : IsEnded cs) :
    ∃ c, cs.getLast? = some c ∧ IsBreak c := by
  cases h with
  | feed => exact ⟨'\n', List.getLast?_concat, .inl rfl⟩
  | back => exact ⟨'\r', List.getLast?_concat, .inr rfl⟩
  | both => exact ⟨'\n', by simp, .inl rfl⟩

theorem IsRest.getLast? {cs : List Char} (h : IsRest cs) :
    ∃ c, cs.getLast? = some c ∧ ¬ IsBreak c := by
  obtain ⟨front, c, rfl⟩ := (List.eq_nil_or_concat cs).resolve_left h.1
  rw [List.concat_eq_append] at h ⊢
  exact ⟨c, List.getLast?_concat, h.2 c (List.mem_append_right _ (List.mem_singleton_self c))⟩

theorem IsEnded.cons {cs : List Char} {c : Char} (h : IsEnded cs) (hc : ¬ IsBreak c) :
    IsEnded (c :: cs) := by
  cases h with
  | feed hcore => exact .feed (List.forall_mem_cons.mpr ⟨hc, hcore⟩)
  | back hcore => exact .back (List.forall_mem_cons.mpr ⟨hc, hcore⟩)
  | both hcore => exact .both (List.forall_mem_cons.mpr ⟨hc, hcore⟩)

theorem Side.not_isBreak_sign (side : Side) : ¬ IsBreak side.sign := by
  cases side <;> rintro (h | h) <;> cases h

/-- What a diff says behind a line without an end. -/
def marker : List Char := "\\ No newline at end of file\n".toList

theorem feed_marker : "\n\\ No newline at end of file\n".toList = '\n' :: marker := rfl

/-- The lines of a diff for a line of a hunk. -/
def Line.written (line : Line) : List (List Char) :=
  let cs := line.side.sign :: line.text.toList
  if line.text.toList.getLast?.any fun c => c == '\n' || c == '\r' then [cs]
  else [cs ++ ['\n'], marker]

namespace Line

variable {line : Line}

theorem written_of_isEnded (h : IsEnded line.text.toList) :
    line.written = [line.side.sign :: line.text.toList] := by
  obtain ⟨c, hc, hbreak⟩ := h.getLast?
  rw [written, hc, if_pos (by simpa [IsBreak] using hbreak)]

theorem written_of_isRest (h : IsRest line.text.toList) :
    line.written = [line.side.sign :: line.text.toList ++ ['\n'], marker] := by
  obtain ⟨c, hc, hbreak⟩ := h.getLast?
  rw [written, hc, if_neg (by simpa [IsBreak] using hbreak)]

theorem flatten_written (line : Line) :
    line.written.flatten = writeLine line.side.sign line.text := by
  have hrest : [line.side.sign :: line.text.toList ++ ['\n'], marker].flatten =
      line.side.sign :: line.text.toList ++ "\n\\ No newline at end of file\n".toList := by
    rw [feed_marker, List.flatten_cons, List.flatten_singleton, List.append_assoc,
      List.singleton_append]
  unfold written writeLine
  dsimp only
  cases line.text.toList.getLast? with
  | none => exact hrest
  | some c =>
    rw [Option.any_some]
    split
    · rw [List.flatten_singleton, List.append_nil]
    · exact hrest

end Line

theorem not_isBreak_of_mem {cs : List Char} (hfeed : '\n' ∉ cs) (hback : '\r' ∉ cs) :
    ∀ c ∈ cs, ¬ IsBreak c := by
  rintro c hc (rfl | rfl)
  · exact hfeed hc
  · exact hback hc

theorem isEnded_marker : IsEnded marker := by
  have hsplit : marker = "\\ No newline at end of file".toList ++ ['\n'] := rfl
  rw [hsplit]
  exact .feed (not_isBreak_of_mem (by decide) (by decide))

/-- Whether characters stand as a line in a diff: they are one, and start with a sign. -/
structure IsWritten (cs : List Char) : Prop where
  ended : IsEnded cs
  signed : cs.head? ≠ some '\n'

theorem isWritten_of_mem_written {line : Line} (hline : line.IsWhole) {cs : List Char}
    (h : cs ∈ line.written) : IsWritten cs := by
  have hsign : some line.side.sign ≠ some '\n' := by
    intro heq
    exact line.side.not_isBreak_sign (.inl (Option.some.inj heq))
  obtain hended | hrest := hline
  · rw [Line.written_of_isEnded hended] at h
    obtain rfl := List.mem_singleton.mp h
    exact ⟨hended.cons line.side.not_isBreak_sign, hsign⟩
  · rw [Line.written_of_isRest hrest] at h
    obtain rfl | h := List.mem_cons.mp h
    · exact ⟨.feed (List.forall_mem_cons.mpr ⟨line.side.not_isBreak_sign, hrest.2⟩), hsign⟩
    · obtain rfl := List.mem_singleton.mp h
      exact ⟨isEnded_marker, nofun⟩

theorem readLine?_sign (side : Side) (cs : List Char) (r : Reading) :
    readLine? (String.ofList (side.sign :: cs)) r = some (r.put side cs) := by
  rw [readLine?, String.toList_ofList]
  cases side <;> rfl

theorem readLine?_marker {r : Reading} (h : r.unended = false) :
    readLine? (String.ofList marker) r = some { r with unended := true } := by
  have hsplit : marker = '\\' :: " No newline at end of file\n".toList := rfl
  rw [hsplit, readLine?, String.toList_ofList, h]
  rfl

/-- Reading a line of a hunk puts it in front of the lines behind it. -/
theorem readLines?_written {line : Line} (hline : line.IsWhole) {rest : List String}
    {lines : List Line} {hunks : List Hunk} (h : readLines? rest = some ⟨false, lines, hunks⟩) :
    readLines? (line.written.map String.ofList ++ rest) = some ⟨false, line :: lines, hunks⟩ := by
  obtain hended | hrest := hline
  · rw [Line.written_of_isEnded hended, List.map_singleton, List.singleton_append, readLines?, h,
      Option.bind_some, readLine?_sign, Reading.put, if_neg Bool.false_ne_true,
      String.ofList_toList]
  · rw [Line.written_of_isRest hrest, List.map_cons, List.map_singleton, List.cons_append,
      List.singleton_append, readLines?, readLines?, h, Option.bind_some, readLine?_marker rfl,
      Option.bind_some, List.cons_append, readLine?_sign, Reading.put, if_pos rfl,
      List.dropLast_concat, String.ofList_toList]

theorem readLines?_lines {lines : List Line} (hlines : ∀ line ∈ lines, line.IsWhole)
    {rest : List String} {hunks : List Hunk} (h : readLines? rest = some ⟨false, [], hunks⟩) :
    readLines? ((lines.flatMap Line.written).map String.ofList ++ rest) =
      some ⟨false, lines, hunks⟩ := by
  induction lines with
  | nil => exact h
  | cons line lines ih =>
    obtain ⟨hline, hlines⟩ := List.forall_mem_cons.mp hlines
    rw [List.flatMap_cons, List.map_append, List.append_assoc]
    exact readLines?_written hline (ih hlines)

/-! ## Hunks -/

namespace Hunk

/-- What the header of a hunk is. -/
def header (hunk : Hunk) : List Char :=
  "@@ -".toList ++ writeRange hunk.old.start hunk.old.stop ++ " +".toList ++
    writeRange hunk.new.start hunk.new.stop ++ " @@\n".toList

/-- The lines of a diff for a hunk. -/
def written (hunk : Hunk) : List (List Char) := hunk.header :: hunk.lines.flatMap Line.written

variable {hunk : Hunk}

theorem isWritten_header (hunk : Hunk) : IsWritten hunk.header := by
  have hsplit : " @@\n".toList = " @@".toList ++ ['\n'] := rfl
  refine ⟨?_, nofun⟩
  rw [header, hsplit, ← List.append_assoc]
  refine .feed ?_
  simp only [List.forall_mem_append]
  exact ⟨⟨⟨⟨not_isBreak_of_mem (by decide) (by decide), fun c => not_isBreak_of_mem_writeRange⟩,
    not_isBreak_of_mem (by decide) (by decide)⟩, fun c => not_isBreak_of_mem_writeRange⟩,
    not_isBreak_of_mem (by decide) (by decide)⟩

theorem header?_header (hunk : Hunk) : header? hunk.header = some (hunk.old, hunk.new) := by
  rw [header, header?_write, Stretch.stop, Stretch.stop, Nat.add_sub_cancel_left,
    Nat.add_sub_cancel_left]

theorem readLine?_header (hunk : Hunk) (lines : List Line) (hunks : List Hunk) :
    readLine? (String.ofList hunk.header) ⟨false, lines, hunks⟩ =
      some ⟨false, [], ⟨hunk.old, hunk.new, lines⟩ :: hunks⟩ := by
  have hread := hunk.header?_header
  obtain ⟨cs, hcs⟩ : ∃ cs, hunk.header = '@' :: cs := ⟨_, rfl⟩
  rw [hcs] at hread ⊢
  rw [readLine?, String.toList_ofList]
  change (header? ('@' :: cs)).map _ = _
  rw [hread]
  rfl

theorem isWritten_of_mem_written (hlines : ∀ line ∈ hunk.lines, line.IsWhole) {cs : List Char}
    (h : cs ∈ hunk.written) : IsWritten cs := by
  obtain rfl | h := List.mem_cons.mp h
  · exact hunk.isWritten_header
  · obtain ⟨line, hline, hcs⟩ := List.mem_flatMap.mp h
    exact Diff.isWritten_of_mem_written (hlines line hline) hcs

/-- Reading a hunk puts it in front of the hunks behind it. -/
theorem readLines?_written (hlines : ∀ line ∈ hunk.lines, line.IsWhole) {rest : List String}
    {hunks : List Hunk} (h : readLines? rest = some ⟨false, [], hunks⟩) :
    readLines? (hunk.written.map String.ofList ++ rest) = some ⟨false, [], hunk :: hunks⟩ := by
  rw [written, List.map_cons, List.cons_append, readLines?, readLines?_lines hlines h,
    Option.bind_some, readLine?_header]

end Hunk

theorem readLines?_hunks {hunks : List Hunk}
    (hlines : ∀ hunk ∈ hunks, ∀ line ∈ hunk.lines, line.IsWhole) :
    readLines? ((hunks.flatMap Hunk.written).map String.ofList) = some ⟨false, [], hunks⟩ := by
  induction hunks with
  | nil => rfl
  | cons hunk hunks ih =>
    obtain ⟨hhunk, hlines⟩ := List.forall_mem_cons.mp hlines
    rw [List.flatMap_cons, List.map_append]
    exact Hunk.readLines?_written hhunk (ih hlines)

/-- The line of a diff that names the file on one side. -/
def fileLine (front : String) (path : String) : List Char :=
  front.toList ++ path.toList ++ ['\n']

/-- The lines of a diff for a path. -/
def writtenDiff (path : String) (hunks : List Hunk) : List (List Char) :=
  fileLine "--- a/" path :: fileLine "+++ b/" path :: hunks.flatMap Hunk.written

theorem ofList_fileLine (front path : String) :
    String.ofList (fileLine front path) = front ++ path ++ "\n" := by
  rw [fileLine, String.ofList_append, String.ofList_append, String.ofList_toList,
    String.ofList_toList]

theorem isWritten_fileLine {front path : String} (hpath : ∀ c ∈ path.toList, ¬ IsBreak c)
    (hfront : ∀ c ∈ front.toList, ¬ IsBreak c) (hsome : front.toList ≠ []) :
    IsWritten (fileLine front path) := by
  refine ⟨.feed (List.forall_mem_append.mpr ⟨hfront, hpath⟩), ?_⟩
  rw [fileLine, List.append_assoc, List.head?_append_of_ne_nil _ hsome]
  intro hfeed
  exact hfront '\n' (List.mem_of_head? hfeed) (.inl rfl)

theorem isWritten_of_mem_writtenDiff {path : String} {hunks : List Hunk}
    (hpath : ∀ c ∈ path.toList, ¬ IsBreak c)
    (hlines : ∀ hunk ∈ hunks, ∀ line ∈ hunk.lines, line.IsWhole) {cs : List Char}
    (h : cs ∈ writtenDiff path hunks) : IsWritten cs := by
  obtain rfl | h := List.mem_cons.mp h
  · exact isWritten_fileLine hpath (not_isBreak_of_mem (by decide) (by decide)) (by decide)
  obtain rfl | h := List.mem_cons.mp h
  · exact isWritten_fileLine hpath (not_isBreak_of_mem (by decide) (by decide)) (by decide)
  · obtain ⟨hunk, hhunk, hcs⟩ := List.mem_flatMap.mp h
    exact Hunk.isWritten_of_mem_written (hlines hunk hhunk) hcs

/-- Hunks that are written as a diff are read back. -/
theorem read?_writtenDiff {path : String} {hunks : List Hunk}
    (hpath : ∀ c ∈ path.toList, ¬ IsBreak c)
    (hlines : ∀ hunk ∈ hunks, ∀ line ∈ hunk.lines, line.IsWhole) :
    read? path (writtenDiff path hunks).flatten = some hunks := by
  have hwritten : ∀ cs ∈ writtenDiff path hunks, IsWritten cs := fun _ =>
    isWritten_of_mem_writtenDiff hpath hlines
  rw [read?, splitLines_flatten (fun cs hcs => (hwritten cs hcs).ended) fun cs hcs =>
    (hwritten cs hcs).signed, writtenDiff, List.map_cons, List.map_cons, ofList_fileLine,
    ofList_fileLine]
  change (if _ then _ else _) = _
  rw [if_pos (by simp), readLines?_hunks hlines]
  rfl

/-! ## The hunks of a script -/

/-- Some lines of a side. -/
def slice (lines : Array String) (s : Stretch) : List String :=
  (lines.toList.drop s.start).take s.length

/-- The lines of a hunk for a step. -/
def Step.lines (old new : Array String) (step : Step) : List Line :=
  match step.kind with
  | .keep => (slice old step.old).map (Line.mk .both)
  | _ => (slice old step.old).map (Line.mk .old) ++ (slice new step.new).map (Line.mk .new)

theorem Step.lines_of_keep {old new : Array String} {step : Step} (h : step.kind = .keep) :
    step.lines old new = (slice old step.old).map (Line.mk .both) := by
  rw [lines, h]

theorem Step.lines_of_change {old new : Array String} {step : Step} (h : step.kind ≠ .keep) :
    step.lines old new =
      (slice old step.old).map (Line.mk .old) ++ (slice new step.new).map (Line.mk .new) := by
  rw [lines]
  split
  · exact absurd ‹_› h
  · rfl

/-- The hunk that is written for steps. -/
def Hunk.ofSteps (old new : Array String) (steps : List Step) : Hunk :=
  let lines := steps.flatMap (Step.lines old new)
  match steps.head?, steps.getLast? with
  | some first, some last =>
    ⟨⟨first.old.start, last.old.stop - first.old.start⟩,
      ⟨first.new.start, last.new.stop - first.new.start⟩, lines⟩
  | _, _ => ⟨⟨0, 0⟩, ⟨0, 0⟩, lines⟩

theorem Hunk.lines_ofSteps (old new : Array String) (steps : List Step) :
    (ofSteps old new steps).lines = steps.flatMap (Step.lines old new) := by
  unfold ofSteps
  dsimp only
  split <;> rfl

theorem writeRange_stop (start stop : Nat) :
    writeRange start (Stretch.stop ⟨start, stop - start⟩) = writeRange start stop := by
  have hlength : Stretch.stop ⟨start, stop - start⟩ - start = stop - start :=
    Nat.add_sub_cancel_left start (stop - start)
  rw [writeRange, writeRange, hlength]

theorem flatten_written (side : Side) (texts : List String) :
    ((texts.map (Line.mk side)).flatMap Line.written).flatten =
      texts.flatMap (writeLine side.sign) := by
  induction texts with
  | nil => rfl
  | cons text texts ih =>
    rw [List.map_cons, List.flatMap_cons, List.flatten_append, ih, Line.flatten_written,
      List.flatMap_cons]

theorem flatten_step (old new : Array String) (step : Step) :
    ((step.lines old new).flatMap Line.written).flatten = writeStep old new step := by
  have hboth : ∀ side : Side, ∀ lines s, writeLines side.sign lines s =
      (((slice lines s).map (Line.mk side)).flatMap Line.written).flatten := fun side lines s =>
    (flatten_written side (slice lines s)).symm
  by_cases hkeep : step.kind = .keep
  · rw [Step.lines_of_keep hkeep, writeStep, hkeep]
    exact (hboth .both old step.old).symm
  · rw [Step.lines_of_change hkeep, List.flatMap_append, List.flatten_append, ← hboth, ← hboth,
      writeStep]
    split
    · exact absurd ‹_› hkeep
    · rfl

theorem flatten_steps (old new : Array String) (steps : List Step) :
    ((steps.flatMap (Step.lines old new)).flatMap Line.written).flatten =
      steps.flatMap (writeStep old new) := by
  induction steps with
  | nil => rfl
  | cons step steps ih =>
    rw [List.flatMap_cons, List.flatMap_append, List.flatten_append, ih, flatten_step,
      List.flatMap_cons]

theorem flatten_ofSteps {old new : Array String} {steps : List Step} (hne : steps ≠ []) :
    (Hunk.ofSteps old new steps).written.flatten = writeHunk old new steps := by
  obtain ⟨first, hfirst⟩ := Option.ne_none_iff_exists'.mp (mt List.head?_eq_none_iff.mp hne)
  obtain ⟨last, hlast⟩ := Option.ne_none_iff_exists'.mp (mt List.getLast?_eq_none_iff.mp hne)
  rw [Hunk.ofSteps, writeHunk, writeHeader, hfirst, hlast, Hunk.written, Hunk.header,
    List.flatten_cons]
  dsimp only
  rw [flatten_steps, writeRange_stop, writeRange_stop]

theorem flatten_hunks {old new : Array String} {groups : List (List Step)}
    (hsome : ∀ group ∈ groups, group ≠ []) :
    ((groups.map (Hunk.ofSteps old new)).flatMap Hunk.written).flatten =
      groups.flatMap (writeHunk old new) := by
  induction groups with
  | nil => rfl
  | cons group groups ih =>
    obtain ⟨hgroup, hsome⟩ := List.forall_mem_cons.mp hsome
    rw [List.map_cons, List.flatMap_cons, List.flatten_append, ih hsome, flatten_ofSteps hgroup,
      List.flatMap_cons]

/-- A diff is its hunks, written for its path. -/
theorem unified_eq {path : String} {old new : List Char} (hne : old ≠ new)
    (hsome : ∀ group ∈ hunks (shownScript (splitLines old).toArray (splitLines new).toArray),
      group ≠ []) :
    unified path old new = (writtenDiff path
      ((hunks (shownScript (splitLines old).toArray (splitLines new).toArray)).map
        (Hunk.ofSteps (splitLines old).toArray (splitLines new).toArray))).flatten := by
  have hsplit : "\n+++ b/".toList = ['\n'] ++ "+++ b/".toList := rfl
  rw [unified, if_neg hne, writtenDiff, List.flatten_cons, List.flatten_cons, flatten_hunks hsome,
    fileLine, fileLine, hsplit]
  simp only [List.append_assoc, List.cons_append, List.nil_append]

theorem mem_slice {lines : Array String} {s : Stretch} {text : String} (h : text ∈ slice lines s) :
    text ∈ lines.toList := List.mem_of_mem_drop (List.mem_of_mem_take h)

theorem Step.text_mem {old new : Array String} {step : Step} {line : Line}
    (h : line ∈ step.lines old new) : line.text ∈ old.toList ∨ line.text ∈ new.toList := by
  by_cases hkeep : step.kind = .keep
  · rw [lines_of_keep hkeep] at h
    obtain ⟨text, htext, rfl⟩ := List.mem_map.mp h
    exact .inl (mem_slice htext)
  · rw [lines_of_change hkeep, List.mem_append] at h
    obtain h | h := h
    · obtain ⟨text, htext, rfl⟩ := List.mem_map.mp h
      exact .inl (mem_slice htext)
    · obtain ⟨text, htext, rfl⟩ := List.mem_map.mp h
      exact .inr (mem_slice htext)

theorem isWhole_of_mem_ofSteps {old new : List Char} {group : List Step} {line : Line}
    (h : line ∈ (Hunk.ofSteps (splitLines old).toArray (splitLines new).toArray group).lines) :
    line.IsWhole := by
  rw [Hunk.lines_ofSteps] at h
  obtain ⟨step, -, hline⟩ := List.mem_flatMap.mp h
  obtain htext | htext := step.text_mem hline
  · exact isEnded_of_mem_splitLines htext
  · exact isEnded_of_mem_splitLines htext

end Rephrase.Diff
