import Rephrase.Proofs.Diff.Patch
import Rephrase.Proofs.Text.RawLine

/-! A count is told by the first characters of what stands between two line feeds, so it has the
changed lines of a diff that look like no header and stand right behind a line feed, each once. -/

namespace Rephrase.Diff

open Text

/-! ## What is counted -/

/-- Whether a line counts as a changed one with a sign. -/
def isCounted (sign : Char) (line : List Char) : Bool :=
  line.head? == some sign && !("+++".toList.isPrefixOf line || "---".toList.isPrefixOf line)

theorem count_eq (diff : List Char) : count diff =
    ((lines diff).countP (isCounted '+'), (lines diff).countP (isCounted '-')) := by
  rw [count, List.countP_filter, List.countP_filter]
  rfl

/-- What has no break in it stands at the start of a text if it does so in front of a break. -/
theorem isPrefixOf_append_break {front body stop : List Char} (hfront : ∀ c ∈ front, ¬ IsBreak c)
    (hstop : ∀ c ∈ stop.head?, IsBreak c) :
    front.isPrefixOf (body ++ stop) = front.isPrefixOf body := by
  rw [Bool.eq_iff_iff, List.isPrefixOf_iff_prefix, List.isPrefixOf_iff_prefix]
  refine ⟨fun h => ?_, fun h => h.trans (List.prefix_append _ _)⟩
  rcases List.prefix_or_prefix_of_prefix h (List.prefix_append body stop) with hbody | ⟨rest, rfl⟩
  · exact hbody
  · rcases rest with - | ⟨c, rest⟩
    · simp
    · have hrest := (List.prefix_append_right_inj body).mp h
      rcases stop with - | ⟨d, stop⟩
      · simp at hrest
      · rcases List.cons_prefix_cons.mp hrest with ⟨rfl, -⟩
        exact absurd (hstop c rfl) (hfront c (by simp))

/-- A line with its end is what stands in front of the end, and the end. -/
theorem IsEnded.exists_break {cs : List Char} (h : IsEnded cs) : ∃ core stop, cs = core ++ stop ∧
    (∀ c ∈ core, ¬ IsBreak c) ∧ stop ≠ [] ∧ ∀ c ∈ stop.head?, IsBreak c := by
  cases h with
  | @feed core hcore => exact ⟨core, ['\n'], rfl, hcore, by simp, by simp [IsBreak]⟩
  | @back core hcore => exact ⟨core, ['\r'], rfl, hcore, by simp, by simp [IsBreak]⟩
  | @both core hcore => exact ⟨core, ['\r', '\n'], rfl, hcore, by simp, by simp [IsBreak]⟩

theorem exists_lineBody (raw : List Char) :
    ∃ stop, raw = lineBody raw ++ stop ∧ ∀ c ∈ stop.head?, IsBreak c := by
  unfold lineBody
  split
  · rename_i rest hreverse
    refine ⟨['\r', '\n'], ?_, by simp [IsBreak]⟩
    rw [← List.reverse_reverse raw, hreverse]
    simp
  · rename_i rest _ hreverse
    refine ⟨['\n'], ?_, by simp [IsBreak]⟩
    rw [← List.reverse_reverse raw, hreverse]
    simp
  · exact ⟨[], by simp, by simp⟩

/-- Whatever follows a line up to the next line feed, what stands in front of it is the same. -/
theorem isPrefixOf_lineBody {front line raw : List Char} (hfront : ∀ c ∈ front, ¬ IsBreak c)
    (hline : IsEnded line) (h : line <+: raw) :
    front.isPrefixOf (lineBody raw) = front.isPrefixOf line := by
  rcases h with ⟨more, rfl⟩
  rcases exists_lineBody (line ++ more) with ⟨stop, hbody, hstop⟩
  rcases hline.exists_break with ⟨core, stop', rfl, -, hsome, hstop'⟩
  have hmore : ∀ c ∈ (stop' ++ more).head?, IsBreak c := by
    rwa [List.head?_append_of_ne_nil _ hsome]
  rw [isPrefixOf_append_break hfront hstop', ← isPrefixOf_append_break hfront hstop, ← hbody,
    List.append_assoc, isPrefixOf_append_break hfront hmore]

theorem head?_beq (sign : Char) (line : List Char) :
    (line.head? == some sign) = [sign].isPrefixOf line := by
  cases line with
  | nil => rfl
  | cons c line => simp [List.isPrefixOf, eq_comm]

/-- What is counted for a stretch up to a line feed is told by the first line in it. -/
theorem isCounted_lineBody {sign : Char} {line raw : List Char} (hsign : ¬ IsBreak sign)
    (hline : IsEnded line) (h : line <+: raw) :
    isCounted sign (lineBody raw) = isCounted sign line := by
  have hadd : ∀ c ∈ "+++".toList, ¬ IsBreak c := not_isBreak_of_mem (by decide) (by decide)
  have hremove : ∀ c ∈ "---".toList, ¬ IsBreak c := not_isBreak_of_mem (by decide) (by decide)
  have hfirst : ∀ c ∈ [sign], ¬ IsBreak c := by simpa using hsign
  rw [isCounted, isCounted, head?_beq, head?_beq, isPrefixOf_lineBody hfirst hline h,
    isPrefixOf_lineBody hadd hline h, isPrefixOf_lineBody hremove hline h]

/-! ## Lines behind a line feed -/

/-- The lines that stand right behind a line feed; `fresh` says whether the first one does. -/
def freshLines (fresh : Bool) : List (List Char) → List (List Char)
  | [] => []
  | line :: rest =>
    (if fresh then [line] else []) ++ freshLines (line.getLast? == some '\n') rest

theorem mem_freshLines {fresh : Bool} {ws : List (List Char)} {line : List Char}
    (h : line ∈ freshLines fresh ws) : line ∈ ws := by
  induction ws generalizing fresh with
  | nil => exact h
  | cons first ws ih =>
    rcases List.mem_append.mp h with hfirst | hrest
    · cases fresh
      · cases hfirst
      · exact List.mem_cons.mpr (.inl (List.mem_singleton.mp hfirst))
    · exact List.mem_cons_of_mem _ (ih hrest)

theorem IsEnded.feed_or_return {cs : List Char} (h : IsEnded cs) :
    (∃ body, '\n' ∉ body ∧ cs = body ++ ['\n']) ∨ '\n' ∉ cs := by
  have hfeed : ∀ core : List Char, (∀ c ∈ core, ¬ IsBreak c) → '\n' ∉ core := fun _ hcore hmem =>
    hcore _ hmem (.inl rfl)
  cases h with
  | @feed core hcore => exact .inl ⟨core, hfeed core hcore, rfl⟩
  | @back core hcore => exact .inr (by simpa using hfeed core hcore)
  | @both core hcore => exact .inl ⟨core ++ ['\r'], by simpa using hfeed core hcore, by simp⟩

/-- Each stretch between two line feeds starts with a line behind a line feed, or with what stands
in front of all lines. -/
theorem forall₂_rawLines {ws : List (List Char)} (hws : ∀ w ∈ ws, IsEnded w) {front : List Char}
    (hfront : '\n' ∉ front) : List.Forall₂ (fun raw line => line <+: raw)
      (rawLines (front ++ ws.flatten))
      (if front = [] then freshLines true ws else front :: freshLines false ws) := by
  -- On the lines, with those since the last line feed in front of them.
  induction ws generalizing front with
  | nil =>
    rw [List.flatten_nil, List.append_nil]
    by_cases hnil : front = []
    · rw [hnil]
      exact .nil
    · rw [if_neg hnil, rawLines_of_not_mem hfront hnil]
      exact .cons List.prefix_rfl .nil
  | cons w ws ih =>
    have hw := hws w List.mem_cons_self
    have hws' : ∀ w ∈ ws, IsEnded w := fun w hw => hws w (List.mem_cons_of_mem _ hw)
    have hlines : (if front = [] then freshLines true (w :: ws) else
        front :: freshLines false (w :: ws)) =
        (if front = [] then w else front) :: freshLines (w.getLast? == some '\n') ws := by
      split <;> rfl
    have hfirst : (if front = [] then w else front) <+: front ++ w := by
      split
      · rename_i hnil
        rw [hnil, List.nil_append]
      · exact List.prefix_append _ _
    rw [hlines, List.flatten_cons, ← List.append_assoc]
    rcases hw.feed_or_return with ⟨body, hbody, rfl⟩ | hreturn
    · have hraw : IsRaw (front ++ (body ++ ['\n'])) [ws.flatten] :=
        .inl ⟨front ++ body, by simp [hfront, hbody], by simp⟩
      have hsplit := rawLines_cons hraw
      rw [List.flatten_singleton] at hsplit
      rw [hsplit, List.getLast?_concat]
      exact .cons hfirst (ih hws' (List.not_mem_nil))
    · have hlast : (w.getLast? == some '\n') = false := by
        apply beq_false_of_ne
        exact fun heq => hreturn (List.mem_of_getLast? heq)
      have hrest := @ih hws' (front ++ w) (by simp [hfront, hreturn])
      rw [if_neg (by simp [hw.ne_nil]), List.forall₂_cons_right_iff] at hrest
      rcases hrest with ⟨raw, raws, hraw, hrest, hsplit⟩
      rw [hlast, hsplit]
      exact .cons (hfirst.trans hraw) hrest

/-- How many of the lines behind a line feed are counted. -/
def found (sign : Char) (fresh : Bool) (ws : List (List Char)) : Nat :=
  (freshLines fresh ws).countP (isCounted sign)

theorem countP_lines {sign : Char} (hsign : ¬ IsBreak sign) {ws : List (List Char)}
    (hws : ∀ w ∈ ws, IsEnded w) :
    (lines ws.flatten).countP (isCounted sign) = found sign true ws := by
  have hstarts := forall₂_rawLines hws (List.not_mem_nil (a := '\n'))
  rw [if_pos rfl, List.nil_append] at hstarts
  have hends : ∀ line ∈ freshLines true ws, IsEnded line := fun line hline =>
    hws line (mem_freshLines hline)
  rw [lines, List.countP_map, found]
  generalize rawLines ws.flatten = raws, freshLines true ws = starts at hstarts hends
  induction hstarts with
  | nil => rfl
  | cons hstart _ ih =>
    rw [List.countP_cons, List.countP_cons, ih fun line hline => hends line (by simp [hline])]
    simp only [Function.comp_apply, isCounted_lineBody hsign (hends _ List.mem_cons_self) hstart]

theorem found_cons (sign : Char) (fresh : Bool) (line : List Char) (ws : List (List Char)) :
    found sign fresh (line :: ws) = (if fresh && isCounted sign line then 1 else 0) +
      found sign (line.getLast? == some '\n') ws := by
  cases fresh
  · simp [found, freshLines]
  · simp [found, freshLines, List.countP_cons, Nat.add_comm]

theorem found_skip {sign : Char} {line : List Char} (hline : isCounted sign line = false)
    (hfeed : line.getLast? = some '\n') (fresh : Bool) (ws : List (List Char)) :
    found sign fresh (line :: ws) = found sign true ws := by
  rw [found_cons, hline, hfeed, Bool.and_false]
  exact Nat.zero_add _

/-! ## Changed lines -/

namespace Line

/-- Whether a line starts with its own sign twice, so that it looks like a file's header once it is
written behind the sign. -/
def isDoubled (line : Line) : Bool := [line.side.sign, line.side.sign].isPrefixOf line.text.toList

/-- Whether no line feed stands behind a line. -/
def isOpen (line : Line) : Bool := line.text.toList.getLast? == some '\r'

end Line

/-- The lines of a hunk, each with the one in front of it. -/
def neighbours (front : Option Line) (lines : List Line) : List (Option Line × Line) :=
  (front :: lines.map some).zip lines

theorem neighbours_cons (front : Option Line) (line : Line) (lines : List Line) :
    neighbours front (line :: lines) = (front, line) :: neighbours (some line) lines := rfl

theorem map_snd_neighbours (front : Option Line) (lines : List Line) :
    (neighbours front lines).map Prod.snd = lines := by
  rw [neighbours, List.map_snd_zip]
  simp

/-- Whether a count misses a line, for how it starts or for how the line in front of it ends. -/
def isHidden (pair : Option Line × Line) : Bool := pair.1.any Line.isOpen || pair.2.isDoubled

def isFound (side : Side) (pair : Option Line × Line) : Bool :=
  pair.2.side = side && !isHidden pair

theorem isFound_mk (side : Side) (front : Option Line) (line : Line) :
    isFound side (front, line) =
      (!front.any Line.isOpen && (line.side = side && !line.isDoubled)) := by
  rw [isFound, isHidden, Bool.not_or, Bool.and_left_comm]

theorem isCounted_append_feed (sign : Char) (line : List Char) (h : line ≠ []) :
    isCounted sign (line ++ ['\n']) = isCounted sign line := by
  have hfeed : ∀ c ∈ ['\n'].head?, IsBreak c := by simp [IsBreak]
  rw [isCounted, isCounted, List.head?_append_of_ne_nil _ h,
    isPrefixOf_append_break (not_isBreak_of_mem (by decide) (by decide)) hfeed,
    isPrefixOf_append_break (not_isBreak_of_mem (by decide) (by decide)) hfeed]

theorem isCounted_cons {side : Side} (hside : side ≠ .both) (line : Line) :
    isCounted side.sign (line.side.sign :: line.text.toList) =
      (line.side = side && !line.isDoubled) := by
  rcases line with ⟨_ | _ | _, text⟩ <;> cases side <;>
    simp [isCounted, Side.sign, Line.isDoubled, List.isPrefixOf] at hside ⊢

theorem found_written {side : Side} (hside : side ≠ .both) {line : Line} (hline : line.IsWhole)
    (fresh : Bool) (ws : List (List Char)) :
    found side.sign fresh (line.written ++ ws) =
      (if fresh && (line.side = side && !line.isDoubled) then 1 else 0) +
        found side.sign (!line.isOpen) ws := by
  rcases hline with hended | hrest
  · rw [Line.written_of_isEnded hended, List.singleton_append, found_cons, isCounted_cons hside]
    rcases hended.getLast? with ⟨c, hc, hbreak⟩
    have hlast : (line.side.sign :: line.text.toList).getLast? = some c := by
      rw [List.getLast?_cons, hc]
      rfl
    have hopen : (some c == some '\n') = !line.isOpen := by
      rw [Line.isOpen, hc]
      rcases hbreak with rfl | rfl <;> rfl
    rw [hlast, hopen]
  · rcases hrest.getLast? with ⟨c, hc, hbreak⟩
    have hopen : line.isOpen = false := by
      rw [Line.isOpen, hc]
      exact beq_false_of_ne fun heq => hbreak (.inr (Option.some.inj heq))
    have hmarker : isCounted side.sign marker = false := by
      cases side <;> rfl
    rw [Line.written_of_isRest hrest, List.cons_append, List.singleton_append, found_cons,
      List.getLast?_concat, found_skip hmarker rfl,
      isCounted_append_feed _ _ (List.cons_ne_nil _ _), isCounted_cons hside, hopen]
    rfl

/-- The lines of a hunk that a count finds are those that nothing hides, whatever stands in front
of the hunk or behind it. -/
theorem found_lines {side : Side} (hside : side ≠ .both) {lines : List Line}
    (hlines : ∀ line ∈ lines, line.IsWhole) {ws : List (List Char)} {n : Nat}
    (hws : ∀ fresh, found side.sign fresh ws = n) (front : Option Line) :
    found side.sign (!front.any Line.isOpen) (lines.flatMap Line.written ++ ws) =
      (neighbours front lines).countP (isFound side) + n := by
  induction lines generalizing front with
  | nil => simp [hws, neighbours]
  | cons line lines ih =>
    rcases List.forall_mem_cons.mp hlines with ⟨hline, hlines⟩
    have hrest := ih hlines (some line)
    rw [List.flatMap_cons, List.append_assoc, found_written hside hline]
    rw [Option.any_some] at hrest
    rw [hrest, neighbours_cons, List.countP_cons, isFound_mk]
    omega

theorem found_hunk {side : Side} (hside : side ≠ .both) {hunk : Hunk}
    (hlines : ∀ line ∈ hunk.lines, line.IsWhole) {ws : List (List Char)} {n : Nat}
    (hws : ∀ fresh, found side.sign fresh ws = n) (fresh : Bool) :
    found side.sign fresh (hunk.written ++ ws) =
      (neighbours none hunk.lines).countP (isFound side) + n := by
  have hheader : isCounted side.sign hunk.header = false := by
    cases side <;> rfl
  have hfeed : hunk.header.getLast? = some '\n' := by
    rw [Hunk.header, List.getLast?_append_of_ne_nil _ (by decide)]
    rfl
  rw [Hunk.written, List.cons_append, found_skip hheader hfeed]
  exact found_lines hside hlines hws none

theorem found_hunks {side : Side} (hside : side ≠ .both) {hunks : List Hunk}
    (hlines : ∀ hunk ∈ hunks, ∀ line ∈ hunk.lines, line.IsWhole) (fresh : Bool) :
    found side.sign fresh (hunks.flatMap Hunk.written) =
      (hunks.flatMap fun hunk => neighbours none hunk.lines).countP (isFound side) := by
  induction hunks generalizing fresh with
  | nil => rfl
  | cons hunk hunks ih =>
    rcases List.forall_mem_cons.mp hlines with ⟨hhunk, hlines⟩
    rw [List.flatMap_cons, List.flatMap_cons, List.countP_append]
    exact found_hunk hside hhunk (fun fresh => ih hlines fresh) fresh

/-- A count of a diff has the changed lines that nothing hides. -/
theorem count_writtenDiff {path : String} {hunks : List Hunk}
    (hpath : ∀ c ∈ path.toList, ¬ IsBreak c)
    (hlines : ∀ hunk ∈ hunks, ∀ line ∈ hunk.lines, line.IsWhole) :
    count (writtenDiff path hunks).flatten =
      ((hunks.flatMap fun hunk => neighbours none hunk.lines).countP (isFound .new),
        (hunks.flatMap fun hunk => neighbours none hunk.lines).countP (isFound .old)) := by
  have hends : ∀ w ∈ writtenDiff path hunks, IsEnded w := fun w hw =>
    (isWritten_of_mem_writtenDiff hpath hlines hw).ended
  have hside : ∀ side : Side, side ≠ .both → (lines (writtenDiff path hunks).flatten).countP
      (isCounted side.sign) =
        (hunks.flatMap fun hunk => neighbours none hunk.lines).countP (isFound side) := by
    intro side hside
    have hold : isCounted side.sign (fileLine "--- a/" path) = false := by
      cases side <;> simp [isCounted, fileLine, Side.sign]
    have hnew : isCounted side.sign (fileLine "+++ b/" path) = false := by
      cases side <;> simp [isCounted, fileLine, Side.sign]
    have hfeed : ∀ front, (fileLine front path).getLast? = some '\n' := fun front =>
      List.getLast?_concat
    rw [countP_lines side.not_isBreak_sign hends, writtenDiff, found_skip hold (hfeed _),
      found_skip hnew (hfeed _)]
    exact found_hunks hside hlines true
  rw [count_eq]
  exact Prod.ext (hside .new (by decide)) (hside .old (by decide))

/-! ## Changed lines of a script -/

/-- The steps that change lines. -/
def changes (steps : List Step) : List Step := steps.filter fun step => step.kind ≠ .keep

/-- How many lines come by a script. -/
def added (steps : List Step) : Nat := ((changes steps).map fun step => step.new.length).sum

/-- How many lines go by a script. -/
def removed (steps : List Step) : Nat := ((changes steps).map fun step => step.old.length).sum

theorem changes_append (steps more : List Step) :
    changes (steps ++ more) = changes steps ++ changes more := List.filter_append _ _

theorem changes_cons_keep {step : Step} (h : step.kind = .keep) (steps : List Step) :
    changes (step :: steps) = changes steps := by
  rw [changes, List.filter_cons_of_neg (by simpa using h)]
  rfl

theorem changes_cons_change {step : Step} (h : step.kind ≠ .keep) (steps : List Step) :
    changes (step :: steps) = step :: changes steps := by
  rw [changes, List.filter_cons_of_pos (by simpa using h)]
  rfl

theorem kind_firstKept (step : Step) : (firstKept step).kind = step.kind := rfl

theorem kind_lastKept (step : Step) : (lastKept step).kind = step.kind := rfl

theorem changes_trimFirst (steps : List Step) : changes (trimFirst steps) = changes steps := by
  cases steps with
  | nil => rfl
  | cons step steps =>
    rw [trimFirst]
    split
    · rename_i hkeep
      rw [changes_cons_keep hkeep, changes_cons_keep (kind_lastKept step ▸ hkeep)]
    · rfl

theorem changes_trimLast (steps : List Step) : changes (trimLast steps) = changes steps := by
  rcases List.eq_nil_or_concat steps with rfl | ⟨front, step, rfl⟩
  · rfl
  · rw [List.concat_eq_append, trimLast_concat, changes_append, changes_append]
    split
    · rename_i hkeep
      rw [changes_cons_keep hkeep, changes_cons_keep (kind_firstKept step ▸ hkeep)]
    · rfl

theorem changes_hunksFrom (group steps : List Step) :
    changes (hunksFrom group steps).flatten = changes (group.reverse ++ steps) := by
  fun_induction hunksFrom group steps with
  | case1 => rfl
  | case2 step hkeep => exact (changes_cons_keep hkeep []).symm
  | case3 step hchange => rfl
  | case4 group hsome hmore => simp
  | case5 group step rest hlong ih =>
    simp only [Bool.and_eq_true, decide_eq_true_eq] at hlong
    have hfirst : (firstKept step).kind = .keep := kind_firstKept step ▸ hlong.1
    have hlast : (lastKept step).kind = .keep := kind_lastKept step ▸ hlong.1
    rw [List.flatten_cons, List.reverse_singleton, List.singleton_append] at *
    rw [changes_append, ih, changes_cons_keep hlast, List.reverse_cons, changes_append,
      changes_append, changes_cons_keep hfirst, changes_cons_keep hlong.1]
    exact congrArg (· ++ changes rest) (List.append_nil _)
  | case6 group step rest hother ih =>
    rw [ih, List.reverse_cons, List.append_assoc, List.singleton_append]

/-- The hunks of a script have all of its changes. -/
theorem changes_hunks (steps : List Step) : changes (hunks steps).flatten = changes steps := by
  rw [hunks, changes_hunksFrom, trimKept_eq, List.reverse_nil, List.nil_append, changes_trimLast,
    changes_trimFirst]

theorem countP_side (side s : Side) (texts : List String) :
    (texts.map (Line.mk s)).countP (·.side = side) = if s = side then texts.length else 0 := by
  rw [List.countP_map]
  split
  · rename_i heq
    exact List.countP_eq_length.mpr fun _ _ => decide_eq_true heq
  · rename_i hne
    exact List.countP_eq_zero.mpr fun _ _ => by simpa using hne

section

variable {old new : Array String} {i j i' j' : Nat}

theorem Step.Changes.countP_lines {step : Step} (h : step.Changes i j)
    (hi : i + step.old.length ≤ old.size) (hj : j + step.new.length ≤ new.size) :
    (step.lines old new).countP (·.side = .new) = step.new.length ∧
      (step.lines old new).countP (·.side = .old) = step.old.length := by
  rw [lines_of_change h.kind_ne, List.countP_append, List.countP_append, countP_side, countP_side,
    countP_side, countP_side]
  cases h with
  | remove => simpa [slice_zero] using length_slice hi
  | add => simpa [slice_zero] using length_slice hj
  | replace => exact ⟨by simpa using length_slice hj, by simpa using length_slice hi⟩

/-- The changed lines of a side, as they stand in the diff and as the steps have them. -/
theorem IsShown.countP_lines {keeps keeps' : Bool} {steps : List Step}
    (h : IsShown old new keeps i j steps keeps' i' j') (hi : i' ≤ old.size) (hj : j' ≤ new.size) :
    (steps.flatMap (Step.lines old new)).countP (·.side = .new) = added steps ∧
      (steps.flatMap (Step.lines old new)).countP (·.side = .old) = removed steps := by
  induction h with
  | nil => exact ⟨rfl, rfl⟩
  | @keep i j n _ _ _ steps hpos hsame hrest ih =>
    have hkept : ∀ side : Side, side ≠ .both →
        ((Step.keep i j n).lines old new).countP (·.side = side) = 0 := fun side hside => by
      rw [Step.lines_of_keep rfl, countP_side, if_neg hside.symm]
    rw [List.flatMap_cons, List.countP_append, List.countP_append, hkept .new (by decide),
      hkept .old (by decide), added, removed, changes_cons_keep rfl, Nat.zero_add, Nat.zero_add]
    exact ih hi hj
  | change hstep hrest ih =>
    have hle := hrest.le
    rcases hstep.countP_lines (hle.1.trans hi) (hle.2.trans hj) with ⟨hnew, hold⟩
    rcases ih hi hj with ⟨hnew', hold'⟩
    rw [List.flatMap_cons, List.countP_append, List.countP_append, hnew, hold, hnew', hold', added,
      removed, added, removed, changes_cons_change hstep.kind_ne]
    exact ⟨rfl, rfl⟩

theorem added_append (steps more : List Step) :
    added (steps ++ more) = added steps + added more := by
  rw [added, changes_append, List.map_append, List.sum_append]
  rfl

theorem removed_append (steps more : List Step) :
    removed (steps ++ more) = removed steps + removed more := by
  rw [removed, changes_append, List.map_append, List.sum_append]
  rfl

theorem Lays.countP_lines {groups : List (List Step)} (h : Lays old new i j groups i' j')
    (hi : i' ≤ old.size) (hj : j' ≤ new.size) :
    (groups.flatten.flatMap (Step.lines old new)).countP (·.side = .new) = added groups.flatten ∧
      (groups.flatten.flatMap (Step.lines old new)).countP (·.side = .old) =
        removed groups.flatten := by
  induction h with
  | nil => exact ⟨rfl, rfl⟩
  | cons hsame hhunk hrest ih =>
    rcases hhunk.shown with ⟨keeps, keeps', hshown⟩
    have hle := hrest.le
    rcases hshown.countP_lines (hle.1.trans hi) (hle.2.trans hj) with ⟨hnew, hold⟩
    rcases ih hi hj with ⟨hnew', hold'⟩
    rw [List.flatten_cons, List.flatMap_append, List.countP_append, List.countP_append, hnew, hold,
      hnew', hold', added_append, removed_append]
    exact ⟨rfl, rfl⟩

end

/-! ## Texts that are the same -/

theorem commonPrefix_self (lines : Array String) (i room : Nat) :
    commonPrefix lines lines i i room = room := by
  induction room generalizing i with
  | zero => rfl
  | succ room ih => rw [commonPrefix, if_pos rfl, ih]

theorem script_self (lines : Array String) :
    script lines lines = if lines.size = 0 then [] else [.keep 0 0 lines.size] := by
  rw [script, scriptOf]
  simp [commonPrefix_self, between, Window.after, Window.before, commonSuffix]

theorem slideAll_of_forall_ne (old new : Array String) {kind : Kind} (fuel : Nat)
    {above below : List Step} (h : ∀ step ∈ below, step.kind ≠ kind) :
    slideAll old new kind above fuel below = above.reverse ++ below := by
  fun_induction slideAll old new kind above fuel below with
  | case1 above below => rfl
  | case2 above fuel => exact (List.append_nil _).symm
  | case3 above fuel step below hstep up down ih => exact absurd hstep (h step List.mem_cons_self)
  | case4 above fuel step below hother ih =>
    rw [ih fun step hstep => h step (List.mem_cons_of_mem _ hstep), List.reverse_cons,
      List.append_assoc, List.singleton_append]

theorem slide_of_forall_keep (old new : Array String) {steps : List Step}
    (h : ∀ step ∈ steps, step.kind = .keep) : slide old new steps = steps := by
  have hne : ∀ kind : Kind, kind ≠ .keep → ∀ step ∈ steps, step.kind ≠ kind :=
    fun kind hkind step hstep heq => hkind (heq ▸ h step hstep)
  rw [slide, slideAll_of_forall_ne old new _ (hne .remove (by decide)), List.reverse_nil,
    List.nil_append, slideAll_of_forall_ne old new _ (hne .add (by decide))]
  rfl

/-- Nothing changes between texts that are the same. -/
theorem changes_shownScript_self (lines : Array String) :
    changes (shownScript lines lines) = [] := by
  rw [shownScript, script_self]
  split
  · rw [slide_of_forall_keep lines lines (by simp)]
    rfl
  · rw [slide_of_forall_keep lines lines (by simp [Step.keep])]
    rfl

theorem Lays.eq_nil {old new : Array String} {i j i' j' : Nat} {groups : List (List Step)}
    (h : Lays old new i j groups i' j') (hnone : changes groups.flatten = []) : groups = [] := by
  cases h with
  | nil => rfl
  | cons hsame hhunk hrest =>
    rcases hhunk.changes with ⟨step, hstep, hkind⟩
    rw [List.flatten_cons, changes_append, List.append_eq_nil_iff] at hnone
    exact absurd (List.filter_eq_nil_iff.mp hnone.1 step hstep) (by simpa using hkind)

/-! ## Diffs -/

/-- The lines that a diff of two texts shows, each with the one in front of it in its hunk. -/
def shownLines (old new : List Char) : List (Option Line × Line) :=
  let oldLines := (splitLines old).toArray
  let newLines := (splitLines new).toArray
  (hunks (shownScript oldLines newLines)).flatMap fun group =>
    neighbours none (group.flatMap (Step.lines oldLines newLines))

/-- The changed lines of a side that a count of a diff does not have. -/
def unseen (side : Side) (old new : List Char) : List Line :=
  ((shownLines old new).filter fun pair => pair.2.side = side && isHidden pair).map Prod.snd

theorem map_snd_shownLines (old new : List Char) : (shownLines old new).map Prod.snd =
    (hunks (shownScript (splitLines old).toArray (splitLines new).toArray)).flatten.flatMap
      (Step.lines (splitLines old).toArray (splitLines new).toArray) := by
  rw [shownLines, List.map_flatMap, ← List.flatMap_id', List.flatMap_assoc]
  simp only [map_snd_neighbours]

theorem count_shownLines {path : String} (hpath : ∀ c ∈ path.toList, ¬ IsBreak c)
    (old new : List Char) : count (unified path old new) =
      ((shownLines old new).countP (isFound .new), (shownLines old new).countP (isFound .old)) := by
  have hlays := lays_shownScript (splitLines old).toArray (splitLines new).toArray
  by_cases heq : old = new
  · subst heq
    have hnone := changes_hunks (shownScript (splitLines old).toArray (splitLines old).toArray)
    rw [changes_shownScript_self] at hnone
    rw [shownLines, hlays.eq_nil hnone, unified, if_pos rfl]
    rfl
  · rw [unified_eq heq hlays.ne_nil, count_writtenDiff hpath, List.flatMap_map, shownLines]
    · simp only [Hunk.lines_ofSteps]
    · intro hunk hhunk line hline
      rcases List.mem_map.mp hhunk with ⟨group, -, rfl⟩
      exact isWhole_of_mem_ofSteps hline

/-- A count has every changed line of a side but the unseen ones. -/
theorem countP_isFound (side : Side) (old new : List Char) :
    (shownLines old new).countP (isFound side) + (unseen side old new).length =
      ((shownLines old new).map Prod.snd).countP (·.side = side) := by
  have hsplit := List.countP_eq_countP_filter_add (shownLines old new)
    (fun pair => decide (pair.2.side = side)) isHidden
  rw [List.countP_filter, List.countP_filter] at hsplit
  rw [List.countP_map, unseen, List.length_map, ← List.countP_eq_length_filter, Nat.add_comm]
  exact hsplit.symm

/-- The lines of a diff are lines of the texts. -/
theorem text_mem_of_mem_shownLines {old new : List Char} {front : Option Line} {line : Line}
    (h : (front, line) ∈ shownLines old new) :
    line.text ∈ splitLines old ++ splitLines new ∧
      ∀ l ∈ front, l.text ∈ splitLines old ++ splitLines new := by
  rcases List.mem_flatMap.mp h with ⟨group, -, hpair⟩
  have hall : ∀ l ∈ group.flatMap (Step.lines (splitLines old).toArray (splitLines new).toArray),
      l.text ∈ splitLines old ++ splitLines new := by
    intro l hl
    rcases List.mem_flatMap.mp hl with ⟨step, -, hline⟩
    exact List.mem_append.mpr (step.text_mem hline)
  rcases List.of_mem_zip hpair with ⟨hfront, hline⟩
  refine ⟨hall line hline, fun l hl => ?_⟩
  obtain rfl : front = some l := hl
  exact hall l (by simpa using hfront)

/-- Whether a count of a diff can tell a changed line, and the one behind it. -/
def IsPlain (line : List Char) : Prop :=
  ¬ ['+', '+'] <+: line ∧ ¬ ['-', '-'] <+: line ∧ line.getLast? ≠ some '\r'

theorem isDoubled_eq_false {line : Line} (hside : line.side ≠ .both)
    (h : IsPlain line.text.toList) : line.isDoubled = false := by
  rw [← Bool.not_eq_true, Line.isDoubled, List.isPrefixOf_iff_prefix]
  cases hline : line.side with
  | both => exact absurd hline hside
  | old => exact h.2.1
  | new => exact h.1

theorem isOpen_eq_false {line : Line} (h : IsPlain line.text.toList) : line.isOpen = false :=
  beq_false_of_ne h.2.2

theorem unseen_eq_nil {side : Side} (hside : side ≠ .both) {old new : List Char}
    (hplain : ∀ line ∈ splitLines old ++ splitLines new, IsPlain line.toList) :
    unseen side old new = [] := by
  rw [unseen, List.map_eq_nil_iff, List.filter_eq_nil_iff]
  rintro ⟨front, line⟩ hpair
  rcases text_mem_of_mem_shownLines hpair with ⟨hline, hfront⟩
  by_cases hchanged : line.side = side
  · have hdoubled := isDoubled_eq_false (hchanged ▸ hside) (hplain _ hline)
    have hopen : front.any Line.isOpen = false := by
      cases front with
      | none => rfl
      | some l => exact isOpen_eq_false (hplain _ (hfront l rfl))
    simp [isHidden, hdoubled, hopen]
  · simp [hchanged]

/-- A count of a diff has the lines that come and the lines that go by its script, except for those
that it cannot tell. -/
theorem count_unified {path : String} (hpath : ∀ c ∈ path.toList, ¬ IsBreak c)
    (old new : List Char) :
    let steps := shownScript (splitLines old).toArray (splitLines new).toArray
    (count (unified path old new)).1 + (unseen .new old new).length = added steps ∧
      (count (unified path old new)).2 + (unseen .old old new).length = removed steps ∧
      ((∀ line ∈ splitLines old ++ splitLines new, IsPlain line.toList) →
        count (unified path old new) = (added steps, removed steps)) := by
  intro steps
  have hlays := lays_shownScript (splitLines old).toArray (splitLines new).toArray
  rcases hlays.countP_lines (Nat.le_refl _) (Nat.le_refl _) with ⟨hnew, hold⟩
  rw [← map_snd_shownLines, ← countP_isFound] at hnew hold
  have hsteps := changes_hunks steps
  rw [added, hsteps] at hnew
  rw [removed, hsteps] at hold
  rw [count_shownLines hpath]
  refine ⟨hnew, hold, fun hplain => ?_⟩
  have hboth : Side.new ≠ .both ∧ Side.old ≠ .both := by decide
  rw [unseen_eq_nil hboth.1 hplain] at hnew
  rw [unseen_eq_nil hboth.2 hplain] at hold
  exact Prod.ext hnew hold

theorem count_unified_rename :
    count (unified "notes.md" "Sign in\nout\n".toList "Log in\nout\n".toList) = (1, 1) := by
  have hpath : ∀ c ∈ "notes.md".toList, ¬ IsBreak c := not_isBreak_of_mem (by decide) (by decide)
  have hsplit : splitLines "Sign in\nout\n".toList = ["Sign in\n", "out\n"] ∧
      splitLines "Log in\nout\n".toList = ["Log in\n", "out\n"] := by decide
  have hcount := (count_unified hpath "Sign in\nout\n".toList "Log in\nout\n".toList).2.2
  rw [hsplit.1, hsplit.2] at hcount
  have hsteps : added (shownScript #["Sign in\n", "out\n"] #["Log in\n", "out\n"]) = 1 ∧
      removed (shownScript #["Sign in\n", "out\n"] #["Log in\n", "out\n"]) = 1 := by
    constructor <;> cbv
  rw [hcount (by simp [IsPlain])]
  exact Prod.ext hsteps.1 hsteps.2

/-- A new line that starts with two signs looks like a header, and one behind a carriage return has
no start of its own. -/
theorem new_lines_uncounted : ¬ ∀ (path : String) (old new : List Char),
    (∀ c ∈ path.toList, ¬ IsBreak c) → count (unified path old new) =
      (added (shownScript (splitLines old).toArray (splitLines new).toArray),
        removed (shownScript (splitLines old).toArray (splitLines new).toArray)) := by
  intro h
  have hpath : ∀ c ∈ "notes.md".toList, ¬ IsBreak c := not_isBreak_of_mem (by decide) (by decide)
  have hcount := h "notes.md" "a\n".toList "a\n++b\nc\rd\n".toList hpath
  have hfound : count (unified "notes.md" "a\n".toList "a\n++b\nc\rd\n".toList) = (1, 0) := by cbv
  have hsteps : added (shownScript (splitLines "a\n".toList).toArray
      (splitLines "a\n++b\nc\rd\n".toList).toArray) = 3 := by cbv
  rw [hfound, hsteps] at hcount
  cases hcount

end Rephrase.Diff
