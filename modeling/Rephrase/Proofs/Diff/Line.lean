import Mathlib
import Rephrase.Diff.Unified

/-! The lines of a text are the text again, and a text that is put together from lines has these
lines. -/

namespace Rephrase.Diff

/-- Whether a character ends a line, on its own or with another one. -/
def IsBreak (c : Char) : Prop := c = '\n' ∨ c = '\r'

/-- Whether characters are one line with its end. -/
inductive IsEnded : List Char → Prop
  | feed {cs : List Char} (h : ∀ c ∈ cs, ¬ IsBreak c) : IsEnded (cs ++ ['\n'])
  | back {cs : List Char} (h : ∀ c ∈ cs, ¬ IsBreak c) : IsEnded (cs ++ ['\r'])
  | both {cs : List Char} (h : ∀ c ∈ cs, ¬ IsBreak c) : IsEnded (cs ++ ['\r', '\n'])

theorem IsEnded.ne_nil {cs : List Char} (h : IsEnded cs) : cs ≠ [] := by
  cases h <;> simp

/-- Whether characters are one line that stands at the end of a text without an end of its own. -/
def IsRest (cs : List Char) : Prop := cs ≠ [] ∧ ∀ c ∈ cs, ¬ IsBreak c

theorem splitLinesFrom_append (more done : List String) (line cs : List Char) :
    splitLinesFrom (done ++ more) line cs = more.reverse ++ splitLinesFrom done line cs := by
  fun_induction splitLinesFrom done line cs with
  | case1 done line hempty => simp [splitLinesFrom, hempty]
  | case2 done line hsome => simp [splitLinesFrom, hsome]
  | case3 done line rest ih => exact ih
  | case4 done line c rest hother hbreak ih =>
    rw [splitLinesFrom, if_pos hbreak]
    · exact ih
    · exact hother
  | case5 done line c rest hother hbreak ih =>
    rw [splitLinesFrom, if_neg hbreak]
    · exact ih
    · exact hother

theorem splitLinesFrom_done (done : List String) (line cs : List Char) :
    splitLinesFrom done line cs = done.reverse ++ splitLinesFrom [] line cs :=
  splitLinesFrom_append done [] line cs

theorem flatMap_splitLinesFrom (done : List String) (line cs : List Char) :
    (splitLinesFrom done line cs).flatMap String.toList =
      done.reverse.flatMap String.toList ++ line.reverse ++ cs := by
  fun_induction splitLinesFrom done line cs with
  | case1 done line hempty => simp [List.isEmpty_iff.mp hempty]
  | case2 done line hsome => simp
  | case3 done line rest ih =>
    rw [ih]
    simp
  | case4 done line c rest hother hbreak ih =>
    rw [ih]
    simp
  | case5 done line c rest hother hbreak ih =>
    rw [ih]
    simp

/-- The lines of a text are the text again. -/
theorem flatMap_splitLines (cs : List Char) : (splitLines cs).flatMap String.toList = cs :=
  flatMap_splitLinesFrom [] [] cs

theorem splitLines_injective : Function.Injective splitLines := by
  intro cs ds h
  rw [← flatMap_splitLines cs, h, flatMap_splitLines]

/-- Characters in front of the first break only make the current line longer. -/
theorem splitLinesFrom_core {core : List Char} (hcore : ∀ c ∈ core, ¬ IsBreak c)
    (done : List String) (line cs : List Char) :
    splitLinesFrom done line (core ++ cs) = splitLinesFrom done (core.reverse ++ line) cs := by
  induction core generalizing line with
  | nil => rfl
  | cons c core ih =>
    obtain ⟨hc, hcore⟩ := List.forall_mem_cons.mp hcore
    have hother : ¬ (c = '\n' || c = '\r') = true := by simpa [IsBreak] using hc
    rw [List.cons_append, splitLinesFrom, if_neg hother, ih hcore, List.reverse_cons,
      List.append_assoc, List.singleton_append]
    rintro rest rfl
    exact absurd (.inr rfl) hc

theorem splitLines_of_isEnded {line rest : List Char} (hline : IsEnded line)
    (hrest : rest.head? ≠ some '\n') :
    splitLines (line ++ rest) = String.ofList line :: splitLines rest := by
  have hdone : ∀ line : List Char, splitLinesFrom [String.ofList line] [] rest =
      String.ofList line :: splitLines rest := fun line => splitLinesFrom_done [_] [] rest
  cases hline with
  | @feed core hcore =>
    rw [splitLines, List.append_assoc, splitLinesFrom_core hcore, List.singleton_append,
      splitLinesFrom, if_pos (by decide), hdone]
    · simp
    · nofun
  | @back core hcore =>
    rw [splitLines, List.append_assoc, splitLinesFrom_core hcore, List.singleton_append,
      splitLinesFrom, if_pos (by decide), hdone]
    · simp
    · rintro rest' - rfl
      exact hrest rfl
  | @both core hcore =>
    rw [splitLines, List.append_assoc, splitLinesFrom_core hcore]
    change splitLinesFrom [] _ ('\r' :: '\n' :: rest) = _
    rw [splitLinesFrom, hdone]
    simp

/-- A text that is put together from lines has these lines. -/
theorem splitLines_flatten {lines : List (List Char)} (hlines : ∀ line ∈ lines, IsEnded line)
    (hfirst : ∀ line ∈ lines, line.head? ≠ some '\n') :
    splitLines lines.flatten = lines.map String.ofList := by
  induction lines with
  | nil => rfl
  | cons line lines ih =>
    obtain ⟨hline, hlines⟩ := List.forall_mem_cons.mp hlines
    obtain ⟨-, hfirst⟩ := List.forall_mem_cons.mp hfirst
    rw [List.flatten_cons, splitLines_of_isEnded hline, ih hlines hfirst, List.map_cons]
    cases lines with
    | nil => nofun
    | cons next lines =>
      obtain ⟨hnext, -⟩ := List.forall_mem_cons.mp hlines
      obtain ⟨hnext', -⟩ := List.forall_mem_cons.mp hfirst
      rwa [List.flatten_cons, List.head?_append_of_ne_nil _ hnext.ne_nil]

theorem mem_splitLinesFrom {done : List String} {line cs : List Char} {l : String}
    (hline : ∀ c ∈ line.reverse, ¬ IsBreak c) (h : l ∈ splitLinesFrom done line cs) :
    l ∈ done ∨ IsEnded l.toList ∨ IsRest l.toList := by
  -- A line that is done with has ended; only the last one may be a rest.
  have hnew : ∀ (ds : List Char) (done : List String), IsEnded ds →
      l ∈ String.ofList ds :: done ∨ IsEnded l.toList ∨ IsRest l.toList →
      l ∈ done ∨ IsEnded l.toList ∨ IsRest l.toList := by
    rintro ds done hds (h | h)
    · obtain rfl | h := List.mem_cons.mp h
      · exact .inr (.inl (String.toList_ofList ▸ hds))
      · exact .inl h
    · exact .inr h
  fun_induction splitLinesFrom done line cs with
  | case1 done line hempty => exact .inl (List.mem_reverse.mp h)
  | case2 done line hsome =>
    obtain rfl | h := List.mem_cons.mp (List.mem_reverse.mp h)
    · rw [String.toList_ofList]
      exact .inr (.inr ⟨by simpa using hsome, hline⟩)
    · exact .inl h
  | case3 done line rest ih =>
    refine hnew _ done ?_ (ih (List.forall_mem_nil _) h)
    rw [List.reverse_cons, List.reverse_cons, List.append_assoc, List.singleton_append]
    exact .both hline
  | case4 done line c rest hother hbreak ih =>
    refine hnew _ done ?_ (ih (List.forall_mem_nil _) h)
    rw [List.reverse_cons]
    simp only [Bool.or_eq_true, decide_eq_true_eq] at hbreak
    obtain rfl | rfl := hbreak
    · exact .feed hline
    · exact .back hline
  | case5 done line c rest hother hbreak ih =>
    refine ih ?_ h
    rw [List.reverse_cons, List.forall_mem_append]
    refine ⟨hline, List.forall_mem_singleton.mpr ?_⟩
    simpa [IsBreak] using hbreak

/-- The lines of a text have ends, or stand at its end. -/
theorem isEnded_of_mem_splitLines {cs : List Char} {line : String} (h : line ∈ splitLines cs) :
    IsEnded line.toList ∨ IsRest line.toList := by
  obtain hnil | h := mem_splitLinesFrom (List.forall_mem_nil _) h
  · cases hnil
  · exact h

end Rephrase.Diff
