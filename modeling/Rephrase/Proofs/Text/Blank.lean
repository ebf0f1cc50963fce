import Mathlib.Data.List.TakeWhile
import Rephrase.Text.Blank

/-! Trimming takes a blank front and a blank end away, and nothing from a text between characters
that are not blank. -/

namespace Rephrase.Text

variable {drop : Char → Bool}

/-- A text that starts and ends with characters that are not of a class. -/
structure Solid (drop : Char → Bool) (cs : List Char) : Prop where
  ne_nil : cs ≠ []
  head : ∀ c ∈ cs.head?, drop c = false
  last : ∀ c ∈ cs.getLast?, drop c = false

theorem stripStart_append_stripped (drop : Char → Bool) (cs : List Char) :
    ∃ front, cs = front ++ stripStart drop cs ∧ ∀ c ∈ front, drop c = true := by
  refine ⟨cs.takeWhile drop, List.takeWhile_append_dropWhile.symm, fun c hc => ?_⟩
  exact List.all_eq_true.mp List.all_takeWhile c hc

theorem stripEnd_append_stripped (drop : Char → Bool) (cs : List Char) :
    ∃ back, cs = stripEnd drop cs ++ back ∧ ∀ c ∈ back, drop c = true := by
  obtain ⟨front, hsplit, hfront⟩ := stripStart_append_stripped drop cs.reverse
  refine ⟨front.reverse, ?_, fun c hc => hfront c (List.mem_reverse.mp hc)⟩
  have hreverse := congrArg List.reverse hsplit
  rwa [List.reverse_reverse, List.reverse_append] at hreverse

theorem strip_append_stripped (drop : Char → Bool) (cs : List Char) :
    ∃ front back, cs = front ++ strip drop cs ++ back ∧ (∀ c ∈ front, drop c = true) ∧
      ∀ c ∈ back, drop c = true := by
  obtain ⟨front, hfront, hdropFront⟩ := stripStart_append_stripped drop cs
  obtain ⟨back, hback, hdropBack⟩ := stripEnd_append_stripped drop (stripStart drop cs)
  refine ⟨front, back, ?_, hdropFront, hdropBack⟩
  rw [List.append_assoc]
  exact hfront.trans (congrArg _ hback)

theorem stripStart_head (cs : List Char) : ∀ c ∈ (stripStart drop cs).head?, drop c = false := by
  intro c hc
  have h := List.head?_dropWhile_not drop cs
  unfold stripStart at hc
  rw [Option.mem_def] at hc
  rw [hc] at h
  simpa using h

theorem stripEnd_last (cs : List Char) : ∀ c ∈ (stripEnd drop cs).getLast?, drop c = false := by
  intro c hc
  rw [stripEnd, List.getLast?_reverse] at hc
  exact stripStart_head cs.reverse c hc

theorem stripEnd_head {cs : List Char} (h : ∀ c ∈ cs.head?, drop c = false) :
    ∀ c ∈ (stripEnd drop cs).head?, drop c = false := by
  intro c hc
  obtain ⟨back, hsplit, -⟩ := stripEnd_append_stripped drop cs
  apply h
  rw [hsplit, Option.mem_def, List.head?_append, Option.mem_def.mp hc, Option.some_or]

theorem strip_solid {cs : List Char} (h : strip drop cs ≠ []) : Solid drop (strip drop cs) :=
  ⟨h, stripEnd_head (stripStart_head cs), stripEnd_last _⟩

theorem stripStart_of_head {cs : List Char} (h : ∀ c ∈ cs.head?, drop c = false) :
    stripStart drop cs = cs := by
  cases cs with
  | nil => rfl
  | cons c rest => exact List.dropWhile_cons_of_neg (by simp [h c rfl])

theorem stripStart_append (front : List Char) {cs : List Char}
    (h : ∀ c ∈ cs.head?, drop c = false) :
    stripStart drop (front ++ cs) = stripStart drop front ++ cs := by
  induction front with
  | nil => exact stripStart_of_head h
  | cons c front ih =>
    unfold stripStart at ih ⊢
    rw [List.cons_append, List.dropWhile_cons, List.dropWhile_cons]
    split
    · exact ih
    · rfl

theorem stripEnd_append (back : List Char) {cs : List Char}
    (h : ∀ c ∈ cs.getLast?, drop c = false) :
    stripEnd drop (cs ++ back) = cs ++ stripEnd drop back := by
  have hreverse : ∀ c ∈ cs.reverse.head?, drop c = false := by
    intro c hc
    rw [List.head?_reverse] at hc
    exact h c hc
  have hstart := stripStart_append back.reverse hreverse
  unfold stripStart at hstart
  rw [stripEnd, List.reverse_append, hstart, List.reverse_append, List.reverse_reverse]
  rfl

theorem stripEnd_eq_nil_iff {cs : List Char} : stripEnd drop cs = [] ↔ ∀ c ∈ cs, drop c = true := by
  simp [stripEnd, List.dropWhile_eq_nil_iff]

theorem stripEnd_append_of_eq_nil (cs : List Char) {ds : List Char} (h : stripEnd drop ds = []) :
    stripEnd drop (cs ++ ds) = stripEnd drop cs := by
  rw [stripEnd, List.reverse_eq_nil_iff] at h
  simp [stripEnd, List.dropWhile_append, h]

theorem stripEnd_append_of_ne_nil (cs : List Char) {ds : List Char} (h : stripEnd drop ds ≠ []) :
    stripEnd drop (cs ++ ds) = cs ++ stripEnd drop ds := by
  rw [stripEnd, ne_eq, List.reverse_eq_nil_iff] at h
  simp [stripEnd, List.dropWhile_append, h]

/-- What stands between solid ends stays as it is. -/
theorem strip_append (front back : List Char) {cs : List Char} (h : Solid drop cs) :
    strip drop (front ++ cs ++ back) = stripStart drop front ++ cs ++ stripEnd drop back := by
  have hhead : ∀ c ∈ (cs ++ back).head?, drop c = false := by
    intro c hc
    rw [List.head?_append, List.head?_eq_some_head h.ne_nil, Option.some_or] at hc
    exact h.head c (List.head?_eq_some_head h.ne_nil ▸ hc)
  have hlast : ∀ c ∈ (stripStart drop front ++ cs).getLast?, drop c = false := by
    intro c hc
    rw [List.getLast?_append, List.getLast?_eq_some_getLast h.ne_nil, Option.some_or] at hc
    exact h.last c (List.getLast?_eq_some_getLast h.ne_nil ▸ hc)
  rw [strip, List.append_assoc, stripStart_append front hhead, ← List.append_assoc,
    stripEnd_append back hlast]

theorem strip_eq_nil_iff {cs : List Char} : strip drop cs = [] ↔ ∀ c ∈ cs, drop c = true := by
  constructor
  · intro hnil c hc
    obtain ⟨front, back, hsplit, hfront, hback⟩ := strip_append_stripped drop cs
    rw [hnil, List.append_nil] at hsplit
    rw [hsplit] at hc
    exact (List.mem_append.mp hc).elim (hfront c) (hback c)
  · intro hdrop
    have hstart : stripStart drop cs = [] := List.dropWhile_eq_nil_iff.mpr hdrop
    rw [strip, hstart]
    rfl

theorem mem_of_mem_stripStart {cs : List Char} {c : Char} (h : c ∈ stripStart drop cs) : c ∈ cs :=
  (List.dropWhile_sublist drop).mem h

end Rephrase.Text
