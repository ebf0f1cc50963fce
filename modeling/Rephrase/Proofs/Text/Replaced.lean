import Rephrase.Edit.Strategy
import Rephrase.Proofs.Text.Slice

/-! Texts that differ in some stretches alone. -/

namespace Rephrase.Text

/-- Stretches that are not empty and lie one after another between two offsets. -/
def Ascend (start stop : Nat) : List Span → Prop
  | [] => start ≤ stop
  | span :: rest => start ≤ span.start ∧ span.start < span.stop ∧ Ascend span.stop stop rest

namespace Ascend

variable {start mid stop : Nat} {span : Span} {spans more : List Span}

theorem le (h : Ascend start stop spans) : start ≤ stop := by
  induction spans generalizing start with
  | nil => exact h
  | cons span rest ih =>
    obtain ⟨hstart, hspan, hrest⟩ := h
    have hle := ih hrest
    omega

theorem of_le (h : Ascend mid stop spans) (hstart : start ≤ mid) : Ascend start stop spans := by
  cases spans with
  | nil => exact Nat.le_trans hstart h
  | cons span rest => exact ⟨Nat.le_trans hstart h.1, h.2⟩

theorem of_stop_le (h : Ascend start mid spans) (hstart : start ≤ stop)
    (hstop : ∀ span ∈ spans, span.stop ≤ stop) : Ascend start stop spans := by
  induction spans generalizing start with
  | nil => exact hstart
  | cons span rest ih =>
    obtain ⟨hspan, hrest⟩ := List.forall_mem_cons.mp hstop
    exact ⟨h.1, h.2.1, ih h.2.2 hspan hrest⟩

theorem append (h : Ascend start mid spans) (hmore : Ascend mid stop more) :
    Ascend start stop (spans ++ more) := by
  induction spans generalizing start with
  | nil => exact hmore.of_le h
  | cons span rest ih => exact ⟨h.1, h.2.1, ih h.2.2⟩

/-- Between two parts of a list of stretches is the end of the first part. -/
theorem split (h : Ascend start stop (spans ++ more)) (hspans : spans ≠ []) :
    ∃ span ∈ spans, Ascend start span.stop spans ∧ Ascend span.stop stop more := by
  induction spans generalizing start with
  | nil => exact absurd rfl hspans
  | cons first rest ih =>
    obtain ⟨hstart, hfirst, hrest⟩ := h
    by_cases hnil : rest = []
    · subst hnil
      exact ⟨first, List.mem_cons_self, ⟨hstart, hfirst, Nat.le_refl _⟩, hrest⟩
    · obtain ⟨span, hspan, hascend, hmore⟩ := ih hrest hnil
      exact ⟨span, List.mem_cons_of_mem _ hspan, ⟨hstart, hfirst, hascend⟩, hmore⟩

theorem sublist (h : Ascend start stop more) (hsub : spans.Sublist more) :
    Ascend start stop spans := by
  induction hsub generalizing start with
  | slnil => exact h
  | cons span hsub ih => exact (ih h.2.2).of_le (Nat.le_trans h.1 (Nat.le_of_lt h.2.1))
  | cons_cons span hsub ih => exact ⟨h.1, h.2.1, ih h.2.2⟩

theorem start_le_of_mem (h : Ascend start stop spans) (hspan : span ∈ spans) :
    start ≤ span.start := by
  induction spans generalizing start with
  | nil => simp at hspan
  | cons first rest ih =>
    obtain rfl | hspan := List.mem_cons.mp hspan
    · exact h.1
    · have hle := ih h.2.2 hspan
      have hfirst := h.1
      have hlt := h.2.1
      omega

theorem stop_le_of_mem (h : Ascend start stop spans) (hspan : span ∈ spans) :
    span.stop ≤ stop := by
  induction spans generalizing start with
  | nil => simp at hspan
  | cons first rest ih =>
    obtain rfl | hspan := List.mem_cons.mp hspan
    · exact h.2.2.le
    · exact ih h.2.2 hspan

theorem lt_of_mem (h : Ascend start stop spans) (hspan : span ∈ spans) :
    span.start < span.stop := by
  induction spans generalizing start with
  | nil => simp at hspan
  | cons first rest ih =>
    obtain rfl | hspan := List.mem_cons.mp hspan
    · exact h.2.1
    · exact ih h.2.2 hspan

theorem pairwise (h : Ascend start stop spans) :
    spans.Pairwise fun a b => a.start < a.stop ∧ a.stop ≤ b.start := by
  induction spans generalizing start with
  | nil => exact .nil
  | cons first rest ih =>
    refine .cons (fun span hspan => ⟨h.2.1, ?_⟩) (ih h.2.2)
    exact start_le_of_mem h.2.2 hspan

/-- The last stretch ends behind all the others. -/
theorem stop_le_of_getLast? {last : Span} (h : Ascend start stop spans)
    (hlast : spans.getLast? = some last) (hspan : span ∈ spans) : span.stop ≤ last.stop := by
  obtain ⟨front, rfl⟩ := List.getLast?_eq_some_iff.mp hlast
  have hlt := h.lt_of_mem (List.mem_append_right front List.mem_cons_self)
  obtain hspan | hspan := List.mem_append.mp hspan
  · have hbefore := (List.pairwise_append.mp h.pairwise).2.2 span hspan last List.mem_cons_self
    omega
  · obtain rfl := List.mem_singleton.mp hspan
    exact Nat.le_refl _

theorem areInOrder (h : Ascend start stop spans) : Edit.areInOrder spans = true := by
  induction spans generalizing start with
  | nil => rfl
  | cons first rest ih =>
    cases rest with
    | nil => rfl
    | cons second rest =>
      rw [Edit.areInOrder, Bool.and_eq_true, decide_eq_true_eq]
      exact ⟨h.2.2.1, ih h.2.2⟩

end Ascend

/-- The text `after` is `before` with each of some stretches replaced, and nothing else changed.
Stretches are counted as if `before` started at an offset. -/
inductive Replaced : Nat → List (Span × List Char) → List Char → List Char → Prop
  | same (offset : Nat) (cs : List Char) : Replaced offset [] cs cs
  | edit {offset : Nat} {span : Span} {edits : List (Span × List Char)}
      {before after : List Char} (gap old wanted : List Char)
      (hstart : span.start = offset + size gap) (hstop : span.stop = span.start + size old)
      (hrest : Replaced span.stop edits before after) :
      Replaced offset ((span, wanted) :: edits) (gap ++ old ++ before) (gap ++ wanted ++ after)

namespace Replaced

variable {offset : Nat} {edits more : List (Span × List Char)} {before after : List Char}

/-- Only one text is another one with some stretches replaced. -/
theorem unique {other : List Char} (h : Replaced offset edits before after)
    (h' : Replaced offset edits before other) : after = other := by
  induction h generalizing other with
  | same offset cs =>
    cases h'
    rfl
  | edit gap old wanted hstart hstop hrest ih =>
    rename_i offset span edits before after
    generalize htext : gap ++ old ++ before = text at h'
    cases h' with
    | edit gap' old' _ hstart' hstop' hrest' =>
      rw [List.append_assoc, List.append_assoc] at htext
      -- Both splits cut the same text at the same bytes.
      obtain ⟨rfl, hold⟩ := append_inj_of_size htext (by omega)
      obtain ⟨rfl, rfl⟩ := append_inj_of_size hold (by omega)
      rw [ih hrest']

theorem behind {front : List Char} (h : Replaced (offset + size front) edits before after) :
    Replaced offset edits (front ++ before) (front ++ after) := by
  generalize hoffset : offset + size front = start at h
  cases h with
  | same => exact .same _ _
  | edit gap old wanted hstart hstop hrest =>
    have hedit := Replaced.edit (front ++ gap) old wanted
      (by rw [size_append, ← Nat.add_assoc, hoffset, hstart]) hstop hrest
    simpa only [List.append_assoc] using hedit

theorem append {before' after' : List Char} (h : Replaced offset edits before after)
    (hmore : Replaced (offset + size before) more before' after') :
    Replaced offset (edits ++ more) (before ++ before') (after ++ after') := by
  induction h with
  | same offset cs => exact hmore.behind
  | edit gap old wanted hstart hstop hrest ih =>
    rename_i offset span edits before after
    rw [size_append, size_append, show offset + (size gap + size old + size before) =
      span.stop + size before by omega] at hmore
    have hedit := Replaced.edit gap old wanted hstart hstop (ih hmore)
    simpa only [List.append_assoc, List.cons_append] using hedit

/-- Replacing the last stretch first comes to the same. -/
theorem replaceAll? (h : Replaced offset edits before after) {front : List Char}
    (hfront : size front = offset) (back : List Char) :
    Edit.replaceAll? (front ++ before ++ back) edits = some (front ++ after ++ back) := by
  induction h generalizing front with
  | same => rfl
  | edit gap old wanted hstart hstop hrest ih =>
    rename_i offset span edits before after
    have hstart' : size (front ++ gap) = span.start := by rw [size_append, hfront, hstart]
    have hstop' : size (front ++ gap ++ old) = span.stop := by
      rw [size_append, hstart', hstop]
    have hsplice := splice?_append (front ++ gap) old (after ++ back) wanted
    rw [hstart', ← hstop] at hsplice
    -- The later stretches are replaced first, and they do not move this one.
    have hlater := ih hstop'
    simp only [List.append_assoc] at hlater hsplice ⊢
    rw [Edit.replaceAll?, hlater, Option.bind_some, hsplice]

/-- Stretches that lie one after another and cut through no character can be replaced by whatever
texts; by the texts that stand there, nothing changes. -/
theorem exists_of_ascend {content : List Char} (front stretch back : List Char)
    (hcontent : content = front ++ stretch ++ back)
    (hascend : Ascend (size front) (size front + size stretch) (edits.map Prod.fst))
    (hslice : ∀ edit ∈ edits, ∃ old, slice? content edit.1.start edit.1.stop = some old) :
    ∃ after, Replaced (size front) edits stretch after ∧
      ((∀ edit ∈ edits, slice? content edit.1.start edit.1.stop = some edit.2) →
        after = stretch) := by
  induction edits generalizing front stretch with
  | nil => exact ⟨stretch, .same _ _, fun _ => rfl⟩
  | cons first rest ih =>
    obtain ⟨hstart, -, hrest⟩ := hascend
    obtain ⟨old, hold⟩ := hslice first List.mem_cons_self
    obtain ⟨passed, behind, hsplit, hpassed, hstop⟩ := of_slice? hold
    have hle := hrest.le
    have hpassed' : size front ≤ size passed := by omega
    rw [List.append_assoc] at hcontent hsplit
    -- The stretch starts behind the front, and it ends before `stretch` does.
    obtain ⟨gap, rfl, hgap⟩ := append_split_of_size_le (hcontent.symm.trans hsplit) hpassed'
    rw [size_append] at hpassed hstop
    rw [← List.append_assoc] at hgap
    obtain ⟨mid, rfl, rfl⟩ := append_split_of_size_le hgap.symm
      (by rw [size_append]; omega)
    have hfront : size (front ++ gap ++ old) = first.1.stop := by
      rw [size_append, size_append, hstop]
    have hstretch : size (front ++ gap ++ old) + size mid =
        size front + size (gap ++ old ++ mid) := by
      simp only [size_append]
      omega
    rw [← hstretch, ← hfront] at hrest
    obtain ⟨after, hafter, hsame⟩ := ih (front ++ gap ++ old) mid
      (by rw [hcontent]; simp only [List.append_assoc]) hrest
      (fun edit hedit => hslice edit (List.mem_cons_of_mem _ hedit))
    refine ⟨gap ++ first.2 ++ after, ?_, fun hall => ?_⟩
    · rw [hfront] at hafter
      exact .edit gap old first.2 hpassed.symm (by omega) hafter
    · have hfirst := hall first List.mem_cons_self
      rw [hold] at hfirst
      rw [hsame fun edit hedit => hall edit (List.mem_cons_of_mem _ hedit),
        Option.some.inj hfirst]

end Replaced

end Rephrase.Text
