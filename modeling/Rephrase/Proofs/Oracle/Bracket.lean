import Rephrase.Oracle.Bracket

/-! Both bracket scans take an object from its first brace to the brace that closes it. -/

namespace Rephrase.Oracle

theorem ne_quote_of_isOpening {c : Char} (h : isOpening c = true) : c ≠ '"' := by
  intro hc
  rw [hc] at h
  exact absurd h (by decide)

theorem ne_quote_of_isClosing {c : Char} (h : isClosing c = true) : c ≠ '"' := by
  intro hc
  rw [hc] at h
  exact absurd h (by decide)

theorem isOpening_of_isClosing {c : Char} (h : isClosing c = true) : isOpening c = false := by
  simp only [isClosing, Bool.or_eq_true, beq_iff_eq] at h
  obtain rfl | rfl := h <;> rfl

theorem isClosing_closingOf (c : Char) : isClosing (closingOf c) = true := by
  unfold closingOf
  split <;> rfl

/-! ## Single steps -/

section

variable {c due : Char} {taken pending outer rest : List Char} {quoting : Quoting} {depth : Nat}

theorem balancedFrom_cons : balancedFrom taken pending quoting (c :: rest) =
    if quoting ≠ .outside then balancedFrom (c :: taken) pending (quoting.next c) rest
    else if c = '"' then balancedFrom (c :: taken) pending .inside rest
    else if isOpening c then balancedFrom (c :: taken) (closingOf c :: pending) .outside rest
    else if isClosing c then
      match pending with
      | [] => none
      | due :: outer =>
        if due ≠ c then none
        else if outer.isEmpty then some (c :: taken).reverse
        else balancedFrom (c :: taken) outer .outside rest
    else balancedFrom (c :: taken) pending .outside rest := rfl

theorem balancedFrom_quoted (h : quoting ≠ .outside) :
    balancedFrom taken pending quoting (c :: rest) =
      balancedFrom (c :: taken) pending (quoting.next c) rest := by
  rw [balancedFrom_cons]
  simp [h]

theorem balancedFrom_quote : balancedFrom taken pending .outside ('"' :: rest) =
    balancedFrom ('"' :: taken) pending .inside rest := by
  rw [balancedFrom_cons]
  simp

theorem balancedFrom_opening (h : isOpening c = true) :
    balancedFrom taken pending .outside (c :: rest) =
      balancedFrom (c :: taken) (closingOf c :: pending) .outside rest := by
  rw [balancedFrom_cons]
  simp [ne_quote_of_isOpening h, h]

theorem balancedFrom_closing (h : isClosing c = true) (houter : outer ≠ []) :
    balancedFrom taken (c :: outer) .outside (c :: rest) =
      balancedFrom (c :: taken) outer .outside rest := by
  rw [balancedFrom_cons]
  simp [ne_quote_of_isClosing h, isOpening_of_isClosing h, h, houter]

theorem balancedFrom_last (h : isClosing c = true) :
    balancedFrom taken [c] .outside (c :: rest) = some (c :: taken).reverse := by
  rw [balancedFrom_cons]
  simp [ne_quote_of_isClosing h, isOpening_of_isClosing h, h]

theorem balancedFrom_plain (hquote : c ≠ '"') (hopening : isOpening c = false)
    (hclosing : isClosing c = false) : balancedFrom taken pending .outside (c :: rest) =
      balancedFrom (c :: taken) pending .outside rest := by
  rw [balancedFrom_cons]
  simp [hquote, hopening, hclosing]

theorem objectStartsFrom_cons : objectStartsFrom (depth + 1) quoting (c :: rest) =
    if quoting ≠ .outside then objectStartsFrom (depth + 1) (quoting.next c) rest
    else if c = '"' then objectStartsFrom (depth + 1) .inside rest
    else if isOpening c then objectStartsFrom (depth + 2) .outside rest
    else if isClosing c then objectStartsFrom depth .outside rest
    else objectStartsFrom (depth + 1) .outside rest := rfl

theorem objectStartsFrom_quoted (h : quoting ≠ .outside) :
    objectStartsFrom (depth + 1) quoting (c :: rest) =
      objectStartsFrom (depth + 1) (quoting.next c) rest := by
  rw [objectStartsFrom_cons, if_pos h]

theorem objectStartsFrom_quote : objectStartsFrom (depth + 1) .outside ('"' :: rest) =
    objectStartsFrom (depth + 1) .inside rest := by
  rw [objectStartsFrom_cons, if_neg (by decide), if_pos rfl]

theorem objectStartsFrom_opening (h : isOpening c = true) :
    objectStartsFrom (depth + 1) .outside (c :: rest) =
      objectStartsFrom (depth + 2) .outside rest := by
  rw [objectStartsFrom_cons, if_neg (by decide),
    if_neg (ne_quote_of_isOpening h), if_pos h]

theorem objectStartsFrom_closing (h : isClosing c = true) :
    objectStartsFrom (depth + 1) .outside (c :: rest) =
      objectStartsFrom depth .outside rest := by
  rw [objectStartsFrom_cons, if_neg (by decide),
    if_neg (ne_quote_of_isClosing h), isOpening_of_isClosing h]
  simp [h]

theorem objectStartsFrom_plain (hquote : c ≠ '"') (hopening : isOpening c = false)
    (hclosing : isClosing c = false) : objectStartsFrom (depth + 1) .outside (c :: rest) =
      objectStartsFrom (depth + 1) .outside rest := by
  rw [objectStartsFrom_cons, if_neg (by decide), if_neg hquote]
  simp [hopening, hclosing]

end

/-! ## The front of a text that a scan takes -/

/-- What the typed scan takes until its stack runs empty. -/
inductive Scans : List Char → Quoting → List Char → Prop
  | quoted {c due : Char} {outer w : List Char} {quoting : Quoting} (hquoting : quoting ≠ .outside)
      (h : Scans (due :: outer) (quoting.next c) w) : Scans (due :: outer) quoting (c :: w)
  | quote {due : Char} {outer w : List Char} (h : Scans (due :: outer) .inside w) :
      Scans (due :: outer) .outside ('"' :: w)
  | opening {c due : Char} {outer w : List Char} (hopening : isOpening c = true)
      (h : Scans (closingOf c :: due :: outer) .outside w) : Scans (due :: outer) .outside (c :: w)
  | closing {c due : Char} {outer w : List Char} (hclosing : isClosing c = true)
      (h : Scans (due :: outer) .outside w) : Scans (c :: due :: outer) .outside (c :: w)
  | last {c : Char} (hclosing : isClosing c = true) : Scans [c] .outside [c]
  | plain {c due : Char} {outer w : List Char} (hquote : c ≠ '"') (hopening : isOpening c = false)
      (hclosing : isClosing c = false) (h : Scans (due :: outer) .outside w) :
      Scans (due :: outer) .outside (c :: w)

theorem exists_scans_of_balancedFrom {taken outer cs out : List Char} {due : Char}
    {quoting : Quoting} (h : balancedFrom taken (due :: outer) quoting cs = some out) :
    ∃ w rest, cs = w ++ rest ∧ out = taken.reverse ++ w ∧ Scans (due :: outer) quoting w := by
  induction cs generalizing taken due outer quoting with
  | nil => simp [balancedFrom] at h
  | cons c rest ih =>
    -- The scan goes on behind the character with other brackets pending.
    have hgo : ∀ {due' outer' quoting'},
        balancedFrom (c :: taken) (due' :: outer') quoting' rest = some out →
        (∀ {w}, Scans (due' :: outer') quoting' w → Scans (due :: outer) quoting (c :: w)) →
        ∃ w tail, c :: rest = w ++ tail ∧ out = taken.reverse ++ w ∧
          Scans (due :: outer) quoting w := by
      intro due' outer' quoting' hscan hstep
      obtain ⟨w, tail, rfl, rfl, hw⟩ := ih hscan
      exact ⟨c :: w, tail, rfl, by simp, hstep hw⟩
    by_cases hquoting : quoting ≠ .outside
    · rw [balancedFrom_quoted hquoting] at h
      exact hgo h (.quoted hquoting)
    obtain rfl : quoting = .outside := Decidable.not_not.mp hquoting
    by_cases hquote : c = '"'
    · subst hquote
      rw [balancedFrom_quote] at h
      exact hgo h .quote
    by_cases hopening : isOpening c = true
    · rw [balancedFrom_opening hopening] at h
      exact hgo h (.opening hopening)
    by_cases hclosing : isClosing c = true
    · by_cases hdue : due = c
      · subst hdue
        cases outer with
        | nil =>
          rw [balancedFrom_last hclosing, Option.some.injEq] at h
          exact ⟨[due], rest, rfl, by simp [← h], .last hclosing⟩
        | cons due' outer =>
          rw [balancedFrom_closing hclosing (List.cons_ne_nil due' outer)] at h
          exact hgo h (.closing hclosing)
      · -- A bracket of another kind than the one that is due ends the scan.
        rw [balancedFrom_cons, if_neg (by decide), if_neg hquote, if_neg hopening,
          if_pos hclosing] at h
        simp [hdue] at h
    · have hopening' : isOpening c = false := by simpa using hopening
      have hclosing' : isClosing c = false := by simpa using hclosing
      rw [balancedFrom_plain hquote hopening' hclosing'] at h
      exact hgo h (.plain hquote hopening' hclosing')

namespace Scans

variable {pending w : List Char} {quoting : Quoting} (h : Scans pending quoting w)
include h

/-- The front is taken whatever follows it. -/
theorem balancedFrom_append (taken tail : List Char) :
    balancedFrom taken pending quoting (w ++ tail) = some (taken.reverse ++ w) := by
  have hback : ∀ (c : Char) (taken w : List Char),
      (c :: taken).reverse ++ w = taken.reverse ++ c :: w := by simp
  induction h generalizing taken with
  | quoted hquoting _ ih =>
    rw [List.cons_append, balancedFrom_quoted hquoting, ih, hback]
  | quote _ ih => rw [List.cons_append, balancedFrom_quote, ih, hback]
  | opening hopening _ ih =>
    rw [List.cons_append, balancedFrom_opening hopening, ih, hback]
  | closing hclosing _ ih =>
    rw [List.cons_append, balancedFrom_closing hclosing (List.cons_ne_nil _ _), ih,
      hback]
  | last hclosing => rw [List.singleton_append, balancedFrom_last hclosing, List.reverse_cons]
  | plain hquote hopening hclosing _ ih =>
    rw [List.cons_append, balancedFrom_plain hquote hopening hclosing, ih, hback]

/-- The counter that starts with as many open brackets is back at zero behind it. -/
theorem objectStartsFrom_append (tail : List Char) :
    objectStartsFrom pending.length quoting (w ++ tail) = objectStarts tail := by
  induction h with
  | quoted hquoting _ ih =>
    rw [List.cons_append, List.length_cons, objectStartsFrom_quoted hquoting]
    exact ih
  | quote _ ih =>
    rw [List.cons_append, List.length_cons, objectStartsFrom_quote]
    exact ih
  | opening hopening _ ih =>
    rw [List.cons_append, List.length_cons, objectStartsFrom_opening hopening]
    exact ih
  | closing hclosing _ ih =>
    rw [List.cons_append, List.length_cons, objectStartsFrom_closing hclosing]
    exact ih
  | last hclosing => exact objectStartsFrom_closing hclosing
  | plain hquote hopening hclosing _ ih =>
    rw [List.cons_append, List.length_cons, objectStartsFrom_plain hquote hopening hclosing]
    exact ih

end Scans

/-- A text from a brace to the brace that closes it, with brackets of the right kind between. -/
structure IsBlock (block : List Char) : Prop where
  head : block.head? = some '\x7b'
  balanced : balanced? block = some block

theorem IsBlock.exists_cons {block : List Char} (h : IsBlock block) :
    ∃ inner, block = '\x7b' :: inner := by
  obtain ⟨hhead, -⟩ := h
  cases block with
  | nil => simp at hhead
  | cons c inner =>
    obtain rfl : c = '\x7b' := by simpa using hhead
    exact ⟨inner, rfl⟩

theorem IsBlock.takes {block : List Char} (h : IsBlock block) (tail : List Char) :
    balanced? (block ++ tail) = some block ∧
      objectStarts (block ++ tail) = (block ++ tail) :: objectStarts tail := by
  obtain ⟨inner, rfl⟩ := h.exists_cons
  have hopening : isOpening '\x7b' = true := rfl
  have hinner := h.balanced
  rw [balanced?, balancedFrom_opening hopening] at hinner
  obtain ⟨w, rest, hsplit, hout, hw⟩ := exists_scans_of_balancedFrom hinner
  obtain rfl : inner = w := by simpa using hout
  refine ⟨?_, ?_⟩
  · rw [balanced?, List.cons_append, balancedFrom_opening hopening]
    exact hw.balancedFrom_append ['\x7b'] tail
  · show objectStartsFrom 0 .outside ('\x7b' :: (inner ++ tail)) = _
    rw [objectStartsFrom, if_pos rfl, if_pos rfl]
    exact congrArg _ (hw.objectStartsFrom_append tail)

theorem objectTexts_block {block : List Char} (h : IsBlock block) (tail : List Char) :
    objectTexts (block ++ tail) = block :: objectTexts tail := by
  obtain ⟨hbalanced, hstarts⟩ := h.takes tail
  rw [objectTexts, hstarts, List.filterMap_cons, hbalanced]
  rfl

/-- In prose, whatever stands there but an opening brace means nothing. -/
theorem objectTexts_prose {prose : List Char} (h : '\x7b' ∉ prose) (tail : List Char) :
    objectTexts (prose ++ tail) = objectTexts tail := by
  induction prose with
  | nil => rfl
  | cons c prose ih =>
    obtain ⟨hc, hprose⟩ : '\x7b' ≠ c ∧ '\x7b' ∉ prose := by simpa using h
    rw [← ih hprose]
    unfold objectTexts objectStarts
    rw [List.cons_append, objectStartsFrom, if_pos rfl, if_neg (Ne.symm hc)]

end Rephrase.Oracle
