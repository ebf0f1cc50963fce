import Mathlib
import Rephrase.Proofs.Text.Infix
import Rephrase.Text.Lowercase

/-! Small letters do not depend on their neighbours, but for those of the capital sigma. A text
without sigmas stands in a text in lower case where it stands in that text's small letters. -/

namespace Rephrase.Text

/-! ## Small letters -/

/-- A character in lower case on its own. -/
def smallForm (c : Char) : List Char := lowercase [c]

/-- A text with every character in lower case on its own. -/
def smallForms (cs : List Char) : List Char := cs.flatMap smallForm

theorem lowerIn_of_ne {c : Char} (h : c ≠ 'Σ') (before rest : List Char) :
    lowerIn before c rest = smallForm c := by
  show _ = ((lowerIn [] c []).reverse ++ []).reverse
  rw [List.append_nil, List.reverse_reverse, lowerIn, lowerIn, if_neg h, if_neg h]

/-- The two small sigmas are taken for one. -/
def oneSigma (c : Char) : Char := if c = 'ς' then 'σ' else c

theorem map_lowerIn (before : List Char) (c : Char) (rest : List Char) :
    (lowerIn before c rest).map oneSigma = (smallForm c).map oneSigma := by
  by_cases h : c = 'Σ'
  · subst h
    rw [lowerIn, if_pos rfl]
    split <;> rfl
  · rw [lowerIn_of_ne h]

theorem lowercaseFrom_eq {cs : List Char} (before lowered : List Char) (h : 'Σ' ∉ cs) :
    lowercaseFrom before lowered cs = lowered.reverse ++ smallForms cs := by
  induction cs generalizing before lowered with
  | nil => exact (List.append_nil _).symm
  | cons c rest ih =>
    rw [List.mem_cons, not_or] at h
    rw [lowercaseFrom, ih _ _ h.2, lowerIn_of_ne (Ne.symm h.1), List.reverse_append,
      List.reverse_reverse, List.append_assoc]
    rfl

theorem map_lowercaseFrom (before lowered cs : List Char) :
    (lowercaseFrom before lowered cs).map oneSigma =
      (lowered.reverse ++ smallForms cs).map oneSigma := by
  induction cs generalizing before lowered with
  | nil => rw [lowercaseFrom]; simp [smallForms]
  | cons c rest ih =>
    rw [lowercaseFrom, ih, List.reverse_append, List.reverse_reverse, List.map_append,
      List.map_append, map_lowerIn, List.append_assoc, ← List.map_append, ← List.map_append]
    rfl

/-- Without capital sigmas, lower case is a matter of single characters. -/
theorem lowercase_eq {cs : List Char} (h : 'Σ' ∉ cs) : lowercase cs = smallForms cs :=
  lowercaseFrom_eq [] [] h

theorem smallForms_append (cs ds : List Char) :
    smallForms (cs ++ ds) = smallForms cs ++ smallForms ds := List.flatMap_append

theorem smallForms_unwords (ws : List (List Char)) :
    smallForms (unwords ws) = unwords (ws.map smallForms) := by
  induction ws with
  | nil => rfl
  | cons w ws ih =>
    cases ws with
    | nil =>
      rw [List.map_singleton, unwords, unwords, List.intercalate_singleton,
        List.intercalate_singleton]
    | cons v ws =>
      rw [unwords_cons_cons, smallForms_append, List.map_cons, List.map_cons, unwords_cons_cons,
        ← List.map_cons, ← ih]
      rfl

/-! ## Sigmas -/

theorem oneSigma_of_ne {c : Char} (h : c ≠ 'ς') : oneSigma c = c := if_neg h

theorem map_oneSigma {cs : List Char} (h : ∀ c ∈ cs, c ≠ 'ς') : cs.map oneSigma = cs := by
  rw [List.map_congr_left fun c hc => oneSigma_of_ne (h c hc), List.map_id']

theorem infix_map_oneSigma {needle cs : List Char} (hsmall : 'σ' ∉ needle) (hfinal : 'ς' ∉ needle) :
    needle <:+: cs.map oneSigma ↔ needle <:+: cs := by
  constructor
  · rintro ⟨front, back, hsplit⟩
    obtain ⟨left, right, rfl, hleft, -⟩ := List.append_eq_map_iff.mp hsplit
    obtain ⟨first, middle, rfl, -, hmiddle⟩ := List.map_eq_append_iff.mp hleft
    -- No sigma of the text was a final one, since its image would stand in the needle.
    have hnone : ∀ c ∈ middle, c ≠ 'ς' := by
      rintro c hc rfl
      exact hsmall (hmiddle ▸ List.mem_map_of_mem hc)
    rw [map_oneSigma hnone] at hmiddle
    exact ⟨first, right, by rw [hmiddle]⟩
  · intro hinfix
    have hmapped := hinfix.map oneSigma
    rwa [map_oneSigma fun c hc heq => hfinal (heq ▸ hc)] at hmapped

/-- A text stands in another in lower case where it stands in its small letters, if the text has no
small sigma or the other one no capital one. -/
theorem infix_lowercase_iff {needle cs : List Char}
    (h : ('σ' ∉ needle ∧ 'ς' ∉ needle) ∨ 'Σ' ∉ cs) :
    needle <:+: lowercase cs ↔ needle <:+: smallForms cs := by
  obtain ⟨hsmall, hfinal⟩ | h := h
  · have hmap : (lowercase cs).map oneSigma = (smallForms cs).map oneSigma :=
      map_lowercaseFrom [] [] cs
    rw [← infix_map_oneSigma hsmall hfinal, hmap, infix_map_oneSigma hsmall hfinal]
  · rw [lowercase_eq h]

/-! ## What small letters are never -/

/-- Where a code point is moved to another one, one of the runs moves it. -/
theorem moveBy_eq {n target : Nat} {runs : List CaseRun} (h : moveBy n runs = target) :
    n = target ∨ ∃ run ∈ runs, run.low ≤ n ∧ n ≤ run.high ∧ (n + run.shift).toNat = target := by
  induction runs with
  | nil => exact .inl h
  | cons run runs ih =>
    rw [moveBy] at h
    split at h
    · exact .inl h
    split at h
    · rename_i hlow hhigh
      simp only [Bool.and_eq_true, decide_eq_true_eq] at hhigh
      exact .inr ⟨run, List.mem_cons_self, Nat.le_of_not_lt hlow, hhigh.1, h⟩
    · obtain h | ⟨other, hother, hmoved⟩ := ih h
      · exact .inl h
      · exact .inr ⟨other, List.mem_cons_of_mem run hother, hmoved⟩

theorem eq_toNat_of_ofNat {n : Nat} {c : Char} (h : Char.ofNat n = c) (hpos : 0 < c.toNat) :
    n = c.toNat := by
  unfold Char.ofNat at h
  split at h
  · exact congrArg Char.toNat h
  · exact absurd (congrArg Char.toNat h) (Nat.ne_of_lt hpos)

/-- What has a small letter that no ASCII capital has is that letter or the only capital whose run
comes to it. -/
theorem eq_of_lowerChar {c small capital : Char} (h : lowerChar c = small) (hpos : 0 < small.toNat)
    (hascii : ∀ n < 128, (Char.ofNat n).toLower = small → Char.ofNat n = small)
    (hruns : ∀ run ∈ lowerRuns, run.low ≤ (small.toNat : Int) - run.shift →
      (small.toNat : Int) - run.shift ≤ run.high →
        (small.toNat : Int) - run.shift = capital.toNat) : c = small ∨ c = capital := by
  unfold lowerChar at h
  split at h
  · rename_i hlt
    have hc := hascii c.toNat hlt
    rw [Char.ofNat_toNat] at hc
    exact .inl (hc h)
  -- Beyond ASCII one run of the table has moved the character, or none has.
  · obtain hsame | ⟨run, hrun, hlow, hhigh, hshift⟩ := moveBy_eq (eq_toNat_of_ofNat h hpos)
    · exact .inl (by rw [← Char.ofNat_toNat c, hsame, Char.ofNat_toNat])
    · have hcapital := hruns run hrun (by omega) (by omega)
      have hc : c.toNat = capital.toNat := by omega
      exact .inr (by rw [← Char.ofNat_toNat c, hc, Char.ofNat_toNat])

theorem smallForm_eq (c : Char) : smallForm c =
    if c = 'Σ' then ['σ'] else if c = 'İ' then ['i', '\u0307'] else [lowerChar c] := by
  show ((lowerIn [] c []).reverse ++ []).reverse = _
  rw [List.append_nil, List.reverse_reverse]
  rfl

/-- A small letter is its own, a sigma's, or one of a dotted I's. -/
theorem of_mem_smallForm {c d : Char} (h : d ∈ smallForm c) :
    c = 'Σ' ∧ d = 'σ' ∨ d = 'i' ∨ d = '\u0307' ∨ lowerChar c = d := by
  rw [smallForm_eq] at h
  split at h
  · rename_i hc
    exact .inl ⟨hc, List.mem_singleton.mp h⟩
  split at h
  · obtain rfl | h := List.mem_cons.mp h
    · exact .inr (.inl rfl)
    · exact .inr (.inr (.inl (List.mem_singleton.mp h)))
  · exact .inr (.inr (.inr (List.mem_singleton.mp h).symm))

theorem eq_space_of_mem_smallForm {c : Char} (h : ' ' ∈ smallForm c) : c = ' ' := by
  obtain ⟨-, h⟩ | h | h | h := of_mem_smallForm h
  · cases h
  · cases h
  · cases h
  · exact or_self_iff.mp (eq_of_lowerChar h (by decide) (by decide) (by decide +kernel))

theorem eq_sigma_of_mem_smallForm {c : Char} (h : 'σ' ∈ smallForm c) : c = 'σ' ∨ c = 'Σ' := by
  obtain ⟨h, -⟩ | h | h | h := of_mem_smallForm h
  · exact .inr h
  · cases h
  · cases h
  · exact eq_of_lowerChar h (by decide) (by decide) (by decide +kernel)

theorem eq_final_of_mem_smallForm {c : Char} (h : 'ς' ∈ smallForm c) : c = 'ς' := by
  obtain ⟨-, h⟩ | h | h | h := of_mem_smallForm h
  · cases h
  · cases h
  · cases h
  · exact or_self_iff.mp (eq_of_lowerChar h (by decide) (by decide) (by decide +kernel))

/-! ## Texts in lower case within others -/

/-- No sigma makes a difference when a text is looked for in another one: the text has no capital
one, and if the other one has, it has no small one either. -/
structure IsSteady (needle cs : List Char) : Prop where
  capital : 'Σ' ∉ needle
  small : ('σ' ∉ needle ∧ 'ς' ∉ needle) ∨ 'Σ' ∉ cs

theorem IsSteady.mono {needle cs part ds : List Char} (h : IsSteady needle cs)
    (hpart : part ⊆ needle) (hds : ds ⊆ cs) : IsSteady part ds := by
  refine ⟨fun hmem => h.capital (hpart hmem), ?_⟩
  obtain ⟨hsmall, hfinal⟩ | hcapital := h.small
  · exact .inl ⟨fun hmem => hsmall (hpart hmem), fun hmem => hfinal (hpart hmem)⟩
  · exact .inr fun hmem => hcapital (hds hmem)

theorem IsSteady.collapse {needle cs : List Char} (h : IsSteady needle cs) :
    IsSteady (collapse needle) (collapse cs) := by
  have hspaces : IsSteady (' ' :: needle) (' ' :: cs) :=
    ⟨by simpa using h.capital, by simpa using h.small⟩
  exact hspaces.mono (collapse_subset needle) (collapse_subset cs)

/-- Then lower case is as good as small letters. -/
theorem IsSteady.infix_iff {needle cs : List Char} (h : IsSteady needle cs) :
    lowercase needle <:+: lowercase cs ↔ smallForms needle <:+: smallForms cs := by
  rw [lowercase_eq h.capital]
  refine infix_lowercase_iff ?_
  obtain ⟨hsmall, hfinal⟩ | hcapital := h.small
  · refine .inl ⟨fun hmem => ?_, fun hmem => ?_⟩
    · obtain ⟨c, hc, hform⟩ := List.mem_flatMap.mp hmem
      obtain rfl | rfl := eq_sigma_of_mem_smallForm hform
      · exact hsmall hc
      · exact h.capital hc
    · obtain ⟨c, hc, hform⟩ := List.mem_flatMap.mp hmem
      obtain rfl := eq_final_of_mem_smallForm hform
      exact hfinal hc
  · exact .inr hcapital

/-- A text without spaces that stands among words stands in one of them. -/
theorem infix_smallForms_of_unwords {needle cs : List Char} {ws : List (List Char)}
    (hne : needle ≠ []) (hspace : ' ' ∉ needle) (hws : ∀ w ∈ ws, w <:+: cs)
    (h : smallForms needle <:+: smallForms (unwords ws)) :
    smallForms needle <:+: smallForms cs := by
  -- Small letters never vanish, and they are spaces only for a space.
  have hform : ∀ c, smallForm c ≠ [] := by
    intro c
    rw [smallForm_eq]
    split
    · simp
    split <;> simp
  have hnil : smallForms needle ≠ [] := by
    obtain ⟨c, rest, rfl⟩ := List.exists_cons_of_ne_nil hne
    exact List.append_ne_nil_of_left_ne_nil (hform c) _
  have hnone : ' ' ∉ smallForms needle := by
    intro hmem
    obtain ⟨c, hc, hform⟩ := List.mem_flatMap.mp hmem
    rw [eq_space_of_mem_smallForm hform] at hc
    exact hspace hc
  rw [smallForms_unwords] at h
  obtain ⟨small, hsmall, hinfix⟩ := infix_of_infix_unwords hnil hnone h
  obtain ⟨w, hw, rfl⟩ := List.mem_map.mp hsmall
  exact hinfix.trans (infix_flatMap (hws w hw) smallForm)

end Rephrase.Text
