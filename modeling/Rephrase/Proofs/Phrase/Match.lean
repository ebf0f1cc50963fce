import Rephrase.Proofs.Phrase.Pattern
import Rephrase.Proofs.Phrase.Share
import Rephrase.Proofs.Text.Lowercase
import Rephrase.Proofs.Text.Slice

/-! A text in which all words of a phrase stand matches the phrase, in whatever order they stand, if
the phrase is a single word or has a long one. -/

namespace Rephrase.Phrase

open Text

/-- A phrase that can be told by its words alone: it is a single one, or one of them is long. -/
def IsTelling (phrase : List Char) : Prop :=
  (Text.words phrase).length ≤ 1 ∨ longWords (words phrase) ≠ []

/-! ## Grades -/

theorem grade?_of_lowercase {config : Config} {phrase cs : List Char} (hphrase : trim phrase ≠ [])
    (h : lowercase (trim phrase) <:+: lowercase cs) : grade? config phrase cs ≠ none := by
  unfold grade?
  dsimp only
  rw [if_neg (by simpa using hphrase), if_pos (contains_iff.mpr h)]
  split <;> nofun

theorem grade?_of_reaches {config : Config} {phrase cs : List Char} (hphrase : trim phrase ≠ [])
    (h : reaches config.wordMajorityThreshold (longWords (words phrase)) (lowercase cs) = true) :
    grade? config phrase cs ≠ none := by
  unfold grade?
  dsimp only
  rw [if_neg (by simpa using hphrase), if_pos h]
  split
  · nofun
  split
  · nofun
  split <;> nofun

/-- All parts are enough of them. -/
theorem reaches_of_forall {threshold : Float} {parts : List (List Char)} {cs : List Char}
    (hthreshold : threshold ≤ 1) (hne : parts ≠ []) (hlimit : parts.length < Fault.wordLimit)
    (h : ∀ part ∈ parts, part <:+: cs) : reaches threshold parts cs = true := by
  -- All parts are hits, so the share is one, which no sensible threshold exceeds.
  have hhits : hits parts cs = parts.length :=
    List.countP_eq_length.mpr fun part hpart => contains_iff.mpr (h part hpart)
  unfold reaches
  rw [hhits, share_self (List.length_pos_iff.mpr hne) hlimit, decide_eq_true hthreshold,
    Bool.and_true]
  simpa using hne

/-! ## Words -/

theorem length_words_le (phrase : List Char) :
    (words phrase).length ≤ (Text.words phrase).length := by
  unfold words
  exact Nat.le_trans (List.length_filter_le _ _) (Nat.le_of_eq (List.length_map plainWord))

/-- A word as it is compared is a part of a word of the phrase, in lower case. -/
theorem exists_of_mem_words {phrase w : List Char} (h : w ∈ words phrase) :
    ∃ v ∈ Text.words phrase, ∃ part, part <:+: v ∧ w = lowercase part := by
  obtain ⟨v, hv, rfl⟩ := List.mem_map.mp (List.mem_filter.mp h).1
  obtain ⟨front, back, hsplit, -, -⟩ := strip_append_stripped (fun c => !isAlphanumeric c) v
  exact ⟨v, hv, strip (fun c => !isAlphanumeric c) v, ⟨front, back, hsplit.symm⟩, rfl⟩

theorem trim_ne_nil_of_longWords {phrase : List Char} (h : longWords (words phrase) ≠ []) :
    trim phrase ≠ [] := by
  refine trim_ne_nil fun hnil => h ?_
  unfold words
  rw [hnil]
  rfl

theorem grade?_of_longWords {config : Config} {phrase cs : List Char}
    (hthreshold : config.wordMajorityThreshold ≤ 1) (hlimit : size phrase < Fault.wordLimit)
    (hne : longWords (words phrase) ≠ [])
    (h : ∀ w ∈ longWords (words phrase), w <:+: lowercase cs) : grade? config phrase cs ≠ none := by
  refine grade?_of_reaches (trim_ne_nil_of_longWords hne) (reaches_of_forall hthreshold hne ?_ h)
  calc (longWords (words phrase)).length
      ≤ (words phrase).length := List.length_filter_le _ _
    _ ≤ (Text.words phrase).length := length_words_le phrase
    _ ≤ phrase.length := Text.length_words_le phrase
    _ ≤ size phrase := length_le_size phrase
    _ < Fault.wordLimit := hlimit

/-- The words of a phrase stand in a text but for case. -/
def StandSmall (phrase cs : List Char) : Prop :=
  ∀ w ∈ Text.words phrase, smallForms w <:+: smallForms cs

theorem StandSmall.infix_lowercase {phrase cs w : List Char} (h : StandSmall phrase cs)
    (hsteady : IsSteady phrase cs) (hw : w ∈ words phrase) : w <:+: lowercase cs := by
  obtain ⟨v, hv, part, hpart, rfl⟩ := exists_of_mem_words hw
  have hpartSteady := hsteady.mono (hpart.trans (infix_of_mem_words hv)).subset
    (List.Subset.refl cs)
  rw [hpartSteady.infix_iff]
  exact (infix_flatMap hpart smallForm).trans (h v hv)

/-- The letters of a phrase that folding takes for letters of a text have their small letters. -/
def FoldsAlike (phrase cs : List Char) : Prop :=
  ∀ a ∈ phrase, ∀ b ∈ cs, sameFolded a b = true → smallForm a = smallForm b

/-- The words of a phrase that its pattern finds stand in the text. -/
theorem standSmall_of_find {phrase cs : List Char} (hfolds : FoldsAlike phrase cs)
    (h : find phrase cs ≠ []) : StandSmall phrase cs := by
  intro w hw
  obtain ⟨found, hfound, hsame⟩ := standsFolded_of_find h w hw
  -- What stands for the word may be other characters, but with the same small letters.
  suffices hsmall : smallForms w = smallForms found by
    rw [hsmall]
    exact infix_flatMap hfound smallForm
  have hletters := (infix_of_mem_words hw).subset
  have hplaces := hfound.subset
  clear hw hfound
  induction hsame with
  | nil => rfl
  | @cons a b w found hab _ ih =>
    rw [List.cons_subset] at hletters hplaces
    show smallForm a ++ smallForms w = smallForm b ++ smallForms found
    rw [hfolds a hletters.1 b hplaces.1 hab, ih hletters.2 hplaces.2]

/-- So do the words of a phrase that stands, collapsed, in a part of the text. -/
theorem standSmall_of_collapse {phrase cs part : List Char} (hsteady : IsSteady phrase cs)
    (hpart : part <:+: cs) (h : lowercase (collapse phrase) <:+: lowercase (collapse part)) :
    StandSmall phrase cs := by
  intro w hw
  have hword := isWord_of_mem_words hw
  have hspace : ' ' ∉ w := fun hmem => by cases hword.2 ' ' hmem
  -- Collapsed texts differ from their words in spaces only, and a word has none.
  rw [(hsteady.mono (List.Subset.refl phrase) hpart.subset).collapse.infix_iff] at h
  refine infix_smallForms_of_unwords hword.1 hspace (fun v hv => ?_)
    ((infix_flatMap (infix_unwords hw) smallForm).trans h)
  exact (infix_of_mem_words hv).trans hpart

/-- A text that has all words of a telling phrase matches it. -/
theorem StandSmall.grade?_ne_none {config : Config} {phrase cs : List Char}
    (h : StandSmall phrase cs) (hthreshold : config.wordMajorityThreshold ≤ 1)
    (hlimit : size phrase < Fault.wordLimit) (htelling : IsTelling phrase)
    (hwords : Text.words phrase ≠ []) (hsteady : IsSteady phrase cs) :
    grade? config phrase cs ≠ none := by
  -- A single word is found as it is; of several only the long ones are looked for.
  obtain hsingle | hlong := htelling
  · obtain ⟨w, hw⟩ : ∃ w, Text.words phrase = [w] := by
      have hpos := List.length_pos_iff.mpr hwords
      exact List.length_eq_one_iff.mp (Nat.le_antisymm hsingle hpos)
    have hmem : w ∈ Text.words phrase := by rw [hw]; exact List.mem_cons_self
    have hwordSteady := hsteady.mono (infix_of_mem_words hmem).subset (List.Subset.refl cs)
    refine grade?_of_lowercase (trim_ne_nil hwords) ?_
    rw [trim_of_words hw, hwordSteady.infix_iff]
    exact h w hmem
  · refine grade?_of_longWords hthreshold hlimit hlong fun w hw => ?_
    exact h.infix_lowercase hsteady (List.mem_filter.mp hw).1

end Rephrase.Phrase
