import Rephrase.Proofs.Text.Blank

/-! A text's words are what its blanks set apart, so a text of words and single spaces has just
these words. -/

namespace Rephrase.Text

/-- A text without blanks that is not empty. -/
def IsWord (w : List Char) : Prop := w ≠ [] ∧ ∀ c ∈ w, isBlank c = false

theorem words_of_isWord {w : List Char} (h : IsWord w) : words w = [w] := by
  have hempty : w.isEmpty = false := by simpa using h.1
  rw [words, List.splitOnP_eq_singleton h.2, List.filter_cons_of_pos (by rw [hempty]; rfl)]
  rfl

/-- A blank sets the words on both sides apart. -/
theorem words_append_blank {c : Char} (h : isBlank c = true) (cs ds : List Char) :
    words (cs ++ c :: ds) = words cs ++ words ds := by
  rw [words, List.splitOnP_append_cons cs ds h, List.filter_append]
  rfl

theorem words_blank_cons {c : Char} (h : isBlank c = true) (cs : List Char) :
    words (c :: cs) = words cs := words_append_blank h [] cs

theorem not_blank_of_mem_splitOnP {cs part : List Char} (h : part ∈ cs.splitOnP isBlank) :
    ∀ c ∈ part, isBlank c = false := by
  induction cs generalizing part with
  | nil =>
    obtain rfl : part = [] := by simpa using h
    nofun
  | cons d cs ih =>
    rw [List.splitOnP_cons_eq_if_modifyHead] at h
    split at h
    · obtain rfl | h := List.mem_cons.mp h
      · nofun
      · exact ih h
    · rename_i hd
      -- The first part of the rest goes on with this character in front.
      cases hparts : cs.splitOnP isBlank with
      | nil => exact absurd hparts (List.splitOnP_ne_nil _ _)
      | cons first more =>
        rw [hparts, List.modifyHead_cons] at h
        obtain rfl | h := List.mem_cons.mp h
        · have hfirst := ih (hparts ▸ List.mem_cons_self)
          exact List.forall_mem_cons.mpr ⟨by simpa using hd, hfirst⟩
        · exact ih (hparts ▸ List.mem_cons_of_mem first h)

theorem isWord_of_mem_words {cs w : List Char} (h : w ∈ words cs) : IsWord w := by
  obtain ⟨hpart, hempty⟩ := List.mem_filter.mp h
  exact ⟨by simpa using hempty, not_blank_of_mem_splitOnP hpart⟩

theorem unwords_cons_cons (w v : List Char) (ws : List (List Char)) :
    unwords (w :: v :: ws) = w ++ ' ' :: unwords (v :: ws) := by
  rw [unwords, List.intercalate_cons_cons]
  simp [unwords]

theorem words_unwords {ws : List (List Char)} (h : ∀ w ∈ ws, IsWord w) :
    words (unwords ws) = ws := by
  induction ws with
  | nil => rfl
  | cons w ws ih =>
    have hw := h w List.mem_cons_self
    have hws := ih fun v hv => h v (List.mem_cons_of_mem w hv)
    cases ws with
    | nil =>
      rw [unwords, List.intercalate_singleton]
      exact words_of_isWord hw
    | cons v ws =>
      rw [unwords_cons_cons, words_append_blank (by decide), words_of_isWord hw, hws]
      rfl

/-! ## Blanks around a text -/

theorem words_ne_nil {cs : List Char} {c : Char} (hc : c ∈ cs) (h : isBlank c = false) :
    words cs ≠ [] := by
  induction cs with
  | nil => simp at hc
  | cons d cs ih =>
    by_cases hd : isBlank d = true
    · rw [words_blank_cons hd]
      -- The character that is not blank is further behind.
      obtain rfl | hc := List.mem_cons.mp hc
      · rw [h] at hd
        cases hd
      · exact ih hc
    · rw [words, List.splitOnP_cons_eq_if_modifyHead, if_neg hd]
      cases hparts : cs.splitOnP isBlank with
      | nil => exact absurd hparts (List.splitOnP_ne_nil _ _)
      | cons first more =>
        rw [List.modifyHead_cons, List.filter_cons_of_pos (by simp)]
        exact List.cons_ne_nil _ _

theorem words_of_blanks {cs : List Char} (h : ∀ c ∈ cs, isBlank c = true) : words cs = [] := by
  induction cs with
  | nil => rfl
  | cons c cs ih =>
    rw [words_blank_cons (h c List.mem_cons_self)]
    exact ih fun d hd => h d (List.mem_cons_of_mem c hd)

theorem words_trim (cs : List Char) : words (trim cs) = words cs := by
  obtain ⟨front, back, hsplit, hfront, hback⟩ := strip_append_stripped isBlank cs
  change cs = front ++ trim cs ++ back at hsplit
  have hstart : ∀ ds, words (front ++ ds) = words ds := by
    intro ds
    clear hsplit
    induction front with
    | nil => rfl
    | cons c front ih =>
      rw [List.cons_append, words_blank_cons (hfront c List.mem_cons_self)]
      exact ih fun d hd => hfront d (List.mem_cons_of_mem c hd)
  have hstop : words (trim cs ++ back) = words (trim cs) := by
    cases back with
    | nil => rw [List.append_nil]
    | cons c back =>
      rw [words_append_blank (hback c List.mem_cons_self),
        words_of_blanks fun d hd => hback d (List.mem_cons_of_mem c hd), List.append_nil]
  rw [← hstop, ← hstart (trim cs ++ back), ← List.append_assoc, ← hsplit]

theorem trim_ne_nil {cs : List Char} (h : words cs ≠ []) : trim cs ≠ [] := by
  intro hnil
  rw [← words_trim, hnil] at h
  exact h rfl

/-- A text of one word is that word with blanks around it. -/
theorem trim_of_words {cs w : List Char} (h : words cs = [w]) : trim cs = w := by
  have hsolid : Solid isBlank (trim cs) := strip_solid (trim_ne_nil (by rw [h]; simp))
  rw [← words_trim] at h
  generalize trim cs = text at *
  suffices hword : ∀ c ∈ text, isBlank c = false by
    rw [words_of_isWord ⟨hsolid.ne_nil, hword⟩] at h
    exact (List.cons.inj h).1
  intro c hc
  refine Bool.eq_false_iff.mpr fun hblank => ?_
  obtain ⟨front, back, rfl⟩ := List.append_of_mem hc
  -- The ends are not blank, so there is a word on both sides.
  have hfront : words front ≠ [] := by
    cases front with
    | nil =>
      have hhead := hsolid.head c rfl
      rw [hblank] at hhead
      cases hhead
    | cons d front => exact words_ne_nil List.mem_cons_self (hsolid.head d rfl)
  have hback : words back ≠ [] := by
    obtain rfl | ⟨rest, d, rfl⟩ := List.eq_nil_or_concat back
    · have hlast := hsolid.last c (by simp)
      rw [hblank] at hlast
      cases hlast
    · have hend : (front ++ c :: rest.concat d).getLast? = some d := by
        rw [List.concat_eq_append, ← List.cons_append, ← List.append_assoc]
        exact List.getLast?_concat
      exact words_ne_nil (by simp) (hsolid.last d hend)
  rw [words_append_blank hblank] at h
  have hlength := congrArg List.length h
  rw [List.length_append, List.length_singleton] at hlength
  have hfrontPos := List.length_pos_iff.mpr hfront
  have hbackPos := List.length_pos_iff.mpr hback
  omega

end Rephrase.Text
