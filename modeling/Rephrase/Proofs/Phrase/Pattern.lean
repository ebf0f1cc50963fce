import Mathlib.Data.List.Forall2
import Rephrase.Phrase.Pattern
import Rephrase.Proofs.Text.Replaced

/-! The places that a phrase's pattern finds are not empty and lie one after another, and where
there is one, the phrase's words stand in the text. -/

namespace Rephrase.Phrase

open Text

theorem of_dropWord? {word cs rest : List Char} (h : dropWord? word cs = some rest) :
    ∃ front, cs = front ++ rest ∧ List.Forall₂ (fun w c => sameFolded w c = true) word front := by
  induction word generalizing cs with
  | nil =>
    obtain rfl : cs = rest := by simpa [dropWord?] using h
    exact ⟨[], rfl, .nil⟩
  | cons w word ih =>
    cases cs with
    | nil => simp [dropWord?] at h
    | cons c cs =>
      rw [dropWord?] at h
      split at h
      · rename_i hsame
        obtain ⟨front, rfl, hfront⟩ := ih h
        exact ⟨c :: front, rfl, .cons hsame hfront⟩
      · simp at h

theorem of_findFolded? {needle cs : List Char} {offset : Nat} {span : Span}
    (h : findFolded? needle offset cs = some span) : ∃ front found back,
      cs = front ++ found ++ back ∧ span.start = offset + size front ∧
      span.stop = span.start + size found ∧
      List.Forall₂ (fun w c => sameFolded w c = true) needle found := by
  induction cs generalizing offset with
  | nil =>
    rw [findFolded?] at h
    split at h
    · rename_i hneedle
      obtain rfl := List.isEmpty_iff.mp hneedle
      obtain rfl := Option.some.inj h
      exact ⟨[], [], [], rfl, rfl, rfl, .nil⟩
    · cases h
  | cons c rest ih =>
    rw [findFolded?] at h
    split at h
    · rename_i back hdrop
      obtain ⟨found, hsplit, hsame⟩ := of_dropWord? hdrop
      obtain rfl := Option.some.inj h
      refine ⟨[], found, back, hsplit, rfl, ?_, hsame⟩
      rw [hsplit, size_append]
      dsimp only
      omega
    · obtain ⟨front, found, back, rfl, hstart, hstop, hsame⟩ := ih h
      exact ⟨c :: front, found, back, rfl, by rw [hstart, size_cons, Nat.add_assoc], hstop, hsame⟩

theorem length_of_dropWord? {word cs rest : List Char} (h : dropWord? word cs = some rest) :
    cs.length = word.length + rest.length := by
  obtain ⟨front, rfl, hfront⟩ := of_dropWord? h
  rw [List.length_append, hfront.length_eq]

theorem length_lt_of_mem_gapEnds {inTag : Bool} {cs rest : List Char}
    (h : rest ∈ gapEnds inTag cs) : rest.length < cs.length := by
  induction cs generalizing inTag with
  | nil => simp [gapEnds] at h
  | cons c cs ih =>
    have hend : ∀ {tag : Bool}, rest ∈ gapEnds tag cs → rest.length < (c :: cs).length :=
      fun hmem => Nat.lt_succ_of_lt (ih hmem)
    have hhere : rest = cs → rest.length < (c :: cs).length := by
      intro heq
      rw [heq]
      exact Nat.lt_succ_self _
    rw [gapEnds] at h
    split at h
    · split at h
      · simp at h
      · split at h
        · exact (List.mem_cons.mp h).elim hhere hend
        · exact hend h
    · split at h
      · exact (List.mem_cons.mp h).elim hhere hend
      · split at h
        · exact hend h
        · simp at h

/-- Words with gaps between them take at least as many characters as the first word has. -/
theorem length_of_dropWords? {word : List Char} {ws : List (List Char)} {cs rest : List Char}
    (h : dropWords? (word :: ws) cs = some rest) : word.length + rest.length ≤ cs.length := by
  induction ws generalizing word cs with
  | nil => exact Nat.le_of_eq (length_of_dropWord? h).symm
  | cons next ws ih =>
    rw [dropWords?] at h
    · split at h
      · rename_i behind hword
        obtain ⟨after, hafter, hnext⟩ := List.exists_of_findSome?_eq_some h
        have hgap := length_lt_of_mem_gapEnds (List.mem_reverse.mp hafter)
        have hlength := length_of_dropWord? hword
        have hlater := ih hnext
        omega
      · simp at h
    · simp

theorem findFrom_found (ws : List (List Char)) (found : List Span) (offset skip : Nat)
    (cs : List Char) :
    findFrom ws found offset skip cs = found.reverse ++ findFrom ws [] offset skip cs := by
  induction cs generalizing found offset skip with
  | nil => simp [findFrom]
  | cons c cs ih =>
    rw [findFrom, findFrom]
    dsimp only
    split
    · split
      · rw [ih, ih [_]]
        simp
      · exact ih found _ _
    · exact ih found _ _

/-- What is found next lies behind the characters that are still covered. -/
theorem ascend_findFrom {word : List Char} (hword : word ≠ []) (ws : List (List Char))
    (offset skip : Nat) (cs : List Char) :
    Ascend (offset + size (cs.take skip)) (offset + size cs)
      (findFrom (word :: ws) [] offset skip cs) := by
  induction cs generalizing offset skip with
  | nil =>
    rw [List.take_nil]
    exact Nat.le_refl _
  | cons c cs ih =>
    rw [findFrom, size_cons, ← Nat.add_assoc]
    dsimp only
    split
    · rename_i hskip
      rw [hskip, List.take_zero, size_nil, Nat.add_zero]
      split
      · rename_i after hafter
        have hlength := length_of_dropWords? hafter
        have hpos := List.length_pos_iff.mpr hword
        -- A find takes a character at least, since its first word has one.
        obtain ⟨k, hk⟩ : ∃ k, (c :: cs).length - after.length = k + 1 :=
          Nat.exists_eq_succ_of_ne_zero (by omega)
        have hle : k + 1 ≤ (c :: cs).length := by omega
        have hstretch : ((c :: cs).take (k + 1)).length - 1 = k := by
          rw [List.length_take_of_le hle, Nat.add_sub_cancel]
        have hlater := ih (offset + c.utf8Size) k
        have hc := c.utf8Size_pos
        rw [hk, hstretch, findFrom_found, List.take_succ_cons, size_cons, ← Nat.add_assoc]
        refine ⟨Nat.le_refl _, ?_, hlater⟩
        show offset < offset + c.utf8Size + size (cs.take k)
        omega
      · have hlater := ih (offset + c.utf8Size) 0
        rw [List.take_zero, size_nil, Nat.add_zero] at hlater
        exact hlater.of_le (Nat.le_add_right _ _)
    · rename_i hskip
      obtain ⟨k, rfl⟩ : ∃ k, skip = k + 1 := Nat.exists_eq_succ_of_ne_zero hskip
      rw [List.take_succ_cons, size_cons, ← Nat.add_assoc, Nat.add_sub_cancel]
      exact ih (offset + c.utf8Size) k

theorem ascend_find (phrase cs : List Char) : Ascend 0 (size cs) (find phrase cs) := by
  unfold find
  dsimp only
  split
  · exact Nat.zero_le _
  · rename_i hempty
    obtain ⟨word, ws, hws⟩ : ∃ word ws, Text.words phrase = word :: ws := by
      cases hwords : Text.words phrase with
      | nil => simp [hwords] at hempty
      | cons word ws => exact ⟨word, ws, rfl⟩
    have hword : word ≠ [] := by
      have hmem : word ∈ Text.words phrase := by
        rw [hws]
        exact List.mem_cons_self
      simpa using (List.mem_filter.mp hmem).2
    have hfind := ascend_findFrom hword ws 0 0 cs
    rw [List.take_zero, size_nil, Nat.zero_add, Nat.zero_add] at hfind
    rw [hws]
    exact hfind

/-! ## Words -/

/-- A text stands within another but for its case. -/
def StandsFolded (word cs : List Char) : Prop :=
  ∃ found, found <:+: cs ∧ List.Forall₂ (fun w c => sameFolded w c = true) word found

theorem StandsFolded.of_suffix {word cs behind : List Char} (h : StandsFolded word behind)
    (hsuffix : behind <:+ cs) : StandsFolded word cs := by
  obtain ⟨found, hfound, hsame⟩ := h
  exact ⟨found, hfound.trans hsuffix.isInfix, hsame⟩

theorem suffix_of_mem_gapEnds {inTag : Bool} {cs rest : List Char} (h : rest ∈ gapEnds inTag cs) :
    rest <:+ cs := by
  induction cs generalizing inTag with
  | nil => simp [gapEnds] at h
  | cons c cs ih =>
    have hend : ∀ {tag : Bool}, rest ∈ gapEnds tag cs → rest <:+ c :: cs :=
      fun hmem => (ih hmem).trans (List.suffix_cons c cs)
    have hhere : rest = cs → rest <:+ c :: cs := by
      rintro rfl
      exact List.suffix_cons c rest
    rw [gapEnds] at h
    split at h
    · split at h
      · simp at h
      · split at h
        · exact (List.mem_cons.mp h).elim hhere hend
        · exact hend h
    · split at h
      · exact (List.mem_cons.mp h).elim hhere hend
      · split at h
        · exact hend h
        · simp at h

theorem standsFolded_of_dropWord? {word cs rest : List Char} (h : dropWord? word cs = some rest) :
    StandsFolded word cs := by
  obtain ⟨front, rfl, hsame⟩ := of_dropWord? h
  exact ⟨front, (List.prefix_append front rest).isInfix, hsame⟩

theorem standsFolded_of_dropWords? {ws : List (List Char)} {cs rest : List Char}
    (h : dropWords? ws cs = some rest) : ∀ w ∈ ws, StandsFolded w cs := by
  induction ws generalizing cs with
  | nil => nofun
  | cons word ws ih =>
    cases ws with
    | nil =>
      intro w hw
      rw [List.mem_singleton.mp hw]
      exact standsFolded_of_dropWord? h
    | cons next ws =>
      rw [dropWords?] at h
      · split at h
        · rename_i behind hword
          -- Behind one of the gap's ends the later words go on.
          obtain ⟨after, hafter, hnext⟩ := List.exists_of_findSome?_eq_some h
          have hgap := suffix_of_mem_gapEnds (List.mem_reverse.mp hafter)
          intro w hw
          obtain rfl | hw := List.mem_cons.mp hw
          · exact standsFolded_of_dropWord? hword
          · obtain ⟨front, rfl, -⟩ := of_dropWord? hword
            exact (ih hnext w hw).of_suffix (hgap.trans (List.suffix_append front behind))
        · simp at h
      · simp

theorem exists_dropWords?_of_findFrom {ws : List (List Char)} {offset skip : Nat} {cs : List Char}
    (h : findFrom ws [] offset skip cs ≠ []) :
    ∃ behind rest, behind <:+ cs ∧ dropWords? ws behind = some rest := by
  induction cs generalizing offset skip with
  | nil => exact absurd rfl h
  | cons c cs ih =>
    rw [findFrom] at h
    dsimp only at h
    have hlater : ∀ {offset skip : Nat}, findFrom ws [] offset skip cs ≠ [] →
        ∃ behind rest, behind <:+ c :: cs ∧ dropWords? ws behind = some rest := by
      intro offset skip hfound
      obtain ⟨behind, rest, hsuffix, hdrop⟩ := ih hfound
      exact ⟨behind, rest, hsuffix.trans (List.suffix_cons c cs), hdrop⟩
    split at h
    · split at h
      · rename_i after hafter
        exact ⟨c :: cs, after, List.suffix_rfl, hafter⟩
      · exact hlater h
    · exact hlater h

/-- A phrase that is found has all its words in the text. -/
theorem standsFolded_of_find {phrase cs : List Char} (h : find phrase cs ≠ []) :
    ∀ w ∈ Text.words phrase, StandsFolded w cs := by
  unfold find at h
  dsimp only at h
  split at h
  · exact absurd rfl h
  · obtain ⟨behind, rest, hsuffix, hdrop⟩ := exists_dropWords?_of_findFrom h
    exact fun w hw => (standsFolded_of_dropWords? hdrop w hw).of_suffix hsuffix

end Rephrase.Phrase
