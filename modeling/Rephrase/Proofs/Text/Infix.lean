import Rephrase.Proofs.Text.Words
import Rephrase.Text.Slice

/-! Where a text stands within another, and what its words have to do with that. -/

namespace Rephrase.Text

theorem isSome_findFrom {needle : List Char} (offset : Nat) (cs : List Char) :
    (findFrom needle offset cs).isSome = true ↔ needle <:+: cs := by
  induction cs generalizing offset with
  | nil =>
    rw [findFrom, List.infix_nil]
    split <;> simp_all
  | cons c rest ih =>
    rw [findFrom, List.infix_cons_iff, ← ih (offset + c.utf8Size), ← List.isPrefixOf_iff_prefix]
    split <;> simp_all

theorem contains_iff {needle cs : List Char} : contains needle cs = true ↔ needle <:+: cs :=
  isSome_findFrom 0 cs

/-- A text without some character stands on one side of it. -/
theorem infix_append_cons {needle front back : List Char} {c : Char} (hc : c ∉ needle)
    (h : needle <:+: front ++ c :: back) : needle <:+: front ∨ needle <:+: back := by
  -- Nothing without the character can start where the character stands.
  have hstarts : ∀ part, part <+: c :: back → c ∉ part → part = [] := by
    intro part hpart hnot
    obtain hnil | ⟨rest, rfl, -⟩ := List.prefix_cons_iff.mp hpart
    · exact hnil
    · exact absurd List.mem_cons_self hnot
  obtain h | h | ⟨left, right, rfl, hleft, hright⟩ := List.infix_append_iff.mp h
  · exact .inl h
  · obtain h | h := List.infix_cons_iff.mp h
    · rw [hstarts needle h hc]
      exact .inl (List.nil_infix)
    · exact .inr h
  · rw [hstarts right hright fun hright => hc (List.mem_append_right left hright),
      List.append_nil]
    exact .inl hleft.isInfix

/-- A text without spaces stands in one of the words around them. -/
theorem infix_of_infix_unwords {needle : List Char} {ws : List (List Char)} (hne : needle ≠ [])
    (hspace : ' ' ∉ needle) (h : needle <:+: unwords ws) : ∃ w ∈ ws, needle <:+: w := by
  induction ws with
  | nil => exact absurd (List.infix_nil.mp h) hne
  | cons w ws ih =>
    cases ws with
    | nil =>
      rw [unwords, List.intercalate_singleton] at h
      exact ⟨w, List.mem_cons_self, h⟩
    | cons v ws =>
      rw [unwords_cons_cons] at h
      obtain h | h := infix_append_cons hspace h
      · exact ⟨w, List.mem_cons_self, h⟩
      · obtain ⟨u, hu, hneedle⟩ := ih h
        exact ⟨u, List.mem_cons_of_mem w hu, hneedle⟩

theorem infix_unwords {w : List Char} {ws : List (List Char)} (h : w ∈ ws) : w <:+: unwords ws := by
  induction ws with
  | nil => simp at h
  | cons v ws ih =>
    cases ws with
    | nil =>
      obtain rfl := List.mem_singleton.mp h
      have hone : unwords [w] = w := List.intercalate_singleton
      exact ⟨[], [], by rw [List.nil_append, List.append_nil, hone]⟩
    | cons u ws =>
      rw [unwords_cons_cons]
      obtain rfl | h := List.mem_cons.mp h
      · exact (List.prefix_append w _).isInfix
      · exact (List.infix_cons (ih h)).trans (List.suffix_append v _).isInfix

theorem of_mem_unwords {c : Char} {ws : List (List Char)} (h : c ∈ unwords ws) :
    c = ' ' ∨ ∃ w ∈ ws, c ∈ w := by
  induction ws with
  | nil => simp [unwords] at h
  | cons v ws ih =>
    cases ws with
    | nil =>
      rw [unwords, List.intercalate_singleton] at h
      exact .inr ⟨v, List.mem_cons_self, h⟩
    | cons u ws =>
      rw [unwords_cons_cons, List.mem_append, List.mem_cons] at h
      obtain h | h | h := h
      · exact .inr ⟨v, List.mem_cons_self, h⟩
      · exact .inl h
      · obtain h | ⟨w, hw, hc⟩ := ih h
        · exact .inl h
        · exact .inr ⟨w, List.mem_cons_of_mem v hw, hc⟩

theorem infix_flatMap {cs ds : List Char} (h : cs <:+: ds) (f : Char → List Char) :
    cs.flatMap f <:+: ds.flatMap f := by
  obtain ⟨front, back, rfl⟩ := h
  rw [List.flatMap_append, List.flatMap_append]
  exact List.infix_append _ _ _

/-! ## Words -/

theorem splitOnP_parts {cs first : List Char} {more : List (List Char)}
    (h : cs.splitOnP isBlank = first :: more) :
    first <+: cs ∧ (∀ part ∈ more, part <:+: cs) ∧
      ((first :: more).filter fun w => !w.isEmpty).length ≤ cs.length := by
  induction cs generalizing first more with
  | nil =>
    obtain ⟨rfl, rfl⟩ : first = [] ∧ more = [] := by simpa [eq_comm] using h
    exact ⟨List.prefix_rfl, nofun, Nat.le_refl 0⟩
  | cons c cs ih =>
    rw [List.splitOnP_cons_eq_if_modifyHead] at h
    cases hparts : cs.splitOnP isBlank with
    | nil => exact absurd hparts (List.splitOnP_ne_nil _ _)
    | cons head tail =>
      obtain ⟨hhead, htail, hlength⟩ := ih hparts
      rw [hparts] at h
      -- A blank ends the part in front of it, and any other character is put to the next one.
      split at h
      · obtain ⟨rfl, rfl⟩ := List.cons.inj h
        refine ⟨List.nil_prefix, fun part hpart => List.infix_cons ?_, ?_⟩
        · obtain rfl | hpart := List.mem_cons.mp hpart
          · exact hhead.isInfix
          · exact htail part hpart
        · rw [List.filter_cons_of_neg (by simp), List.length_cons]
          omega
      · rw [List.modifyHead_cons] at h
        obtain ⟨rfl, rfl⟩ := List.cons.inj h
        refine ⟨(List.prefix_cons_inj c).mpr hhead,
          fun part hpart => List.infix_cons (htail part hpart), ?_⟩
        have hle : (tail.filter fun w => !w.isEmpty).length ≤
            ((head :: tail).filter fun w => !w.isEmpty).length :=
          ((List.sublist_cons_self head tail).filter _).length_le
        rw [List.filter_cons_of_pos (by simp), List.length_cons, List.length_cons]
        omega

theorem infix_of_mem_words {cs w : List Char} (h : w ∈ words cs) : w <:+: cs := by
  obtain ⟨hpart, -⟩ := List.mem_filter.mp h
  cases hparts : cs.splitOnP isBlank with
  | nil => exact absurd hparts (List.splitOnP_ne_nil _ _)
  | cons first more =>
    obtain ⟨hfirst, hmore, -⟩ := splitOnP_parts hparts
    rw [hparts] at hpart
    obtain rfl | hpart := List.mem_cons.mp hpart
    · exact hfirst.isInfix
    · exact hmore w hpart

/-- Collapsing brings in nothing but spaces. -/
theorem collapse_subset (cs : List Char) : collapse cs ⊆ ' ' :: cs := by
  intro c hc
  obtain rfl | ⟨w, hw, hmem⟩ := of_mem_unwords hc
  · exact List.mem_cons_self
  · exact List.mem_cons_of_mem ' ' ((infix_of_mem_words hw).subset hmem)

theorem length_words_le (cs : List Char) : (words cs).length ≤ cs.length := by
  unfold words
  cases hparts : cs.splitOnP isBlank with
  | nil => exact absurd hparts (List.splitOnP_ne_nil _ _)
  | cons first more => exact (splitOnP_parts hparts).2.2

end Rephrase.Text
