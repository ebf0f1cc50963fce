import Mathlib.Data.List.Basic
import Rephrase.Proofs.Text.Slice
import Rephrase.Proofs.Text.Words

/-! A text is collapsed by making each run of blanks one space. What stands in the collapsed text
stands in the text too, with other blanks in it. -/

namespace Rephrase.Text

/-- A text in which every run of blanks is one space, also at its ends. -/
def squeeze : List Char → List Char
  | [] => []
  | c :: rest =>
    if isBlank c then
      -- Of a run of blanks the last one leaves a space.
      if rest.head?.any isBlank then squeeze rest else ' ' :: squeeze rest
    else c :: squeeze rest

section

variable {c : Char} {rest : List Char}

theorem squeeze_run (hc : isBlank c = true) (hrest : rest.head?.any isBlank = true) :
    squeeze (c :: rest) = squeeze rest := by
  rw [squeeze, if_pos hc, if_pos hrest]

theorem squeeze_blank (hc : isBlank c = true) (hrest : rest.head?.any isBlank = false) :
    squeeze (c :: rest) = ' ' :: squeeze rest := by
  rw [squeeze, if_pos hc, hrest, if_neg Bool.false_ne_true]

theorem squeeze_cons (hc : isBlank c = false) (rest : List Char) :
    squeeze (c :: rest) = c :: squeeze rest := by
  rw [squeeze, hc, if_neg Bool.false_ne_true]

end

/-- A squeezed text starts with a blank where the text does. -/
theorem any_head?_squeeze (cs : List Char) :
    (squeeze cs).head?.any isBlank = cs.head?.any isBlank := by
  induction cs with
  | nil => rfl
  | cons c rest ih =>
    by_cases hc : isBlank c = true
    · by_cases hrest : rest.head?.any isBlank = true
      · rw [squeeze_run hc hrest, ih, hrest]
        exact hc.symm
      · rw [squeeze_blank hc (by simpa using hrest)]
        exact hc.symm
    · rw [squeeze_cons (by simpa using hc)]
      rfl

/-! ## Words -/

/-- A character in front of a blank is a word of its own. -/
theorem words_cons_blank {c : Char} {rest : List Char} (hc : isBlank c = false)
    (hrest : rest = [] ∨ rest.head?.any isBlank = true) :
    words (c :: rest) = [c] :: words rest := by
  have hword : words [c] = [[c]] := words_of_isWord ⟨by simp, by simpa using hc⟩
  rcases hrest with rfl | hrest
  · exact hword
  · cases rest with
    | nil => cases hrest
    | cons d rest =>
      have hsplit := words_append_blank hrest [c] rest
      rw [hword] at hsplit
      rw [words_blank_cons hrest]
      exact hsplit

/-- A character in front of a word belongs to it. -/
theorem words_cons_cons {c d : Char} (hc : isBlank c = false) (hd : isBlank d = false)
    (rest : List Char) :
    ∃ w ws, words (d :: rest) = w :: ws ∧ words (c :: d :: rest) = (c :: w) :: ws := by
  have hsplit : ∀ (c : Char) (cs : List Char), isBlank c = false →
      (c :: cs).splitOnP isBlank = (cs.splitOnP isBlank).modifyHead (c :: ·) := by
    intro c cs hc
    rw [List.splitOnP_cons_eq_if_modifyHead, if_neg (by simp [hc])]
  cases hparts : rest.splitOnP isBlank with
  | nil => exact absurd hparts (List.splitOnP_ne_nil _ _)
  | cons first more =>
    refine ⟨d :: first, more.filter fun w => !w.isEmpty, ?_, ?_⟩
    · rw [words, hsplit d rest hd, hparts]
      rfl
    · rw [words, hsplit c _ hc, hsplit d rest hd, hparts]
      rfl

theorem words_squeeze (cs : List Char) : words (squeeze cs) = words cs := by
  induction cs with
  | nil => rfl
  | cons c rest ih =>
    by_cases hc : isBlank c = true
    · rw [words_blank_cons hc]
      by_cases hrest : rest.head?.any isBlank = true
      · rw [squeeze_run hc hrest, ih]
      · rw [squeeze_blank hc (by simpa using hrest), words_blank_cons (by decide), ih]
    · have hc : isBlank c = false := by simpa using hc
      rw [squeeze_cons hc]
      -- A character in front of a blank is the end of a word, before and after.
      by_cases hrest : rest = [] ∨ rest.head?.any isBlank = true
      · have hsqueeze : squeeze rest = [] ∨ (squeeze rest).head?.any isBlank = true := by
          rw [any_head?_squeeze]
          exact hrest.imp_left fun hnil => by rw [hnil, squeeze]
        rw [words_cons_blank hc hrest, words_cons_blank hc hsqueeze, ih]
      · cases rest with
        | nil => exact absurd (.inl rfl) hrest
        | cons d rest =>
          have hd : isBlank d = false := by simpa using hrest
          rw [squeeze_cons hd] at ih ⊢
          rcases words_cons_cons hc hd rest with ⟨w, ws, hwords, hmore⟩
          rcases words_cons_cons hc hd (squeeze rest) with ⟨v, vs, hwords', hmore'⟩
          rw [hwords, hwords'] at ih
          rw [hmore, hmore', (List.cons.inj ih).1, (List.cons.inj ih).2]

theorem collapse_squeeze (cs : List Char) : collapse (squeeze cs) = collapse cs := by
  rw [collapse, words_squeeze, collapse]

theorem collapse_collapse (cs : List Char) : collapse (collapse cs) = collapse cs :=
  congrArg unwords (words_unwords fun _ hw => isWord_of_mem_words hw)

/-- A text without blanks at its end is squeezed by setting its words apart, behind a space if it
starts with a blank. -/
theorem squeeze_eq {cs : List Char} (h : ∀ c ∈ cs.getLast?, isBlank c = false) :
    squeeze cs = (if cs.head?.any isBlank then [' '] else []) ++ collapse cs := by
  induction cs with
  | nil => rfl
  | cons c rest ih =>
    have hlast : ∀ d ∈ rest.getLast?, isBlank d = false := by
      intro d hd
      apply h
      rw [Option.mem_def] at hd ⊢
      rw [List.getLast?_cons, hd, Option.getD_some]
    have ih := ih hlast
    by_cases hc : isBlank c = true
    · have hcollapse : collapse (c :: rest) = collapse rest := by
        rw [collapse, words_blank_cons hc, collapse]
      rw [hcollapse, List.head?_cons, Option.any_some, hc, if_pos rfl]
      by_cases hrest : rest.head?.any isBlank = true
      · rw [squeeze_run hc hrest, ih, hrest, if_pos rfl]
      · have hrest : rest.head?.any isBlank = false := by simpa using hrest
        rw [squeeze_blank hc hrest, ih, hrest, if_neg Bool.false_ne_true]
        rfl
    · have hc : isBlank c = false := by simpa using hc
      rw [squeeze_cons hc, List.head?_cons, Option.any_some, hc, if_neg Bool.false_ne_true,
        List.nil_append, ih, collapse, collapse]
      cases rest with
      | nil => rw [words_cons_blank hc (.inl rfl)]; rfl
      | cons d rest =>
        rw [List.head?_cons, Option.any_some]
        by_cases hd : isBlank d = true
        · -- There is a word behind the blanks.
          have hne : words (d :: rest) ≠ [] := by
            have hlast' := List.getLast?_eq_some_getLast (List.cons_ne_nil d rest)
            exact words_ne_nil (List.getLast_mem _) (hlast _ hlast')
          rcases List.exists_cons_of_ne_nil hne with ⟨w, ws, hwords⟩
          have hrest : (d :: rest).head?.any isBlank = true := hd
          rw [words_cons_blank hc (.inr hrest), hwords, unwords_cons_cons, hd, if_pos rfl]
          rfl
        · have hd : isBlank d = false := by simpa using hd
          rcases words_cons_cons hc hd rest with ⟨w, ws, hwords, hmore⟩
          rw [hwords, hmore, hd, if_neg Bool.false_ne_true, List.nil_append]
          cases ws with
          | nil => rw [unwords, unwords, List.intercalate_singleton, List.intercalate_singleton]
          | cons v ws => rw [unwords_cons_cons, unwords_cons_cons, List.cons_append]

theorem collapse_eq_squeeze_trim (cs : List Char) : collapse cs = squeeze (trim cs) := by
  by_cases hnil : trim cs = []
  · have hwords := words_trim cs
    rw [hnil] at hwords
    rw [hnil, collapse, ← hwords]
    rfl
  · have hsolid : Solid isBlank (trim cs) := strip_solid hnil
    have hhead : (trim cs).head?.any isBlank = false := by
      rw [List.head?_eq_some_head hnil, Option.any_some]
      exact hsolid.head _ (List.head?_eq_some_head hnil)
    rw [squeeze_eq hsolid.last, hhead, if_neg Bool.false_ne_true, List.nil_append, collapse,
      collapse, words_trim]

theorem size_squeeze_le (cs : List Char) : size (squeeze cs) ≤ size cs := by
  induction cs with
  | nil => exact Nat.le_refl 0
  | cons c rest ih =>
    have hc := c.utf8Size_pos
    have hspace : Char.utf8Size ' ' = 1 := rfl
    unfold squeeze
    rw [size_cons]
    split
    · split
      · omega
      · rw [size_cons]
        omega
    · rw [size_cons]
      omega

theorem size_collapse_le (cs : List Char) : size (collapse cs) ≤ size cs := by
  rcases strip_append_stripped isBlank cs with ⟨front, back, hsplit, -⟩
  have hsize := congrArg size hsplit
  have hle := size_squeeze_le (trim cs)
  change size cs = size (front ++ trim cs ++ back) at hsize
  rw [size_append, size_append] at hsize
  rw [collapse_eq_squeeze_trim]
  omega

/-! ## What stands in a squeezed text -/

/-- A squeezed text is cut into parts that are those of the text, squeezed. -/
theorem exists_of_squeeze_eq_append {cs front back : List Char} (h : squeeze cs = front ++ back) :
    ∃ cs₁ cs₂, cs = cs₁ ++ cs₂ ∧ squeeze cs₁ = front ∧ squeeze cs₂ = back := by
  induction cs generalizing front with
  | nil =>
    rcases List.append_eq_nil_iff.mp h.symm with ⟨rfl, rfl⟩
    exact ⟨[], [], rfl, rfl, rfl⟩
  | cons c rest ih =>
    cases front with
    | nil => exact ⟨[], c :: rest, rfl, rfl, h⟩
    | cons d front =>
      by_cases hc : isBlank c = true
      · by_cases hrest : rest.head?.any isBlank = true
        -- A blank that is dropped goes to the part with the next one.
        · rw [squeeze_run hc hrest] at h
          rcases ih h with ⟨cs₁, cs₂, rfl, hfront, rfl⟩
          have hne : cs₁ ≠ [] := by
            rintro rfl
            cases hfront
          rw [List.head?_append_of_ne_nil _ hne] at hrest
          exact ⟨c :: cs₁, cs₂, rfl, (squeeze_run hc hrest).trans hfront, rfl⟩
        · have hrest : rest.head?.any isBlank = false := by simpa using hrest
          rw [squeeze_blank hc hrest, List.cons_append] at h
          rcases List.cons.inj h with ⟨rfl, hsplit⟩
          rcases ih hsplit with ⟨cs₁, cs₂, rfl, rfl, rfl⟩
          refine ⟨c :: cs₁, cs₂, rfl, squeeze_blank hc ?_, rfl⟩
          cases cs₁ with
          | nil => rfl
          | cons d cs₁ => exact hrest
      · have hc : isBlank c = false := by simpa using hc
        rw [squeeze_cons hc, List.cons_append] at h
        rcases List.cons.inj h with ⟨rfl, hsplit⟩
        rcases ih hsplit with ⟨cs₁, cs₂, rfl, rfl, rfl⟩
        exact ⟨c :: cs₁, cs₂, rfl, squeeze_cons hc cs₁, rfl⟩

/-! ## Single spaces -/

/-- Whether all blanks of a text are single spaces. -/
def IsSpaced (cs : List Char) : Prop :=
  (∀ c ∈ cs, isBlank c = true → c = ' ') ∧ ¬ [' ', ' '] <:+: cs

theorem length_squeeze_le (cs : List Char) : (squeeze cs).length ≤ cs.length := by
  induction cs with
  | nil => exact Nat.le_refl 0
  | cons c rest ih =>
    unfold squeeze
    split
    · split
      · exact Nat.le_succ_of_le ih
      · exact Nat.succ_le_succ ih
    · exact Nat.succ_le_succ ih

/-- Nothing changes in a text just if its blanks are single spaces. -/
theorem squeeze_eq_self_iff {cs : List Char} : squeeze cs = cs ↔ IsSpaced cs := by
  induction cs with
  | nil => simp [squeeze, IsSpaced]
  | cons c rest ih =>
    have hspaces : [' ', ' '] <:+: c :: rest ↔
        (c = ' ' ∧ rest.head? = some ' ') ∨ [' ', ' '] <:+: rest := by
      rw [List.infix_cons_iff]
      cases rest <;> simp [List.cons_prefix_cons, @eq_comm _ ' ']
    -- A blank in front of another one is dropped, and the text is shorter afterwards; one by itself
    -- becomes a space.
    by_cases hc : isBlank c = true
    · by_cases hrest : rest.head?.any isBlank = true
      · have hne : squeeze rest ≠ c :: rest := by
          intro heq
          have hle := length_squeeze_le rest
          rw [heq, List.length_cons] at hle
          omega
        rw [squeeze_run hc hrest]
        refine ⟨fun h => absurd h hne, fun h => ?_⟩
        cases rest with
        | nil => cases hrest
        | cons d rest =>
          rcases List.forall_mem_cons.mp h.1 with ⟨hspace, hblanks⟩
          have hnext := hblanks d List.mem_cons_self hrest
          exact absurd (hspaces.mpr (.inl ⟨hspace hc, congrArg some hnext⟩)) h.2
      · have hrest : rest.head?.any isBlank = false := by simpa using hrest
        have hhead : rest.head? ≠ some ' ' := by
          intro heq
          rw [heq] at hrest
          cases hrest
        rw [squeeze_blank hc hrest, List.cons.injEq, ih, IsSpaced, IsSpaced, hspaces,
          List.forall_mem_cons]
        simp [hc, hhead, @eq_comm _ ' ', and_assoc]
    · have hc : isBlank c = false := by simpa using hc
      have hspace : c ≠ ' ' := by
        rintro rfl
        cases hc
      rw [squeeze_cons hc, List.cons.injEq, ih, IsSpaced, IsSpaced, hspaces, List.forall_mem_cons]
      simp [hc, hspace]

end Rephrase.Text
