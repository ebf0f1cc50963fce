import Rephrase.Proofs.Phrase.Pattern
import Rephrase.Proofs.Text.Words

/-! The pattern of a phrase finds its words, with blanks and tags between them and nothing else; and
wherever they stand like that, a place is found that reaches over their start. -/

namespace Rephrase.Phrase

open Text

/-! ## Gaps -/

/-- Whether a text is made of blanks, and of tags that hold no angle brackets. -/
inductive IsSpacing : List Char → Prop
  | nil : IsSpacing []
  | blank {c : Char} {rest : List Char} (hc : isBlank c = true) (hrest : IsSpacing rest) :
      IsSpacing (c :: rest)
  | tag {inner rest : List Char} (hinner : ∀ c ∈ inner, c ≠ '<' ∧ c ≠ '>')
      (hrest : IsSpacing rest) : IsSpacing ('<' :: (inner ++ '>' :: rest))

/-- What may stand between two words. -/
structure IsGap (cs : List Char) : Prop where
  ne_nil : cs ≠ []
  isSpacing : IsSpacing cs

theorem IsSpacing.isGap_tag {inner rest : List Char} (h : IsSpacing rest)
    (hinner : ∀ c ∈ inner, c ≠ '<' ∧ c ≠ '>') : IsGap ('<' :: (inner ++ '>' :: rest)) :=
  ⟨List.cons_ne_nil _ _, .tag hinner h⟩

theorem IsSpacing.isGap_empty_tag {rest : List Char} (h : IsSpacing rest) :
    IsGap ('<' :: '>' :: rest) :=
  h.isGap_tag (List.forall_mem_nil _)

/-- A tag in front of a gap may hold one more character. -/
theorem IsGap.inside {c : Char} {cs : List Char} (h : IsGap ('<' :: cs)) (hopen : c ≠ '<')
    (hclose : c ≠ '>') : IsGap ('<' :: c :: cs) := by
  cases h.isSpacing with
  | blank hc => exact absurd hc (by decide)
  | @tag inner rest hinner hrest =>
    exact hrest.isGap_tag (List.forall_mem_cons.mpr ⟨⟨hopen, hclose⟩, hinner⟩)

/-- In front of a place where a gap can end, there is a gap, or what a tag lacks to be one. -/
theorem of_mem_gapEnds {inTag : Bool} {cs rest : List Char} (h : rest ∈ gapEnds inTag cs) :
    ∃ taken, cs = taken ++ rest ∧ IsGap (if inTag then '<' :: taken else taken) := by
  -- Within a tag the bracket that opens it has been passed, so that it is put in front again.
  fun_induction gapEnds inTag cs with
  | case1 => nomatch h
  | case2 => nomatch h
  | case3 cs _ ih =>
    obtain rfl | h := List.mem_cons.mp h
    · exact ⟨['>'], rfl, IsSpacing.nil.isGap_empty_tag⟩
    · obtain ⟨gap, rfl, hgap⟩ := ih h
      exact ⟨'>' :: gap, rfl, IsSpacing.isGap_empty_tag hgap.isSpacing⟩
  | case4 c cs hopen hclose ih =>
    obtain ⟨taken, rfl, hgap⟩ := ih h
    exact ⟨c :: taken, rfl, hgap.inside hopen hclose⟩
  | case5 inTag c cs htag hblank ih =>
    obtain rfl := Bool.eq_false_iff.mpr htag
    obtain rfl | h := List.mem_cons.mp h
    · exact ⟨[c], rfl, List.cons_ne_nil _ _, .blank hblank .nil⟩
    · obtain ⟨gap, rfl, hgap⟩ := ih h
      exact ⟨c :: gap, rfl, List.cons_ne_nil _ _, .blank hblank hgap.isSpacing⟩
  | case6 inTag cs htag _ ih =>
    obtain rfl := Bool.eq_false_iff.mpr htag
    obtain ⟨taken, rfl, hgap⟩ := ih h
    exact ⟨'<' :: taken, rfl, hgap⟩
  | case7 => nomatch h

theorem gapEnds_tag {inner : List Char} (hinner : ∀ c ∈ inner, c ≠ '<' ∧ c ≠ '>')
    (cs : List Char) : gapEnds true (inner ++ '>' :: cs) = cs :: gapEnds false cs := by
  induction inner with
  | nil => rw [List.nil_append, gapEnds, if_pos rfl, if_neg (by decide), if_pos rfl]
  | cons c inner ih =>
    obtain ⟨⟨hopen, hclose⟩, hinner⟩ := List.forall_mem_cons.mp hinner
    rw [List.cons_append, gapEnds, if_pos rfl, if_neg hopen, if_neg hclose, ih hinner]

/-- Behind blanks and tags a gap can end, unless there are none. -/
theorem mem_gapEnds {spacing : List Char} (h : IsSpacing spacing) (rest : List Char) :
    rest ∈ (spacing ++ rest) :: gapEnds false (spacing ++ rest) := by
  induction h with
  | nil => exact List.mem_cons_self
  | @blank c more hc _ ih =>
    refine List.mem_cons_of_mem _ ?_
    rwa [List.cons_append, gapEnds, if_neg Bool.false_ne_true, if_pos hc]
  | @tag inner more hinner _ ih =>
    refine List.mem_cons_of_mem _ ?_
    rw [List.cons_append, List.append_assoc, List.cons_append, gapEnds, if_neg Bool.false_ne_true,
      if_neg (by decide), if_pos rfl, gapEnds_tag hinner]
    exact ih

theorem mem_gapEnds_iff {cs rest : List Char} :
    rest ∈ gapEnds false cs ↔ ∃ gap, cs = gap ++ rest ∧ IsGap gap := by
  refine ⟨of_mem_gapEnds, ?_⟩
  rintro ⟨gap, rfl, hgap⟩
  refine (List.mem_cons.mp (mem_gapEnds hgap.isSpacing rest)).resolve_left fun heq => ?_
  exact hgap.ne_nil (List.self_eq_append_left.mp heq)

/-! ## Words -/

/-- Whether a text is a word in whatever case. -/
def IsWordFolded (word text : List Char) : Prop :=
  List.Forall₂ (fun w c => sameFolded w c = true) word text

/-- Whether a text is some words, in their order and in whatever case, with gaps between them. -/
inductive Spells : List (List Char) → List Char → Prop
  | last {word text : List Char} (htext : IsWordFolded word text) : Spells [word] text
  | cons {word text gap next rest : List Char} {ws : List (List Char)}
      (htext : IsWordFolded word text) (hgap : IsGap gap) (hrest : Spells (next :: ws) rest) :
      Spells (word :: next :: ws) (text ++ gap ++ rest)

theorem dropWord?_append {word text : List Char} (h : IsWordFolded word text) (rest : List Char) :
    dropWord? word (text ++ rest) = some rest := by
  induction h with
  | nil => rfl
  | cons hsame _ ih => rw [List.cons_append, dropWord?, if_pos hsame, ih]

theorem dropWords?_cons_cons (word next : List Char) (ws : List (List Char)) (cs : List Char) :
    dropWords? (word :: next :: ws) cs = (dropWord? word cs).bind fun rest =>
      (gapEnds false rest).reverse.findSome? (dropWords? (next :: ws)) := by
  rw [dropWords?]
  · cases dropWord? word cs <;> rfl
  · simp

/-- What is dropped are the words with gaps between them. -/
theorem spells_of_dropWords? {word : List Char} {ws : List (List Char)} {cs back : List Char}
    (h : dropWords? (word :: ws) cs = some back) :
    ∃ text, cs = text ++ back ∧ Spells (word :: ws) text := by
  induction ws generalizing word cs with
  | nil =>
    obtain ⟨text, hsplit, htext⟩ := of_dropWord? h
    exact ⟨text, hsplit, .last htext⟩
  | cons next ws ih =>
    rw [dropWords?_cons_cons] at h
    obtain ⟨behind, hword, hlater⟩ := Option.bind_eq_some_iff.mp h
    obtain ⟨after, hafter, hnext⟩ := List.exists_of_findSome?_eq_some hlater
    obtain ⟨text, rfl, htext⟩ := of_dropWord? hword
    obtain ⟨gap, rfl, hgap⟩ := mem_gapEnds_iff.mp (List.mem_reverse.mp hafter)
    obtain ⟨rest, rfl, hrest⟩ := ih hnext
    exact ⟨text ++ gap ++ rest, by simp only [List.append_assoc], .cons htext hgap hrest⟩

/-- Where words stand with gaps between them they are dropped, though maybe with other gaps. -/
theorem exists_dropWords? {ws : List (List Char)} {text : List Char} (h : Spells ws text)
    (back : List Char) : ∃ rest, dropWords? ws (text ++ back) = some rest := by
  induction h with
  | last htext => exact ⟨back, dropWord?_append htext back⟩
  | @cons word text gap next rest ws htext hgap _ ih =>
    obtain ⟨left, hleft⟩ := ih
    -- One of the gaps that are tried is this one.
    have hend : rest ++ back ∈ (gapEnds false (gap ++ (rest ++ back))).reverse :=
      List.mem_reverse.mpr (mem_gapEnds_iff.mpr ⟨gap, rfl, hgap⟩)
    have hsome : ((gapEnds false (gap ++ (rest ++ back))).reverse.findSome?
        (dropWords? (next :: ws))).isSome = true :=
      List.findSome?_isSome_iff.mpr ⟨_, hend, by rw [hleft]; rfl⟩
    rw [List.append_assoc, List.append_assoc, dropWords?_cons_cons, dropWord?_append htext,
      Option.bind_some]
    exact Option.isSome_iff_exists.mp hsome

theorem Spells.ne_nil {ws : List (List Char)} {text : List Char} (h : Spells ws text)
    (hws : ∀ w ∈ ws, w ≠ []) : text ≠ [] := by
  have hword : ∀ {word text : List Char}, IsWordFolded word text → word ≠ [] → text ≠ [] := by
    rintro _ _ (_ | _) hne
    · exact absurd rfl hne
    · exact List.cons_ne_nil _ _
  cases h with
  | last htext => exact hword htext (hws _ List.mem_cons_self)
  | cons htext =>
    have htext := hword htext (hws _ List.mem_cons_self)
    simp [htext]

/-! ## Places -/

/-- What a search from left to right finds: where no words stand it goes on behind the next
character, and where some stand, behind them. -/
inductive IsScanned (ws : List (List Char)) : Nat → List Char → List Span → Prop
  | done (offset : Nat) : IsScanned ws offset [] []
  | pass {offset : Nat} {c : Char} {rest : List Char} {spans : List Span}
      (hnone : ∀ text back, c :: rest = text ++ back → ¬Spells ws text)
      (hrest : IsScanned ws (offset + c.utf8Size) rest spans) :
      IsScanned ws offset (c :: rest) spans
  | take {offset : Nat} {text back : List Char} {spans : List Span} (htext : Spells ws text)
      (hrest : IsScanned ws (offset + size text) back spans) :
      IsScanned ws offset (text ++ back) (⟨offset, offset + size text⟩ :: spans)

namespace IsScanned

variable {ws : List (List Char)} {offset : Nat} {cs : List Char} {spans : List Span}
  (h : IsScanned ws offset cs spans)
include h

theorem spelled : ∀ span ∈ spans, ∃ front text back, cs = front ++ text ++ back ∧
    span = ⟨offset + size front, offset + size front + size text⟩ ∧ Spells ws text := by
  induction h with
  | done => nofun
  | @pass offset c rest spans _ _ ih =>
    intro span hspan
    obtain ⟨front, text, back, rfl, rfl, htext⟩ := ih span hspan
    exact ⟨c :: front, text, back, rfl, by rw [size_cons, Nat.add_assoc], htext⟩
  | @take offset text back spans htext _ ih =>
    refine List.forall_mem_cons.mpr ⟨⟨[], text, back, rfl, rfl, htext⟩, fun span hspan => ?_⟩
    obtain ⟨front, text', back, rfl, rfl, htext'⟩ := ih span hspan
    refine ⟨text ++ front, text', back, by simp only [List.append_assoc], ?_, htext'⟩
    rw [size_append, Nat.add_assoc]

/-- Wherever the words stand, a place reaches over their start. -/
theorem covers (hws : ∀ w ∈ ws, w ≠ []) {front text back : List Char}
    (hsplit : cs = front ++ text ++ back) (htext : Spells ws text) :
    ∃ span ∈ spans, span.start ≤ offset + size front ∧ offset + size front < span.stop := by
  induction h generalizing front with
  | done =>
    have hnil : front ++ text = [] := (List.append_eq_nil_iff.mp hsplit.symm).1
    exact absurd (List.append_eq_nil_iff.mp hnil).2 (htext.ne_nil hws)
  | @pass offset c rest spans hnone _ ih =>
    cases front with
    | nil => exact absurd htext (hnone text back hsplit)
    | cons d front =>
      obtain ⟨rfl, hrest⟩ := List.cons.inj hsplit
      rw [size_cons, ← Nat.add_assoc]
      exact ih hrest
  | @take offset first rest spans _ _ ih =>
    by_cases hsize : size front < size first
    · exact ⟨_, List.mem_cons_self, Nat.le_add_right _ _, Nat.add_lt_add_left hsize _⟩
    · -- What is found first ends in front of the words.
      rw [List.append_assoc] at hsplit
      obtain ⟨mid, rfl, hrest⟩ := append_split_of_size_le hsplit (Nat.le_of_not_lt hsize)
      rw [← List.append_assoc] at hrest
      obtain ⟨span, hspan, hcovers⟩ := ih hrest
      rw [Nat.add_assoc, ← size_append] at hcovers
      exact ⟨span, List.mem_cons_of_mem _ hspan, hcovers⟩

end IsScanned

/-- Characters that an earlier place covers are passed over. -/
theorem findFrom_covered (ws : List (List Char)) (offset : Nat) (front rest : List Char) :
    findFrom ws [] offset front.length (front ++ rest) =
      findFrom ws [] (offset + size front) 0 rest := by
  induction front generalizing offset with
  | nil => rfl
  | cons c front ih =>
    rw [List.cons_append, findFrom, size_cons, ← Nat.add_assoc, List.length_cons]
    dsimp only
    rw [if_neg (Nat.succ_ne_zero _), Nat.add_sub_cancel]
    exact ih _

theorem findFrom_of_none {ws : List (List Char)} {c : Char} {rest : List Char}
    (h : dropWords? ws (c :: rest) = none) (offset : Nat) :
    findFrom ws [] offset 0 (c :: rest) = findFrom ws [] (offset + c.utf8Size) 0 rest := by
  rw [findFrom]
  dsimp only
  rw [if_pos rfl, h]

/-- Where words are dropped they are found, and the search goes on behind them. -/
theorem findFrom_of_some {ws : List (List Char)} {text back : List Char} (hne : text ≠ [])
    (h : dropWords? ws (text ++ back) = some back) (offset : Nat) :
    findFrom ws [] offset 0 (text ++ back) =
      ⟨offset, offset + size text⟩ :: findFrom ws [] (offset + size text) 0 back := by
  obtain ⟨c, rest, rfl⟩ := List.exists_cons_of_ne_nil hne
  have htake : (c :: (rest ++ back)).take ((c :: (rest ++ back)).length - back.length) =
      c :: rest := by
    rw [← List.cons_append, List.length_append, Nat.add_sub_cancel, List.take_left']
    rfl
  rw [List.cons_append] at h ⊢
  rw [findFrom]
  dsimp only
  rw [if_pos rfl, h]
  dsimp only
  rw [htake, List.length_cons, Nat.add_sub_cancel, findFrom_found, findFrom_covered, size_cons,
    Nat.add_assoc]
  rfl

theorem isScanned_findFrom {word : List Char} {ws : List (List Char)}
    (hws : ∀ w ∈ word :: ws, w ≠ []) (offset : Nat) (cs : List Char) :
    IsScanned (word :: ws) offset cs (findFrom (word :: ws) [] offset 0 cs) := by
  -- The search goes on with a shorter text, behind one character or behind the words.
  induction hlength : cs.length using Nat.strongRecOn generalizing offset cs with
  | ind n ih =>
    cases cs with
    | nil => exact .done offset
    | cons c rest =>
      cases hdrop : dropWords? (word :: ws) (c :: rest) with
      | none =>
        rw [findFrom_of_none hdrop]
        refine .pass (fun text back hsplit htext => ?_) (ih _ ?_ _ rest rfl)
        · obtain ⟨left, hleft⟩ := exists_dropWords? htext back
          rw [← hsplit, hdrop] at hleft
          nomatch hleft
        · rw [← hlength, List.length_cons]
          exact Nat.lt_succ_self _
      | some back =>
        obtain ⟨text, hsplit, htext⟩ := spells_of_dropWords? hdrop
        have hne := htext.ne_nil hws
        have hshort : back.length < n := by
          have hpos := List.length_pos_iff.mpr hne
          rw [← hlength, hsplit, List.length_append]
          omega
        rw [hsplit] at hdrop ⊢
        rw [findFrom_of_some hne hdrop]
        exact .take htext (ih _ hshort _ back rfl)

theorem isScanned_nil (offset : Nat) (cs : List Char) : IsScanned [] offset cs [] := by
  induction cs generalizing offset with
  | nil => exact .done offset
  | cons c rest ih => exact .pass (fun _ _ _ => nofun) (ih _)

theorem isScanned_find (phrase cs : List Char) :
    IsScanned (Text.words phrase) 0 cs (find phrase cs) := by
  have hws : ∀ w ∈ Text.words phrase, w ≠ [] := fun _ hw => (isWord_of_mem_words hw).1
  unfold find
  dsimp only
  cases hwords : Text.words phrase with
  | nil => exact isScanned_nil 0 cs
  | cons word ws =>
    rw [hwords] at hws
    exact isScanned_findFrom hws 0 cs

/-- A phrase's pattern finds places one after another that hold the phrase's words with gaps between
them, and wherever the words stand like that it finds a place that reaches over their start. -/
theorem spelled_of_find (phrase cs : List Char) :
    Ascend 0 (size cs) (find phrase cs) ∧
      (∀ span ∈ find phrase cs, ∃ text, slice? cs span.start span.stop = some text ∧
        Spells (Text.words phrase) text) ∧
      ∀ start stop text, slice? cs start stop = some text → Spells (Text.words phrase) text →
        start < stop ∧ ∃ span ∈ find phrase cs, span.start ≤ start ∧ start < span.stop := by
  have hscan := isScanned_find phrase cs
  refine ⟨ascend_find phrase cs, fun span hspan => ?_, fun start stop text hslice htext => ?_⟩
  · obtain ⟨front, text, back, rfl, rfl, htext⟩ := hscan.spelled span hspan
    rw [Nat.zero_add]
    exact ⟨text, slice?_append front text back, htext⟩
  · have hws : ∀ w ∈ Text.words phrase, w ≠ [] := fun _ hw => (isWord_of_mem_words hw).1
    obtain ⟨front, back, hsplit, rfl, rfl⟩ := of_slice? hslice
    obtain ⟨span, hspan, hcovers⟩ := hscan.covers hws hsplit htext
    rw [Nat.zero_add] at hcovers
    exact ⟨Nat.lt_add_of_pos_right (size_pos_of_ne_nil (htext.ne_nil hws)), span, hspan, hcovers⟩

/-- A word that looks like a tag is found behind a gap that holds another tag. -/
theorem spelled_with_tag : Spells (Text.words "a <b>".toList) "A<i> <B>".toList ∧
    ∃ span ∈ find "a <b>".toList "see A<i> <B>.".toList, span.start ≤ 4 ∧ 4 < span.stop := by
  have hwords : Text.words "a <b>".toList = [['a'], "<b>".toList] := by decide
  have hgap : IsGap "<i> ".toList := by
    have hblank : IsSpacing [' '] := .blank (by decide) .nil
    exact hblank.isGap_tag (List.forall_mem_singleton.mpr (by decide))
  have hlast : Spells ["<b>".toList] "<B>".toList := .last (by unfold IsWordFolded; decide)
  have htext : Spells [['a'], "<b>".toList] (['A'] ++ "<i> ".toList ++ "<B>".toList) :=
    .cons (by unfold IsWordFolded; decide) hgap hlast
  have hslice : slice? "see A<i> <B>.".toList 4 12 = some "A<i> <B>".toList := by decide
  obtain ⟨-, -, hcovers⟩ := spelled_of_find "a <b>".toList "see A<i> <B>.".toList
  exact ⟨hwords ▸ htext, (hcovers 4 12 _ hslice (hwords ▸ htext)).2⟩

end Rephrase.Phrase
