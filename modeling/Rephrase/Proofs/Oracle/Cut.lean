import Mathlib
import Rephrase.Proofs.Oracle.Wrapping

/-! An answer that breaks off is no answer, and neither is any object in it. -/

namespace Rephrase.Oracle

open Json Text

/-- A scan of the front of a text finds the first of the places that a scan of all of it finds. -/
theorem objectStartsFrom_append (depth : Nat) (quoting : Quoting) (front back : List Char) :
    ∃ later, objectStartsFrom depth quoting (front ++ back) =
      (objectStartsFrom depth quoting front).map (· ++ back) ++ later := by
  induction front generalizing depth quoting with
  | nil => exact ⟨objectStartsFrom depth quoting back, rfl⟩
  | cons c front ih =>
    simp only [List.cons_append, objectStartsFrom]
    split_ifs with hdepth hbrace hquoting hquote hopening hclosing
    · obtain ⟨later, hlater⟩ := ih 1 .outside
      exact ⟨later, by rw [hlater]; rfl⟩
    all_goals exact ih _ _

section

variable {block front lost : List Char}

theorem IsBlock.head_of_append (h : IsBlock (front ++ lost)) (hfront : front ≠ []) :
    ∃ inner, front = '\x7b' :: inner := by
  obtain ⟨c, inner, rfl⟩ := List.exists_cons_of_ne_nil hfront
  obtain rfl : c = '\x7b' := by simpa using h.head
  exact ⟨inner, rfl⟩

/-- The brackets of a block are closed at its end and not before. -/
theorem IsBlock.balanced?_front (h : IsBlock (front ++ lost)) (hlost : lost ≠ []) :
    balanced? front = none := by
  by_cases hfront : front = []
  · rw [hfront]
    rfl
  obtain ⟨inner, rfl⟩ := h.head_of_append hfront
  have hopening : isOpening '\x7b' = true := rfl
  cases hout : balanced? ('\x7b' :: inner) with
  | none => rfl
  | some out =>
    -- What closes the front closes the whole block, which would end there.
    have hblock := h.balanced
    rw [balanced?, balancedFrom_opening hopening] at hout
    obtain ⟨w, rest, rfl, -, hw⟩ := exists_scans_of_balancedFrom hout
    rw [balanced?, List.cons_append, List.append_assoc, balancedFrom_opening hopening,
      hw.balancedFrom_append] at hblock
    simp [hlost] at hblock

theorem IsBlock.objectTexts_front (h : IsBlock (front ++ lost)) (hlost : lost ≠ []) :
    objectTexts front = [] := by
  obtain ⟨later, hstarts⟩ := objectStartsFrom_append 0 .outside front lost
  have hone := (h.takes []).2
  rw [List.append_nil] at hone
  rw [objectTexts, List.filterMap_eq_nil_iff]
  intro start hstart
  -- Nothing starts in the block but the block itself.
  have hmem : start ++ lost ∈ objectStarts (front ++ lost) := by
    rw [objectStarts, hstarts]
    exact List.mem_append_left _ (List.mem_map_of_mem hstart)
  rw [hone, objectStarts, objectStartsFrom, List.mem_singleton] at hmem
  rw [List.append_cancel_right hmem]
  exact h.balanced?_front hlost

end

/-- Prose and then the front of a block, which may be nothing at all. -/
inductive IsCut (block : List Char) : List Char → Prop where
  | intro {prose front lost : List Char} (hprose : '\x7b' ∉ prose)
      (hblock : block = front ++ lost) (hlost : lost ≠ []) : IsCut block (prose ++ front)

section

variable {block cs ds : List Char}

theorem IsCut.of_append_left (h : IsCut block (cs ++ ds)) : IsCut block cs := by
  generalize htext : cs ++ ds = text at h
  obtain ⟨hprose, rfl, hlost⟩ := h
  rename_i prose front lost
  obtain ⟨more, rfl, -⟩ | ⟨more, rfl, rfl⟩ := List.append_eq_append_iff.mp htext
  · -- It ends in the prose already.
    have hcs : '\x7b' ∉ cs := fun hmem => hprose (List.mem_append_left _ hmem)
    rw [← List.append_nil cs]
    exact .intro hcs rfl (by simp [hlost])
  · exact .intro hprose (List.append_assoc _ _ _) (by simp [hlost])

theorem IsCut.of_append_right (hblock : IsBlock block) (h : IsCut block (cs ++ ds))
    (hcs : '\x7b' ∉ cs) : IsCut block ds := by
  generalize htext : cs ++ ds = text at h
  obtain ⟨hprose, rfl, hlost⟩ := h
  rename_i prose front lost
  obtain ⟨more, rfl, rfl⟩ | ⟨more, rfl, rfl⟩ := List.append_eq_append_iff.mp htext
  · exact .intro (fun hmem => hprose (List.mem_append_right _ hmem)) rfl hlost
  · -- The block starts with a brace, so none of it is left out.
    have hmore : more = [] := by
      by_contra hne
      rw [List.append_assoc] at hblock
      obtain ⟨inner, rfl⟩ := hblock.head_of_append hne
      exact hcs (by simp)
    subst hmore
    have hnone : '\x7b' ∉ ([] : List Char) := by simp
    exact .intro hnone rfl hlost

theorem IsCut.prose_append (hds : '\x7b' ∉ ds) (h : IsCut block cs) :
    IsCut block (ds ++ cs) := by
  obtain ⟨hprose, hblock, hlost⟩ := h
  rw [← List.append_assoc]
  exact .intro (by simp [hds, hprose]) hblock hlost

theorem IsCut.trim (hblock : IsBlock block) (h : IsCut block cs) : IsCut block (trim cs) := by
  obtain ⟨front, back, hsplit, hfront, -⟩ := strip_append_stripped isBlank cs
  rw [hsplit, List.append_assoc] at h
  exact (h.of_append_right hblock (not_mem_brace_of_blank hfront)).of_append_left

theorem IsCut.not_isBlock (hblock : IsBlock block) (h : IsCut block cs) : ¬IsBlock cs := by
  intro hcs
  obtain ⟨hprose, rfl, hlost⟩ := h
  rename_i prose front lost
  by_cases hnil : prose = []
  · have hbalanced := hcs.balanced
    rw [hnil, List.nil_append, hblock.balanced?_front hlost] at hbalanced
    simp at hbalanced
  · obtain ⟨inner, rfl⟩ := hcs.head_of_append hnil
    exact hprose List.mem_cons_self

theorem IsCut.objectTexts (hblock : IsBlock block) (h : IsCut block cs) :
    objectTexts cs = [] := by
  obtain ⟨hprose, rfl, hlost⟩ := h
  rw [objectTexts_prose hprose, hblock.objectTexts_front hlost]

theorem IsCut.rawReply? (hblock : IsBlock block) (h : IsCut block cs)
    (hlist : (Text.trim cs).head? ≠ some '[') : rawReply? cs = none := by
  have htrim := h.trim hblock
  have hwhole : decodeText? RawReply.decode (Text.trim cs) = none := by
    by_cases hnil : Text.trim cs = []
    · rw [hnil]
      rfl
    · rw [Option.eq_none_iff_forall_ne_some]
      intro raw hraw
      exact htrim.not_isBlock hblock (isBlock_of_decodeText? (strip_solid hnil) hlist hraw)
  rw [Oracle.rawReply?, htrim.objectTexts hblock]
  simp [firstReply?, hwhole]

end

theorem isCut_of_trim {front rest : List Char} (htrim : trim (front ++ rest) ≠ [])
    (hrest : ∃ c ∈ rest, isBlank c = false) : IsCut (trim (front ++ rest)) front := by
  obtain ⟨before, behind, hsplit, hbefore, hbehind⟩ :=
    strip_append_stripped isBlank (front ++ rest)
  change front ++ rest = before ++ trim (front ++ rest) ++ behind at hsplit
  generalize trim (front ++ rest) = block at hsplit htrim
  obtain ⟨c, hc, hsolid⟩ := hrest
  have hc' : c ∉ behind := fun hmem => by simp [hbehind c hmem] at hsolid
  obtain ⟨lost, hlost, rfl⟩ | ⟨more, -, rfl⟩ := List.append_eq_append_iff.mp hsplit
  · have hne : lost ≠ [] := by
      rintro rfl
      exact hc' hc
    -- It breaks off in the block, or in the blanks in front of the block.
    obtain ⟨blank, rfl, -⟩ | ⟨kept, rfl, rfl⟩ := List.append_eq_append_iff.mp hlost.symm
    · have hfront : '\x7b' ∉ front :=
        not_mem_brace_of_blank fun c hc => hbefore c (List.mem_append_left _ hc)
      rw [← List.append_nil front]
      exact .intro hfront rfl htrim
    · exact .intro (not_mem_brace_of_blank hbefore) rfl hne
  · exact absurd (List.mem_append_right _ hc) hc'

/-- An answer that breaks off is never used, with any prose in front of it: neither the front that
is left nor an object in it is taken for an answer. What is cut off has to be more than blanks. -/
theorem ofText?_cut {prose front rest : List Char} {raw : RawReply}
    (hprose : '\x7b' ∉ prose) (hbrace : (trim (front ++ rest)).head? = some '\x7b')
    (hanswer : decodeText? RawReply.decode (trim (front ++ rest)) = some raw)
    (hrest : ∃ c ∈ rest, isBlank c = false) (hlist : (trim (prose ++ front)).head? ≠ some '[')
    (nodes : List Descriptor) : Reply.ofText? nodes (prose ++ front) = none := by
  have htrim : trim (front ++ rest) ≠ [] := by
    intro hnil
    simp [hnil] at hbrace
  have hblock : IsBlock (trim (front ++ rest)) :=
    isBlock_of_decodeText? (strip_solid htrim) (by rw [hbrace]; decide) hanswer
  have hcut := (isCut_of_trim htrim hrest).prose_append hprose
  rw [Reply.ofText?, hcut.rawReply? hblock hlist]
  rfl

/-- An answer that breaks off behind a complete proposal. -/
theorem ofText?_cut_behind_proposal :
    Reply.ofText? [⟨0, .text, "a.html", 3, 3, "Sign in", "<p>Sign in</p>", [], [], none⟩]
      ("Here it is:\n".toList ++
        "\x7b\"modifications\": [\x7b\"reasoning\": \"\\\"\x7d\x7d\"\x7d, \x7b\"str".toList) =
      none := by
  have hanswer : decodeText? RawReply.decode
      (trim ("\x7b\"modifications\": [\x7b\"reasoning\": \"\\\"\x7d\x7d\"\x7d, \x7b\"str".toList ++
        "ategy\": 0\x7d]\x7d".toList)) =
      some ⟨[.object [("reasoning", .string "\"\x7d\x7d")],
        .object [("strategy", .number (.integer 0))]], none, none⟩ := by cbv
  exact ofText?_cut (by decide) (by decide) hanswer ⟨'\x7d', by decide, by decide⟩ (by decide) _

end Rephrase.Oracle
