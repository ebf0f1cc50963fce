import Mathlib
import Rephrase.Oracle.Reply
import Rephrase.Proofs.Oracle.Neutral
import Rephrase.Proofs.Text.Blank

/-! An answer means the same with prose and other objects in front of it and anything behind it. -/

namespace Rephrase.Oracle

open Json Text

/-- Prose without an opening brace around a number of blocks that are no answers. -/
inductive Preface : Nat → List Char → Prop where
  | prose {cs : List Char} (h : '\x7b' ∉ cs) : Preface 0 cs
  | block {n : Nat} {cs block rest : List Char} (h : '\x7b' ∉ cs) (hblock : IsBlock block)
      (hreply : decodeText? RawReply.decode block = none) (hrest : Preface n rest) :
      Preface (n + 1) (cs ++ block ++ rest)

theorem Preface.append_prose {n : Nat} {cs blank : List Char} (h : Preface n cs)
    (hblank : '\x7b' ∉ blank) : Preface n (cs ++ blank) := by
  induction h with
  | prose h => exact .prose (by simp [h, hblank])
  | block h hblock hreply hrest ih =>
    rw [List.append_assoc]
    exact .block h hblock hreply ih

theorem Preface.stripStart {n : Nat} {cs : List Char} (h : Preface n cs) :
    Preface n (stripStart isBlank cs) := by
  cases h with
  | prose h => exact .prose fun hmem => h (mem_of_mem_stripStart hmem)
  | block h hblock hreply hrest =>
    rename_i n cs block rest
    obtain ⟨inner, rfl⟩ := hblock.exists_cons
    rw [List.append_assoc, stripStart_append _ (by simp; decide), ← List.append_assoc]
    exact .block (fun hmem => h (mem_of_mem_stripStart hmem)) hblock hreply hrest

/-- The objects of a text with a preface: those of the preface come first. -/
theorem Preface.objectTexts_append {n : Nat} {cs : List Char} (h : Preface n cs)
    (tail : List Char) : ∃ blocks : List (List Char), blocks.length = n ∧
      (∀ block ∈ blocks, decodeText? RawReply.decode block = none) ∧
      objectTexts (cs ++ tail) = blocks ++ objectTexts tail := by
  induction h with
  | prose h => exact ⟨[], rfl, by simp, objectTexts_prose h tail⟩
  | block h hblock hreply hrest ih =>
    rename_i n cs block rest
    obtain ⟨blocks, hlength, hblocks, htexts⟩ := ih
    refine ⟨block :: blocks, by simp [hlength], ?_, ?_⟩
    · intro other hother
      obtain rfl | hother := List.mem_cons.mp hother
      · exact hreply
      · exact hblocks other hother
    · rw [List.append_assoc, List.append_assoc, objectTexts_prose h, objectTexts_block hblock,
        htexts]
      rfl

/-! ## What a text can be that is an answer as a whole -/

/-- A document that can be a record. -/
def IsComposite (document : Document) : Prop :=
  (∃ members, document = .object members) ∨ ∃ items, document = .array items

theorem isComposite_of_decode {levels : Nat} {document : Document} {raw : RawReply}
    (h : RawReply.decode levels document = some raw) : IsComposite document := by
  simp only [RawReply.decode, Option.bind_eq_bind, Option.bind_eq_some_iff] at h
  obtain ⟨field, hrecord, -⟩ := h
  unfold Decode.record at hrecord
  split at hrecord
  · exact .inl ⟨_, rfl⟩
  · exact .inr ⟨_, rfl⟩
  · simp at hrecord

theorem not_isComposite_of_readWord {word cs rest : List Char} {value document : Document}
    (hvalue : ¬IsComposite value) (h : readWord word value cs = some (document, rest)) :
    ¬IsComposite document := by
  unfold readWord at h
  split at h
  · obtain ⟨rfl, -⟩ : _ ∧ _ := by simpa using h
    exact hvalue
  · simp at h

/-- Only a text that starts with a brace or a bracket can be read as a record. -/
theorem head_of_readValue {fuel : Nat} {cs rest : List Char} {document : Document}
    (h : readValue fuel cs = some (document, rest)) (hdocument : IsComposite document) :
    (skipSpace cs).head? = some '\x7b' ∨ (skipSpace cs).head? = some '[' := by
  cases fuel with
  | zero => simp [readValue] at h
  | succ fuel =>
    unfold readValue at h
    split at h
    · obtain ⟨_, -, hpair⟩ := Option.map_eq_some_iff.mp h
      obtain ⟨rfl, -⟩ := Prod.mk.inj hpair
      simp [IsComposite] at hdocument
    · rename_i inner heq
      exact .inr (heq ▸ rfl)
    · rename_i inner heq
      exact .inl (heq ▸ rfl)
    · exact absurd hdocument (not_isComposite_of_readWord (by simp [IsComposite]) h)
    · exact absurd hdocument (not_isComposite_of_readWord (by simp [IsComposite]) h)
    · exact absurd hdocument (not_isComposite_of_readWord (by simp [IsComposite]) h)
    · obtain ⟨_, -, hpair⟩ := Option.map_eq_some_iff.mp h
      obtain ⟨rfl, -⟩ := Prod.mk.inj hpair
      simp [IsComposite] at hdocument

theorem isBlank_of_isSpace {c : Char} (h : isSpace c = true) : isBlank c = true := by
  simp only [isSpace, Bool.or_eq_true, beq_iff_eq] at h
  obtain ((rfl | rfl) | rfl) | rfl := h <;> rfl

theorem skipSpace_of_solid {cs : List Char} (h : Solid isBlank cs) : skipSpace cs = cs := by
  obtain ⟨c, tail, rfl⟩ := List.exists_cons_of_ne_nil h.ne_nil
  refine List.dropWhile_cons_of_neg fun hspace => ?_
  exact absurd (isBlank_of_isSpace hspace) (Bool.eq_false_iff.mp (h.head c rfl))

theorem eq_nil_of_skipSpace {cs rest : List Char} (h : Solid isBlank (cs ++ rest))
    (hrest : skipSpace rest = []) : rest = [] := by
  rw [skipSpace, List.dropWhile_eq_nil_iff] at hrest
  rw [List.eq_nil_iff_forall_not_mem]
  intro c hc
  have hne := List.ne_nil_of_mem hc
  have hlast := h.last (rest.getLast hne) (by
    rw [List.getLast?_append, List.getLast?_eq_some_getLast hne]
    rfl)
  have hblank := isBlank_of_isSpace (hrest _ (List.getLast_mem hne))
  simp [hblank] at hlast

/-- A trimmed text that is an answer as a whole is one block, unless it is a list. -/
theorem isBlock_of_decodeText? {cs : List Char} {raw : RawReply} (hsolid : Solid isBlank cs)
    (hlist : cs.head? ≠ some '[') (h : decodeText? RawReply.decode cs = some raw) :
    IsBlock cs := by
  unfold decodeText? Document.ofText? at h
  split at h
  · rename_i document hdocument
    split at hdocument
    · rename_i document' rest hread
      split at hdocument
      · rename_i hrest
        obtain rfl : document' = document := by simpa using hdocument
        -- It starts with a brace, so it is a block, and behind the block only blanks are left.
        have hhead := head_of_readValue hread (isComposite_of_decode h)
        rw [skipSpace_of_solid hsolid] at hhead
        obtain ⟨block, hsplit, hblock⟩ := isBlock_of_readValue (hhead.resolve_right hlist) hread
        rw [hsplit] at hsolid
        obtain rfl := eq_nil_of_skipSpace hsolid (List.isEmpty_iff.mp hrest)
        rwa [hsplit, List.append_nil]
      · simp at hdocument
    · simp at hdocument
  · simp at h

/-! ## Answers in wrapping -/

theorem firstReply?_append_of_none {blocks texts : List (List Char)}
    (h : ∀ block ∈ blocks, decodeText? RawReply.decode block = none) :
    firstReply? (blocks ++ texts) = firstReply? texts := by
  rw [firstReply?, List.findSome?_append, List.findSome?_eq_none_iff.mpr h, Option.none_or]
  rfl

theorem firstReply?_cons_of_some {text : List Char} {raw : RawReply} (texts : List (List Char))
    (h : decodeText? RawReply.decode text = some raw) : firstReply? (text :: texts) = some raw :=
  List.findSome?_cons_of_isSome (by simp [h]) |>.trans h

theorem rawReply?_object {cs : List Char} {raw : RawReply}
    (h : decodeText? RawReply.decode (trim cs) = some raw) : rawReply? cs = some raw :=
  firstReply?_cons_of_some _ h

/-- The objects of a wrapped answer: some that are no answers, then the answer itself. -/
theorem objectTexts_wrapped {n : Nat} {cs object : List Char} (h : Preface n cs)
    (hobject : IsBlock object) (tail : List Char) :
    ∃ blocks : List (List Char), blocks.length = n ∧
      (∀ block ∈ blocks, decodeText? RawReply.decode block = none) ∧
      objectTexts (cs ++ object ++ tail) = blocks ++ object :: objectTexts tail := by
  obtain ⟨blocks, hlength, hblocks, htexts⟩ := h.objectTexts_append (object ++ tail)
  refine ⟨blocks, hlength, hblocks, ?_⟩
  rw [List.append_assoc, htexts, objectTexts_block hobject]

theorem objectTexts_of_isBlock {block : List Char} (h : IsBlock block) :
    objectTexts block = [block] := by
  have htexts := objectTexts_block h []
  rwa [List.append_nil] at htexts

/-- What an answer is in a trimmed text, with other objects in front of it and anything behind. -/
theorem rawReply?_wrapped {n : Nat} {cs front object back : List Char} {raw : RawReply}
    (htrim : trim cs = front ++ object ++ back) (hfront : Preface n front) (hn : n < maxCandidates)
    (hobject : IsBlock object) (hraw : decodeText? RawReply.decode object = some raw)
    (hsolid : Solid isBlank (trim cs)) (hlist : (trim cs).head? ≠ some '[') :
    rawReply? cs = some raw := by
  obtain ⟨blocks, hlength, hblocks, htexts⟩ := objectTexts_wrapped hfront hobject back
  rw [← htrim] at htexts
  unfold rawReply?
  cases hwhole : decodeText? RawReply.decode (trim cs) with
  | some raw' =>
    -- The whole text is one object then, so it is the answer that it wraps.
    rw [objectTexts_of_isBlock (isBlock_of_decodeText? hsolid hlist hwhole)] at htexts
    have hblocks : blocks = [] := by
      have hcount := congrArg List.length htexts
      simp only [List.length_append, List.length_cons, List.length_nil] at hcount
      exact List.eq_nil_of_length_eq_zero (by omega)
    rw [hblocks, List.nil_append] at htexts
    obtain ⟨hcs, -⟩ := List.cons.inj htexts
    rw [← hcs, hwhole] at hraw
    rw [← hraw]
    exact firstReply?_cons_of_some _ hwhole
  | none =>
    have hskip : ∀ text ∈ [trim cs], decodeText? RawReply.decode text = none := by
      intro text htext
      rwa [List.mem_singleton.mp htext]
    -- The answer is among the first eight objects, behind at most seven others.
    have htake : ∃ more, (objectTexts (trim cs)).take maxCandidates = blocks ++ object :: more := by
      obtain ⟨k, hk⟩ : ∃ k, maxCandidates = blocks.length + (k + 1) :=
        ⟨maxCandidates - n - 1, by omega⟩
      refine ⟨(objectTexts back).take k, ?_⟩
      rw [htexts, hk, List.take_length_add_append, List.take_succ_cons]
    obtain ⟨more, htake⟩ := htake
    show firstReply? ([trim cs] ++ (objectTexts (trim cs)).take maxCandidates) = some raw
    rw [firstReply?_append_of_none hskip, htake, firstReply?_append_of_none hblocks]
    exact firstReply?_cons_of_some _ hraw

theorem not_mem_brace_of_blank {cs : List Char} (h : ∀ c ∈ cs, isBlank c = true) :
    '\x7b' ∉ cs := by
  intro hmem
  exact absurd (h _ hmem) (by decide)

theorem solid_trim_of_append {front object back : List Char} (h : Solid isBlank object) :
    Solid isBlank (trim (front ++ object ++ back)) := by
  refine strip_solid fun hnil => ?_
  rw [strip_append front back h] at hnil
  simp [h.ne_nil] at hnil

theorem head_stripStart_of_trim {cs : List Char} {c : Char} (h : (trim cs).head? = some c) :
    (stripStart isBlank cs).head? = some c := by
  obtain ⟨back, hsplit, -⟩ := stripEnd_append_stripped isBlank (stripStart isBlank cs)
  rw [hsplit, List.head?_append]
  exact congrArg (Option.or · _) h

/-- An answer means the same with prose and up to seven objects in front that are no answers, and
with anything behind it. The text may not start as a list, which would be read as a whole. -/
theorem ofText?_wrapped {n : Nat} {preface answer after : List Char} {raw : RawReply}
    (hpreface : Preface n preface) (hn : n ≤ 7)
    (hbrace : (trim answer).head? = some '\x7b')
    (hanswer : decodeText? RawReply.decode (trim answer) = some raw)
    (hlist : (stripStart isBlank (preface ++ answer ++ after)).head? ≠ some '[')
    (nodes : List Descriptor) :
    Reply.ofText? nodes (preface ++ answer ++ after) = Reply.ofText? nodes answer ∧
      (Reply.ofText? nodes answer).isSome := by
  have hreply := rawReply?_object hanswer
  suffices rawReply? (preface ++ answer ++ after) = some raw by
    unfold Reply.ofText?
    rw [this, hreply]
    exact ⟨rfl, rfl⟩
  obtain ⟨front, back, hsplit, hfront, hback⟩ := strip_append_stripped isBlank answer
  obtain ⟨object, hobject⟩ : ∃ object, trim answer = object := ⟨_, rfl⟩
  change answer = front ++ trim answer ++ back at hsplit
  rw [hobject] at hsplit hbrace hanswer
  have hsolid : Solid isBlank object := hobject ▸ strip_solid fun hnil => by
    rw [← hobject, show trim answer = [] from hnil] at hbrace
    simp at hbrace
  have hblock : IsBlock object := isBlock_of_decodeText? hsolid (by rw [hbrace]; decide) hanswer
  -- The blanks around the answer count as prose.
  have htext : preface ++ answer ++ after = (preface ++ front) ++ object ++ (back ++ after) := by
    rw [hsplit]
    simp only [List.append_assoc]
  have hprose := not_mem_brace_of_blank hfront
  refine rawReply?_wrapped (htext ▸ strip_append _ _ hsolid)
    (hpreface.append_prose hprose).stripStart (Nat.lt_succ_of_le hn) hblock hanswer
    (htext ▸ solid_trim_of_append hsolid) ?_
  exact fun hhead => hlist (head_stripStart_of_trim hhead)

/-- An answer behind a block in braces that is none, and in front of one that is. -/
theorem ofText?_wrapped_in_remarks :
    Reply.ofText? [⟨0, .text, "a.html", 3, 3, "Sign in", "<p>Sign in</p>", [], [], none⟩]
        ("Sure \x7bas asked\x7d: ".toList ++
          "\x7b\"modifications\": [\x7b\"reasoning\": \"\\\"\x7b\"\x7d]\x7d\n".toList ++
            "\x7b\"modifications\": []\x7d".toList) =
      Reply.ofText? [⟨0, .text, "a.html", 3, 3, "Sign in", "<p>Sign in</p>", [], [], none⟩]
        "\x7b\"modifications\": [\x7b\"reasoning\": \"\\\"\x7b\"\x7d]\x7d\n".toList ∧
      (Reply.ofText? [⟨0, .text, "a.html", 3, 3, "Sign in", "<p>Sign in</p>", [], [], none⟩]
        "\x7b\"modifications\": [\x7b\"reasoning\": \"\\\"\x7b\"\x7d]\x7d\n".toList).isSome := by
  have hblock : IsBlock "\x7bas asked\x7d".toList := ⟨by decide, by decide⟩
  have hprose : '\x7b' ∉ "Sure ".toList := by decide
  have hcolon : Preface 0 ": ".toList := .prose (by decide)
  have hpreface : Preface 1 "Sure \x7bas asked\x7d: ".toList :=
    .block hprose hblock (by cbv) hcolon
  have hanswer : decodeText? RawReply.decode
      (trim "\x7b\"modifications\": [\x7b\"reasoning\": \"\\\"\x7b\"\x7d]\x7d\n".toList) =
        some ⟨[.object [("reasoning", .string "\"\x7b")]], none, none⟩ := by cbv
  exact ofText?_wrapped hpreface (by decide) (by decide) hanswer (by decide) _

end Rephrase.Oracle
