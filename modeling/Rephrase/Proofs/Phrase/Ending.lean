import Rephrase.Proofs.Phrase.Pattern
import Rephrase.Proofs.Text.LineSpan
import Rephrase.Proofs.Text.Lowercase
import Rephrase.Proofs.Text.Words

/-! What the pattern of a phrase finds ends with a character of the phrase's last word in whatever
case, and therefore within a line. -/

namespace Rephrase.Phrase

open Text

/-- Folding makes none of the first control characters out of another one. -/
theorem eq_of_foldChar {c control : Char} (h : foldChar c = control) (hpos : 0 < control.toNat)
    (hcontrol : control.toNat < 0x20) : c = control := by
  unfold foldChar at h
  split at h
  · rename_i hlt
    have hascii : ∀ n < 0x80, (Char.ofNat n).toLower.toNat < 0x20 →
        (Char.ofNat n).toLower = Char.ofNat n := by decide
    have hc := hascii c.toNat hlt
    rw [Char.ofNat_toNat, h] at hc
    exact (hc hcontrol).symm
  · rename_i hlarge
    have hruns : ∀ run ∈ foldRuns, 0x20 ≤ run.low + run.shift := by decide +kernel
    obtain hsame | ⟨run, hrun, hlow, -, hshift⟩ := moveBy_eq (eq_toNat_of_ofNat h hpos)
    · omega
    · have hle := hruns run hrun
      omega

theorem keepsLine_of_sameFolded {w c : Char} (hw : isBlank w = false)
    (h : sameFolded w c = true) : KeepsLine c := by
  have hfold : foldChar w = foldChar c := by simpa [sameFolded] using h
  obtain ⟨hfeed, hreturn⟩ := keepsLine_of_not_blank hw
  refine ⟨?_, ?_⟩
  · rintro rfl
    exact hfeed (eq_of_foldChar hfold (by decide) (by decide))
  · rintro rfl
    exact hreturn (eq_of_foldChar hfold (by decide) (by decide))

theorem exists_of_dropWord? {word cs rest : List Char} (hword : IsWord word)
    (h : dropWord? word cs = some rest) :
    ∃ front c, cs = front ++ c :: rest ∧ KeepsLine c := by
  obtain ⟨found, rfl, hsame⟩ := of_dropWord? h
  have hfound : found ≠ [] := by
    rintro rfl
    exact hword.1 (List.forall₂_nil_right_iff.mp hsame)
  have hkeeps : ∀ c ∈ found, KeepsLine c := by
    intro c hc
    obtain ⟨n, hn, rfl⟩ := List.getElem_of_mem hc
    have hlt : n < word.length := hsame.length_eq ▸ hn
    exact keepsLine_of_sameFolded (hword.2 _ (List.getElem_mem hlt)) (hsame.get hlt hn)
  refine ⟨found.dropLast, found.getLast hfound, ?_, hkeeps _ (List.getLast_mem hfound)⟩
  rw [List.append_cons, List.dropLast_append_getLast]

theorem exists_of_dropWords? {ws : List (List Char)} {cs rest : List Char} (hws : ws ≠ [])
    (hwords : ∀ w ∈ ws, IsWord w) (h : dropWords? ws cs = some rest) :
    ∃ front c, cs = front ++ c :: rest ∧ KeepsLine c := by
  induction ws generalizing cs with
  | nil => exact absurd rfl hws
  | cons word ws ih =>
    obtain ⟨hword, hlater⟩ := List.forall_mem_cons.mp hwords
    cases ws with
    | nil => exact exists_of_dropWord? hword h
    | cons next ws =>
      rw [dropWords?] at h
      · split at h
        · rename_i behind hdrop
          obtain ⟨after, hafter, hnext⟩ := List.exists_of_findSome?_eq_some h
          obtain ⟨front, c, rfl, hc⟩ := ih (List.cons_ne_nil _ _) hlater hnext
          obtain ⟨gap, rfl⟩ := suffix_of_mem_gapEnds (List.mem_reverse.mp hafter)
          obtain ⟨found, rfl, -⟩ := of_dropWord? hdrop
          exact ⟨found ++ gap ++ front, c, by simp, hc⟩
        · simp at h
      · simp

theorem exists_of_mem_findFrom {ws : List (List Char)} {offset skip : Nat} {cs : List Char}
    {span : Span} (hws : ws ≠ []) (hwords : ∀ w ∈ ws, IsWord w)
    (h : span ∈ findFrom ws [] offset skip cs) :
    ∃ front text c back, cs = front ++ (text ++ [c]) ++ back ∧ KeepsLine c ∧
      span = ⟨offset + size front, offset + size front + size (text ++ [c])⟩ := by
  induction cs generalizing offset skip with
  | nil => simp [findFrom] at h
  | cons d cs ih =>
    -- A span that is found further on stays where it is with one character more in front.
    have hlater : ∀ {skip : Nat}, span ∈ findFrom ws [] (offset + d.utf8Size) skip cs →
        ∃ front text c back, d :: cs = front ++ (text ++ [c]) ++ back ∧ KeepsLine c ∧
          span = ⟨offset + size front, offset + size front + size (text ++ [c])⟩ := by
      intro skip hspan
      obtain ⟨front, text, c, back, hcs, hc, hspan⟩ := ih hspan
      refine ⟨d :: front, text, c, back, by rw [hcs]; rfl, hc, ?_⟩
      rw [hspan, size_cons, Nat.add_assoc]
    rw [findFrom] at h
    dsimp only at h
    split at h
    · split at h
      · rename_i after hafter
        rw [findFrom_found] at h
        obtain h | h := List.mem_append.mp h
        · obtain ⟨text, c, htext, hc⟩ := exists_of_dropWords? hws hwords hafter
          have htake : (d :: cs).take ((d :: cs).length - after.length) = text ++ [c] := by
            have hlength : (d :: cs).length - after.length = (text ++ [c]).length := by
              rw [htext]
              simp
              omega
            rw [hlength, htext, List.append_cons text c after]
            exact List.take_left
          rw [htake] at h
          have hspan : span = ⟨offset, offset + size (text ++ [c])⟩ := by simpa using h
          refine ⟨[], text, c, after, by rw [htext]; simp, hc, ?_⟩
          rw [hspan]
          rfl
        · exact hlater h
      · exact hlater h
    · exact hlater h

/-- What is found stands in the text, and it does not end in a line break. -/
theorem slice?_of_mem_find {phrase cs : List Char} {span : Span} (h : span ∈ find phrase cs) :
    ∃ text c, slice? cs span.start span.stop = some (text ++ [c]) ∧ KeepsLine c := by
  unfold find at h
  dsimp only at h
  split at h
  · simp at h
  · rename_i hempty
    have hws : Text.words phrase ≠ [] := by simpa using hempty
    obtain ⟨front, text, c, back, rfl, hc, rfl⟩ :=
      exists_of_mem_findFrom hws (fun w hw => isWord_of_mem_words hw) h
    refine ⟨text, c, ?_, hc⟩
    rw [Nat.zero_add]
    exact slice?_append front (text ++ [c]) back

end Rephrase.Phrase
