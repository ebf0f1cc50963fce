import Mathlib
import Rephrase.Patch.Apply
import Rephrase.Proofs.Edit.Nearest
import Rephrase.Proofs.Edit.Way

/-! An edit is given up when no way to make it finds its place, or when the first one that does puts
the same text there. -/

namespace Rephrase

namespace Edit

/-- Why no way has led to a new text. -/
inductive IsExhausted (cs : List Char) (node : Node) (p : Proposal) : Patch.Reason → Prop
  /-- None of the ways gives a text. -/
  | unmatched (h : ∀ way, alone cs node p way = .ok none) : IsExhausted cs node p .unmatched
  /-- The first one that gives a text gives the same text, and the others have not been tried. -/
  | unchanged (way : Way) (h : alone cs node p way = .ok (some cs))
      (hearlier : ∀ earlier : Way, earlier.rank < way.rank → alone cs node p earlier = .ok none) :
      IsExhausted cs node p .unchanged

section

variable {cs : List Char} {node : Node} {p : Proposal}

/-- Putting the content where it stood changes nothing only if it is the same content. -/
theorem changesNothing_of_direct (hsnippets : p.oldSnippet = none ∨ p.newSnippet = none)
    (h : alone cs node p .direct = .ok (some cs)) : changesNothing p = true := by
  obtain ⟨front, back, hcs, -, hupdated⟩ := of_replaceNearest? (Except.ok.inj h)
  rw [List.append_assoc] at hcs hupdated
  have hsame := List.append_cancel_right (List.append_cancel_left (hcs.symm.trans hupdated))
  have hcontent : (p.oldContent == p.newContent) = true :=
    beq_iff_eq.mpr (String.toList_inj.mp hsame)
  unfold changesNothing
  rw [hcontent, Bool.and_true]
  obtain h | h := hsnippets
  · rw [h]
  · rw [h]
    cases p.oldSnippet with
    | none => rfl
    | some old => rfl

/-- With one content alone to look for, no way at all changes the text. -/
theorem IsExhausted.eq_of_alone {reason : Patch.Reason} (h : IsExhausted cs node p reason)
    (hchanges : changesNothing p = false) (hsnippets : p.oldSnippet = none ∨ p.newSnippet = none)
    (hpieces : node.pieces = none) {way : Way} {updated : List Char}
    (hway : alone cs node p way = .ok (some updated)) : updated = cs := by
  obtain ⟨hexact, hloose⟩ : alone cs node p .snippet = .ok none ∧
      alone cs node p .normalizedSnippet = .ok none := alone_of_no_snippets hsnippets
  have hfragments : alone cs node p .fragments = .ok none := alone_of_no_pieces hpieces
  cases h with
  | unmatched hnone => cases (hnone way).symm.trans hway
  | unchanged first hfirst hearlier =>
    cases first with
    | snippet => cases hexact.symm.trans hfirst
    | normalizedSnippet => cases hloose.symm.trans hfirst
    | fragments => cases hfragments.symm.trans hfirst
    | direct => cases hchanges.symm.trans (changesNothing_of_direct hsnippets hfirst)
    | lineFallback =>
      cases way with
      | lineFallback => exact Option.some.inj (Except.ok.inj (hway.symm.trans hfirst))
      | _ => cases (hearlier _ (by decide)).symm.trans hway

end

end Edit

namespace Patch

open Edit

theorem skip_injective {draft : Draft} {edit : PlannedEdit} {a b : Reason}
    (h : draft.skip edit a = draft.skip edit b) : a = b := by
  have hskipped := List.append_cancel_left (congrArg Draft.skipped h)
  have hmessage : a.message = b.message := congrArg Skipped.reason (List.cons.inj hskipped).1
  cases a <;> cases b <;> first | rfl | exact absurd hmessage (by decide)

/-- An edit that changes something and is not declined is only left out where the ways to make it
are exhausted. -/
theorem exhausted_of_skip {file : String} {draft : Draft} {edit : PlannedEdit} {reason : Reason}
    (hchanges : changesNothing edit.proposal = false) (hstrategy : edit.proposal.strategy ≠ .skip)
    (h : Draft.edit file draft edit = .ok (draft.skip edit reason)) :
    IsExhausted draft.content edit.node edit.proposal reason ∧
      (edit.proposal.oldSnippet = none ∨ edit.proposal.newSnippet = none →
        edit.node.pieces = none → ∀ way updated,
          alone draft.content edit.node edit.proposal way = .ok (some updated) →
            updated = draft.content) := by
  unfold Draft.edit at h
  rw [if_neg (by rw [hchanges]; decide), if_neg hstrategy] at h
  obtain ⟨result, hresult, h⟩ := bind_eq_ok.mp h
  have hexhausted : IsExhausted draft.content edit.node edit.proposal reason := by
    obtain ⟨rfl, hnone⟩ | ⟨updated, way, rfl, hway, hearlier⟩ := alone_of_apply hresult
    · obtain rfl := skip_injective (Except.ok.inj h)
      exact .unmatched hnone
    · dsimp only at h
      split at h
      · rename_i hsame
        obtain rfl := skip_injective (Except.ok.inj h)
        exact .unchanged way (hsame ▸ hway) hearlier
      · have happlied := congrArg (List.length ∘ Draft.applied) (Except.ok.inj h)
        simp [Draft.skip] at happlied
  exact ⟨hexhausted, fun hsnippets hpieces way updated hway =>
    hexhausted.eq_of_alone hchanges hsnippets hpieces hway⟩

/-- An edit of the one text of a file; its snippets are the same, and its contents are not. -/
def steadyEdit (snippet : Option String) (new : String) : PlannedEdit :=
  ⟨"batch-001", ⟨.lineMatch, "Sign in", "a.md", "a.md", ⟨1, 0⟩, ⟨1, 7⟩, [], [], 1, none, none⟩,
    ⟨0, snippet, snippet, "Sign in", new, "", 1, true, .unspecified, []⟩⟩

theorem exhausted_on_missing_text :
    IsExhausted "Log in".toList (steadyEdit none "Log in").node (steadyEdit none "Log in").proposal
        .unmatched ∧
      ∀ way updated, alone "Log in".toList (steadyEdit none "Log in").node
        (steadyEdit none "Log in").proposal way = .ok (some updated) →
          updated = "Log in".toList := by
  have hskip : Draft.edit "a.md" ⟨"Log in".toList, [], []⟩ (steadyEdit none "Log in") =
      .ok (Draft.skip ⟨"Log in".toList, [], []⟩ (steadyEdit none "Log in") .unmatched) := by
    cbv
  obtain ⟨hexhausted, hsame⟩ := exhausted_of_skip (by decide) (by decide) hskip
  exact ⟨hexhausted, hsame (.inl rfl) rfl⟩

/-- The snippets stand in the file, so its text is taken for edited; the contents are not looked
for. -/
theorem content_not_tried :
    changesNothing (steadyEdit (some "Sign in") "Log in").proposal = false ∧
      (steadyEdit (some "Sign in") "Log in").proposal.strategy ≠ .skip ∧
      Draft.edit "a.md" ⟨"Sign in".toList, [], []⟩ (steadyEdit (some "Sign in") "Log in") =
        .ok (Draft.skip ⟨"Sign in".toList, [], []⟩ (steadyEdit (some "Sign in") "Log in")
          .unchanged) ∧
      alone "Sign in".toList (steadyEdit (some "Sign in") "Log in").node
        (steadyEdit (some "Sign in") "Log in").proposal .direct = .ok (some "Log in".toList) := by
  refine ⟨?_, ?_, ?_, ?_⟩
  · decide
  · decide
  · cbv
  · cbv

end Patch

end Rephrase
