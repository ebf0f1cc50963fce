import Mathlib.Data.List.Induction
import Rephrase.Patch.Apply
import Rephrase.Proofs.Edit.Deal
import Rephrase.Proofs.Edit.Nearest

/-! Edits that are made from the end of a file to its start land on the stretches that their nodes
are recorded for. -/

namespace Rephrase.Patch

open Edit Text

/-! ## Single edits -/

/-- An edit changes the text and is noted as applied, or it leaves the text alone. -/
theorem content_of_edit {file : String} {draft draft' : Draft} {edit : PlannedEdit}
    (h : Draft.edit file draft edit = .ok draft') :
    (draft'.content = draft.content ∧ draft'.applied = draft.applied) ∨ draft'.applied ≠ [] := by
  unfold Draft.edit at h
  split at h
  · cases h
    exact .inl ⟨rfl, rfl⟩
  split at h
  · cases h
    exact .inl ⟨rfl, rfl⟩
  obtain ⟨result, -, h⟩ := bind_eq_ok.mp h
  split at h
  · split at h
    · cases h
      exact .inl ⟨rfl, rfl⟩
    · cases h
      exact .inr (by simp)
  · cases h
    exact .inl ⟨rfl, rfl⟩

theorem draftOf_concat (file : String) (content : List Char) (edits : List PlannedEdit)
    (last : PlannedEdit) : draftOf file content (edits ++ [last]) =
      draftOf file content edits >>= fun draft => Draft.edit file draft last := by
  unfold draftOf
  rw [List.foldlM_append]
  congr 1
  funext draft
  rw [List.foldlM_cons]
  cases Draft.edit file draft last <;> rfl

/-- A draft that no edit was applied to has the text that it started from. -/
theorem content_of_draftOf {file : String} {content : List Char} {edits : List PlannedEdit}
    {draft : Draft} (h : draftOf file content edits = .ok draft) (happlied : draft.applied = []) :
    draft.content = content := by
  induction edits using List.reverseRecOn generalizing draft with
  | nil =>
    cases h
    rfl
  | append_singleton edits last ih =>
    -- The last edit decides: once one is applied, the list of applied ones stays filled.
    rw [draftOf_concat] at h
    obtain ⟨before, hbefore, hlast⟩ := bind_eq_ok.mp h
    obtain ⟨hcontent, hsame⟩ | hne := content_of_edit hlast
    · rw [hcontent]
      exact ih hbefore (hsame ▸ happlied)
    · exact absurd happlied hne

/-- Every edit was applied in the same way, but for those that changed nothing. -/
structure Draft.IsExact (way : Way) (draft : Draft) : Prop where
  applied : ∀ a ∈ draft.applied, a.way = way
  skipped : ∀ s ∈ draft.skipped, s.reason = Reason.unchanged.message

theorem edit_of_apply (file batchId : String) {draft : Draft} {node : Node} {p : Proposal}
    {content : List Char} {way : Way} (hdraft : draft.IsExact way) (hp : Rewrites p node)
    (happly : Edit.apply draft.content node p = .ok (some (content, way))) :
    ∃ draft', Draft.edit file draft ⟨batchId, node, p⟩ = .ok draft' ∧ draft'.content = content ∧
      draft'.IsExact way := by
  obtain ⟨happlied, hskipped⟩ := hdraft
  -- The gates in front of the strategies let every rewrite through.
  unfold Draft.edit
  rw [if_neg (by rw [hp.changesNothing]; decide), if_neg hp.strategy, happly, ok_bind]
  dsimp only
  -- A new text that is the old one is noted as skipped; the draft holds it all the same.
  by_cases hsame : content = draft.content
  · rw [if_pos hsame]
    refine ⟨_, rfl, hsame.symm, happlied, fun s hs => ?_⟩
    obtain hs | hs := List.mem_append.mp hs
    · exact hskipped s hs
    · rw [List.mem_singleton.mp hs]
      rfl
  · rw [if_neg hsame]
    refine ⟨_, rfl, rfl, fun a ha => ?_, hskipped⟩
    obtain ha | ha := List.mem_append.mp ha
    · exact happlied a ha
    · rw [List.mem_singleton.mp ha]

/-- Edits are made to a text one after another, every one of them in the same way. -/
inductive MadeInTurn (way : Way) : List Char → List PlannedEdit → List Char → Prop
  | none (content : List Char) : MadeInTurn way content [] content
  | next {before between after : List Char} {edits : List PlannedEdit} {last : PlannedEdit}
      (hbefore : MadeInTurn way before edits between) (hlast : Rewrites last.proposal last.node)
      (happly : Edit.apply between last.node last.proposal = .ok (some (after, way))) :
      MadeInTurn way before (edits ++ [last]) after

theorem MadeInTurn.eq_of_nil {way : Way} {before after : List Char}
    (h : MadeInTurn way before [] after) : after = before := by
  generalize hnil : ([] : List PlannedEdit) = edits at h
  cases h with
  | none => rfl
  | next => simp at hnil

/-- Edits that can be made in turn are applied to a draft. -/
theorem draftOf_of_madeInTurn (file : String) {way : Way} {before after : List Char}
    {edits : List PlannedEdit} (h : MadeInTurn way before edits after) :
    ∃ draft, draftOf file before edits = .ok draft ∧ draft.content = after ∧
      draft.IsExact way := by
  induction h with
  | none => exact ⟨{ content := before }, rfl, rfl, nofun, nofun⟩
  | next _ hlast happly ih =>
    rename_i last _
    obtain ⟨draft, hdraft, hcontent, hexact⟩ := ih
    rw [← hcontent] at happly
    obtain ⟨draft', hedit, hcontent', hexact'⟩ :=
      edit_of_apply file last.batchId hexact hlast happly
    refine ⟨draft', ?_, hcontent', hexact'⟩
    rw [draftOf_concat, hdraft, ok_bind]
    exact hedit

/-! ## What the stretches of nodes come to hold -/

/-- The texts for the stretches of a node: those that a proposal puts there, or those that stand
there. -/
def textsFor (node : Node) : Option Proposal → List (List Char)
  | some p =>
    match node.pieces with
    | some pieces => deal (Text.words p.newContent.toList) (pieces.map (·.wordCount))
    | none => [p.newContent.toList]
  | none =>
    match node.pieces with
    | some pieces => pieces.map (·.text.toList)
    | none => [node.content.toList]

/-- Each node of a list with the accepted proposal for its number. -/
def chosen (nodes : List Node) (proposals : List Proposal) : List (Node × Option Proposal) :=
  nodes.zipIdx.map fun (node, number) =>
    (node, proposals.find? fun p => p.nodeIndex = number && p.accepted)

/-- What some nodes' stretches of a content come to hold. -/
def editsOn (content : List Char) (choices : List (Node × Option Proposal)) :
    List (Span × List Char) :=
  choices.flatMap fun (node, p?) => (node.stretches content).zip (textsFor node p?)

theorem length_stretches (content : List Char) (node : Node) (p? : Option Proposal) :
    (node.stretches content).length = (textsFor node p?).length := by
  unfold Node.stretches textsFor
  cases node.pieces <;> cases p? <;> simp [length_deal]

theorem fst_zip_textsFor (content : List Char) (node : Node) (p? : Option Proposal) :
    ((node.stretches content).zip (textsFor node p?)).map Prod.fst = node.stretches content :=
  List.map_fst_zip (Nat.le_of_eq (length_stretches content node p?))

/-- What stands at the stretches of a recorded node. -/
theorem slice?_of_mem_stretches {source : Source} {node : Node} (h : node.IsRecorded source)
    {span : Span} (hspan : span ∈ node.stretches source.content) :
    ∃ old, slice? source.content span.start span.stop = some old := by
  unfold Node.stretches at hspan
  split at hspan
  · rename_i pieces hpieces
    obtain ⟨piece, hpiece, rfl⟩ := List.mem_map.mp hspan
    exact ⟨_, (((h.pieces pieces hpieces).2 piece hpiece).holds).slice?⟩
  · rename_i hpieces
    obtain rfl := List.mem_singleton.mp hspan
    exact ⟨_, (h.whole hpieces).1.slice?⟩

theorem slice?_of_mem_textsFor_none {source : Source} {node : Node} (h : node.IsRecorded source)
    {edit : Span × List Char}
    (hedit : edit ∈ (node.stretches source.content).zip (textsFor node none)) :
    slice? source.content edit.1.start edit.1.stop = some edit.2 := by
  unfold Node.stretches textsFor at hedit
  cases hpieces : node.pieces with
  | none =>
    rw [hpieces] at hedit
    obtain rfl := List.mem_singleton.mp hedit
    exact (h.whole hpieces).1.slice?
  | some pieces =>
    rw [hpieces] at hedit
    dsimp only at hedit
    rw [List.zip_map'] at hedit
    obtain ⟨piece, hpiece, rfl⟩ := List.mem_map.mp hedit
    exact ((h.pieces pieces hpieces).2 piece hpiece).holds.slice?

theorem stretches_ne_nil {source : Source} {node : Node} (h : node.IsRecorded source) :
    node.stretches source.content ≠ [] := by
  unfold Node.stretches
  split
  · rename_i pieces hpieces
    obtain ⟨first, rest, rfl, -⟩ := (h.pieces pieces hpieces).1
    exact List.cons_ne_nil _ _
  · exact List.cons_ne_nil _ _

/-! ## From the end of a file to its start -/

/-- A proposal is applied on a node's stretches, whatever has become of the text behind them. -/
def Lands (content : List Char) (way : Way) (node : Node) (p : Proposal) : Prop :=
  ∀ front stretch rest back, content = front ++ stretch ++ rest →
    Ascend (size front) (size front + size stretch) (node.stretches content) →
    ∃ new, Replaced (size front) ((node.stretches content).zip (textsFor node (some p))) stretch
        new ∧
      Edit.apply (front ++ stretch ++ back) node p = .ok (some (front ++ new ++ back, way))

/-- Of the places where a node's content stands in a file, counted from left to right without
overlap, the first one on the node's first line is the node's own. -/
def IsFirstOnLine (content : List Char) (node : Node) : Prop :=
  ((occurrences node.content.toList content).find? (·.2 = node.start.line)).map Prod.fst =
    some (spanBetween content node.start node.stop).start

instance (content : List Char) (node : Node) : Decidable (IsFirstOnLine content node) :=
  inferInstanceAs (Decidable (_ = _))

/-- A node in one stretch is edited in place if nothing of its content stands before it on its
line. -/
theorem lands_of_isFirstOnLine {source : Source} {node : Node} {p : Proposal}
    (hnode : node.IsRecorded source) (hpieces : node.pieces = none) (hp : Rewrites p node)
    (hfirst : IsFirstOnLine source.content node) : Lands source.content .direct node p := by
  intro front stretch rest back hcontent hascend
  obtain ⟨hholds, hne⟩ := hnode.whole hpieces
  obtain ⟨place, hplace, hstart⟩ := Option.map_eq_some_iff.mp hfirst
  have hstretches : node.stretches source.content =
      [spanBetween source.content node.start node.stop] := by
    unfold Node.stretches
    rw [hpieces]
  have htexts : textsFor node (some p) = [p.newContent.toList] := by
    unfold textsFor
    rw [hpieces]
  have hslice := hholds.slice?
  rw [hstretches] at hascend
  rw [hstretches, htexts]
  generalize spanBetween source.content node.start node.stop = span at *
  -- The result is known before the search is: only then is the search shown to come to it.
  obtain ⟨new, hnew, -⟩ := Replaced.exists_of_ascend front stretch rest hcontent
    (show Ascend _ _ ([(span, p.newContent.toList)].map Prod.fst) from hascend)
    (fun edit hedit => by
      rw [List.mem_singleton.mp hedit]
      exact ⟨_, hslice⟩)
  refine ⟨new, hnew, apply_of_replaceNearest? hp hpieces ?_⟩
  cases hnew with
  | edit gap old _ hgap hstop hrest =>
    cases hrest
    rename_i tail
    have hcontent' : source.content = front ++ gap ++ old ++ (tail ++ rest) := by
      rw [hcontent]
      simp only [List.append_assoc]
    have hgap' : size (front ++ gap) = span.start := by rw [size_append, hgap]
    -- What the edit takes out is what was recorded there.
    obtain rfl : old = node.content.toList := by
      have hold := slice?_append (front ++ gap) old (tail ++ rest)
      rw [hgap', ← hstop, ← hcontent', hslice] at hold
      exact (Option.some.inj hold).symm
    rw [hcontent'] at hplace
    have hreplace := replaceNearest?_of_find? hne (hstart.trans hgap'.symm) hplace
      p.newContent.toList (tail ++ back)
    simpa only [List.append_assoc] using hreplace

/-- No node can do without it: a rewrite with a new first letter shows where it was made. -/
theorem isFirstOnLine_of_lands {source : Source} {node : Node} {p : Proposal} {c d : Char}
    {old wanted : List Char} (hnode : node.IsRecorded source) (hpieces : node.pieces = none)
    (hp : Rewrites p node) (hold : node.content.toList = c :: old)
    (hwanted : p.newContent.toList = d :: wanted) (hne : c ≠ d)
    (hlands : Lands source.content .direct node p) : IsFirstOnLine source.content node := by
  obtain ⟨⟨front, back, hcontent, hstart, hstop⟩, -⟩ := hnode.whole hpieces
  have hspan : spanBetween source.content node.start node.stop =
      ⟨size front, size front + size node.content.toList⟩ := by
    rw [hcontent, hstart, hstop, spanBetween_append]
  have hstretches : node.stretches source.content =
      [⟨size front, size front + size node.content.toList⟩] := by
    unfold Node.stretches
    rw [hpieces, ← hspan]
  have htexts : textsFor node (some p) = [p.newContent.toList] := by
    unfold textsFor
    rw [hpieces]
  have hpos : 0 < size node.content.toList := size_pos_of_ne_nil (by simp [hold])
  -- The edit is made to the file as it was extracted from.
  have hascend : Ascend (size []) (size [] + size source.content)
      (node.stretches source.content) := by
    rw [hstretches, hcontent]
    simp only [Ascend, size_nil, size_append]
    omega
  obtain ⟨new, hnew, happly⟩ := hlands [] source.content [] [] (by simp) hascend
  rw [hstretches, htexts, hcontent] at hnew
  have hown : Replaced (size []) [(⟨size front, size front + size node.content.toList⟩,
      p.newContent.toList)] (front ++ node.content.toList ++ back)
        (front ++ p.newContent.toList ++ back) :=
    .edit front node.content.toList p.newContent.toList (Nat.zero_add _).symm rfl (.same _ back)
  obtain rfl := hnew.unique hown
  simp only [List.nil_append, List.append_nil] at happly
  obtain ⟨front', back', hsplit, hnearest, hmade⟩ :=
    of_replaceNearest? (replaceNearest?_of_apply hp happly)
  rw [hcontent] at hsplit
  rw [hold, List.append_assoc, List.append_assoc] at hsplit
  rw [hwanted, List.append_assoc, List.append_assoc] at hmade
  obtain rfl := eq_of_replaced hne hsplit hmade
  unfold IsFirstOnLine
  rw [hspan, hstart, hcontent, List.append_assoc]
  rw [hstart, hcontent, List.append_assoc] at hnearest
  exact find?_of_nearestPlace? hnearest

/-- A node of several pieces is edited in place. -/
theorem lands_of_pieces {source : Source} {node : Node} {p : Proposal} {pieces : List Piece}
    (hnode : node.IsRecorded source) (hpieces : node.pieces = some pieces) (hp : Rewrites p node)
    (hlimit : size source.content < Fault.wordLimit) : Lands source.content .fragments node p := by
  intro front stretch rest back hcontent hascend
  obtain ⟨⟨first, others, hne, -⟩, hrecorded⟩ := hnode.pieces pieces hpieces
  have hstretches : node.stretches source.content =
      pieces.map fun piece => spanBetween source.content piece.start piece.stop := by
    unfold Node.stretches
    rw [hpieces]
  have htexts : textsFor node (some p) =
      deal (Text.words p.newContent.toList) (pieces.map (·.wordCount)) := by
    unfold textsFor
    rw [hpieces]
  rw [hstretches] at hascend
  rw [hstretches, htexts]
  have hsome : pieces ≠ [] := by
    rw [hne]
    exact List.cons_ne_nil _ _
  obtain ⟨new, hnew, hdeal⟩ := dealOut_recorded hsome hlimit rest hcontent hrecorded hascend back
    p.newContent.toList
  exact ⟨new, hnew, apply_of_dealOut hp hpieces hdeal⟩

/-- The edits that are planned for some nodes. -/
def editsOfChoices (batchId : String) (choices : List (Node × Option Proposal)) :
    List PlannedEdit :=
  choices.filterMap fun (node, p?) => p?.map fun p => ⟨batchId, node, p⟩

/-- Nodes are edited from the last to the first; the text in front of a node is still the old one
when its turn comes. -/
theorem madeInTurn_reverse {source : Source} {way : Way} (batchId : String)
    (choices : List (Node × Option Proposal))
    (hrecorded : ∀ choice ∈ choices, choice.1.IsRecorded source)
    (hlands : ∀ choice ∈ choices, ∀ p, choice.2 = some p →
      Rewrites p choice.1 ∧ Lands source.content way choice.1 p)
    (front : List Char) {before : List Char} (hcontent : source.content = front ++ before)
    {stop : Nat}
    (hascend : Ascend (size front) stop (choices.flatMap (·.1.stretches source.content))) :
    ∃ after, MadeInTurn way source.content (editsOfChoices batchId choices).reverse
        (front ++ after) ∧
      Replaced (size front) (editsOn source.content choices) before after := by
  -- On the choices from the left: the later nodes are already edited when the first one is.
  induction choices generalizing front before with
  | nil => exact ⟨before, hcontent ▸ .none _, .same _ _⟩
  | cons choice rest ih =>
    obtain ⟨node, p?⟩ := choice
    have hnode := hrecorded _ List.mem_cons_self
    rw [List.flatMap_cons] at hascend
    obtain ⟨span, hspan, hfirst, hlater⟩ := hascend.split (stretches_ne_nil hnode)
    obtain ⟨old, hold⟩ := slice?_of_mem_stretches hnode hspan
    obtain ⟨passed, behind, hsplit, hpassed, hstop⟩ := of_slice? hold
    have hle := hfirst.le
    -- The node's last stretch ends between two characters, where the text is cut.
    obtain ⟨stretch, hstretch, hbefore⟩ := append_split_of_size_le (hcontent.symm.trans hsplit)
      (by rw [size_append]; omega)
    have hsize : size (front ++ stretch) = span.stop := by
      rw [← hstretch, size_append, hstop]
    subst hbefore
    rw [← List.append_assoc] at hcontent
    rw [← hsize] at hlater
    obtain ⟨after, hmade, hreplaced⟩ := ih
      (fun choice hchoice => hrecorded choice (List.mem_cons_of_mem _ hchoice))
      (fun choice hchoice => hlands choice (List.mem_cons_of_mem _ hchoice)) _ hcontent hlater
    rw [size_append] at hreplaced
    rw [← hsize, size_append] at hfirst
    cases p? with
    | none =>
      -- A declined node keeps its texts, so its part of the file is passed on as it is.
      have hfst := fst_zip_textsFor source.content node none
      obtain ⟨new, hnew, hsame⟩ := Replaced.exists_of_ascend front stretch behind hcontent
        (hfst.symm ▸ hfirst) (fun edit hedit => ⟨_, slice?_of_mem_textsFor_none hnode hedit⟩)
      obtain rfl := hsame fun edit hedit => slice?_of_mem_textsFor_none hnode hedit
      rw [List.append_assoc] at hmade
      exact ⟨new ++ after, hmade, hnew.append hreplaced⟩
    | some p =>
      obtain ⟨hp, hland⟩ := hlands _ List.mem_cons_self p rfl
      obtain ⟨new, hnew, happly⟩ := hland front stretch behind after hcontent hfirst
      rw [List.append_assoc front new] at happly
      refine ⟨new ++ after, ?_, hnew.append hreplaced⟩
      show MadeInTurn way _ (⟨batchId, node, p⟩ :: editsOfChoices batchId rest).reverse _
      rw [List.reverse_cons]
      exact hmade.next hp happly

end Rephrase.Patch
