import Mathlib
import Rephrase.Proofs.Edit.Choice
import Rephrase.Proofs.Patch.Landing

/-! Edits of one file whose nodes start on different lines and whose old texts stand apart are all
made, each where its old text stood at first: they go from the last line to the first, and what has
changed behind a text says nothing about where it is found. -/

namespace Rephrase

namespace Patch

open Disk Edit Text

/-! ## One edit -/

/-- Whether an edit asks for one text to be replaced by another one, and for nothing else. -/
structure PlannedEdit.IsPlain (edit : PlannedEdit) : Prop where
  noSnippet : edit.proposal.oldSnippet = none ∧ edit.proposal.newSnippet = none
  whole : edit.node.pieces = none
  strategy : edit.proposal.strategy ≠ .skip
  old : edit.proposal.oldContent.toList ≠ []
  new : edit.proposal.newContent ≠ edit.proposal.oldContent

/-- The stretch that an edit is meant for: of the places where its old text stands, counted from left
to right without overlap, the first one on the line of its node. -/
def PlannedEdit.target? (content : List Char) (edit : PlannedEdit) : Option Span :=
  ((occurrences edit.proposal.oldContent.toList content).find?
    (·.2 = edit.node.start.line)).map fun place =>
      ⟨place.1, place.1 + size edit.proposal.oldContent.toList⟩

/-- What becomes of an edit that is made in place. -/
def PlannedEdit.direct (file : String) (edit : PlannedEdit) : Applied :=
  ⟨file, edit.node.start.line, .direct⟩

theorem PlannedEdit.of_target? {content : List Char} {edit : PlannedEdit} {span : Span}
    (h : edit.target? content = some span) : ∃ front back,
      content = front ++ edit.proposal.oldContent.toList ++ back ∧ span.start = size front ∧
      span.stop = span.start + size edit.proposal.oldContent.toList ∧
      (positionBehind front).line = edit.node.start.line := by
  obtain ⟨place, hplace, rfl⟩ := Option.map_eq_some_iff.mp h
  have hline := List.find?_some hplace
  obtain ⟨front, back, hcontent, rfl⟩ := of_mem_occurrences (List.mem_of_find?_eq_some hplace)
  exact ⟨front, back, hcontent, rfl, rfl, of_decide_eq_true hline⟩

/-- Whatever stands behind its old text, an edit is made where that stood at first. -/
theorem edit_of_target? {content front rest : List Char} {edit : PlannedEdit} {span : Span}
    (hplain : edit.IsPlain) (hcontent : content = front ++ edit.proposal.oldContent.toList ++ rest)
    (htarget : edit.target? content = some span) (hstart : span.start = size front) (file : String)
    (back : List Char) (applied : List Applied) :
    Draft.edit file ⟨front ++ edit.proposal.oldContent.toList ++ back, applied, []⟩ edit =
      .ok ⟨front ++ edit.proposal.newContent.toList ++ back, applied ++ [edit.direct file], []⟩ := by
  obtain ⟨place, hplace, rfl⟩ := Option.map_eq_some_iff.mp htarget
  rw [hcontent] at hplace
  have hreplace := replaceNearest?_of_find? hplain.old hstart hplace
    edit.proposal.newContent.toList back
  generalize hnow : front ++ edit.proposal.oldContent.toList ++ back = now at hreplace ⊢
  have hkept : changesNothing edit.proposal = false := by
    have hne : (edit.proposal.oldContent == edit.proposal.newContent) = false := by
      simpa using hplain.new.symm
    rw [changesNothing, hne, Bool.and_false]
  -- A plain edit has no snippet and no pieces, so it is the direct way that is taken.
  have happly : Edit.apply now edit.node edit.proposal =
      .ok (some (front ++ edit.proposal.newContent.toList ++ back, .direct)) :=
    apply_of_direct (.inl hplain.noSnippet.1) hplain.whole (congrArg _ hreplace)
  have hdiffers : front ++ edit.proposal.newContent.toList ++ back ≠ now := by
    rw [← hnow, List.append_assoc, List.append_assoc]
    intro heq
    exact hplain.new (String.toList_inj.mp
      (List.append_cancel_right (List.append_cancel_left heq)))
  unfold Draft.edit
  rw [if_neg (by rw [hkept]; decide), if_neg hplain.strategy, happly, ok_bind]
  dsimp only
  rw [if_neg hdiffers]
  rfl

/-! ## All edits of a file -/

/-- Edits with the stretches that they are meant for. -/
abbrev Targets := List (PlannedEdit × Span)

/-- What is to stand in the stretches. -/
def Targets.changes (targets : Targets) : List (Span × List Char) :=
  targets.map fun target => (target.2, target.1.proposal.newContent.toList)

/-- Plain edits that go for stretches of a content, one after another. -/
structure Targets.AreOn (content : List Char) (targets : Targets) : Prop where
  plain : ∀ target ∈ targets, target.1.IsPlain
  stand : ∀ target ∈ targets, target.1.target? content = some target.2
  ascend : targets.Pairwise fun a b => a.2.stop ≤ b.2.start

/-- Edits are made from the last stretch to the first; the text in front of a stretch is still the old
one when its turn comes. -/
theorem draftOf_of_targets {content front before : List Char} {targets : Targets}
    (h : targets.AreOn content) (hcontent : content = front ++ before)
    (hfront : ∀ target ∈ targets, size front ≤ target.2.start) :
    ∃ after, Replaced (size front) targets.changes before after ∧
      ∀ file, draftOf file content (targets.map Prod.fst).reverse = .ok
        { content := front ++ after
          applied := ((targets.map Prod.fst).reverse).map (·.direct file) } := by
  -- On the stretches from the left: the later ones have their new texts when the first one is edited.
  induction targets generalizing front before with
  | nil =>
    subst hcontent
    exact ⟨before, .same _ _, fun _ => rfl⟩
  | cons target rest ih =>
    obtain ⟨edit, span⟩ := target
    obtain ⟨hplain, hplains⟩ := List.forall_mem_cons.mp h.plain
    obtain ⟨htarget, htargets⟩ := List.forall_mem_cons.mp h.stand
    obtain ⟨hbehind, hascend⟩ := List.pairwise_cons.mp h.ascend
    obtain ⟨passed, back, hsplit, hstart, hstop, -⟩ := PlannedEdit.of_target? htarget
    have hle : size front ≤ size passed := hstart ▸ hfront _ List.mem_cons_self
    obtain ⟨gap, rfl, rfl⟩ := append_split_of_size_le
      (hcontent.symm.trans (hsplit.trans (List.append_assoc _ _ _))) hle
    have hstop' : size (front ++ gap ++ edit.proposal.oldContent.toList) = span.stop := by
      rw [size_append, ← hstart, hstop]
    obtain ⟨after, hreplaced, hdraft⟩ := ih ⟨hplains, htargets, hascend⟩ hsplit
      fun other hother => hstop' ▸ hbehind other hother
    refine ⟨gap ++ edit.proposal.newContent.toList ++ after, ?_, fun file => ?_⟩
    · rw [hstop'] at hreplaced
      rw [← List.append_assoc gap]
      exact .edit gap _ _ (by rw [hstart, size_append]) hstop hreplaced
    · have hedit := edit_of_target? hplain hsplit htarget hstart file after
        (((rest.map Prod.fst).reverse).map (·.direct file))
      rw [List.map_cons, List.reverse_cons, draftOf_concat, hdraft, ok_bind, hedit,
        List.map_append]
      simp only [List.append_assoc, List.map_cons, List.map_nil]

/-- Stretches that are apart stand in the order of the lines that they start on. -/
theorem Targets.stop_le_start {content : List Char} {a b : PlannedEdit × Span}
    (ha : a.1.target? content = some a.2) (hb : b.1.target? content = some b.2)
    (hline : a.1.node.start.line < b.1.node.start.line)
    (hapart : a.2.stop ≤ b.2.start ∨ b.2.stop ≤ a.2.start) : a.2.stop ≤ b.2.start := by
  obtain hle | hle := hapart
  · exact hle
  · obtain ⟨front, back, hcontent, hstart, -, hfront⟩ := PlannedEdit.of_target? ha
    obtain ⟨front', back', hcontent', hstart', hstop', hfront'⟩ := PlannedEdit.of_target? hb
    rw [List.append_assoc] at hcontent hcontent'
    obtain ⟨mid, rfl, -⟩ := append_split_of_size_le (hcontent'.symm.trans hcontent) (by omega)
    have hlines := Position.line_le_behind (positionBehind front') mid
    rw [← positionBehind_append] at hlines
    omega

theorem Targets.start_lt_stop {content : List Char} {target : PlannedEdit × Span}
    (hplain : target.1.IsPlain) (h : target.1.target? content = some target.2) :
    target.2.start < target.2.stop := by
  obtain ⟨-, -, -, -, hstop, -⟩ := PlannedEdit.of_target? h
  have hlong := size_pos_of_ne_nil hplain.old
  omega

/-- Changes in the order of their stretches. -/
def inOrder (changes : List (Span × List Char)) : List (Span × List Char) :=
  changes.insertionSort fun a b => a.1.start ≤ b.1.start

theorem inOrder_eq {changes sorted : List (Span × List Char)} (hperm : changes.Perm sorted)
    (hsorted : sorted.Pairwise fun a b => a.1.start < b.1.start) : inOrder changes = sorted := by
  have hunique : ∀ a ∈ sorted, ∀ b ∈ sorted, a.1.start ≤ b.1.start → b.1.start ≤ a.1.start →
      a = b := by
    intro a ha b hb hab hba
    by_contra hne
    have hlt := List.Pairwise.forall_of_forall_of_flip (R := fun a b : Span × List Char =>
      a ≠ b → a.1.start < b.1.start ∨ b.1.start < a.1.start) (fun _ _ h => absurd rfl h)
      (hsorted.imp fun h _ => .inl h) (hsorted.imp fun h _ => .inr h) ha hb hne
    omega
  have hinsertion := List.perm_insertionSort (fun a b : Span × List Char => a.1.start ≤ b.1.start)
    changes
  refine (hinsertion.trans hperm).eq_of_pairwise (fun a b ha hb => ?_)
    (List.pairwise_insertionSort _ _) (hsorted.imp Nat.le_of_lt)
  exact hunique a (hperm.mem_iff.mp (hinsertion.mem_iff.mp ha)) b hb

/-- Plain edits of different lines that go for stretches apart can be put in the order of both. -/
theorem exists_targets {content : List Char} {edits : List PlannedEdit} {spans : List Span}
    (hplain : ∀ edit ∈ edits, edit.IsPlain)
    (hlines : edits.Pairwise fun a b => a.node.start.line ≠ b.node.start.line)
    (htargets : List.Forall₂ (fun edit span => edit.target? content = some span) edits spans)
    (hapart : spans.Pairwise fun a b => a.stop ≤ b.start ∨ b.stop ≤ a.start) :
    ∃ targets : Targets, targets.AreOn content ∧ edits.Perm (targets.map Prod.fst) ∧
      (targets.map Prod.fst).Pairwise (fun a b => a.node.start.line < b.node.start.line) ∧
      inOrder (spans.zip (edits.map (·.proposal.newContent.toList))) = targets.changes := by
  obtain ⟨pairs, rfl, rfl⟩ : ∃ pairs : Targets, edits = pairs.map Prod.fst ∧
      spans = pairs.map Prod.snd := by
    have hlength := htargets.length_eq
    exact ⟨edits.zip spans, (List.map_fst_zip (by omega)).symm, (List.map_snd_zip (by omega)).symm⟩
  have hstand : ∀ pair ∈ pairs, pair.1.target? content = some pair.2 := by
    rw [List.forall₂_map_left_iff, List.forall₂_map_right_iff, List.forall₂_same] at htargets
    exact htargets
  rw [List.pairwise_map] at hlines hapart
  -- The edits are sorted by line. As their stretches lie apart, that sorts these by place as well.
  obtain ⟨targets, hsort, hsorted⟩ : ∃ targets : Targets, targets.Perm pairs ∧
      targets.Pairwise fun a b => a.1.node.start.line ≤ b.1.node.start.line :=
    ⟨_, List.perm_insertionSort (fun a b : PlannedEdit × Span =>
      a.1.node.start.line ≤ b.1.node.start.line) pairs, List.pairwise_insertionSort _ pairs⟩
  have hstand' : ∀ target ∈ targets, target.1.target? content = some target.2 :=
    fun target htarget => hstand target (hsort.mem_iff.mp htarget)
  have hlines' := (hsort.pairwise_iff (fun h => Ne.symm h)).mpr hlines
  have hapart' := (hsort.pairwise_iff (fun h => Or.symm h)).mpr hapart
  have hlt := (hsorted.and hlines').imp fun h => Nat.lt_of_le_of_ne h.1 h.2
  have hascend : targets.Pairwise fun a b => a.2.stop ≤ b.2.start :=
    (hlt.and hapart').imp_of_mem fun ha hb h =>
      Targets.stop_le_start (hstand' _ ha) (hstand' _ hb) h.1 h.2
  have hplain' : ∀ target ∈ targets, target.1.IsPlain := fun target htarget =>
    hplain _ (List.mem_map_of_mem (hsort.mem_iff.mp htarget))
  refine ⟨targets, ⟨hplain', hstand', hascend⟩, (hsort.map Prod.fst).symm,
    List.pairwise_map.mpr hlt, ?_⟩
  have hzip : (pairs.map Prod.snd).zip
      ((pairs.map Prod.fst).map (·.proposal.newContent.toList)) = Targets.changes pairs := by
    rw [List.map_map, List.zip_map']
    rfl
  rw [hzip]
  refine inOrder_eq (hsort.symm.map _) (List.pairwise_map.mpr (hascend.imp_of_mem ?_))
  intro a b ha _ hle
  have hlong := Targets.start_lt_stop (hplain' a ha) (hstand' a ha)
  dsimp only
  omega

/-- Edits whose nodes start on different lines, and whose old texts stand apart, are all made in
place, whatever the order they were proposed in and whatever lines they add or remove. -/
theorem written_of_apart {batches : List Batch} {results : List Batch.Result} {location : String}
    {content : List Char} {spans : List Span}
    (hlocation : ∀ edit ∈ plannedEdits batches results, edit.node.location = location)
    (hplain : ∀ edit ∈ plannedEdits batches results, edit.IsPlain)
    (hlines : (plannedEdits batches results).Pairwise fun a b =>
      a.node.start.line ≠ b.node.start.line)
    (htargets : List.Forall₂ (fun edit span => edit.target? content = some span)
      (plannedEdits batches results) spans)
    (hapart : spans.Pairwise fun a b => a.stop ≤ b.start ∨ b.stop ≤ a.start) :
    ∃ after, Replaced 0 (inOrder (spans.zip
        ((plannedEdits batches results).map (·.proposal.newContent.toList)))) content after ∧
      ∀ (disk : Disk) (diffs : Bool), disk.textAt location = .ok (String.ofList content) →
        disk.HasRoom (String.ofList after).toUTF8.size →
        ∃ patch disk', (Patch.apply ⟨true, diffs⟩ batches results).run.run disk =
            (.ok patch, disk') ∧
          disk'.textAt location = .ok (String.ofList after) ∧ patch.failures = [] ∧
          patch.skipped = [] ∧
          (patch.applied.map fun applied => (applied.line, applied.way)).Perm
            ((plannedEdits batches results).map fun edit => (edit.node.start.line, .direct)) := by
  obtain ⟨targets, hon, hperm, hsorted, horder⟩ :=
    exists_targets hplain hlines htargets hapart
  rw [horder]
  obtain ⟨after, hreplaced, hdraft⟩ :=
    draftOf_of_targets hon (List.nil_append content).symm fun _ _ => Nat.zero_le _
  refine ⟨after, hreplaced, fun disk diffs htext hroom => ?_⟩
  -- Without edits there is no plan, and the content stays.
  by_cases hnone : plannedEdits batches results = []
  · have hplans : plans batches results = [] := by
      rw [plans, hnone]
      rfl
    rw [hnone] at hperm ⊢
    rw [← hperm.nil_eq] at hdraft
    have hsame : content = after := congrArg Draft.content (Except.ok.inj (hdraft location))
    refine ⟨{}, disk, ?_, hsame ▸ htext, rfl, rfl, .refl _⟩
    unfold Patch.apply
    rw [hplans]
    exact run_pure _ disk
  -- One plan holds all edits, from the last line of the file to the first.
  · have hplans : plans batches results = [⟨location, (targets.map Prod.fst).reverse⟩] := by
      have hbefore : (targets.map Prod.fst).Pairwise fun a b => a.node.start.Before b.node.start :=
        hsorted.imp fun h => .inl h
      rw [plans, foldl_addEdit_nil hlocation hnone, List.map_singleton,
        mergeSort_eq_reverse hperm hbefore]
    have hsome : (targets.map Prod.fst).reverse ≠ [] := fun h =>
      hnone (List.Perm.eq_nil (List.reverse_eq_nil_iff.mp h ▸ hperm))
    have happlied : ∀ file, ((((targets.map Prod.fst).reverse).map (·.direct file)).map
        fun applied => (applied.line, applied.way)).Perm
          ((plannedEdits batches results).map fun edit => (edit.node.start.line, .direct)) := by
      intro file
      rw [List.map_map]
      exact (((List.reverse_perm _).trans hperm.symm).map _)
    obtain ⟨first, rest, hcons⟩ := List.exists_cons_of_ne_nil hsome
    rw [hcons] at hplans hdraft happlied
    obtain ⟨patch, disk', hrun, htext', hfailures, hpatch, hskipped⟩ :=
      run_editFile {} diffs htext (hdraft first.node.file) hroom
    refine ⟨patch, disk', ?_, htext', hfailures, hskipped, ?_⟩
    · unfold Patch.apply
      rw [hplans, List.foldlM_cons, run_bind_ok hrun]
      exact run_pure patch disk'
    · rw [hpatch]
      exact happlied first.node.file

/-! Three edits that come in two batches. The first text ends on the line of the second one, which
gets new lines; the third text stands on both lines, and only its own is edited. -/

def flow : List Char := "two\nSign in\nSign in".toList

def flowDisk : Disk := { entries := [(["a.md"], .file (String.ofList flow).toUTF8)] }

/-- An edit of a text on a line, the only one of its number in its batch. -/
def flowEdit (weight : Float) (line index : Nat) (old new : String) : PlannedEdit :=
  ⟨if line = 2 then "batch-002" else "batch-001",
    ⟨.lineMatch, old, "a.md", "a.md", ⟨line, 0⟩, ⟨line, 7⟩, [], [], weight, none, none⟩,
    ⟨index, none, none, old, new, "", weight, true, .contentReplace, []⟩⟩

def flowEdits (weight : Float) : List PlannedEdit :=
  [flowEdit weight 3 0 "Sign in" "Sign in now", flowEdit weight 1 1 "two\nSign" "x",
    flowEdit weight 2 0 " in" "\n\n up"]

theorem isPlain_flowEdit (weight : Float) (line index : Nat) {old new : String}
    (hold : old.toList ≠ []) (hnew : new ≠ old) : (flowEdit weight line index old new).IsPlain :=
  ⟨⟨rfl, rfl⟩, rfl, (by decide : Proposal.Strategy.contentReplace ≠ .skip), hold, hnew⟩

def flowBatch (weight : Float) (id : String) : Batch :=
  ⟨id, "Sign in", "Log in", "",
    ((flowEdits weight).filter (·.batchId = id)).map PlannedEdit.node, weight⟩

def flowResult (weight : Float) (id : String) : Batch.Result :=
  ⟨id, ((flowEdits weight).filter (·.batchId = id)).map PlannedEdit.proposal, true, none, 2, 2, "",
    weight⟩

theorem written_on_flow :
    ∃ after, Replaced 0 [(⟨0, 8⟩, "x".toList), (⟨8, 11⟩, "\n\n up".toList),
        (⟨12, 19⟩, "Sign in now".toList)] flow after ∧
      ∃ patch disk', (Patch.apply ⟨true, false⟩
          (["batch-001", "batch-002"].map (flowBatch Node.Kind.lineMatch.relevance))
          (["batch-001", "batch-002"].map (flowResult Node.Kind.lineMatch.relevance))).run.run
            flowDisk = (.ok patch, disk') ∧
        disk'.textAt "a.md" = .ok (String.ofList after) ∧ patch.failures = [] ∧
        patch.skipped = [] ∧
        (patch.applied.map fun applied => (applied.line, applied.way)).Perm
          [(3, .direct), (1, .direct), (2, .direct)] := by
  generalize Node.Kind.lineMatch.relevance = weight
  have hedits : plannedEdits (["batch-001", "batch-002"].map (flowBatch weight))
      (["batch-001", "batch-002"].map (flowResult weight)) = flowEdits weight := by
    cbv
  have hlocation : ∀ edit ∈ flowEdits weight, edit.node.location = "a.md" :=
    List.forall_mem_cons.mpr ⟨rfl, List.forall_mem_cons.mpr ⟨rfl, List.forall_mem_singleton.mpr rfl⟩⟩
  -- The three edits are of different lines and stretches, so they are made as at once.
  have hplain : ∀ edit ∈ flowEdits weight, edit.IsPlain :=
    List.forall_mem_cons.mpr ⟨isPlain_flowEdit weight 3 0 (by decide) (by decide),
      List.forall_mem_cons.mpr ⟨isPlain_flowEdit weight 1 1 (by decide) (by decide),
        List.forall_mem_singleton.mpr (isPlain_flowEdit weight 2 0 (by decide) (by decide))⟩⟩
  have hlines : (flowEdits weight).Pairwise fun a b => a.node.start.line ≠ b.node.start.line := by
    refine List.pairwise_map (f := fun edit : PlannedEdit => edit.node.start.line).mp ?_
    show [3, 1, 2].Pairwise (· ≠ ·)
    decide
  have htargets : List.Forall₂ (fun edit span => edit.target? flow = some span) (flowEdits weight)
      [⟨12, 19⟩, ⟨0, 8⟩, ⟨8, 11⟩] :=
    .cons (by cbv) (.cons (by cbv) (.cons (by cbv) .nil))
  obtain ⟨after, hreplaced, hwritten⟩ := written_of_apart
    (hedits.symm ▸ hlocation) (hedits.symm ▸ hplain) (hedits.symm ▸ hlines)
    (hedits.symm ▸ htargets) (by decide)
  rw [hedits] at hreplaced hwritten
  refine ⟨after, hreplaced, ?_⟩
  exact hwritten flowDisk false (Disk.textAt_name (by decide) (by decide) rfl)
    fun _ hlimit => by cases hlimit

end Patch

end Rephrase
