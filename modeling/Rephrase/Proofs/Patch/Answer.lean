import Mathlib
import Rephrase.Proofs.Node.Origin
import Rephrase.Proofs.Patch.Landing

/-! What an oracle's answer does to a file whose nodes were just extracted: nodes in one piece are
edited where they are recorded as long as nothing on their line is taken for them, and nodes of
several pieces always are. -/

namespace Rephrase

namespace Patch

open Edit Text

variable {config : Config} {phrase content : List Char} {file location : String}
  {contextLines : Nat} {parsed : Option Parsed} {extracted : List Node} {batch : Batch}
  {result : Batch.Result}

/-! ## Nodes in one piece -/

/-- Rewrites of nodes in one piece land on their own nodes, if for each accepted one the first place
on its line that has its content is its own. -/
theorem landing_of_isFirstOnLine (hnested : ∀ p ∈ parsed, p.tree.isNested = true)
    (hextracted : (Source.ofContent file location content contextLines).nodes config phrase parsed =
      .ok extracted)
    (hbatch : batch.nodes = (Node.dedup extracted).filter fun node => !node.inPieces)
    (hanswers : Answers batch.nodes result.proposals) (hid : result.batchId = batch.id)
    (hsuccess : result.success = true)
    (hfirst : ∀ p ∈ result.proposals, p.accepted = true → ∀ node,
      batch.nodes[p.nodeIndex]? = some node → IsFirstOnLine content node) :
    ∃ after, Landing (Source.ofContent file location content contextLines) batch result .direct
      after := by
  have hsub : batch.nodes.Sublist extracted := by
    rw [hbatch]
    exact List.filter_sublist.trans (Node.dedup_sublist extracted)
  have hrecorded := (Source.areRecorded_of_nodes rfl hnested hextracted).sublist hsub
  refine landing_of_lands hrecorded hanswers hid hsuccess fun p hp haccepted node hnode => ?_
  have hmem := List.mem_of_getElem? hnode
  -- The batch was made of the nodes without pieces.
  have hwhole : node.pieces = none := by
    rw [hbatch] at hmem
    simpa [Node.inPieces] using (List.mem_filter.mp hmem).2
  obtain ⟨node', hnode', hrewrites⟩ := hanswers.rewrites p hp
  obtain rfl := Option.some.inj (hnode.symm.trans hnode')
  exact lands_of_isFirstOnLine (hrecorded.records node hmem) hwhole hrewrites
    (hfirst p hp haccepted node hnode)

/-- A page of two elements on one line; the text of the first one starts with that of the second
one. -/
def neighbours : List Char := "<p>Sign in now</p><p>Sign in</p>".toList

def neighbourTree : Tree :=
  .node ⟨"document", true, ⟨0, 32⟩⟩
    [.node ⟨"element", true, ⟨0, 18⟩⟩ [.node ⟨"text", true, ⟨3, 14⟩⟩ []],
      .node ⟨"element", true, ⟨18, 32⟩⟩ [.node ⟨"text", true, ⟨21, 28⟩⟩ []]]

def neighbourSource : Source := .ofContent "a.html" "a.html" neighbours 3

def neighbourNodes (weight : Float) : List Node :=
  [⟨.text, "Sign in now", "a.html", "a.html", ⟨1, 3⟩, ⟨1, 14⟩, [], [], weight, none,
      some "<p>Sign in now</p>"⟩,
    ⟨.text, "Sign in", "a.html", "a.html", ⟨1, 21⟩, ⟨1, 28⟩, [], [], weight, none,
      some "<p>Sign in</p>"⟩]

def neighbourBatch (weight : Float) : Batch :=
  ⟨"batch-001", "Sign in", "Log in", "", neighbourNodes weight, weight⟩

def neighbourProposals (weight : Float) (first second : Bool) : List Proposal :=
  [⟨0, none, none, "Sign in now", "Log in now", "", weight, first, .contentReplace, []⟩,
    ⟨1, none, none, "Sign in", "Log in", "", weight, second, .contentReplace, []⟩]

/-- An answer that accepts the rewrites of either text or not. -/
def neighbourResult (weight : Float) (first second : Bool) : Batch.Result :=
  ⟨"batch-001", neighbourProposals weight first second, true, none, 2, 1, "", weight⟩

def neighbourDisk : Disk :=
  { entries := [(["a.html"], .file (String.ofList neighbours).toUTF8)] }

theorem text_neighbourDisk : neighbourDisk.textAt "a.html" = .ok (String.ofList neighbours) :=
  Disk.textAt_name (by decide) (by decide) rfl

/-- The rewrite of the second text. -/
def neighbourEdit (weight : Float) : PlannedEdit :=
  ⟨"batch-001", ⟨.text, "Sign in", "a.html", "a.html", ⟨1, 21⟩, ⟨1, 28⟩, [], [], weight, none,
      some "<p>Sign in</p>"⟩,
    ⟨1, none, none, "Sign in", "Log in", "", weight, true, .contentReplace, []⟩⟩

theorem nodes_neighbours :
    neighbourSource.nodes {} "Sign in".toList (some ⟨neighbourTree, false⟩) =
      .ok (neighbourNodes Node.Kind.text.relevance) := by
  -- Both elements hold the phrase, so each is a node of its own.
  have hunits : TextUnit.ofTree neighbours [] neighbourTree =
      [⟨.text, "Sign in now".toList, ⟨3, 14⟩, some ⟨0, 18⟩⟩,
        ⟨.text, "Sign in".toList, ⟨21, 28⟩, some ⟨18, 32⟩⟩] := by
    simp [neighbourTree, TextUnit.ofTree, TextUnit.ofTrees, TextUnit.isText, TextUnit.isString,
      TextUnit.isSkipped]
    cbv
  have hwhole : (TextUnit.ofTree neighbourSource.content [] neighbourTree).filter
      (Source.holds (lowercase (collapse "Sign in".toList))) =
        [⟨.text, "Sign in now".toList, ⟨3, 14⟩, some ⟨0, 18⟩⟩,
          ⟨.text, "Sign in".toList, ⟨21, 28⟩, some ⟨18, 32⟩⟩] := by
    rw [show neighbourSource.content = neighbours from rfl, hunits]
    cbv
  have hnodes : ∀ weight, (do
      let first ← neighbourSource.nodeAt .text "Sign in now".toList ⟨3, 14⟩ weight none
        (some ⟨0, 18⟩)
      let second ← neighbourSource.nodeAt .text "Sign in".toList ⟨21, 28⟩ weight none
        (some ⟨18, 32⟩)
      return [first, second]) = .ok (neighbourNodes weight) := by
    intro weight
    cbv
  have hphrase : lowercase (collapse "Sign in".toList) ≠ [] := by decide
  show neighbourSource.treeNodes {} "Sign in".toList ⟨neighbourTree, false⟩ = _
  rw [Source.treeNodes_of_whole hphrase hwhole]
  exact hnodes Node.Kind.text.relevance

theorem isNested_neighbourTree : neighbourTree.isNested = true := by decide

theorem dedup_neighbourNodes (weight : Float) :
    (neighbourBatch weight).nodes =
      (Node.dedup (neighbourNodes weight)).filter fun node => !node.inPieces := by
  cbv

theorem answers_neighbours (weight : Float) (first second : Bool) :
    Answers (neighbourBatch weight).nodes (neighbourResult weight first second).proposals := by
  refine ⟨?_, fun p hp => ?_⟩
  · show [0, 1].Nodup
    decide
  obtain rfl | hp := List.mem_cons.mp hp
  · exact ⟨_, rfl, ⟨rfl, rfl⟩, rfl, by simp, nofun⟩
  · obtain rfl := List.mem_singleton.mp hp
    exact ⟨_, rfl, ⟨rfl, rfl⟩, rfl, by simp, nofun⟩

/-- The first text can be rewritten on its own. -/
theorem landing_on_first_neighbour :
    ∃ after, Landing neighbourSource (neighbourBatch Node.Kind.text.relevance)
      (neighbourResult Node.Kind.text.relevance true false) .direct after := by
  have hfirst : ∀ weight : Float, ∀ p ∈ (neighbourResult weight true false).proposals,
      p.accepted = true → ∀ node, (neighbourBatch weight).nodes[p.nodeIndex]? = some node →
        IsFirstOnLine neighbours node := by
    intro weight p hp haccepted node hnode
    obtain rfl | hp := List.mem_cons.mp hp
    · obtain rfl := Option.some.inj hnode
      unfold IsFirstOnLine
      cbv
    · obtain rfl := List.mem_singleton.mp hp
      cases haccepted
  exact landing_of_isFirstOnLine
    (fun p hp => by obtain rfl := Option.some.inj hp; exact isNested_neighbourTree)
    nodes_neighbours (dedup_neighbourNodes _) (answers_neighbours _ true false) rfl rfl (hfirst _)

/-- The second text cannot: its rewrite is made in the first one, though that one was to stay. -/
theorem rewrite_in_other_node :
    neighbourSource.nodes {} "Sign in".toList (some ⟨neighbourTree, false⟩) =
        .ok (neighbourNodes Node.Kind.text.relevance) ∧
      neighbourTree.isNested = true ∧
      (neighbourBatch Node.Kind.text.relevance).nodes =
        (Node.dedup (neighbourNodes Node.Kind.text.relevance)).filter (fun node => !node.inPieces) ∧
      Answers (neighbourBatch Node.Kind.text.relevance).nodes
        (neighbourProposals Node.Kind.text.relevance false true) ∧
      neighbourDisk.textAt "a.html" = .ok (String.ofList neighbours) ∧
      ∃ patch disk', (Patch.apply ⟨true, false⟩ [neighbourBatch Node.Kind.text.relevance]
          [neighbourResult Node.Kind.text.relevance false true]).run.run neighbourDisk =
            (.ok patch, disk') ∧
        patch.failures = [] ∧
        disk'.textAt "a.html" = .ok "<p>Log in now</p><p>Sign in</p>" ∧
        ¬Replaced 0 (editsOn neighbours (chosen (neighbourNodes Node.Kind.text.relevance)
            (neighbourProposals Node.Kind.text.relevance false true))) neighbours
          "<p>Log in now</p><p>Sign in</p>".toList := by
  have hnested : ∀ p ∈ some (Parsed.mk neighbourTree false), p.tree.isNested = true := by
    intro p hp
    obtain rfl := Option.some.inj hp
    exact isNested_neighbourTree
  have hrecorded := Source.areRecorded_of_nodes rfl hnested nodes_neighbours
  have hanswers := answers_neighbours Node.Kind.text.relevance false true
  refine ⟨nodes_neighbours, isNested_neighbourTree, dedup_neighbourNodes _, hanswers,
    text_neighbourDisk, ?_⟩
  -- The answer keeps the first node and changes the second, so there is one edit.
  have hplans := plans_of_answers hrecorded hanswers rfl rfl
  generalize Node.Kind.text.relevance = weight at hanswers hplans ⊢
  have hedits : editsOfChoices (neighbourBatch weight).id (chosen (neighbourBatch weight).nodes
      (neighbourProposals weight false true)) = [neighbourEdit weight] := by
    cbv
  have hplan : plans [neighbourBatch weight] [neighbourResult weight false true] =
      [⟨"a.html", [neighbourEdit weight]⟩] := by
    rw [hplans, show (neighbourResult weight false true).proposals =
      neighbourProposals weight false true from rfl, hedits]
    rfl
  have hmade : MadeInTurn .direct neighbours ([] ++ [neighbourEdit weight])
      "<p>Log in now</p><p>Sign in</p>".toList :=
    .next (.none neighbours) ⟨⟨rfl, rfl⟩, rfl, by simp [neighbourEdit], nofun⟩ (by cbv)
  -- Put into the second node, the change gives another text.
  have hreplace : replaceAll? neighbours (editsOn neighbours (chosen (neighbourNodes weight)
      (neighbourProposals weight false true))) =
        some "<p>Sign in now</p><p>Log in</p>".toList := by
    cbv
  obtain ⟨patch, disk', hrun, htext, hexact⟩ :=
    run_apply_of_plan false hplan hmade text_neighbourDisk fun _ hlimit => by cases hlimit
  refine ⟨patch, disk', hrun, hexact.failures, htext, fun hreplaced => ?_⟩
  have hother := hreplaced.replaceAll? (show size [] = 0 from rfl) []
  rw [List.append_nil, List.nil_append, hreplace] at hother
  exact absurd (Option.some.inj hother) (by decide)

/-! ## Nodes of several pieces -/

/-- Rewrites of nodes in several pieces land on these pieces, and their words are dealt out to
them. -/
theorem landing_of_inPieces (hnested : ∀ p ∈ parsed, p.tree.isNested = true)
    (hextracted : (Source.ofContent file location content contextLines).nodes config phrase parsed =
      .ok extracted)
    (hbatch : batch.nodes.Sublist extracted)
    (hpieces : ∀ node ∈ batch.nodes, node.inPieces = true)
    (hanswers : Answers batch.nodes result.proposals) (hid : result.batchId = batch.id)
    (hsuccess : result.success = true) (hlimit : size content < Fault.wordLimit) :
    (∃ after, Landing (Source.ofContent file location content contextLines) batch result .fragments
      after) ∧
    ∀ p ∈ result.proposals, ∃ node pieces, batch.nodes[p.nodeIndex]? = some node ∧
      node.pieces = some pieces ∧
      IsDealt p.newContent.toList pieces (textsFor node (some p)) := by
  have hrecorded := (Source.areRecorded_of_nodes rfl hnested hextracted).sublist hbatch
  refine ⟨landing_of_lands hrecorded hanswers hid hsuccess fun p hp _ node hnode => ?_,
    fun p hp => ?_⟩
  · have hmem := List.mem_of_getElem? hnode
    obtain ⟨pieces, hnodePieces⟩ := Option.isSome_iff_exists.mp (hpieces node hmem)
    obtain ⟨node', hnode', hrewrites⟩ := hanswers.rewrites p hp
    obtain rfl := Option.some.inj (hnode.symm.trans hnode')
    exact lands_of_pieces (hrecorded.records node hmem) hnodePieces hrewrites hlimit
  · obtain ⟨node, hnode, -⟩ := hanswers.rewrites p hp
    have hmem := List.mem_of_getElem? hnode
    obtain ⟨pieces, hnodePieces⟩ := Option.isSome_iff_exists.mp (hpieces node hmem)
    obtain ⟨⟨first, rest, hne, -⟩, hall⟩ :=
      (hrecorded.records node hmem).pieces pieces hnodePieces
    refine ⟨node, pieces, hnode, hnodePieces, ?_⟩
    unfold textsFor
    rw [hnodePieces]
    exact isDealt_deal (by rw [hne]; exact List.cons_ne_nil _ _) hall _

/-- A page of one element with a word in bold. -/
def bold : List Char := "<p>Sign <b>in</b> now</p>".toList

def boldTree : Tree :=
  .node ⟨"document", true, ⟨0, 25⟩⟩
    [.node ⟨"element", true, ⟨0, 25⟩⟩
      [.node ⟨"text", true, ⟨3, 7⟩⟩ [],
        .node ⟨"element", true, ⟨8, 17⟩⟩ [.node ⟨"text", true, ⟨11, 13⟩⟩ []],
        .node ⟨"text", true, ⟨18, 21⟩⟩ []]]

def boldUnits : List TextUnit :=
  [⟨.text, "Sign".toList, ⟨3, 7⟩, some ⟨0, 25⟩⟩, ⟨.text, "in".toList, ⟨11, 13⟩, some ⟨8, 17⟩⟩,
    ⟨.text, "now".toList, ⟨18, 21⟩, some ⟨0, 25⟩⟩]

def boldSource : Source := .ofContent "a.html" "a.html" bold 3

def boldNodes (weight : Float) : List Node :=
  [⟨.fragmented, "Sign in now", "a.html", "a.html", ⟨1, 3⟩, ⟨1, 21⟩, [], [], weight,
    some [⟨"Sign", ⟨1, 3⟩, ⟨1, 7⟩, 1⟩, ⟨"in", ⟨1, 11⟩, ⟨1, 13⟩, 1⟩, ⟨"now", ⟨1, 18⟩, ⟨1, 21⟩, 1⟩],
    some "<p>Sign <b>in</b> now</p>"⟩]

/-- How much the bold page's node is trusted. -/
def boldWeight : Float := Node.Kind.fragmented.relevance * Phrase.share 3 3

def boldBatch : Batch :=
  ⟨"batch-001", "Sign in now", "Log in", "", boldNodes boldWeight, boldWeight⟩

def boldResult : Batch.Result :=
  ⟨"batch-001",
    [⟨0, none, none, "Sign in now", "Log into it right now", "", boldWeight, true, .unspecified,
      []⟩],
    true, none, 1, 1, "", boldWeight⟩

theorem nodes_bold : boldSource.nodes {} "Sign in now".toList (some ⟨boldTree, false⟩) =
    .ok boldBatch.nodes := by
  have hunits : TextUnit.ofTree boldSource.content [] boldTree = boldUnits := by
    show TextUnit.ofTree bold [] boldTree = boldUnits
    simp [boldTree, TextUnit.ofTree, TextUnit.ofTrees, TextUnit.isText, TextUnit.isString,
      TextUnit.isSkipped]
    cbv
  have hwhole : boldUnits.filter
      (Source.holds (lowercase (collapse "Sign in now".toList))) = [] := by cbv
  -- The share is a float, so the search is opened by hand up to where it is compared.
  have hfind : Phrase.Fragments.find ["sign".toList, "in".toList, "now".toList] 5 0.6
      [["sign".toList], ["in".toList], ["now".toList]] = [⟨[0, 1, 2], 3⟩] := by
    have hfrom : Phrase.Fragments.from? 0 ["sign".toList, "in".toList, "now".toList]
        ([["sign".toList], ["in".toList], ["now".toList]].take 5) = some ⟨[0, 1, 2], 3⟩ := by
      cbv
    have henough : Phrase.Fragments.isEnough 0.6
        ["sign".toList, "in".toList, "now".toList].length ⟨[0, 1, 2], 3⟩ = true := by decide
    unfold Phrase.Fragments.find
    rw [if_neg (by decide), Phrase.Fragments.findFrom, if_neg (by decide), hfrom,
      Option.filter_some, if_pos henough]
    rfl
  have hparts : Source.fragmentsOf {} "Sign in now".toList boldUnits =
      [(boldUnits, Phrase.share 3 3)] := by
    have hphrase : Phrase.words "Sign in now".toList =
        ["sign".toList, "in".toList, "now".toList] := by cbv
    have hwords : (boldUnits.map fun unit => Phrase.words unit.text) =
        [["sign".toList], ["in".toList], ["now".toList]] := by cbv
    unfold Source.fragmentsOf
    dsimp only
    rw [hphrase, hwords, hfind]
    rfl
  have hnodes : ∀ weight, (do
      let node ← boldSource.nodeAt .fragmented "Sign in now".toList ⟨3, 21⟩ weight
        (some (boldUnits.map boldSource.pieceOfUnit)) (some ⟨0, 25⟩)
      return [node]) = .ok (boldNodes weight) := by
    intro weight
    cbv
  have hphrase : lowercase (collapse "Sign in now".toList) ≠ [] := by decide
  show boldSource.treeNodes {} "Sign in now".toList ⟨boldTree, false⟩ = _
  rw [Source.treeNodes_of_parts hphrase (hunits.symm ▸ hwhole) (hunits.symm ▸ hparts)]
  exact hnodes boldWeight

/-- Five words for three pieces. -/
theorem landing_on_bold :
    (∃ after, Landing boldSource boldBatch boldResult .fragments after) ∧
      ∀ p ∈ boldResult.proposals, ∃ node pieces, boldBatch.nodes[p.nodeIndex]? = some node ∧
        node.pieces = some pieces ∧
        IsDealt p.newContent.toList pieces (textsFor node (some p)) := by
  have hanswers : Answers boldBatch.nodes boldResult.proposals := by
    refine ⟨?_, fun p hp => ?_⟩
    · show [0].Nodup
      decide
    obtain rfl := List.mem_singleton.mp hp
    exact ⟨_, rfl, ⟨rfl, rfl⟩, rfl, by simp, nofun⟩
  have hpieces : ∀ node ∈ boldBatch.nodes, node.inPieces = true := by
    intro node hnode
    obtain rfl := List.mem_singleton.mp hnode
    rfl
  exact landing_of_inPieces
    (fun p hp => by obtain rfl := Option.some.inj hp; decide)
    nodes_bold (List.Sublist.refl _) hpieces hanswers rfl rfl (by decide)

end Patch

end Rephrase
