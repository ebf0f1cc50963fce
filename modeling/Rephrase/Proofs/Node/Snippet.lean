import Rephrase.Proofs.Edit.Choice
import Rephrase.Proofs.Node.Invariant
import Rephrase.Proofs.Tree.Enclosing

/-! The source that is shown with a node is part of its file, and one copy of it is always there to
be replaced. It is the node's own copy just if no other one starts nearer to the node's text. -/

namespace Rephrase

open Text

namespace Source

/-- Whether a stretch of a file is what is shown with a node: the node is made of a unit, or of
several that have the phrase together, and the stretch is shown with these. -/
inductive IsShown (source : Source) (config : Config) (phrase : List Char) (parsed : Parsed)
    (node : Node) (span : Span) : Prop
  | unit (unit : TextUnit) (hunit : unit ∈ TextUnit.ofTree source.content [] parsed.tree)
      (hshown : unit.shown = some span) (hnode : source.nodeOfUnit unit = .ok node)
  | units (units : List TextUnit) (coverage : Float)
      (hunits : (units, coverage) ∈
        fragmentsOf config phrase (TextUnit.ofTree source.content [] parsed.tree))
      (hshown : parsed.tree.commonSource? (stretchOf units) = some span)
      (hnode : source.nodeOfUnits parsed.tree units coverage = .ok node)

theorem snippet_of_nodeAt {source : Source} {kind : Node.Kind} {text : List Char} {span : Span}
    {relevance : Float} {pieces : Option (List Piece)} {shown : Option Span} {node : Node}
    (h : source.nodeAt kind text span relevance pieces shown = .ok node) :
    node.snippet = shown.bind source.sliceAt? := by
  obtain ⟨around, -, hnode⟩ := bind_eq_ok.mp h
  cases hnode
  rfl

/-- Several units reach from the start of the first to the end of the last one. -/
theorem isWithin_stretchOf {units : List TextUnit} {start stop : Nat} (hunits : units ≠ [])
    (h : Ascend start stop (units.map (·.span))) :
    (stretchOf units).start < (stretchOf units).stop ∧
      (stretchOf units).IsWithin ⟨start, stop⟩ := by
  obtain ⟨first, rest, rfl⟩ := List.exists_cons_of_ne_nil hunits
  obtain ⟨last, hlast, hmem⟩ : ∃ last, (first :: rest).getLast? = some last ∧
      last ∈ first :: rest :=
    ⟨_, List.getLast?_eq_some_getLast hunits, List.getLast_mem hunits⟩
  have hspan : last.span ∈ (first :: rest).map (·.span) := List.mem_map_of_mem hmem
  have hfrom : Ascend first.span.start stop ((first :: rest).map (·.span)) :=
    ⟨Nat.le_refl _, h.2⟩
  have hle := hfrom.start_le_of_mem hspan
  have hlt := hfrom.lt_of_mem hspan
  have hstop := hfrom.stop_le_of_mem hspan
  rw [stretchOf, List.head?_cons, hlast]
  exact ⟨Nat.lt_of_le_of_lt hle hlt, h.1, hstop⟩

section

variable {source : Source} {config : Config} {phrase : List Char} {parsed : Parsed}
  {nodes : List Node} {node : Node} {span : Span} {snippet : String}

theorem IsShown.snippet_eq (h : source.IsShown config phrase parsed node span) :
    node.snippet = source.sliceAt? span := by
  cases h with
  | unit unit hunit hshown hnode => rw [snippet_of_nodeAt hnode, hshown, Option.bind_some]
  | units units coverage hunits hshown hnode =>
    rw [snippet_of_nodeAt hnode, hshown, Option.bind_some]

theorem IsShown.slice (h : source.IsShown config phrase parsed node span)
    (hsnippet : node.snippet = some snippet) :
    slice? source.content span.start span.stop = some snippet.toList := by
  rw [h.snippet_eq] at hsnippet
  obtain ⟨text, htext, rfl⟩ := Option.map_eq_some_iff.mp hsnippet
  rw [htext, String.toList_ofList]

/-- Text is shown with a node, that of the units it is made of at least. -/
theorem IsShown.exists_isWithin (hnested : parsed.tree.isNested = true)
    (h : source.IsShown config phrase parsed node span) :
    ∃ inner : Span, inner.start < inner.stop ∧ inner.IsWithin span := by
  obtain ⟨hstands, hascend⟩ := TextUnit.areLaid_ofTree source.content [] parsed.tree hnested
  cases h with
  | unit unit hunit hshown hnode =>
    obtain ⟨hwithin, -⟩ :=
      TextUnit.isShownAround_of_mem_ofTree parsed.tree [] hnested nofun hunit span hshown
    exact ⟨unit.span, (hstands unit hunit).start_lt_stop, hwithin⟩
  | units units coverage hunits hshown hnode =>
    obtain ⟨-, hsub⟩ := of_mem_fragmentsOf hunits
    obtain ⟨hlt, hwithin⟩ :=
      isWithin_stretchOf (ne_nil_of_mem_fragmentsOf hunits) (hascend.sublist (hsub.map _))
    exact ⟨stretchOf units, hlt, (Tree.isWithin_of_commonSource? hwithin hshown).1⟩

theorem IsShown.snippet_ne_nil (hnested : parsed.tree.isNested = true)
    (h : source.IsShown config phrase parsed node span) (hsnippet : node.snippet = some snippet) :
    snippet.toList ≠ [] := by
  obtain ⟨inner, hinner, hwithin⟩ := h.exists_isWithin hnested
  exact hwithin.ne_nil hinner (h.slice hsnippet)

/-- What a pattern finds is shown without its source. -/
theorem snippet_of_patternNodes (h : source.patternNodes phrase = .ok nodes) :
    ∀ node ∈ nodes, node.snippet = none := by
  intro node hnode
  obtain ⟨span, -, hresult⟩ := exists_of_mem_mapM h hnode
  split at hresult
  · exact snippet_of_nodeAt hresult
  · cases hresult

theorem exists_isShown (h : source.treeNodes config phrase parsed = .ok nodes) (hnode : node ∈ nodes)
    (hsnippet : node.snippet = some snippet) :
    ∃ span, source.IsShown config phrase parsed node span := by
  obtain rfl | ⟨-, h | ⟨-, h⟩ | h⟩ := of_treeNodes h
  · exact absurd hnode List.not_mem_nil
  · obtain ⟨unit, hunit, hresult⟩ := exists_of_mem_mapM h hnode
    have hshown := snippet_of_nodeAt hresult
    rw [hsnippet] at hshown
    obtain ⟨span, hspan, -⟩ := Option.bind_eq_some_iff.mp hshown.symm
    exact ⟨span, .unit unit (List.mem_filter.mp hunit).1 hspan hresult⟩
  · rw [snippet_of_patternNodes h node hnode] at hsnippet
    cases hsnippet
  · obtain ⟨⟨units, coverage⟩, hunits, hresult⟩ := exists_of_mem_mapM h hnode
    have hshown := snippet_of_nodeAt hresult
    rw [hsnippet] at hshown
    obtain ⟨span, hspan, -⟩ := Option.bind_eq_some_iff.mp hshown.symm
    exact ⟨span, .units units coverage hunits hspan hresult⟩

end

/-! ## Which copy is replaced -/

/-- One copy of the source that is shown with a node is replaced, and it is the one that was shown
just if this is taken for the node's line. -/
theorem replaceNearest?_snippet {file location : String} {content : List Char} {contextLines : Nat}
    {config : Config} {phrase : List Char} {parsed : Parsed} {nodes : List Node} {node : Node}
    {snippet : String} (hnested : parsed.tree.isNested = true)
    (hnodes : (ofContent file location content contextLines).nodes config phrase (some parsed) =
      .ok nodes)
    (hnode : node ∈ nodes) (hsnippet : node.snippet = some snippet) :
    (∃ span, (ofContent file location content contextLines).IsShown config phrase parsed node
        span) ∧
      (∀ wanted, ∃ front back, content = front ++ snippet.toList ++ back ∧
        Edit.replaceNearest? content snippet.toList wanted node.start.line =
          some (front ++ wanted ++ back)) ∧
      ∀ span, (ofContent file location content contextLines).IsShown config phrase parsed node
          span →
        ∃ front back, content = front ++ snippet.toList ++ back ∧ size front = span.start ∧
          size front + size snippet.toList = span.stop ∧
          ((∀ wanted, Edit.replaceNearest? content snippet.toList wanted node.start.line =
              some (front ++ wanted ++ back)) ↔
            Edit.IsTaken (occurrences snippet.toList content) node.start.line span.start) := by
  obtain ⟨shown, hshown⟩ := exists_isShown hnodes hnode hsnippet
  have hold := hshown.snippet_ne_nil hnested hsnippet
  refine ⟨⟨shown, hshown⟩, ?_, fun span hspan => ?_⟩
  · obtain ⟨front, back, hsplit, -, -⟩ := of_slice? (hshown.slice hsnippet)
    exact fun wanted => Edit.exists_replaceNearest? hold ⟨front, back, hsplit.symm⟩ wanted _
  · obtain ⟨front, back, hsplit, hstart, hstop⟩ := of_slice? (hspan.slice hsnippet)
    change content = _ at hsplit
    refine ⟨front, back, hsplit, hstart, hstop, ?_⟩
    rw [hsplit, ← hstart]
    exact Edit.replaceNearest?_eq_iff hold node.start.line

/-- Two paragraphs that are alike, with a blank line in front of the text of each. -/
def paragraphs : List Char := "<p>\n\nSign in</p>\n<p>\n\nSign in</p>".toList

def paragraphTree : Tree :=
  .node ⟨"document", true, ⟨0, 33⟩⟩
    [.node ⟨"element", true, ⟨0, 16⟩⟩ [.node ⟨"text", true, ⟨5, 12⟩⟩ []],
      .node ⟨"element", true, ⟨17, 33⟩⟩ [.node ⟨"text", true, ⟨22, 29⟩⟩ []]]

def paragraphSource : Source := .ofContent "a.html" "a.html" paragraphs 3

def paragraphUnits : List TextUnit :=
  [⟨.text, "Sign in".toList, ⟨5, 12⟩, some ⟨0, 16⟩⟩,
    ⟨.text, "Sign in".toList, ⟨22, 29⟩, some ⟨17, 33⟩⟩]

def upperNode (weight : Float) : Node :=
  ⟨.text, "Sign in", "a.html", "a.html", ⟨3, 0⟩, ⟨3, 7⟩, ["<p>", ""], ["<p>", "", "Sign in</p>"],
    weight, none, some "<p>\n\nSign in</p>"⟩

def lowerNode (weight : Float) : Node :=
  ⟨.text, "Sign in", "a.html", "a.html", ⟨6, 0⟩, ⟨6, 7⟩, ["Sign in</p>", "<p>", ""], [], weight,
    none, some "<p>\n\nSign in</p>"⟩

theorem ofTree_paragraphTree : TextUnit.ofTree paragraphs [] paragraphTree = paragraphUnits := by
  simp [paragraphTree, TextUnit.ofTree, TextUnit.ofTrees, TextUnit.isText, TextUnit.isString,
    TextUnit.isSkipped]
  cbv

theorem nodeAt_upper (weight : Float) :
    paragraphSource.nodeAt .text "Sign in".toList ⟨5, 12⟩ weight none (some ⟨0, 16⟩) =
      .ok (upperNode weight) := by
  cbv

theorem nodeAt_lower (weight : Float) :
    paragraphSource.nodeAt .text "Sign in".toList ⟨22, 29⟩ weight none (some ⟨17, 33⟩) =
      .ok (lowerNode weight) := by
  cbv

theorem nodes_paragraphs :
    paragraphSource.nodes {} "Sign in".toList (some ⟨paragraphTree, false⟩) =
      .ok [upperNode Node.Kind.text.relevance, lowerNode Node.Kind.text.relevance] := by
  have hwhole : (TextUnit.ofTree paragraphSource.content [] paragraphTree).filter
      (holds (lowercase (collapse "Sign in".toList))) = paragraphUnits := by
    rw [show paragraphSource.content = paragraphs from rfl, ofTree_paragraphTree]
    cbv
  have hphrase : lowercase (collapse "Sign in".toList) ≠ [] := by decide
  show paragraphSource.treeNodes {} "Sign in".toList ⟨paragraphTree, false⟩ = _
  rw [treeNodes_of_whole hphrase hwhole]
  show (do
    let upper ← paragraphSource.nodeAt .text "Sign in".toList ⟨5, 12⟩ Node.Kind.text.relevance none
      (some ⟨0, 16⟩)
    let lower ← paragraphSource.nodeAt .text "Sign in".toList ⟨22, 29⟩ Node.Kind.text.relevance
      none (some ⟨17, 33⟩)
    return [upper, lower]) = _
  rw [nodeAt_upper, nodeAt_lower]
  rfl

theorem isShown_upper : paragraphSource.IsShown {} "Sign in".toList ⟨paragraphTree, false⟩
    (upperNode Node.Kind.text.relevance) ⟨0, 16⟩ := by
  refine .unit ⟨.text, "Sign in".toList, ⟨5, 12⟩, some ⟨0, 16⟩⟩ ?_ rfl (nodeAt_upper _)
  show _ ∈ TextUnit.ofTree paragraphs [] paragraphTree
  rw [ofTree_paragraphTree]
  exact List.mem_cons_self

theorem isShown_lower : paragraphSource.IsShown {} "Sign in".toList ⟨paragraphTree, false⟩
    (lowerNode Node.Kind.text.relevance) ⟨17, 33⟩ := by
  refine .unit ⟨.text, "Sign in".toList, ⟨22, 29⟩, some ⟨17, 33⟩⟩ ?_ rfl (nodeAt_lower _)
  show _ ∈ TextUnit.ofTree paragraphs [] paragraphTree
  rw [ofTree_paragraphTree]
  exact List.mem_cons_of_mem _ List.mem_cons_self

/-- The lower paragraph is replaced where it stands. -/
theorem replaceNearest?_lower_paragraph : ∃ upper lower,
    paragraphSource.nodes {} "Sign in".toList (some ⟨paragraphTree, false⟩) = .ok [upper, lower] ∧
    lower.snippet = some "<p>\n\nSign in</p>" ∧
    ∀ wanted, Edit.replaceNearest? paragraphs "<p>\n\nSign in</p>".toList wanted
      lower.start.line = some ("<p>\n\nSign in</p>\n".toList ++ wanted) := by
  refine ⟨_, _, nodes_paragraphs, rfl, fun wanted => ?_⟩
  obtain ⟨-, -, hcopy⟩ := replaceNearest?_snippet (by decide) nodes_paragraphs
    (List.mem_cons_of_mem _ List.mem_cons_self) rfl
  obtain ⟨front, back, hsplit, hstart, -, htaken⟩ := hcopy _ isShown_lower
  have hfront := append_inj_of_size (a := "<p>\n\nSign in</p>\n".toList)
    (b := "<p>\n\nSign in</p>".toList) (hsplit.trans (List.append_assoc _ _ _)) hstart.symm
  obtain ⟨rfl, hback⟩ := hfront
  obtain rfl : back = [] := by simpa using hback
  rw [htaken.mpr (by decide) wanted, List.append_nil]

/-- The lower paragraph starts nearer to the text of the upper one than this does itself. -/
theorem replaceNearest?_other_paragraph : ∃ upper lower,
    paragraphTree.isNested = true ∧
    paragraphSource.nodes {} "Sign in".toList (some ⟨paragraphTree, false⟩) = .ok [upper, lower] ∧
    paragraphSource.IsShown {} "Sign in".toList ⟨paragraphTree, false⟩ upper ⟨0, 16⟩ ∧
    upper.snippet = some "<p>\n\nSign in</p>" ∧
    Edit.replaceNearest? paragraphs "<p>\n\nSign in</p>".toList "<p>Log in</p>".toList
        upper.start.line = some "<p>\n\nSign in</p>\n<p>Log in</p>".toList ∧
    splice? paragraphs 0 16 "<p>Log in</p>".toList =
      some "<p>Log in</p>\n<p>\n\nSign in</p>".toList :=
  ⟨_, _, by decide, nodes_paragraphs, isShown_upper, rfl, by decide, by decide⟩

end Source

end Rephrase
