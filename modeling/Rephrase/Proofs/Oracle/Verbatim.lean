import Rephrase.Oracle.Consultation
import Rephrase.Proofs.Disk.Access
import Rephrase.Proofs.Node.Snippet
import Rephrase.Proofs.Text.Window

/-! What is sent with a node is never empty, and it is part of the node's file as this stands, so
that a proposal which repeats it is applied to just that. Only carriage returns at the end of lines
can be missing from it, where it was not taken from a tree. -/

namespace Rephrase

open Text

/-- A node ends behind a character that breaks no line. -/
def Node.EndsIn (content : List Char) (node : Node) : Prop :=
  ∃ start text c, Holds content start node.stop (text ++ [c]) ∧ KeepsLine c

theorem Node.EndsIn.window_ne_nil {content text : List Char} {skip : Nat}
    {window : List (List Char)} {node : Node} (h : node.EndsIn content)
    (hwindow : IsWindow content skip window text) (hskip : skip < node.stop.line)
    (hlast : node.stop.line ≤ skip + window.length) : text ≠ [] := by
  obtain ⟨start, before, c, ⟨front, back, rfl, -, hstop⟩, hc⟩ := h
  -- The character stands on the line that the node ends on.
  have hline : (positionBehind (front ++ before)).line = node.stop.line := by
    rw [hstop, ← List.append_assoc, positionBehind_append _ [c], Position.behind_cons,
      Position.next, if_neg hc.1]
    rfl
  rw [← List.append_assoc, List.append_assoc _ [c], List.singleton_append] at hwindow
  rw [← hline] at hskip hlast
  exact List.ne_nil_of_mem (hwindow.mem hc hskip hlast)

namespace Source

section

variable {source : Source} (hindex : source.index = .ofText source.content) {nodes : List Node}
include hindex

theorem endsIn_of_slice? {span : Span} {front : List Char} {c : Char} {node : Node}
    (hslice : slice? source.content span.start span.stop = some (front ++ [c]))
    (hc : KeepsLine c) (hstop : node.stop = source.index.position span.stop) :
    node.EndsIn source.content := by
  have hholds := holds_of_slice? hslice
  rw [← hindex, ← hstop] at hholds
  exact ⟨_, front, c, hholds, hc⟩

theorem endsIn_of_stands {unit : TextUnit} {node : Node} (h : unit.Stands source.content)
    (hstop : node.stop = source.index.position unit.span.stop) : node.EndsIn source.content := by
  obtain ⟨front, c, htext, hc⟩ := exists_of_solid h.solid
  exact endsIn_of_slice? hindex (htext ▸ h.slice) hc hstop

theorem endsIn_of_patternNodes {phrase : List Char} (h : source.patternNodes phrase = .ok nodes) :
    ∀ node ∈ nodes, node.EndsIn source.content := by
  intro node hnode
  obtain ⟨span, hspan, hresult⟩ := exists_of_mem_mapM h hnode
  obtain ⟨text, c, hslice, hc⟩ := Phrase.slice?_of_mem_find hspan
  rw [hslice] at hresult
  obtain ⟨-, -, -, hstop, -⟩ := of_nodeAt hresult
  exact endsIn_of_slice? hindex hslice hc hstop

theorem endsIn_of_treeNodes {config : Config} {phrase : List Char} {parsed : Parsed}
    (hnested : parsed.tree.isNested = true)
    (h : source.treeNodes config phrase parsed = .ok nodes) :
    ∀ node ∈ nodes, node.EndsIn source.content := by
  obtain ⟨hstands, -⟩ := TextUnit.areLaid_ofTree source.content [] parsed.tree hnested
  obtain rfl | ⟨-, h | ⟨-, h⟩ | h⟩ := of_treeNodes h
  · nofun
  · intro node hnode
    obtain ⟨unit, hunit, hresult⟩ := exists_of_mem_mapM h hnode
    obtain ⟨-, -, -, hstop, -⟩ := of_nodeAt hresult
    exact endsIn_of_stands hindex (hstands unit (List.mem_filter.mp hunit).1) hstop
  · exact endsIn_of_patternNodes hindex h
  -- A node of several units ends where the last of them does.
  · intro node hnode
    obtain ⟨⟨units, coverage⟩, hpart, hresult⟩ := exists_of_mem_mapM h hnode
    obtain ⟨-, hsub⟩ := of_mem_fragmentsOf hpart
    have hnil := ne_nil_of_mem_fragmentsOf hpart
    obtain ⟨-, -, -, hstop, -⟩ := of_nodeAt hresult
    obtain ⟨first, rest, rfl⟩ := List.exists_cons_of_ne_nil hnil
    rw [stretchOf, List.head?_cons, List.getLast?_eq_some_getLast hnil] at hstop
    exact endsIn_of_stands hindex (hstands _ (hsub.mem (List.getLast_mem hnil))) hstop

theorem endsIn_of_nodes {config : Config} {phrase : List Char} {parsed : Option Parsed}
    (hnested : ∀ p ∈ parsed, p.tree.isNested = true)
    (h : source.nodes config phrase parsed = .ok nodes) :
    ∀ node ∈ nodes, node.EndsIn source.content := by
  cases parsed with
  | none => exact endsIn_of_patternNodes hindex h
  | some p => exact endsIn_of_treeNodes hindex (hnested p rfl) h

end

end Source

namespace Oracle

/-- Whether all that was read of a file before is a content. -/
def Sources.AreOf (sources : Sources) (location : String) (content : List Char) : Prop :=
  ∀ known ∈ sources, Path.same known.1 location = true → known.2 = some content

theorem Sources.areOf_nil (location : String) (content : List Char) :
    Sources.AreOf [] location content :=
  nofun

theorem read_of_areOf {disk : Disk} {location : String} {content : List Char} {sources : Sources}
    (htext : disk.textAt location = .ok (String.ofList content))
    (hsources : sources.AreOf location content) :
    (Sources.read disk location sources).1 = some content := by
  unfold Sources.read
  split
  · rename_i known hknown
    have hsame := List.find?_some hknown
    exact hsources known (List.mem_of_find?_eq_some hknown) hsame
  · rw [htext]
    show some (String.ofList content).toList = some content
    rw [String.toList_ofList]

theorem snippetOf_of_none {disk : Disk} {node : Node} {content : List Char} {sources : Sources}
    (htext : disk.textAt node.location = .ok (String.ofList content))
    (hsources : sources.AreOf node.location content) (hnone : node.snippet = none) :
    (snippetOf disk node sources).1 = String.ofList (excerpt content node.start.line
      node.stop.line (Language.ofPath node.file).usesTags) := by
  rcases hrun : Sources.read disk node.location sources with ⟨read, later⟩
  have hread := read_of_areOf htext hsources
  rw [hrun] at hread
  obtain rfl : read = some content := hread
  unfold snippetOf
  rw [hnone]
  dsimp only [bind, StateT.bind]
  rw [hrun]
  rfl

theorem snippetOf_of_some {disk : Disk} {node : Node} {snippet : String} {sources : Sources}
    (hsome : node.snippet = some snippet) : (snippetOf disk node sources).1 = snippet := by
  unfold snippetOf
  rw [hsome]
  rfl

end Oracle

/-- A proposal that repeats a part of a text is applied to just that part. -/
theorem Edit.apply_of_infix {content : List Char} {old wanted : String} {node : Node}
    {p : Proposal} (hne : old ≠ "") (hin : old.toList <:+: content)
    (hold : p.oldSnippet = some old) (hnew : p.newSnippet = some wanted) :
    ∃ front back, content = front ++ old.toList ++ back ∧
      replaceNearest? content old.toList wanted.toList node.start.line =
        some (front ++ wanted.toList ++ back) ∧
      apply content node p = .ok (some (front ++ wanted.toList ++ back, .snippet)) := by
  have hnil : old.toList ≠ [] := by simpa using hne
  obtain ⟨front, back, hsplit, hreplaced⟩ :=
    exists_replaceNearest? hnil hin wanted.toList node.start.line
  refine ⟨front, back, hsplit, hreplaced, ?_⟩
  refine apply_of_alone ?_ fun earlier hlt => absurd hlt (Nat.not_lt_zero _)
  rw [alone, hold, hnew]
  exact congrArg _ hreplaced

namespace Oracle

/-- What is sent with a node of a file that has not changed is not empty. If it was not taken from a
tree it is a window on the node's lines. It stands in the file as it is sent, unless the file breaks
lines with carriage returns, and a proposal that repeats it replaces one copy of it. -/
theorem verbatim_of_describe {file location : String} {content : List Char} {contextLines : Nat}
    {config : Config} {phrase : List Char} {parsed : Option Parsed} {nodes : List Node}
    {node : Node} {disk : Disk} {sources : Sources} (hnested : ∀ p ∈ parsed, p.tree.isNested = true)
    (hnodes : (Source.ofContent file location content contextLines).nodes config phrase parsed =
      .ok nodes)
    (hnode : node ∈ nodes) (htext : disk.textAt location = .ok (String.ofList content))
    (hsources : sources.AreOf location content) (index : Nat) :
    ∃ sent, (describe disk index node sources).1.snippet = sent ∧ sent ≠ "" ∧
      (node.snippet = none → ∃ skip window, IsWindow content skip window sent.toList ∧
        skip < node.start.line ∧ node.stop.line ≤ skip + window.length) ∧
      ((node.snippet = none → ¬['\r', '\n'] <:+: content) → sent.toList <:+: content ∧
        ∀ (p : Proposal) (wanted : String), p.oldSnippet = some sent →
          p.newSnippet = some wanted → ∃ front back, content = front ++ sent.toList ++ back ∧
            Edit.replaceNearest? content sent.toList wanted.toList node.start.line =
              some (front ++ wanted.toList ++ back) ∧
            Edit.apply content node p =
              .ok (some (front ++ wanted.toList ++ back, .snippet))) := by
  change ∃ sent, (snippetOf disk node sources).1 = sent ∧ _
  cases hsnippet : node.snippet with
  | some snippet =>
    cases parsed with
    | none =>
      rw [Source.snippet_of_patternNodes hnodes node hnode] at hsnippet
      cases hsnippet
    | some parsed =>
      obtain ⟨span, hspan⟩ := Source.exists_isShown hnodes hnode hsnippet
      have hne : snippet ≠ "" := by
        simpa using hspan.snippet_ne_nil (hnested parsed rfl) hsnippet
      obtain ⟨front, back, hsplit, -⟩ := of_slice? (hspan.slice hsnippet)
      have hwithin : snippet.toList <:+: content := ⟨front, back, hsplit.symm⟩
      refine ⟨snippet, snippetOf_of_some hsnippet, hne, nofun, fun _ => ⟨hwithin, ?_⟩⟩
      exact fun p wanted hold hnew => Edit.apply_of_infix hne hwithin hold hnew
  -- The window around the node is sent, joined by line feeds.
  | none =>
    obtain ⟨-, hlocation⟩ := Source.isIn_of_nodes hnodes node hnode
    have hlines := Source.isSound_of_mem_nodes hnested hnodes node hnode
    obtain ⟨skip, window, hwindow, hskip, hlast⟩ := exists_isWindow_excerpt hlines.first_line
      hlines.lines_le hlines.last_line (Language.ofPath node.file).usesTags
    have hsent : (snippetOf disk node sources).1 = String.ofList (excerpt content node.start.line
        node.stop.line (Language.ofPath node.file).usesTags) := by
      obtain rfl : node.location = location := hlocation
      exact snippetOf_of_none htext hsources hsnippet
    have hends := Source.endsIn_of_nodes rfl hnested hnodes node hnode
    have hnil := hends.window_ne_nil hwindow (Nat.lt_of_lt_of_le hskip hlines.lines_le) hlast
    generalize excerpt content node.start.line node.stop.line
      (Language.ofPath node.file).usesTags = text at hsent hwindow hnil
    have hne : String.ofList text ≠ "" := by simpa using hnil
    refine ⟨String.ofList text, hsent, hne, fun _ => ⟨skip, window, ?_, hskip, hlast⟩,
      fun hbreaks => ?_⟩
    · rwa [String.toList_ofList]
    · have hwithin : (String.ofList text).toList <:+: content := by
        rw [String.toList_ofList]
        exact hwindow.infix (hbreaks rfl)
      exact ⟨hwithin, fun p wanted hold hnew => Edit.apply_of_infix hne hwithin hold hnew⟩

/-- Three lines, each but the last one with a line feed. -/
def fedLines : List Char := "one\nSign in\ntwo".toList

/-- The same lines with carriage returns in front of the line feeds. -/
def returnedLines : List Char := "one\r\nSign in\r\ntwo".toList

def lineDisk (content : List Char) : Disk :=
  { entries := [(["a.md"], .file (String.ofList content).toUTF8)] }

theorem text_lineDisk (content : List Char) :
    (lineDisk content).textAt "a.md" = .ok (String.ofList content) :=
  Disk.textAt_name (by decide) (by decide) rfl

/-- The second of the lines, which is found by the phrase's pattern. -/
def lineNode (weight : Float) : Node :=
  ⟨.lineMatch, "Sign in", "a.md", "a.md", ⟨2, 0⟩, ⟨2, 7⟩, ["one"], ["two"], weight, none, none⟩

theorem nodes_of_find {source : Source} {config : Config} {phrase text : List Char} {span : Span}
    {node : Node} (hfind : Phrase.find phrase source.content = [span])
    (hslice : slice? source.content span.start span.stop = some text)
    (hnode : source.nodeAt .lineMatch text span Node.Kind.lineMatch.relevance none none =
      .ok node) : source.nodes config phrase none = .ok [node] := by
  show source.patternNodes phrase = _
  unfold Source.patternNodes
  rw [hfind, List.mapM_cons, List.mapM_nil, hslice]
  dsimp only
  rw [hnode]
  rfl

theorem nodes_fedLines :
    (Source.ofContent "a.md" "a.md" fedLines 3).nodes {} "Sign in".toList none =
      .ok [lineNode Node.Kind.lineMatch.relevance] := by
  have hfind : Phrase.find "Sign in".toList fedLines = [⟨4, 11⟩] := by cbv
  have hslice : slice? fedLines 4 11 = some "Sign in".toList := by cbv
  have hnode : ∀ weight, (Source.ofContent "a.md" "a.md" fedLines 3).nodeAt .lineMatch
      "Sign in".toList ⟨4, 11⟩ weight none none = .ok (lineNode weight) := by
    intro weight
    cbv
  exact nodes_of_find hfind hslice (hnode _)

theorem nodes_returnedLines :
    (Source.ofContent "a.md" "a.md" returnedLines 3).nodes {} "Sign in".toList none =
      .ok [lineNode Node.Kind.lineMatch.relevance] := by
  have hfind : Phrase.find "Sign in".toList returnedLines = [⟨5, 12⟩] := by cbv
  have hslice : slice? returnedLines 5 12 = some "Sign in".toList := by cbv
  have hnode : ∀ weight, (Source.ofContent "a.md" "a.md" returnedLines 3).nodeAt .lineMatch
      "Sign in".toList ⟨5, 12⟩ weight none none = .ok (lineNode weight) := by
    intro weight
    cbv
  exact nodes_of_find hfind hslice (hnode _)

theorem snippetOf_lineNode (content : List Char) (weight : Float) :
    (describe (lineDisk content) 0 (lineNode weight) []).1.snippet =
      String.ofList (excerpt content 2 2 false) := by
  have htags : (Language.ofPath "a.md").usesTags = false := by decide
  show (snippetOf (lineDisk content) (lineNode weight) []).1 = _
  rw [snippetOf_of_none (text_lineDisk content) (Sources.areOf_nil _ content) rfl, ← htags]
  rfl

/-- Lines with line feeds alone are sent as they stand, and are replaced as a whole. -/
theorem verbatim_fedLines : ∃ node,
    (Source.ofContent "a.md" "a.md" fedLines 3).nodes {} "Sign in".toList none = .ok [node] ∧
    (describe (lineDisk fedLines) 0 node []).1.snippet = "one\nSign in\ntwo" ∧
    ∀ (p : Proposal) (wanted : String), p.oldSnippet = some "one\nSign in\ntwo" →
      p.newSnippet = some wanted →
      Edit.apply fedLines node p = .ok (some (wanted.toList, .snippet)) := by
  have hnested : ∀ p ∈ (none : Option Parsed), p.tree.isNested = true := nofun
  obtain ⟨sent, hsent, -, -, hverbatim⟩ := verbatim_of_describe hnested nodes_fedLines
    (List.mem_singleton.mpr rfl) (text_lineDisk fedLines) (Sources.areOf_nil "a.md" fedLines) 0
  obtain rfl : sent = "one\nSign in\ntwo" := by
    rw [← hsent, snippetOf_lineNode]
    decide
  refine ⟨_, nodes_fedLines, hsent, fun p wanted hold hnew => ?_⟩
  obtain ⟨-, happlied⟩ := hverbatim fun _ => by decide
  obtain ⟨front, back, hsplit, -, happly⟩ := happlied p wanted hold hnew
  -- The lines are all of the file, so there is nothing around them.
  have hlength := congrArg List.length hsplit
  rw [List.length_append, List.length_append] at hlength
  change 15 = _ + 15 + _ at hlength
  obtain rfl : front = [] := List.length_eq_zero_iff.mp (by omega)
  obtain rfl : back = [] := List.length_eq_zero_iff.mp (by omega)
  rwa [List.nil_append, List.append_nil] at happly

/-- Lines with carriage returns are sent without them, and are not found again. -/
theorem returns_not_sent : ∃ node,
    (Source.ofContent "a.md" "a.md" returnedLines 3).nodes {} "Sign in".toList none = .ok [node] ∧
    (lineDisk returnedLines).textAt "a.md" = .ok (String.ofList returnedLines) ∧
    (describe (lineDisk returnedLines) 0 node []).1.snippet = "one\nSign in\ntwo" ∧
    ¬"one\nSign in\ntwo".toList <:+: returnedLines ∧
    ∀ wanted, Edit.replaceNearest? returnedLines "one\nSign in\ntwo".toList wanted
      node.start.line = none := by
  refine ⟨_, nodes_returnedLines, text_lineDisk returnedLines, ?_, by decide, fun wanted => ?_⟩
  · rw [snippetOf_lineNode]
    decide
  · have hplace : Edit.nearestPlace? "one\nSign in\ntwo".toList returnedLines 2 = none := by decide
    show Edit.replaceNearest? _ _ _ 2 = none
    rw [Edit.replaceNearest?, hplace]
    rfl

end Oracle

end Rephrase
