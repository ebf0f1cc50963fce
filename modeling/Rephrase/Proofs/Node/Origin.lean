import Rephrase.Candidate
import Rephrase.Proofs.Node.Extraction

/-! A node names the file that it was found in, and this is one of the files that were looked at. -/

namespace Rephrase

namespace Node

theorem dedupFrom_sublist (seen : List Key) (nodes : List Node) :
    (dedupFrom seen nodes).Sublist nodes := by
  induction nodes generalizing seen with
  | nil => exact List.Sublist.refl []
  | cons node rest ih =>
    rw [dedupFrom]
    split
    · exact (ih seen).cons node
    · exact (ih _).cons_cons node

theorem dedup_sublist (nodes : List Node) : (dedup nodes).Sublist nodes :=
  dedupFrom_sublist [] nodes

theorem nodup_keys_dedupFrom (seen : List Key) (nodes : List Node) :
    ((dedupFrom seen nodes).map key).Nodup ∧ ∀ node ∈ dedupFrom seen nodes, node.key ∉ seen := by
  induction nodes generalizing seen with
  | nil => exact ⟨.nil, nofun⟩
  | cons node rest ih =>
    rw [dedupFrom]
    split
    · exact ih seen
    · rename_i hnew
      obtain ⟨hnodup, hfresh⟩ := ih (node.key :: seen)
      refine ⟨List.nodup_cons.mpr ⟨fun hmem => ?_, hnodup⟩, List.forall_mem_cons.mpr ⟨?_, ?_⟩⟩
      · obtain ⟨other, hother, hkey⟩ := List.mem_map.mp hmem
        exact hfresh other hother (hkey ▸ List.mem_cons_self)
      · simpa using hnew
      · exact fun other hother hmem => hfresh other hother (List.mem_cons_of_mem _ hmem)

/-- Different nodes have different keys. -/
theorem nodup_keys_dedup (nodes : List Node) : ((dedup nodes).map key).Nodup :=
  (nodup_keys_dedupFrom [] nodes).1

/-- Whether a node goes by the paths of a file. -/
def IsIn (file location : String) (node : Node) : Prop :=
  node.file = file ∧ node.location = location

end Node

namespace Source

variable {source : Source} {config : Config} {phrase : List Char} {nodes : List Node}

theorem isIn_of_nodeAt {kind : Node.Kind} {text : List Char} {span : Text.Span}
    {relevance : Float} {pieces : Option (List Piece)} {shown : Option Text.Span} {node : Node}
    (h : source.nodeAt kind text span relevance pieces shown = .ok node) :
    node.IsIn source.file source.location :=
  ⟨(of_nodeAt h).1, (of_nodeAt h).2.1⟩

theorem isIn_of_patternNodes (h : source.patternNodes phrase = .ok nodes) :
    ∀ node ∈ nodes, node.IsIn source.file source.location := by
  intro node hnode
  obtain ⟨span, -, hspan⟩ := exists_of_mem_mapM h hnode
  split at hspan
  · exact isIn_of_nodeAt hspan
  · cases hspan

theorem isIn_of_treeNodes {parsed : Parsed}
    (h : source.treeNodes config phrase parsed = .ok nodes) :
    ∀ node ∈ nodes, node.IsIn source.file source.location := by
  obtain rfl | ⟨-, hwhole | ⟨-, hpattern⟩ | hparts⟩ := of_treeNodes h
  · nofun
  · intro node hnode
    obtain ⟨unit, -, hunit⟩ := exists_of_mem_mapM hwhole hnode
    exact isIn_of_nodeAt hunit
  · exact isIn_of_patternNodes hpattern
  · intro node hnode
    obtain ⟨⟨units, coverage⟩, -, hunits⟩ := exists_of_mem_mapM hparts hnode
    exact isIn_of_nodeAt hunits

theorem isIn_of_nodes {parsed : Option Parsed}
    (h : source.nodes config phrase parsed = .ok nodes) :
    ∀ node ∈ nodes, node.IsIn source.file source.location := by
  cases parsed with
  | none => exact isIn_of_patternNodes h
  | some parsed => exact isIn_of_treeNodes h

end Source

namespace Candidate

variable {disk : Disk} {config : Config} {phrase : List Char} {root : String}

theorem of_mem_among {files : List String} {c : Candidate}
    (h : c ∈ among disk config phrase root files) :
    c.location ∈ files ∧ c.file = (Path.below? root c.location).getD c.location := by
  obtain ⟨location, hlocation, hc⟩ := List.mem_filterMap.mp (List.mem_mergeSort.mp h)
  unfold ofFile? at hc
  split at hc
  · obtain ⟨grade, -, rfl⟩ := Option.map_eq_some_iff.mp hc
    exact ⟨hlocation, rfl⟩
  · cases hc

theorem exists_text_of_mem_among {files : List String} {c : Candidate}
    (h : c ∈ among disk config phrase root files) : ∃ text, disk.textAt c.location = .ok text := by
  obtain ⟨location, -, hc⟩ := List.mem_filterMap.mp (List.mem_mergeSort.mp h)
  unfold ofFile? at hc
  split at hc
  · rename_i text htext
    obtain ⟨grade, -, rfl⟩ := Option.map_eq_some_iff.mp hc
    exact ⟨text, htext⟩
  · cases hc

/-- A node that is found is one of the nodes of some candidate, whose text can be read. -/
theorem exists_nodes_of_mem_allNodes {parser : Parser} {candidates : List Candidate}
    {nodes : List Node} (h : allNodes disk parser config phrase candidates = .ok nodes)
    {node : Node} (hnode : node ∈ nodes) : ∃ c ∈ candidates, ∃ text parsed found,
      disk.textAt c.location = .ok text ∧
      (Source.ofContent c.file c.location text.toList config.contextLines).nodes config phrase
        parsed = .ok found ∧ node ∈ found := by
  obtain ⟨parts, hparts, hnodes⟩ := bind_eq_ok.mp h
  cases hnodes
  obtain ⟨part, hpart, hmem⟩ := List.mem_flatten.mp ((Node.dedup_sublist _).mem hnode)
  obtain ⟨c, hc, hfound⟩ := exists_of_mem_mapM hparts hpart
  unfold Candidate.nodes at hfound
  split at hfound
  · rename_i text htext
    exact ⟨c, hc, text, _, part, htext, hfound, hmem⟩
  · cases hfound
    nomatch hmem

theorem isIn_of_mem_allNodes {parser : Parser} {candidates : List Candidate} {nodes : List Node}
    (h : allNodes disk parser config phrase candidates = .ok nodes) {node : Node}
    (hnode : node ∈ nodes) : ∃ c ∈ candidates, node.IsIn c.file c.location := by
  obtain ⟨c, hc, text, parsed, found, -, hfound, hmem⟩ := exists_nodes_of_mem_allNodes h hnode
  exact ⟨c, hc, Source.isIn_of_nodes hfound node hmem⟩

end Candidate

end Rephrase
