import Rephrase.Proofs.Oracle.Containment

/-! An answer may have several proposals for one node. It has as many accepted ones as it has values
that are meant for the node and say what to write. -/

namespace Rephrase.Oracle

/-- Whether the value at a place of an answer wants a text written, for the node of a number. -/
inductive Accepts (place number : Nat) : Json → Prop
  | intro {members : List (String × Json)} {text : String}
      (hnumber : Numbers members place number)
      (hwanted : (member? members "shouldApply" "should_apply").bind looseBool? ≠ some false)
      (htext : member? members "modifiedContent" "modified_content" = some (.string text)) :
    Accepts place number (.object members)

/-- Whether no two values of an answer want a text written for the node of a number. -/
def AcceptsOnce (number : Nat) (values : List Json) : Prop :=
  values.zipIdx.Pairwise fun a b => ¬(Accepts a.2 number a.1 ∧ Accepts b.2 number b.1)

def isAcceptedFor (number : Nat) (p : Proposal) : Bool := p.accepted && p.nodeIndex = number

theorem accepted_proposalFor_iff {members : List (String × Json)} {node : Descriptor} :
    (proposalFor members node).accepted = true ↔
      (member? members "shouldApply" "should_apply").bind looseBool? ≠ some false ∧
        ∃ text, member? members "modifiedContent" "modified_content" = some (.string text) := by
  have hwanted : ((member? members "shouldApply" "should_apply").bind looseBool?).getD true =
      true ↔ (member? members "shouldApply" "should_apply").bind looseBool? ≠ some false := by
    cases (member? members "shouldApply" "should_apply").bind looseBool? with
    | none => simp
    | some wanted => simp
  have htext : ((member? members "modifiedContent" "modified_content").bind looseText?).isSome =
      true ↔ ∃ text, member? members "modifiedContent" "modified_content" =
        some (.string text) := by
    simp [Option.isSome_iff_exists, Option.bind_eq_some_iff, looseText?_eq_some_iff]
  rw [← hwanted, ← htext, ← Bool.and_eq_true]
  rfl

theorem nodeNumber_of_numbers {members : List (String × Json)} {place number : Nat}
    (h : Numbers members place number) (hsize : number < 2 ^ 63) :
    nodeNumber members place = number := by
  cases h with
  | said hmember htold =>
    rw [nodeNumber_of_said hmember htold]
    unfold nearestInt64
    omega
  | unsaid hunsaid => exact nodeNumber_of_unsaid _ hunsaid

section

variable {nodes : List Descriptor} (hindex : AreNumbered nodes) (hsize : nodes.length < 2 ^ 63)
include hindex hsize

/-- A value makes an accepted proposal for a node just if it wants a text written for the node. -/
theorem exists_proposal?_iff {place number : Nat} {value : Json} :
    (∃ p, proposal? nodes place value = some p ∧ isAcceptedFor number p = true) ↔
      Accepts place number value ∧ number < nodes.length := by
  constructor
  · rintro ⟨p, hp, haccepted⟩
    unfold proposal? at hp
    split at hp
    · rename_i members
      split at hp
      · rename_i k hk
        obtain ⟨node, hnode, rfl⟩ := Option.map_eq_some_iff.mp hp
        obtain ⟨hlt, -⟩ := List.getElem?_eq_some_iff.mp hnode
        unfold isAcceptedFor at haccepted
        rw [Bool.and_eq_true, decide_eq_true_eq, accepted_proposalFor_iff] at haccepted
        obtain ⟨⟨hwanted, text, htext⟩, hnumber⟩ := haccepted
        -- The number of a node is its place, so the value is about the node that it names.
        obtain rfl : k = number := (hindex k node hnode).symm.trans hnumber
        exact ⟨.intro (numbers_of_nodeNumber hk (by omega)) hwanted htext, hlt⟩
      · cases hp
    · cases hp
  · rintro ⟨⟨hnumber, hwanted, htext⟩, hlt⟩
    rename_i members text
    have hnode := List.getElem?_eq_getElem hlt
    refine ⟨proposalFor members nodes[number], ?_, ?_⟩
    · unfold proposal?
      dsimp only
      rw [nodeNumber_of_numbers hnumber (Nat.lt_trans hlt hsize)]
      show (nodes[number]?).map (proposalFor members) = _
      rw [hnode, Option.map_some]
    · unfold isAcceptedFor
      rw [Bool.and_eq_true, decide_eq_true_eq]
      exact ⟨accepted_proposalFor_iff.mpr ⟨hwanted, text, htext⟩, hindex number _ hnode⟩

theorem countP_proposal? (place number : Nat) (value : Json) :
    (proposal? nodes place value).toList.countP (isAcceptedFor number) ≤ 1 ∧
      (0 < (proposal? nodes place value).toList.countP (isAcceptedFor number) ↔
        Accepts place number value ∧ number < nodes.length) := by
  refine ⟨Nat.le_trans List.countP_le_length ?_, ?_⟩
  · cases proposal? nodes place value <;> simp
  · rw [← exists_proposal?_iff hindex hsize, List.countP_pos_iff]
    simp only [Option.mem_toList]

variable {number : Nat} (hnumber : number < nodes.length)
include hnumber

/-- The proposals for a node are none if no value is meant for it. -/
theorem countP_pos_iff (place : Nat) (values : List Json) :
    0 < (proposalsFrom nodes place values).countP (isAcceptedFor number) ↔
      ∃ entry ∈ values.zipIdx place, Accepts entry.2 number entry.1 := by
  induction values generalizing place with
  | nil => simp [proposalsFrom]
  | cons value rest ih =>
    obtain ⟨-, hfirst⟩ := countP_proposal? hindex hsize place number value
    rw [proposalsFrom, List.countP_append, List.zipIdx_cons, Nat.add_pos_iff_pos_or_pos, hfirst,
      ih (place + 1)]
    simp [hnumber]

theorem countP_le_one_iff_from (place : Nat) (values : List Json) :
    (proposalsFrom nodes place values).countP (isAcceptedFor number) ≤ 1 ↔
      (values.zipIdx place).Pairwise fun a b =>
        ¬(Accepts a.2 number a.1 ∧ Accepts b.2 number b.1) := by
  induction values generalizing place with
  | nil => simp [proposalsFrom]
  | cons value rest ih =>
    obtain ⟨hle, hfirst⟩ := countP_proposal? hindex hsize place number value
    have hrest := countP_pos_iff hindex hsize hnumber (place + 1) rest
    rw [proposalsFrom, List.countP_append, List.zipIdx_cons, List.pairwise_cons, ← ih (place + 1)]
    by_cases haccepts : Accepts place number value
    · -- Behind a value that is meant for the node no other one may be.
      have hone : (proposal? nodes place value).toList.countP (isAcceptedFor number) = 1 := by
        have hpos := hfirst.mpr ⟨haccepts, hnumber⟩
        omega
      have hnone : (∀ entry ∈ rest.zipIdx (place + 1),
          ¬(Accepts place number value ∧ Accepts entry.2 number entry.1)) ↔
            (proposalsFrom nodes (place + 1) rest).countP (isAcceptedFor number) = 0 := by
        rw [← Nat.le_zero, ← Nat.not_lt, hrest]
        simp [haccepts]
      rw [hnone, hone]
      omega
    · have hzero : (proposal? nodes place value).toList.countP (isAcceptedFor number) = 0 := by
        have hnot : ¬(Accepts place number value ∧ number < nodes.length) := fun h => haccepts h.1
        have hpos := hfirst.not.mpr hnot
        omega
      rw [hzero, Nat.zero_add]
      simp [haccepts]

/-- An answer has one accepted proposal for a node, or none, just if it has no two values that are
meant for the node. -/
theorem countP_proposals_le_one_iff (values : List Json) :
    (proposals nodes values).countP (isAcceptedFor number) ≤ 1 ↔ AcceptsOnce number values :=
  countP_le_one_iff_from hindex hsize hnumber 0 values

omit hnumber

/-- The accepted proposals of an answer are for different nodes just if no two of its values are
meant for the same one. -/
theorem nodup_proposals_iff (values : List Json) :
    (((proposals nodes values).filter (·.accepted)).map (·.nodeIndex)).Nodup ↔
      ∀ number < nodes.length, AcceptsOnce number values := by
  have hcount : ∀ number, (((proposals nodes values).filter (·.accepted)).map
      (·.nodeIndex)).count number = (proposals nodes values).countP (isAcceptedFor number) := by
    intro number
    rw [List.count, List.countP_map, List.countP_filter]
    refine List.countP_congr fun p _ => ?_
    simp [isAcceptedFor, and_comm]
  rw [List.nodup_iff_count_le_one]
  constructor
  · intro h number hnumber
    rw [← countP_proposals_le_one_iff hindex hsize hnumber, ← hcount]
    exact h number
  · intro h number
    by_cases hnumber : number < nodes.length
    · rw [hcount, countP_proposals_le_one_iff hindex hsize hnumber]
      exact h number hnumber
    · -- There is no proposal for a number that is no node's.
      have hproposed := proposedFrom_proposalsFrom hindex 0 values
      rw [hcount, List.countP_eq_zero.mpr fun p hp haccepted => ?_]
      · exact Nat.zero_le 1
      · obtain ⟨node, hnode⟩ := hproposed.exists_node p hp
        unfold isAcceptedFor at haccepted
        rw [Bool.and_eq_true, decide_eq_true_eq] at haccepted
        exact hnumber (haccepted.2 ▸ (List.getElem?_eq_some_iff.mp hnode).1)

end

end Rephrase.Oracle
