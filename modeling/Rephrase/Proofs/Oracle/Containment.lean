import Mathlib
import Rephrase.Proofs.Oracle.Exchange

/-! An answer is contained. Whatever it says, its proposals are for nodes that were asked about, in
the order of the answer, and what they write is what the answer says. -/

namespace Rephrase.Oracle

/-! ## Numbers -/

/-- The value of a float, unless it is infinite or not a number. -/
def valueOf? (x : Float) : Option ℚ :=
  match x.toModel.unpack with
  | .zero _ => some 0
  | .finite .positive mantissa exponent _ => some (mantissa * 2 ^ exponent)
  | .finite .negative mantissa exponent _ => some (-(mantissa * 2 ^ exponent))
  | _ => none

theorem scaled_eq (mantissa : Nat) (exponent : Int) : (mantissa * 2 ^ exponent : ℚ) =
    ((mantissa <<< exponent.toNat : Nat) : ℚ) / ((1 <<< (-exponent).toNat : Nat) : ℚ) := by
  rw [Nat.shiftLeft_eq, Nat.one_shiftLeft]
  have hsplit : exponent = (exponent.toNat : Int) - ((-exponent).toNat : Int) := by omega
  conv_lhs => rw [hsplit, zpow_sub₀ two_ne_zero, zpow_natCast, zpow_natCast]
  push_cast
  ring

/-- A quotient of naturals is whole only if nothing is left over. -/
theorem cast_eq_quotient (numerator : Nat) {denominator : Nat} (hpos : 0 < denominator) (n : Int) :
    (n : ℚ) = (numerator : ℚ) / (denominator : ℚ) ↔
      numerator % denominator = 0 ∧ n = (numerator / denominator : Nat) := by
  have hne : (denominator : ℚ) ≠ 0 := by exact_mod_cast hpos.ne'
  rw [eq_div_iff hne]
  constructor
  · intro h
    have hprod : n * denominator = numerator := by exact_mod_cast h
    have hdvd : (denominator : Int) ∣ numerator := ⟨n, by rw [← hprod, mul_comm]⟩
    refine ⟨Nat.mod_eq_zero_of_dvd (Int.natCast_dvd_natCast.mp hdvd), ?_⟩
    rw [Int.natCast_div, ← hprod, Int.mul_ediv_cancel n (by exact_mod_cast hpos.ne')]
  · rintro ⟨hmod, rfl⟩
    exact_mod_cast Nat.div_mul_cancel (Nat.dvd_of_mod_eq_zero hmod)

theorem wholeFloat?_eq_some_iff {x : Float} {n : Int} :
    wholeFloat? x = some n ↔ valueOf? x = some (n : ℚ) := by
  unfold wholeFloat? valueOf?
  generalize x.toModel.unpack = y
  cases y with
  | zero => simp [eq_comm]
  | finite sign mantissa exponent =>
    have hpos : 0 < 1 <<< (-exponent).toNat := by
      rw [Nat.one_shiftLeft]
      positivity
    have hwhole := fun n : Int => cast_eq_quotient (mantissa <<< exponent.toNat) hpos n
    cases sign with
    | positive =>
      rw [Option.some_inj, scaled_eq, eq_comm (b := (n : ℚ)), hwhole]
      dsimp only
      split <;> simp_all [eq_comm]
    | negative =>
      rw [Option.some_inj, scaled_eq, neg_eq_iff_eq_neg, ← Int.cast_neg,
        eq_comm (b := ((-n : Int) : ℚ)), hwhole]
      dsimp only
      split <;> simp_all [neg_eq_iff_eq_neg, eq_comm]
  | _ => simp

/-- Whether a value says a whole number, as a number or in quotes. -/
inductive Says : Json → Int → Prop
  | integer (n : Int) : Says (.number (.integer n)) n
  | float {x : Float} {n : Int} (hvalue : valueOf? x = some (n : ℚ)) : Says (.number (.float x)) n
  /-- In quotes only numbers of 64 bits count. -/
  | text {s : String} {n : Int} (hdigits : Decimal.integer? (Text.trim s.toList) = some n)
      (hsize : inInt64 n = true) : Says (.string s) n

theorem nearestInt64_of_inInt64 {n : Int} (h : inInt64 n = true) : nearestInt64 n = n := by
  unfold inInt64 at h
  unfold nearestInt64
  simp only [Bool.and_eq_true, decide_eq_true_eq] at h
  omega

/-- A value is read as the number that it says, or as the nearest one of 64 bits. -/
theorem looseInt?_eq_some_iff {value : Json} {k : Int} :
    looseInt? value = some k ↔ ∃ n, Says value n ∧ nearestInt64 n = k := by
  constructor
  · intro h
    unfold looseInt? at h
    split at h
    · rename_i n
      exact ⟨n, .integer n, Option.some.inj h⟩
    · obtain ⟨n, hwhole, hnearest⟩ := Option.map_eq_some_iff.mp h
      exact ⟨n, .float (wholeFloat?_eq_some_iff.mp hwhole), hnearest⟩
    · obtain ⟨hdigits, hsize⟩ := Option.filter_eq_some_iff.mp h
      exact ⟨k, .text hdigits hsize, nearestInt64_of_inInt64 hsize⟩
    · cases h
  · rintro ⟨n, htold, rfl⟩
    cases htold with
    | integer => rfl
    | float hvalue => rw [looseInt?, wholeFloat?_eq_some_iff.mpr hvalue, Option.map_some]
    | text hdigits hsize =>
      rw [looseInt?, hdigits, nearestInt64_of_inInt64 hsize]
      exact Option.filter_some_pos hsize

/-! ## Proposals -/

/-- The number of the node that the value at a place of an answer is for: the one that it says, or
else its own place, however many values before it are dropped. -/
inductive Numbers (members : List (String × Json)) (place : Nat) : Nat → Prop
  | said {value : Json} {number : Nat} (hmember : member? members "nodeIndex" "node_index" = some value)
      (htold : Says value number) : Numbers members place number
  | unsaid (h : ∀ value n, member? members "nodeIndex" "node_index" = some value →
      ¬Says value n) : Numbers members place place

/-- What a proposal keeps to of the members of an object at a place of an answer. -/
structure Proposes (nodes : List Descriptor) (place : Nat) (members : List (String × Json))
    (p : Proposal) : Prop where
  /-- Numbers beyond 64 bits are moved to the last one within, which is no node's. -/
  number : nodes.length < 2 ^ 63 → Numbers members place p.nodeIndex
  /-- There is such a node, and its content stands in for one that is not given. -/
  node : ∃ node, nodes[p.nodeIndex]? = some node ∧ p.oldContent =
    ((member? members "originalContent" "original_content").bind looseText?).getD node.content
  /-- What is written is given as a text. -/
  accepted : p.accepted = true →
    member? members "modifiedContent" "modified_content" = some (.string p.newContent)

/-- Whether descriptors carry their own places as numbers. -/
def AreNumbered (nodes : List Descriptor) : Prop :=
  ∀ (number : Nat) (d : Descriptor), nodes[number]? = some d → d.index = number

/-- What becomes of the values of an answer, counted from a place on. A value is dropped if it is no
object or its number is no node's. -/
inductive ProposedFrom (nodes : List Descriptor) : Nat → List Json → List Proposal → Prop
  | nil (place : Nat) : ProposedFrom nodes place [] []
  | kept {place : Nat} {members : List (String × Json)} {p : Proposal} {values : List Json}
      {ps : List Proposal} (hfirst : Proposes nodes place members p)
      (hrest : ProposedFrom nodes (place + 1) values ps) :
      ProposedFrom nodes place (.object members :: values) (p :: ps)
  | dropped {place : Nat} {value : Json} {values : List Json} {ps : List Proposal}
      (hfirst : ∀ members number, value = .object members → Numbers members place number →
        nodes.length ≤ number)
      (hrest : ProposedFrom nodes (place + 1) values ps) :
      ProposedFrom nodes place (value :: values) ps

theorem looseText?_eq_some_iff {value : Json} {s : String} :
    looseText? value = some s ↔ value = .string s := by
  cases value with
  | string other => simp [looseText?]
  | _ => simp [looseText?]

theorem nodeNumber_of_said {members : List (String × Json)} {place : Nat} {value : Json} {n : Int}
    (hmember : member? members "nodeIndex" "node_index" = some value) (htold : Says value n) :
    nodeNumber members place = nearestInt64 n := by
  rw [nodeNumber, hmember, Option.bind_some, looseInt?_eq_some_iff.mpr ⟨n, htold, rfl⟩,
    Option.getD_some]

theorem nodeNumber_of_unsaid {members : List (String × Json)} (place : Nat)
    (h : ∀ value n, member? members "nodeIndex" "node_index" = some value → ¬Says value n) :
    nodeNumber members place = place := by
  have hnone : (member? members "nodeIndex" "node_index").bind looseInt? = none := by
    rw [Option.eq_none_iff_forall_ne_some]
    intro k hk
    obtain ⟨value, hmember, hread⟩ := Option.bind_eq_some_iff.mp hk
    obtain ⟨n, htold, -⟩ := looseInt?_eq_some_iff.mp hread
    exact h value n hmember htold
  rw [nodeNumber, hnone, Option.getD_none]

/-- The number that is taken is the one that is meant, as far as there can be nodes. -/
theorem numbers_of_nodeNumber {members : List (String × Json)} {place number : Nat}
    (h : nodeNumber members place = number) (hsize : number < 2 ^ 63 - 1) :
    Numbers members place number := by
  by_cases hsaid : ∃ value n, member? members "nodeIndex" "node_index" = some value ∧ Says value n
  · obtain ⟨value, n, hmember, htold⟩ := hsaid
    rw [nodeNumber_of_said hmember htold] at h
    obtain rfl : n = number := by
      unfold nearestInt64 at h
      omega
    exact .said hmember htold
  · push Not at hsaid
    rw [nodeNumber_of_unsaid place hsaid] at h
    obtain rfl : place = number := by exact_mod_cast h
    exact .unsaid hsaid

/-- The number that is meant is not below the one that is taken. -/
theorem le_of_numbers {members : List (String × Json)} {place number : Nat} {k : Int}
    (hnumbers : Numbers members place number) (h : nodeNumber members place = k) :
    0 ≤ k ∧ k ≤ number := by
  cases hnumbers with
  | said hmember htold =>
    rw [nodeNumber_of_said hmember htold] at h
    unfold nearestInt64 at h
    omega
  | unsaid hunsaid =>
    rw [nodeNumber_of_unsaid place hunsaid] at h
    omega

section

variable {nodes : List Descriptor} {place : Nat}

theorem proposes_proposalFor (hindex : AreNumbered nodes)
    {members : List (String × Json)} {number : Nat} {node : Descriptor}
    (hnumber : nodeNumber members place = number) (hnode : nodes[number]? = some node) :
    Proposes nodes place members (proposalFor members node) := by
  have hsame : (proposalFor members node).nodeIndex = number := hindex number node hnode
  refine ⟨fun hsize => ?_, ⟨node, hsame ▸ hnode, rfl⟩, fun haccepted => ?_⟩
  · obtain ⟨hlt, -⟩ := List.getElem?_eq_some_iff.mp hnode
    rw [hsame]
    exact numbers_of_nodeNumber hnumber (by omega)
  · obtain ⟨-, hgiven⟩ := Bool.and_eq_true_iff.mp haccepted
    obtain ⟨text, htext⟩ := Option.isSome_iff_exists.mp hgiven
    replace htext : (member? members "modifiedContent" "modified_content").bind looseText? =
      some text := htext
    obtain ⟨value, hmember, hvalue⟩ := Option.bind_eq_some_iff.mp htext
    have hwritten : (proposalFor members node).newContent = text := by
      show ((member? members "modifiedContent" "modified_content").bind looseText?).getD "" = text
      rw [htext, Option.getD_some]
    rw [hwritten, hmember, looseText?_eq_some_iff.mp hvalue]

theorem of_proposal?_eq_some (hindex : AreNumbered nodes)
    {value : Json} {p : Proposal} (h : proposal? nodes place value = some p) :
    ∃ members, value = .object members ∧ Proposes nodes place members p := by
  unfold proposal? at h
  split at h
  · rename_i members
    split at h
    · rename_i number hnumber
      obtain ⟨node, hnode, rfl⟩ := Option.map_eq_some_iff.mp h
      exact ⟨members, rfl, proposes_proposalFor hindex hnumber hnode⟩
    · cases h
  · cases h

theorem le_of_proposal?_eq_none {value : Json} (h : proposal? nodes place value = none)
    {members : List (String × Json)} {number : Nat} (hvalue : value = .object members)
    (hnumbers : Numbers members place number) : nodes.length ≤ number := by
  subst hvalue
  unfold proposal? at h
  dsimp only at h
  split at h
  · rename_i k hk
    have hle := le_of_numbers hnumbers hk
    have hlength : nodes.length ≤ k := List.getElem?_eq_none_iff.mp (Option.map_eq_none_iff.mp h)
    simp only [Int.ofNat_eq_natCast] at hle
    omega
  · rename_i k hk
    exact absurd (le_of_numbers hnumbers hk).1 (by omega)

theorem proposedFrom_proposalsFrom
    (hindex : AreNumbered nodes) (place : Nat)
    (values : List Json) : ProposedFrom nodes place values (proposalsFrom nodes place values) := by
  induction values generalizing place with
  | nil => exact .nil place
  | cons value rest ih =>
    unfold proposalsFrom
    cases hvalue : proposal? nodes place value with
    | none => exact .dropped (fun _ _ => le_of_proposal?_eq_none hvalue) (ih (place + 1))
    | some p =>
      obtain ⟨members, rfl, hproposes⟩ := of_proposal?_eq_some hindex hvalue
      exact .kept hproposes (ih (place + 1))

namespace ProposedFrom

variable {values : List Json} {ps : List Proposal} (h : ProposedFrom nodes place values ps)
include h

theorem length_le : ps.length ≤ values.length := by
  induction h with
  | nil => exact Nat.le_refl _
  | kept _ _ ih => exact Nat.succ_le_succ ih
  | dropped _ _ ih => exact Nat.le_succ_of_le ih

theorem exists_node : ∀ p ∈ ps, ∃ node, nodes[p.nodeIndex]? = some node := by
  induction h with
  | nil => nofun
  | kept hfirst _ ih =>
    obtain ⟨node, hnode, -⟩ := hfirst.node
    exact List.forall_mem_cons.mpr ⟨⟨node, hnode⟩, ih⟩
  | dropped _ _ ih => exact ih

end ProposedFrom

end

/-! ## Answers -/

/-- Whether a reply is contained in an answer to some nodes. -/
structure Reply.IsContained (nodes : List Descriptor) (raw : RawReply) (reply : Reply) : Prop where
  proposed : ProposedFrom nodes 0 raw.modifications reply.proposals
  length : reply.proposals.length ≤ raw.modifications.length
  within : ∀ p ∈ reply.proposals, p.nodeIndex < nodes.length

theorem isContained_of_rawReply? {nodes : List Descriptor}
    (hindex : AreNumbered nodes) {cs : List Char}
    {raw : RawReply} (hraw : rawReply? cs = some raw) :
    ∃ reply, Reply.ofText? nodes cs = some reply ∧ reply.IsContained nodes raw := by
  have hproposed := proposedFrom_proposalsFrom hindex 0 raw.modifications
  unfold Reply.ofText?
  rw [hraw]
  refine ⟨_, rfl, hproposed, hproposed.length_le, fun p hp => ?_⟩
  obtain ⟨node, hnode⟩ := hproposed.exists_node p hp
  exact (List.getElem?_eq_some_iff.mp hnode).1

end Rephrase.Oracle
