import Rephrase.Edit.Cascade
import Rephrase.Proofs.Fault

/-! Each way to edit a text by itself. The first one that gives a text is the one that is taken. -/

namespace Rephrase.Edit

/-- What one way alone makes of a text. -/
def alone (cs : List Char) (node : Node) (p : Proposal) :
    Way → Except Fault (Option (List Char))
  | .snippet => .ok <| p.oldSnippet.bind fun old => p.newSnippet.bind fun wanted =>
      replaceNearest? cs old.toList wanted.toList node.start.line
  | .normalizedSnippet => .ok <| p.oldSnippet.bind fun old => p.newSnippet.bind fun wanted =>
      replaceLoosely? cs old.toList wanted.toList node.start.line
  | .fragments => node.pieces.elim (.ok none) fun pieces => dealOut cs pieces p.newContent.toList
  | .direct => .ok (replaceNearest? cs p.oldContent.toList p.newContent.toList node.start.line)
  | .lineFallback => replaceNearby cs p.oldContent.toList p.newContent.toList node.start.line

/-- The place of a way in the order in which they are tried. -/
def Way.rank : Way → Nat
  | .snippet => 0
  | .normalizedSnippet => 1
  | .fragments => 2
  | .direct => 3
  | .lineFallback => 4

/-- All ways, in the order in which they are tried. -/
def Way.inOrder : List Way := [.snippet, .normalizedSnippet, .fragments, .direct, .lineFallback]

theorem Way.mem_inOrder (way : Way) : way ∈ inOrder := by
  cases way <;> decide

theorem Way.ascend_inOrder : inOrder.Pairwise fun a b => a.rank < b.rank := by
  decide

/-- What the first of some ways that gives a text makes of it. -/
def firstOf (cs : List Char) (node : Node) (p : Proposal) :
    List Way → Except Fault (Option (List Char × Way))
  | [] => .ok none
  | way :: rest => alone cs node p way >>= fun result =>
      result.elim (firstOf cs node p rest) fun updated => .ok (some (updated, way))

section

variable {cs updated : List Char} {node : Node} {p : Proposal} {way : Way}

theorem bySnippet?_eq : bySnippet? cs node p =
    ((p.oldSnippet.bind fun old => p.newSnippet.bind fun wanted =>
        replaceNearest? cs old.toList wanted.toList node.start.line).map (·, .snippet)).or
      ((p.oldSnippet.bind fun old => p.newSnippet.bind fun wanted =>
        replaceLoosely? cs old.toList wanted.toList node.start.line).map
          (·, .normalizedSnippet)) := by
  unfold bySnippet?
  cases p.oldSnippet with
  | none => rfl
  | some old =>
    cases p.newSnippet with
    | none => rfl
    | some wanted => rfl

theorem byPieces_eq : byPieces cs node p =
    alone cs node p .fragments >>= fun result => .ok (result.map (·, .fragments)) := by
  unfold byPieces alone
  cases node.pieces with
  | none => rfl
  | some pieces => rfl

/-- A proposal is applied in the first way that gives a text. -/
theorem apply_eq_firstOf (cs : List Char) (node : Node) (p : Proposal) :
    Edit.apply cs node p = firstOf cs node p Way.inOrder := by
  unfold Edit.apply byContent? byLine
  rw [bySnippet?_eq, byPieces_eq]
  generalize hexact : (p.oldSnippet.bind fun old => p.newSnippet.bind fun wanted =>
    replaceNearest? cs old.toList wanted.toList node.start.line) = exact
  generalize hloose : (p.oldSnippet.bind fun old => p.newSnippet.bind fun wanted =>
    replaceLoosely? cs old.toList wanted.toList node.start.line) = loose
  have hsnippet : alone cs node p .snippet = .ok exact := congrArg _ hexact
  have hnormalized : alone cs node p .normalizedSnippet = .ok loose := congrArg _ hloose
  have hdirect : alone cs node p .direct = .ok (replaceNearest? cs p.oldContent.toList
    p.newContent.toList node.start.line) := rfl
  have hline : alone cs node p .lineFallback = replaceNearby cs p.oldContent.toList
    p.newContent.toList node.start.line := rfl
  simp only [Way.inOrder, firstOf, hsnippet, hnormalized, hdirect, hline, ok_bind]
  -- From here on it is the same chain of ways, each tried when the one in front gives nothing.
  cases exact with
  | some updated => rfl
  | none =>
    cases loose with
    | some updated => rfl
    | none =>
      cases alone cs node p .fragments with
      | error fault => rfl
      | ok dealt =>
        cases dealt with
        | some updated => rfl
        | none =>
          cases replaceNearest? cs p.oldContent.toList p.newContent.toList node.start.line with
          | some updated => rfl
          | none =>
            cases replaceNearby cs p.oldContent.toList p.newContent.toList node.start.line with
            | error fault => rfl
            | ok result => cases result <;> rfl

theorem of_firstOf {ways : List Way} {result : Option (List Char × Way)}
    (h : firstOf cs node p ways = .ok result) :
    (result = none ∧ ∀ way ∈ ways, alone cs node p way = .ok none) ∨
    ∃ front way back updated, ways = front ++ way :: back ∧ result = some (updated, way) ∧
      alone cs node p way = .ok (some updated) ∧
      ∀ earlier ∈ front, alone cs node p earlier = .ok none := by
  induction ways with
  | nil => exact .inl ⟨(Except.ok.inj h).symm, fun _ hway => by cases hway⟩
  | cons way rest ih =>
    obtain ⟨updated, halone, h⟩ := bind_eq_ok.mp h
    cases updated with
    | some updated =>
      exact .inr ⟨[], way, rest, updated, rfl, (Except.ok.inj h).symm, halone,
        fun _ hearlier => by cases hearlier⟩
    | none =>
      obtain ⟨hresult, hnone⟩ | ⟨front, first, back, updated, rfl, hresult, hfirst, hnone⟩ := ih h
      · exact .inl ⟨hresult, List.forall_mem_cons.mpr ⟨halone, hnone⟩⟩
      · exact .inr ⟨way :: front, first, back, updated, rfl, hresult, hfirst,
          List.forall_mem_cons.mpr ⟨halone, hnone⟩⟩

theorem firstOf_append {front back : List Way} {updated : List Char}
    (hfront : ∀ earlier ∈ front, alone cs node p earlier = .ok none)
    (h : alone cs node p way = .ok (some updated)) :
    firstOf cs node p (front ++ way :: back) = .ok (some (updated, way)) := by
  induction front with
  | nil =>
    rw [List.nil_append, firstOf, h]
    rfl
  | cons first front ih =>
    obtain ⟨hfirst, hrest⟩ := List.forall_mem_cons.mp hfront
    rw [List.cons_append, firstOf, hfirst]
    exact ih hrest

/-- The ways before a way are those of a lower rank. -/
theorem Way.mem_front_iff {front back : List Way} {earlier : Way}
    (h : inOrder = front ++ way :: back) : earlier ∈ front ↔ earlier.rank < way.rank := by
  have hascend := ascend_inOrder
  rw [h, List.pairwise_append, List.pairwise_cons] at hascend
  refine ⟨fun hearlier => hascend.2.2 _ hearlier _ List.mem_cons_self, fun hlt => ?_⟩
  have hmem := mem_inOrder earlier
  rw [h] at hmem
  obtain hfront | hback := List.mem_append.mp hmem
  · exact hfront
  · obtain rfl | hback := List.mem_cons.mp hback
    · exact absurd hlt (Nat.lt_irrefl _)
    · exact absurd hlt (Nat.lt_asymm (hascend.2.1.1 _ hback))

/-- The first way that gives a text is taken. -/
theorem alone_of_apply {result : Option (List Char × Way)}
    (h : Edit.apply cs node p = .ok result) :
    (result = none ∧ ∀ way, alone cs node p way = .ok none) ∨
    ∃ updated way, result = some (updated, way) ∧ alone cs node p way = .ok (some updated) ∧
      ∀ earlier : Way, earlier.rank < way.rank → alone cs node p earlier = .ok none := by
  rw [apply_eq_firstOf] at h
  obtain ⟨hresult, hnone⟩ | ⟨front, way, back, updated, horder, hresult, halone, hfront⟩ :=
    of_firstOf h
  · exact .inl ⟨hresult, fun way => hnone way way.mem_inOrder⟩
  · exact .inr ⟨updated, way, hresult, halone, fun earlier hlt =>
      hfront earlier ((Way.mem_front_iff horder).mpr hlt)⟩

theorem alone_of_apply_some (h : Edit.apply cs node p = .ok (some (updated, way))) :
    alone cs node p way = .ok (some updated) := by
  obtain ⟨hnone, -⟩ | ⟨_, _, hsome, halone, -⟩ := alone_of_apply h
  · cases hnone
  · cases hsome
    exact halone

theorem apply_of_alone (h : alone cs node p way = .ok (some updated))
    (hearlier : ∀ earlier : Way, earlier.rank < way.rank → alone cs node p earlier = .ok none) :
    Edit.apply cs node p = .ok (some (updated, way)) := by
  obtain ⟨front, back, horder⟩ := List.append_of_mem way.mem_inOrder
  rw [apply_eq_firstOf, horder]
  exact firstOf_append (fun earlier hfront =>
    hearlier earlier ((Way.mem_front_iff horder).mp hfront)) h

theorem alone_of_apply_error {fault : Fault} (h : Edit.apply cs node p = .error fault) :
    ∃ way, alone cs node p way = .error fault := by
  rw [apply_eq_firstOf] at h
  generalize Way.inOrder = ways at h
  induction ways with
  | nil => cases h
  | cons way rest ih =>
    rw [firstOf] at h
    cases halone : alone cs node p way with
    | error other =>
      rw [halone] at h
      obtain rfl : other = fault := Except.error.inj h
      exact ⟨way, halone⟩
    | ok result =>
      rw [halone, ok_bind] at h
      cases result with
      | none => exact ih h
      | some updated => cases h

/-! ## Ways that a proposal has nothing for -/

theorem alone_of_no_snippets (h : p.oldSnippet = none ∨ p.newSnippet = none) :
    alone cs node p .snippet = .ok none ∧ alone cs node p .normalizedSnippet = .ok none := by
  unfold alone
  obtain h | h := h
  · rw [h]
    exact ⟨rfl, rfl⟩
  · rw [h]
    cases p.oldSnippet with
    | none => exact ⟨rfl, rfl⟩
    | some old => exact ⟨rfl, rfl⟩

theorem alone_of_no_pieces (h : node.pieces = none) :
    alone cs node p .fragments = .ok none := by
  rw [alone, h]
  rfl

theorem apply_of_fragments (hsnippets : p.oldSnippet = none ∨ p.newSnippet = none)
    (h : alone cs node p .fragments = .ok (some updated)) :
    Edit.apply cs node p = .ok (some (updated, .fragments)) := by
  refine apply_of_alone h fun earlier hlt => ?_
  cases earlier with
  | snippet => exact (alone_of_no_snippets hsnippets).1
  | normalizedSnippet => exact (alone_of_no_snippets hsnippets).2
  | _ => exact absurd hlt (by decide)

theorem apply_of_direct (hsnippets : p.oldSnippet = none ∨ p.newSnippet = none)
    (hpieces : node.pieces = none) (h : alone cs node p .direct = .ok (some updated)) :
    Edit.apply cs node p = .ok (some (updated, .direct)) := by
  refine apply_of_alone h fun earlier hlt => ?_
  cases earlier with
  | snippet => exact (alone_of_no_snippets hsnippets).1
  | normalizedSnippet => exact (alone_of_no_snippets hsnippets).2
  | fragments => exact alone_of_no_pieces hpieces
  | _ => exact absurd hlt (by decide)

end

end Rephrase.Edit
