import Rephrase.Proofs.Edit.Way
import Rephrase.Proofs.Text.Occurrence

/-! The place that is nearest to a line is the first one on it, if there is one. A new text shows at
which place it was put, if it starts unlike the old one. -/

namespace Rephrase.Edit

open Text

theorem distance_eq_zero {a b : Nat} : distance a b = 0 ↔ a = b := by
  unfold distance
  omega

theorem nearer_eq_or (line : Nat) (best next : Nat × Nat) :
    nearer line best next = best ∨ nearer line best next = next := by
  unfold nearer
  split
  · exact .inr rfl
  · exact .inl rfl

theorem nearer_of_here {line : Nat} {best : Nat × Nat} (h : best.2 = line) (next : Nat × Nat) :
    nearer line best next = best := by
  have hbest := distance_eq_zero.mpr h
  rw [nearer, if_neg (by omega)]

theorem nearer_of_next_here {line : Nat} {best next : Nat × Nat} (h : best.2 ≠ line)
    (hnext : next.2 = line) : nearer line best next = next := by
  have hbest : distance best.2 line ≠ 0 := fun hzero => h (distance_eq_zero.mp hzero)
  have hzero := distance_eq_zero.mpr hnext
  rw [nearer, if_pos (by omega)]

theorem foldl_nearer_of_find? {line : Nat} {first place : Nat × Nat} {rest : List (Nat × Nat)}
    (h : (first :: rest).find? (·.2 = line) = some place) :
    rest.foldl (nearer line) first = place := by
  -- The best place so far takes the part of the first one.
  induction rest generalizing first with
  | nil =>
    rw [List.find?_cons] at h
    split at h
    · exact Option.some.inj h
    · simp at h
  | cons next rest ih =>
    rw [List.foldl_cons]
    apply ih
    by_cases hfirst : first.2 = line
    · rw [nearer_of_here hfirst]
      rwa [List.find?_cons_of_pos (by simpa using hfirst)] at h ⊢
    · rw [List.find?_cons_of_neg (by simpa using hfirst)] at h
      by_cases hnext : next.2 = line
      · rwa [nearer_of_next_here hfirst hnext]
      · rw [List.find?_cons_of_neg (by simpa using hnext)] at h
        -- Neither is on the line, so whichever stays is passed over by the search as well.
        obtain heq | heq := nearer_eq_or line first next
        · rwa [heq, List.find?_cons_of_neg (by simpa using hfirst)]
        · rwa [heq, List.find?_cons_of_neg (by simpa using hnext)]

theorem nearestPlace?_of_find? {needle cs : List Char} {line : Nat} {place : Nat × Nat}
    (h : (occurrences needle cs).find? (·.2 = line) = some place) :
    nearestPlace? needle cs line = some place.1 := by
  unfold nearestPlace?
  split
  · rename_i hnil
    rw [hnil] at h
    simp at h
  · rename_i first rest hcons
    rw [hcons] at h
    rw [foldl_nearer_of_find? h]

/-- A text is replaced where it was found, if it was the first of its kind on its line. What has
changed behind it since does not matter. -/
theorem replaceNearest?_of_find? {front old back : List Char} {line : Nat} {place : Nat × Nat}
    (hold : old ≠ []) (hplace : place.1 = size front)
    (h : (occurrences old (front ++ old ++ back)).find? (·.2 = line) = some place)
    (wanted back' : List Char) :
    replaceNearest? (front ++ old ++ back') old wanted line = some (front ++ wanted ++ back') := by
  have hfind := find?_occurrences_append hold hplace h back'
  rw [replaceNearest?, nearestPlace?_of_find? hfind, Option.bind_some, hplace, splice?_append]

theorem foldl_nearer_mem (line : Nat) (first : Nat × Nat) (rest : List (Nat × Nat)) :
    rest.foldl (nearer line) first ∈ first :: rest := by
  induction rest generalizing first with
  | nil => exact List.mem_singleton.mpr rfl
  | cons next rest ih =>
    rw [List.foldl_cons]
    obtain heq | heq := nearer_eq_or line first next
    · rw [heq]
      exact List.cons_subset_cons first (List.subset_cons_self next rest) (ih first)
    · rw [heq]
      exact List.mem_cons_of_mem first (ih next)

theorem exists_of_nearestPlace? {needle cs : List Char} {line start : Nat}
    (h : nearestPlace? needle cs line = some start) :
    ∃ place ∈ occurrences needle cs, place.1 = start := by
  unfold nearestPlace? at h
  split at h
  · simp at h
  · rename_i first rest hcons
    rw [hcons]
    exact ⟨_, foldl_nearer_mem line first rest, Option.some.inj h⟩

/-- A place that is the nearest one to its own line is the first one on it. -/
theorem find?_of_nearestPlace? {needle front back : List Char}
    (h : nearestPlace? needle (front ++ back) (positionBehind front).line = some (size front)) :
    ((occurrences needle (front ++ back)).find? (·.2 = (positionBehind front).line)).map Prod.fst =
      some (size front) := by
  obtain ⟨place, hplace, hstart⟩ := exists_of_nearestPlace? h
  have hline := line_of_mem_occurrences hplace hstart
  cases hfind : (occurrences needle (front ++ back)).find?
      (·.2 = (positionBehind front).line) with
  | none =>
    have hnone := List.find?_eq_none.mp hfind place hplace
    simp [hline] at hnone
  | some first =>
    rw [nearestPlace?_of_find? hfind] at h
    exact h

theorem ne_nil_of_nearestPlace? {needle cs : List Char} {line start : Nat}
    (h : nearestPlace? needle cs line = some start) : needle ≠ [] := by
  rintro rfl
  obtain ⟨place, hplace, -⟩ := exists_of_nearestPlace? h
  exact List.not_mem_nil hplace

/-- Texts with unlike first letters have no start in common. -/
theorem eq_nil_of_append {c d : Char} {cs ds mid back back' : List Char} (hne : c ≠ d)
    (h : c :: cs = mid ++ back) (h' : d :: ds = mid ++ back') : mid = [] := by
  cases mid with
  | nil => rfl
  | cons e mid =>
    rw [List.cons_append] at h h'
    exact absurd ((List.cons.inj h).1.trans (List.cons.inj h').1.symm) hne

/-- A new text that starts unlike the old one tells where it was put. -/
theorem eq_of_replaced {front front' old wanted back back' : List Char} {c d : Char} (hne : c ≠ d)
    (hbefore : front ++ (c :: old ++ back) = front' ++ (c :: old ++ back'))
    (hafter : front ++ (d :: wanted ++ back) = front' ++ (d :: wanted ++ back')) :
    front = front' := by
  obtain ⟨mid, rfl, hmid⟩ | ⟨mid, rfl, hmid⟩ := List.append_eq_append_iff.mp hbefore
  · rw [List.append_assoc, List.append_cancel_left_eq] at hafter
    rw [eq_nil_of_append hne hmid hafter, List.append_nil]
  · rw [List.append_assoc, List.append_cancel_left_eq] at hafter
    rw [eq_nil_of_append hne hmid hafter.symm, List.append_nil]

/-- What is replaced is the old text, at its nearest place. -/
theorem of_replaceNearest? {cs old wanted content : List Char} {line : Nat}
    (h : replaceNearest? cs old wanted line = some content) :
    ∃ front back, cs = front ++ old ++ back ∧ nearestPlace? old cs line = some (size front) ∧
      content = front ++ wanted ++ back := by
  obtain ⟨start, hstart, hsplice⟩ := Option.bind_eq_some_iff.mp h
  obtain ⟨place, hplace, rfl⟩ := exists_of_nearestPlace? hstart
  obtain ⟨front, back, rfl, hfront⟩ := of_mem_occurrences hplace
  rw [hfront, splice?_append] at hsplice
  exact ⟨front, back, rfl, by rw [hstart, hfront], (Option.some.inj hsplice).symm⟩

/-! ## Proposals without snippets -/

/-- A proposal that gives a new content in full. -/
structure Rewrites (p : Proposal) (node : Node) : Prop where
  noSnippet : p.oldSnippet = none ∧ p.newSnippet = none
  old : p.oldContent = node.content
  new : p.newContent ≠ node.content
  strategy : p.strategy ≠ .skip

theorem Rewrites.changesNothing {p : Proposal} {node : Node} (h : Rewrites p node) :
    Edit.changesNothing p = false := by
  have hcontent : (p.oldContent == p.newContent) = false := by
    rw [h.old]
    simpa using h.new.symm
  unfold Edit.changesNothing
  rw [hcontent, Bool.and_false]

/-- Without pieces the content is replaced at its nearest place. -/
theorem apply_of_replaceNearest? {cs content : List Char} {node : Node} {p : Proposal}
    (h : Rewrites p node) (hpieces : node.pieces = none)
    (hcontent : replaceNearest? cs node.content.toList p.newContent.toList node.start.line =
      some content) : Edit.apply cs node p = .ok (some (content, .direct)) := by
  rw [← h.old] at hcontent
  exact apply_of_direct (.inl h.noSnippet.1) hpieces (congrArg _ hcontent)

/-- A content is only replaced at its nearest place, unless it has to be looked for up to its case. -/
theorem replaceNearest?_of_apply {cs content : List Char} {node : Node} {p : Proposal}
    (h : Rewrites p node) (happly : Edit.apply cs node p = .ok (some (content, .direct))) :
    replaceNearest? cs node.content.toList p.newContent.toList node.start.line = some content := by
  rw [← h.old]
  exact Except.ok.inj (alone_of_apply_some happly)

/-- With pieces the words are dealt out to them first. -/
theorem apply_of_dealOut {cs content : List Char} {node : Node} {p : Proposal}
    {pieces : List Piece} (h : Rewrites p node) (hpieces : node.pieces = some pieces)
    (hcontent : dealOut cs pieces p.newContent.toList = .ok (some content)) :
    Edit.apply cs node p = .ok (some (content, .fragments)) := by
  refine apply_of_fragments (.inl h.noSnippet.1) ?_
  rw [alone, hpieces]
  exact hcontent

end Rephrase.Edit
