import Rephrase.Text.Slice

/-! A text can be cut at an offset just where the characters in front of it fill as many bytes. -/

namespace Rephrase.Text

@[simp] theorem size_nil : size [] = 0 := rfl

theorem foldl_size (n : Nat) (cs : List Char) :
    cs.foldl (fun n c => n + c.utf8Size) n = n + size cs := by
  induction cs generalizing n with
  | nil => rfl
  | cons c cs ih =>
    unfold size
    rw [List.foldl_cons, List.foldl_cons, ih, ih (0 + c.utf8Size)]
    omega

@[simp] theorem size_cons (c : Char) (cs : List Char) :
    size (c :: cs) = c.utf8Size + size cs := by
  rw [size, List.foldl_cons, foldl_size, Nat.zero_add]

@[simp] theorem size_append (cs ds : List Char) : size (cs ++ ds) = size cs + size ds := by
  rw [size, List.foldl_append, foldl_size]
  rfl

theorem size_reverse (cs : List Char) : size cs.reverse = size cs := by
  induction cs with
  | nil => rfl
  | cons c cs ih =>
    rw [List.reverse_cons, size_append, ih, size_cons, size_cons, size_nil]
    omega

theorem length_le_size (cs : List Char) : cs.length ≤ size cs := by
  induction cs with
  | nil => exact Nat.le_refl 0
  | cons c cs ih =>
    have hc := c.utf8Size_pos
    rw [List.length_cons, size_cons]
    omega

theorem size_pos_of_ne_nil {cs : List Char} (h : cs ≠ []) : 0 < size cs := by
  obtain ⟨c, rest, rfl⟩ := List.exists_cons_of_ne_nil h
  have hc := c.utf8Size_pos
  rw [size_cons]
  omega

theorem eq_nil_of_size {cs : List Char} (h : size cs = 0) : cs = [] := by
  by_cases hcs : cs = []
  · exact hcs
  · have hpos := size_pos_of_ne_nil hcs
    omega

theorem append_inj_of_size {a b c d : List Char} (h : a ++ b = c ++ d)
    (hsize : size a = size c) : a = c ∧ b = d := by
  induction a generalizing c with
  | nil =>
    obtain rfl := eq_nil_of_size hsize.symm
    exact ⟨rfl, h⟩
  | cons x a ih =>
    cases c with
    | nil => exact absurd (eq_nil_of_size hsize) (List.cons_ne_nil x a)
    | cons y c =>
      obtain ⟨rfl, htail⟩ := List.cons.inj h
      rw [size_cons, size_cons] at hsize
      obtain ⟨rfl, rfl⟩ := ih htail (by omega)
      exact ⟨rfl, rfl⟩

/-- Of two fronts of one text, the one that is not longer is a front of the other. -/
theorem append_split_of_size_le {a b c d : List Char} (h : a ++ b = c ++ d)
    (hsize : size a ≤ size c) : ∃ mid, c = a ++ mid ∧ b = mid ++ d := by
  obtain ⟨mid, hc, hb⟩ | ⟨mid, ha, hd⟩ := List.append_eq_append_iff.mp h
  · exact ⟨mid, hc, hb⟩
  · rw [ha, size_append] at hsize
    have hmid : size mid = 0 := by omega
    obtain rfl := eq_nil_of_size hmid
    exact ⟨[], by simp [ha], by simpa using hd.symm⟩

/-! ## Cuts -/

theorem cutFrom_append (done front rest : List Char) :
    cutFrom done (front ++ rest) (size front) = some (done.reverse ++ front, rest) := by
  induction front generalizing done with
  | nil => cases rest <;> simp [cutFrom]
  | cons c front ih =>
    -- A cut goes on while bytes are left, and this character has some.
    obtain ⟨n, hn⟩ : ∃ n, size (c :: front) = n + 1 :=
      Nat.exists_eq_succ_of_ne_zero (Nat.ne_of_gt (size_pos_of_ne_nil (List.cons_ne_nil c front)))
    have hc : c.utf8Size ≤ n + 1 := by
      rw [← hn, size_cons]
      omega
    have hrest : n + 1 - c.utf8Size = size front := by
      rw [← hn, size_cons]
      omega
    rw [hn, List.cons_append, cutFrom, if_pos hc, hrest, ih]
    simp

theorem of_cutFrom {done cs front rest : List Char} {n : Nat}
    (h : cutFrom done cs n = some (front, rest)) :
    ∃ w, front = done.reverse ++ w ∧ cs = w ++ rest ∧ size w = n := by
  induction cs generalizing done n with
  | nil =>
    cases n with
    | zero =>
      obtain ⟨rfl, rfl⟩ : _ ∧ _ := by simpa [cutFrom] using h
      exact ⟨[], by simp⟩
    | succ n => simp [cutFrom] at h
  | cons c cs ih =>
    cases n with
    | zero =>
      obtain ⟨rfl, rfl⟩ : _ ∧ _ := by simpa [cutFrom] using h
      exact ⟨[], by simp⟩
    | succ n =>
      rw [cutFrom] at h
      split at h
      · obtain ⟨w, rfl, rfl, hw⟩ := ih h
        refine ⟨c :: w, by simp, rfl, ?_⟩
        rw [size_cons]
        omega
      · simp at h

theorem cut?_append (front rest : List Char) :
    cut? (front ++ rest) (size front) = some (front, rest) :=
  cutFrom_append [] front rest

theorem of_cut? {cs front rest : List Char} {n : Nat} (h : cut? cs n = some (front, rest)) :
    cs = front ++ rest ∧ size front = n := by
  obtain ⟨w, rfl, hcs, hw⟩ := of_cutFrom h
  exact ⟨hcs, hw⟩

theorem slice?_append (front text back : List Char) :
    slice? (front ++ text ++ back) (size front) (size front + size text) = some text := by
  rw [slice?, if_pos (Nat.le_add_right _ _), List.append_assoc, cut?_append]
  show (cut? (text ++ back) (size front + size text - size front)).map Prod.fst = some text
  rw [Nat.add_sub_cancel_left, cut?_append]
  rfl

theorem of_slice? {cs text : List Char} {start stop : Nat}
    (h : slice? cs start stop = some text) :
    ∃ front back, cs = front ++ text ++ back ∧ size front = start ∧
      size front + size text = stop := by
  unfold slice? at h
  split at h
  · rename_i hle
    split at h
    · rename_i front rest hcut
      obtain ⟨⟨text', back⟩, hcut', rfl⟩ := Option.map_eq_some_iff.mp h
      obtain ⟨rfl, hfront⟩ := of_cut? hcut
      obtain ⟨rfl, htext⟩ := of_cut? hcut'
      refine ⟨front, back, (List.append_assoc _ _ _).symm, hfront, ?_⟩
      show size front + size text' = stop
      omega
    · simp at h
  · simp at h

theorem splice?_append (front text back wanted : List Char) :
    splice? (front ++ text ++ back) (size front) (size front + size text) wanted =
      some (front ++ wanted ++ back) := by
  rw [splice?, if_pos (Nat.le_add_right _ _), List.append_assoc, cut?_append]
  show (cut? (text ++ back) (size front + size text - size front)).map _ = _
  rw [Nat.add_sub_cancel_left, cut?_append]
  rfl

/-- A text stands where it is found. -/
theorem of_findFrom {needle cs : List Char} {offset found : Nat}
    (h : findFrom needle offset cs = some found) :
    ∃ front back, cs = front ++ needle ++ back ∧ found = offset + size front := by
  induction cs generalizing offset with
  | nil =>
    rw [findFrom] at h
    split at h
    · rename_i hneedle
      obtain rfl := List.isEmpty_iff.mp hneedle
      exact ⟨[], [], rfl, (Option.some.inj h).symm⟩
    · cases h
  | cons c rest ih =>
    rw [findFrom] at h
    split at h
    · rename_i hprefix
      obtain ⟨back, hback⟩ := List.isPrefixOf_iff_prefix.mp hprefix
      exact ⟨[], back, hback.symm, (Option.some.inj h).symm⟩
    · obtain ⟨front, back, rfl, rfl⟩ := ih h
      exact ⟨c :: front, back, rfl, by rw [size_cons, Nat.add_assoc]⟩

end Rephrase.Text
