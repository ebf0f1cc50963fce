import Mathlib
import Rephrase.Fault
import Rephrase.Json.Decode
import Rephrase.Proofs.Json.Range
import Rephrase.Proofs.Json.Reread
import Rephrase.Proofs.Keyed

/-! What is left of a value once it is kept: its normal form, which is kept as it is. A value is read
back as its normal form unless it holds floats, and it is read back at all unless it is nested too
deep. -/

namespace Rephrase.Json

/-! ## Parts of values -/

theorem normalizeItems_eq_map (items : List Json) : normalizeItems items = items.map normalize := by
  induction items with
  | nil => rfl
  | cons item rest ih => rw [normalizeItems, ih, List.map_cons]

theorem normalizeMembers_eq_map (members : List (String × Json)) :
    normalizeMembers members = members.map fun m => (m.1, m.2.normalize) := by
  induction members with
  | nil => rfl
  | cons member rest ih => rw [normalizeMembers, ih, List.map_cons]

theorem itemsToDocuments_eq_map (items : List Json) :
    itemsToDocuments items = items.map toDocument := by
  induction items with
  | nil => rfl
  | cons item rest ih => rw [itemsToDocuments, ih, List.map_cons]

theorem membersToDocuments_eq_map (members : List (String × Json)) :
    membersToDocuments members = members.map fun m => (some m.1, m.2.toDocument) := by
  induction members with
  | nil => rfl
  | cons member rest ih => rw [membersToDocuments, ih, List.map_cons]

theorem normalize_object (members : List (String × Json)) : (Json.object members).normalize =
    .object (Keyed.ofList (members.map fun m => (m.1, m.2.normalize))) := by
  rw [normalize, normalizeMembers_eq_map, Keyed.ofMembers_eq]

/-- What a value has whose parts have it, every value has. -/
theorem rec_parts {p : Json → Prop} (null : p .null) (bool : ∀ b, p (.bool b))
    (string : ∀ s, p (.string s)) (number : ∀ n, p (.number n))
    (array : ∀ items, (∀ item ∈ items, p item) → p (.array items))
    (object : ∀ members, (∀ m ∈ members, p m.2) → p (.object members)) : ∀ json, p json
  | .null => null
  | .bool b => bool b
  | .string s => string s
  | .number n => number n
  | .array items =>
    array items fun item _ => rec_parts null bool string number array object item
  | .object members =>
    object members fun m _ => rec_parts null bool string number array object m.2
termination_by json => sizeOf json
decreasing_by
  · have := List.sizeOf_lt_of_mem ‹item ∈ items›
    simp
    omega
  · have := List.sizeOf_lt_of_mem ‹m ∈ members›
    have : sizeOf m.2 < sizeOf m := by
      obtain ⟨key, value⟩ := m
      simp
    simp
    omega

/-- The number of levels that arrays and objects are nested. -/
def depth (json : Json) : Nat := json.toDocument.depth

theorem itemsDepth_le_iff {items : List Json} {n : Nat} :
    itemsDepth (itemsToDocuments items) ≤ n ↔ ∀ item ∈ items, item.depth ≤ n := by
  induction items with
  | nil => simp [itemsToDocuments, itemsDepth]
  | cons item rest ih => simp [itemsToDocuments, itemsDepth, ih, depth]

theorem membersDepth_le_iff {members : List (String × Json)} {n : Nat} :
    membersDepth (membersToDocuments members) ≤ n ↔ ∀ m ∈ members, m.2.depth ≤ n := by
  induction members with
  | nil => simp [membersToDocuments, membersDepth]
  | cons member rest ih => simp [membersToDocuments, membersDepth, ih, depth]

theorem depth_array_le_iff {items : List Json} {n : Nat} :
    (Json.array items).depth ≤ n + 1 ↔ ∀ item ∈ items, item.depth ≤ n := by
  rw [← itemsDepth_le_iff, depth, toDocument, Document.depth, Nat.add_le_add_iff_right]

theorem depth_object_le_iff {members : List (String × Json)} {n : Nat} :
    (Json.object members).depth ≤ n + 1 ↔ ∀ m ∈ members, m.2.depth ≤ n := by
  rw [← membersDepth_le_iff, depth, toDocument, Document.depth, Nat.add_le_add_iff_right]

mutual

/-- Whether all numbers of a value are of one kind. -/
def allNumbers (kind : Number → Bool) : Json → Bool
  | .number n => kind n
  | .array items => allNumbersItems kind items
  | .object members => allNumbersMembers kind members
  | _ => true

def allNumbersItems (kind : Number → Bool) : List Json → Bool
  | [] => true
  | item :: rest => allNumbers kind item && allNumbersItems kind rest

def allNumbersMembers (kind : Number → Bool) : List (String × Json) → Bool
  | [] => true
  | (_, value) :: rest => allNumbers kind value && allNumbersMembers kind rest

end

/-- An integer that fits in 64 bits. -/
def Number.isWord : Number → Bool
  | .integer n => decide (IsWord n)
  | .float _ => false

/-- A number that has a written form that can be read. -/
def Number.isReadable : Number → Bool
  | .integer n => decide (IsWord n)
  | .float _ => true

section

variable {kind : Number → Bool}

theorem allNumbers_array_iff {items : List Json} : (Json.array items).allNumbers kind = true ↔
    ∀ item ∈ items, item.allNumbers kind = true := by
  rw [allNumbers]
  induction items with
  | nil => simp [allNumbersItems]
  | cons item rest ih => simp [allNumbersItems, ih]

theorem allNumbers_object_iff {members : List (String × Json)} :
    (Json.object members).allNumbers kind = true ↔ ∀ m ∈ members, m.2.allNumbers kind = true := by
  rw [allNumbers]
  induction members with
  | nil => simp [allNumbersMembers]
  | cons member rest ih => simp [allNumbersMembers, ih]

theorem allNumbers_ofStrings (ss : List String) : (ofStrings ss).allNumbers kind = true :=
  allNumbers_array_iff.mpr (List.forall_mem_map.mpr fun _ _ => rfl)

theorem allNumbers_mono {kind' : Number → Bool} (hkind : ∀ n, kind n = true → kind' n = true)
    (json : Json) (h : json.allNumbers kind = true) : json.allNumbers kind' = true := by
  induction json using rec_parts with
  | null | bool | string => rfl
  | number n => exact hkind n h
  | array items ih =>
    exact allNumbers_array_iff.mpr fun item hitem =>
      ih item hitem (allNumbers_array_iff.mp h item hitem)
  | object members ih =>
    exact allNumbers_object_iff.mpr fun m hm => ih m hm (allNumbers_object_iff.mp h m hm)

end

theorem isReadable_of_isWord (n : Number) (h : n.isWord = true) : n.isReadable = true := by
  cases n with
  | integer n => exact h
  | float x => rfl

theorem allNumbers_ofNat {n : Nat} (h : n < Fault.wordLimit) :
    (ofNat n).allNumbers Number.isWord = true := by
  have hword : IsWord n :=
    ⟨Int.le_trans (by decide) (Int.natCast_nonneg n), Int.ofNat_lt.mpr h⟩
  rw [ofNat, allNumbers, Number.isWord]
  exact decide_eq_true hword

/-! ## Normal forms -/

theorem normalize_normalize (json : Json) : json.normalize.normalize = json.normalize := by
  induction json using rec_parts with
  | null | bool | string => rfl
  | number n =>
    cases n with
    | integer n => rfl
    | float x =>
      rw [normalize, ofFloat]
      split
      · rename_i hfinite
        rw [normalize, ofFloat, if_pos hfinite]
      · rfl
  | array items ih =>
    rw [normalize, normalize, normalizeItems_eq_map, normalizeItems_eq_map, List.map_map]
    exact congrArg _ (List.map_congr_left ih)
  | object members ih =>
    rw [normalize_object, normalize_object]
    -- The members that are kept have normal values, in the order of their keys.
    have hnormal : (Keyed.ofList (members.map fun m => (m.1, m.2.normalize))).map
        (fun m => (m.1, m.2.normalize)) = Keyed.ofList (members.map fun m => (m.1, m.2.normalize)) := by
      refine (List.map_congr_left fun e he => ?_).trans (List.map_id _)
      obtain ⟨m, hm, rfl⟩ := List.mem_map.mp (Keyed.of_mem_ofList he)
      rw [ih m hm]
      rfl
    rw [hnormal, Keyed.ofList_of_ascending (Keyed.ascending_ofList _)]

theorem depth_normalize_le (json : Json) : json.normalize.depth ≤ json.depth := by
  induction json using rec_parts with
  | null | bool | string => exact Nat.le_refl _
  | number n =>
    cases n with
    | integer n => exact Nat.le_refl _
    | float x =>
      rw [normalize, ofFloat]
      split <;> exact Nat.le_refl _
  | array items ih =>
    have hsucc : (Json.array items).depth = itemsDepth (itemsToDocuments items) + 1 := rfl
    rw [normalize, hsucc, depth_array_le_iff, normalizeItems_eq_map]
    intro item hitem
    obtain ⟨inner, hinner, rfl⟩ := List.mem_map.mp hitem
    exact Nat.le_trans (ih inner hinner) (itemsDepth_le_iff.mp (Nat.le_refl _) inner hinner)
  | object members ih =>
    have hsucc : (Json.object members).depth = membersDepth (membersToDocuments members) + 1 := rfl
    rw [normalize_object, hsucc, depth_object_le_iff]
    intro e he
    obtain ⟨m, hm, rfl⟩ := List.mem_map.mp (Keyed.of_mem_ofList he)
    exact Nat.le_trans (ih m hm) (membersDepth_le_iff.mp (Nat.le_refl _) m hm)

theorem allNumbers_normalize {kind : Number → Bool} (json : Json)
    (h : json.allNumbers kind = true) : json.normalize.allNumbers kind = true := by
  induction json using rec_parts with
  | null | bool | string => rfl
  | number n =>
    cases n with
    | integer n => exact h
    | float x =>
      rw [normalize, ofFloat]
      split
      · exact h
      · rfl
  | array items ih =>
    rw [normalize, allNumbers_array_iff, normalizeItems_eq_map]
    intro item hitem
    obtain ⟨inner, hinner, rfl⟩ := List.mem_map.mp hitem
    exact ih inner hinner (allNumbers_array_iff.mp h inner hinner)
  | object members ih =>
    rw [normalize_object, allNumbers_object_iff]
    intro e he
    obtain ⟨m, hm, rfl⟩ := List.mem_map.mp (Keyed.of_mem_ofList he)
    exact ih m hm (allNumbers_object_iff.mp h m hm)

/-! ## Reading back -/

/-- A number is read as what it is unless it is a float. -/
theorem Number.exists_value?_reread {n : Number} (h : n.isReadable = true) (levels : Nat) :
    ∃ value, n.reread.value? levels = some value ∧
      (n.isWord = true → value = (Json.number n).normalize) := by
  cases n with
  | integer n =>
    refine ⟨.number (.integer n), ?_, fun _ => rfl⟩
    rw [Number.reread, value?_ofInt (of_decide_eq_true h)]
    rfl
  | float x =>
    unfold Number.reread
    dsimp only
    split
    · rename_i hfinite
      obtain ⟨n, hn⟩ := value?_numeralOf hfinite
      rw [hn]
      exact ⟨.number n, rfl, nofun⟩
    · exact ⟨.null, rfl, nofun⟩

theorem values?_eq_some {levels : Nat} {items : List Json} {f : Json → Json}
    (h : ∀ item ∈ items, item.reread.value? levels = some (f item)) :
    values? levels (rereadItems items) = some (items.map f) := by
  induction items with
  | nil => rfl
  | cons item rest ih =>
    obtain ⟨hitem, hrest⟩ := List.forall_mem_cons.mp h
    rw [rereadItems, values?, hitem, ih hrest]
    rfl

theorem members?_eq_some {levels : Nat} {members : List (String × Json)} {f : Json → Json}
    (h : ∀ m ∈ members, m.2.reread.value? levels = some (f m.2)) :
    members? levels (rereadMembers members) = some (members.map fun m => (m.1, f m.2)) := by
  induction members with
  | nil => rfl
  | cons member rest ih =>
    obtain ⟨hmember, hrest⟩ := List.forall_mem_cons.mp h
    rw [rereadMembers, members?, hmember, ih hrest]
    rfl

/-- A value that is not nested too deep is read back, as its normal form if it holds no floats. -/
theorem exists_value?_reread (json : Json) {levels : Nat}
    (h : json.allNumbers Number.isReadable = true) (hdepth : json.depth ≤ levels) :
    ∃ value, json.reread.value? levels = some value ∧
      (json.allNumbers Number.isWord = true → value = json.normalize) := by
  induction json using rec_parts generalizing levels with
  | null => exact ⟨.null, rfl, fun _ => rfl⟩
  | bool b => exact ⟨.bool b, rfl, fun _ => rfl⟩
  | string s => exact ⟨.string s, rfl, fun _ => rfl⟩
  | number n => exact Number.exists_value?_reread h levels
  | array items ih =>
    obtain ⟨inner, rfl⟩ : ∃ inner, levels = inner + 1 := by
      refine Nat.exists_eq_succ_of_ne_zero (Nat.ne_of_gt (Nat.lt_of_lt_of_le ?_ hdepth))
      exact Nat.succ_pos _
    rw [depth_array_le_iff] at hdepth
    rw [allNumbers_array_iff] at h
    choose! f hf hword using fun item hitem => ih item hitem (h item hitem) (hdepth item hitem)
    refine ⟨.array (items.map f), ?_, fun hall => ?_⟩
    · rw [reread, Document.value?, values?_eq_some hf]
      rfl
    · rw [normalize, normalizeItems_eq_map]
      rw [allNumbers_array_iff] at hall
      exact congrArg _ (List.map_congr_left fun item hitem => hword item hitem (hall item hitem))
  | object members ih =>
    obtain ⟨inner, rfl⟩ : ∃ inner, levels = inner + 1 := by
      refine Nat.exists_eq_succ_of_ne_zero (Nat.ne_of_gt (Nat.lt_of_lt_of_le ?_ hdepth))
      exact Nat.succ_pos _
    rw [depth_object_le_iff] at hdepth
    rw [allNumbers_object_iff] at h
    -- The reread values are chosen by value, not by member, since a key may occur more than once.
    have hvalues : ∀ value, (∃ m ∈ members, m.2 = value) → ∃ value', value.reread.value? inner =
        some value' ∧ (value.allNumbers Number.isWord = true → value' = value.normalize) := by
      rintro _ ⟨m, hm, rfl⟩
      exact ih m hm (h m hm) (hdepth m hm)
    choose! f hf hword using hvalues
    refine ⟨.object (Keyed.ofList (members.map fun m => (m.1, f m.2))), ?_, fun hall => ?_⟩
    · rw [reread, Document.value?, members?_eq_some fun m hm => hf m.2 ⟨m, hm, rfl⟩]
      exact congrArg some (Keyed.ofMembers_eq _)
    · rw [normalize_object]
      rw [allNumbers_object_iff] at hall
      congr 2
      exact List.map_congr_left fun m hm => by rw [hword m.2 ⟨m, hm, rfl⟩ (hall m hm)]

theorem value?_reread {json : Json} {levels : Nat} (h : json.allNumbers Number.isWord = true)
    (hdepth : json.depth ≤ levels) : json.reread.value? levels = some json.normalize := by
  obtain ⟨value, hvalue, hword⟩ :=
    exists_value?_reread json (allNumbers_mono isReadable_of_isWord json h) hdepth
  rw [hvalue, hword h]

/-- Without floats a text is read as the value that it was written for. -/
theorem reread_eq_toDocument (json : Json) (h : json.allNumbers Number.isWord = true) :
    json.reread = json.toDocument := by
  induction json using rec_parts with
  | null | bool | string => rfl
  | number n =>
    cases n with
    | integer n => rw [reread, Number.reread, value?_ofInt (of_decide_eq_true h), toDocument]
    | float x => cases h
  | array items ih =>
    rw [allNumbers_array_iff] at h
    rw [reread, toDocument, rereadItems_eq_map, itemsToDocuments_eq_map]
    exact congrArg _ (List.map_congr_left fun item hitem => ih item hitem (h item hitem))
  | object members ih =>
    rw [allNumbers_object_iff] at h
    rw [reread, toDocument, rereadMembers_eq_map, membersToDocuments_eq_map]
    exact congrArg _ (List.map_congr_left fun m hm => by rw [ih m hm (h m hm)])

/-- A value without floats that is in its normal form is what it is taken for. -/
theorem decode?_any {json : Json} (h : json.allNumbers Number.isWord = true)
    (hnormal : json.normalize = json) : decode? Decode.any json = some json := by
  show json.toDocument.value? json.toDocument.depth = some json
  rw [← reread_eq_toDocument json h]
  have hvalue := value?_reread h (Nat.le_refl json.depth)
  rw [hnormal] at hvalue
  rw [reread_eq_toDocument json h] at hvalue ⊢
  exact hvalue

end Rephrase.Json
