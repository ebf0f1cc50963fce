import Mathlib
import Rephrase.Json.Decode
import Rephrase.Proofs.Json.Normal

/-! What is read from a text can be written and read again: its numbers are of a readable kind, and a
value that is made of it is nested no deeper than was allowed. -/

namespace Rephrase.Json

/-! ## Documents -/

/-- A document whose numbers are as a text gives them. -/
inductive Document.IsRead : Document → Prop
  | null : IsRead .null
  | bool (b : Bool) : IsRead (.bool b)
  | number {n : Option Number} (h : ∀ value ∈ n, value.isReadable = true) : IsRead (.number n)
  | string (s : Option String) : IsRead (.string s)
  | array {items : List Document} (h : ∀ item ∈ items, IsRead item) : IsRead (.array items)
  | object {members : List (Option String × Document)} (h : ∀ m ∈ members, IsRead m.2) :
    IsRead (.object members)

theorem Numeral.isReadable_of_value? {numeral : Numeral} {n : Number}
    (h : numeral.value? = some n) : n.isReadable = true := by
  unfold value? at h
  generalize Decimal.ofDigits numeral.whole = whole at h
  generalize numeral.negative = negative at h
  dsimp only at h
  by_cases hinteger : (numeral.fraction.isNone && numeral.exponent.isNone &&
      (if negative then whole ≠ 0 && whole ≤ 0x8000000000000000
        else whole < 0x10000000000000000 : Bool)) = true
  · rw [if_pos hinteger] at h
    cases h
    obtain ⟨-, hbounds⟩ := Bool.and_eq_true_iff.mp hinteger
    cases negative <;> simp [Number.isReadable, IsWord] at hbounds ⊢ <;> omega
  · rw [if_neg hinteger] at h
    obtain ⟨x, -, rfl⟩ := Option.map_eq_some_iff.mp h
    rfl

theorem of_readWord {word cs rest : List Char} {value document : Document}
    (h : readWord word value cs = some (document, rest)) : document = value := by
  unfold readWord at h
  split at h
  · cases h
    rfl
  · cases h

/-- With so much fuel all parts of a text are read into such documents. -/
structure AreRead (fuel : Nat) : Prop where
  value : ∀ {cs document rest}, readValue fuel cs = some (document, rest) → document.IsRead
  items : ∀ {done cs document rest}, (∀ item ∈ done, Document.IsRead item) →
    readItems fuel done cs = some (document, rest) → document.IsRead
  members : ∀ {done : List (Option String × Document)} {cs document rest},
    (∀ m ∈ done, m.2.IsRead) → readMembers fuel done cs = some (document, rest) → document.IsRead

namespace AreRead

variable {fuel : Nat} (ih : AreRead fuel) {cs rest : List Char} {document : Document}
include ih

theorem value_succ (h : readValue (fuel + 1) cs = some (document, rest)) : document.IsRead := by
  rw [readValue] at h
  split at h
  · obtain ⟨s, -, heq⟩ := Option.map_eq_some_iff.mp h
    cases heq
    exact .string _
  · split at h
    · cases h
      exact .array (List.forall_mem_nil _)
    · exact ih.items (List.forall_mem_nil _) h
  · split at h
    · cases h
      exact .object (List.forall_mem_nil _)
    · exact ih.members (List.forall_mem_nil _) h
  · exact of_readWord h ▸ .null
  · exact of_readWord h ▸ .bool true
  · exact of_readWord h ▸ .bool false
  · obtain ⟨n, -, heq⟩ := Option.map_eq_some_iff.mp h
    cases heq
    exact .number fun value hvalue => Numeral.isReadable_of_value? hvalue

theorem items_succ {done : List Document} (hdone : ∀ item ∈ done, item.IsRead)
    (h : readItems (fuel + 1) done cs = some (document, rest)) : document.IsRead := by
  rw [readItems] at h
  split at h
  · cases h
  rename_i item more hitem
  have hmore : ∀ item' ∈ item :: done, Document.IsRead item' :=
    List.forall_mem_cons.mpr ⟨ih.value hitem, hdone⟩
  split at h
  · exact ih.items hmore h
  · cases h
    exact .array fun item' hitem' => hmore item' (List.mem_reverse.mp hitem')
  · cases h

theorem members_succ {done : List (Option String × Document)} (hdone : ∀ m ∈ done, m.2.IsRead)
    (h : readMembers (fuel + 1) done cs = some (document, rest)) : document.IsRead := by
  rw [readMembers] at h
  split at h
  swap
  · cases h
  split at h
  · cases h
  split at h
  swap
  · cases h
  split at h
  · cases h
  rename_i hitem
  split at h
  · exact ih.members (List.forall_mem_cons.mpr ⟨ih.value hitem, hdone⟩) h
  · cases h
    refine .object fun m hm => ?_
    obtain rfl | hm := List.mem_cons.mp (List.mem_reverse.mp hm)
    · exact ih.value hitem
    · exact hdone m hm
  · cases h

end AreRead

theorem areRead (fuel : Nat) : AreRead fuel := by
  induction fuel with
  | zero => exact ⟨nofun, fun _ => nofun, fun _ => nofun⟩
  | succ fuel ih => exact ⟨ih.value_succ, ih.items_succ, ih.members_succ⟩

theorem Document.isRead_of_ofText? {cs : List Char} {document : Document}
    (h : Document.ofText? cs = some document) : document.IsRead := by
  unfold ofText? at h
  split at h
  · rename_i read rest hread
    split at h
    · cases h
      exact (areRead _).value hread
    · cases h
  · cases h

/-! ## Values -/

theorem of_mem_values? {levels : Nat} {items : List Document} {values : List Json}
    (h : values? levels items = some values) :
    ∀ value ∈ values, ∃ item ∈ items, item.value? levels = some value := by
  induction items generalizing values with
  | nil =>
    cases h
    nofun
  | cons item rest ih =>
    rw [values?] at h
    split at h
    · cases h
    · rename_i first hfirst
      obtain ⟨others, hothers, rfl⟩ := Option.map_eq_some_iff.mp h
      refine List.forall_mem_cons.mpr ⟨⟨item, List.mem_cons_self, hfirst⟩, fun value hvalue => ?_⟩
      obtain ⟨other, hother, heq⟩ := ih hothers value hvalue
      exact ⟨other, List.mem_cons_of_mem _ hother, heq⟩

theorem of_mem_members? {levels : Nat} {members : List (Option String × Document)}
    {values : List (String × Json)} (h : members? levels members = some values) :
    ∀ e ∈ values, ∃ m ∈ members, m.2.value? levels = some e.2 := by
  induction members generalizing values with
  | nil =>
    cases h
    nofun
  | cons member rest ih =>
    obtain ⟨key, item⟩ := member
    cases key with
    | none => cases h
    | some key =>
      rw [members?] at h
      split at h
      · cases h
      · rename_i first hfirst
        obtain ⟨others, hothers, rfl⟩ := Option.map_eq_some_iff.mp h
        refine List.forall_mem_cons.mpr ⟨⟨_, List.mem_cons_self, hfirst⟩, fun e he => ?_⟩
        obtain ⟨other, hother, heq⟩ := ih hothers e he
        exact ⟨other, List.mem_cons_of_mem _ hother, heq⟩

/-- A value that is made of a text can be kept again at the same depth. -/
theorem Document.IsRead.of_value? {document : Document} (h : document.IsRead) {levels : Nat}
    {json : Json} (hvalue : document.value? levels = some json) :
    json.depth ≤ levels ∧ json.allNumbers Number.isReadable = true := by
  induction h generalizing levels json with
  | null =>
    cases hvalue
    exact ⟨Nat.zero_le _, rfl⟩
  | bool b =>
    cases hvalue
    exact ⟨Nat.zero_le _, rfl⟩
  | number hnumber =>
    obtain ⟨n, hn, rfl⟩ := Option.map_eq_some_iff.mp hvalue
    exact ⟨Nat.zero_le _, hnumber n hn⟩
  | string s =>
    obtain ⟨s, -, rfl⟩ := Option.map_eq_some_iff.mp hvalue
    exact ⟨Nat.zero_le _, rfl⟩
  | @array items _ ih =>
    cases levels with
    | zero => cases hvalue
    | succ inner =>
      obtain ⟨values, hvalues, rfl⟩ := Option.map_eq_some_iff.mp hvalue
      -- What an item gives has one level less, and the array adds it again.
      have hall : ∀ value ∈ values,
          value.depth ≤ inner ∧ value.allNumbers Number.isReadable = true := by
        intro value hmem
        obtain ⟨item, hitem, heq⟩ := of_mem_values? hvalues value hmem
        exact ih item hitem heq
      exact ⟨depth_array_le_iff.mpr fun value hmem => (hall value hmem).1,
        allNumbers_array_iff.mpr fun value hmem => (hall value hmem).2⟩
  | @object members _ ih =>
    cases levels with
    | zero => cases hvalue
    | succ inner =>
      obtain ⟨values, hvalues, rfl⟩ := Option.map_eq_some_iff.mp hvalue
      have hall : ∀ e ∈ Keyed.ofList values,
          e.2.depth ≤ inner ∧ e.2.allNumbers Number.isReadable = true := by
        intro e he
        obtain ⟨m, hm, heq⟩ := of_mem_members? hvalues e (Keyed.of_mem_ofList he)
        exact ih m hm heq
      rw [Keyed.ofMembers_eq]
      exact ⟨depth_object_le_iff.mpr fun e he => (hall e he).1,
        allNumbers_object_iff.mpr fun e he => (hall e he).2⟩

/-! ## Shapes -/

namespace Decode

variable {α β : Type}

/-- An object whose values are made one by one. -/
theorem members_map {decode : Decoder α} {inner : Nat} {entries : List (String × β)}
    (document : β → Document) (f : β → α)
    (h : ∀ e ∈ entries, decode inner (document e.2) = some (f e.2)) :
    members decode (inner + 1) (.object (entries.map fun e => (some e.1, document e.2))) =
      some (entries.map fun e => (e.1, f e.2)) := by
  rw [members]
  induction entries with
  | nil => rfl
  | cons e rest ih =>
    obtain ⟨hfirst, hrest⟩ := List.forall_mem_cons.mp h
    rw [List.map_cons, List.mapM_cons, ih hrest]
    dsimp only
    rw [hfirst]
    rfl

/-- What is made of an object's members is made of its parts. -/
theorem of_mem_members {decode : Decoder α} {levels : Nat} {document : Document}
    {entries : List (String × α)} (h : members decode levels document = some entries) :
    ∃ inner parts, levels = inner + 1 ∧ document = .object parts ∧
      ∀ e ∈ entries, ∃ m ∈ parts, decode inner m.2 = some e.2 := by
  unfold members at h
  split at h
  · rename_i inner parts
    refine ⟨inner, parts, rfl, rfl, ?_⟩
    induction parts generalizing entries with
    | nil =>
      cases h
      nofun
    | cons part rest ih =>
      obtain ⟨key, item⟩ := part
      simp only [List.mapM_cons, Option.bind_eq_bind, Option.bind_eq_some_iff, Option.pure_def,
        Option.some.injEq] at h
      obtain ⟨first, ⟨key', -, value, hvalue, rfl⟩, others, hothers, rfl⟩ := h
      refine List.forall_mem_cons.mpr ⟨⟨_, List.mem_cons_self, hvalue⟩, fun e he => ?_⟩
      obtain ⟨m, hm, heq⟩ := ih hothers e he
      exact ⟨m, List.mem_cons_of_mem _ hm, heq⟩
  · cases h

theorem valuesAt_map {parts : List (String × Document)} (h : (parts.map Prod.fst).Nodup)
    (name : String) :
    valuesAt name (parts.map fun m => (some m.1, m.2)) = (parts.lookup name).toList := by
  unfold valuesAt
  induction parts with
  | nil => rfl
  | cons part rest ih =>
    obtain ⟨key, document⟩ := part
    obtain ⟨hfirst, hrest⟩ := List.nodup_cons.mp h
    rw [List.map_cons, List.filterMap_cons]
    dsimp only
    by_cases hkey : name = key
    · subst hkey
      rw [if_pos rfl, List.lookup_cons_self, ih hrest, Keyed.lookup_eq_none hfirst]
      rfl
    · rw [if_neg fun heq => hkey (Option.some.inj heq).symm, Keyed.lookup_cons_of_ne hkey]
      exact ih hrest

/-- A record that is written as an object with each key once. -/
theorem record_map (names : List String) (inner : Nat) {parts : List (String × Document)}
    (h : (parts.map Prod.fst).Nodup) :
    record names (inner + 1) (.object (parts.map fun m => (some m.1, m.2))) = some fun name =>
      match parts.lookup name with
      | some document => .given inner document
      | none => .absent := by
  have hall : ((parts.map fun m => (some m.1, m.2)).all fun m : Option String × Document =>
      m.1.isSome) = true := by simp
  have hfew : (names.all fun name =>
      (valuesAt name (parts.map fun m => (some m.1, m.2))).length ≤ 1) = true := by
    simp only [List.all_eq_true, decide_eq_true_eq]
    intro name _
    rw [valuesAt_map h]
    cases parts.lookup name <;> simp
  unfold record
  dsimp only
  rw [hall, hfew]
  refine (if_pos rfl).trans (congrArg some (funext fun name => ?_))
  rw [valuesAt_map h]
  cases parts.lookup name <;> rfl

/-- A record that is kept as a value with each key once. -/
theorem record_toDocument (names : List String) (inner : Nat) {json : Json}
    (h : ∃ parts, json = .object parts ∧ (parts.map Prod.fst).Nodup) :
    record names (inner + 1) json.toDocument = some fun name =>
      match json.get? name with
      | some value => .given inner value.toDocument
      | none => .absent := by
  obtain ⟨parts, rfl, honce⟩ := h
  have hparts : parts.map (fun m => (some m.1, m.2.toDocument)) =
      (parts.map fun m => (m.1, m.2.toDocument)).map fun m => (some m.1, m.2) := by
    rw [List.map_map]
    rfl
  rw [toDocument, membersToDocuments_eq_map, hparts,
    record_map _ _ (by rw [List.map_map]; exact honce)]
  refine congrArg some (funext fun name => ?_)
  rw [Keyed.lookup_map, get?]
  cases parts.lookup name <;> rfl

theorem nat_ofNat {n : Nat} (h : n < Fault.wordLimit) (levels : Nat) :
    nat levels (ofNat n).toDocument = some n := if_pos h

theorem string_string (levels : Nat) (s : String) :
    string levels (Json.string s).toDocument = some s := rfl

/-- An array whose items are made one by one. -/
theorem list_array {decode : Decoder α} {inner : Nat} {items : List β} (json : β → Json)
    (f : β → α) (h : ∀ b ∈ items, decode inner (json b).toDocument = some (f b)) :
    list decode (inner + 1) (Json.array (items.map json)).toDocument = some (items.map f) := by
  rw [toDocument, itemsToDocuments_eq_map, List.map_map, list]
  induction items with
  | nil => rfl
  | cons b rest ih =>
    obtain ⟨hfirst, hrest⟩ := List.forall_mem_cons.mp h
    rw [List.map_cons, List.mapM_cons, ih hrest, Function.comp_apply, hfirst]
    rfl

theorem list_ofStrings (inner : Nat) (ss : List String) :
    list string (inner + 1) (ofStrings ss).toDocument = some ss := by
  have hlist := list_array Json.string id fun s (_ : s ∈ ss) => string_string inner s
  rwa [List.map_id] at hlist

/-- The fields of a record stand one level below it. -/
theorem of_record_given {names : List String} {levels : Nat} {document : Document}
    {field : String → Slot} (h : record names levels document = some field)
    (hread : document.IsRead) {name : String} {inner : Nat} {part : Document}
    (hgiven : field name = .given inner part) : levels = inner + 1 ∧ part.IsRead := by
  unfold record at h
  split at h
  · rename_i inner' members
    cases hread with
    | object hmembers =>
      split at h
      · obtain rfl := Option.some.inj h
        dsimp only at hgiven
        split at hgiven
        · rename_i found others hvalues
          cases hgiven
          refine ⟨rfl, ?_⟩
          -- The value of the slot is the first one with the name, so it stands in a member.
          have hmem : part ∈ valuesAt name members := hvalues ▸ List.mem_cons_self
          obtain ⟨m, hm, heq⟩ := List.mem_filterMap.mp hmem
          obtain ⟨key, document⟩ := m
          dsimp only at heq
          by_cases hkey : key = some name
          · rw [if_pos hkey] at heq
            cases heq
            exact hmembers _ hm
          · rw [if_neg hkey] at heq
            cases heq
        · cases hgiven
      · cases h
  · rename_i inner' items
    cases hread with
    | array hitems =>
      split at h
      · obtain rfl := Option.some.inj h
        dsimp only at hgiven
        split at hgiven
        · rename_i found hfound
          cases hgiven
          exact ⟨rfl, hitems _ (List.mem_of_getElem? hfound)⟩
        · cases hgiven
      · cases h
  · cases h

end Decode

end Rephrase.Json
